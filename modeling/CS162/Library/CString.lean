import Mathlib.Data.List.Infix
import Mathlib.Data.List.TakeWhile
import CS162.Library.Outcome

/-!
Arrays of bytes as C programs use them: loads and stores at an index, scans up to the
first byte that stops them, and strings that end with a zero, in which others are looked
for. Arrays of records, the elements of which are written in order. An access outside of
the array is a fault.
-/

namespace CS162.Library

inductive OutOfBounds where
  | read
  | write
  deriving DecidableEq

abbrev CArray := List UInt8

namespace CArray

def load (a : CArray) (i : Nat) : Except OutOfBounds UInt8 :=
  match a[i]? with
  | some c => .ok c
  | none => .error .read

def store (a : CArray) (i : Nat) (c : UInt8) : Except OutOfBounds CArray :=
  if i < a.length then .ok (a.set i c) else .error .write

/-- How many bytes at the start of the array meet a condition: the loop stops at the first
that does not. -/
def scan (p : UInt8 → Bool) : CArray → Except OutOfBounds Nat
  | [] => .error .read
  | c :: a => if p c then (scan p a).map (· + 1) else .ok 0

/-- So many bytes from an index on. -/
def slice (a : CArray) (start size : Nat) : Except OutOfBounds CArray :=
  if start + size ≤ a.length then .ok ((a.drop start).take size) else .error .read

/-- Bytes written at the start of the array. -/
def fill (a : CArray) (bytes : List UInt8) : Except OutOfBounds CArray :=
  if bytes.length ≤ a.length then .ok (bytes ++ a.drop bytes.length) else .error .write

/-- The string at the start of the array. -/
def string (a : CArray) : Except OutOfBounds (List UInt8) := (scan (· != 0) a).map a.take

def strcpy (a : CArray) (s : List UInt8) : Except OutOfBounds CArray := fill a (s ++ [0])

def strcat (a : CArray) (s : List UInt8) : Except OutOfBounds CArray := do
  let front ← string a
  fill a (front ++ s ++ [0])

/-- `snprintf` of this text, for an array said to be of this size. -/
def snprintf (a : CArray) (size : Nat) (text : List UInt8) : Except OutOfBounds CArray :=
  if size = 0 then .ok a else strcpy a (text.take (size - 1))

variable {a : CArray} {l bytes rest : List UInt8} {p : UInt8 → Bool} {c d : UInt8}

theorem load_append : load (l ++ c :: rest) l.length = .ok c := by
  rw [load, List.getElem?_append_right (Nat.le_refl _), Nat.sub_self]
  rfl

theorem lt_of_store {i : Nat} {b : CArray} (done : store a i c = .ok b) : i < a.length ∧ b.length = a.length := by
  rw [store] at done
  split at done
  · cases done
    exact ⟨‹i < a.length›, List.length_set⟩
  · cases done

theorem store_append : store (l ++ d :: rest) l.length c = .ok (l ++ c :: rest) := by
  rw [store, if_pos (by simp), List.set_append_right _ _ (Nat.le_refl _), Nat.sub_self]
  rfl

theorem scan_append (stop : p c = false) : scan p (l ++ c :: rest) = .ok (l.takeWhile p).length := by
  induction l with
  | nil => exact if_neg (by simp [stop])
  | cons d l ih =>
      rw [List.cons_append, scan]
      by_cases go : p d = true
      · rw [if_pos go, ih, List.takeWhile_cons_of_pos go]
        rfl
      · rw [if_neg go, List.takeWhile_cons_of_neg go]
        rfl

theorem slice_append (front : List UInt8) :
    slice (front ++ (bytes ++ rest)) front.length bytes.length = .ok bytes := by
  rw [slice, if_pos (by simp [← Nat.add_assoc]), List.drop_left, List.take_left]

theorem string_append (solid : 0 ∉ l) : string (l ++ 0 :: rest) = .ok l := by
  have whole : l.takeWhile (· != 0) = l :=
    List.takeWhile_eq_self_iff.mpr fun c inside => bne_iff_ne.mpr fun same => solid (same ▸ inside)
  rw [string, scan_append (by decide), whole]
  exact congrArg _ (List.take_left)

theorem scan_all (all : ∀ c ∈ a, p c = true) : scan p a = .error .read := by
  induction a with
  | nil => rfl
  | cons c a ih =>
      obtain ⟨first, others⟩ := List.forall_mem_cons.mp all
      rw [scan, if_pos first, ih others]
      rfl

theorem string_of_solid (solid : 0 ∉ a) : string a = .error .read := by
  have all : ∀ c ∈ a, (c != 0) = true := fun c inside => bne_iff_ne.mpr fun same => solid (same ▸ inside)
  rw [string, scan_all all]
  rfl

theorem string_of_mem (ends : 0 ∈ a) : ∃ l, string a = .ok l := by
  obtain ⟨l, rest, rfl, solid⟩ := List.eq_append_cons_of_mem ends
  exact ⟨l, string_append solid⟩

theorem strcpy_of_lt (room : l.length < a.length) :
    strcpy a l = .ok (l ++ 0 :: a.drop (l.length + 1)) := by
  have fits : (l ++ [0]).length ≤ a.length := by
    rw [List.length_append, List.length_singleton]
    exact room
  rw [strcpy, fill, if_pos fits, List.append_assoc, List.length_append, List.length_singleton]
  rfl

theorem strcpy_of_le (full : a.length ≤ l.length) : strcpy a l = .error .write :=
  if_neg (by simp; omega)

theorem length_strcpy {b : CArray} (done : strcpy a l = .ok b) : b.length = a.length := by
  by_cases room : l.length < a.length
  · rw [strcpy_of_lt room] at done
    cases done
    simp only [List.length_append, List.length_cons, List.length_drop]
    omega
  · rw [strcpy_of_le (by omega)] at done
    cases done

theorem snprintf_of_lt {size : Nat} (fits : l.length < size) : snprintf a size l = strcpy a l := by
  rw [snprintf, if_neg (by omega), List.take_of_length_le (by omega)]

theorem strcpy_strcpy {b : CArray} (done : strcpy a l = .ok b) (longer : l.length ≤ bytes.length) :
    strcpy b bytes = strcpy a bytes := by
  by_cases room : l.length < a.length
  case neg =>
    rw [strcpy_of_le (by omega)] at done
    cases done
  case pos =>
    have length := length_strcpy done
    rw [strcpy_of_lt room] at done
    cases done
    by_cases fits : bytes.length < a.length
    · obtain ⟨more, more_eq⟩ := Nat.exists_eq_add_of_le longer
      have behind : (l ++ 0 :: a.drop (l.length + 1)).drop (bytes.length + 1) = a.drop (bytes.length + 1) := by
        rw [more_eq, Nat.add_assoc, ← List.drop_drop, List.drop_left, List.drop_succ_cons, List.drop_drop]
        congr 1
        omega
      rw [strcpy_of_lt (length ▸ fits), strcpy_of_lt fits, behind]
    · rw [strcpy_of_le (by omega), strcpy_of_le (by omega)]

theorem strcpy_strcat (solid : 0 ∉ l) : (strcpy a l >>= fun b => strcat b bytes) = strcpy a (l ++ bytes) := by
  by_cases room : l.length < a.length
  case neg =>
    rw [strcpy_of_le (by omega), strcpy_of_le (by rw [List.length_append]; omega)]
    rfl
  case pos =>
    have done := strcpy_of_lt room
    rw [done, ok_bind, strcat, string_append solid]
    exact strcpy_strcpy done (by rw [List.length_append]; exact Nat.le_add_right ..)

theorem fill_of_le (room : bytes.length ≤ a.length) : fill a bytes = .ok (bytes ++ a.drop bytes.length) :=
  if_pos room

section Search
variable {needle text : List UInt8} {i : Nat}

/-- Where a text has another one for the first time. -/
def firstAt (needle : List UInt8) : List UInt8 → Option Nat
  | [] => if needle = [] then some 0 else none
  | c :: text => if needle <+: c :: text then some 0 else (firstAt needle text).map (· + 1)

/-- `strstr`: the index of the string in the one that begins at an index. -/
def strstr (a : CArray) (start : Nat) (needle : CArray) : Except OutOfBounds (Option Nat) := do
  let text ← string (a.drop start)
  let needle ← string needle
  return (firstAt needle text).map (start + ·)

theorem firstAt_isSome_iff : (firstAt needle text).isSome ↔ needle <:+: text := by
  induction text with
  | nil =>
      rw [firstAt, List.infix_nil]
      split <;> simp [*]
  | cons c text ih =>
      rw [firstAt, List.infix_cons_iff]
      by_cases here : needle <+: c :: text
      · rw [if_pos here]
        exact iff_of_true rfl (.inl here)
      · rw [if_neg here, Option.isSome_map, ih]
        exact (or_iff_right here).symm

theorem firstAt_singleton (clean : c ∉ l) : firstAt [c] (l ++ c :: rest) = some l.length := by
  induction l with
  | nil => exact if_pos (List.cons_prefix_cons.mpr ⟨rfl, List.nil_prefix⟩)
  | cons d l ih =>
      obtain ⟨other, clean⟩ := not_or.mp (mt List.mem_cons.mpr clean)
      rw [List.cons_append, firstAt, if_neg fun here => other (List.cons_prefix_cons.mp here).1, ih clean]
      rfl

theorem firstAt_of_notMem (clean : c ∉ text) : firstAt [c] text = none := by
  rw [← Option.not_isSome_iff_eq_none, firstAt_isSome_iff, List.singleton_infix_iff]
  exact clean

theorem le_of_strstr {start : Nat} {needle : CArray} (found : strstr a start needle = .ok (some i)) :
    start ≤ i := by
  obtain ⟨text, -, found⟩ := bind_eq_ok found
  obtain ⟨needle, -, found⟩ := bind_eq_ok found
  obtain ⟨offset, -, rfl⟩ := Option.map_eq_some_iff.mp (Except.ok.inj found)
  exact Nat.le_add_right _ _

theorem strstr_append {front needle_rest : List UInt8} (solid : 0 ∉ text) (needle_solid : 0 ∉ needle) :
    strstr (front ++ (text ++ 0 :: rest)) front.length (needle ++ 0 :: needle_rest) =
      .ok ((firstAt needle text).map (front.length + ·)) := by
  rw [strstr, List.drop_left, string_append solid, ok_bind, string_append needle_solid, ok_bind]
  rfl

end Search

end CArray

section Slots
variable {α : Type*} {done : List α} {slots : Nat}

/-- An element of the array is written; one that has not been is `none`. -/
def storeSlot (array : List (Option α)) (i : Nat) (x : α) : Except OutOfBounds (List (Option α)) :=
  if i < array.length then .ok (array.set i (some x)) else .error .write

/-- An array that has been filled up to the last elements. -/
def filled (done : List α) (slots : Nat) : List (Option α) := done.map some ++ List.replicate slots none

theorem filled_zero : filled done 0 = done.map some := List.append_nil _

theorem storeSlot_filled (x : α) :
    storeSlot (filled done (slots + 1)) done.length x = .ok (filled (done ++ [x]) slots) := by
  have length : (done.map some).length = done.length := List.length_map _
  rw [storeSlot, filled, List.replicate_succ, if_pos (by simp), ← length, List.set_append_right _ _ (Nat.le_refl _),
    Nat.sub_self, filled, List.map_append, List.append_assoc]
  rfl

end Slots

/-- The longest start of a list whose elements meet a condition, and what is left. -/
theorem span_eq_iff {α : Type*} {p : α → Bool} {l front back : List α} :
    (l.takeWhile p = front ∧ l.dropWhile p = back) ↔
      l = front ++ back ∧ (∀ c ∈ front, p c = true) ∧ ∀ c, back.head? = some c → p c = false := by
  constructor
  · rintro ⟨rfl, rfl⟩
    refine ⟨List.takeWhile_append_dropWhile.symm, fun c inside => List.mem_takeWhile_imp inside, fun c first => ?_⟩
    have stopped := List.head?_dropWhile_not p l
    rwa [first] at stopped
  · rintro ⟨rfl, all, stop⟩
    rw [List.takeWhile_append_of_pos all, List.dropWhile_append_of_pos all]
    cases back with
    | nil => simp
    | cons c back => simp [stop c rfl]

end CS162.Library
