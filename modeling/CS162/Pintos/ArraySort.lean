import CS162.Library.ByteMemory
import Mathlib.Logic.Function.Basic
import CS162.Library.HeapSort
import CS162.Library.Outcome

/-!
Sorting and searching arrays (proj-pregame: lib/stdlib.c), over the bytes of memory. A
`size_t` and a pointer are numbers below 2^32, and what is computed with them wraps around.
A pointer that is dereferenced or passed to the comparison function has to be one to an
element of the array, and is a fault otherwise. The comparison function sees the bytes of two
elements; it is not a null pointer.

`sort` sorts. In memory the heap sort of the elements takes place: an index stands for the
pointer to its element, a swap of bytes for one of elements, and all that is touched are
elements of the array. Twice an index has to be a `size_t` for this.
-/

namespace CS162.Pintos.Stdlib
open CS162.Library

inductive Fault where
  | assertion
  | outside
  | rounds
  deriving DecidableEq

/-- The array that a caller passes: its address, the number of its elements and their size. -/
structure Span where
  array : Nat
  cnt : Nat
  size : Nat

/-- The contents of an element. -/
abbrev Element (s : Span) : Type := Vector UInt8 s.size

/-- A `size_t`, or a pointer. -/
def word (n : Nat) : Nat := n % 2 ^ 32

def assert (condition : Bool) : Except Fault Unit :=
  if condition then .ok () else .error .assertion

section Model
variable {A : Type} (s : Span) (compare : Element s → Element s → A → Int) (aux : A)

/-- The bytes that a pointer points to. -/
def element (m : Library.Memory) (p : Nat) : Element s := Vector.ofFn fun i => m (p + i)

/-- A pointer to an element of the array, and no other pointer. -/
def check (p : Nat) : Except Fault Nat :=
  if s.array ≤ p ∧ p + s.size ≤ s.array + s.cnt * s.size ∧ s.size ∣ p - s.array then .ok p
  else .error .outside

/-- `array + (idx - 1) * size` -/
def pointer (idx : Nat) : Except Fault Nat :=
  check s (word (s.array + word (word (idx + (2 ^ 32 - 1)) * s.size)))

section Sorting

/-- The loop of `do_swap`. -/
def swapBytes (m : Library.Memory) (a b size : Nat) : Library.Memory :=
  (List.range size).foldl
    (fun m i => Function.update (Function.update m (a + i) (m (b + i))) (b + i) (m (a + i))) m

def doSwap (m : Library.Memory) (aIdx bIdx : Nat) : Except Fault Library.Memory := do
  let a ← pointer s aIdx
  let b ← pointer s bIdx
  return swapBytes m a b s.size

def doCompare (m : Library.Memory) (aIdx bIdx : Nat) : Except Fault Int := do
  let a ← pointer s aIdx
  let b ← pointer s bIdx
  return compare (element s m a) (element s m b) aux

/-- The index of a child if that is in the heap and larger, otherwise `max`. -/
def maxOf (m : Library.Memory) (cnt child max : Nat) : Except Fault Nat :=
  if child ≤ cnt then do
    let order ← doCompare s compare aux m child max
    return if order > 0 then child else max
  else return max

/-- `heapify`, for so many rounds of its loop. -/
def heapify (cnt : Nat) : Nat → Library.Memory → Nat → Except Fault Library.Memory
  | 0, _, _ => .error .rounds
  | rounds + 1, m, i => do
      let left := word (2 * i)
      let right := word (2 * i + 1)
      let max ← maxOf s compare aux m cnt left i
      let max ← maxOf s compare aux m cnt right max
      if max = i then return m
      let m ← doSwap s m i max
      heapify cnt rounds m max

/-- The first loop of `sort`, from an index on. -/
def buildLoop (rounds : Nat) : Nat → Library.Memory → Except Fault Library.Memory
  | 0, m => return m
  | i + 1, m => do
      let m ← heapify s compare aux s.cnt rounds m (i + 1)
      buildLoop rounds i m

/-- The second loop of `sort`. -/
def sortLoop (rounds : Nat) : Nat → Library.Memory → Except Fault Library.Memory
  | 0, m | 1, m => return m
  | i + 2, m => do
      let m ← doSwap s m 1 (i + 2)
      let m ← heapify s compare aux (i + 1) rounds m 1
      sortLoop rounds (i + 1) m

def sort (rounds : Nat) (m : Library.Memory) : Except Fault Library.Memory := do
  assert (s.array ≠ 0 ∨ s.cnt = 0)
  assert (s.size > 0)
  let m ← buildLoop s compare aux rounds (s.cnt / 2) m
  sortLoop s compare aux rounds s.cnt m

end Sorting

section Searching

/-- The loop of `binary_search`; `none` is the null pointer. -/
def searchLoop (m : Library.Memory) (key : Nat) : Nat → (first last : Nat) → Except Fault (Option Nat)
  | 0, _, _ => .error .rounds
  | rounds + 1, first, last =>
      if first < last then do
        let range := (last - first) / s.size
        let middle ← check s (word (first + word (range / 2 * s.size)))
        let cmp := compare (element s m key) (element s m middle) aux
        if cmp < 0 then searchLoop m key rounds first middle
        else if cmp > 0 then searchLoop m key rounds (word (middle + s.size)) last
        else return some middle
      else return none

def binarySearch (rounds : Nat) (m : Library.Memory) (key : Nat) : Except Fault (Option Nat) :=
  searchLoop s compare aux m key rounds s.array (word (s.array + word (s.size * s.cnt)))

end Searching

def compareThunk (a b : Element s) (aux : Element s → Element s → Int) : Int := aux a b

def qsort (compare : Element s → Element s → Int) (rounds : Nat) (m : Library.Memory) :
    Except Fault Library.Memory :=
  sort s (compareThunk s) compare rounds m

def bsearch (compare : Element s → Element s → Int) (rounds : Nat) (m : Library.Memory) (key : Nat) :
    Except Fault (Option Nat) :=
  binarySearch s (compareThunk s) compare rounds m key

end Model

variable {A : Type} {s : Span} {m m' : Library.Memory}

section Pointers
variable {k a b : Nat}

/-- An array of elements that have bytes, with a pointer to behind it. -/
structure Fits (s : Span) : Prop where
  some_byte : 0 < s.size
  bound : s.array + s.cnt * s.size < 2 ^ 32

/-- Where the element with a 1-based index is. -/
def place (s : Span) (k : Nat) : Nat := s.array + (k - 1) * s.size

theorem word_of_lt {n : Nat} (small : n < 2 ^ 32) : word n = n := Nat.mod_eq_of_lt small

theorem place_add_size (pos : 0 < k) : place s k + s.size = s.array + k * s.size := by
  have next : (k - 1) * s.size + s.size = k * s.size := by
    rw [← Nat.succ_mul, Nat.succ_eq_add_one, Nat.sub_add_cancel pos]
  rw [place, Nat.add_assoc, next]

theorem Fits.cnt_lt (fits : Fits s) : s.cnt < 2 ^ 32 := by
  have all := Nat.le_mul_of_pos_right s.cnt fits.some_byte
  have bound := fits.bound
  omega

theorem check_place (pos : 0 < k) (inside : k ≤ s.cnt) : check s (place s k) = .ok (place s k) := by
  have within := Nat.mul_le_mul_right s.size inside
  rw [check, if_pos]
  refine ⟨Nat.le_add_right _ _, ?_, ?_⟩
  · rw [place_add_size pos]
    omega
  · rw [place, Nat.add_sub_cancel_left]
    exact Nat.dvd_mul_left _ _

theorem pointer_eq (fits : Fits s) (pos : 0 < k) (inside : k ≤ s.cnt) :
    pointer s k = .ok (place s k) := by
  have bound := fits.bound
  have cnt_lt := fits.cnt_lt
  have within := Nat.mul_le_mul_right s.size (Nat.le_trans (Nat.sub_le k 1) inside)
  have index : word (k + (2 ^ 32 - 1)) = k - 1 := by
    rw [word]
    omega
  rw [pointer, index, word_of_lt (show (k - 1) * s.size < 2 ^ 32 by omega),
    word_of_lt (show s.array + (k - 1) * s.size < 2 ^ 32 by omega)]
  exact check_place pos inside

theorem place_apart (a_pos : 0 < a) (less : a < b) : place s a + s.size ≤ place s b := by
  rw [place_add_size a_pos, place]
  exact Nat.add_le_add_left (Nat.mul_le_mul_right s.size (Nat.le_sub_one_of_lt less)) s.array

end Pointers

section Swaps
variable {a b size x k : Nat} {f : Nat → Element s}

theorem swapBytes_succ (m : Library.Memory) (a b size : Nat) :
    swapBytes m a b (size + 1) =
      Function.update (Function.update (swapBytes m a b size) (a + size) (swapBytes m a b size (b + size)))
        (b + size) (swapBytes m a b size (a + size)) := by
  rw [swapBytes, List.range_succ, List.foldl_append]
  rfl

theorem swapBytes_apply (apart : a + size ≤ b ∨ b + size ≤ a) :
    swapBytes m a b size x =
      if a ≤ x ∧ x < a + size then m (b + (x - a))
      else if b ≤ x ∧ x < b + size then m (a + (x - b))
      else m x := by
  induction size generalizing x with
  | zero => rw [if_neg (by omega), if_neg (by omega), swapBytes, List.range_zero, List.foldl_nil]
  | succ size ih =>
      have apart' : a + size ≤ b ∨ b + size ≤ a := by omega
      rw [swapBytes_succ, ih apart', ih apart', if_neg (by omega), if_neg (by omega), if_neg (by omega),
        if_neg (by omega)]
      simp only [Function.update_apply]
      by_cases last_b : x = b + size
      · rw [if_pos last_b, if_neg (by omega), if_pos (by omega), last_b, Nat.add_sub_cancel_left]
      · rw [if_neg last_b]
        by_cases last_a : x = a + size
        · rw [if_pos last_a, if_pos (by omega), last_a, Nat.add_sub_cancel_left]
        · rw [if_neg last_a, ih apart']
          by_cases in_a : a ≤ x ∧ x < a + size
          · rw [if_pos in_a, if_pos (by omega)]
          · rw [if_neg in_a]
            by_cases in_b : b ≤ x ∧ x < b + size
            · rw [if_pos in_b, if_neg (by omega), if_pos (by omega)]
            · rw [if_neg in_b, if_neg (by omega), if_neg (by omega)]

/-- The elements of the array are these values. -/
def Holds (s : Span) (m : Library.Memory) (f : Nat → Element s) : Prop :=
  ∀ k, 0 < k → k ≤ s.cnt → element s m (place s k) = f k

theorem places_apart (a_pos : 0 < a) (b_pos : 0 < b) (ne : a ≠ b) :
    place s a + s.size ≤ place s b ∨ place s b + s.size ≤ place s a := by
  cases Nat.lt_or_gt_of_ne ne with
  | inl less => exact .inl (place_apart a_pos less)
  | inr more => exact .inr (place_apart b_pos more)

theorem element_congr {p q : Nat} (same : ∀ i, i < s.size → m' (p + i) = m (q + i)) :
    element s m' p = element s m q := by
  apply Vector.ext
  intro i inside
  simp only [element, Vector.getElem_ofFn]
  exact same i inside

theorem Holds.swap (holds : Holds s m f) (a_pos : 0 < a) (a_in : a ≤ s.cnt) (b_pos : 0 < b)
    (b_in : b ≤ s.cnt) (ne : a ≠ b) :
    Holds s (swapBytes m (place s a) (place s b) s.size) (f ∘ Equiv.swap a b) := by
  have apart := places_apart (s := s) a_pos b_pos ne
  intro k pos inside
  rw [Function.comp_apply]
  by_cases here : k = a
  · subst here
    rw [Equiv.swap_apply_left, ← holds b b_pos b_in]
    apply element_congr
    intro i inside
    rw [swapBytes_apply apart, if_pos (by omega), Nat.add_sub_cancel_left]
  · by_cases there : k = b
    · subst there
      rw [Equiv.swap_apply_right, ← holds a a_pos a_in]
      apply element_congr
      intro i inside
      rw [swapBytes_apply apart, if_neg (by omega), if_pos (by omega), Nat.add_sub_cancel_left]
    · rw [Equiv.swap_apply_of_ne_of_ne here there, ← holds k pos inside]
      have from_a := places_apart (s := s) pos a_pos here
      have from_b := places_apart (s := s) pos b_pos there
      apply element_congr
      intro i inside
      rw [swapBytes_apply apart, if_neg (by omega), if_neg (by omega)]

theorem doSwap_spec (fits : Fits s) (holds : Holds s m f) (a_pos : 0 < a) (a_in : a ≤ s.cnt)
    (b_pos : 0 < b) (b_in : b ≤ s.cnt) (ne : a ≠ b) :
    ∃ m', doSwap s m a b = .ok m' ∧ Holds s m' (f ∘ Equiv.swap a b) ∧
      Memory.SameOff s.array (s.cnt * s.size) m m' := by
  refine ⟨_, ?_, holds.swap a_pos a_in b_pos b_in ne, ?_⟩
  · rw [doSwap, pointer_eq fits a_pos a_in, ok_bind, pointer_eq fits b_pos b_in, ok_bind]
    rfl
  · intro x away
    have a_end := place_add_size (s := s) a_pos
    have b_end := place_add_size (s := s) b_pos
    have a_within := Nat.mul_le_mul_right s.size a_in
    have b_within := Nat.mul_le_mul_right s.size b_in
    have a_start : s.array ≤ place s a := Nat.le_add_right _ _
    have b_start : s.array ≤ place s b := Nat.le_add_right _ _
    rw [swapBytes_apply (places_apart a_pos b_pos ne), if_neg (by omega), if_neg (by omega)]

end Swaps

section Heaps
variable (compare : Element s → Element s → A → Int) (aux : A) {f : Nat → Element s}
  {cnt rounds i child max : Nat}

theorem maxOf_spec (fits : Fits s) (holds : Holds s m f) (bound : cnt ≤ s.cnt) (child_pos : 0 < child)
    (max_pos : 0 < max) (max_in : max ≤ s.cnt) :
    maxOf s compare aux m cnt child max = .ok (larger (compare · · aux) f cnt child max) := by
  rw [maxOf, larger]
  by_cases inside : child ≤ cnt
  · have child_in := Nat.le_trans inside bound
    rw [if_pos inside, doCompare, pointer_eq fits child_pos child_in, ok_bind,
      pointer_eq fits max_pos max_in, ok_bind, holds child child_pos child_in, holds max max_pos max_in]
    simp only [inside, true_and]
    rfl
  · rw [if_neg inside, if_neg (fun both => inside both.1)]
    rfl

theorem heapify_spec (fits : Fits s) (few : s.cnt < 2 ^ 31) (holds : Holds s m f) (bound : cnt ≤ s.cnt)
    (pos : 0 < i) (inside : i ≤ s.cnt) (enough : cnt - i < rounds) :
    ∃ m', heapify s compare aux cnt rounds m i = .ok m' ∧
      Holds s m' (siftDown (compare · · aux) cnt rounds f i) ∧
      Memory.SameOff s.array (s.cnt * s.size) m m' := by
  induction rounds generalizing m f i with
  | zero => exact absurd enough (Nat.not_lt_zero _)
  | succ rounds ih =>
      have left := larger_cases (compare · · aux) f cnt (2 * i) i
      have first := maxOf_spec compare aux fits holds bound
        (show 0 < 2 * i by omega) pos inside
      have second := maxOf_spec compare aux fits holds bound
        (show 0 < 2 * i + 1 by omega)
        (show 0 < larger (compare · · aux) f cnt (2 * i) i by omega) (by omega)
      rw [heapify, word_of_lt (show 2 * i < 2 ^ 32 by omega),
        word_of_lt (show 2 * i + 1 < 2 ^ 32 by omega), first, ok_bind, second, ok_bind, siftDown]
      change ∃ m', (if largest (compare · · aux) f cnt i = i then _ else _) = _ ∧ _
      split
      next => exact ⟨m, rfl, holds, fun _ _ => rfl⟩
      next down =>
        have deeper := (largest_cases (compare · · aux) f cnt i pos).resolve_left down
        obtain ⟨m1, swapped, holds1, same1⟩ := doSwap_spec fits holds pos inside
          (show 0 < largest (compare · · aux) f cnt i by omega) (by omega) (Ne.symm down)
        obtain ⟨m2, sifted, holds2, same2⟩ := ih (i := largest (compare · · aux) f cnt i) holds1
          (by omega) (by omega) (by omega)
        refine ⟨m2, ?_, holds2, same1.trans same2⟩
        rw [← largest, swapped, ok_bind]
        exact sifted

end Heaps

section Sorting
variable (compare : Element s → Element s → A → Int) (aux : A) {f : Nat → Element s}
  {rounds i : Nat}

theorem buildLoop_spec (fits : Fits s) (few : s.cnt < 2 ^ 31) (holds : Holds s m f)
    (inside : i ≤ s.cnt) (enough : s.cnt ≤ rounds) :
    ∃ m', buildLoop s compare aux rounds i m = .ok m' ∧
      Holds s m' (buildHeap (compare · · aux) s.cnt rounds i f) ∧
      Memory.SameOff s.array (s.cnt * s.size) m m' := by
  induction i generalizing m f with
  | zero => exact ⟨m, rfl, holds, fun _ _ => rfl⟩
  | succ i ih =>
      obtain ⟨m1, sifted, holds1, same1⟩ := heapify_spec compare aux fits few
        holds (Nat.le_refl _) (Nat.succ_pos i) inside (show s.cnt - (i + 1) < rounds by omega)
      obtain ⟨m2, built, holds2, same2⟩ := ih holds1 (Nat.le_of_succ_le inside)
      refine ⟨m2, ?_, holds2, same1.trans same2⟩
      rw [buildLoop, sifted, ok_bind]
      exact built

theorem sortLoop_spec (fits : Fits s) (few : s.cnt < 2 ^ 31) (holds : Holds s m f)
    (inside : i ≤ s.cnt) (enough : s.cnt ≤ rounds) :
    ∃ m', sortLoop s compare aux rounds i m = .ok m' ∧
      Holds s m' (sortHeap (compare · · aux) rounds i f) ∧
      Memory.SameOff s.array (s.cnt * s.size) m m' := by
  induction i using Nat.strong_induction_on generalizing m f with
  | _ i ih =>
      match i with
      | 0 | 1 => exact ⟨m, rfl, holds, fun _ _ => rfl⟩
      | i + 2 =>
          obtain ⟨m1, swapped, holds1, same1⟩ := doSwap_spec fits holds Nat.one_pos (by omega)
            (show 0 < i + 2 by omega) inside (by omega)
          obtain ⟨m2, sifted, holds2, same2⟩ := heapify_spec compare aux fits
            few holds1 (show i + 1 ≤ s.cnt by omega) Nat.one_pos (by omega)
            (show i + 1 - 1 < rounds by omega)
          obtain ⟨m3, sorted, holds3, same3⟩ := ih (i + 1) (by omega) holds2 (by omega)
          refine ⟨m3, ?_, holds3, (same1.trans same2).trans same3⟩
          rw [sortLoop, swapped, ok_bind, sifted, ok_bind]
          exact sorted

/-- The elements of the array, in their order. -/
def elements (s : Span) (m : Library.Memory) : List (Element s) :=
  (List.range' 1 s.cnt).map fun k => element s m (place s k)

theorem Holds.elements_eq (holds : Holds s m f) : elements s m = (List.range' 1 s.cnt).map f := by
  apply List.map_congr_left
  intro k mem
  rw [List.mem_range'_1] at mem
  exact holds k (by omega) (by omega)

/-- The call returns, with the elements of the array in order and the bytes around it as they
were; no pointer on the way was one to anything but an element. -/
def Sorts (s : Span) (le : Element s → Element s → Prop) (m : Library.Memory)
    (result : Except Fault Library.Memory) : Prop :=
  ∃ m', result = .ok m' ∧ (elements s m').Perm (elements s m) ∧ (elements s m').Pairwise le ∧
    Memory.SameOff s.array (s.cnt * s.size) m m'

theorem sort_spec (fits : Fits s) (few : s.cnt < 2 ^ 31) (some_array : s.array ≠ 0 ∨ s.cnt = 0)
    (total : TotalPreorder (compare · · aux)) (enough : s.cnt ≤ rounds) :
    Sorts s (fun a b => compare a b aux ≤ 0) m (sort s compare aux rounds m) := by
  have holds : Holds s m fun k => element s m (place s k) := fun _ _ _ => rfl
  obtain ⟨m1, built, holds1, same1⟩ := buildLoop_spec compare aux fits few holds
    (Nat.div_le_self s.cnt 2) enough
  obtain ⟨m2, sorted, holds2, same2⟩ := sortLoop_spec compare aux fits few holds1
    (Nat.le_refl s.cnt) enough
  refine ⟨m2, ?_, ?_, ?_, same1.trans same2⟩
  · rw [sort, decide_eq_true some_array, decide_eq_true fits.some_byte]
    simp only [assert, ok_bind, if_true, built]
    exact sorted
  · rw [holds2.elements_eq, holds.elements_eq]
    exact (heapSort_rearranged (compare · · aux) rounds s.cnt _).perm
  · rw [holds2.elements_eq]
    exact total.heapSort_sorted enough

/-- `sort`, and `qsort` through `compare_thunk`, sort every array of fewer than 2^31 elements. -/
theorem sort_sorts (fits : Fits s) (few : s.cnt < 2 ^ 31) (some_array : s.array ≠ 0 ∨ s.cnt = 0)
    (m : Library.Memory) {rounds : Nat} (enough : s.cnt ≤ rounds) :
    (∀ (A : Type) (compare : Element s → Element s → A → Int) (aux : A),
      TotalPreorder (compare · · aux) →
      Sorts s (fun a b => compare a b aux ≤ 0) m (sort s compare aux rounds m)) ∧
    (∀ compare : Element s → Element s → Int, TotalPreorder compare →
      Sorts s (fun a b => compare a b ≤ 0) m (qsort s compare rounds m)) := by
  constructor
  · intro A compare aux total
    exact sort_spec compare aux fits few some_array total enough
  · intro compare total
    exact sort_spec (compareThunk s) compare fits few some_array total enough

end Sorting

section Bytes

/-- Elements by their first bytes. -/
def byFirst (a b : Element s) : Int := (a.toList.headD 0).toNat - (b.toList.headD 0).toNat

theorem byFirst_total (s : Span) : TotalPreorder (byFirst (s := s)) where
  reverse a b := by
    simp only [byFirst]
    omega
  trans a b c := by
    simp only [byFirst]
    omega

/-- Three bytes, the largest first. -/
theorem sort_sorts_of_bytes :
    Sorts ⟨4096, 3, 1⟩ (fun a b => byFirst a b ≤ 0) (fun x => UInt8.ofNat (4100 - x))
      (qsort ⟨4096, 3, 1⟩ byFirst 3 fun x => UInt8.ofNat (4100 - x)) :=
  (sort_sorts ⟨by decide, by decide⟩ (by decide) (by decide) (fun x => UInt8.ofNat (4100 - x))
    (by decide)).2 byFirst (byFirst_total _)

/-- An array of 2^31 elements of one byte. -/
def huge : Span := ⟨2 ^ 28, 2 ^ 31, 1⟩

/-- Its last element is larger than all others. -/
def lastLargest : Library.Memory := fun x => if x = 2 ^ 28 + 2 ^ 31 - 1 then 1 else 0

theorem huge_fits : Fits huge := ⟨by decide, by decide⟩

theorem byFirst_element (m : Library.Memory) (p q : Nat) :
    byFirst (element huge m p) (element huge m q) = (m p).toNat - (m q).toNat := by
  simp [byFirst, element, huge, Vector.toList_ofFn, List.ofFn_succ]

theorem huge_pointer_zero : pointer huge 0 = .error .outside := by
  rfl

theorem huge_maxOf :
    maxOf huge (compareThunk huge) byFirst lastLargest huge.cnt (2 ^ 31) (2 ^ 30) = .ok (2 ^ 31) := by
  have last : pointer huge (2 ^ 31) = .ok (place huge (2 ^ 31)) :=
    pointer_eq huge_fits (by decide) (by decide)
  have parent : pointer huge (2 ^ 30) = .ok (place huge (2 ^ 30)) :=
    pointer_eq huge_fits (by decide) (by decide)
  have one : lastLargest (place huge (2 ^ 31)) = 1 := rfl
  have zero : lastLargest (place huge (2 ^ 30)) = 0 := rfl
  rw [maxOf, if_pos (by decide), doCompare, last, ok_bind, parent, ok_bind, compareThunk,
    byFirst_element, one, zero]
  rfl

/-- The last element goes to the place of its parent, and what was there to an index
of which the double is zero. -/
theorem huge_outside :
    Fits huge ∧ huge.array ≠ 0 ∧ TotalPreorder (byFirst (s := huge)) ∧
      ∀ rounds, 2 ≤ rounds → qsort huge byFirst rounds lastLargest = .error .outside := by
  refine ⟨huge_fits, by decide, byFirst_total huge, ?_⟩
  intro rounds enough
  obtain ⟨rounds, rfl⟩ : ∃ n, rounds = n + 2 := ⟨rounds - 2, by omega⟩
  have half : huge.cnt / 2 = 1073741823 + 1 := rfl
  have below : maxOf huge (compareThunk huge) byFirst lastLargest huge.cnt (2 ^ 31 + 1) (2 ^ 31) =
      .ok (2 ^ 31) := by
    rw [maxOf, if_neg (by decide)]
    rfl
  have swapped : doSwap huge lastLargest (2 ^ 30) (2 ^ 31) =
      .ok (swapBytes lastLargest (place huge (2 ^ 30)) (place huge (2 ^ 31)) 1) := by
    rw [doSwap, pointer_eq huge_fits (by decide) (by decide), ok_bind,
      pointer_eq huge_fits (by decide) (by decide), ok_bind]
    rfl
  have wrapped (m : Library.Memory) :
      heapify huge (compareThunk huge) byFirst huge.cnt (rounds + 1) m (2 ^ 31) = .error .outside := by
    have left : word (2 * 2 ^ 31) = 0 := rfl
    rw [heapify, left, maxOf, if_pos (by decide), doCompare, huge_pointer_zero]
    rfl
  have first : heapify huge (compareThunk huge) byFirst huge.cnt (rounds + 2) lastLargest (2 ^ 30) =
      .error .outside := by
    have left : word (2 * 2 ^ 30) = 2 ^ 31 := rfl
    have right : word (2 * 2 ^ 30 + 1) = 2 ^ 31 + 1 := rfl
    rw [heapify, left, right, huge_maxOf, ok_bind, below, ok_bind, if_neg (by decide), swapped, ok_bind]
    exact wrapped _
  have started : assert (decide (huge.array ≠ 0 ∨ huge.cnt = 0)) = .ok () := rfl
  have sized : assert (decide (huge.size > 0)) = .ok () := rfl
  rw [qsort, sort, started, ok_bind, sized, ok_bind, half, buildLoop]
  have first' : heapify huge (compareThunk huge) byFirst huge.cnt (rounds + 2) lastLargest
      (1073741823 + 1) = .error .outside := first
  rw [first']
  rfl

end Bytes

end CS162.Pintos.Stdlib
