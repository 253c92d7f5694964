import Mathlib.Data.Set.Card
import Mathlib.Order.Defs.Unbundled
import CS162.Library.Buckets
import CS162.Library.Transition

/-!
The hash table (Pintos: lib/kernel/hash.c). An element goes by its pointer, and a bucket is the
list of its elements. A call that rehashes is told whether there is memory for the new
buckets.
-/

namespace CS162.Pintos.HashTable
open CS162.Library
universe u

/-- The functions of a table: a strict weak order, and a hash that elements share whenever
neither is less than the other. -/
structure HashOrder (α : Type u) where
  hash : α → Nat
  less : α → α → Bool
  order : IsStrictWeakOrder α fun a b => less a b = true
  consistent : ∀ a b, less a b = false → less b a = false → hash a = hash b

/-- `struct hash`, with the buckets as an array of lists. -/
structure Hash (α : Type u) where
  elemCnt : Nat
  bucketCnt : Nat
  buckets : Nat → List α

/-- `struct hash_iterator`: the bucket, the current element, and what lies behind it. -/
structure Iterator (α : Type u) where
  bucket : Nat
  elem : Option α
  behind : List α

section Sizes

def turnOffLeast1bit (x : Nat) : Nat := x &&& (x - 1)

def isPowerOf2 (x : Nat) : Bool := x ≠ 0 && turnOffLeast1bit x = 0

def bestElemsPerBucket : Nat := 2

/-- The loop of `rehash` down to a power of 2. -/
def toPowerOf2 : (rounds x : Nat) → Nat
  | 0, x => x
  | rounds + 1, x => if isPowerOf2 x then x else toPowerOf2 rounds (turnOffLeast1bit x)

/-- The number of buckets that `rehash` wants. -/
def newBucketCnt (elemCnt : Nat) : Nat :=
  let cnt := elemCnt / bestElemsPerBucket
  let cnt := if cnt < 4 then 4 else cnt
  toPowerOf2 cnt cnt

theorem turnOffLeast1bit_between {k x : Nat} (lower : 2 ^ k < x) (upper : x < 2 ^ (k + 1)) :
    2 ^ k ≤ turnOffLeast1bit x ∧ turnOffLeast1bit x < x := by
  have bit : x.testBit k = true :=
    Nat.testBit_of_two_pow_le_and_two_pow_add_one_gt (Nat.le_of_lt lower) upper
  have bit' : (x - 1).testBit k = true :=
    Nat.testBit_of_two_pow_le_and_two_pow_add_one_gt (by omega) (by omega)
  refine ⟨?_, ?_⟩
  · apply Nat.ge_two_pow_of_testBit
    rw [turnOffLeast1bit, Nat.testBit_and, bit, bit', Bool.and_self]
  · have most : turnOffLeast1bit x ≤ x - 1 := Nat.and_le_right
    omega

theorem turnOffLeast1bit_two_pow (k : Nat) : turnOffLeast1bit (2 ^ k) = 0 := by
  rw [turnOffLeast1bit, Nat.and_two_pow_sub_one_eq_mod, Nat.mod_self]

theorem toPowerOf2_eq {k rounds x : Nat} (lower : 2 ^ k ≤ x) (upper : x < 2 ^ (k + 1))
    (enough : x ≤ 2 ^ k + rounds) : toPowerOf2 rounds x = 2 ^ k := by
  induction rounds generalizing x with
  | zero => exact Nat.le_antisymm enough lower
  | succ rounds ih =>
      have positive : 0 < 2 ^ k := Nat.two_pow_pos k
      rw [toPowerOf2]
      by_cases done : x = 2 ^ k
      · rw [if_pos, done]
        rw [done, isPowerOf2, turnOffLeast1bit_two_pow]
        simp
      · obtain ⟨least, less⟩ := turnOffLeast1bit_between (by omega) upper
        have more : ¬ isPowerOf2 x = true := by
          simp only [isPowerOf2, Bool.and_eq_true, decide_eq_true_eq]
          omega
        rw [if_neg more]
        exact ih least (by omega) (by omega)

theorem newBucketCnt_eq (elemCnt : Nat) : ∃ k, newBucketCnt elemCnt = 2 ^ k ∧ 2 ≤ k := by
  have four : 4 ≤ (if elemCnt / bestElemsPerBucket < 4 then 4 else elemCnt / bestElemsPerBucket) := by
    split
    next => exact Nat.le_refl 4
    next more => exact Nat.not_lt.mp more
  rw [newBucketCnt]
  generalize (if elemCnt / bestElemsPerBucket < 4 then 4 else elemCnt / bestElemsPerBucket) = cnt at *
  have some : cnt ≠ 0 := by omega
  refine ⟨cnt.log2, ?_, ?_⟩
  · exact toPowerOf2_eq (Nat.log2_self_le some) Nat.lt_log2_self (Nat.le_add_left ..)
  · exact (Nat.le_log2 some).mpr four

end Sizes

section Model
variable {α : Type u} (f : HashOrder α) (h : Hash α)

/-- The number of the bucket of an element: `find_bucket`. -/
def bucketIdx (cnt : Nat) (e : α) : Nat := f.hash e &&& (cnt - 1)

def findBucket (e : α) : List α := h.buckets (bucketIdx f h.bucketCnt e)

/-- Neither is less than the other. -/
def equal (a b : α) : Bool := !f.less a b && !f.less b a

def findElem (bucket : List α) (e : α) : Option α := bucket.find? fun x => equal f x e

/-- `insert_elem`, into the bucket of the element. -/
def insertElem (e : α) : Hash α :=
  { h with elemCnt := h.elemCnt + 1, buckets := Buckets.push (bucketIdx f h.bucketCnt) h.buckets e }

/-- `remove_elem`, from the list that it is in. -/
def removeElem [DecidableEq α] (e : α) : Hash α :=
  { h with elemCnt := h.elemCnt - 1, buckets := fun i => (h.buckets i).erase e }

def rehash (granted : Bool) : Hash α :=
  let cnt := newBucketCnt h.elemCnt
  if cnt = h.bucketCnt then h
  else if granted then
    { h with
      bucketCnt := cnt
      buckets := (List.range h.bucketCnt).foldl
        (fun b i => (h.buckets i).foldl (Buckets.push (bucketIdx f cnt)) b) fun _ => [] }
  else h

/-- `hash_clear`, and the elements that a destructor gets. -/
def hashClear : List α × Hash α :=
  ((List.range h.bucketCnt).flatMap h.buckets,
    { h with elemCnt := 0, buckets := fun i => if i < h.bucketCnt then [] else h.buckets i })

/-- `hash_init`; the buckets hold anything before they are cleared. -/
def hashInit (granted : Bool) (junk : Nat → List α) : Option (Hash α) :=
  if granted then some (hashClear ⟨0, 4, junk⟩).2 else none

def hashInsert (new : α) (granted : Bool) : Option α × Hash α :=
  let old := findElem f (findBucket f h new) new
  let h := match old with
    | some _ => h
    | none => insertElem f h new
  (old, rehash f h granted)

def hashReplace [DecidableEq α] (new : α) (granted : Bool) : Option α × Hash α :=
  let old := findElem f (findBucket f h new) new
  let h := match old with
    | some old => removeElem h old
    | none => h
  (old, rehash f (insertElem f h new) granted)

def hashFind (e : α) : Option α := findElem f (findBucket f h e) e

def hashDelete [DecidableEq α] (e : α) (granted : Bool) : Option α × Hash α :=
  match findElem f (findBucket f h e) e with
  | some found => (some found, rehash f (removeElem h found) granted)
  | none => (none, h)

def hashFirst : Iterator α := ⟨0, none, h.buckets 0⟩

/-- The loop of `hash_next` over the buckets. -/
def nextBucket : (rounds bucket : Nat) → Iterator α
  | 0, bucket => ⟨bucket, none, []⟩
  | rounds + 1, bucket =>
      if bucket + 1 ≥ h.bucketCnt then ⟨bucket + 1, none, []⟩
      else
        match h.buckets (bucket + 1) with
        | e :: behind => ⟨bucket + 1, some e, behind⟩
        | [] => nextBucket rounds (bucket + 1)

def hashNext (i : Iterator α) : Iterator α :=
  match i.behind with
  | e :: behind => ⟨i.bucket, some e, behind⟩
  | [] => nextBucket h h.bucketCnt i.bucket

/-- What a number of calls of `hash_next` return. -/
def hashNexts : (calls : Nat) → Iterator α → List (Option α)
  | 0, _ => []
  | calls + 1, i => (hashNext h i).elem :: hashNexts calls (hashNext h i)

end Model

section Sets
variable {α : Type u} (f : HashOrder α)

inductive HashCall (α : Type u) where
  | insert (new : α)
  | replace (new : α)
  | find (e : α)
  | delete (e : α)
  | clear

/-- An element of the set that is equal to another one, if there is any. -/
def Matches (s : Set α) (e : α) : Option α → Prop
  | some x => x ∈ s ∧ equal f x e = true
  | none => ∀ x ∈ s, equal f x e = false

/-- What the calls on a set answer, and what they make of it. -/
def Answers (s : Set α) : HashCall α → Option α → Set α → Prop
  | .insert new, old, s' => Matches f s new old ∧ s' = match old with
      | some _ => s
      | none => insert new s
  | .replace new, old, s' => Matches f s new old ∧ s' = insert new {x ∈ s | equal f x new = false}
  | .find e, found, s' => Matches f s e found ∧ s' = s
  | .delete e, found, s' => Matches f s e found ∧ s' = {x ∈ s | equal f x e = false}
  | .clear, answer, s' => answer = none ∧ s' = ∅

/-- A set of elements, empty at first. -/
def elementSet : System (Set α) (HashCall α × Option α) where
  init s := s = ∅
  step s a s' := Answers f s a.1 a.2 s'

end Sets

section Runs
variable {α : Type u} [DecidableEq α] (f : HashOrder α)

/-- A call on the table, and what it returns. -/
def runCall (h : Hash α) : HashCall α → Bool → Option α × Hash α
  | .insert new, granted => hashInsert f h new granted
  | .replace new, granted => hashReplace f h new granted
  | .find e, _ => (hashFind f h e, h)
  | .delete e, granted => hashDelete f h e granted
  | .clear, _ => (none, (hashClear h).2)

/-- A table behind `hash_init`, and calls with any answers of `malloc`. -/
def tables : System (Hash α) (HashCall α × Bool) where
  init h := ∃ junk, hashInit true junk = some h
  step h a h' := h' = (runCall f h a.1 a.2).2

end Runs

/-- The elements of a table. -/
def stored {α : Type u} (h : Hash α) : Set α := {e | ∃ i < h.bucketCnt, e ∈ h.buckets i}

end CS162.Pintos.HashTable
