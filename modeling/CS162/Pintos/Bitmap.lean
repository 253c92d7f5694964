import Mathlib.Data.List.Basic

/-!
Bitmaps (proj-pregame: lib/kernel/bitmap.c) as lists of bits. `none` is a failing
`ASSERT`; `BITMAP_ERROR` is `none` inside. The words the bits are packed into
matter to nobody here (`BitmapWords.scanAndFlip_toBitmap`).
-/

namespace CS162.Pintos

structure Bitmap where
  bits : List Bool
  deriving DecidableEq

namespace Bitmap

/-- `bitmap_size`. -/
def size (b : Bitmap) : Nat := b.bits.length

/-- `bitmap_test`, of a bit inside. -/
def test (b : Bitmap) (idx : Nat) : Bool := b.bits.getD idx false

/-- `bitmap_set`, of a bit inside. -/
def set (b : Bitmap) (idx : Nat) (value : Bool) : Bitmap := ⟨b.bits.set idx value⟩

/-- The loop of `bitmap_set_multiple`. -/
def setFrom (b : Bitmap) (start : Nat) (value : Bool) : Nat → Bitmap
  | 0 => b
  | cnt + 1 => (b.setFrom start value cnt).set (start + cnt) value

/-- `bitmap_set_multiple`. -/
def setMultiple (b : Bitmap) (start cnt : Nat) (value : Bool) : Option Bitmap :=
  if start + cnt ≤ b.size then some (b.setFrom start value cnt) else none

/-- `bitmap_contains`, between two bounds inside. -/
def contains (b : Bitmap) (start cnt : Nat) (value : Bool) : Bool :=
  (List.range cnt).any fun i => b.test (start + i) == value

/-- `bitmap_all`. -/
def all (b : Bitmap) (start cnt : Nat) : Option Bool :=
  if start + cnt ≤ b.size then some (!b.contains start cnt false) else none

/-- `bitmap_scan` from the first bit on. -/
def scan (b : Bitmap) (cnt : Nat) (value : Bool) : Option Nat :=
  if cnt ≤ b.size then
    (List.range (b.size - cnt + 1)).find? fun i => !b.contains i cnt (!value)
  else none

/-- `bitmap_scan_and_flip` from the first bit on. -/
def scanAndFlip (b : Bitmap) (cnt : Nat) (value : Bool) : Option (Option Nat × Bitmap) :=
  match b.scan cnt value with
  | some idx => (b.setMultiple idx cnt (!value)).map fun b => (some idx, b)
  | none => some (none, b)

section Spec
variable {b b' : Bitmap} {start cnt idx i : Nat} {value : Bool}

theorem test_eq_false_of_le (h : b.size ≤ i) : b.test i = false := by
  rw [test, List.getD_eq_getElem?_getD, List.getElem?_eq_none h, Option.getD_none]

theorem lt_of_test (h : b.test i = true) : i < b.size := by
  by_contra outside
  rw [test_eq_false_of_le (by omega)] at h
  cases h

theorem eq_of_test (size : b'.size = b.size) (same : ∀ i, b'.test i = b.test i) : b' = b := by
  refine congrArg Bitmap.mk (List.ext_getElem size fun i inside' inside => ?_)
  have bit := same i
  rwa [test, test, List.getD_eq_getElem?_getD, List.getD_eq_getElem?_getD,
    List.getElem?_eq_getElem inside', List.getElem?_eq_getElem inside] at bit

@[simp] theorem size_set : (b.set idx value).size = b.size := List.length_set

theorem test_set (h : idx < b.size) :
    (b.set idx value).test i = if i = idx then value else b.test i := by
  rw [test, set, List.getD_eq_getElem?_getD, List.getElem?_set]
  by_cases same : i = idx
  · rw [if_pos same, if_pos same.symm]
    exact congrArg (Option.getD · false) (if_pos h)
  · rw [if_neg same, if_neg (Ne.symm same), test, List.getD_eq_getElem?_getD]

@[simp] theorem size_setFrom : (b.setFrom start value cnt).size = b.size := by
  induction cnt with
  | zero => rfl
  | succ cnt ih => rw [setFrom, size_set, ih]

theorem test_setFrom (h : start + cnt ≤ b.size) :
    (b.setFrom start value cnt).test i =
      if start ≤ i ∧ i < start + cnt then value else b.test i := by
  induction cnt with
  | zero => rw [setFrom, if_neg (by omega)]
  | succ cnt ih =>
      rw [setFrom, test_set (by rw [size_setFrom]; omega), ih (by omega)]
      by_cases last : i = start + cnt
      · rw [if_pos last, if_pos (by omega)]
      · rw [if_neg last]
        exact if_congr (by omega) rfl rfl

theorem setMultiple_spec (value : Bool) (h : start + cnt ≤ b.size) :
    ∃ b', b.setMultiple start cnt value = some b' ∧ b'.size = b.size ∧
      ∀ i, b'.test i = if start ≤ i ∧ i < start + cnt then value else b.test i :=
  ⟨_, if_pos h, size_setFrom, fun _ => test_setFrom h⟩

theorem contains_eq_false : b.contains start cnt value = false ↔
    ∀ i, start ≤ i → i < start + cnt → b.test i = !value := by
  rw [contains, List.any_eq_false]
  constructor
  · intro none i lower upper
    have := none (i - start) (List.mem_range.mpr (by omega))
    rw [show start + (i - start) = i by omega] at this
    cases h : b.test i <;> cases value <;> simp_all
  · intro none i inside
    have := none (start + i) (by omega) (by have := List.mem_range.mp inside; omega)
    rw [this]
    cases value <;> decide

theorem all_eq_true (h : start + cnt ≤ b.size)
    (set : ∀ i, start ≤ i → i < start + cnt → b.test i = true) :
    b.all start cnt = some true := by
  rw [all, if_pos h, contains_eq_false.mpr set]
  rfl

theorem scan_eq_some (h : b.scan cnt value = some idx) :
    idx + cnt ≤ b.size ∧ ∀ i, idx ≤ i → i < idx + cnt → b.test i = value := by
  rw [scan] at h
  split at h
  next small =>
    have inside := List.mem_range.mp (List.mem_of_find?_eq_some h)
    have found := List.find?_some h
    rw [Bool.not_eq_true', contains_eq_false, Bool.not_not] at found
    exact ⟨by omega, found⟩
  next => cases h

theorem scan_eq_none (idx : Nat) (h : b.scan cnt value = none) (inside : idx + cnt ≤ b.size) :
    ¬ ∀ i, idx ≤ i → i < idx + cnt → b.test i = value := by
  intro run
  rw [scan, if_pos (by omega), List.find?_eq_none] at h
  refine h idx (List.mem_range.mpr (by omega)) ?_
  rw [Bool.not_eq_true', contains_eq_false, Bool.not_not]
  exact run

theorem scanAndFlip_spec (b : Bitmap) (cnt : Nat) (value : Bool) :
    b.scanAndFlip cnt value = some (none, b) ∨
      ∃ idx b', b.scanAndFlip cnt value = some (some idx, b') ∧ idx + cnt ≤ b.size ∧
        b'.size = b.size ∧ (∀ i, idx ≤ i → i < idx + cnt → b.test i = value) ∧
        ∀ i, b'.test i = if idx ≤ i ∧ i < idx + cnt then !value else b.test i := by
  rw [scanAndFlip]
  cases found : b.scan cnt value with
  | none => exact .inl rfl
  | some idx =>
      obtain ⟨inside, free⟩ := scan_eq_some found
      obtain ⟨b', done, size, test⟩ := setMultiple_spec (!value) inside
      exact .inr ⟨idx, b', congrArg (Option.map _) done, inside, size, free, test⟩

end Spec
end Bitmap
end CS162.Pintos
