import Mathlib.Tactic.Ring

/-!
Conversions between the integer types of C on two's complement machines: a
value of any integer type as the `int`, `unsigned` or `size_t` it converts to;
and the single bits of machine words, as C reads and writes them through a mask
with one bit.
-/

namespace CS162.Library

def intMax : Int := 2 ^ 31 - 1

/-- Conversion to a signed 32-bit integer. -/
def toInt32 (x : Int) : Int := (x + 2 ^ 31) % 2 ^ 32 - 2 ^ 31

/-- Conversion to an unsigned 32-bit integer. -/
def toUInt32 (x : Int) : Nat := (x % 2 ^ 32).toNat

/-- Conversion to an unsigned 64-bit integer. -/
def toUInt64 (x : Int) : Nat := (x % 2 ^ 64).toNat

/-- Conversion to a signed 64-bit integer. -/
def toInt64 (x : Int) : Int := (x + 2 ^ 63) % 2 ^ 64 - 2 ^ 63

theorem toInt32_of_range {x : Int} (lower : -2 ^ 31 ≤ x) (upper : x ≤ intMax) : toInt32 x = x := by
  unfold toInt32
  unfold intMax at upper
  omega

theorem toUInt32_of_range {x : Int} (lower : 0 ≤ x) (upper : x < 2 ^ 32) : (toUInt32 x : Int) = x := by
  unfold toUInt32
  omega

theorem toUInt64_of_range {x : Int} (lower : 0 ≤ x) (upper : x < 2 ^ 64) : (toUInt64 x : Int) = x := by
  unfold toUInt64
  omega

theorem toInt64_of_range {x : Int} (lower : 0 ≤ x) (upper : x < 2 ^ 63) : toInt64 x = x := by
  unfold toInt64
  omega

theorem toInt32_toUInt32 (x : Int) : toInt32 (toUInt32 x) = toInt32 x := by
  unfold toInt32 toUInt32
  omega

section Int32
variable {i : Int32}

theorem toInt_add_one (h : i.toInt < intMax) : (i + 1).toInt = i.toInt + 1 := by
  have lower := i.le_toInt
  have one : (1 : Int32).toInt = 1 := rfl
  rw [intMax] at h
  rw [Int32.toInt_add, one]
  exact Int.bmod_eq_of_le (by omega) (by omega)

theorem intMax_add_one (h : i.toInt = intMax) : (i + 1).toInt = -2 ^ 31 := by
  rw [Int32.toInt_add, h]
  rfl

end Int32

section Bits
variable {width i k : Nat}

theorem and_twoPow_ne_zero (w : BitVec width) (inside : k < width) :
    (w &&& BitVec.twoPow width k != 0) = w.getLsbD k := by
  rw [BitVec.and_twoPow, ← BitVec.ofNat_eq_ofNat]
  cases bit : w.getLsbD k with
  | false => simp
  | true =>
      have some : BitVec.twoPow width k ≠ BitVec.ofNat width 0 := by
        intro none
        have := congrArg (BitVec.getLsbD · k) none
        simp [inside] at this
      simp [some]

theorem getLsbD_or_twoPow (w : BitVec width) (inside : k < width) :
    (w ||| BitVec.twoPow width k).getLsbD i = if i = k then true else w.getLsbD i := by
  rw [BitVec.getLsbD_or, BitVec.getLsbD_twoPow, decide_eq_true inside, Bool.true_and]
  by_cases same : i = k
  · rw [if_pos same, decide_eq_true same.symm, Bool.or_true]
  · rw [if_neg same, decide_eq_false (Ne.symm same), Bool.or_false]

theorem getLsbD_and_not_twoPow (w : BitVec width) (k : Nat) (inside : i < width) :
    (w &&& ~~~ BitVec.twoPow width k).getLsbD i = if i = k then false else w.getLsbD i := by
  rw [BitVec.getLsbD_and, BitVec.getLsbD_not, BitVec.getLsbD_twoPow, decide_eq_true inside, Bool.true_and]
  by_cases same : i = k
  · rw [if_pos same, same, decide_eq_true rfl, decide_eq_true (same ▸ inside), Bool.true_and, Bool.not_true,
      Bool.and_false]
  · rw [if_neg same, decide_eq_false (Ne.symm same), Bool.and_false, Bool.not_false, Bool.and_true]

theorem getLsbD_xor_twoPow (w : BitVec width) (inside : k < width) :
    (w ^^^ BitVec.twoPow width k).getLsbD i = if i = k then !w.getLsbD i else w.getLsbD i := by
  rw [BitVec.getLsbD_xor, BitVec.getLsbD_twoPow, decide_eq_true inside, Bool.true_and]
  by_cases same : i = k
  · rw [if_pos same, decide_eq_true same.symm, Bool.xor_true]
  · rw [if_neg same, decide_eq_false (Ne.symm same), Bool.xor_false]

end Bits
end CS162.Library
