import Mathlib.Tactic.Ring

/-!
Numbers as little-endian byte lists of fixed width.
-/

namespace CS162.Library

def toBytes : Nat → Nat → List UInt8
  | 0, _ => []
  | width + 1, n => UInt8.ofNat n :: toBytes width (n / 256)

def ofBytes : List UInt8 → Nat
  | [] => 0
  | b :: bytes => b.toNat + 256 * ofBytes bytes

@[simp] theorem toBytes_length {width n : Nat} : (toBytes width n).length = width := by
  induction width generalizing n with
  | zero => rfl
  | succ width ih => simp [toBytes, ih]

theorem ofBytes_toBytes {width n : Nat} (h : n < 256 ^ width) : ofBytes (toBytes width n) = n := by
  induction width generalizing n with
  | zero =>
      simp only [Nat.pow_zero] at h
      simp only [toBytes, ofBytes]
      omega
  | succ width ih =>
      have high : n / 256 < 256 ^ width := by
        rw [Nat.pow_succ] at h
        omega
      have low : (UInt8.ofNat n).toNat = n % 256 := UInt8.toNat_ofNat' ..
      rw [toBytes, ofBytes, ih high, low]
      omega

theorem ofBytes_lt (bytes : List UInt8) : ofBytes bytes < 256 ^ bytes.length := by
  induction bytes with
  | nil => decide
  | cons b bytes ih =>
      have low := b.toNat_lt
      rw [ofBytes, List.length_cons, Nat.pow_succ]
      omega

theorem toBytes_ofBytes {width : Nat} {bytes : List UInt8} (h : bytes.length = width) :
    toBytes width (ofBytes bytes) = bytes := by
  induction bytes generalizing width with
  | nil =>
      cases h
      rfl
  | cons b bytes ih =>
      cases h
      have low := b.toNat_lt
      have first : UInt8.ofNat (b.toNat + 256 * ofBytes bytes) = b := by
        apply UInt8.toNat_inj.mp
        rw [UInt8.toNat_ofNat']
        omega
      have rest : (b.toNat + 256 * ofBytes bytes) / 256 = ofBytes bytes := by omega
      rw [List.length_cons, ofBytes, toBytes, first, rest, ih rfl]

end CS162.Library
