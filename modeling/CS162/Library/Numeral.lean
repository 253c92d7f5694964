import Mathlib.Data.Nat.Digits.Lemmas
import Mathlib.Data.UInt

/-!
Numbers written with the digits '0' to '9', most significant digit first and
padded with zeros on the left, and the number that such digits are read as.
-/

namespace CS162.Library

/-- A number in base `b`, with `width` digits or more. -/
def numeral (b width v : Nat) : List UInt8 :=
  ((Nat.digits b v).reverse.map fun d => UInt8.ofNat (48 + d)).leftpad width 48

/-- What reading a digit makes of the number that was read before it. -/
def readDigit (b v : Nat) (c : UInt8) : Nat := c.toNat - 48 + v * b

section
variable {b width v : Nat} {c : UInt8}

theorem numeral_length (base : 1 < b) (fits : v < b ^ width) :
    (numeral b width v).length = width := by
  have short := (Nat.digits_length_le_iff base v).mpr fits
  simp only [numeral, List.leftpad, List.length_append, List.length_replicate, List.length_map,
    List.length_reverse]
  omega

theorem numeral_length_le {most : Nat} (base : 1 < b) (fits : v < b ^ most) (narrow : width ≤ most) :
    (numeral b width v).length ≤ most := by
  have short := (Nat.digits_length_le_iff base v).mpr fits
  simp only [numeral, List.leftpad, List.length_append, List.length_replicate, List.length_map,
    List.length_reverse]
  omega

theorem digit_toNat {d : Nat} (bound : d < 10) : (UInt8.ofNat (48 + d)).toNat = 48 + d :=
  UInt8.toNat_ofNat_of_lt (Nat.lt_of_lt_of_le (Nat.add_lt_add_left bound 48) (by decide))

theorem numeral_digit (base : 1 < b) (small : b ≤ 10) (mem : c ∈ numeral b width v) :
    48 ≤ c.toNat ∧ c.toNat < 48 + b := by
  simp only [numeral, List.leftpad, List.mem_append, List.mem_replicate, List.mem_map,
    List.mem_reverse] at mem
  cases mem with
  | inl padding =>
      rw [padding.2]
      exact ⟨Nat.le_refl 48, show 48 < 48 + b by omega⟩
  | inr digit =>
      obtain ⟨d, mem, rfl⟩ := digit
      have bound := Nat.digits_lt_base base mem
      rw [digit_toNat (by omega)]
      omega

theorem foldl_readDigit_numeral (base : 1 < b) (small : b ≤ 10) :
    (numeral b width v).foldl (readDigit b) 0 = v := by
  have zeros (n : Nat) : (List.replicate n (48 : UInt8)).foldl (readDigit b) 0 = 0 := by
    induction n with
    | zero => rfl
    | succ n ih =>
        have step : readDigit b 0 48 = 0 := (Nat.zero_add _).trans (Nat.zero_mul b)
        rw [List.replicate_succ, List.foldl_cons, step, ih]
  have digits (l : List Nat) (bound : ∀ d ∈ l, d < b) :
      (l.reverse.map fun d => UInt8.ofNat (48 + d)).foldl (readDigit b) 0 = Nat.ofDigits b l := by
    induction l with
    | nil => rfl
    | cons d l ih =>
        have last := bound d List.mem_cons_self
        have rest := ih fun d mem => bound d (List.mem_cons_of_mem _ mem)
        simp only [List.reverse_cons, List.map_append, List.map_cons, List.map_nil,
          List.foldl_append, rest, List.foldl_cons, List.foldl_nil, Nat.ofDigits_cons]
        rw [readDigit, digit_toNat (by omega), Nat.add_sub_cancel_left, Nat.mul_comm]
  rw [numeral, List.leftpad, List.foldl_append, zeros, digits, Nat.ofDigits_digits]
  intro d mem
  exact Nat.digits_lt_base base mem

theorem numeral_injective (base : 1 < b) (small : b ≤ 10) : Function.Injective (numeral b width) := by
  intro v w same
  have read (v : Nat) : (numeral b width v).foldl (readDigit b) 0 = v := foldl_readDigit_numeral base small
  rw [← read v, same, read w]

theorem le_foldl_readDigit (base : 0 < b) (l : List UInt8) (v : Nat) :
    v ≤ l.foldl (readDigit b) v := by
  induction l generalizing v with
  | nil => exact Nat.le_refl v
  | cons c l ih =>
      have step : v ≤ readDigit b v c :=
        Nat.le_trans (Nat.le_mul_of_pos_right v base) (Nat.le_add_left ..)
      exact Nat.le_trans step (ih _)

end
end CS162.Library
