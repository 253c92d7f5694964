import Mathlib.Tactic.Ring
import Mathlib.Tactic.Linarith

/-!
Division of numbers that are too long for the divider at hand: digit by digit where the
divisor is one digit, and otherwise by the leading digit of the divisor, which gives the
quotient or one more.
-/

namespace CS162.Library

theorem digit_div_lt (n1 : Nat) {b n0 d : Nat} (pos : 0 < d) (digit : n0 < b) : (b * (n1 % d) + n0) / d < b := by
  have rest : n1 % d + 1 ≤ d := Nat.mod_lt n1 pos
  have total : b * (n1 % d + 1) ≤ b * d := Nat.mul_le_mul_left b rest
  rw [Nat.div_lt_iff_lt_mul pos]
  rw [Nat.mul_add, Nat.mul_one] at total
  omega

theorem digits_div {b n1 n0 d : Nat} (pos : 0 < d) :
    (b * (n1 % d) + n0) / d + b * (n1 / d) = (b * n1 + n0) / d := by
  have split : b * n1 + n0 = b * (n1 % d) + n0 + d * (b * (n1 / d)) := by
    calc b * n1 + n0 = b * (n1 % d + d * (n1 / d)) + n0 := by rw [Nat.mod_add_div]
      _ = b * (n1 % d) + n0 + d * (b * (n1 / d)) := by ring
  rw [split, Nat.add_mul_div_left _ _ pos]

section Truncated
variable {n d p v m : Nat}

theorem div_le_div_truncated (lead : v = d / p) (pos : 0 < v * p) : n / d ≤ n / (v * p) := by
  apply Nat.div_le_div_left
  · rw [lead]
    exact Nat.div_mul_le_self d p
  · exact pos

/-- A leading digit that is not small is off by one at most: what is cut off of `d` is below `p`,
and `n` is below four times the square of the digit. -/
theorem div_truncated_le (lead : v = d / p) (place : 0 < p) (pos : 0 < m) (big : m ≤ v)
    (small : n ≤ 4 * (m * m)) : n / (v * p) ≤ n / d + 1 := by
  have whole : v * p + d % p = d := by
    rw [lead]
    exact Nat.div_add_mod' d p
  have cut : d % p + 1 ≤ p := Nat.mod_lt d place
  have least : m * p ≤ v * p := Nat.mul_le_mul_right p big
  have least_pos : 0 < m * p := Nat.mul_pos pos place
  -- `4 * (p - 1) ≤ p * p` carries the bound
  have square : 4 * (d % p) ≤ p * p := by
    have := two_mul_le_add_sq p 2
    rw [Nat.pow_two, Nat.pow_two] at this
    omega
  have error : n * (d % p) ≤ v * p * d := by
    calc n * (d % p) ≤ 4 * (m * m) * (d % p) := Nat.mul_le_mul_right _ small
      _ = m * m * (4 * (d % p)) := by ring
      _ ≤ m * m * (p * p) := Nat.mul_le_mul_left _ square
      _ = m * p * (m * p) := by ring
      _ ≤ v * p * d := Nat.mul_le_mul least (by omega)
  refine Nat.le_of_not_lt fun more => ?_
  have enough : (n / d + 2) * (v * p) ≤ n :=
    (Nat.le_div_iff_mul_le (Nat.lt_of_lt_of_le least_pos least)).mp more
  have below : n < (n / d + 1) * d := by
    have := Nat.lt_mul_div_succ n (show 0 < d by omega)
    rwa [Nat.mul_comm] at this
  have product : n * (v * p) < (n / d + 1) * d * (v * p) :=
    Nat.mul_lt_mul_of_pos_right below (Nat.lt_of_lt_of_le least_pos least)
  have other : (n / d + 2) * (v * p) * d ≤ n * d := Nat.mul_le_mul_right d enough
  have sum : n * d = n * (v * p) + n * (d % p) := by rw [← Nat.mul_add, whole]
  have more' : (n / d + 2) * (v * p) * d = (n / d + 1) * d * (v * p) + v * p * d := by ring
  omega

end Truncated

theorem corrected_div {n d q : Nat} (pos : 0 < d) (le : n / d ≤ q) (close : q ≤ n / d + 1) (some : 0 < q) :
    (if n - (q - 1) * d < d then q - 1 else q) = n / d := by
  have down := Nat.div_mul_le_self n d
  have up := Nat.lt_mul_div_succ n pos
  by_cases exact : q = n / d
  · have back : (q - 1) * d + d = n / d * d := by
      rw [← exact, Nat.sub_mul, Nat.one_mul]
      have : 1 * d ≤ q * d := Nat.mul_le_mul_right d some
      omega
    rw [if_neg (by omega), exact]
  · have excess : q = n / d + 1 := by omega
    rw [Nat.mul_comm, Nat.add_mul, Nat.one_mul] at up
    rw [excess, Nat.add_sub_cancel, if_pos (by omega)]

end CS162.Library
