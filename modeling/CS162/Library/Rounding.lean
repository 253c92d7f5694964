import Mathlib.Algebra.Order.Round
import Mathlib.Data.Rat.Floor
import Mathlib.Tactic.Linarith

/-!
Numbers rounded to integers: toward zero, as the division of C does, and to a nearest
integer. A half that is added before the rounding toward zero gives a nearest integer
where the sum is not negative, and below that only at the sums that are integers.
-/

namespace CS162.Rounding
variable {K : Type*} [Field K] [LinearOrder K] {x : K} {k : ℤ}

section TowardZero
variable [FloorRing K]

/-- A number rounded toward zero. -/
def towardZero (x : K) : ℤ := if 0 ≤ x then ⌊x⌋ else ⌈x⌉

theorem towardZero_of_nonneg (h : 0 ≤ x) : towardZero x = ⌊x⌋ := if_pos h

theorem towardZero_of_neg (h : x < 0) : towardZero x = ⌈x⌉ := if_neg (not_le_of_gt h)

variable [IsStrictOrderedRing K]

theorem towardZero_intCast (k : ℤ) : towardZero (k : K) = k := by
  rw [towardZero, Int.floor_intCast, Int.ceil_intCast, ite_self]

theorem towardZero_neg (x : K) : towardZero (-x) = -towardZero x := by
  rcases lt_trichotomy x 0 with below | rfl | above
  · rw [towardZero_of_nonneg (neg_nonneg.mpr below.le), towardZero_of_neg below, Int.floor_neg]
  · rw [neg_zero, towardZero_of_nonneg le_rfl, Int.floor_zero, neg_zero]
  · rw [towardZero_of_neg (neg_neg_of_pos above), towardZero_of_nonneg above.le, Int.ceil_neg]

theorem abs_sub_towardZero_lt (x : K) : |x - towardZero x| < 1 := by
  rw [abs_lt]
  rcases le_or_gt 0 x with nonneg | neg
  · rw [towardZero_of_nonneg nonneg]
    constructor
    · linarith [Int.floor_le x]
    · linarith [Int.lt_floor_add_one x]
  · rw [towardZero_of_neg neg]
    constructor
    · linarith [Int.ceil_lt_add_one x]
    · linarith [Int.le_ceil x]

theorem towardZero_lt_iff {m : ℤ} (pos : 0 < m) : towardZero x < m ↔ x < m := by
  rcases le_or_gt 0 x with nonneg | neg
  · rw [towardZero_of_nonneg nonneg, Int.floor_lt]
  · have above : (0 : K) < m := Int.cast_pos.mpr pos
    rw [towardZero_of_neg neg]
    refine iff_of_true (lt_of_le_of_lt (Int.ceil_le.mpr ?_) pos) (neg.trans above)
    rw [Int.cast_zero]
    exact neg.le

theorem neg_lt_towardZero_iff {m : ℤ} (pos : 0 < m) : -m < towardZero x ↔ -(m : K) < x := by
  rw [neg_lt, ← towardZero_neg, towardZero_lt_iff pos, neg_lt]

theorem towardZero_add_half_eq_iff (m : ℤ) : towardZero ((m : K) + 1 / 2) = m ↔ 0 ≤ m := by
  rcases le_or_gt 0 m with nonneg | neg
  · have above : (0 : K) ≤ m := by exact_mod_cast nonneg
    rw [towardZero_of_nonneg (by linarith), Int.floor_eq_iff]
    refine iff_of_true ⟨?_, ?_⟩ nonneg <;> linarith
  · have below : (m : K) ≤ -1 := by exact_mod_cast Int.le_sub_one_of_lt neg
    rw [towardZero_of_neg (by linarith), Int.ceil_eq_iff]
    refine iff_of_false (fun h => ?_) (not_le_of_gt neg)
    linarith [h.2]

theorem tdiv_eq_towardZero (a b : ℤ) : a.tdiv b = towardZero ((a : ℚ) / b) := by
  have pos (a b : ℕ) : (a : ℤ).tdiv b = towardZero (((a : ℤ) : ℚ) / ((b : ℤ) : ℚ)) := by
    rw [towardZero_of_nonneg (by positivity), (Int.cast_natCast b : ((b : ℤ) : ℚ) = b), Rat.floor_intCast_div_natCast,
      Int.tdiv_eq_ediv_of_nonneg (Int.natCast_nonneg a)]
  obtain ⟨a, rfl | rfl⟩ := a.eq_nat_or_neg
  all_goals obtain ⟨b, rfl | rfl⟩ := b.eq_nat_or_neg
  · exact pos a b
  · rw [Int.tdiv_neg, pos, Int.cast_neg, div_neg, towardZero_neg]
  · rw [Int.neg_tdiv, pos, Int.cast_neg, neg_div, towardZero_neg]
  · rw [Int.neg_tdiv, Int.tdiv_neg, neg_neg, pos, Int.cast_neg, Int.cast_neg, neg_div_neg_eq]

end TowardZero

section Nearest

/-- No integer is closer. -/
def IsNearest (k : ℤ) (x : K) : Prop := ∀ m : ℤ, |x - k| ≤ |x - m|

variable [IsStrictOrderedRing K] [FloorRing K]

theorem isNearest_iff : IsNearest k x ↔ |x - k| ≤ 1 / 2 := by
  constructor
  · intro nearest
    exact (nearest (round x)).trans (abs_sub_round x)
  · intro close m
    rcases eq_or_ne m k with rfl | other
    · exact le_rfl
    · have apart : (1 : K) ≤ |(m : K) - k| := by
        rw [← Int.cast_sub, ← Int.cast_abs]
        exact_mod_cast Int.one_le_abs (sub_ne_zero.mpr other)
      have triangle := abs_sub_le (m : K) x k
      rw [abs_sub_comm (m : K) x] at triangle
      linarith

theorem isNearest_floor_half (x : K) : IsNearest ⌊x + 1 / 2⌋ x := by
  rw [← round_eq]
  exact fun m => round_le x m

theorem isNearest_towardZero_half_iff :
    IsNearest (towardZero (x + 1 / 2)) x ↔ 0 ≤ x + 1 / 2 ∨ ∃ m : ℤ, x + 1 / 2 = m := by
  rcases le_or_gt 0 (x + 1 / 2) with nonneg | neg
  · rw [towardZero_of_nonneg nonneg]
    exact iff_of_true (isNearest_floor_half x) (.inl nonneg)
  · rw [towardZero_of_neg neg, isNearest_iff, abs_le]
    constructor
    · rintro ⟨close, -⟩
      -- the ceiling is no further up than the sum
      refine .inr ⟨⌈x + 1 / 2⌉, le_antisymm (Int.le_ceil _) ?_⟩
      linarith
    · rintro (nonneg | ⟨m, whole⟩)
      · exact absurd nonneg (not_le_of_gt neg)
      · rw [whole, Int.ceil_intCast, ← whole]
        constructor <;> linarith

end Nearest
end CS162.Rounding
