import CS162.Library.MachineInt
import CS162.Library.Outcome
import CS162.Library.Rounding

/-!
Fixed-point numbers (pregame Pintos: threads/fixed-point.h): an `int` that counts
parts of 2^-16.

Arithmetic of `int` and `long long` overflows where the result is out of range; a
`long long` that is stored in an `int` is reduced.
-/

namespace CS162.Pintos.Fix
open CS162.Library CS162.Rounding

inductive Fault where
  | assertion
  | overflow
  deriving DecidableEq

/-- The result of an operation of `int`. -/
def asInt (x : Int) : Except Fault Int32 :=
  if -2 ^ 31 ≤ x ∧ x ≤ intMax then .ok (.ofInt x) else .error .overflow

/-- The result of an operation of `long long`. -/
def asLongLong (x : Int) : Except Fault Int64 :=
  if -2 ^ 63 ≤ x ∧ x < 2 ^ 63 then .ok (.ofInt x) else .error .overflow

def fixQ : Int32 := 16

def fixP : Int32 := 16

def fixF : Int32 := 1 <<< fixQ

def fixMaxInt : Int32 := (1 <<< fixP) - 1

def fixMinInt : Int32 := -fixMaxInt

/-- `fixed_point_t` -/
structure FixedPoint where
  f : Int32
  deriving DecidableEq

def fixInt (n : Int32) : Except Fault FixedPoint :=
  if n ≥ fixMinInt ∧ n ≤ fixMaxInt then do
    let f ← asInt (n.toInt * fixF.toInt)
    return ⟨f⟩
  else .error .assertion

def fixFrac (n d : Int32) : Except Fault FixedPoint :=
  if d ≠ 0 then do
    let quotient ← asInt (n.toInt.tdiv d.toInt)
    if quotient ≥ fixMinInt ∧ quotient ≤ fixMaxInt then do
      let scaled ← asLongLong (n.toInt * fixF.toInt)
      let f ← asLongLong (scaled.toInt.tdiv d.toInt)
      return ⟨f.toInt32⟩
    else .error .assertion
  else .error .assertion

def fixRound (x : FixedPoint) : Except Fault Int32 := do
  let sum ← asInt (x.f.toInt + fixF.toInt / 2)
  asInt (sum.toInt.tdiv fixF.toInt)

def fixTrunc (x : FixedPoint) : Except Fault Int32 := asInt (x.f.toInt.tdiv fixF.toInt)

/-- The number that is meant. -/
def FixedPoint.value (x : FixedPoint) : ℚ := x.f.toInt / 2 ^ 16

theorem fixF_toInt : fixF.toInt = 2 ^ 16 := rfl

theorem fixMaxInt_toInt : fixMaxInt.toInt = 2 ^ 16 - 1 := rfl

theorem fixMinInt_toInt : fixMinInt.toInt = -(2 ^ 16 - 1) := rfl

section Arithmetic
variable {v : Int}

theorem asInt_of_range (lower : -2 ^ 31 ≤ v) (upper : v < 2 ^ 31) : ∃ k, asInt v = .ok k ∧ k.toInt = v := by
  refine ⟨.ofInt v, if_pos ⟨lower, ?_⟩, Int32.toInt_ofInt_of_le lower upper⟩
  rw [intMax]
  omega

theorem asInt_toInt (k : Int32) : asInt k.toInt = .ok k := by
  obtain ⟨k', result, same⟩ := asInt_of_range k.le_toInt k.toInt_lt
  rw [result, Int32.toInt.inj same]

theorem asInt_of_lt (above : intMax < v) : asInt v = .error .overflow :=
  if_neg fun range => Int.not_le.mpr above range.2

theorem asInt_ok_iff : (∃ k, asInt v = .ok k) ↔ -2 ^ 31 ≤ v ∧ v < 2 ^ 31 := by
  constructor
  · rintro ⟨k, result⟩
    rw [asInt, intMax] at result
    split at result
    · omega
    · cases result
  · rintro ⟨lower, upper⟩
    obtain ⟨k, result, -⟩ := asInt_of_range lower upper
    exact ⟨k, result⟩

theorem asLongLong_of_range (lower : -2 ^ 63 ≤ v) (upper : v < 2 ^ 63) :
    ∃ k, asLongLong v = .ok k ∧ k.toInt = v :=
  ⟨.ofInt v, if_pos ⟨lower, upper⟩, Int64.toInt_ofInt_of_le lower upper⟩

end Arithmetic

section Rounding
variable {x : FixedPoint} {k : Int32} {v : ℚ}

theorem towardZero_range_iff :
    -2 ^ 31 ≤ towardZero v ∧ towardZero v < 2 ^ 31 ↔ -(2 ^ 31 + 1) < v ∧ v < 2 ^ 31 := by
  have bottom : (2 ^ 31 + 1 : ℚ) = (2 ^ 31 + 1 : ℤ) := by norm_num
  have top : (2 ^ 31 : ℚ) = (2 ^ 31 : ℤ) := by norm_num
  rw [bottom, top, ← neg_lt_towardZero_iff (by decide), ← towardZero_lt_iff (by decide)]
  omega

theorem value_range (x : FixedPoint) : -2 ^ 15 ≤ x.value ∧ x.value < 2 ^ 15 := by
  have lower : (-2 ^ 31 : ℚ) ≤ x.f.toInt := by exact_mod_cast x.f.le_toInt
  have upper : (x.f.toInt : ℚ) < 2 ^ 31 := by exact_mod_cast x.f.toInt_lt
  rw [FixedPoint.value, le_div_iff₀ (by norm_num), div_lt_iff₀ (by norm_num)]
  constructor <;> linarith

/-- A division of an `int` that counts parts. -/
theorem asInt_tdiv (x : FixedPoint) : ∃ k, asInt (x.f.toInt.tdiv fixF.toInt) = .ok k ∧
    k.toInt = towardZero x.value := by
  have cut : x.f.toInt.tdiv fixF.toInt = towardZero x.value := by
    rw [tdiv_eq_towardZero, FixedPoint.value, fixF_toInt]
    norm_cast
  obtain ⟨least, most⟩ := value_range x
  obtain ⟨lower, upper⟩ := towardZero_range_iff.mpr ⟨by linarith, by linarith⟩
  rw [cut]
  exact asInt_of_range lower upper

theorem fixRound_spec : fixRound x = .ok k ↔
    x.f.toInt + 2 ^ 15 ≤ intMax ∧ k.toInt = towardZero (x.value + 1 / 2) := by
  have half : x.f.toInt + fixF.toInt / 2 = x.f.toInt + 2 ^ 15 := rfl
  have lower := x.f.le_toInt
  rw [fixRound, half]
  by_cases fits : x.f.toInt + 2 ^ 15 ≤ intMax
  case pos =>
    rw [intMax] at fits
    obtain ⟨sum, added, same⟩ := @asInt_of_range (x.f.toInt + 2 ^ 15) (by omega) (by omega)
    obtain ⟨quotient, divided, rounded⟩ := asInt_tdiv ⟨sum⟩
    have moved : FixedPoint.value ⟨sum⟩ = x.value + 1 / 2 := by
      rw [FixedPoint.value, FixedPoint.value, same]
      push_cast
      ring
    rw [added, ok_bind, divided, ← moved, ← rounded, and_iff_right (by rw [intMax]; omega), Except.ok.injEq,
      Int32.toInt_inj, eq_comm]
  case neg =>
    rw [asInt_of_lt (Int.not_le.mp fits), error_bind]
    exact iff_of_false (fun result => by cases result) fun h => fits h.1

end Rounding

section Integers
variable {n : Int32} {x : FixedPoint}

/-- `fix_int` admits the integer. -/
def AdmitsInt (n : Int32) : Prop := n ≥ fixMinInt ∧ n ≤ fixMaxInt

instance (n : Int32) : Decidable (AdmitsInt n) := inferInstanceAs (Decidable (_ ∧ _))

/-- The integer comes back, truncated or rounded. -/
def RoundTrips (n : Int32) : Prop := ∃ x, fixInt n = .ok x ∧ fixTrunc x = .ok n ∧ fixRound x = .ok n

theorem fixInt_spec (admits : AdmitsInt n) :
    fixInt n = .ok x ↔ -2 ^ 15 ≤ n.toInt ∧ n.toInt < 2 ^ 15 ∧ x.value = n.toInt := by
  have value : x.value = n.toInt ↔ x.f.toInt = n.toInt * 2 ^ 16 := by
    rw [FixedPoint.value, div_eq_iff (by norm_num)]
    norm_cast
  rw [fixInt, if_pos (show n ≥ fixMinInt ∧ n ≤ fixMaxInt from admits), value, fixF_toInt]
  constructor
  case mp =>
    intro made
    obtain ⟨f, product, rfl⟩ := map_ok made
    obtain ⟨lower, upper⟩ := asInt_ok_iff.mp ⟨f, product⟩
    obtain ⟨f', again, same⟩ := asInt_of_range lower upper
    rw [product] at again
    cases again
    exact ⟨by omega, by omega, same⟩
  case mpr =>
    rintro ⟨lower, upper, same⟩
    rw [← same, asInt_toInt]
    rfl

theorem roundTrips_iff (admits : AdmitsInt n) : RoundTrips n ↔ 0 ≤ n.toInt ∧ n.toInt < 2 ^ 15 := by
  constructor
  case mp =>
    rintro ⟨x, made, -, rounded⟩
    obtain ⟨-, upper, same⟩ := (fixInt_spec admits).mp made
    have back := (fixRound_spec.mp rounded).2
    rw [same] at back
    exact ⟨(towardZero_add_half_eq_iff _).mp back.symm, upper⟩
  case mpr =>
    rintro ⟨nonneg, upper⟩
    obtain ⟨f, -, scaled⟩ := @asInt_of_range (n.toInt * 2 ^ 16) (by omega) (by omega)
    have same : FixedPoint.value ⟨f⟩ = n.toInt := by
      rw [FixedPoint.value, scaled]
      push_cast
      ring
    refine ⟨⟨f⟩, (fixInt_spec admits).mpr ⟨by omega, upper, same⟩, ?_, ?_⟩
    · obtain ⟨k, cut, truncated⟩ := asInt_tdiv ⟨f⟩
      rw [same, towardZero_intCast, Int32.toInt_inj] at truncated
      rw [fixTrunc, cut, truncated]
    · have room : f.toInt + 2 ^ 15 ≤ intMax := by
        rw [scaled, intMax]
        omega
      rw [fixRound_spec, same, (towardZero_add_half_eq_iff _).mpr nonneg]
      exact ⟨room, rfl⟩

end Integers

section Fractions
variable {n d : Int32}

/-- `fix_frac` admits the fraction. -/
def AdmitsFrac (n d : Int32) : Prop :=
  d ≠ 0 ∧ fixMinInt.toInt ≤ n.toInt.tdiv d.toInt ∧ n.toInt.tdiv d.toInt ≤ fixMaxInt.toInt

instance (n d : Int32) : Decidable (AdmitsFrac n d) := inferInstanceAs (Decidable (_ ∧ _ ∧ _))

/-- The fraction that is meant. -/
def fraction (n d : Int32) : ℚ := n.toInt / d.toInt

/-- The result is off by less than a part. -/
def Close (n d : Int32) : Prop := ∃ x, fixFrac n d = .ok x ∧ |x.value - fraction n d| < 1 / 2 ^ 16

theorem fixFrac_spec (admits : AdmitsFrac n d) : ∃ x, fixFrac n d = .ok x ∧
    x.f.toInt = (towardZero (fraction n d * 2 ^ 16)).bmod (2 ^ 32) := by
  obtain ⟨some, least, most⟩ := admits
  have lower := n.le_toInt
  have upper := n.toInt_lt
  have parts : (n.toInt * 2 ^ 16).tdiv d.toInt = towardZero (fraction n d * 2 ^ 16) := by
    rw [tdiv_eq_towardZero, fraction, Int.cast_mul, mul_div_right_comm]
    norm_num
  have small : ((n.toInt * 2 ^ 16).tdiv d.toInt).natAbs ≤ (n.toInt * 2 ^ 16).natAbs := Int.natAbs_tdiv_le_natAbs _ _
  rw [fixMinInt_toInt] at least
  rw [fixMaxInt_toInt] at most
  obtain ⟨quotient, divided, same⟩ := @asInt_of_range (n.toInt.tdiv d.toInt) (by omega) (by omega)
  obtain ⟨scaled, product, whole⟩ := @asLongLong_of_range (n.toInt * 2 ^ 16) (by omega) (by omega)
  obtain ⟨f, result, kept⟩ := @asLongLong_of_range ((n.toInt * 2 ^ 16).tdiv d.toInt) (by omega) (by omega)
  have inside : quotient ≥ fixMinInt ∧ quotient ≤ fixMaxInt := by
    rw [ge_iff_le, Int32.le_iff_toInt_le, Int32.le_iff_toInt_le, same]
    exact ⟨least, most⟩
  refine ⟨⟨f.toInt32⟩, ?_, ?_⟩
  · rw [fixFrac, if_pos some, divided, ok_bind, if_pos inside, fixF_toInt, product, ok_bind, whole, result]
    rfl
  · rw [Int64.toInt_toInt32, kept, parts]

/-- A fraction of two `int`s that is below -2^15 is below it by more than a part. -/
theorem le_fraction (some : d ≠ 0) (lower : -(2 ^ 31 + 1) < fraction n d * 2 ^ 16) : -2 ^ 15 ≤ fraction n d := by
  have least := n.le_toInt
  have most := n.toInt_lt
  rw [fraction] at lower ⊢
  rcases lt_or_gt_of_ne (fun zero => some (Int32.toInt.inj zero) : d.toInt ≠ 0) with neg | pos
  · have below : (d.toInt : ℚ) < 0 := by exact_mod_cast neg
    rw [div_mul_eq_mul_div, lt_div_iff_of_neg below] at lower
    rw [le_div_iff_of_neg below]
    norm_cast at lower ⊢
    omega
  · have above : (0 : ℚ) < d.toInt := by exact_mod_cast pos
    rw [div_mul_eq_mul_div, lt_div_iff₀ above] at lower
    rw [le_div_iff₀ above]
    norm_cast at lower ⊢
    omega

theorem close_iff (admits : AdmitsFrac n d) : Close n d ↔ -2 ^ 15 ≤ fraction n d ∧ fraction n d < 2 ^ 15 := by
  have scale (x : FixedPoint) : |x.value - fraction n d| < 1 / 2 ^ 16 ↔
      |(x.f.toInt : ℚ) - fraction n d * 2 ^ 16| < 1 := by
    have parts : (x.f.toInt : ℚ) - fraction n d * 2 ^ 16 = (x.value - fraction n d) * 2 ^ 16 := by
      rw [FixedPoint.value]
      ring
    rw [parts, abs_mul, abs_of_pos (by norm_num : (0 : ℚ) < 2 ^ 16), lt_div_iff₀ (by norm_num)]
  obtain ⟨x, made, kept⟩ := fixFrac_spec admits
  constructor
  case mp =>
    rintro ⟨x, -, close⟩
    rw [scale, abs_lt] at close
    have lower : (-2 ^ 31 : ℚ) ≤ x.f.toInt := by exact_mod_cast x.f.le_toInt
    have upper : (x.f.toInt : ℚ) ≤ 2 ^ 31 - 1 := by exact_mod_cast Int.le_sub_one_of_lt x.f.toInt_lt
    refine ⟨le_fraction admits.1 ?_, ?_⟩ <;> linarith
  case mpr =>
    rintro ⟨lower, upper⟩
    obtain ⟨least, most⟩ := towardZero_range_iff.mpr
      (⟨by linarith, by linarith⟩ : -(2 ^ 31 + 1) < fraction n d * 2 ^ 16 ∧ fraction n d * 2 ^ 16 < 2 ^ 31)
    rw [Int.bmod_eq_of_le (by omega) (by omega)] at kept
    refine ⟨x, made, (scale x).mpr ?_⟩
    rw [kept, abs_sub_comm]
    exact abs_sub_towardZero_lt _

end Fractions

section Rounded
variable {x : FixedPoint}

/-- It is rounded to a nearest integer. -/
def RoundsNearest (x : FixedPoint) : Prop := ∃ k, fixRound x = .ok k ∧ IsNearest k.toInt x.value

/-- It is truncated toward zero. -/
def Truncates (x : FixedPoint) : Prop := ∃ k, fixTrunc x = .ok k ∧ k.toInt = towardZero x.value

theorem truncates (x : FixedPoint) : Truncates x := asInt_tdiv x

theorem roundsNearest_iff : RoundsNearest x ↔
    x.f.toInt + 2 ^ 15 ≤ intMax ∧ (0 ≤ x.f.toInt + 2 ^ 15 ∨ 2 ^ 16 ∣ x.f.toInt + 2 ^ 15) := by
  have moved : x.value + 1 / 2 = ((x.f.toInt + 2 ^ 15 : Int) : ℚ) / 2 ^ 16 := by
    rw [FixedPoint.value]
    push_cast
    ring
  have nonneg : 0 ≤ x.value + 1 / 2 ↔ 0 ≤ x.f.toInt + 2 ^ 15 := by
    rw [moved, le_div_iff₀ (by norm_num), zero_mul]
    norm_cast
  have whole : (∃ m : ℤ, x.value + 1 / 2 = m) ↔ 2 ^ 16 ∣ x.f.toInt + 2 ^ 15 := by
    rw [moved]
    refine exists_congr fun m => ?_
    rw [div_eq_iff (by norm_num), mul_comm]
    norm_cast
  rw [← nonneg, ← whole, ← isNearest_towardZero_half_iff]
  constructor
  case mp =>
    rintro ⟨k, result, nearest⟩
    obtain ⟨fits, rounded⟩ := fixRound_spec.mp result
    exact ⟨fits, rounded ▸ nearest⟩
  case mpr =>
    rintro ⟨fits, nearest⟩
    have top := fits
    have lower := x.f.le_toInt
    rw [intMax] at top
    obtain ⟨sum, -, same⟩ := @asInt_of_range (x.f.toInt + 2 ^ 15) (by omega) (by omega)
    obtain ⟨k, -, rounded⟩ := asInt_tdiv ⟨sum⟩
    rw [FixedPoint.value, same, ← moved] at rounded
    exact ⟨k, fixRound_spec.mpr ⟨fits, rounded⟩, rounded ▸ nearest⟩

end Rounded

/-- Integers come back where they are not negative and below 2^15, fractions are close where they
are within the range of the numbers, and numbers are rounded to a nearest integer where the half
that is added does not overflow and the sum is not negative or is whole. -/
theorem faithful_iff (k n d : Int32) (x : FixedPoint) :
    (AdmitsInt k → (RoundTrips k ↔ 0 ≤ k.toInt ∧ k.toInt < 2 ^ 15)) ∧
    (AdmitsFrac n d → (Close n d ↔ -2 ^ 15 ≤ fraction n d ∧ fraction n d < 2 ^ 15)) ∧
    (RoundsNearest x ∧ Truncates x ↔
      x.f.toInt + 2 ^ 15 ≤ intMax ∧ (0 ≤ x.f.toInt + 2 ^ 15 ∨ 2 ^ 16 ∣ x.f.toInt + 2 ^ 15)) :=
  ⟨roundTrips_iff, close_iff, (and_iff_left (truncates x)).trans roundsNearest_iff⟩

/-- At 1, at one third and at the number 1. -/
theorem faithful_one : RoundTrips 1 ∧ Close 1 3 ∧ RoundsNearest ⟨65536⟩ ∧ Truncates ⟨65536⟩ := by
  have third : fraction 1 3 = 1 / 3 := by
    change ((1 : ℤ) : ℚ) / (3 : ℤ) = 1 / 3
    norm_num
  have inside : -2 ^ 15 ≤ fraction 1 3 ∧ fraction 1 3 < 2 ^ 15 := by
    rw [third]
    norm_num
  obtain ⟨trips, close, rounds⟩ := faithful_iff 1 1 3 ⟨65536⟩
  exact ⟨(trips (by decide)).mpr (by decide), (close (by decide)).mpr inside, rounds.mpr (by decide)⟩

/-- -1 is rounded to 0; 32768 is admitted and overflows; 32768 / 1 becomes -32768; and the greatest number
overflows where it is rounded. -/
theorem not_faithful : AdmitsInt (-1) ∧ ¬ RoundTrips (-1) ∧ AdmitsInt 32768 ∧ fixInt 32768 = .error .overflow ∧
    AdmitsFrac 32768 1 ∧ fixFrac 32768 1 = .ok ⟨-2147483648⟩ ∧ ¬ Close 32768 1 ∧
    fixRound ⟨2147483647⟩ = .error .overflow := by
  refine ⟨by decide, ?_, by decide, rfl, by decide, rfl, ?_, rfl⟩
  · rw [roundTrips_iff (by decide)]
    decide
  · have whole : fraction 32768 1 = 2 ^ 15 := by
      change ((32768 : ℤ) : ℚ) / (1 : ℤ) = 2 ^ 15
      norm_num
    rw [close_iff (by decide), whole]
    exact fun inside => lt_irrefl _ inside.2

end CS162.Pintos.Fix
