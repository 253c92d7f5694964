import CS162.Library.Quotients
import Mathlib.Data.Nat.Notation

/-!
Division of 64-bit integers (lib/arithmetic.c), by the 32-bit divider of the processor.
A trap is `none`. C's conversions between widths are `setWidth` and `signExtend`.
-/

namespace CS162.Pintos.Arithmetic
open CS162.Library

abbrev Uint32 := BitVec 32

abbrev Uint64 := BitVec 64

/-- The `DIVL` instruction: a quotient that does not fit traps. -/
def divl (n : Uint64) (d : Uint32) : Option Uint32 :=
  if d ≠ 0 ∧ n.toNat / d.toNat < 2 ^ 32 then some (BitVec.ofNat 32 (n.toNat / d.toNat)) else none

/-- A step of `nlz`. -/
def nlzStep (bound : Uint32) (bits : Nat) (p : Nat × Uint32) : Nat × Uint32 :=
  if p.2 ≤ bound then (p.1 + bits, p.2 <<< bits) else p

def nlz (x : Uint32) : Nat :=
  let p := nlzStep 0x0000FFFF 16 (0, x)
  let p := nlzStep 0x00FFFFFF 8 p
  let p := nlzStep 0x0FFFFFFF 4 p
  let p := nlzStep 0x3FFFFFFF 2 p
  if p.2 ≤ 0x7FFFFFFF then p.1 + 1 else p.1

def udiv64 (n d : Uint64) : Option Uint64 :=
  if d >>> 32 = 0 then
    let b := (1 : Uint64) <<< 32
    let n1 : Uint32 := (n >>> 32).setWidth 32
    let n0 : Uint32 := n.setWidth 32
    let d0 : Uint32 := d.setWidth 32
    (divl (b * (n1 % d0).setWidth 64 + n0.setWidth 64) d0).map fun q =>
      q.setWidth 64 + b * (n1 / d0).setWidth 64
  else if n < d then some 0
  else
    let d1 : Uint32 := (d >>> 32).setWidth 32
    let s := nlz d1
    (divl (n >>> 1) (((d <<< s) >>> 32).setWidth 32)).map fun (q : Uint32) =>
      let q : Uint64 := (q >>> (31 - s)).setWidth 64
      if n - (q - 1) * d < d then q - 1 else q

/-- `umod64`, which returns a `uint32_t`. -/
def umod64 (n d : Uint64) : Option Uint32 := (udiv64 n d).map fun q => (n - d * q).setWidth 32

/-- The absolute value, as an unsigned number. -/
def absolute (n : Uint64) : Uint64 := if 0 ≤ n.toInt then n else -n

/-- `sdiv64`, on the bits of signed numbers. -/
def sdiv64 (n d : Uint64) : Option Uint64 :=
  (udiv64 (absolute n) (absolute d)).map fun q =>
    if (n.toInt < 0) ↔ (d.toInt < 0) then q else -q

/-- `smod64`, which returns an `int32_t`. -/
def smod64 (n d : Uint64) : Option Uint32 := (sdiv64 n d).map fun q => (n - d * q).setWidth 32

def divdi3 : Uint64 → Uint64 → Option Uint64 := sdiv64

def moddi3 (n d : Uint64) : Option Uint64 := (smod64 n d).map fun r => r.signExtend 64

def udivdi3 : Uint64 → Uint64 → Option Uint64 := udiv64

def umoddi3 (n d : Uint64) : Option Uint64 := (umod64 n d).map fun r => r.setWidth 64

section Unsigned
variable {n d : Uint64} {x : Uint32}

theorem divl_eq {d : Uint32} (some : d ≠ 0) (fits : n.toNat / d.toNat < 2 ^ 32) :
    divl n d = .some (BitVec.ofNat 32 (n.toNat / d.toNat)) := if_pos ⟨some, fits⟩

theorem nlzStep_spec (bound : Uint32) (bits : Nat) {p : Nat × Uint32} (half : bits ≤ 16)
    (bounded : bound.toNat + 1 = 2 ^ (32 - bits)) (shifted : p.2.toNat = x.toNat * 2 ^ p.1)
    (lower : 2 ^ (32 - 2 * bits) ≤ p.2.toNat) :
    (nlzStep bound bits p).2.toNat = x.toNat * 2 ^ (nlzStep bound bits p).1 ∧
      2 ^ (32 - bits) ≤ (nlzStep bound bits p).2.toNat := by
  rw [nlzStep]
  split
  next low =>
    have below : p.2.toNat < 2 ^ (32 - bits) := by
      have := BitVec.le_def.mp low
      omega
    have room : p.2.toNat * 2 ^ bits < 2 ^ 32 := by
      calc p.2.toNat * 2 ^ bits < 2 ^ (32 - bits) * 2 ^ bits :=
            Nat.mul_lt_mul_of_pos_right below (Nat.two_pow_pos bits)
        _ = 2 ^ 32 := by rw [← Nat.pow_add, Nat.sub_add_cancel (by omega)]
    have value : (p.2 <<< bits).toNat = p.2.toNat * 2 ^ bits := by
      rw [BitVec.toNat_shiftLeft, Nat.shiftLeft_eq, Nat.mod_eq_of_lt room]
    simp only [value]
    constructor
    · rw [shifted, Nat.pow_add, Nat.mul_assoc]
    · calc 2 ^ (32 - bits) = 2 ^ (32 - 2 * bits) * 2 ^ bits := by
            rw [← Nat.pow_add]
            congr 1
            omega
        _ ≤ p.2.toNat * 2 ^ bits := Nat.mul_le_mul_right _ lower
  next high =>
    refine ⟨shifted, ?_⟩
    have := BitVec.not_le.mp high
    have := BitVec.lt_def.mp this
    omega

/-- The number of leading zeros: the shift that brings the highest bit to the front. -/
theorem nlz_spec (some : x ≠ 0) : 2 ^ 31 ≤ x.toNat * 2 ^ nlz x ∧ x.toNat * 2 ^ nlz x < 2 ^ 32 := by
  have pos : 0 < x.toNat := by
    rw [Nat.pos_iff_ne_zero]
    exact fun zero => some (BitVec.eq_of_toNat_eq zero)
  have start : x.toNat = x.toNat * 2 ^ 0 := (Nat.mul_one _).symm
  obtain ⟨shifted, lower⟩ := nlzStep_spec 0x0000FFFF 16 (p := (0, x)) (by decide)
    (by decide) start pos
  obtain ⟨shifted, lower⟩ := nlzStep_spec 0x00FFFFFF 8 (by decide) (by decide) shifted lower
  obtain ⟨shifted, lower⟩ := nlzStep_spec 0x0FFFFFFF 4 (by decide) (by decide) shifted lower
  obtain ⟨shifted, lower⟩ := nlzStep_spec 0x3FFFFFFF 2 (by decide) (by decide) shifted lower
  rw [nlz]
  generalize nlzStep 0x3FFFFFFF 2 _ = p at shifted lower
  have upper := p.2.isLt
  split
  next low =>
    have below := BitVec.le_def.mp low
    have double : 2 ^ (p.1 + 1) = 2 ^ p.1 * 2 := Nat.pow_succ ..
    rw [double, ← Nat.mul_assoc, ← shifted]
    have bound : (0x7FFFFFFF : Uint32).toNat = 2 ^ 31 - 1 := rfl
    rw [bound] at below
    omega
  next high =>
    have above := BitVec.lt_def.mp (BitVec.not_le.mp high)
    have bound : (0x7FFFFFFF : Uint32).toNat = 2 ^ 31 - 1 := rfl
    rw [bound] at above
    rw [← shifted]
    omega

/-- A number from `2 ^ 32` on, shifted until its highest bit is in front. -/
theorem shift_lead {n e s : Nat} (lead : e = n / 2 ^ 32) (lower : 2 ^ 31 ≤ e * 2 ^ s)
    (upper : e * 2 ^ s < 2 ^ 32) : s ≤ 31 ∧ n * 2 ^ s < 2 ^ 64 ∧
      n * 2 ^ s / 2 ^ 32 = n / 2 ^ (32 - s) ∧ 2 ^ 31 ≤ n / 2 ^ (32 - s) := by
  have some : 0 < e := Nat.pos_of_mul_pos_right (Nat.lt_of_lt_of_le (Nat.two_pow_pos 31) lower)
  have few : s < 32 := by
    apply (Nat.pow_lt_pow_iff_right (by decide : 1 < 2)).mp
    exact Nat.lt_of_le_of_lt (Nat.le_mul_of_pos_left _ some) upper
  have whole : 2 ^ (32 - s) * 2 ^ s = 2 ^ 32 := by
    rw [← Nat.pow_add, Nat.sub_add_cancel (Nat.le_of_lt few)]
  have digits : e + 1 ≤ 2 ^ (32 - s) := by
    rw [← whole] at upper
    exact Nat.lt_of_mul_lt_mul_right upper
  have below : n < (e + 1) * 2 ^ 32 := by
    rw [lead, Nat.mul_comm]
    exact Nat.lt_mul_div_succ n (Nat.two_pow_pos 32)
  have above : e * 2 ^ 32 ≤ n := by
    rw [lead]
    exact Nat.div_mul_le_self n _
  refine ⟨Nat.le_of_lt_succ few, ?_, ?_, ?_⟩
  · calc n * 2 ^ s < (e + 1) * 2 ^ 32 * 2 ^ s := Nat.mul_lt_mul_of_pos_right below (Nat.two_pow_pos s)
      _ ≤ 2 ^ (32 - s) * 2 ^ 32 * 2 ^ s :=
          Nat.mul_le_mul_right _ (Nat.mul_le_mul_right _ digits)
      _ = 2 ^ (32 - s) * 2 ^ s * 2 ^ 32 := Nat.mul_right_comm ..
      _ = 2 ^ 64 := by rw [whole, ← Nat.pow_add]
  · rw [← whole, Nat.mul_div_mul_right _ _ (Nat.two_pow_pos s)]
  · rw [Nat.le_div_iff_mul_le (Nat.two_pow_pos _)]
    calc 2 ^ 31 * 2 ^ (32 - s) ≤ e * 2 ^ s * 2 ^ (32 - s) := Nat.mul_le_mul_right _ lower
      _ = e * 2 ^ 32 := by rw [Nat.mul_assoc, Nat.mul_comm (2 ^ s), whole]
      _ ≤ n := above

theorem toNat_high (n : Uint64) : ((n >>> 32).setWidth 32 : Uint32).toNat = n.toNat / 2 ^ 32 := by
  have := n.isLt
  rw [BitVec.toNat_setWidth, BitVec.toNat_ushiftRight, Nat.shiftRight_eq_div_pow]
  omega

theorem toNat_low (n : Uint64) : (n.setWidth 32 : Uint32).toNat = n.toNat % 2 ^ 32 :=
  BitVec.toNat_setWidth ..

theorem toNat_widen (x : Uint32) : (x.setWidth 64 : Uint64).toNat = x.toNat :=
  BitVec.toNat_setWidth_of_le (by decide)

theorem high_eq_zero_iff : d >>> 32 = 0 ↔ d.toNat < 2 ^ 32 := by
  rw [← BitVec.toNat_inj, BitVec.toNat_ushiftRight, Nat.shiftRight_eq_div_pow]
  have zero : (0 : Uint64).toNat = 0 := rfl
  rw [zero]
  omega

theorem toNat_pos (some : d ≠ 0) : 0 < d.toNat := by
  rw [Nat.pos_iff_ne_zero]
  exact fun zero => some (BitVec.eq_of_toNat_eq zero)

theorem udiv64_short (some : d ≠ 0) (short : d >>> 32 = 0) : udiv64 n d = .some (n / d) := by
  have pos := toNat_pos some
  have low := high_eq_zero_iff.mp short
  have inside := n.isLt
  have digit : (d.setWidth 32 : Uint32).toNat = d.toNat := by
    rw [toNat_low, Nat.mod_eq_of_lt low]
  have nonzero : (d.setWidth 32 : Uint32) ≠ 0 := by
    intro zero
    rw [zero] at digit
    exact Nat.ne_of_gt pos digit.symm
  have radix : ((1 : Uint64) <<< 32).toNat = 2 ^ 32 := rfl
  have value : ((1 : Uint64) <<< 32 * ((n >>> 32).setWidth 32 % d.setWidth 32 : Uint32).setWidth 64 +
      (n.setWidth 32 : Uint32).setWidth 64).toNat =
        2 ^ 32 * (n.toNat / 2 ^ 32 % d.toNat) + n.toNat % 2 ^ 32 := by
    have rest := Nat.mod_lt (n.toNat / 2 ^ 32) pos
    rw [BitVec.toNat_add, BitVec.toNat_mul, toNat_widen, toNat_widen, BitVec.toNat_umod, toNat_high,
      digit, toNat_low, radix]
    omega
  have fits := digit_div_lt (n.toNat / 2 ^ 32) pos (Nat.mod_lt n.toNat (Nat.two_pow_pos 32))
  rw [udiv64, if_pos short]
  simp only
  rw [divl_eq nonzero (by rw [value, digit]; exact fits), Option.map_some, Option.some_inj, value, digit]
  apply BitVec.eq_of_toNat_eq
  have whole := Nat.div_add_mod n.toNat (2 ^ 32)
  have quotient : n.toNat / d.toNat < 2 ^ 64 := Nat.lt_of_le_of_lt (Nat.div_le_self ..) inside
  rw [BitVec.toNat_add, BitVec.toNat_mul, toNat_widen, toNat_widen, BitVec.toNat_ofNat,
    BitVec.toNat_udiv, BitVec.toNat_udiv, toNat_high, digit, radix, Nat.mod_eq_of_lt fits,
    Nat.add_mod_mod, digits_div pos, whole, Nat.mod_eq_of_lt quotient]

theorem udiv64_long (long : ¬ d >>> 32 = 0) (le : ¬ n < d) : udiv64 n d = .some (n / d) := by
  have inside := n.isLt
  have high : 2 ^ 32 ≤ d.toNat := Nat.le_of_not_lt fun low => long (high_eq_zero_iff.mpr low)
  have above : d.toNat ≤ n.toNat := Nat.le_of_not_lt fun lt => le (BitVec.lt_def.mpr lt)
  have lead : ((d >>> 32).setWidth 32 : Uint32) ≠ 0 := by
    intro zero
    have := toNat_high d
    rw [zero] at this
    have zero' : (0 : Uint32).toNat = 0 := rfl
    omega
  obtain ⟨lower, upper⟩ := nlz_spec lead
  rw [udiv64, if_neg long, if_neg le]
  simp only
  generalize nlz ((d >>> 32).setWidth 32) = s at lower upper
  obtain ⟨few, room, shifted, big⟩ := shift_lead (toNat_high d) lower upper
  have digit : (((d <<< s) >>> 32).setWidth 32 : Uint32).toNat = d.toNat / 2 ^ (32 - s) := by
    rw [toNat_high, BitVec.toNat_shiftLeft, Nat.shiftLeft_eq, Nat.mod_eq_of_lt room, shifted]
  generalize (((d <<< s) >>> 32).setWidth 32 : Uint32) = v at digit
  have nonzero : v ≠ 0 := by
    intro zero
    rw [zero] at digit
    have zero' : (0 : Uint32).toNat = 0 := rfl
    omega
  have half : (n >>> 1).toNat = n.toNat / 2 := by
    rw [BitVec.toNat_ushiftRight, Nat.shiftRight_eq_div_pow, Nat.pow_one]
  have fits : (n >>> 1).toNat / v.toNat < 2 ^ 32 := by
    rw [half, digit, Nat.div_lt_iff_lt_mul (Nat.lt_of_lt_of_le (Nat.two_pow_pos 31) big)]
    omega
  have back : 2 * 2 ^ (31 - s) = 2 ^ (32 - s) := by
    rw [Nat.mul_comm, ← Nat.pow_succ]
    congr 1
    omega
  rw [divl_eq nonzero fits, Option.map_some, Option.some_inj]
  have estimate : ((BitVec.ofNat 32 ((n >>> 1).toNat / v.toNat) >>> (31 - s)).setWidth 64 :
      Uint64).toNat = n.toNat / (v.toNat * 2 ^ (32 - s)) := by
    rw [toNat_widen, BitVec.toNat_ushiftRight, Nat.shiftRight_eq_div_pow, BitVec.toNat_ofNat,
      Nat.mod_eq_of_lt fits, half, Nat.div_div_eq_div_mul, Nat.div_div_eq_div_mul, ← back]
    congr 1
    exact Nat.mul_left_comm ..
  generalize ((BitVec.ofNat 32 ((n >>> 1).toNat / v.toNat) >>> (31 - s)).setWidth 64 : Uint64) = q
    at estimate
  have place := Nat.two_pow_pos (32 - s)
  have big' : 2 ^ 31 ≤ v.toNat := by
    rw [digit]
    exact big
  have at_least := div_le_div_truncated (n := n.toNat) digit
    (Nat.mul_pos (Nat.lt_of_lt_of_le (Nat.two_pow_pos 31) big') place)
  have at_most := div_truncated_le (n := n.toNat) digit place (Nat.two_pow_pos 31) big' (by omega)
  rw [← estimate] at at_least at_most
  have pos : 0 < d.toNat := Nat.lt_of_lt_of_le (Nat.two_pow_pos 32) high
  have first : 0 < n.toNat / d.toNat := Nat.div_pos above pos
  have less : (q - 1).toNat = q.toNat - 1 := by
    have one : (1 : Uint64).toNat = 1 := rfl
    have := q.isLt
    rw [BitVec.toNat_sub, one]
    omega
  have product : (q.toNat - 1) * d.toNat ≤ n.toNat := by
    calc (q.toNat - 1) * d.toNat ≤ n.toNat / d.toNat * d.toNat := Nat.mul_le_mul_right _ (by omega)
      _ ≤ n.toNat := Nat.div_mul_le_self ..
  have remainder : (n - (q - 1) * d).toNat = n.toNat - (q.toNat - 1) * d.toNat := by
    rw [BitVec.toNat_sub, BitVec.toNat_mul, less, Nat.mod_eq_of_lt (Nat.lt_of_le_of_lt product inside)]
    omega
  have right := corrected_div pos at_least at_most (Nat.lt_of_lt_of_le first at_least)
  apply BitVec.eq_of_toNat_eq
  rw [BitVec.toNat_udiv, ← right, ← remainder, ← less]
  by_cases ended : n - (q - 1) * d < d
  · rw [if_pos ended, if_pos (BitVec.lt_def.mp ended)]
  · rw [if_neg ended, if_neg fun lt => ended (BitVec.lt_def.mpr lt)]

/-- `udiv64` divides, and no division on the way traps. -/
theorem udiv64_eq (n : Uint64) (some : d ≠ 0) : udiv64 n d = .some (n / d) := by
  by_cases short : d >>> 32 = 0
  · exact udiv64_short some short
  · by_cases lt : n < d
    · rw [udiv64, if_neg short, if_pos lt, Option.some_inj]
      apply BitVec.eq_of_toNat_eq
      rw [BitVec.toNat_udiv, Nat.div_eq_of_lt (BitVec.lt_def.mp lt)]
      rfl
    · exact udiv64_long short lt

end Unsigned

section Signed
variable {n d : Uint64}

theorem absolute_eq (n : Uint64) : absolute n = if n.msb then -n else n := by
  rw [absolute, BitVec.msb_eq_toInt]
  by_cases negative : n.toInt < 0
  · rw [if_neg (by omega), decide_eq_true negative, if_pos rfl]
  · rw [if_pos (by omega), decide_eq_false negative, if_neg Bool.false_ne_true]

theorem absolute_ne_zero (some : d ≠ 0) : absolute d ≠ 0 := by
  rw [absolute_eq]
  split
  · exact fun zero => some (BitVec.neg_eq_zero_iff.mp zero)
  · exact some

/-- `sdiv64` is the quotient of the absolute values, with its sign. -/
theorem sdiv64_eq (n : Uint64) (some : d ≠ 0) : sdiv64 n d = .some (n.sdiv d) := by
  rw [sdiv64, udiv64_eq _ (absolute_ne_zero some), Option.map_some, Option.some_inj, absolute_eq,
    absolute_eq, BitVec.sdiv_eq]
  have left : n.toInt < 0 ↔ n.msb = true := by rw [BitVec.msb_eq_toInt, decide_eq_true_iff]
  have right : d.toInt < 0 ↔ d.msb = true := by rw [BitVec.msb_eq_toInt, decide_eq_true_iff]
  simp only [left, right]
  cases n.msb <;> cases d.msb <;> rfl

theorem sdiv64_exact (n : Uint64) (nonzero : d ≠ 0) (fits : ¬ (n.toInt = -2 ^ 63 ∧ d.toInt = -1)) :
    ∃ q, sdiv64 n d = some q ∧ q.toInt = n.toInt.tdiv d.toInt := by
  refine ⟨n.sdiv d, sdiv64_eq n nonzero, BitVec.toInt_sdiv_of_ne_or_ne n d ?_⟩
  by_cases least : n = BitVec.intMin 64
  · refine .inr fun minus => fits ⟨?_, ?_⟩
    · rw [least]
      rfl
    · rw [minus]
      rfl
  · exact .inl least

/-- The exact quotient is what the division is asked for, but for the one that has no place. -/
theorem division_correct :
    (∀ n d : Uint64, d ≠ 0 → ∃ q, udiv64 n d = some q ∧ q.toNat = n.toNat / d.toNat) ∧
    ∀ n d : Uint64, d ≠ 0 → ¬ (n.toInt = -2 ^ 63 ∧ d.toInt = -1) →
      ∃ q, sdiv64 n d = some q ∧ q.toInt = n.toInt.tdiv d.toInt := by
  constructor
  · intro n d nonzero
    exact ⟨n / d, udiv64_eq n nonzero, BitVec.toNat_udiv⟩
  · exact fun n d nonzero fits => sdiv64_exact n nonzero fits

theorem division_correct_of_large : (∃ q, udiv64 0xffffffffffffffff 0x100000001 = some q ∧
      q.toNat = 0xffffffffffffffff / 0x100000001) ∧
    ∃ q, sdiv64 (-7) 2 = some q ∧ q.toInt = -3 :=
  ⟨division_correct.1 _ _ (by decide), division_correct.2 _ _ (by decide) (by decide)⟩

/-- A quotient and a remainder of unsigned numbers. -/
def RemainsUnsigned (n d : Uint64) : Prop :=
  ∃ q r, udivdi3 n d = some q ∧ umoddi3 n d = some r ∧ r.toNat = n.toNat % d.toNat ∧
    q.toNat * d.toNat + r.toNat = n.toNat ∧ r.toNat < d.toNat

/-- A quotient and a remainder of signed numbers. -/
def RemainsSigned (n d : Uint64) : Prop :=
  ∃ q r, divdi3 n d = some q ∧ moddi3 n d = some r ∧
    r.toInt = n.toInt - d.toInt * n.toInt.tdiv d.toInt ∧
    q.toInt * d.toInt + r.toInt = n.toInt ∧ |r.toInt| < |d.toInt|

/-- `umod64` cuts the remainder off at 32 bits. -/
theorem umoddi3_eq (n : Uint64) (nonzero : d ≠ 0) :
    ∃ r, umoddi3 n d = some r ∧ r.toNat = n.toNat % d.toNat % 2 ^ 32 := by
  refine ⟨((n - d * (n / d)).setWidth 32 : Uint32).setWidth 64, ?_, ?_⟩
  · rw [umoddi3, umod64, udiv64_eq n nonzero, Option.map_some, Option.map_some]
  · have inside := n.isLt
    have down := Nat.mul_div_le n.toNat d.toNat
    have split := Nat.div_add_mod n.toNat d.toNat
    rw [toNat_widen, toNat_low, BitVec.toNat_sub, BitVec.toNat_mul, BitVec.toNat_udiv,
      Nat.mod_eq_of_lt (Nat.lt_of_le_of_lt down inside)]
    congr 1
    omega

theorem remainsUnsigned_iff (n : Uint64) (nonzero : d ≠ 0) :
    RemainsUnsigned n d ↔ n.toNat % d.toNat < 2 ^ 32 := by
  obtain ⟨r, found, value⟩ := umoddi3_eq n nonzero
  constructor
  · intro remains
    obtain ⟨-, r', -, found', exact', -⟩ := remains
    rw [found, Option.some_inj] at found'
    rw [← exact', ← found', value]
    exact Nat.mod_lt _ (Nat.two_pow_pos 32)
  · intro small
    rw [Nat.mod_eq_of_lt small] at value
    refine ⟨n / d, r, udiv64_eq n nonzero, found, value, ?_, ?_⟩
    · rw [value, BitVec.toNat_udiv]
      exact Nat.div_add_mod' ..
    · rw [value]
      exact Nat.mod_lt _ (toNat_pos nonzero)

/-- `smod64` cuts the remainder off at 32 bits, with a sign. -/
theorem moddi3_eq (nonzero : d ≠ 0) (fits : ¬ (n.toInt = -2 ^ 63 ∧ d.toInt = -1)) :
    ∃ q r, divdi3 n d = some q ∧ q.toInt = n.toInt.tdiv d.toInt ∧ moddi3 n d = some r ∧
      r.toInt = (n.toInt.tmod d.toInt).bmod (2 ^ 32) := by
  obtain ⟨q, quotient, value⟩ := sdiv64_exact n nonzero fits
  refine ⟨q, ((n - d * q).setWidth 32 : Uint32).signExtend 64, quotient, value, ?_, ?_⟩
  · rw [moddi3, smod64, quotient, Option.map_some, Option.map_some]
  · have narrow : (((n - d * q).toNat : Int)).bmod (2 ^ 32) = ((n - d * q).toInt).bmod (2 ^ 32) := by
      rw [BitVec.toInt_eq_toNat_bmod, Int.bmod_bmod_of_dvd (by decide)]
    rw [BitVec.toInt_signExtend_of_le (by decide), BitVec.toInt_setWidth, narrow, BitVec.toInt_sub,
      BitVec.toInt_mul, value, Int.sub_bmod_bmod, Int.bmod_bmod_of_dvd (by decide), Int.tmod_def]

theorem remainsSigned_iff (nonzero : d ≠ 0) (fits : ¬ (n.toInt = -2 ^ 63 ∧ d.toInt = -1)) :
    RemainsSigned n d ↔ -2 ^ 31 ≤ n.toInt.tmod d.toInt ∧ n.toInt.tmod d.toInt < 2 ^ 31 := by
  obtain ⟨q, r, quotient, value, found, rest⟩ := moddi3_eq nonzero fits
  constructor
  · intro remains
    obtain ⟨-, r', -, found', exact', -⟩ := remains
    rw [found, Option.some_inj] at found'
    rw [← found', ← Int.tmod_def, rest] at exact'
    have lower := Int.le_bmod (x := n.toInt.tmod d.toInt) (m := 2 ^ 32) (by decide)
    have upper := Int.bmod_lt (x := n.toInt.tmod d.toInt) (m := 2 ^ 32) (by decide)
    omega
  · intro small
    rw [Int.bmod_eq_of_le (by omega) (by omega)] at rest
    have some : d.toInt ≠ 0 := fun zero => nonzero (BitVec.eq_of_toInt_eq zero)
    refine ⟨q, r, quotient, found, ?_, ?_, ?_⟩
    · rw [rest, Int.tmod_def]
    · rw [rest, value]
      exact Int.tdiv_mul_add_tmod ..
    · rw [rest, Int.abs_eq_natAbs, Int.abs_eq_natAbs, Int.natAbs_tmod]
      exact Int.ofNat_lt.mpr (Nat.mod_lt _ (Int.natAbs_pos.mpr some))

/-- The remainders are right exactly where they have 32 bits. -/
theorem remainder_iff (n d : Uint64) (nonzero : d ≠ 0) :
    (RemainsUnsigned n d ↔ n.toNat % d.toNat < 2 ^ 32) ∧
      (¬ (n.toInt = -2 ^ 63 ∧ d.toInt = -1) →
        (RemainsSigned n d ↔ -2 ^ 31 ≤ n.toInt.tmod d.toInt ∧ n.toInt.tmod d.toInt < 2 ^ 31)) :=
  ⟨remainsUnsigned_iff n nonzero, remainsSigned_iff nonzero⟩

theorem remainder_iff_of_small : RemainsUnsigned 7 2 ∧ RemainsSigned (-7) 2 :=
  ⟨(remainder_iff 7 2 (by decide)).1.mpr (by decide),
    ((remainder_iff (-7) 2 (by decide)).2 (by decide)).mpr (by decide)⟩

/-- The remainder of 2 ^ 32 by 2 ^ 33 comes out as 0, and so does the signed one. -/
theorem remainder_cut_off :
    (umoddi3 0x100000000 0x200000000 = some 0 ∧ ¬ RemainsUnsigned 0x100000000 0x200000000) ∧
      moddi3 0x100000000 0x200000000 = some 0 ∧ ¬ RemainsSigned 0x100000000 0x200000000 := by
  refine ⟨⟨by decide, ?_⟩, by decide, ?_⟩
  · rw [remainsUnsigned_iff _ (by decide)]
    decide
  · rw [remainsSigned_iff (by decide) (by decide)]
    decide

end Signed
end CS162.Pintos.Arithmetic
