import CS162.Pintos.FormatInteger

/-!
What `format_integer` puts out: the buffer in a closed form, that this are the digits of the
value, and the padding. With both `-` and `0`, as a negative width from an argument leaves
them, it pads twice.
-/

namespace CS162.Pintos.Stdio
open CS162.Library

section Buffer
variable {b : IntegerBase} {on : Bool} {cnt value bits : Nat} {buf : List UInt8} {digits : List Nat}

/-- The comma before a digit, if one is due. -/
def separator (b : IntegerBase) (on : Bool) (cnt : Nat) : List UInt8 :=
  if on ∧ 0 < cnt ∧ cnt % b.group = 0 then [comma] else []

/-- The digits of a value, the last one first, in groups from a digit count on. -/
def grouped (b : IntegerBase) (on : Bool) : Nat → List Nat → List UInt8
  | _, [] => []
  | cnt, d :: digits => separator b on cnt ++ b.digits.getD d 0 :: grouped b on (cnt + 1) digits

theorem putChar_of_lt {c : UInt8} (room : buf.length < bufSize) : putChar buf c = .ok (buf ++ [c]) := if_pos room

theorem putComma_of_le (room : (buf ++ separator b on cnt).length ≤ bufSize) :
    putComma b on cnt buf = .ok (buf ++ separator b on cnt) := by
  rw [putComma, separator] at *
  split
  · rw [if_pos ‹_›, List.length_append] at room
    exact putChar_of_lt room
  · exact congrArg Except.ok (List.append_nil _).symm

theorem putDigits_eq (fits : value < 2 ^ bits)
    (room : (buf ++ grouped b on cnt (Nat.digits b.base value)).length ≤ bufSize) :
    putDigits b on bits value cnt buf = .ok (buf ++ grouped b on cnt (Nat.digits b.base value)) := by
  have large : 1 < b.base := Nat.lt_of_lt_of_le (by decide) b.large
  induction bits generalizing value cnt buf with
  | zero =>
      obtain rfl : value = 0 := by omega
      rw [Nat.digits_zero]
      exact congrArg Except.ok (List.append_nil _).symm
  | succ bits ih =>
      rw [putDigits]
      by_cases more : 0 < value
      case neg =>
        obtain rfl : value = 0 := by omega
        rw [if_neg more, Nat.digits_zero]
        exact congrArg Except.ok (List.append_nil _).symm
      have smaller : value / b.base < 2 ^ bits := by
        refine Nat.lt_of_le_of_lt (Nat.div_le_div_left (show 2 ≤ b.base from large) (by decide)) ?_
        rw [Nat.pow_succ] at fits
        omega
      rw [Nat.digits_def' large more, grouped, ← List.append_assoc, List.append_cons] at room ⊢
      have room₁ : (buf ++ separator b on cnt ++ [b.digits.getD (value % b.base) 0]).length ≤ bufSize := by
        rw [List.length_append] at room
        omega
      have room₂ : (buf ++ separator b on cnt).length < bufSize := by
        rw [List.length_append, List.length_singleton] at room₁
        exact room₁
      rw [if_pos more, putComma_of_le (Nat.le_of_lt room₂), ok_bind, putChar_of_lt room₂, ok_bind]
      exact ih smaller room

theorem putZeros_eq {precision : Int} {n : Nat} (room : buf.length + n < bufSize) :
    putZeros precision n buf = .ok (buf ++ List.replicate (min n (precision - buf.length).toNat) 0x30) := by
  induction n generalizing buf with
  | zero =>
      rw [Nat.zero_min]
      exact congrArg Except.ok (List.append_nil _).symm
  | succ n ih =>
      rw [putZeros]
      by_cases missing : (buf.length : Int) < precision
      · have room' : (buf ++ [0x30]).length + n < bufSize := by
          rw [List.length_append, List.length_singleton]
          omega
        have zeros : min (n + 1) (precision - buf.length).toNat =
            min n (precision - (buf ++ [0x30]).length).toNat + 1 := by
          rw [List.length_append, List.length_singleton]
          omega
        rw [if_pos missing, putChar_of_lt (by omega), ok_bind, ih room', zeros, List.append_assoc, List.replicate_succ]
        rfl
      · have zeros : min (n + 1) (precision - buf.length).toNat = 0 := by omega
        rw [if_neg missing, zeros]
        exact congrArg Except.ok (List.append_nil _).symm

/-- How many characters there are before a digit count. -/
def offset (b : IntegerBase) (cnt : Nat) : Nat := cnt + (cnt - 1) / b.group

theorem offset_succ (on : Bool) (cnt : Nat) (groups : on = true) :
    offset b (cnt + 1) = offset b cnt + (separator b on cnt).length + 1 := by
  rw [offset, offset, separator, groups]
  cases cnt with
  | zero => rw [if_neg (by omega)]; simp
  | succ n =>
      rw [Nat.add_sub_cancel, Nat.add_sub_cancel, Nat.succ_div]
      by_cases due : b.group ∣ n + 1
      · rw [if_pos due, if_pos ⟨rfl, Nat.succ_pos n, Nat.dvd_iff_mod_eq_zero.mp due⟩, List.length_singleton]
        omega
      · rw [if_neg due, if_neg fun all => due (Nat.dvd_iff_mod_eq_zero.mpr all.2.2), List.length_nil]
        omega

theorem grouped_length (groups : on = true) :
    offset b cnt + (grouped b on cnt digits).length = offset b (cnt + digits.length) := by
  induction digits generalizing cnt with
  | nil => rfl
  | cons d digits ih =>
      have rest : offset b (cnt + 1) + (grouped b on (cnt + 1) digits).length =
          offset b (cnt + 1 + digits.length) := ih
      rw [offset_succ on cnt groups] at rest
      rw [grouped, List.length_append, List.length_cons, List.length_cons, Nat.add_comm digits.length,
        ← Nat.add_assoc cnt, ← rest]
      omega

theorem grouped_of_off (off : on = false) : grouped b on cnt digits = digits.map (b.digits.getD · 0) := by
  induction digits generalizing cnt with
  | nil => rfl
  | cons d digits ih =>
      rw [grouped, ih, separator, if_neg (by rw [off]; exact fun all => Bool.false_ne_true all.1)]
      rfl

theorem grouped_zero_length : (grouped b on 0 digits).length =
    if on then digits.length + (digits.length - 1) / b.group else digits.length := by
  cases groups : on with
  | false => rw [grouped_of_off rfl, List.length_map]; rfl
  | true =>
      have total : offset b 0 + (grouped b true 0 digits).length = offset b (0 + digits.length) := grouped_length rfl
      rw [offset, offset, Nat.zero_sub, Nat.zero_div, Nat.zero_add, Nat.zero_add] at total
      rw [if_pos rfl]
      exact total

/-- A digit's character. -/
def digitChar (b : IntegerBase) (d : Nat) : UInt8 := b.digits.getD d 0

theorem digitChar_eq {d : Nat} (small : d < b.base) : digitChar b d = b.digits.get ⟨d, b.size.symm ▸ small⟩ := by
  rw [digitChar, List.getD_eq_getElem?_getD, List.getElem?_eq_getElem (b.size.symm ▸ small)]
  rfl

theorem digitChar_mem {d : Nat} (small : d < b.base) : digitChar b d ∈ b.digits := by
  rw [digitChar_eq small]
  exact List.get_mem ..

theorem digitChar_ne_comma {d : Nat} (small : d < b.base) : digitChar b d ≠ comma := by
  intro same
  have inside := digitChar_mem small
  rw [same] at inside
  exact b.no_comma inside

theorem idxOf_digitChar {d : Nat} (small : d < b.base) : b.digits.idxOf (digitChar b d) = d := by
  rw [digitChar_eq small, List.get_eq_getElem, b.nodup.idxOf_getElem]

theorem digitChar_zero : digitChar b 0 = 0x30 := by
  have first := b.zero
  rw [digitChar, List.getD_eq_getElem?_getD, ← List.head?_eq_getElem?, first]
  rfl

theorem ungroup_append (l₁ l₂ : List UInt8) : ungroup (l₁ ++ l₂) = ungroup l₁ ++ ungroup l₂ := List.filter_append ..

theorem ungroup_of_notMem {l : List UInt8} (h : comma ∉ l) : ungroup l = l := by
  refine List.filter_eq_self.mpr fun c inside => decide_eq_true ?_
  rintro rfl
  exact h inside

theorem ungroup_grouped (small : ∀ d ∈ digits, d < b.base) :
    ungroup (grouped b on cnt digits) = digits.map (digitChar b) := by
  induction digits generalizing cnt with
  | nil => rfl
  | cons d digits ih =>
      obtain ⟨first, others⟩ := List.forall_mem_cons.mp small
      have none_left : ungroup (separator b on cnt) = [] := by
        rw [separator]
        split <;> rfl
      rw [grouped, ungroup_append, none_left, List.nil_append, List.map_cons, ← ih others]
      exact List.filter_cons_of_pos (decide_eq_true (digitChar_ne_comma first))

theorem offset_of_due {k : Nat} (some_group : 0 < k) : (offset b (b.group * k) + 1) % (b.group + 1) = 0 := by
  have quotient : (b.group * k - 1) / b.group = k - 1 := by
    obtain ⟨n, rfl⟩ : ∃ n, k = n + 1 := ⟨k - 1, by omega⟩
    have positive := b.grouped
    rw [Nat.mul_succ, Nat.add_sub_assoc positive, Nat.mul_add_div positive, Nat.div_eq_of_lt (by omega)]
    omega
  rw [offset, quotient]
  have total : b.group * k + (k - 1) + 1 = (b.group + 1) * k := by
    rw [Nat.add_mul]
    omega
  rw [total]
  exact Nat.mul_mod_right ..

theorem offset_digit (cnt : Nat) : offset b (cnt + 1) % (b.group + 1) ≠ 0 := by
  have positive := b.grouped
  have small : cnt % b.group < b.group := Nat.mod_lt _ positive
  have place : offset b (cnt + 1) = (b.group + 1) * (cnt / b.group) + (cnt % b.group + 1) := by
    rw [offset, Nat.add_sub_cancel, Nat.add_mul, Nat.one_mul]
    have division := Nat.div_add_mod cnt b.group
    omega
  rw [place, Nat.mul_add_mod, Nat.mod_eq_of_lt (by omega)]
  exact Nat.succ_ne_zero _

theorem comma_iff_of_on (small : ∀ d ∈ digits, d < b.base) {i : Nat} {c : UInt8}
    (here : (grouped b true cnt digits)[i]? = some c) : c = comma ↔ (offset b cnt + i + 1) % (b.group + 1) = 0 := by
  induction digits generalizing cnt i with
  | nil => cases here
  | cons d digits ih =>
      obtain ⟨first, others⟩ := List.forall_mem_cons.mp small
      have next : offset b (cnt + 1) = offset b cnt + (separator b true cnt).length + 1 := offset_succ true cnt rfl
      rw [grouped] at here
      obtain before | at_or_behind := Nat.lt_or_ge i (separator b true cnt).length
      · rw [List.getElem?_append_left before] at here
        rw [separator] at here before
        split at before
        case isFalse => exact absurd before (Nat.not_lt_zero i)
        case isTrue due =>
          obtain rfl : i = 0 := Nat.lt_one_iff.mp before
          rw [if_pos due] at here
          obtain ⟨k, rfl⟩ := Nat.dvd_iff_mod_eq_zero.mpr due.2.2
          exact iff_of_true (Option.some_injective _ here).symm (offset_of_due (Nat.pos_of_mul_pos_left due.2.1))
      · rw [List.getElem?_append_right at_or_behind] at here
        cases distance : i - (separator b true cnt).length with
        | zero =>
            rw [distance] at here
            have place : offset b cnt + i + 1 = offset b (cnt + 1) := by omega
            rw [place]
            refine iff_of_false ?_ (offset_digit cnt)
            rw [← Option.some_injective _ here]
            exact digitChar_ne_comma first
        | succ j =>
            rw [distance] at here
            have place : offset b cnt + i + 1 = offset b (cnt + 1) + j + 1 := by omega
            rw [place]
            exact ih others here

theorem comma_iff (small : ∀ d ∈ digits, d < b.base) {i : Nat} {c : UInt8}
    (here : (grouped b on 0 digits)[i]? = some c) : c = comma ↔ on ∧ (i + 1) % (b.group + 1) = 0 := by
  cases groups : on with
  | false =>
      rw [groups, grouped_of_off rfl, List.getElem?_map] at here
      obtain ⟨d, found, rfl⟩ := Option.map_eq_some_iff.mp here
      have other := digitChar_ne_comma (small d (List.mem_of_getElem? found))
      exact iff_of_false other fun all => Bool.false_ne_true all.1
  | true =>
      rw [groups] at here
      have place := comma_iff_of_on small here
      rw [offset, Nat.zero_sub, Nat.zero_div, Nat.zero_add] at place
      exact place.trans (and_iff_right rfl).symm

theorem grouped_getLast? (more : digits ≠ []) :
    (grouped b on cnt digits).getLast? = some (digitChar b (digits.getLast more)) := by
  induction digits generalizing cnt with
  | nil => exact absurd rfl more
  | cons d digits ih =>
      rw [grouped, List.getLast?_append]
      cases digits with
      | nil => rfl
      | cons d' digits =>
          rw [List.getLast?_cons, ih (List.cons_ne_nil _ _), List.getLast_cons (List.cons_ne_nil _ _)]
          rfl

end Buffer

section Number
variable {value : UInt64} {b : IntegerBase} {c : PrintfConversion}

/-- The digits of the value itself, the last one first. -/
def ownDigits (value : UInt64) (b : IntegerBase) (c : PrintfConversion) : List UInt8 :=
  grouped b c.flags.group 0 (Nat.digits b.base value.toNat)

/-- The zeros for the precision. -/
def precisionZeros (c : PrintfConversion) (own : Nat) : Nat :=
  min (if c.precision < 0 then 1 else c.precision.toNat) 63 - own

/-- The zero for base 8. -/
def octalZero (b : IntegerBase) (c : PrintfConversion) (zeros : Nat) : Nat :=
  if c.flags.pound ∧ b.base = 8 ∧ zeros = 0 then 1 else 0

/-- What is in the buffer. -/
def number (value : UInt64) (b : IntegerBase) (c : PrintfConversion) : List UInt8 :=
  let zeros := precisionZeros c (ownDigits value b c).length
  ownDigits value b c ++ List.replicate (zeros + octalZero b c zeros) 0x30

theorem digits_small : ∀ d ∈ Nat.digits b.base value.toNat, d < b.base := fun _ inside =>
  Nat.digits_lt_base (Nat.lt_of_lt_of_le (by decide) b.large) inside

theorem ownDigits_length_le : (ownDigits value b c).length ≤ 44 := by
  have large : 1 < b.base := Nat.lt_of_lt_of_le (by decide) b.large
  have count : (Nat.digits b.base value.toNat).length ≤ 22 := by
    refine (Nat.digits_length_le_iff large _).mpr ?_
    calc value.toNat < 2 ^ 64 := value.toNat_lt
      _ ≤ 8 ^ 22 := by decide
      _ ≤ b.base ^ 22 := Nat.pow_le_pow_left b.large 22
  have commas := Nat.div_le_self ((Nat.digits b.base value.toNat).length - 1) b.group
  rw [ownDigits, grouped_zero_length]
  split <;> omega

theorem ownDigits_last : (ownDigits value b c).getLast? ≠ some 0x30 := by
  intro last
  by_cases more : Nat.digits b.base value.toNat = []
  · rw [ownDigits, more] at last
    cases last
  · rw [ownDigits, grouped_getLast? more, ← digitChar_zero (b := b)] at last
    have small := digits_small _ (List.getLast_mem more)
    have positive : 0 < b.base := Nat.lt_of_lt_of_le (by decide) b.large
    have same := congrArg b.digits.idxOf (Option.some_injective _ last)
    rw [idxOf_digitChar small, idxOf_digitChar positive] at same
    exact Nat.getLast_digit_ne_zero b.base (Nat.digits_ne_nil_iff_ne_zero.mp more) same

theorem putNumber_eq : putNumber value b c = .ok (number value b c) := by
  have short : (ownDigits value b c).length ≤ 44 := ownDigits_length_le
  have size : bufSize = 64 := rfl
  have own : putDigits b c.flags.group 64 value.toNat 0 [] = .ok (ownDigits value b c) :=
    putDigits_eq value.toNat_lt (Nat.le_trans short (by decide))
  have zeros : min (bufSize - 1 - (ownDigits value b c).length)
      ((if c.precision < 0 then 1 else c.precision) - (ownDigits value b c).length).toNat =
      precisionZeros c (ownDigits value b c).length := by
    rw [precisionZeros]
    split <;> omega
  rw [putNumber, own, ok_bind]
  dsimp only
  rw [putZeros_eq (by omega), ok_bind, zeros, number]
  cases count : precisionZeros c (ownDigits value b c).length with
  | zero =>
      rw [List.replicate_zero, List.append_nil, octalZero]
      by_cases octal : c.flags.pound ∧ b.base = 8
      · rw [if_pos ⟨octal.1, octal.2, ownDigits_last⟩, if_pos ⟨octal.1, octal.2, rfl⟩, putChar_of_lt (by omega)]
        rfl
      · rw [if_neg fun all => octal ⟨all.1, all.2.1⟩, if_neg fun all => octal ⟨all.1, all.2.1⟩]
        exact congrArg Except.ok (List.append_nil _).symm
  | succ n =>
      have last : (ownDigits value b c ++ List.replicate (n + 1) 0x30).getLast? = some 0x30 := by
        rw [List.getLast?_append, List.getLast?_replicate, if_neg (Nat.succ_ne_zero n)]
        rfl
      rw [octalZero, if_neg fun all => all.2.2 last, if_neg fun all => Nat.succ_ne_zero n all.2.2]

theorem number_length : (number value b c).length = numberLength value b c := by
  have short : (ownDigits value b c).length ≤ 44 := ownDigits_length_le
  have own : (ownDigits value b c).length =
      if c.flags.group then
        (Nat.digits b.base value.toNat).length + ((Nat.digits b.base value.toNat).length - 1) / b.group
      else (Nat.digits b.base value.toNat).length := grouped_zero_length
  rw [number, numberLength, List.length_append, List.length_replicate, ← own, precisionZeros, octalZero]
  simp only [Nat.sub_eq_zero_iff_le]
  omega

theorem valueIn_append_zero {l : List UInt8} {n : Nat} : valueIn b (List.replicate n 0x30 ++ l) = valueIn b l := by
  induction n with
  | zero => rfl
  | succ n ih =>
      have first : b.digits.idxOf 0x30 = 0 := by
        rw [← digitChar_zero (b := b), idxOf_digitChar (Nat.lt_of_lt_of_le (by decide) b.large)]
      rw [List.replicate_succ, List.cons_append, valueIn, List.foldl_cons, first, Nat.zero_mul, ← valueIn]
      exact ih

theorem valueIn_digits {digits : List Nat} (small : ∀ d ∈ digits, d < b.base) :
    valueIn b (digits.map (digitChar b)).reverse = Nat.ofDigits b.base digits := by
  rw [valueIn, List.foldl_reverse]
  induction digits with
  | nil => rfl
  | cons d digits ih =>
      obtain ⟨first, others⟩ := List.forall_mem_cons.mp small
      rw [List.map_cons, List.foldr_cons, ih others, idxOf_digitChar first, Nat.ofDigits_cons, Nat.mul_comm,
        Nat.add_comm]

theorem ungroup_zeros {n : Nat} : ungroup (List.replicate n 0x30) = List.replicate n 0x30 := by
  refine ungroup_of_notMem fun inside => ?_
  exact absurd (List.eq_of_mem_replicate inside) (by decide)

theorem ungroup_reverse {l : List UInt8} : ungroup l.reverse = (ungroup l).reverse := List.filter_reverse ..

theorem ungroup_ownDigits : ungroup (ownDigits value b c) = (Nat.digits b.base value.toNat).map (digitChar b) :=
  ungroup_grouped digits_small

theorem eq_zero_of_ownDigits (no_own : ownDigits value b c = []) : value = 0 := by
  have no_digits : ungroup (ownDigits value b c) = (Nat.digits b.base value.toNat).map (digitChar b) :=
    ungroup_ownDigits
  rw [no_own] at no_digits
  exact UInt64.toNat_inj.mp (Nat.digits_eq_nil_iff_eq_zero.mp (List.map_eq_nil_iff.mp no_digits.symm))

theorem digits_number : Digits value b c (number value b c).reverse := by
  have large : 1 < b.base := Nat.lt_of_lt_of_le (by decide) b.large
  have short : (ownDigits value b c).length ≤ 44 := ownDigits_length_le
  have size : (number value b c).reverse.length = (ownDigits value b c).length +
      (precisionZeros c (ownDigits value b c).length +
        octalZero b c (precisionZeros c (ownDigits value b c).length)) := by
    rw [List.length_reverse, number, List.length_append, List.length_replicate]
  obtain ⟨zeros, split⟩ :
      ∃ zeros, (number value b c).reverse = List.replicate zeros 0x30 ++ (ownDigits value b c).reverse :=
    ⟨_, by rw [number, List.reverse_append, List.reverse_replicate]⟩
  have bare : ungroup (number value b c).reverse =
      List.replicate zeros 0x30 ++ ((Nat.digits b.base value.toNat).map (digitChar b)).reverse := by
    rw [split, ungroup_append, ungroup_zeros, ungroup_reverse, ungroup_ownDigits]
  constructor
  case chars =>
    intro d inside
    rw [bare, List.mem_append, List.mem_reverse, List.mem_map] at inside
    rcases inside with zero | ⟨own, digit, rfl⟩
    · rw [List.eq_of_mem_replicate zero]
      exact List.mem_of_mem_head? b.zero
    · exact digitChar_mem (digits_small own digit)
  case reads =>
    rw [bare, valueIn_append_zero, valueIn_digits digits_small, Nat.ofDigits_digits]
  case empty =>
    intro none_at_all
    rw [none_at_all, List.length_nil] at size
    have no_own : ownDigits value b c = [] := List.eq_nil_of_length_eq_zero (by omega)
    have no_zero : precisionZeros c (ownDigits value b c).length = 0 := by omega
    refine ⟨eq_zero_of_ownDigits no_own, ?_, ?_⟩
    · rw [no_own, precisionZeros, List.length_nil] at no_zero
      split at no_zero <;> omega
    · intro octal
      rw [octalZero, if_pos ⟨octal.1, octal.2, no_zero⟩] at size
      omega
  case enough =>
    rw [size, precisionZeros]
    split <;> omega
  case groups =>
    refine ⟨zeros, (ownDigits value b c).reverse, split, ?_, ?_⟩
    · rw [ungroup_reverse, ungroup_ownDigits, List.length_reverse, List.length_map]
    · rw [List.reverse_reverse]
      exact fun i d => comma_iff digits_small

end Number

section Output
variable {value : UInt64} {isSigned negative : Bool} {b : IntegerBase} {c : PrintfConversion}

/-- The `x` that is put out, 0 if none. -/
def xOf (value : UInt64) (b : IntegerBase) (flags : Flags) : UInt8 := if flags.pound ∧ value ≠ 0 then b.x else 0

theorem prefix_eq :
    (if xOf value b c.flags ≠ 0 then [0x30, xOf value b c.flags] else []) = prefixOf value b c.flags := by
  rw [prefixOf, xOf]
  by_cases asked : c.flags.pound ∧ value ≠ 0
  · rw [if_pos asked]
    by_cases hex : b.base = 16
    · rw [if_pos (b.hex.mpr hex), if_pos ⟨asked.1, asked.2, hex⟩]
    · rw [if_neg fun some_x => hex (b.hex.mp some_x), if_neg fun all => hex all.2.2]
  · rw [if_neg asked, if_neg (fun nonzero => nonzero rfl), if_neg fun all => asked ⟨all.1, all.2.1⟩]

theorem optional_length {ch : UInt8} : ((optional ch).length : Int) = if ch ≠ 0 then 1 else 0 := by
  rw [optional]
  split <;> rfl

theorem prefix_length : ((prefixOf value b c.flags).length : Int) = if xOf value b c.flags ≠ 0 then 2 else 0 := by
  rw [← prefix_eq]
  split <;> rfl

/-- A front and digits with padding in three places. -/
def padded (flags : Flags) (pad : Nat) (front digits : List UInt8) : List UInt8 :=
  (if ¬ flags.minus ∧ ¬ flags.zero then List.replicate pad 0x20 else []) ++ front ++
    (if flags.zero then List.replicate pad 0x30 else []) ++ digits ++
    (if flags.minus then List.replicate pad 0x20 else [])

theorem padded_once {flags : Flags} {pad : Nat} {front digits : List UInt8}
    (once : flags.minus → flags.zero → pad = 0) :
    padded flags pad front digits =
      if flags.minus then front ++ digits ++ List.replicate pad 0x20
      else if flags.zero then front ++ List.replicate pad 0x30 ++ digits
      else List.replicate pad 0x20 ++ front ++ digits := by
  rw [padded]
  cases minus : flags.minus with
  | false => cases flags.zero <;> simp
  | true =>
      cases zero : flags.zero with
      | false => simp
      | true =>
          rw [once minus zero]
          simp

theorem padded_length {flags : Flags} {pad : Nat} {front digits : List UInt8} :
    (padded flags pad front digits).length =
      (front ++ digits).length + (if flags.minus ∧ flags.zero then 2 * pad else pad) := by
  rw [padded]
  cases flags.minus <;> cases flags.zero <;> simp <;> omega

theorem padded_twice {flags : Flags} {pad : Nat} {front digits : List UInt8} (minus : flags.minus)
    (zero : flags.zero) : padded flags pad front digits =
      front ++ (List.replicate pad 0x30 ++ digits ++ List.replicate pad 0x20) := by
  rw [padded, if_neg fun none_set => none_set.1 minus, if_pos zero, if_pos minus, List.nil_append, List.append_assoc,
    List.append_assoc, List.append_assoc]

/-- The rest of a width behind a body, as an `int`. -/
def padding (width : Int) (body : Nat) : Nat := (toInt32 (width - body)).toNat

theorem padding_of_range {width : Int} {body : Nat} (short : body ≤ 2 ^ 31) (nonneg : 0 ≤ width)
    (int : width ≤ intMax) : padding width body = width.toNat - body := by
  rw [padding, toInt32_of_range (by omega) (by omega)]
  omega

/-- The width that stays negative fills a number up to 2^31 characters. -/
example : padding (-2 ^ 31) 1 + 1 = 2 ^ 31 := by decide

theorem numberLength_le : numberLength value b c ≤ 64 := by
  have short : (ownDigits value b c).length ≤ 44 := ownDigits_length_le
  rw [← number_length, number, List.length_append, List.length_replicate, precisionZeros, octalZero]
  split_ifs <;> omega

theorem bodyLength_le : bodyLength value isSigned negative b c ≤ 67 := by
  have digits : numberLength value b c ≤ 64 := numberLength_le
  have sign : (optional (signOf isSigned negative c.flags)).length ≤ 1 := by
    rw [optional]
    split
    · exact Nat.le_refl 1
    · exact Nat.zero_le 1
  have x : (prefixOf value b c.flags).length ≤ 2 := by
    rw [prefixOf]
    split
    · exact Nat.le_refl 2
    · exact Nat.zero_le 2
  rw [bodyLength, List.length_append]
  omega

theorem formatInteger_eq : formatInteger value isSigned negative b c = .ok
    (padded c.flags (padding c.width (bodyLength value isSigned negative b c))
      (optional (signOf isSigned negative c.flags) ++ prefixOf value b c.flags) (number value b c).reverse) := by
  have rest : c.width - (number value b c).length - (if xOf value b c.flags ≠ 0 then 2 else 0) -
      (if signOf isSigned negative c.flags ≠ 0 then 1 else 0) =
      c.width - (bodyLength value isSigned negative b c : Int) := by
    rw [← prefix_length, ← optional_length, number_length, bodyLength, List.length_append]
    omega
  have none_negative (n : Int) : (if n < 0 then 0 else n).toNat = n.toNat := by omega
  rw [formatInteger, ← xOf]
  dsimp only
  rw [putNumber_eq, ok_bind, outputDup, outputDup, rest, none_negative, prefix_eq, padded, padding]
  simp only [List.append_assoc]
  rfl

/-- It puts out what it ought to, unless both `-` and `0` are set and there is something to pad. -/
theorem formatInteger_formats_iff (nonneg : 0 ≤ c.width) (int : c.width ≤ intMax) :
    (∃ out, formatInteger value isSigned negative b c = .ok out ∧ Formats value isSigned negative b c out) ↔
      ¬ (c.flags.minus ∧ c.flags.zero ∧ (bodyLength value isSigned negative b c : Int) < c.width) := by
  have body : (optional (signOf isSigned negative c.flags) ++ prefixOf value b c.flags ++
      (number value b c).reverse).length = bodyLength value isSigned negative b c := by
    rw [List.length_append, List.length_reverse, number_length, bodyLength]
  have short : bodyLength value isSigned negative b c ≤ 67 := bodyLength_le
  rw [formatInteger_eq, padding_of_range (by omega) nonneg int]
  constructor
  case mp =>
    rintro ⟨out, ran, digits, right, size, shape⟩ ⟨minus, zero, narrow⟩
    obtain rfl := Except.ok.inj ran
    rw [padded_length, body, if_pos ⟨minus, zero⟩] at size
    have none_left : c.width.toNat -
        (optional (signOf isSigned negative c.flags) ++ prefixOf value b c.flags ++ digits).length = 0 := by
      omega
    rw [if_pos minus, none_left, List.replicate_zero, List.append_nil, padded_twice minus zero] at shape
    -- the digits would have to end with the padding
    have space : 0x20 ∈ digits := by
      have some_left : c.width.toNat - bodyLength value isSigned negative b c ≠ 0 := by omega
      rw [← List.append_cancel_left shape]
      exact List.mem_append_right _ (List.mem_replicate.mpr ⟨some_left, rfl⟩)
    exact b.no_space (right.chars _ (List.mem_filter.mpr ⟨space, by decide⟩))
  case mpr =>
    intro once
    have no_pad (minus : c.flags.minus) (zero : c.flags.zero) :
        c.width.toNat - bodyLength value isSigned negative b c = 0 := by
      have wide : ¬ (bodyLength value isSigned negative b c : Int) < c.width := fun narrow =>
        once ⟨minus, zero, narrow⟩
      omega
    refine ⟨_, rfl, (number value b c).reverse, digits_number, ?_, ?_⟩
    · rw [padded_length, body]
      split
      case isTrue both =>
        have none_left := no_pad both.1 both.2
        omega
      case isFalse => omega
    · rw [body]
      exact padded_once no_pad

/-- `%'014d` of -1234567, "-00001,234,567". -/
theorem formatInteger_formats_zeros :
    Formats 1234567 true true baseD ⟨⟨false, false, false, false, true, true⟩, 14, -1, .int⟩
      [0x2d, 0x30, 0x30, 0x30, 0x30, 0x31, 0x2c, 0x32, 0x33, 0x34, 0x2c, 0x35, 0x36, 0x37] := by
  obtain ⟨out, ran, formats⟩ :=
    (@formatInteger_formats_iff 1234567 true true baseD ⟨⟨false, false, false, false, true, true⟩, 14, -1, .int⟩
      (by decide) (by decide)).mpr fun both => Bool.false_ne_true both.1
  cases ran
  exact formats

theorem parseConversion_negative_star : parseConversion [0x30, 0x2a, 0x64, 0] [⟨.word, 4294967291⟩, ⟨.word, 42⟩] =
    .ok (⟨⟨true, false, false, false, true, false⟩, 5, -1, .int⟩, [0x64, 0], [⟨.word, 42⟩]) := by
  have five : toInt32 (4294967291 : UInt32).toNat = -5 := by decide
  have flags : parseFlags ⟨false, false, false, false, false, false⟩ [0x30, 0x2a, 0x64, 0] =
      .ok (⟨false, false, false, false, true, false⟩, [0x2a, 0x64, 0]) := rfl
  have star : parseNumber [0x2a, 0x64, 0] [⟨.word, 4294967291⟩, ⟨.word, 42⟩] =
      .ok (toInt32 (4294967291 : UInt32).toNat, [0x64, 0], [⟨.word, 42⟩]) := rfl
  rw [parseConversion, flags, ok_bind]
  dsimp only
  rw [if_neg (by decide), if_neg (by decide), star, five]
  rfl

/-- `%0*d` of -5 and 42: a negative width sets `-` after `0` has been looked at. -/
theorem formatInteger_not_formats : ∃ c format args,
    parseConversion [0x30, 0x2a, 0x64, 0] [⟨.word, 4294967291⟩, ⟨.word, 42⟩] = .ok (c, format, args) ∧ 0 ≤ c.width ∧
      formatInteger 42 true false baseD c = .ok [0x30, 0x30, 0x30, 0x34, 0x32, 0x20, 0x20, 0x20] ∧
      ¬ Formats 42 true false baseD c [0x30, 0x30, 0x30, 0x34, 0x32, 0x20, 0x20, 0x20] := by
  refine ⟨_, _, _, parseConversion_negative_star, by decide, rfl, ?_⟩
  rintro ⟨digits, right, size, shape⟩
  have long : 8 = max 5 digits.length := size
  have none_left : 5 - digits.length = 0 := by omega
  have same : [0x30, 0x30, 0x30, 0x34, 0x32, 0x20, 0x20, 0x20] =
      digits ++ List.replicate (5 - digits.length) 0x20 := shape
  rw [none_left, List.replicate_zero, List.append_nil] at same
  have inside := right.chars 0x20
  rw [← same] at inside
  exact baseD.no_space (inside (by decide))

end Output
end CS162.Pintos.Stdio
