import CS162.Pintos.UstarBlock

/-!
Parsing a header is safe, whatever the bytes of the block are. Every read of
`ustar_parse_header` lies inside the block, its loops end, and it computes what the parser of
lists does; the octal fields of an accepted header do not wrap around, and the name that is
returned ends inside its field and does not lead out of a directory.
-/

namespace CS162.Pintos.Ustar
open CS162.Library

section Bytes
variable {h : Library.Memory} {ofs p : Nat} {text : List UInt8}

theorem byteAt_of_lt (inside : ofs < ustarHeaderSize) : byteAt h ofs = some (h ofs) :=
  if_pos inside

theorem memcmpAt_eq (inside : p + text.length ≤ ustarHeaderSize) :
    memcmpAt h p text = some (decide (h.readBytes p text.length = text)) := by
  induction text generalizing p with
  | nil => rfl
  | cons b text ih =>
      rw [List.length_cons] at inside
      simp only [memcmpAt, byteAt_of_lt (h := h) (show p < ustarHeaderSize by omega),
        Option.bind_eq_bind, Option.bind_some, List.length_cons, Memory.readBytes, List.cons.injEq]
      split
      next differ => simp [differ]
      next same =>
        rw [ih (by omega)]
        simp [not_not.mp same]

theorem allZerosFrom_eq {block cnt : Nat} (inside : block + cnt ≤ ustarHeaderSize) :
    allZerosFrom h block cnt = some ((List.range' block cnt).all fun i => h i = 0) := by
  induction cnt generalizing block with
  | zero => rfl
  | succ cnt ih =>
      simp only [allZerosFrom, byteAt_of_lt (h := h) (show block < ustarHeaderSize by omega),
        Option.bind_eq_bind, Option.bind_some, List.range'_succ, List.all_cons]
      split
      next other => simp [other]
      next zero =>
        rw [ih (by omega)]
        simp [not_not.mp zero]

theorem chksumFrom_eq {left i : Nat} {sum : UInt32} (inside : i + left ≤ ustarHeaderSize) :
    chksumFrom h left i sum =
      some (sum + UInt32.ofNat (((List.range' i left).map (chksumByte h)).sum)) := by
  induction left generalizing i sum with
  | zero => simp [chksumFrom]
  | succ left ih =>
      simp only [chksumFrom, List.range'_succ, List.map_cons, List.sum_cons, UInt32.ofNat_add,
        ← UInt32.add_assoc]
      split
      next spaces =>
        rw [ih (by omega), chksumByte, if_pos spaces]
        rfl
      next other =>
        simp only [byteAt_of_lt (h := h) (show i < ustarHeaderSize by omega), Option.bind_eq_bind,
          Option.bind_some]
        rw [ih (by omega), chksumByte, if_neg other]
        congr 3
        simp

theorem chksumOfBlock_eq (h : Library.Memory) :
    chksumOfBlock h = some (UInt32.ofNat (calculateChksum h)) := by
  rw [chksumOfBlock, chksumFrom_eq (Nat.le_refl _), UInt32.zero_add, calculateChksum,
    List.range_eq_range']

end Bytes

section Octal
variable {h : Library.Memory} {c : UInt8} {value : UInt32}

theorem overflow_iff : value > ulongMax / 8 ↔ value.toNat > (2 ^ 32 - 1) / 8 := Iff.rfl

theorem toNat_next (digit : 48 ≤ c ∧ c ≤ 55) (small : value.toNat ≤ (2 ^ 32 - 1) / 8) :
    (c.toUInt32 - 48 + value * 8).toNat = c.toNat - 48 + value.toNat * 8 := by
  have low : 48 ≤ c.toNat := UInt8.le_iff_toNat_le.mp digit.1
  have high : c.toNat ≤ 55 := UInt8.le_iff_toNat_le.mp digit.2
  have sub : (c.toUInt32 - 48).toNat = c.toNat - 48 := by
    apply UInt32.toNat_sub_of_le
    apply UInt32.le_iff_toNat_le.mpr
    rw [UInt8.toNat_toUInt32]
    exact low
  have mul : (value * 8).toNat = value.toNat * 8 := by
    rw [UInt32.toNat_mul, show (8 : UInt32).toNat = 8 from rfl]
    apply Nat.mod_eq_of_lt
    omega
  rw [UInt32.toNat_add, sub, mul]
  apply Nat.mod_eq_of_lt
  omega

theorem octalFrom_eq {s left ofs : Nat}
    (inside : s + ofs + left ≤ ustarHeaderSize) :
    octalFrom h s left ofs value =
      some ((parseOctalFrom ofs value.toNat (h.readBytes (s + ofs) left)).map UInt32.ofNat) := by
  induction left generalizing ofs value with
  | zero => rfl
  | succ left ih =>
      simp only [octalFrom, byteAt_of_lt (h := h) (show s + ofs < ustarHeaderSize by omega),
        Option.bind_eq_bind, Option.bind_some, Memory.readBytes, parseOctalFrom]
      split
      next digit =>
        simp only [overflow_iff]
        split
        next => rfl
        next small => rw [ih (by omega), toNat_next digit (Nat.not_lt.mp small), Nat.add_assoc]
      next =>
        split
        next =>
          split
          next => simp
          next => rfl
        next => rfl

/-- What a field of octal digits stands for. -/
def IsOctal (field : List UInt8) (v : Nat) : Prop :=
  ∃ digits stop rest, field = digits ++ stop :: rest ∧ (stop = 32 ∨ stop = 0) ∧ digits ≠ [] ∧
    (∀ c ∈ digits, 48 ≤ c ∧ c ≤ 55) ∧ v = digits.foldl (readDigit 8) 0

theorem parseOctalFrom_sound {field : List UInt8} {ofs v w : Nat} (small : v < 2 ^ 32)
    (parsed : parseOctalFrom ofs v field = some w) :
    w < 2 ^ 32 ∧ ∃ digits stop rest, field = digits ++ stop :: rest ∧ (stop = 32 ∨ stop = 0) ∧
      0 < ofs + digits.length ∧ (∀ c ∈ digits, 48 ≤ c ∧ c ≤ 55) ∧
      w = digits.foldl (readDigit 8) v := by
  induction field generalizing ofs v with
  | nil => cases parsed
  | cons c field ih =>
      rw [parseOctalFrom] at parsed
      split at parsed
      next digit =>
        split at parsed
        next => cases parsed
        next bound =>
          have high : c.toNat ≤ 55 := UInt8.le_iff_toNat_le.mp digit.2
          obtain ⟨fits, digits, stop, rest, eq, ends, _, octal, value⟩ := ih (by omega) parsed
          refine ⟨fits, c :: digits, stop, rest, ?_, ends, ?_, ?_, value⟩
          · rw [eq, List.cons_append]
          · rw [List.length_cons]
            omega
          · intro d mem
            cases List.mem_cons.mp mem with
            | inl here => exact here ▸ digit
            | inr there => exact octal d there
      next =>
        split at parsed
        next ends =>
          split at parsed
          next some_digit =>
            cases parsed
            exact ⟨small, [], c, field, rfl, ends, some_digit, fun _ mem => absurd mem List.not_mem_nil, rfl⟩
          next => cases parsed
        next => cases parsed

theorem parseOctalField_sound {field : List UInt8} {v : Nat}
    (parsed : parseOctalField field = some v) : v < 2 ^ 32 ∧ IsOctal field v := by
  obtain ⟨fits, digits, stop, rest, eq, ends, some_digit, octal, value⟩ :=
    parseOctalFrom_sound (by decide) parsed
  refine ⟨fits, digits, stop, rest, eq, ends, ?_, octal, value⟩
  apply List.ne_nil_of_length_pos
  rw [Nat.zero_add] at some_digit
  exact some_digit

theorem octalAt_eq (h : Library.Memory) (f : Field) (inside : f.ofs + f.width ≤ ustarHeaderSize) :
    octalAt h f = some ((parseOctalField (h.field f)).map UInt32.ofNat) :=
  octalFrom_eq inside

end Octal

section Names
variable {h : Library.Memory} {p q : Nat} {s text : List UInt8} {a : UInt8}

/-- The bytes of a string lie at an offset, and its zero behind them. -/
def StringAt (h : Library.Memory) (p : Nat) : List UInt8 → Prop
  | [] => h p = 0
  | a :: s => h p = a ∧ a ≠ 0 ∧ StringAt h (p + 1) s

theorem StringAt.next (str : StringAt h p (a :: s)) : StringAt h (p + 1) s := str.2.2

/-- A comparison with a text without a zero stops at the end of the string. -/
theorem memcmpAt_string (str : StringAt h p s) (inside : p + s.length < ustarHeaderSize)
    (text_ne : (0 : UInt8) ∉ text) : memcmpAt h p text = some (text.isPrefixOf s) := by
  induction text generalizing p s with
  | nil => rfl
  | cons b text ih =>
      have other : b ≠ 0 := fun eq => text_ne (eq ▸ List.mem_cons_self)
      simp only [memcmpAt, byteAt_of_lt (h := h) (show p < ustarHeaderSize by omega),
        Option.bind_eq_bind, Option.bind_some]
      cases s with
      | nil =>
          have zero : h p = 0 := str
          rw [if_pos (by rw [zero]; exact other.symm)]
          rfl
      | cons a s =>
          rw [str.1, List.isPrefixOf_cons_cons]
          rw [List.length_cons] at inside
          split
          next differ => simp [Ne.symm differ]
          next same =>
            rw [ih str.next (by omega) fun mem => text_ne (List.mem_cons_of_mem _ mem)]
            simp [not_not.mp same]

theorem strcmpAt_string (text : List UInt8) (str : StringAt h p s) (inside : p + s.length < ustarHeaderSize)
    (text_ne : (0 : UInt8) ∉ text) : strcmpAt h p (text ++ [0]) = some (decide (s = text)) := by
  induction text generalizing p s with
  | nil =>
      simp only [List.nil_append, strcmpAt, Option.bind_eq_bind, Option.bind_some,
        byteAt_of_lt (h := h) (show p < ustarHeaderSize by omega)]
      rw [if_neg (fun both => both.1 both.2)]
      cases s with
      | nil =>
          have zero : h p = 0 := str
          simp [zero]
      | cons a s => simp [str.1, str.2.1]
  | cons b text ih =>
      have other : b ≠ 0 := fun eq => text_ne (eq ▸ List.mem_cons_self)
      simp only [List.cons_append, strcmpAt, Option.bind_eq_bind, Option.bind_some,
        byteAt_of_lt (h := h) (show p < ustarHeaderSize by omega)]
      cases s with
      | nil =>
          have zero : h p = 0 := str
          simp [zero, other.symm]
      | cons a s =>
          rw [str.1]
          rw [List.length_cons] at inside
          split
          next same =>
            rw [ih str.next (by omega) fun mem => text_ne (List.mem_cons_of_mem _ mem)]
            simp [same.2]
          next differ =>
            have ne : a ≠ b := fun eq => differ ⟨str.2.1, eq⟩
            simp [ne]

theorem strchrFrom_slash (rounds : Nat) (str : StringAt h p s)
    (inside : p + s.length < ustarHeaderSize) (mem : slash ∈ s) (enough : s.length ≤ rounds) :
    ∃ q, strchrFrom h slash rounds p = some (some q) ∧
      StringAt h (q + 1) (s.dropWhile (· ≠ slash)).tail ∧
      q + 1 + (s.dropWhile (· ≠ slash)).tail.length = p + s.length := by
  induction s generalizing p rounds with
  | nil => cases mem
  | cons a s ih =>
      rw [List.length_cons] at inside enough
      obtain ⟨rounds, rfl⟩ : ∃ n, rounds = n + 1 := ⟨rounds - 1, by omega⟩
      simp only [strchrFrom, byteAt_of_lt (h := h) (show p < ustarHeaderSize by omega),
        Option.bind_eq_bind, Option.bind_some, str.1]
      split
      next eq =>
        refine ⟨p, rfl, ?_, ?_⟩
        · simpa [eq] using str.next
        · simp [eq]
          omega
      next ne =>
        have rest : slash ∈ s := (List.mem_cons.mp mem).resolve_left (Ne.symm ne)
        obtain ⟨q, found, next, last⟩ := ih rounds str.next (by omega) rest
          (Nat.le_of_succ_le_succ enough)
        rw [if_neg str.2.1, List.dropWhile_cons_of_pos (by simp [ne])]
        refine ⟨q, found, next, ?_⟩
        rw [last, List.length_cons]
        omega

theorem antisocialAt_string (str : StringAt h p s) (inside : p + s.length < ustarHeaderSize) :
    antisocialAt h p = some (antisocial s) := by
  have first : byteAt h p = some (h p) := byteAt_of_lt (by omega)
  have start : [slash].isPrefixOf s = decide (h p = slash) := by
    cases s with
    | nil =>
        have zero : h p = 0 := str
        rw [zero]
        rfl
    | cons a s =>
        rw [str.1, List.isPrefixOf_cons_cons, List.isPrefixOf_nil_left, Bool.and_true]
        exact decide_eq_decide.mpr eq_comm
  simp only [antisocialAt, first, Option.bind_eq_bind, Option.bind_some,
    memcmpAt_string str inside (show (0 : UInt8) ∉ [dot, slash] by decide),
    memcmpAt_string str inside (show (0 : UInt8) ∉ [dot, dot, slash] by decide), antisocial, start]
  split
  next eq => simp [eq]
  next ne =>
    split
    next here => simp [here]
    next away => simp [ne, away]

theorem slash_mem (bad : antisocial s = true) : slash ∈ s := by
  simp only [antisocial, Bool.or_eq_true, List.isPrefixOf_iff_prefix] at bad
  cases bad with
  | inl short =>
      cases short with
      | inl here => exact here.subset (by decide)
      | inr here => exact here.subset (by decide)
  | inr parent => exact parent.subset (by decide)

theorem stripFrom_string (rounds : Nat) {n : Nat} (str : StringAt h p s)
    (inside : p + s.length < ustarHeaderSize) (enough : s.length < rounds) (long : s.length ≤ n) :
    ∃ q, stripFrom h rounds p = some q ∧ StringAt h q (dropPrefixes n s) ∧
      q + (dropPrefixes n s).length = p + s.length := by
  induction rounds generalizing p s n with
  | zero => exact absurd enough (Nat.not_lt_zero _)
  | succ rounds ih =>
      simp only [stripFrom, antisocialAt_string str inside, Option.bind_eq_bind, Option.bind_some]
      split
      next bad =>
        have shorter := length_tail_lt bad
        obtain ⟨n, rfl⟩ : ∃ k, n = k + 1 := ⟨n - 1, by omega⟩
        obtain ⟨q, found, next, last⟩ := strchrFrom_slash ustarHeaderSize str inside
          (slash_mem bad) (by omega)
        obtain ⟨r, stripped, rest, last'⟩ := ih next (by omega) (by omega) (n := n) (by omega)
        rw [dropPrefixes, if_pos bad]
        refine ⟨r, ?_, rest, last'.trans last⟩
        rw [strchrAt, found]
        exact stripped
      next good =>
        rw [dropPrefixes_eq (Bool.eq_false_of_not_eq_true good)]
        exact ⟨p, rfl, str, rfl⟩

/-- What a pointer of the program points to: the literal ".", or a string in front of the
zero at an offset. -/
def Names (h : Library.Memory) (last : Nat) : Pointer → List UInt8 → Prop
  | .literal, s => s = [dot]
  | .header ofs, s => StringAt h ofs s ∧ ofs + s.length = last

theorem stripAt_string (str : StringAt h p s) (inside : p + s.length < ustarHeaderSize) :
    ∃ fileName, stripAt h p = some fileName ∧
      Names h (p + s.length) fileName (stripAntisocialPrefixes s) := by
  obtain ⟨q, stripped, rest, last⟩ := stripFrom_string ustarHeaderSize str inside
    (by omega) (Nat.le_refl s.length)
  have room : q + (dropPrefixes s.length s).length < ustarHeaderSize := last ▸ inside
  have empty : h q = 0 ↔ dropPrefixes s.length s = [] := by
    generalize dropPrefixes s.length s = s' at rest
    cases s' with
    | nil => exact iff_of_true rest rfl
    | cons a s' => simp [rest.1, rest.2.1]
  have first : byteAt h q = some (h q) := byteAt_of_lt (by omega)
  have parent : strcmpAt h q [dot, dot, 0] = some (decide (dropPrefixes s.length s = [dot, dot])) :=
    strcmpAt_string [dot, dot] rest room (by decide)
  simp only [stripAt, stripped, first, parent, Option.bind_eq_bind, Option.bind_some, empty,
    stripAntisocialPrefixes]
  split
  next nothing => exact ⟨.literal, rfl, if_pos (.inl nothing)⟩
  next some_text =>
    split
    next up => exact ⟨.literal, rfl, if_pos (.inr (of_decide_eq_true up))⟩
    next plain =>
      have kept : ¬ (dropPrefixes s.length s = [] ∨ dropPrefixes s.length s = [dot, dot]) := by
        simp at plain
        simp [some_text, plain]
      rw [if_neg kept]
      exact ⟨.header q, rfl, rest, last⟩

end Names

section Header
variable {h : Library.Memory}

theorem stringAt_cString {p n : Nat} (zero : h (p + n) = 0) :
    StringAt h p (cString (h.readBytes p (n + 1))) ∧ (cString (h.readBytes p (n + 1))).length ≤ n := by
  induction n generalizing p with
  | zero =>
      have first : h p = 0 := zero
      simp [cString, Memory.readBytes, first, StringAt]
  | succ n ih =>
      rw [Memory.readBytes, cString]
      by_cases first : h p = 0
      · simp [first, StringAt]
      · obtain ⟨str, short⟩ := ih (p := p + 1) (by rw [Nat.add_right_comm]; exact zero)
        rw [List.takeWhile_cons_of_pos (by simp [first])]
        exact ⟨⟨rfl, first, str⟩, Nat.succ_le_succ short⟩

theorem versionAt_eq (h : Library.Memory) :
    versionAt h = some (decide (h.field version = [48, 48])) := by
  have bytes : h.field version = [h version.ofs, h (version.ofs + 1)] := rfl
  simp only [versionAt, byteAt_of_lt (h := h) (show version.ofs < ustarHeaderSize by decide),
    byteAt_of_lt (h := h) (show version.ofs + 1 < ustarHeaderSize by decide), bytes,
    Option.bind_eq_bind, Option.bind_some]
  split
  next differ => simp [differ]
  next same => simp [not_not.mp same]

theorem nameEndsAt_eq (h : Library.Memory) :
    nameEndsAt h = some (decide (h (name.ofs + name.width - 1) = 0 ∧ h prefixField.ofs = 0)) := by
  simp only [nameEndsAt, Option.bind_eq_bind, Option.bind_some,
    byteAt_of_lt (h := h) (show name.ofs + name.width - 1 < ustarHeaderSize by decide),
    byteAt_of_lt (h := h) (show prefixField.ofs < ustarHeaderSize by decide)]
  split
  next differ => simp [differ]
  next same => simp [not_not.mp same]

theorem toNat_ofNat {v : Nat} (fits : v < 2 ^ 32) : (UInt32.ofNat v).toNat = v :=
  UInt32.toNat_ofNat_of_lt' fits

theorem ofNat_eq_iff {v w : Nat} (v_fits : v < 2 ^ 32) (w_fits : w < 2 ^ 32) :
    UInt32.ofNat v = UInt32.ofNat w ↔ v = w := by
  rw [← UInt32.toNat_inj, toNat_ofNat v_fits, toNat_ofNat w_fits]

theorem sizeAt_eq (h : Library.Memory) (type : UstarType) :
    sizeAt h type = some ((parseSize h type).map UInt32.ofNat) := by
  rw [sizeAt, parseSize]
  split
  next =>
    rw [octalAt_eq h size (by decide)]
    cases parsed : parseOctalField (h.field size) with
    | none => rfl
    | some bytes =>
        have fits := (parseOctalField_sound parsed).1
        have large : UInt32.ofNat bytes > intMax ↔ bytes > 2 ^ 31 - 1 := by
          rw [gt_iff_lt, UInt32.lt_iff_toNat_lt, toNat_ofNat fits]
          rfl
        simp only [Option.map_some, Option.bind_eq_bind, Option.bind_some, large]
        split
        next => rfl
        next => rfl
  next => rfl

theorem parseSize_sound {type : UstarType} {bytes : Nat} (parsed : parseSize h type = .ok bytes) :
    bytes ≤ 2 ^ 31 - 1 ∧ (type = .regular → IsOctal (h.field size) bytes) ∧
      (type ≠ .regular → bytes = 0) := by
  rw [parseSize] at parsed
  split at parsed
  next regular =>
    split at parsed
    next => cases parsed
    next value octal =>
      split at parsed
      next => cases parsed
      next small =>
        cases parsed
        exact ⟨Nat.not_lt.mp small, fun _ => (parseOctalField_sound octal).2,
          fun other => absurd regular other⟩
  next other =>
    cases parsed
    exact ⟨Nat.zero_le _, fun regular => absurd regular other, fun _ => rfl⟩

theorem toInt_toInt32 {v : Nat} (small : v ≤ 2 ^ 31 - 1) :
    (UInt32.ofNat v).toInt32.toInt = v := by
  have value : (UInt32.ofNat v).toBitVec.toNat = v := toNat_ofNat (by omega)
  have positive : (UInt32.ofNat v).toBitVec.toInt = (UInt32.ofNat v).toBitVec.toNat :=
    BitVec.toInt_eq_toNat_of_lt (by omega)
  exact positive.trans (congrArg Int.ofNat value)

/-- The values of the machine are those of the parser of lists. -/
structure BlockEntry.Means (h : Library.Memory) (b : BlockEntry) (e : Entry) : Prop where
  type : b.type = e.type
  size : b.size.toInt = e.size
  fileName : Option.Rel (Names h (cString (h.field name)).length) b.fileName e.fileName

/-- The two parsers report the same error, or accept the same header. -/
inductive Agree (h : Library.Memory) : Except String BlockEntry → Except String Entry → Prop where
  | error (message : String) : Agree h (.error message) (.error message)
  | ok {b : BlockEntry} {e : Entry} (means : b.Means h e) : Agree h (.ok b) (.ok e)

theorem stripAt_name (last : h (name.ofs + name.width - 1) = 0) :
    (cString (h.field name)).length < name.width ∧
      ∃ p, stripAt h name.ofs = some p ∧ Names h (cString (h.field name)).length p
        (stripAntisocialPrefixes (cString (h.field name))) := by
  obtain ⟨str, short⟩ := stringAt_cString (h := h) (p := name.ofs) (n := name.width - 1) last
  have room : (cString (h.field name)).length < name.width := Nat.lt_of_le_pred (by decide) short
  obtain ⟨p, stripped, means⟩ := stripAt_string str
    (Nat.lt_of_le_of_lt (Nat.add_le_add_left short _) (by decide))
  refine ⟨room, p, stripped, ?_⟩
  rw [show name.ofs = 0 from rfl, Nat.zero_add] at means
  exact means

theorem ustarParseBlock_refines (h : Library.Memory) :
    ∃ r, ustarParseBlock h = some r ∧ Agree h r (ustarParseHeader h) := by
  have zeros : allZerosFrom h 0 ustarHeaderSize = some (isAllZeros h ustarHeaderSize) := by
    rw [allZerosFrom_eq (by decide), isAllZeros, List.range_eq_range']
  have tag : memcmpAt h magic.ofs (ustar ++ [0]) = some (decide (h.field magic = ustar ++ [0])) :=
    memcmpAt_eq (by decide)
  have flag : byteAt h typeflag.ofs = some (h typeflag.ofs) := byteAt_of_lt (by decide)
  simp only [ustarParseBlock, ustarParseHeader, zeros, tag, versionAt_eq, chksumOfBlock_eq,
    nameEndsAt_eq, octalAt_eq h chksum (by decide), sizeAt_eq, flag, Option.bind_eq_bind,
    Option.bind_some]
  split
  next => exact ⟨_, rfl, .ok ⟨rfl, rfl, .none⟩⟩
  next =>
    simp only [Bool.not_eq_true', decide_eq_false_iff_not, not_and_or, ne_eq, ite_not]
    split
    next =>
      split
      next =>
        cases octal : parseOctalField (h.field chksum) with
        | none => exact ⟨_, rfl, .error _⟩
        | some sum =>
            simp only [Option.map_some, ofNat_eq_iff (parseOctalField_sound octal).1
              (Nat.lt_trans (calculateChksum_lt h) (by decide))]
            split
            next =>
              split
              next => exact ⟨_, rfl, .error _⟩
              next ends =>
                cases typeOf (h typeflag.ofs) with
                | none => exact ⟨_, rfl, .error _⟩
                | some type =>
                    dsimp only
                    cases length : parseSize h type with
                    | error message => exact ⟨_, rfl, .error _⟩
                    | ok bytes =>
                        have last := not_not.mp (not_or.mp ends).1
                        obtain ⟨_, p, stripped, means⟩ := stripAt_name last
                        simp only [Except.map, stripped, Option.bind_some]
                        exact ⟨_, rfl, .ok ⟨rfl, toInt_toInt32 (parseSize_sound length).1, .some means⟩⟩
            next => exact ⟨_, rfl, .error _⟩
      next => exact ⟨_, rfl, .error _⟩
    next => exact ⟨_, rfl, .error _⟩

end Header

section Safety
variable {h : Library.Memory} {p q : Nat} {s t : List UInt8}

theorem StringAt.unique (str : StringAt h p s) (str' : StringAt h p t) : s = t := by
  induction s generalizing p t with
  | nil =>
      cases t with
      | nil => rfl
      | cons b t => exact absurd (str'.1.symm.trans str) str'.2.1
  | cons a s ih =>
      cases t with
      | nil => exact absurd (str.1.symm.trans str') str.2.1
      | cons b t => rw [← str.1, ← str'.1, ih str.next str'.next]

theorem StringAt.suffix (str : StringAt h q s) (whole : StringAt h p t) (later : p ≤ q)
    (last : q + s.length = p + t.length) : s <:+ t := by
  induction t generalizing p with
  | nil =>
      have empty : s = [] := List.length_eq_zero_iff.mp (by rw [List.length_nil] at last; omega)
      rw [empty]
  | cons a t ih =>
      by_cases same : q = p
      · subst same
        rw [str.unique whole]
      · rw [List.length_cons] at last
        exact (ih whole.next (by omega) (by omega)).trans (List.suffix_cons a t)

theorem StringAt.zero_notMem (str : StringAt h p s) : 0 ∉ s := by
  induction s generalizing p with
  | nil => exact List.not_mem_nil
  | cons a s ih =>
      intro mem
      cases List.mem_cons.mp mem with
      | inl here => exact str.2.1 here.symm
      | inr there => exact ih str.next there

theorem strip_ne (s : List UInt8) :
    stripAntisocialPrefixes s ≠ [] ∧ stripAntisocialPrefixes s ≠ [dot, dot] ∧
      antisocial (stripAntisocialPrefixes s) = false := by
  simp only [stripAntisocialPrefixes]
  split
  next => decide
  next other =>
    exact ⟨(not_or.mp other).1, (not_or.mp other).2, antisocial_dropPrefixes (Nat.le_refl _)⟩

/-- What is known of a header that is accepted as one of a file or a directory. -/
structure Accepted (h : Library.Memory) (e : Entry) : Prop where
  chksum : IsOctal (h.field chksum) (calculateChksum h)
  last : h (name.ofs + name.width - 1) = 0
  type : typeOf (h typeflag.ofs) = some e.type
  size : parseSize h e.type = .ok e.size
  fileName : e.fileName = some (stripAntisocialPrefixes (cString (h.field name)))

theorem ustarParseHeader_sound {e : Entry} (parsed : ustarParseHeader h = .ok e)
    (more : e.type ≠ .eof) : Accepted h e := by
  rw [ustarParseHeader] at parsed
  split at parsed
  next =>
    cases parsed
    exact absurd rfl more
  next =>
    split at parsed
    next => cases parsed
    next =>
      split at parsed
      next => cases parsed
      next =>
        split at parsed
        next => cases parsed
        next sum octal =>
          split at parsed
          next => cases parsed
          next same =>
            split at parsed
            next => cases parsed
            next ends =>
              split at parsed
              next => cases parsed
              next type typed =>
                split at parsed
                next => cases parsed
                next bytes length =>
                  cases parsed
                  have value := (parseOctalField_sound octal).2
                  rw [not_not.mp same] at value
                  exact ⟨value, not_not.mp (not_or.mp ends).1, typed, length, rfl⟩

theorem typeOf_sound {flag : UInt8} {type : UstarType} (typed : typeOf flag = some type) :
    type.byte = flag := by
  rw [typeOf] at typed
  split at typed
  next regular =>
    cases typed
    exact regular.symm
  next =>
    split at typed
    next directory =>
      cases typed
      exact directory.symm
    next => cases typed

/-- A name that a pointer into the header, or to ".", points to: it ends inside its field
and does not lead out of a directory. -/
structure SafeName (h : Library.Memory) (p : Pointer) (s : List UInt8) : Prop where
  points : Names h (cString (h.field name)).length p s
  inside : ∀ ofs, p = .header ofs →
    ofs + s.length < name.width ∧ s <:+ cString (h.field name)
  some_byte : s ≠ []
  no_zero : 0 ∉ s
  relative : ¬ [slash] <+: s
  no_here : ¬ [dot, slash] <+: s
  no_parent : ¬ [dot, dot, slash] <+: s
  not_parent : s ≠ [dot, dot]

/-- What a header that is accepted as one of a file or a directory means. -/
structure Safe (h : Library.Memory) (b : BlockEntry) : Prop where
  fileName : ∃ p s, b.fileName = some p ∧ SafeName h p s
  type : b.type.byte = h typeflag.ofs
  size : b.type = .regular → ∃ v : Nat, b.size.toInt = v ∧ IsOctal (h.field size) v
  bounds : 0 ≤ b.size.toInt ∧ b.size.toInt ≤ 2 ^ 31 - 1
  directory : b.type = .directory → b.size.toInt = 0
  chksum : IsOctal (h.field chksum) (calculateChksum h)

theorem safeName_of_accepted {p : Pointer} (last : h (name.ofs + name.width - 1) = 0)
    (points : Names h (cString (h.field name)).length p
      (stripAntisocialPrefixes (cString (h.field name)))) :
    SafeName h p (stripAntisocialPrefixes (cString (h.field name))) := by
  obtain ⟨str, short⟩ := stringAt_cString (h := h) (p := name.ofs) (n := name.width - 1) last
  obtain ⟨some_byte, not_parent, safe⟩ := strip_ne (cString (h.field name))
  simp only [antisocial, Bool.or_eq_false_iff] at safe
  have no_start {start s : List UInt8} (none : start.isPrefixOf s = false) : ¬ start <+: s := by
    rw [← List.isPrefixOf_iff_prefix, none]
    exact Bool.false_ne_true
  refine ⟨points, ?_, some_byte, zero_notMem_strip str.zero_notMem, no_start safe.1.1,
    no_start safe.1.2, no_start safe.2, not_parent⟩
  intro ofs eq
  rw [eq] at points
  refine ⟨?_, points.1.suffix str (Nat.zero_le _) ?_⟩
  · rw [points.2]
    exact Nat.lt_of_le_pred (by decide) short
  · rw [points.2, show name.ofs = 0 from rfl, Nat.zero_add]

/-- Whatever the 512 bytes are, the parser reads no other byte and returns, and a header
that it accepts is a safe one. -/
theorem ustarParseBlock_safe (h : Library.Memory) :
    ∃ r, ustarParseBlock h = some r ∧ ∀ b, r = .ok b → b.type ≠ .eof → Safe h b := by
  obtain ⟨r, parsed, agree⟩ := ustarParseBlock_refines h
  refine ⟨r, parsed, ?_⟩
  intro b ok more
  rw [ok] at agree
  generalize spec : ustarParseHeader h = r' at agree
  cases agree with
  | @ok _ e means =>
      have accepted := ustarParseHeader_sound spec (means.type ▸ more)
      obtain ⟨small, octal, other⟩ := parseSize_sound accepted.size
      have named := means.fileName
      rw [accepted.fileName] at named
      generalize pointer : b.fileName = p' at named
      cases named with
      | @some p _ points =>
          constructor
          case fileName => exact ⟨p, _, pointer, safeName_of_accepted accepted.last points⟩
          case type => rw [means.type, typeOf_sound accepted.type]
          case size => exact fun regular => ⟨e.size, means.size, octal (means.type ▸ regular)⟩
          case bounds =>
            rw [means.size]
            omega
          case directory =>
            intro directory
            rw [means.type] at directory
            rw [means.size, other (by rw [directory]; decide)]
            rfl
          case chksum => exact accepted.chksum

/-- The header of "../a/b", with the largest size, is accepted. -/
theorem ustarParseBlock_safe_of_parent :
    ∃ h b, ustarMakeHeader [46, 46, 47, 97, 47, 98] .regular (2 ^ 31 - 1) (fun _ => 7) = some h ∧
      ustarParseBlock h = some (.ok b) ∧ b.type ≠ .eof ∧ Safe h b := by
  have short : (stripAntisocialPrefixes [46, 46, 47, 97, 47, 98]).length ≤ 99 := by decide
  obtain ⟨h, made, filled⟩ := ustarMakeHeader_filled .regular short
    (show 2 ^ 31 - 1 < 2 ^ 31 by decide) fun _ => 7
  have spec := ustarParseHeader_of_filled filled (zero_notMem_strip (by decide)) (by decide)
    (by decide)
  obtain ⟨r, parsed, agree⟩ := ustarParseBlock_refines h
  obtain ⟨r', parsed', safe⟩ := ustarParseBlock_safe h
  have same : r' = r := Option.some.inj (parsed'.symm.trans parsed)
  rw [spec] at agree
  cases agree with
  | @ok b _ means =>
      have regular : b.type ≠ .eof := by
        rw [means.type]
        decide
      exact ⟨h, b, made, parsed, regular, safe b same regular⟩

end Safety

end CS162.Pintos.Ustar
