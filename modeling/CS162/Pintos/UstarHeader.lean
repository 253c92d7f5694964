import CS162.Pintos.Ustar
import Mathlib.Algebra.Order.BigOperators.Group.List
import Mathlib.Data.List.TakeWhile

/-!
What `ustar_parse_header` makes of a header of `ustar_make_header`. A stripped name is
stripped again to itself, an octal field is read as the number that was written, and the
checksum counts its own field as spaces, so filling the field in does not change it.
-/

namespace CS162.Pintos.Ustar
open CS162.Library

section Names
variable {fileName : List UInt8} {rounds : Nat}

theorem length_tail_lt (h : antisocial fileName = true) :
    (fileName.dropWhile (· ≠ slash)).tail.length < fileName.length := by
  cases fileName with
  | nil => cases h
  | cons c s =>
      have rest := ((c :: s).dropWhile_sublist (· ≠ slash)).length_le
      simp only [List.length_tail, List.length_cons] at rest ⊢
      omega

theorem antisocial_dropPrefixes (enough : fileName.length ≤ rounds) :
    antisocial (dropPrefixes rounds fileName) = false := by
  induction rounds generalizing fileName with
  | zero =>
      rw [List.length_eq_zero_iff.mp (Nat.le_zero.mp enough)]
      rfl
  | succ rounds ih =>
      rw [dropPrefixes]
      split
      next bad =>
        apply ih
        have shorter := length_tail_lt bad
        omega
      next good => exact Bool.eq_false_of_not_eq_true good

theorem dropPrefixes_eq (good : antisocial fileName = false) :
    dropPrefixes rounds fileName = fileName := by
  cases rounds with
  | zero => rfl
  | succ rounds => simp [dropPrefixes, good]

theorem dropPrefixes_subset (h : (0 : UInt8) ∉ fileName) : 0 ∉ dropPrefixes rounds fileName := by
  induction rounds generalizing fileName with
  | zero => exact h
  | succ rounds ih =>
      rw [dropPrefixes]
      split
      next =>
        apply ih
        intro mem
        exact h ((fileName.dropWhile_sublist _).subset (List.mem_of_mem_tail mem))
      next => exact h

theorem strip_strip (fileName : List UInt8) :
    stripAntisocialPrefixes (stripAntisocialPrefixes fileName) =
      stripAntisocialPrefixes fileName := by
  have good := antisocial_dropPrefixes (Nat.le_refl fileName.length)
  simp only [stripAntisocialPrefixes]
  split
  next => decide
  next other => rw [dropPrefixes_eq good, if_neg other]

theorem zero_notMem_strip (h : (0 : UInt8) ∉ fileName) :
    0 ∉ stripAntisocialPrefixes fileName := by
  simp only [stripAntisocialPrefixes]
  split
  next => decide
  next => exact dropPrefixes_subset h

end Names

section Octal
variable {s rest : List UInt8} {ofs v : Nat}

theorem parseOctalFrom_digits (digits : ∀ c ∈ s, 48 ≤ c.toNat ∧ c.toNat < 56)
    (some_digit : 0 < ofs + s.length) (bound : s.foldl (readDigit 8) v < 2 ^ 32) :
    parseOctalFrom ofs v (s ++ 0 :: rest) = some (s.foldl (readDigit 8) v) := by
  induction s generalizing ofs v with
  | nil =>
      have pos : ofs > 0 := some_digit
      rw [List.nil_append, parseOctalFrom, if_neg (by decide), if_pos (.inr rfl), if_pos pos]
      rfl
  | cons c s ih =>
      have digit := digits c List.mem_cons_self
      have octal : 48 ≤ c ∧ c ≤ 55 :=
        ⟨UInt8.le_iff_toNat_le.mpr digit.1, UInt8.le_iff_toNat_le.mpr (Nat.le_of_lt_succ digit.2)⟩
      have grows := le_foldl_readDigit (b := 8) (by decide) s (readDigit 8 v c)
      have small : ¬ v > (2 ^ 32 - 1) / 8 := by
        rw [List.foldl_cons] at bound
        simp only [readDigit] at grows bound
        omega
      rw [List.cons_append, parseOctalFrom, if_pos octal, if_neg small]
      exact ih (fun c mem => digits c (List.mem_cons_of_mem _ mem)) (by omega) bound

theorem parseOctalField_numeral {width : Nat} (some_digit : 0 < width) (fits : v < 8 ^ width)
    (bound : v < 2 ^ 32) : parseOctalField (numeral 8 width v ++ 0 :: rest) = some v := by
  have value : (numeral 8 width v).foldl (readDigit 8) 0 = v :=
    foldl_readDigit_numeral (by decide) (by decide)
  have whole : parseOctalFrom 0 0 (numeral 8 width v ++ 0 :: rest) =
      some ((numeral 8 width v).foldl (readDigit 8) 0) := parseOctalFrom_digits
    (fun c mem => numeral_digit (by decide) (by decide) mem)
    (by rw [numeral_length (by decide) fits]; omega) (by rw [value]; exact bound)
  rw [parseOctalField, whole, value]

end Octal

section Checksum
variable {h h' : Library.Memory}

theorem calculateChksum_congr (same : Memory.SameOff chksum.ofs chksum.width h h') :
    calculateChksum h' = calculateChksum h := by
  have bytes : chksumByte h' = chksumByte h := by
    funext i
    simp only [chksumByte]
    split
    next => rfl
    next outside => rw [same i (by omega)]
  simp only [calculateChksum, bytes]

theorem calculateChksum_lt (h : Library.Memory) : calculateChksum h < 8 ^ 7 := by
  have byte (i : Nat) : chksumByte h i ≤ 255 := by
    simp only [chksumByte]
    split
    next => decide
    next => exact Nat.le_of_lt_succ (h i).toNat_lt
  have sum : calculateChksum h ≤ ustarHeaderSize * 255 := by
    have := List.sum_le_card_nsmul ((List.range ustarHeaderSize).map (chksumByte h)) 255
      (fun x mem => by
        obtain ⟨i, _, rfl⟩ := List.mem_map.mp mem
        exact byte i)
    simpa [calculateChksum] using this
  exact Nat.lt_of_le_of_lt sum (by decide)

end Checksum

section Header
variable {h : Library.Memory} {fileName : List UInt8} {type : UstarType} {bytes : Nat}

/-- What the checks of `ustar_parse_header` look at. -/
structure Filled (h : Library.Memory) (fileName : List UInt8) (type : UstarType) (bytes : Nat) :
    Prop where
  name : ∃ n, h.field name = fileName ++ List.replicate (n + 1) 0
  size : ∃ rest, h.field size = numeral 8 11 bytes ++ 0 :: rest
  chksum : ∃ rest, h.field chksum = numeral 8 7 (calculateChksum h) ++ 0 :: rest
  typeflag : h.field typeflag = [type.byte]
  magic : h.field magic = ustar ++ [0]
  version : h.field version = [48, 48]
  first : (h.field prefixField).head? = some 0

theorem ustarMakeHeader_filled (type : UstarType) (short : (stripAntisocialPrefixes fileName).length ≤ 99)
    (fits : bytes < 2 ^ 31) (header : Library.Memory) :
    ∃ h, ustarMakeHeader fileName type bytes header = some h ∧
      Filled h (stripAntisocialPrefixes fileName) type bytes := by
  have room : (numeral 8 11 bytes).length = 11 :=
    numeral_length (by decide) (Nat.lt_trans fits (by decide))
  have sum (h : Library.Memory) : (numeral 8 7 (calculateChksum h)).length = 7 :=
    numeral_length (by decide) (calculateChksum_lt h)
  have zeros (f : Field) (inside : f.ofs + f.width ≤ ustarHeaderSize) :
      (header.fill 0 ustarHeaderSize 0).field f = List.replicate f.width 0 :=
    Memory.field_fill_zero (Nat.zero_le _) (by omega)
  have flag (h : Library.Memory) (f : Field) (apart : typeflag.Apart f) :
      (h.put typeflag [type.byte]).field f = h.field f :=
    Memory.field_put_apart (Nat.le_refl 1) apart
  refine ⟨_, by rw [ustarMakeHeader, if_neg (by omega)], ?_⟩
  -- Each field is reached through the writes behind its own, which lie apart from it.
  constructor
  case name =>
    refine ⟨99 - (stripAntisocialPrefixes fileName).length, ?_⟩
    simp (disch := decide) only [Memory.field_putString_apart, Memory.field_put_apart, flag]
    rw [Memory.field_putString (f := name) (Nat.lt_succ_of_le short), zeros name (by decide),
      List.drop_replicate, List.replicate_succ]
    congr 3
    exact Nat.succ_sub_succ 99 _
  case size =>
    simp (disch := decide) only [Memory.field_putString_apart, Memory.field_put_apart, flag]
    have fits : (numeral 8 11 bytes).length < size.width := by
      rw [room]
      decide
    exact ⟨_, Memory.field_putString fits⟩
  case chksum =>
    rw [calculateChksum_congr (Memory.putString_sameOff (by decide) _)]
    refine ⟨_, Memory.field_putString ?_⟩
    rw [sum]
    decide
  case typeflag =>
    simp (disch := decide) only [Memory.field_putString_apart, Memory.field_put_apart]
    have fits : [type.byte].length ≤ typeflag.width := Nat.le_refl 1
    rw [Memory.field_put fits]
    rfl
  case magic =>
    simp (disch := decide) only [Memory.field_putString_apart, Memory.field_put_apart]
    rw [Memory.field_putString (f := magic) (by decide)]
    rfl
  case version =>
    simp (disch := decide) only [Memory.field_putString_apart]
    rw [Memory.field_put (f := version) (by decide)]
    rfl
  case first =>
    simp (disch := decide) only [Memory.field_putString_apart, Memory.field_put_apart, flag]
    rw [zeros prefixField (by decide)]
    rfl

theorem byte_of_field {f : Field} {c : UInt8} {s : List UInt8} (eq : h.field f = c :: s) :
    h f.ofs = c := by
  have inside : 0 < (h.field f).length := by
    rw [eq]
    exact Nat.succ_pos _
  have first := Memory.getElem_field inside
  simp only [eq, List.getElem_cons_zero, Nat.add_zero] at first
  exact first.symm

theorem typeOf_byte (known : type ≠ .eof) : typeOf type.byte = some type := by
  cases type with
  | regular => rfl
  | directory => rfl
  | eof => exact absurd rfl known

theorem cString_append {n : Nat} (text : (0 : UInt8) ∉ fileName) :
    cString (fileName ++ List.replicate (n + 1) 0) = fileName := by
  have whole : fileName.takeWhile (· ≠ 0) = fileName := by
    apply List.takeWhile_eq_self_iff.mpr
    intro c mem
    simp only [ne_eq, decide_not, Bool.not_eq_true', decide_eq_false_iff_not]
    intro zero
    exact text (zero ▸ mem)
  rw [cString, List.takeWhile_append, whole, if_pos rfl, List.replicate_succ,
    List.takeWhile_cons_of_neg (by decide), List.append_nil]

theorem parse_chksum (filled : Filled h fileName type bytes) :
    parseOctalField (h.field chksum) = some (calculateChksum h) := by
  obtain ⟨_, summed⟩ := filled.chksum
  rw [summed]
  apply parseOctalField_numeral (by decide) (calculateChksum_lt h)
  exact Nat.lt_trans (calculateChksum_lt h) (by decide)

theorem parse_size (filled : Filled h fileName type bytes) (fits : bytes < 2 ^ 31) :
    parseOctalField (h.field size) = some bytes := by
  obtain ⟨_, sized⟩ := filled.size
  rw [sized]
  apply parseOctalField_numeral (by decide)
  · exact Nat.lt_trans fits (by decide)
  · exact Nat.lt_trans fits (by decide)

theorem isAllZeros_of_filled (filled : Filled h fileName type bytes) :
    isAllZeros h ustarHeaderSize = false := by
  apply List.all_eq_false.mpr
  refine ⟨magic.ofs, List.mem_range.mpr (by decide), ?_⟩
  rw [byte_of_field filled.magic]
  decide

theorem name_ends (filled : Filled h fileName type bytes) :
    h (name.ofs + name.width - 1) = 0 := by
  obtain ⟨n, named⟩ := filled.name
  have width := congrArg List.length named
  rw [Memory.length_field, List.length_append, List.length_replicate] at width
  have inside : name.width - 1 < (h.field name).length := by
    rw [Memory.length_field]
    decide
  have byte := Memory.getElem_field inside
  simp only [named] at byte
  rw [List.getElem_append_right (by omega), List.getElem_replicate] at byte
  exact byte.symm

theorem ustarParseHeader_of_filled (filled : Filled h fileName type bytes)
    (text : (0 : UInt8) ∉ fileName) (known : type ≠ .eof) (fits : bytes < 2 ^ 31) :
    ustarParseHeader h = .ok ⟨some (stripAntisocialPrefixes fileName), type,
      if type = .regular then bytes else 0⟩ := by
  obtain ⟨n, named⟩ := filled.name
  have first : h prefixField.ofs = 0 := by
    obtain ⟨s, eq⟩ := List.head?_eq_some_iff.mp filled.first
    exact byte_of_field eq
  have flag : typeOf (h typeflag.ofs) = some type := by
    rw [byte_of_field filled.typeflag, typeOf_byte known]
  have length : parseSize h type = .ok (if type = .regular then bytes else 0) := by
    rw [parseSize]
    split
    next => simp only [parse_size filled fits, if_neg (show ¬ bytes > 2 ^ 31 - 1 by omega)]
    next => rfl
  simp only [ustarParseHeader, isAllZeros_of_filled filled, filled.magic, filled.version, parse_chksum filled,
    name_ends filled, first, flag, length, named, cString_append text, ne_eq, not_true_eq_false, or_self,
    if_false, Bool.false_eq_true]

/-- A header that was made is parsed: the name is the stripped one, the type and the size are
those it was made from, and its checksum and octal fields pass their checks. -/
theorem ustarParseHeader_makeHeader (fileName : List UInt8) (text : (0 : UInt8) ∉ fileName)
    (short : (stripAntisocialPrefixes fileName).length ≤ 99) (type : UstarType)
    (known : type ≠ .eof) (bytes : Nat) (fits : bytes < 2 ^ 31) (header : Library.Memory) :
    ∃ h, ustarMakeHeader fileName type bytes header = some h ∧
      ustarParseHeader h = .ok ⟨some (stripAntisocialPrefixes fileName), type,
        if type = .regular then bytes else 0⟩ ∧
      parseOctalField (h.field chksum) = some (calculateChksum h) ∧
      parseOctalField (h.field size) = some bytes := by
  obtain ⟨h, made, filled⟩ := ustarMakeHeader_filled type short fits header
  refine ⟨h, made, ?_, parse_chksum filled, parse_size filled fits⟩
  rw [ustarParseHeader_of_filled filled (zero_notMem_strip text) known fits, strip_strip]

/-- "../a/b", with the largest size. -/
theorem ustarParseHeader_makeHeader_of_parent :
    ∃ h, ustarMakeHeader [46, 46, 47, 97, 47, 98] .regular (2 ^ 31 - 1) (fun _ => 7) = some h ∧
      ustarParseHeader h = .ok ⟨some [97, 47, 98], .regular, 2 ^ 31 - 1⟩ ∧
      parseOctalField (h.field chksum) = some (calculateChksum h) ∧
      parseOctalField (h.field size) = some (2 ^ 31 - 1) :=
  ustarParseHeader_makeHeader [46, 46, 47, 97, 47, 98] (by decide) (by decide) .regular (by decide)
    (2 ^ 31 - 1) (by decide) fun _ => 7

end Header

end CS162.Pintos.Ustar
