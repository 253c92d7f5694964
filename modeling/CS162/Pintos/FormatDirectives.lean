import CS162.Pintos.FormatIntegerLaw
import CS162.Pintos.FormatString

/-!
What a format string says: characters to copy and conversions, the last of which may be
unfinished; the arguments they ask for and the text they stand for.
-/

namespace CS162.Pintos.Stdio
open CS162.Library

section Syntax

/-- A width or a precision as it is written. -/
inductive Number where
  | star
  | digits (ds : List UInt8)

/-- What stands between the `%` and the conversion character. -/
structure Specification where
  flags : List UInt8
  width : Number
  precision : Option Number
  type : IntType

inductive Directive where
  | char (ch : UInt8)
  | conversion (spec : Specification) (conv : UInt8)
  /-- the format ends before the conversion character -/
  | unfinished (spec : Specification)

def isFlag (ch : UInt8) : Bool := ch ∈ ([0x2d, 0x2b, 0x20, 0x23, 0x30, 0x27] : List UInt8)

def scanNumber (l : List UInt8) : Number × List UInt8 :=
  if l.headD 0 = 0x2a then (.star, l.tail) else (.digits (l.takeWhile isDigit), l.dropWhile isDigit)

def scanPrecision (l : List UInt8) : Option Number × List UInt8 :=
  if l.headD 0 = 0x2e then (some (scanNumber l.tail).1, (scanNumber l.tail).2) else (none, l)

def scanType (l : List UInt8) : IntType × List UInt8 :=
  if l.headD 0 = 0x68 then if l.tail.headD 0 = 0x68 then (.char, l.tail.tail) else (.short, l.tail)
  else if l.headD 0 = 0x6a then (.intmax, l.tail)
  else if l.headD 0 = 0x6c then if l.tail.headD 0 = 0x6c then (.longlong, l.tail.tail) else (.long, l.tail)
  else if l.headD 0 = 0x74 then (.ptrdifft, l.tail)
  else if l.headD 0 = 0x7a then (.sizet, l.tail)
  else (.int, l)

/-- The specification that a text starts with, and what is behind it. -/
def scanSpecification (l : List UInt8) : Specification × List UInt8 :=
  let (width, l₁) := scanNumber (l.dropWhile isFlag)
  let (precision, l₂) := scanPrecision l₁
  let (type, l₃) := scanType l₂
  (⟨l.takeWhile isFlag, width, precision, type⟩, l₃)

theorem scanNumber_suffix (l : List UInt8) : (scanNumber l).2 <:+ l := by
  rw [scanNumber]
  split
  · exact List.tail_suffix l
  · exact List.dropWhile_suffix _

theorem scanPrecision_suffix (l : List UInt8) : (scanPrecision l).2 <:+ l := by
  rw [scanPrecision]
  split
  · exact (scanNumber_suffix _).trans (List.tail_suffix l)
  · exact List.suffix_refl l

theorem scanType_suffix (l : List UInt8) : (scanType l).2 <:+ l := by
  have one := List.tail_suffix l
  have two := (List.tail_suffix l.tail).trans one
  rw [scanType]
  repeat' split
  all_goals first | exact one | exact two | exact List.suffix_refl l

theorem scanSpecification_suffix (l : List UInt8) : (scanSpecification l).2 <:+ l :=
  (scanType_suffix _).trans <| (scanPrecision_suffix _).trans <| (scanNumber_suffix _).trans <| List.dropWhile_suffix _

/-- What a format says. -/
def directives : List UInt8 → List Directive
  | [] => []
  | ch :: l =>
      if ch ≠ percent then .char ch :: directives l
      else if l.headD 0 = percent then .char percent :: directives l.tail
      else
        match _scanned : scanSpecification l with
        | (spec, []) => [.unfinished spec]
        | (spec, conv :: rest) => .conversion spec conv :: directives rest
termination_by l => l.length
decreasing_by
  · exact Nat.lt_succ_self _
  · exact Nat.lt_succ_of_le (List.tail_suffix l).length_le
  · have shorter := (scanSpecification_suffix l).length_le
    rw [_scanned] at shorter
    exact Nat.lt_succ_of_le (Nat.le_of_succ_le shorter)

variable {l rest : List UInt8} {spec : Specification}

theorem directives_char {ch : UInt8} (plain : ch ≠ percent) : directives (ch :: l) = .char ch :: directives l := by
  rw [directives, if_pos plain]

theorem directives_percent : directives (percent :: percent :: l) = .char percent :: directives l := by
  rw [directives, if_neg (fun plain => plain rfl), List.headD_cons, if_pos rfl, List.tail_cons]

theorem directives_unfinished (other : l.headD 0 ≠ percent) (scanned : scanSpecification l = (spec, [])) :
    directives (percent :: l) = [.unfinished spec] := by
  rw [directives, if_neg (fun plain => plain rfl), if_neg other]
  split
  case h_1 same =>
    rw [scanned] at same
    cases same
    rfl
  case h_2 same =>
    rw [scanned] at same
    cases same

theorem directives_conversion {conv : UInt8} (other : l.headD 0 ≠ percent)
    (scanned : scanSpecification l = (spec, conv :: rest)) :
    directives (percent :: l) = .conversion spec conv :: directives rest := by
  rw [directives, if_neg (fun plain => plain rfl), if_neg other]
  split
  case h_1 same =>
    rw [scanned] at same
    cases same
  case h_2 same =>
    rw [scanned] at same
    cases same
    rfl

end Syntax

section Meaning

/-- The number that digits stand for, as an `int`. -/
def numberOf (ds : List UInt8) : Int := ds.foldl (fun n ch => toInt32 (n * 10 + ch.toNat - 0x30)) 0

def Number.read : Number → List Arg → Except Stop (Int × List Arg)
  | .star, args => argInt args
  | .digits ds, args => .ok (numberOf ds, args)

/-- The flags a specification is written with: `0` is ignored with `-`, and a blank with `+`. -/
def flagsOf (flags : List UInt8) : Flags where
  minus := 0x2d ∈ flags
  plus := 0x2b ∈ flags
  space := 0x20 ∈ flags ∧ 0x2b ∉ flags
  pound := 0x23 ∈ flags
  zero := 0x30 ∈ flags ∧ 0x2d ∉ flags
  group := 0x27 ∈ flags

def readPrecision : Option Number → List Arg → Except Stop (Int × List Arg)
  | none, args => .ok (-1, args)
  | some number, args => do
      let (precision, args) ← number.read args
      return (if precision < 0 then -1 else precision, args)

/-- A specification with its numbers. A negative width sets `-`, and a precision clears `0`. -/
def Specification.resolve (spec : Specification) (width precision : Int) : PrintfConversion :=
  let flags := flagsOf spec.flags
  ⟨{ flags with minus := flags.minus ∨ width < 0, zero := flags.zero ∧ precision < 0 },
    if width < 0 then toInt32 (-width) else width, precision, spec.type⟩

/-- What a specification says with the arguments it takes. -/
def Specification.read (spec : Specification) (args : List Arg) : Except Stop (PrintfConversion × List Arg) := do
  let (width, args) ← spec.width.read args
  let (precision, args) ← readPrecision spec.precision args
  return (spec.resolve width precision, args)

def integerText (value : UInt64) (isSigned negative : Bool) (b : IntegerBase) (c : PrintfConversion) : List UInt8 :=
  padded c.flags (padding c.width (bodyLength value isSigned negative b c))
    (optional (signOf isSigned negative c.flags) ++ prefixOf value b c.flags) (number value b c).reverse

def floatText (d : Double) (c : PrintfConversion) : List UInt8 :=
  let precision := min (if c.precision < 0 then 6 else c.precision) 9
  let rest := d.rest (powers.getD precision.toNat 0)
  integerText (if d.whole < 0 then -d.whole else d.whole).toInt64.toUInt64 true d.negative baseD
      { c with precision := -1 } ++
    0x2e :: integerText (if rest < 0 then -rest else rest).toInt64.toUInt64 false false baseD
      { c with precision := if precision = 0 then 1 else precision }

/-- The text of a conversion: one of its own, or one of its argument. -/
inductive Meaning where
  | plain (text : List UInt8)
  | of (kind : Kind) (text : kind.Value → List UInt8)

/-- What a conversion character means. -/
def meaning (conv : UInt8) (c : PrintfConversion) : Meaning :=
  if conv = 0x64 ∨ conv = 0x69 then
    .of (typeKind c.type) fun x =>
      let value := signedValue c.type x
      integerText (if value < 0 then -value else value).toUInt64 true (value < 0) baseD c
  else if conv = 0x6f ∨ conv = 0x75 ∨ conv = 0x78 ∨ conv = 0x58 then
    .of (typeKind c.type) fun x => integerText (unsignedValue c.type x) false false (unsignedBase conv) c
  else if conv = 0x63 then .of .word fun x => formatString [x.toUInt8] 1 c
  else if conv = 0x73 then
    .of .string fun s =>
      let s := s.getD nullText
      formatString s (toInt32 (strnlen s (toUInt32 c.precision))) c
  else if conv = 0x70 then
    .of .pointer fun p =>
      integerText p.toUInt64 false false baseX { c with flags := ⟨false, false, false, true, false, false⟩ }
  else if conv = 0x66 then .of .double fun d => floatText d c
  else
    .plain ([0x3c, 0x3c, 0x6e, 0x6f, 0x20, 0x25, conv] ++
      if conv = 0x65 ∨ conv = 0x45 ∨ conv = 0x67 ∨ conv = 0x47 ∨ conv = 0x6e then inKernel else noConversion)

def Meaning.read : Meaning → List Arg → Except Stop (List UInt8 × List Arg)
  | .plain text, args => .ok (text, args)
  | .of kind text, args => do
      let (x, args) ← vaArg kind args
      return (text x, args)

/-- The text of a format with its arguments. -/
def textOf : List Directive → List Arg → Except Stop (List UInt8)
  | [], _ => .ok []
  | .char ch :: ds, args => do
      let rest ← textOf ds args
      return ch :: rest
  | .conversion spec conv :: ds, args => do
      let (c, args) ← spec.read args
      let (text, args) ← (meaning conv c).read args
      let rest ← textOf ds args
      return text ++ rest
  | .unfinished _ :: _, _ => .error (.outOfBounds .read)

/-- The text, nothing if there is none. -/
def fullText (ds : List Directive) (args : List Arg) : List UInt8 := (textOf ds args).toOption.getD []

/-- What a scanner does that takes the zero behind an unfinished conversion for its character. -/
def perform {σ : Type} (output : UInt8 → σ → Except Stop σ) : List Directive → List Arg → σ → Except Stop σ
  | [], _, aux => .ok aux
  | .char ch :: ds, args, aux => do
      let aux ← output ch aux
      perform output ds args aux
  | .conversion spec conv :: ds, args, aux => do
      let (c, args) ← spec.read args
      let (text, args) ← (meaning conv c).read args
      let aux ← putAll output text aux
      perform output ds args aux
  | .unfinished spec :: _, args, aux => do
      let (c, args) ← spec.read args
      let (text, _) ← (meaning 0 c).read args
      let _ ← putAll output text aux
      .error (.outOfBounds .read)

/-- Every conversion has its conversion character. -/
def Complete (ds : List Directive) : Prop := ∀ spec, .unfinished spec ∉ ds

def Number.kinds : Number → List Kind
  | .star => [.word]
  | .digits _ => []

def Specification.kinds (spec : Specification) : List Kind :=
  spec.width.kinds ++ spec.precision.elim [] Number.kinds

def Meaning.kinds : Meaning → List Kind
  | .plain _ => []
  | .of kind _ => [kind]

/-- What a conversion character takes. -/
def conversionKinds (conv : UInt8) (type : IntType) : List Kind :=
  if conv = 0x64 ∨ conv = 0x69 then [typeKind type]
  else if conv = 0x6f ∨ conv = 0x75 ∨ conv = 0x78 ∨ conv = 0x58 then [typeKind type]
  else if conv = 0x63 then [.word]
  else if conv = 0x73 then [.string]
  else if conv = 0x70 then [.pointer]
  else if conv = 0x66 then [.double]
  else []

def Directive.kinds : Directive → List Kind
  | .char _ => []
  | .conversion spec conv => spec.kinds ++ conversionKinds conv spec.type
  | .unfinished spec => spec.kinds

/-- There are arguments of the types the format asks for. -/
def Fits (ds : List Directive) (args : List Arg) : Prop := ds.flatMap Directive.kinds <+: args.map Sigma.fst

end Meaning

section Fit
variable {args : List Arg} {more : List Kind}

theorem vaArg_self {kind : Kind} (x : kind.Value) : vaArg kind (⟨kind, x⟩ :: args) = .ok (x, args) := dif_pos rfl

theorem vaArg_of_fits {kind : Kind} (fits : kind :: more <+: args.map Sigma.fst) :
    ∃ x args', vaArg kind args = .ok (x, args') ∧ more <+: args'.map Sigma.fst := by
  cases args with
  | nil => exact absurd (List.prefix_nil.mp fits) (List.cons_ne_nil _ _)
  | cons arg args =>
      obtain ⟨same, rest⟩ := List.cons_prefix_cons.mp fits
      obtain ⟨kind', x⟩ := arg
      obtain rfl : kind = kind' := same
      exact ⟨x, args, vaArg_self x, rest⟩

theorem Number.read_of_fits {number : Number} (fits : number.kinds ++ more <+: args.map Sigma.fst) :
    ∃ n args', number.read args = .ok (n, args') ∧ more <+: args'.map Sigma.fst := by
  cases number with
  | star =>
      obtain ⟨x, args', read, rest⟩ := vaArg_of_fits fits
      exact ⟨_, args', by rw [Number.read, argInt, read]; rfl, rest⟩
  | digits ds => exact ⟨_, args, rfl, fits⟩

theorem readPrecision_of_fits {precision : Option Number}
    (fits : precision.elim [] Number.kinds ++ more <+: args.map Sigma.fst) :
    ∃ n args', readPrecision precision args = .ok (n, args') ∧ more <+: args'.map Sigma.fst := by
  cases precision with
  | none => exact ⟨_, args, rfl, fits⟩
  | some number =>
      obtain ⟨n, args', read, rest⟩ := Number.read_of_fits fits
      exact ⟨_, args', by rw [readPrecision, read]; rfl, rest⟩

theorem Specification.read_of_fits {spec : Specification} (fits : spec.kinds ++ more <+: args.map Sigma.fst) :
    ∃ c args', spec.read args = .ok (c, args') ∧ c.type = spec.type ∧ more <+: args'.map Sigma.fst := by
  rw [Specification.kinds, List.append_assoc] at fits
  obtain ⟨width, args₁, read₁, rest₁⟩ := Number.read_of_fits fits
  obtain ⟨precision, args₂, read₂, rest₂⟩ := readPrecision_of_fits rest₁
  refine ⟨spec.resolve width precision, args₂, ?_, rfl, rest₂⟩
  rw [Specification.read, read₁, ok_bind]
  dsimp only
  rw [read₂]
  rfl

theorem meaning_kinds (conv : UInt8) (c : PrintfConversion) : (meaning conv c).kinds = conversionKinds conv c.type := by
  rw [meaning, conversionKinds]
  simp only [apply_ite Meaning.kinds]
  rfl

theorem Meaning.read_of_fits {m : Meaning} (fits : m.kinds ++ more <+: args.map Sigma.fst) :
    ∃ text args', m.read args = .ok (text, args') ∧ more <+: args'.map Sigma.fst := by
  cases m with
  | plain text => exact ⟨text, args, rfl, fits⟩
  | of kind text =>
      obtain ⟨x, args', read, rest⟩ := vaArg_of_fits fits
      exact ⟨text x, args', by rw [Meaning.read, read]; rfl, rest⟩

theorem textOf_of_fits {ds : List Directive} (complete : Complete ds) (fits : Fits ds args) :
    ∃ text, textOf ds args = .ok text := by
  induction ds generalizing args with
  | nil => exact ⟨[], rfl⟩
  | cons d ds ih =>
      have complete' : Complete ds := fun spec inside => complete spec (List.mem_cons_of_mem _ inside)
      rw [Fits, List.flatMap_cons] at fits
      cases d with
      | char ch =>
          obtain ⟨text, read⟩ := ih complete' fits
          exact ⟨ch :: text, by rw [textOf, read]; rfl⟩
      | conversion spec conv =>
          rw [Directive.kinds, List.append_assoc] at fits
          obtain ⟨c, args₁, read₁, type, rest₁⟩ := Specification.read_of_fits fits
          rw [← type, ← meaning_kinds] at rest₁
          obtain ⟨text, args₂, read₂, rest₂⟩ := Meaning.read_of_fits rest₁
          obtain ⟨behind, read⟩ := ih complete' rest₂
          refine ⟨text ++ behind, ?_⟩
          rw [textOf, read₁, ok_bind]
          dsimp only
          rw [read₂, ok_bind]
          dsimp only
          rw [read]
          rfl
      | unfinished spec => exact absurd (List.mem_cons_self ..) (complete spec)

end Fit
end CS162.Pintos.Stdio
