import CS162.Library.Numeral
import CS162.Pintos.FormatDirectives

/-!
The scanner does what the directives of the format say, and reads behind the terminating zero
just when the last one is unfinished; what `vsnprintf` makes of it.
-/

namespace CS162.Pintos.Stdio
open CS162.Library

section Parse
variable {l : List UInt8} {args : List Arg}

theorem deref_append : deref (l ++ [0]) = .ok (l.headD 0) := by
  cases l <;> rfl

theorem tail_append {ch : UInt8} (first : l.headD 0 = ch) (more : ch ≠ 0) : (l ++ [0]).tail = l.tail ++ [0] := by
  cases l with
  | nil => exact absurd first.symm more
  | cons ch l => rfl

/-- Flags with those of some more characters. -/
def Flags.join (flags : Flags) (chars : List UInt8) : Flags where
  minus := flags.minus ∨ 0x2d ∈ chars
  plus := flags.plus ∨ 0x2b ∈ chars
  space := flags.space ∨ 0x20 ∈ chars
  pound := flags.pound ∨ 0x23 ∈ chars
  zero := flags.zero ∨ 0x30 ∈ chars
  group := flags.group ∨ 0x27 ∈ chars

theorem flagOf_eq_none {flags : Flags} {ch : UInt8} : flagOf flags ch = none ↔ isFlag ch = false := by
  rw [flagOf, isFlag]
  simp only [List.mem_cons, List.not_mem_nil]
  grind

theorem join_cons {flags flags' : Flags} {ch : UInt8} {chars : List UInt8} (flag : flagOf flags ch = some flags') :
    flags'.join chars = flags.join (ch :: chars) := by
  rw [flagOf] at flag
  split_ifs at flag
  all_goals
    subst ch
    rw [← Option.some_injective _ flag]
    simp [Flags.join]

theorem parseFlags_append {flags : Flags} :
    parseFlags flags (l ++ [0]) = .ok (flags.join (l.takeWhile isFlag), l.dropWhile isFlag ++ [0]) := by
  induction l generalizing flags with
  | nil => simp [parseFlags, flagOf, Flags.join]
  | cons ch l ih =>
      rw [List.cons_append, parseFlags]
      cases flag : flagOf flags ch with
      | none =>
          have other := flagOf_eq_none.mp flag
          rw [List.takeWhile_cons_of_neg (Bool.eq_false_iff.mp other),
            List.dropWhile_cons_of_neg (Bool.eq_false_iff.mp other)]
          simp [Flags.join]
      | some flags' =>
          have is_flag : isFlag ch = true := by
            by_contra other
            rw [flagOf_eq_none.mpr (Bool.eq_false_iff.mpr other)] at flag
            cases flag
          rw [List.takeWhile_cons_of_pos is_flag, List.dropWhile_cons_of_pos is_flag, ← join_cons flag]
          exact ih

theorem parseDigits_append {n : Int} : parseDigits n (l ++ [0]) =
    .ok ((l.takeWhile isDigit).foldl (fun n ch => toInt32 (n * 10 + ch.toNat - 0x30)) n,
      l.dropWhile isDigit ++ [0]) := by
  induction l generalizing n with
  | nil => rfl
  | cons ch l ih =>
      rw [List.cons_append, parseDigits]
      by_cases digit : isDigit ch = true
      · rw [if_pos digit, List.takeWhile_cons_of_pos digit, List.dropWhile_cons_of_pos digit, ih]
        rfl
      · rw [if_neg digit, List.takeWhile_cons_of_neg digit, List.dropWhile_cons_of_neg digit]
        rfl

theorem parseNumber_append : parseNumber (l ++ [0]) args =
    (scanNumber l).1.read args >>= fun r => .ok (r.1, (scanNumber l).2 ++ [0], r.2) := by
  rw [parseNumber, deref_append, ok_bind, scanNumber]
  by_cases star : l.headD 0 = 0x2a
  · rw [if_pos star, if_pos star, tail_append star (by decide)]
    rfl
  · rw [if_neg star, if_neg star, parseDigits_append]
    rfl

theorem parsePrecision_append : parsePrecision (l ++ [0]) args =
    readPrecision (scanPrecision l).1 args >>= fun r => .ok (r.1, (scanPrecision l).2 ++ [0], r.2) := by
  rw [parsePrecision, deref_append, ok_bind, scanPrecision]
  by_cases point : l.headD 0 = 0x2e
  · rw [if_pos point, if_pos point, tail_append point (by decide), parseNumber_append]
    dsimp only
    rw [readPrecision]
    cases (scanNumber l.tail).1.read args <;> rfl
  · rw [if_neg point, if_neg point]
    rfl

theorem parseType_append : parseType (l ++ [0]) = .ok ((scanType l).1, (scanType l).2 ++ [0]) := by
  rw [parseType, deref_append, ok_bind, scanType]
  by_cases h : l.headD 0 = 0x68
  · rw [if_pos h, if_pos h, tail_append h (by decide), deref_append, ok_bind]
    by_cases hh : l.tail.headD 0 = 0x68
    · rw [if_pos hh, if_pos hh, tail_append hh (by decide)]
      rfl
    · rw [if_neg hh, if_neg hh]
      rfl
  rw [if_neg h, if_neg h]
  by_cases j : l.headD 0 = 0x6a
  · rw [if_pos j, if_pos j, tail_append j (by decide)]
    rfl
  rw [if_neg j, if_neg j]
  by_cases long : l.headD 0 = 0x6c
  · rw [if_pos long, if_pos long, tail_append long (by decide), deref_append, ok_bind]
    by_cases longlong : l.tail.headD 0 = 0x6c
    · rw [if_pos longlong, if_pos longlong, tail_append longlong (by decide)]
      rfl
    · rw [if_neg longlong, if_neg longlong]
      rfl
  rw [if_neg long, if_neg long]
  by_cases t : l.headD 0 = 0x74
  · rw [if_pos t, if_pos t, tail_append t (by decide)]
    rfl
  rw [if_neg t, if_neg t]
  by_cases z : l.headD 0 = 0x7a
  · rw [if_pos z, if_pos z, tail_append z (by decide)]
    rfl
  rw [if_neg z, if_neg z]
  rfl

theorem flagsOf_eq {chars : List UInt8} :
    (let flags := Flags.join ⟨false, false, false, false, false, false⟩ chars
    let flags := if flags.minus then { flags with zero := false } else flags
    if flags.plus then { flags with space := false } else flags) = flagsOf chars := by
  rw [Flags.join, flagsOf]
  by_cases minus : 0x2d ∈ chars <;> by_cases plus : 0x2b ∈ chars <;> simp [minus, plus]

theorem resolve_eq {spec : Specification} {width precision : Int} : (
    ⟨let flags := if width < 0 then { flagsOf spec.flags with minus := true } else flagsOf spec.flags
      if 0 ≤ precision then { flags with zero := false } else flags,
      if width < 0 then toInt32 (-width) else width, precision, spec.type⟩ : PrintfConversion) =
    spec.resolve width precision := by
  have none_given : 0 ≤ precision ↔ ¬ precision < 0 := Int.not_lt.symm
  rw [Specification.resolve]
  by_cases negative : width < 0 <;> by_cases absent : precision < 0 <;> simp [negative, absent, none_given]

theorem parseConversion_append : parseConversion (l ++ [0]) args =
    (scanSpecification l).1.read args >>= fun r => .ok (r.1, (scanSpecification l).2 ++ [0], r.2) := by
  rw [parseConversion, parseFlags_append, ok_bind]
  dsimp only
  rw [parseNumber_append, Specification.read, scanSpecification]
  dsimp only
  cases (scanNumber (l.dropWhile isFlag)).1.read args with
  | error e => rfl
  | ok r =>
      rw [ok_bind, ok_bind, ok_bind]
      dsimp only
      rw [parsePrecision_append]
      cases readPrecision (scanPrecision (scanNumber (l.dropWhile isFlag)).2).1 r.2 with
      | error e => rfl
      | ok r' =>
          rw [ok_bind, ok_bind, ok_bind]
          dsimp only
          rw [parseType_append, ok_bind, ← resolve_eq, ← flagsOf_eq]
          rfl

end Parse

section Convert
variable {σ : Type} {output : UInt8 → σ → Except Stop σ} {printf : Pointer → List Arg → σ → Except Stop σ}
variable {c : PrintfConversion} {args : List Arg} {aux : σ}

theorem putAll_cons {ch : UInt8} {chars : List UInt8} :
    putAll output (ch :: chars) aux = output ch aux >>= putAll output chars :=
  List.foldlM_cons ..

theorem putAll_append {chars rest : List UInt8} :
    putAll output (chars ++ rest) aux = putAll output chars aux >>= putAll output rest := List.foldlM_append ..

theorem formatInteger_text {value : UInt64} {isSigned negative : Bool} {b : IntegerBase} :
    formatInteger value isSigned negative b c = .ok (integerText value isSigned negative b c) := formatInteger_eq

theorem formatFloat_text {d : Double} : formatFloat d c = .ok (floatText d c) := by
  have limit (precision : Int) : (if 9 < precision then 9 else precision) = min precision 9 := by omega
  rw [formatFloat, floatText, limit, formatInteger_text, ok_bind, formatInteger_text, ok_bind, List.append_assoc]
  rfl

theorem putText_eq {code : Except OutOfBounds (List UInt8)} {text : List UInt8} (same : code = .ok text) :
    putText output code args aux = putAll output text aux >>= fun aux => .ok (aux, args) := by
  rw [putText, same]
  rfl

/-- The text of a refusal. -/
def refusalText (conv : UInt8) (reason : List UInt8) : List UInt8 :=
  [0x3c, 0x3c, 0x6e, 0x6f, 0x20, 0x25, conv] ++ reason

/-- The switch does what the conversion character means, if `__printf` puts out its refusals. -/
theorem convert_eq {conv : UInt8} (prints : ∀ reason, reason = inKernel ∨ reason = noConversion →
      printf (refusal reason) [⟨.word, conv.toInt8.toInt32.toUInt32⟩] aux =
        putAll output (refusalText conv reason) aux) :
    convert output printf conv c args aux =
      (meaning conv c).read args >>= fun r => putAll output r.1 aux >>= fun aux => .ok (aux, r.2) := by
  rw [convert, meaning]
  by_cases signed : conv = 0x64 ∨ conv = 0x69
  · rw [if_pos signed, if_pos signed, Meaning.read]
    cases vaArg (typeKind c.type) args with
    | error e => rfl
    | ok r => exact putText_eq formatInteger_text
  rw [if_neg signed, if_neg signed]
  by_cases unsigned : conv = 0x6f ∨ conv = 0x75 ∨ conv = 0x78 ∨ conv = 0x58
  · rw [if_pos unsigned, if_pos unsigned, Meaning.read]
    cases vaArg (typeKind c.type) args with
    | error e => rfl
    | ok r => exact putText_eq formatInteger_text
  rw [if_neg unsigned, if_neg unsigned]
  by_cases char : conv = 0x63
  · rw [if_pos char, if_pos char, Meaning.read]
    cases vaArg .word args with
    | error e => rfl
    | ok r => exact putText_eq rfl
  rw [if_neg char, if_neg char]
  by_cases string : conv = 0x73
  · rw [if_pos string, if_pos string, Meaning.read]
    cases vaArg .string args with
    | error e => rfl
    | ok r => exact putText_eq rfl
  rw [if_neg string, if_neg string]
  by_cases pointer : conv = 0x70
  · rw [if_pos pointer, if_pos pointer, Meaning.read]
    cases vaArg .pointer args with
    | error e => rfl
    | ok r =>
        rw [ok_bind, ok_bind]
        dsimp only
        rw [putText_eq formatInteger_text, pure_bind]
  rw [if_neg pointer, if_neg pointer]
  by_cases float : conv = 0x66
  · rw [if_pos float, if_pos float, Meaning.read]
    cases vaArg .double args with
    | error e => rfl
    | ok r => exact putText_eq formatFloat_text
  rw [if_neg float, if_neg float]
  rw [Meaning.read, ok_bind]
  dsimp only
  rw [prints _ (by split <;> simp), refusalText]
  rfl

end Convert

section Run
variable {σ : Type} {output : UInt8 → σ → Except Stop σ} {fuel : Nat} {l : List UInt8} {args : List Arg} {aux : σ}

theorem vprintf_char {ch : UInt8} (solid : ch ≠ 0) (plain : ch ≠ percent) :
    vprintf output (fuel + 1) (ch :: l) args aux = output ch aux >>= vprintf output fuel l args := by
  have here : deref (ch :: l) = .ok ch := rfl
  rw [vprintf, here, ok_bind, if_neg solid, if_pos plain]
  rfl

theorem vprintf_percent : vprintf output (fuel + 1) (percent :: percent :: l) args aux =
    output percent aux >>= vprintf output fuel l args := rfl

theorem vprintf_conversion (other : l.headD 0 ≠ percent) :
    vprintf output (fuel + 1) (percent :: (l ++ [0])) args aux = (scanSpecification l).1.read args >>= fun r =>
      convert output (vprintf output fuel) ((scanSpecification l).2.headD 0) r.1 r.2 aux >>= fun r =>
        vprintf output fuel ((scanSpecification l).2 ++ [0]).tail r.2 r.1 := by
  have here : deref (percent :: (l ++ [0])) = .ok percent := rfl
  rw [vprintf, here, ok_bind, if_neg (by decide), if_neg (fun plain => plain rfl), List.tail_cons]
  dsimp only
  rw [deref_append, ok_bind, if_neg other, parseConversion_append]
  cases (scanSpecification l).1.read args with
  | error e => rfl
  | ok r =>
      rw [ok_bind, ok_bind, ok_bind]
      dsimp only
      rw [deref_append]
      rfl

theorem plain_of_all (all : l.all (fun ch => ch != 0 && ch != percent) = true) : ∀ ch ∈ l, ch ≠ 0 ∧ ch ≠ percent := by
  intro ch inside
  have both := List.all_eq_true.mp all ch inside
  rw [Bool.and_eq_true, bne_iff_ne, bne_iff_ne] at both
  exact both

theorem vprintf_chars (plain : ∀ ch ∈ l, ch ≠ 0 ∧ ch ≠ percent) {format : Pointer} :
    vprintf output (l.length + fuel) (l ++ format) args aux =
      putAll output l aux >>= vprintf output fuel format args := by
  induction l generalizing aux with
  | nil =>
      rw [List.length_nil, Nat.zero_add]
      rfl
  | cons ch l ih =>
      obtain ⟨first, others⟩ := List.forall_mem_cons.mp plain
      rw [List.length_cons, Nat.add_right_comm, List.cons_append, vprintf_char first.1 first.2, putAll_cons]
      cases output ch aux with
      | error e => rfl
      | ok aux' => exact ih others

/-- `%c` without flags, a width or a precision. -/
theorem vprintf_plain_char {x : UInt32} : vprintf output (fuel + 1) (percent :: 0x63 :: (l ++ [0])) [⟨.word, x⟩] aux =
    output x.toUInt8 aux >>= vprintf output fuel (l ++ [0]) [] := by
  have scanned : scanSpecification (0x63 :: l) = (⟨[], .digits [], none, .int⟩, 0x63 :: l) := rfl
  have converted : convert output (vprintf output fuel) 0x63 ⟨⟨false, false, false, false, false, false⟩, 0, -1, .int⟩
      [⟨.word, x⟩] aux = output x.toUInt8 aux >>= fun aux => .ok (aux, []) := by
    have one : putAll output [x.toUInt8] aux = output x.toUInt8 aux := by
      rw [putAll_cons]
      cases output x.toUInt8 aux <;> rfl
    have text : formatString [x.toUInt8] 1 ⟨⟨false, false, false, false, false, false⟩, 0, -1, .int⟩ =
        [x.toUInt8] := rfl
    rw [convert, if_neg (by decide), if_neg (by decide), if_pos rfl, vaArg_self, ok_bind]
    dsimp only
    rw [putText_eq rfl, text, one]
  have other : (0x63 :: l).headD 0 ≠ percent := show (0x63 : UInt8) ≠ percent by decide
  have read : Specification.read ⟨[], .digits [], none, .int⟩ [⟨.word, x⟩] =
      .ok (⟨⟨false, false, false, false, false, false⟩, 0, -1, .int⟩, [⟨.word, x⟩]) := rfl
  rw [← List.cons_append, vprintf_conversion other, scanned, read, ok_bind, List.headD_cons, converted]
  cases output x.toUInt8 aux <;> rfl

theorem vprintf_refusal {reason : List UInt8} (plain : ∀ ch ∈ reason, ch ≠ 0 ∧ ch ≠ percent) {x : UInt32}
    (enough : reason.length + 8 ≤ fuel) :
    vprintf output fuel (refusal reason) [⟨.word, x⟩] aux = putAll output (refusalText x.toUInt8 reason) aux := by
  obtain ⟨more, rfl⟩ := Nat.exists_eq_add_of_le enough
  have front : ∀ ch ∈ ([0x3c, 0x3c, 0x6e, 0x6f, 0x20] : List UInt8), ch ≠ 0 ∧ ch ≠ percent := plain_of_all (by decide)
  have steps : reason.length + 8 + more = 5 + (reason.length + (more + 1) + 1 + 1) := by omega
  have shape : refusal reason =
      [0x3c, 0x3c, 0x6e, 0x6f, 0x20] ++ percent :: percent :: percent :: 0x63 :: (reason ++ [0]) := rfl
  have text : refusalText x.toUInt8 reason = [0x3c, 0x3c, 0x6e, 0x6f, 0x20] ++ percent :: x.toUInt8 :: reason := rfl
  rw [steps, shape, text, putAll_append]
  refine (vprintf_chars front).trans (congrArg _ (funext fun aux₁ => ?_))
  rw [vprintf_percent, putAll_cons]
  refine congrArg _ (funext fun aux₂ => ?_)
  rw [vprintf_plain_char, putAll_cons]
  refine congrArg _ (funext fun aux₃ => ?_)
  rw [vprintf_chars plain]
  cases putAll output reason aux₃ <;> rfl

/-- A `char` as the `int` it is promoted to, and back. -/
theorem toUInt8_promoted (ch : UInt8) : ch.toInt8.toInt32.toUInt32.toUInt8 = ch := by
  have same := congrArg Int8.toBitVec (Int8.toInt8_toInt32 ch.toInt8)
  rw [Int32.toBitVec_toInt8, BitVec.signExtend_eq_setWidth_of_le _ (by decide)] at same
  rw [← UInt8.toBitVec_inj, UInt32.toBitVec_toUInt8]
  exact same

theorem convert_vprintf {conv : UInt8} {c : PrintfConversion} (enough : 21 ≤ fuel) :
    convert output (vprintf output fuel) conv c args aux =
      (meaning conv c).read args >>= fun r => putAll output r.1 aux >>= fun aux => .ok (aux, r.2) := by
  refine convert_eq fun reason known => ?_
  have plain : ∀ ch ∈ reason, ch ≠ 0 ∧ ch ≠ percent := by
    rcases known with rfl | rfl <;> exact plain_of_all (by decide)
  have short : reason.length ≤ 13 := by
    rcases known with rfl | rfl <;> decide
  rw [vprintf_refusal plain (by omega), toUInt8_promoted]

theorem read_bind {m : Meaning} {rest : List Arg → σ → Except Stop σ} :
    ((m.read args >>= fun r => putAll output r.1 aux >>= fun aux => .ok (aux, r.2)) >>= fun r => rest r.2 r.1) =
      m.read args >>= fun r => putAll output r.1 aux >>= rest r.2 := by
  cases m.read args with
  | error e => rfl
  | ok r =>
      rw [ok_bind, ok_bind]
      cases putAll output r.1 aux <;> rfl

/-- The scanner does what the format says, with a few steps of fuel besides its length. -/
theorem vprintf_eq (solid : 0 ∉ l) (enough : l.length + 22 ≤ fuel) :
    vprintf output fuel (l ++ [0]) args aux = perform output (directives l) args aux := by
  induction fuel generalizing l args aux with
  | zero => omega
  | succ fuel ih =>
      cases l with
      | nil =>
          rw [directives]
          rfl
      | cons ch l =>
          rw [List.length_cons] at enough
          obtain ⟨first, others⟩ := not_or.mp (List.mem_cons.not.mp solid)
          by_cases plain : ch = percent
          case neg =>
            rw [directives_char plain, List.cons_append, vprintf_char (Ne.symm first) plain]
            exact congrArg _ (funext fun aux => ih others (by omega))
          obtain rfl := plain
          by_cases double : l.headD 0 = percent
          case pos =>
            cases l with
            | nil => exact absurd double (by decide)
            | cons ch l =>
                obtain rfl : ch = percent := double
                rw [List.length_cons] at enough
                rw [directives_percent, List.cons_append, List.cons_append, vprintf_percent]
                exact congrArg _ (funext fun aux => ih (not_or.mp (List.mem_cons.not.mp others)).2 (by omega))
          case neg =>
            cases scanned : scanSpecification l with
            | mk spec rest =>
                have shorter := (scanSpecification_suffix l).length_le
                have inside := (scanSpecification_suffix l).subset
                rw [scanned] at shorter inside
                rw [List.cons_append, vprintf_conversion double, scanned]
                cases rest with
                | nil =>
                    rw [directives_unfinished double scanned, perform]
                    refine congrArg _ (funext fun r => ?_)
                    obtain ⟨fuel, rfl⟩ : ∃ more, fuel = more + 1 := ⟨fuel - 1, by omega⟩
                    rw [convert_vprintf (by omega), read_bind]
                    rfl
                | cons conv rest =>
                    rw [directives_conversion double scanned, perform]
                    refine congrArg _ (funext fun r => ?_)
                    rw [convert_vprintf (by omega), read_bind]
                    refine congrArg _ (funext fun r => congrArg _ (funext fun aux => ih ?_ ?_))
                    · exact fun zero => others (inside (List.mem_cons_of_mem _ zero))
                    · rw [List.length_cons] at shorter
                      omega

end Run

section Perform
variable {σ : Type} {output : UInt8 → σ → Except Stop σ} {ds : List Directive} {args : List Arg} {aux : σ}

theorem complete_of_perform {aux' : σ} (ran : perform output ds args aux = .ok aux') : Complete ds := by
  induction ds generalizing args aux with
  | nil => exact fun spec inside => nomatch inside
  | cons d ds ih =>
      cases d with
      | char ch =>
          obtain ⟨aux₁, -, ran⟩ := bind_eq_ok ran
          intro spec inside
          exact ih ran spec ((List.mem_cons.mp inside).resolve_left nofun)
      | conversion spec conv =>
          obtain ⟨r, -, ran⟩ := bind_eq_ok ran
          obtain ⟨r', -, ran⟩ := bind_eq_ok ran
          obtain ⟨aux₁, -, ran⟩ := bind_eq_ok ran
          intro spec inside
          exact ih ran spec ((List.mem_cons.mp inside).resolve_left nofun)
      | unfinished spec =>
          obtain ⟨r, -, ran⟩ := bind_eq_ok ran
          obtain ⟨r', -, ran⟩ := bind_eq_ok ran
          obtain ⟨aux₁, -, ran⟩ := bind_eq_ok ran
          cases ran

theorem perform_eq {text : List UInt8} (whole : textOf ds args = .ok text) :
    perform output ds args aux = putAll output text aux := by
  induction ds generalizing args aux text with
  | nil =>
      cases whole
      rfl
  | cons d ds ih =>
      cases d with
      | char ch =>
          obtain ⟨rest, behind, made⟩ := bind_eq_ok whole
          cases made
          rw [perform, putAll_cons]
          exact congrArg _ (funext fun aux => ih behind)
      | conversion spec conv =>
          obtain ⟨r, read, taken⟩ := bind_eq_ok whole
          obtain ⟨r', text_read, left⟩ := bind_eq_ok taken
          obtain ⟨rest, behind, made⟩ := bind_eq_ok left
          cases made
          rw [perform, read, ok_bind, putAll_append]
          dsimp only
          rw [text_read, ok_bind]
          exact congrArg _ (funext fun aux => ih behind)
      | unfinished spec => cases whole

end Perform

section Buffer
variable {front back text : List UInt8} {length maxLength : Int} {aux : VsnprintfAux}

theorem putAll_collect : putAll collect text front = .ok (front ++ text) := by
  induction text generalizing front with
  | nil => exact congrArg Except.ok (List.append_nil _).symm
  | cons ch text ih =>
      rw [putAll_cons, collect, ok_bind, ih, List.append_assoc]
      rfl

theorem putAll_helper (counted : 0 ≤ length) (short : length + text.length ≤ intMax)
    (room : min text.length (maxLength - length).toNat ≤ back.length) :
    putAll vsnprintfHelper text ⟨front ++ back, front.length, length, maxLength⟩ =
      .ok ⟨front ++ (text.take (maxLength - length).toNat ++ back.drop (min text.length (maxLength - length).toNat)),
        front.length + min text.length (maxLength - length).toNat, length + text.length, maxLength⟩ := by
  induction text generalizing front back length with
  | nil =>
      rw [List.length_nil, Nat.zero_min]
      simp [putAll]
      rfl
  | cons ch text ih =>
      rw [List.length_cons, Nat.cast_succ] at short
      have next : toInt32 (length + 1) = length + 1 := by
        refine toInt32_of_range ?_ ?_ <;> omega
      have total : length + 1 + (text.length : Int) = length + ((ch :: text).length : Nat) := by
        rw [List.length_cons]
        omega
      rw [putAll_cons, vsnprintfHelper]
      dsimp only
      rw [next]
      by_cases space : length < maxLength
      case pos =>
        obtain ⟨n, more⟩ : ∃ n, (maxLength - length).toNat = n + 1 := ⟨(maxLength - length).toNat - 1, by omega⟩
        have fewer : (maxLength - (length + 1)).toNat = n := by omega
        rw [more, List.length_cons, Nat.succ_min_succ] at room
        cases back with
        | nil => exact absurd room (Nat.not_succ_le_zero _)
        | cons old back =>
            have room' : min text.length (maxLength - (length + 1)).toNat ≤ back.length := by
              rw [fewer]
              exact Nat.le_of_succ_le_succ room
            have later : putAll vsnprintfHelper text
                ⟨front ++ [ch] ++ back, (front ++ [ch]).length, length + 1, maxLength⟩ = .ok _ :=
              ih (by omega) (by omega) room'
            rw [List.length_append, List.length_singleton, List.append_assoc, List.append_assoc, fewer, total,
              Nat.add_right_comm] at later
            rw [if_pos space, CArray.store_append, more, List.take_succ_cons, List.length_cons, Nat.succ_min_succ,
              List.drop_succ_cons]
            exact later
      case neg =>
        have full : (maxLength - length).toNat = 0 := by omega
        have full' : (maxLength - (length + 1)).toNat = 0 := by omega
        have later : putAll vsnprintfHelper text ⟨front ++ back, front.length, length + 1, maxLength⟩ = .ok _ :=
          ih (by omega) (by omega) (by omega)
        rw [full', total] at later
        rw [if_neg space, full]
        rw [Nat.min_zero] at later ⊢
        exact later

theorem length_of_putAll {aux' : VsnprintfAux} {n : Int} (ran : putAll vsnprintfHelper text aux = .ok aux')
    (counted : aux.length = toInt32 n) : aux'.length = toInt32 (n + text.length) := by
  induction text generalizing aux n with
  | nil =>
      cases ran
      rw [counted, List.length_nil, Int.natCast_zero, Int.add_zero]
  | cons ch text ih =>
      obtain ⟨aux₁, put, rest⟩ := bind_eq_ok (putAll_cons ▸ ran)
      have next : aux₁.length = toInt32 (n + 1) := by
        have once : aux₁.length = toInt32 (aux.length + 1) := by
          rw [vsnprintfHelper] at put
          split at put
          · obtain ⟨buffer, -, made⟩ := bind_eq_ok put
            cases made
            rfl
          · cases put
            rfl
        rw [once, counted]
        unfold toInt32
        omega
      rw [ih rest next, List.length_cons]
      congr 1
      omega

end Buffer

section Main
variable {fuel : Nat} {l text : List UInt8} {args : List Arg} {bufSize : UInt32} {buffer : CArray}

/-- `max_length`, which is negative for a buffer of more than 2^31 bytes. -/
def maxLengthOf (bufSize : UInt32) : Int := if 0 < bufSize then toInt32 (bufSize - 1).toNat else 0

theorem bufSize_pos : 0 < bufSize ↔ 0 < bufSize.toNat := UInt32.lt_iff_toNat_lt

theorem maxLengthOf_eq : maxLengthOf bufSize = if 0 < bufSize.toNat then toInt32 (bufSize.toNat - 1 : Nat) else 0 := by
  rw [maxLengthOf]
  by_cases some_size : 0 < bufSize
  · have one : (1 : UInt32) ≤ bufSize := UInt32.le_iff_toNat_le.mpr (bufSize_pos.mp some_size)
    rw [if_pos some_size, if_pos (bufSize_pos.mp some_size), UInt32.toNat_sub_of_le _ _ one]
    rfl
  · rw [if_neg some_size, if_neg fun some_size' => some_size (bufSize_pos.mpr some_size')]

theorem maxLengthOf_le (small : bufSize.toNat ≤ 2 ^ 31) : (maxLengthOf bufSize).toNat = bufSize.toNat - 1 := by
  rw [maxLengthOf_eq, toInt32]
  split <;> omega

theorem maxLengthOf_few : (maxLengthOf bufSize).toNat ≤ bufSize.toNat - 1 := by
  have limit := bufSize.toNat_lt
  rw [maxLengthOf_eq, toInt32]
  split <;> omega

theorem maxLengthOf_gt (large : 2 ^ 31 < bufSize.toNat) : (maxLengthOf bufSize).toNat = 0 := by
  have limit := bufSize.toNat_lt
  rw [maxLengthOf_eq, toInt32]
  split <;> omega

/-- `vsnprintf` of a format that has a text. -/
theorem vsnprintf_eq (solid : 0 ∉ l) (enough : l.length + 22 ≤ fuel) (whole : textOf (directives l) args = .ok text) :
    vsnprintf fuel buffer bufSize (l ++ [0]) args =
      putAll vsnprintfHelper text ⟨buffer, 0, 0, maxLengthOf bufSize⟩ >>= fun aux =>
        (if 0 < bufSize then inBounds (CArray.store aux.buffer aux.p 0) else .ok aux.buffer) >>= fun buffer =>
          .ok (aux.length, buffer) := by
  rw [vsnprintf, vprintf_eq solid enough, perform_eq whole]
  rfl

/-- The characters there is space for, by `max_length`, and the terminating zero. -/
theorem vsnprintf_short (solid : 0 ∉ l) (enough : l.length + 22 ≤ fuel) (whole : textOf (directives l) args = .ok text)
    (short : text.length ≤ intMax) (room : bufSize.toNat ≤ buffer.length) :
    vsnprintf fuel buffer bufSize (l ++ [0]) args = .ok (text.length,
      if bufSize.toNat = 0 then buffer
      else text.take (maxLengthOf bufSize).toNat ++
        0 :: buffer.drop (min text.length (maxLengthOf bufSize).toNat + 1)) := by
  have few : (maxLengthOf bufSize).toNat ≤ bufSize.toNat - 1 := maxLengthOf_few
  have put : putAll vsnprintfHelper text ⟨[] ++ buffer, ([] : List UInt8).length, 0, maxLengthOf bufSize⟩ = .ok _ :=
    putAll_helper (Int.le_refl 0) (by omega) (by omega)
  rw [Int.sub_zero, List.nil_append, List.nil_append, List.length_nil, Nat.zero_add, Int.zero_add] at put
  rw [vsnprintf_eq solid enough whole, put, ok_bind]
  dsimp only
  by_cases no_size : bufSize.toNat = 0
  case pos =>
    have none_fit : (maxLengthOf bufSize).toNat = 0 := by omega
    rw [if_neg fun some_size => absurd (bufSize_pos.mp some_size) (by omega), if_pos no_size, none_fit, Nat.min_zero]
    rfl
  case neg =>
    obtain ⟨old, split⟩ : ∃ old, buffer.drop (min text.length (maxLengthOf bufSize).toNat) =
        old :: buffer.drop (min text.length (maxLengthOf bufSize).toNat + 1) :=
      ⟨_, List.drop_eq_getElem_cons (by omega)⟩
    have place : min text.length (maxLengthOf bufSize).toNat = (text.take (maxLengthOf bufSize).toNat).length := by
      rw [List.length_take, Nat.min_comm]
    have ended (rest : List UInt8) : CArray.store (text.take (maxLengthOf bufSize).toNat ++ old :: rest)
        (min text.length (maxLengthOf bufSize).toNat) 0 = .ok (text.take (maxLengthOf bufSize).toNat ++ 0 :: rest) := by
      rw [place]
      exact CArray.store_append
    rw [if_pos (bufSize_pos.mpr (Nat.pos_of_ne_zero no_size)), if_neg no_size, split, ended]
    rfl

theorem vprintf_collect (solid : 0 ∉ l) (enough : l.length + 22 ≤ fuel)
    (whole : textOf (directives l) args = .ok text) : vprintf collect fuel (l ++ [0]) args [] = .ok text := by
  rw [vprintf_eq solid enough, perform_eq whole, putAll_collect, List.nil_append]

theorem toInt32_le (x : Int) : toInt32 x ≤ intMax := by
  unfold toInt32 intMax
  omega

/-- The length that is returned is an `int`. -/
theorem short_of_vsnprintf (solid : 0 ∉ l) (enough : l.length + 22 ≤ fuel)
    (whole : textOf (directives l) args = .ok text) {out : CArray}
    (ran : vsnprintf fuel buffer bufSize (l ++ [0]) args = .ok (text.length, out)) : text.length ≤ intMax := by
  rw [vsnprintf_eq solid enough whole] at ran
  obtain ⟨aux, put, rest⟩ := bind_eq_ok ran
  obtain ⟨out', -, returned⟩ := bind_eq_ok rest
  have counted : aux.length = toInt32 (0 + text.length) := length_of_putAll put rfl
  have same : aux.length = text.length := congrArg Prod.fst (Except.ok.inj returned)
  rw [← same, counted]
  exact toInt32_le _

/-- With a negative `max_length`, nothing but the terminating zero is stored. -/
theorem empty_of_large (large : 2 ^ 31 < bufSize.toNat) (solid : 0 ∉ l) (enough : l.length + 22 ≤ fuel)
    (whole : textOf (directives l) args = .ok text) (short : text.length ≤ intMax)
    (ran : vsnprintf fuel (List.replicate bufSize.toNat 1) bufSize (l ++ [0]) args =
      .ok (text.length, stored (List.replicate bufSize.toNat 1) bufSize.toNat text)) : text = [] := by
  have none_fit : (maxLengthOf bufSize).toNat = 0 := maxLengthOf_gt large
  have size : bufSize.toNat ≠ 0 := by omega
  rw [vsnprintf_short solid enough whole short (Nat.le_of_eq List.length_replicate.symm), if_neg size, none_fit,
    stored, if_neg size] at ran
  have same := congrArg Prod.snd (Except.ok.inj ran)
  dsimp only at same
  unfold intMax at short
  have all_fit : text.length ≤ bufSize.toNat - 1 := by omega
  rw [List.take_zero, List.nil_append, List.drop_replicate, List.take_of_length_le all_fit] at same
  cases text with
  | nil => rfl
  | cons ch text =>
      -- the place of the zero still holds what was in the buffer
      have behind := congrArg (fun buffer : CArray => buffer[(ch :: text).length]?) same
      rw [List.getElem?_append_right (Nat.le_refl _), Nat.sub_self, List.getElem?_cons_zero, List.length_cons,
        List.getElem?_cons_succ, List.getElem?_replicate, if_pos (by rw [List.length_cons] at short; omega)] at behind
      exact absurd (Option.some_injective _ behind) (by decide)

/-- A format is printed as it says, within it and as far as there is space, if it does not end
inside a conversion and its text is not too long for an `int`, and unless the space is. -/
theorem prints_iff (solid : 0 ∉ l) (enough : l.length + 22 ≤ fuel) (fits : Fits (directives l) args) :
    Prints fuel (l ++ [0]) args bufSize ↔
      Complete (directives l) ∧ (fullText (directives l) args).length ≤ intMax ∧
        (bufSize.toNat ≤ 2 ^ 31 ∨ fullText (directives l) args = []) := by
  constructor
  case mp =>
    rintro ⟨text, ran, stores⟩
    have complete : Complete (directives l) := by
      rw [vprintf_eq solid enough] at ran
      exact complete_of_perform ran
    obtain ⟨text', whole⟩ := textOf_of_fits complete fits
    obtain rfl : text' = text := Except.ok.inj ((vprintf_collect solid enough whole).symm.trans ran)
    have full : fullText (directives l) args = text' := by
      rw [fullText, whole]
      rfl
    have stored_ones := stores (List.replicate bufSize.toNat 1) (Nat.le_of_eq List.length_replicate.symm)
    have short := short_of_vsnprintf solid enough whole stored_ones
    refine ⟨complete, full ▸ short, ?_⟩
    rw [full]
    refine or_iff_not_imp_left.mpr fun large => ?_
    exact empty_of_large (Nat.lt_of_not_le large) solid enough whole short stored_ones
  case mpr =>
    rintro ⟨complete, short, space⟩
    obtain ⟨text, whole⟩ := textOf_of_fits complete fits
    have full : fullText (directives l) args = text := by
      rw [fullText, whole]
      rfl
    rw [full] at short space
    refine ⟨text, vprintf_collect solid enough whole, fun buffer room => ?_⟩
    rcases space with small | rfl
    case inl =>
      have all_fit : (maxLengthOf bufSize).toNat = bufSize.toNat - 1 := maxLengthOf_le small
      rw [vsnprintf_short solid enough whole short room, all_fit, stored]
    case inr =>
      rw [vsnprintf_short solid enough whole short room, stored, List.take_nil, List.take_nil, List.length_nil,
        Nat.zero_min, Nat.zero_min]

/-- "a%*d" of 3 and 7: the text is "a  7", and a buffer of 3 bytes is too small for it. -/
theorem prints_decimal : Prints 26 [0x61, 0x25, 0x2a, 0x64, 0] [⟨.word, 3⟩, ⟨.word, 7⟩] 3 ∧
    fullText (directives [0x61, 0x25, 0x2a, 0x64]) [⟨.word, 3⟩, ⟨.word, 7⟩] = [0x61, 0x20, 0x20, 0x37] := by
  have scanned : scanSpecification [0x2a, 0x64] = (⟨[], .star, none, .int⟩, [0x64]) := rfl
  have parts : directives [0x61, 0x25, 0x2a, 0x64] =
      [.char 0x61, .conversion ⟨[], .star, none, .int⟩ 0x64] := by
    rw [directives_char (by decide)]
    refine congrArg _ ((directives_conversion (by decide) scanned).trans ?_)
    rw [directives]
  have fits : Fits (directives [0x61, 0x25, 0x2a, 0x64]) [⟨.word, 3⟩, ⟨.word, 7⟩] := by
    rw [parts]
    exact ⟨[], rfl⟩
  have complete : Complete (directives [0x61, 0x25, 0x2a, 0x64]) := by
    rw [parts]
    exact fun spec => by simp
  have text : fullText (directives [0x61, 0x25, 0x2a, 0x64]) [⟨.word, 3⟩, ⟨.word, 7⟩] =
      [0x61, 0x20, 0x20, 0x37] := by
    rw [parts]
    decide
  have short : (fullText (directives [0x61, 0x25, 0x2a, 0x64]) [⟨.word, 3⟩, ⟨.word, 7⟩]).length ≤ intMax := by
    rw [text]
    decide
  exact ⟨(prints_iff (l := [0x61, 0x25, 0x2a, 0x64]) (by decide) (by decide) fits).mpr
    ⟨complete, short, .inl (by decide)⟩, text⟩

/-- "%", where the zero is taken for the conversion character. -/
theorem not_prints_percent : Fits (directives [0x25]) [] ∧ ∀ fuel, 23 ≤ fuel →
    vprintf collect fuel [0x25, 0] [] [] = .error (.outOfBounds .read) ∧
      ∀ bufSize, ¬ Prints fuel [0x25, 0] [] bufSize := by
  have scanned : scanSpecification [] = (⟨[], .digits [], none, .int⟩, []) := rfl
  have parts : directives [0x25] = [.unfinished ⟨[], .digits [], none, .int⟩] :=
    directives_unfinished (by decide) scanned
  refine ⟨?_, fun fuel enough => ?_⟩
  · rw [parts]
    exact ⟨[], rfl⟩
  have behind : vprintf collect fuel [0x25, 0] [] [] = .error (.outOfBounds .read) := by
    refine (vprintf_eq (l := [0x25]) (by decide) enough).trans ?_
    rw [parts]
    rfl
  refine ⟨behind, fun bufSize => ?_⟩
  rintro ⟨text, ran, -⟩
  rw [behind] at ran
  cases ran

end Main

section Octal
variable {width : Nat} {value : UInt64}

/-- A conversion with the flag `0` and a width. -/
def octalConversion (width : Nat) : PrintfConversion := ⟨flagsOf [0x30], width, -1, .int⟩

theorem digitChar_octal {d : Nat} (small : d < 8) : digitChar baseO d = UInt8.ofNat (48 + d) := by
  have all : ∀ d < 8, digitChar baseO d = UInt8.ofNat (48 + d) := by decide
  exact all d small

theorem number_octal : (number value baseO (octalConversion width)).reverse =
    List.replicate (1 - (Nat.digits 8 value.toNat).length) 0x30 ++
      (Nat.digits 8 value.toNat).reverse.map fun d => UInt8.ofNat (48 + d) := by
  have own : ownDigits value baseO (octalConversion width) =
      (Nat.digits 8 value.toNat).map fun d => UInt8.ofNat (48 + d) := by
    have off : (octalConversion width).flags.group = false := rfl
    rw [ownDigits, grouped_of_off off]
    exact List.map_congr_left fun d mem => digitChar_octal (Nat.digits_lt_base (by decide) mem)
  have no_zero (n : Nat) : octalZero baseO (octalConversion width) n = 0 :=
    if_neg fun all => Bool.false_ne_true all.1
  rw [number, no_zero, own, List.length_map, List.reverse_append, List.reverse_replicate, List.map_reverse]
  rfl

theorem integerText_octal (some_digit : 0 < width) (int : width ≤ intMax) :
    integerText value false false baseO (octalConversion width) = numeral 8 width value.toNat := by
  have size : (number value baseO (octalConversion width)).reverse.length = _ := congrArg List.length number_octal
  rw [List.length_reverse, List.length_append, List.length_replicate, List.length_map, List.length_reverse,
    number_length] at size
  have body : bodyLength value false false baseO (octalConversion width) =
      numberLength value baseO (octalConversion width) := Nat.zero_add _
  have short : bodyLength value false false baseO (octalConversion width) ≤ 2 ^ 31 :=
    Nat.le_trans bodyLength_le (by decide)
  have pad : padding width (bodyLength value false false baseO (octalConversion width)) +
      (1 - (Nat.digits 8 value.toNat).length) = width - (Nat.digits 8 value.toNat).length := by
    rw [padding_of_range short (by omega) int, body, size]
    omega
  have text : integerText value false false baseO (octalConversion width) =
      List.replicate (padding width (bodyLength value false false baseO (octalConversion width))) 0x30 ++
        (number value baseO (octalConversion width)).reverse := List.append_nil _
  rw [text, number_octal, ← List.append_assoc, List.replicate_append_replicate, pad, numeral, List.leftpad,
    List.length_map, List.length_reverse]

theorem vsnprintf_exact {l : List UInt8} {args : List Arg} {text : List UInt8} {fuel : Nat} {buffer : CArray}
    {bufSize : UInt32} (solid : 0 ∉ l) (enough : l.length + 22 ≤ fuel)
    (whole : textOf (directives l) args = .ok text) (size : buffer.length = text.length + 1)
    (same : bufSize.toNat = text.length + 1) (short : text.length < 2 ^ 31) :
    vsnprintf fuel buffer bufSize (l ++ [0]) args = .ok (text.length, text ++ [0]) := by
  have int : text.length ≤ intMax := by
    unfold intMax
    omega
  have all_fit : (maxLengthOf bufSize).toNat = text.length := by
    rw [maxLengthOf_le (by omega), same, Nat.add_sub_cancel]
  rw [vsnprintf_short solid enough whole int (by omega), if_neg (by omega), all_fit, List.take_length, Nat.min_self,
    List.drop_of_length_le (by omega)]

theorem textOf_octal {digits : List UInt8} (field : digits = [0x37] ∧ width = 7 ∨ digits = [0x31, 0x31] ∧ width = 11)
    {value : UInt32} : textOf (directives (percent :: 0x30 :: digits ++ [0x6f])) [⟨.word, value⟩] =
      .ok (numeral 8 width value.toNat) := by
  have positive : 0 < width := by omega
  have int : (width : Int) ≤ intMax := by
    unfold intMax
    omega
  have scanned : scanSpecification (0x30 :: digits ++ [0x6f]) = (⟨[0x30], .digits digits, none, .int⟩, [0x6f]) := by
    rcases field with ⟨rfl, rfl⟩ | ⟨rfl, rfl⟩ <;> rfl
  have number : numberOf digits = width := by
    rcases field with ⟨rfl, rfl⟩ | ⟨rfl, rfl⟩ <;> decide
  have read : (⟨[0x30], .digits digits, none, .int⟩ : Specification).read [⟨.word, value⟩] =
      .ok (octalConversion width, [⟨.word, value⟩]) := by
    rw [Specification.read, Number.read, number]
    rcases field with ⟨rfl, rfl⟩ | ⟨rfl, rfl⟩ <;> rfl
  have put : (meaning 0x6f (octalConversion width)).read [⟨.word, value⟩] =
      .ok (integerText value.toUInt64 false false baseO (octalConversion width), []) := rfl
  have plain : (0x30 :: digits ++ [0x6f]).headD 0 ≠ percent := by
    rw [List.cons_append, List.headD_cons]
    decide
  rw [List.cons_append, directives_conversion plain scanned, directives, textOf, read, ok_bind]
  dsimp only
  rw [put, ok_bind, integerText_octal positive int, UInt32.toNat_toUInt64]
  exact congrArg Except.ok (List.append_nil _)

/-- "%07o" and "%011o", with which `ustar_make_header` writes the numerals of a header, in fields of 8 and 12
bytes. -/
theorem vsnprintf_octal {digits : List UInt8} (field : digits = [0x37] ∧ width = 7 ∨ digits = [0x31, 0x31] ∧ width = 11)
    {value : UInt32} (fits : value.toNat < 8 ^ width) {fuel : Nat} (enough : 27 ≤ fuel) {buffer : CArray}
    (size : buffer.length = width + 1) :
    vsnprintf fuel buffer (UInt32.ofNat (width + 1)) (percent :: 0x30 :: digits ++ [0x6f] ++ [0]) [⟨.word, value⟩] =
      .ok (width, numeral 8 width value.toNat ++ [0]) := by
  have length : (numeral 8 width value.toNat).length = width := numeral_length (by decide) fits
  have solid : 0 ∉ percent :: 0x30 :: digits ++ [0x6f] := by
    rcases field with ⟨rfl, rfl⟩ | ⟨rfl, rfl⟩ <;> decide
  have few : (percent :: 0x30 :: digits ++ [0x6f]).length + 22 ≤ fuel := by
    rcases field with ⟨rfl, rfl⟩ | ⟨rfl, rfl⟩ <;> exact Nat.le_trans (by decide) enough
  have word : (UInt32.ofNat (width + 1)).toNat = width + 1 := by
    rcases field with ⟨rfl, rfl⟩ | ⟨rfl, rfl⟩ <;> rfl
  rw [vsnprintf_exact solid few (textOf_octal field) (by omega) (by omega) (by omega), length]

end Octal
end CS162.Pintos.Stdio
