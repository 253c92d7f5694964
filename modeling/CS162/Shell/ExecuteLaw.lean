import CS162.Shell.Execute
import CS162.Shell.TokenizerLaw

/-!
Which command lines the shell runs without a wrong access: the shape of the tokens, the lengths
of names and stages, and a PATH to look in. The processes are those of the pipeline.
-/

namespace CS162.Shell
namespace Execute
open CS162.Library Tokenizer

section Tokens
variable {env : Env} {argv tokens rest : List Str} {token lastToken : Str} {launch : Launch}

theorem strcpy_of_lt {size : Nat} {s : Str} (fits : s.length < size) : strcpy size s = .ok s := if_pos fits

theorem strcpy_of_le {size : Nat} {s : Str} (long : size ≤ s.length) : strcpy size s = .error (.outOfBounds .write) :=
  if_neg (Nat.not_lt.mpr long)

theorem args_nil : args [] = [] := rfl

theorem args_cons_of_redirection (redirection : isRedirection token = true) : args (token :: tokens) = [] :=
  List.takeWhile_cons_of_neg (by simp [redirection])

theorem args_cons (other : isRedirection token = false) : args (token :: tokens) = token :: args tokens :=
  List.takeWhile_cons_of_pos (by simp [other])

theorem storeArgs_eq :
    storeArgs argv tokens =
      if argv.length + (args tokens).length < 1024 then .ok (argv ++ args tokens, tokens.drop (args tokens).length)
      else .error (.outOfBounds .write) := by
  induction tokens generalizing argv with
  | nil =>
      rw [storeArgs, args_nil, List.append_nil]
      rfl
  | cons token tokens ih =>
      rw [storeArgs]
      cases redirection : isRedirection token with
      | true =>
          rw [args_cons_of_redirection redirection, List.append_nil, if_pos rfl]
          rfl
      | false =>
          rw [args_cons redirection, ih, if_neg Bool.false_ne_true, List.append_assoc, List.length_append,
            List.length_singleton, List.length_cons, Nat.add_assoc, Nat.add_comm 1]
          by_cases room : argv.length + ((args tokens).length + 1) < 1024
          · rw [if_pos (by omega), if_pos room, if_pos room]
            rfl
          · rw [if_neg room, ite_self, if_neg room]

theorem redirect_cons (tokens : List Str) (redirection : isRedirection lastToken = true) (fits : token.length < 100)
    (launch : Launch) :
    ∃ launch', redirect (some lastToken) (token :: tokens) launch = redirect (some token) tokens launch' := by
  rw [redirect, strcpy_of_lt fits]
  by_cases less : lastToken = lessThan
  · exact ⟨{ launch with input := some token }, if_pos less⟩
  · have greater : lastToken = greaterThan := (of_decide_eq_true redirection).resolve_left less
    exact ⟨{ launch with output := some token }, (if_neg less).trans (if_pos greater)⟩

theorem redirect_cons_of_le (redirection : isRedirection lastToken = true) (long : 100 ≤ token.length)
    (launch : Launch) :
    redirect (some lastToken) (token :: tokens) launch = .error (.outOfBounds .write) := by
  rw [redirect, strcpy_of_le long]
  by_cases less : lastToken = lessThan
  · exact if_pos less
  · have greater : lastToken = greaterThan := (of_decide_eq_true redirection).resolve_left less
    exact (if_neg less).trans (if_pos greater)

theorem redirect_cons_of_not (other : isRedirection lastToken = false) (launch : Launch) :
    redirect (some lastToken) (token :: tokens) launch = redirect (some token) tokens launch := by
  have neither : ¬ (lastToken = lessThan ∨ lastToken = greaterThan) := of_decide_eq_false other
  rw [redirect, if_neg fun less => neither (.inl less), if_neg fun greater => neither (.inr greater)]

theorem filesFit_cons :
    FilesFit (lastToken :: token :: tokens) ↔
      (isRedirection lastToken → token.length ≤ 99) ∧ FilesFit (token :: tokens) := by
  constructor
  · exact fun fit => ⟨fit _ _ List.mem_cons_self, fun operator file inside =>
      fit operator file (List.mem_cons_of_mem _ inside)⟩
  · rintro ⟨first, fit⟩ operator file inside
    obtain same | inside := List.mem_cons.mp inside
    · cases same
      exact first
    · exact fit operator file inside

theorem redirect_isOk_iff :
    (∃ done, redirect (some lastToken) tokens launch = .ok done) ↔ FilesFit (lastToken :: tokens) := by
  induction tokens generalizing lastToken launch with
  | nil => exact iff_of_true ⟨launch, rfl⟩ fun _ _ inside => absurd inside List.not_mem_nil
  | cons token tokens ih =>
      rw [filesFit_cons]
      cases redirection : isRedirection lastToken with
      | false =>
          rw [redirect_cons_of_not redirection, ih]
          exact ⟨fun fit => ⟨nofun, fit⟩, fun fit => fit.2⟩
      | true =>
          by_cases fits : token.length ≤ 99
          · obtain ⟨launch', onward⟩ := redirect_cons tokens redirection (Nat.lt_succ_of_le fits) launch
            rw [onward, ih]
            exact ⟨fun fit => ⟨fun _ => fits, fit⟩, fun fit => fit.2⟩
          · rw [redirect_cons_of_le redirection (Nat.lt_of_not_le fits)]
            exact iff_of_false nofun fun fit => fits (fit.1 rfl)

theorem isRedirection_of_mem_args (inside : token ∈ args tokens) : isRedirection token = false := by
  have other := List.mem_takeWhile_imp inside
  rwa [Bool.not_eq_true'] at other

theorem filesFit_append {front : List Str} (others : ∀ token ∈ front, isRedirection token = false) :
    FilesFit (front ++ tokens) ↔ FilesFit tokens := by
  induction front with
  | nil => rfl
  | cons token front ih =>
      obtain ⟨other, others⟩ := List.forall_mem_cons.mp others
      rw [← ih others, List.cons_append]
      cases front ++ tokens with
      | nil =>
          exact iff_of_true (fun _ _ inside => absurd inside List.not_mem_nil) fun _ _ inside =>
            absurd inside List.not_mem_nil
      | cons next rest =>
          rw [filesFit_cons, other]
          exact ⟨fun fit => fit.2, fun fit => ⟨nofun, fit⟩⟩

theorem args_append_drop (tokens : List Str) : args tokens ++ tokens.drop (args tokens).length = tokens :=
  List.prefix_iff_eq_append.mp (List.takeWhile_prefix _)

end Tokens

section Processes
variable {env : Env} {tokens more arguments : List Str} {program cmd : Str} {launch : Launch}
  {execv : Str → List Str → Bool}

theorem tryEntries_cons (entry : Str) :
    tryEntries execv program arguments (entry :: more) =
      if (entry ++ [slash] ++ program).length < 1024 then
        if execv (entry ++ [slash] ++ program) ((entry ++ [slash] ++ program) :: arguments) then
          .ok [entry ++ [slash] ++ program]
        else (tryEntries execv program arguments more).map ((entry ++ [slash] ++ program) :: ·)
      else .error (.outOfBounds .write) := by
  have lengths : (entry ++ [slash] ++ program).length = entry.length + 1 + program.length := by
    rw [List.length_append, List.length_append, List.length_singleton]
  rw [tryEntries]
  by_cases first : entry.length < 1024
  · rw [strcpy_of_lt first, ok_bind]
    by_cases second : (entry ++ [slash]).length < 1024
    · rw [strcpy_of_lt second, ok_bind]
      by_cases third : (entry ++ [slash] ++ program).length < 1024
      · rw [strcpy_of_lt third, ok_bind, if_pos third]
        rfl
      · rw [strcpy_of_le (Nat.le_of_not_lt third), if_neg third, error_bind]
    · rw [List.length_append, List.length_singleton] at second
      rw [strcpy_of_le (by rw [List.length_append, List.length_singleton]; omega), if_neg (by omega), error_bind]
  · rw [strcpy_of_le (by omega), if_neg (by omega), error_bind]

theorem tryEntries_isOk_iff :
    (∃ tried, tryEntries execv program arguments more = .ok tried) ↔ Fit execv program arguments more := by
  induction more with
  | nil => exact iff_of_true ⟨[], rfl⟩ trivial
  | cons entry more ih =>
      rw [tryEntries_cons, Fit]
      by_cases fits : (entry ++ [slash] ++ program).length < 1024
      · rw [if_pos fits]
        cases runs : execv (entry ++ [slash] ++ program) ((entry ++ [slash] ++ program) :: arguments) with
        | true => exact iff_of_true ⟨_, if_pos rfl⟩ ⟨fits, nofun⟩
        | false =>
            rw [if_neg Bool.false_ne_true]
            refine Iff.trans ⟨fun ⟨_, done⟩ => ?_, fun ⟨_, done⟩ => ?_⟩
              (ih.trans ⟨fun fit => ⟨fits, fun _ => fit⟩, fun fit => fit.2 rfl⟩)
            · obtain ⟨tried, done, -⟩ := map_ok done
              exact ⟨tried, done⟩
            · exact ⟨_, congrArg _ done⟩
      · rw [if_neg fits]
        exact iff_of_false nofun fun fit => fits fit.1

theorem found_cons (away : slash ∉ program) :
    Found env (program :: arguments) ↔
      ∃ path, env.path = some path ∧ program.length ≤ 99 ∧ Fit env.execv program arguments (entries path) := by
  refine ⟨fun found => found _ _ rfl away, fun found program' rest' same _ => ?_⟩
  cases same
  exact found

theorem launchProgram_isOk_iff {argv : List Str} :
    (∃ done, launchProgram env argv launch = .ok done) ↔ argv ≠ [] ∧ Found env argv := by
  cases argv with
  | nil => exact iff_of_false nofun fun found => found.1 rfl
  | cons program rest =>
      rw [launchProgram]
      by_cases direct : slash ∈ program
      · rw [if_pos direct]
        refine iff_of_true ⟨_, rfl⟩ ⟨List.cons_ne_nil _ _, fun program' rest' same away => ?_⟩
        cases same
        exact absurd direct away
      rw [if_neg direct, found_cons direct]
      cases env.path with
      | none => exact iff_of_false nofun fun ⟨_, _, absent, _⟩ => nomatch absent
      | some path =>
          dsimp only
          by_cases fits : program.length ≤ 99
          · rw [strcpy_of_lt (Nat.lt_succ_of_le fits), ok_bind, exists_bind_ok]
            constructor
            · rintro ⟨tried, done, -⟩
              exact ⟨List.cons_ne_nil _ _, path, rfl, fits, tryEntries_isOk_iff.mp ⟨tried, done⟩⟩
            · rintro ⟨-, _, same, -, fit⟩
              cases same
              obtain ⟨tried, done⟩ := tryEntries_isOk_iff.mpr fit
              exact ⟨tried, done, _, rfl⟩
          · rw [strcpy_of_le (Nat.lt_of_not_le fits), error_bind]
            exact iff_of_false nofun fun ⟨_, _, _, fits', _⟩ => fits fits'

theorem executeTokens_isOk_iff : (∃ done, executeTokens env tokens = .ok done) ↔ Sound env tokens := by
  rw [executeTokens, storeArgs_eq, List.nil_append, List.length_nil, Nat.zero_add]
  by_cases few : (args tokens).length ≤ 1023
  case neg =>
    rw [if_neg (by omega)]
    exact iff_of_false nofun fun sound => few sound.few
  have whole := args_append_drop tokens
  rw [if_pos (by omega), ok_bind, exists_bind_ok]
  obtain none_left | ⟨front, last, some_args⟩ := (args tokens).eq_nil_or_concat
  · refine iff_of_false ?_ fun sound => sound.command none_left
    rintro ⟨launch, -, done⟩
    exact (launchProgram_isOk_iff.mp done).1 none_left
  · rw [List.concat_eq_append] at some_args
    have others : ∀ token ∈ front, isRedirection token = false := fun token inside =>
      isRedirection_of_mem_args (show token ∈ args tokens by rw [some_args]; exact List.mem_append_left _ inside)
    have split : front ++ last :: tokens.drop (args tokens).length = tokens := by
      rw [List.append_cons, ← some_args]
      exact whole
    have files : FilesFit tokens ↔ FilesFit (last :: tokens.drop (args tokens).length) := by
      conv_lhs => rw [← split]
      exact filesFit_append others
    have last_arg : (args tokens).getLast? = some last := by
      rw [some_args, List.getLast?_append]
      rfl
    rw [last_arg]
    constructor
    · rintro ⟨launch, redirected, done⟩
      obtain ⟨command, found⟩ := launchProgram_isOk_iff.mp done
      exact ⟨command, few, files.mpr (redirect_isOk_iff.mp ⟨launch, redirected⟩), found⟩
    · intro sound
      obtain ⟨launch, redirected⟩ := redirect_isOk_iff.mpr (files.mp sound.files)
      exact ⟨launch, redirected, launchProgram_isOk_iff.mpr ⟨sound.command, sound.found⟩⟩

/-- Not stopped by `abort`. -/
abbrev Unaborted {α : Type} (x : Except Stop α) : Prop := Ends (· ≠ .aborted) (fun _ => True) x

theorem strcpy_unaborted {size : Nat} {s : Str} : Unaborted (strcpy size s) :=
  .ite (fun _ => .ok trivial) fun _ => .error nofun

theorem redirect_unaborted {lastToken : Option Str} : Unaborted (redirect lastToken tokens launch) := by
  induction tokens generalizing lastToken launch with
  | nil => cases lastToken <;> exact .ok trivial
  | cons token tokens ih =>
      cases lastToken with
      | none => exact .error nofun
      | some lastToken =>
          refine .ite (fun _ => strcpy_unaborted.bind fun _ _ => ih) fun _ => ?_
          exact .ite (fun _ => strcpy_unaborted.bind fun _ _ => ih) fun _ => ih

theorem tryEntries_unaborted : Unaborted (tryEntries execv program arguments more) := by
  induction more with
  | nil => exact .ok trivial
  | cons entry more ih =>
      rw [tryEntries_cons]
      exact .ite (fun _ => .ite (fun _ => .ok trivial) fun _ => ih.map fun _ _ => trivial) fun _ => .error nofun

theorem launchProgram_unaborted {argv : List Str} : Unaborted (launchProgram env argv launch) := by
  cases argv with
  | nil => exact .error nofun
  | cons program arguments =>
      refine .ite (fun _ => .ok trivial) fun _ => ?_
      cases env.path with
      | none => exact .error nofun
      | some path => exact strcpy_unaborted.bind fun _ _ => tryEntries_unaborted.bind fun _ _ => .ok trivial

theorem executeTokens_unaborted : Unaborted (executeTokens env tokens) := by
  rw [executeTokens, storeArgs_eq]
  have stored : Unaborted (if ([] : List Str).length + (args tokens).length < 1024 then
      Except.ok ([] ++ args tokens, tokens.drop (args tokens).length) else .error (.outOfBounds .write)) :=
    .ite (fun _ => .ok trivial) fun _ => .error nofun
  exact stored.bind fun _ _ => redirect_unaborted.bind fun _ _ => launchProgram_unaborted

/-- A stage that the tokenizer cuts into words has to be sound; one that makes it abort
accesses nothing it must not. -/
theorem executeSingleProcess_safe_iff (short : cmd.length < 2 ^ 32) :
    Safe (executeSingleProcess env cmd) ↔ SoundStage env cmd := by
  have ends := tokenize_ends env.token short (Nat.lt_succ_self cmd.length)
  rw [executeSingleProcess, SoundStage]
  cases cut : tokenize env.token (cmd.length + 1) cmd with
  | error stop =>
      rw [error_bind]
      exact iff_of_true (.error (ends.stop cut)) nofun
  | ok tokens =>
      have only : (∀ tokens', Except.ok (ε := Stop) tokens = .ok tokens' → Sound env tokens') ↔ Sound env tokens :=
        ⟨fun sound => sound tokens rfl, fun sound _ same => Except.ok.inj same ▸ sound⟩
      rw [ok_bind, only, ← executeTokens_isOk_iff]
      cases executed : executeTokens env tokens with
      | ok done => exact iff_of_true (.ok trivial) ⟨done, rfl⟩
      | error stop =>
          have unaborted := executeTokens_unaborted.stop executed
          exact iff_of_false (fun safe => unaborted (safe.stop rfl)) nofun

end Processes

section Lines
variable {env : Env} {fork : Nat → Bool} {pipes : Nat} {line stage rest : Str} {c : UInt8}

theorem executeProgs_of_single (h : bar ∉ line ∨ line.head? = some bar) :
    executeProgs env fork pipes line = [executeSingleProcess env line] := by
  rw [executeProgs]
  refine if_pos ?_
  obtain none_left | first := h
  · exact findBar_of_not_mem none_left 0
  · cases line with
    | nil => cases first
    | cons c line => exact if_pos (Option.some.inj first)

/-- Behind a stage the character after the `'|'` is passed over. -/
theorem executeProgs_append (first : bar ∉ stage) (some_chars : stage ≠ []) (fits : stage.length ≤ 1023)
    (short : (stage ++ bar :: c :: rest).length ≤ 4095) :
    executeProgs env fork pipes (stage ++ bar :: c :: rest) =
      if fork pipes then executeSingleProcess env stage :: executeProgs env fork (pipes + 1) rest else [] := by
  have pos : findBar (stage ++ bar :: c :: rest) 0 = stage.length := by rw [findBar_append first, Nat.zero_add]
  have long := List.length_pos_of_ne_nil some_chars
  have behind : (stage ++ bar :: c :: rest).drop (stage.length + 2) = rest := by
    rw [← List.drop_drop, List.drop_left]
    rfl
  have length : (stage ++ bar :: c :: rest).length = stage.length + 2 + rest.length := by
    rw [List.length_append, List.length_cons, List.length_cons]
    omega
  rw [executeProgs]
  simp only [pos]
  rw [if_neg (Nat.ne_of_gt long), if_neg (by omega), dif_neg (by omega), if_neg (by omega), behind, List.take_left]

theorem executeProgs_long (first : bar ∉ stage) (long : 1024 ≤ stage.length) :
    executeProgs env fork pipes (stage ++ bar :: rest) = [.error (.outOfBounds .write)] := by
  have pos : findBar (stage ++ bar :: rest) 0 = stage.length := by rw [findBar_append first, Nat.zero_add]
  rw [executeProgs]
  simp only [pos]
  rw [if_neg (by omega), if_pos long]

theorem executeProgs_bar_last (first : bar ∉ stage) (some_chars : stage ≠ []) (fits : stage.length ≤ 1023) :
    executeProgs env fork pipes (stage ++ [bar]) = [.error (.outOfBounds .read)] := by
  have pos : findBar (stage ++ [bar]) 0 = stage.length := by rw [findBar_append first, Nat.zero_add]
  have long := List.length_pos_of_ne_nil some_chars
  rw [executeProgs]
  simp only [pos]
  rw [if_neg (Nat.ne_of_gt long), if_neg (by omega),
    dif_pos (by rw [List.length_append, List.length_singleton]; omega)]

/-- A line has one stage, or a first one that is not empty before a `'|'`. -/
theorem stage_cases (line : Str) :
    (bar ∉ line ∨ line.head? = some bar) ∨ ∃ stage rest, bar ∉ stage ∧ stage ≠ [] ∧ line = stage ++ bar :: rest := by
  obtain none_left | ⟨stage, rest, first, rfl⟩ := line_cases line
  · exact .inl (.inl none_left)
  · by_cases empty : stage = []
    · subst empty
      exact .inl (.inr rfl)
    · exact .inr ⟨stage, rest, first, empty, rfl⟩

/-- Over a line from stage to stage, as `execute_progs` goes. -/
theorem stage_induction {P : Nat → Str → Prop}
    (single : ∀ pipes line, bar ∉ line ∨ line.head? = some bar → P pipes line)
    (barLast : ∀ pipes stage, bar ∉ stage → stage ≠ [] → P pipes (stage ++ [bar]))
    (more : ∀ pipes stage c rest, bar ∉ stage → stage ≠ [] → P (pipes + 1) rest → P pipes (stage ++ bar :: c :: rest))
    (pipes : Nat) (line : Str) : P pipes line := by
  induction hn : line.length using Nat.strong_induction_on generalizing line pipes with
  | _ n ih =>
      obtain one | ⟨stage, rest, first, some_chars, rfl⟩ := stage_cases line
      · exact single pipes line one
      · cases rest with
        | nil => exact barLast pipes stage first some_chars
        | cons c rest =>
            refine more pipes stage c rest first some_chars (ih rest.length ?_ (pipes + 1) rest rfl)
            rw [← hn, List.length_append, List.length_cons, List.length_cons]
            omega

theorem first_bar_unique {stage' rest' : Str} (first : bar ∉ stage) (first' : bar ∉ stage')
    (same : stage ++ bar :: rest = stage' ++ bar :: rest') : stage = stage' ∧ rest = rest' := by
  have length : stage.length = stage'.length := by
    have pos : findBar (stage ++ bar :: rest) 0 = _ := findBar_append first 0
    rw [same, findBar_append first', Nat.zero_add, Nat.zero_add] at pos
    exact pos.symm
  obtain ⟨stages, rests⟩ := List.append_inj same length
  exact ⟨stages, (List.cons.inj rests).2⟩

theorem length_rest_le {n : Nat} (short : (stage ++ bar :: c :: rest).length ≤ n) : rest.length ≤ n := by
  rw [List.length_append, List.length_cons, List.length_cons] at short
  omega

/-- A stage before a `'|'` is neither all of the line nor empty. -/
theorem not_single (first : bar ∉ stage) (some_chars : stage ≠ []) :
    ¬ (bar ∉ stage ++ bar :: rest ∨ (stage ++ bar :: rest).head? = some bar) := by
  rintro (none_left | starts)
  · exact none_left (List.mem_append_right _ List.mem_cons_self)
  · obtain ⟨c, stage, rfl⟩ := List.exists_cons_of_ne_nil some_chars
    exact first (Option.some.inj starts ▸ List.mem_cons_self)

theorem executeProgs_eq_map {stdin : Stream} {calls : List Invocation} (short : line.length ≤ 4095)
    (runs : Shell.executeProgs fork pipes stdin line = .ok calls) :
    executeProgs env fork pipes line = calls.map fun call => executeSingleProcess env call.cmd := by
  induction pipes, line using stage_induction generalizing stdin calls with
  | single pipes line one =>
      have alone : Shell.executeProgs fork pipes stdin line = .ok [⟨line, stdin, .inherited⟩] := by
        obtain none_left | starts := one
        · exact executeProgs_of_not_mem none_left
        · cases line with
          | nil => cases starts
          | cons c line =>
              cases starts
              exact executeProgs_bar_cons
      cases alone.symm.trans runs
      exact executeProgs_of_single one
  | barLast pipes stage first some_chars =>
      by_cases fits : stage.length ≤ 1023
      · have pos : findBar (stage ++ [bar]) 0 = stage.length := by rw [findBar_append first, Nat.zero_add]
        have long := List.length_pos_of_ne_nil some_chars
        rw [Shell.executeProgs] at runs
        simp only [pos] at runs
        rw [if_neg (Nat.ne_of_gt long), if_neg (by omega),
          dif_pos (by rw [List.length_append, List.length_singleton]; omega)] at runs
        cases runs
      · rw [Shell.executeProgs_long first (Nat.lt_of_not_le fits)] at runs
        cases runs
  | more pipes stage c rest first some_chars ih =>
      by_cases fits : stage.length ≤ 1023
      · rw [Shell.executeProgs_append first some_chars (Nat.lt_succ_of_le fits)] at runs
        rw [executeProgs_append first some_chars fits short]
        cases forks : fork pipes with
        | false =>
            rw [forks] at runs
            cases runs
            rfl
        | true =>
            rw [forks, if_pos rfl] at runs
            obtain ⟨behind, onward, rfl⟩ := map_ok runs
            exact congrArg _ (ih (length_rest_le short) onward)
      · rw [Shell.executeProgs_long first (Nat.lt_of_not_le fits)] at runs
        cases runs

theorem sane_append_iff (first : bar ∉ stage) (some_chars : stage ≠ []) :
    Sane env fork pipes (stage ++ bar :: rest) ↔ stage.length ≤ 1023 ∧ ∃ c behind, rest = c :: behind ∧
      (fork pipes = true → SoundStage env stage ∧ Sane env fork (pipes + 1) behind) := by
  constructor
  · generalize whole : stage ++ bar :: rest = line
    rintro (⟨one, -⟩ | ⟨first', -, fits, sound, sane⟩)
    · exact absurd (whole ▸ one) (not_single first some_chars)
    · obtain ⟨rfl, rfl⟩ := first_bar_unique first first' whole
      exact ⟨fits, _, _, rfl, fun forks => ⟨sound forks, sane forks⟩⟩
  · rintro ⟨fits, c, behind, rfl, sound⟩
    exact .first first some_chars fits (fun forks => (sound forks).1) fun forks => (sound forks).2

/-- The lines whose processes all keep to their memory. -/
theorem executeProgs_safe_iff (short : line.length ≤ 4095) :
    (∀ outcome ∈ executeProgs env fork pipes line, Safe outcome) ↔ Sane env fork pipes line := by
  have stopped : ∀ fault, ¬ ∀ outcome ∈ [Except.error (.outOfBounds fault)], Safe outcome := fun fault safe =>
    nomatch (safe _ List.mem_cons_self).stop rfl
  induction pipes, line using stage_induction with
  | single pipes line one =>
      rw [executeProgs_of_single one, List.forall_mem_singleton, executeSingleProcess_safe_iff (by omega)]
      refine ⟨.last one, fun sane => ?_⟩
      cases sane with
      | last _ sound => exact sound
      | first first some_chars => exact absurd one (not_single first some_chars)
  | barLast pipes stage first some_chars =>
      rw [sane_append_iff first some_chars]
      refine iff_of_false ?_ fun ⟨_, _, _, nothing, _⟩ => nomatch nothing
      by_cases fits : stage.length ≤ 1023
      · rw [executeProgs_bar_last first some_chars fits]
        exact stopped _
      · rw [executeProgs_long first (Nat.lt_of_not_le fits)]
        exact stopped _
  | more pipes stage c rest first some_chars ih =>
      rw [sane_append_iff first some_chars]
      by_cases fits : stage.length ≤ 1023
      case neg =>
        rw [executeProgs_long first (Nat.lt_of_not_le fits)]
        exact iff_of_false (stopped _) fun sane => fits sane.1
      rw [executeProgs_append first some_chars fits short]
      cases forks : fork pipes with
      | false => exact iff_of_true (fun _ inside => absurd inside List.not_mem_nil) ⟨fits, c, rest, rfl, nofun⟩
      | true =>
          have behind :
              (∀ outcome ∈ executeProgs env fork (pipes + 1) rest, Safe outcome) ↔ Sane env fork (pipes + 1) rest :=
            ih (length_rest_le short)
          rw [if_pos rfl, List.forall_mem_cons, executeSingleProcess_safe_iff (by omega), behind]
          refine ⟨fun sane => ⟨fits, c, rest, rfl, fun _ => sane⟩, ?_⟩
          rintro ⟨-, c, behind, same, sane⟩
          cases same
          exact sane rfl

/-- A process whose PATH is `/bin`, and any of its programs. -/
def inBin : Env := ⟨.replicate nMax 0, some [0x2f, 0x62, 0x69, 0x6e], fun _ _ => true⟩

/-- `ls | wc` -/
def lsWc : Str := [0x6c, 0x73, 0x20, 0x7c, 0x20, 0x77, 0x63]

theorem soundStage_inBin {line program : Str}
    (words : (tokenize inBin.token (line.length + 1) line).toOption = some [program])
    (word : isRedirection program = false) (short : program.length ≤ 99) : SoundStage inBin line := by
  intro tokens split
  rw [split] at words
  cases words
  have only : args [program] = [program] := by simp [args, word]
  constructor
  case command =>
    rw [only]
    exact List.cons_ne_nil _ _
  case few =>
    rw [only]
    exact Nat.succ_le_succ (Nat.zero_le _)
  case files => exact fun operator file both => by simp at both
  case found =>
    rw [only]
    intro program' rest same _
    cases same
    refine ⟨_, rfl, short, ?_, fun never => by cases never⟩
    simp
    omega

theorem executeProgs_safe_lsWc : Sane inBin (fun _ => true) 0 lsWc ∧
    ∀ outcome ∈ executeProgs inBin (fun _ => true) 0 lsWc, Safe outcome := by
  have ls : SoundStage inBin [0x6c, 0x73, 0x20] :=
    @soundStage_inBin _ [0x6c, 0x73] (by decide +kernel) rfl (by decide)
  have wc : SoundStage inBin [0x77, 0x63] :=
    @soundStage_inBin _ [0x77, 0x63] (by decide +kernel) rfl (by decide)
  have first : bar ∉ [0x6c, 0x73, 0x20] := by decide
  have last : bar ∉ [0x77, 0x63] := by decide
  have sane : Sane inBin (fun _ => true) 0 lsWc :=
    .first first (List.cons_ne_nil _ _) (by decide) (fun _ => ls) fun _ => .last (.inl last) wc
  exact ⟨sane, (executeProgs_safe_iff (by decide)).mpr sane⟩

/-- A blank line has no program to look for. -/
theorem not_safe_of_blank :
    ¬ ∀ outcome ∈ executeProgs inBin (fun _ => true) 0 [0x0a], Safe outcome := by
  intro safe
  rw [executeProgs_of_single (.inl (by decide)), List.forall_mem_singleton] at safe
  have faults : executeSingleProcess inBin [0x0a] = .error .null := by
    rfl
  rw [faults] at safe
  cases safe with
  | error aborted => cases aborted

end Lines
end Execute
end CS162.Shell
