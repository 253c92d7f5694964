import CS162.Shell.Pipeline

/-!
Which pipelines the shell runs as they were typed. It passes over the character
behind each `'|'`, whatever that is, so the stages come out right exactly when each
`'|'` has white space behind it (and every `fork` succeeds). Otherwise the stage
behind the first `'|'` that has none loses its first character.
-/

namespace CS162.Shell

/-- The parts of a line between its `'|'`. -/
def stages (line : Str) : List Str := line.splitOn bar

/-- Stages that are not blank, each shorter than `cmd`. -/
def Proper (line : Str) : Prop := ∀ stage ∈ stages line, trim stage ≠ [] ∧ stage.length < 1024

/-- Calls from a standard input on, each with its output in a pipe of its own to
the next. -/
def Connected : Nat → Stream → List Invocation → Prop
  | _, _, [] => False
  | _, stdin, [last] => last.stdin = stdin ∧ last.stdout = .inherited
  | pipes, stdin, call :: calls =>
      call.stdin = stdin ∧ call.stdout = .writeEnd pipes ∧ Connected (pipes + 1) (.readEnd pipes) calls

/-- The calls are the stages of the line, up to white space around them, and each is
connected to the next. No fault occurs. -/
def RunsStages (fork : Nat → Bool) (pipes : Nat) (stdin : Stream) (line : Str) : Prop :=
  ∃ calls, executeProgs fork pipes stdin line = .ok calls ∧
    calls.map (fun call => trim call.cmd) = (stages line).map trim ∧ Connected pipes stdin calls

/-- Each `'|'` has white space behind it. -/
def Spaced (line : Str) : Prop :=
  ∀ front back, line = front ++ bar :: back → ∃ c rest, back = c :: rest ∧ isSpace c = true

section Stages
variable {line stage rest : Str} {c : UInt8}

theorem stages_of_not_mem (h : bar ∉ line) : stages line = [line] := List.splitOn_eq_singleton h

theorem stages_append (first : bar ∉ stage) (rest : Str) :
    stages (stage ++ bar :: rest) = stage :: stages rest := by
  have others : ∀ c ∈ stage, (c == bar) = false := by
    intro c inside
    exact beq_eq_false_iff_ne.mpr (fun same => first (same ▸ inside))
  rw [stages, List.splitOn_eq_splitOnP]
  exact List.splitOnP_append_cons_of_forall_mem (p := fun c => c == bar) others bar (beq_self_eq_true bar) rest

theorem stages_cons (other : c ≠ bar) : stages (c :: rest) = (stages rest).modifyHead (c :: ·) := by
  rw [stages, List.splitOn_cons_eq_if_modifyHead, if_neg (by simpa using other)]
  rfl

/-- The first stage of a line, and that it is what stands before the first `'|'`. -/
theorem stages_cases (line : Str) : ∃ first others, stages line = first :: others ∧
    (line = first ∨ ∃ back, line = first ++ bar :: back) ∧ bar ∉ first := by
  obtain none_left | ⟨stage, back, first, rfl⟩ := line_cases line
  · exact ⟨line, [], stages_of_not_mem none_left, .inl rfl, none_left⟩
  · exact ⟨stage, stages back, stages_append first back, .inr ⟨back, rfl⟩, first⟩

theorem space_ne_bar (h : isSpace c = true) : c ≠ bar := by
  intro same
  rw [same] at h
  exact absurd h (by decide)

theorem spaced_of_not_mem (h : bar ∉ line) : Spaced line := by
  intro front back split
  exact absurd (split ▸ List.mem_append_right front List.mem_cons_self) h

theorem spaced_append (first : bar ∉ stage) (space : isSpace c = true) :
    Spaced (stage ++ bar :: c :: rest) ↔ Spaced rest := by
  constructor
  · intro spaced front back split
    refine spaced (stage ++ bar :: c :: front) back ?_
    rw [split, List.append_assoc]
    rfl
  · intro spaced front back split
    obtain ⟨more, rfl, tail⟩ | ⟨more, rfl, tail⟩ := List.append_eq_append_iff.mp split
    · cases more with
      | nil =>
          cases tail
          exact ⟨c, rest, rfl, space⟩
      | cons d more =>
          cases more with
          | nil =>
              cases tail
              exact absurd rfl (space_ne_bar space)
          | cons e more =>
              cases tail
              exact spaced more back rfl
    · cases more with
      | nil =>
          cases tail
          exact ⟨c, rest, rfl, space⟩
      | cons d more =>
          cases tail
          exact absurd (List.mem_append_right front List.mem_cons_self) first

theorem count_append (first : bar ∉ stage) (other : c ≠ bar) :
    (stage ++ bar :: c :: rest).count bar = rest.count bar + 1 := by
  rw [List.count_append, List.count_eq_zero_of_not_mem first, List.count_cons_self,
    List.count_cons_of_ne other, Nat.zero_add]

end Stages

section Calls
variable {fork : Nat → Bool} {pipes : Nat} {stdin : Stream} {line stage rest : Str} {c : UInt8}

theorem first_call {calls : List Invocation} (h : executeProgs fork pipes stdin line = .ok calls) :
    calls = [] ∨ ∃ call others, calls = call :: others ∧
      ((stages line).head? = some call.cmd ∨ ∃ back, line = bar :: back ∧ call.cmd = line) := by
  obtain none_left | ⟨stage, back, first, rfl⟩ := line_cases line
  · rw [executeProgs_of_not_mem none_left] at h
    cases h
    refine .inr ⟨_, [], rfl, .inl ?_⟩
    rw [stages_of_not_mem none_left]
    rfl
  · cases stage with
    | nil =>
        rw [List.nil_append, executeProgs_bar_cons] at h
        cases h
        exact .inr ⟨_, [], rfl, .inr ⟨back, rfl, rfl⟩⟩
    | cons d stage =>
        rw [stages_append first _]
        by_cases long : 1024 ≤ (d :: stage).length
        · rw [executeProgs_long first long] at h
          cases h
        · cases back with
          | nil =>
              have pos : findBar (d :: stage ++ [bar]) 0 = (d :: stage).length := by
                rw [findBar_append first, Nat.zero_add]
              have some_chars : (d :: stage).length ≠ 0 := Nat.succ_ne_zero _
              rw [executeProgs] at h
              simp only [pos] at h
              rw [if_neg some_chars, if_neg long, dif_pos (by simp)] at h
              cases h
          | cons c rest =>
              rw [executeProgs_append first (List.cons_ne_nil d stage) (Nat.lt_of_not_le long)] at h
              split at h
              · obtain ⟨others, -, made⟩ := Library.map_ok h
                exact .inr ⟨_, others, made.symm, .inl rfl⟩
              · cases h
                exact .inl rfl

/-- A line whose first character was passed over, though it is not white space, does
not run its stages. -/
theorem not_runs_without_first (other : c ≠ bar) (solid : isSpace c = false)
    {calls : List Invocation} (h : executeProgs fork pipes stdin rest = .ok calls) :
    calls.map (fun call => trim call.cmd) ≠ (stages (c :: rest)).map trim := by
  obtain ⟨first, others, split, -, -⟩ := stages_cases rest
  have split' : stages (c :: rest) = (c :: first) :: others := by
    rw [stages_cons other, split]
    rfl
  rw [split', List.map_cons]
  obtain none_left | ⟨call, calls', rfl, is_first | ⟨back, line, whole⟩⟩ := first_call h
  · rw [none_left]
    exact (List.cons_ne_nil _ _).symm
  · intro same
    rw [split] at is_first
    cases is_first
    exact trim_ne_trim_cons solid (List.cons.inj same).1
  · -- The stage was this one character, and the `'|'` behind it is taken for a command.
    intro same
    have start : trim call.cmd = trim (c :: first) := (List.cons.inj same).1
    have solid_bar : isSpace bar = false := by decide
    rw [whole, line, trim_cons_of_not_space solid_bar, trim_cons_of_not_space solid] at start
    exact other (List.cons.inj start).1.symm

/-- The stage behind a proper first one starts with a character that is no `'|'`. -/
theorem proper_cases {back : Str} (first : bar ∉ stage) (proper : Proper (stage ++ bar :: back)) :
    stage ≠ [] ∧ stage.length < 1024 ∧ Proper back ∧ ∃ c rest, back = c :: rest ∧ c ≠ bar := by
  have split := stages_append first back
  have mine := proper stage (split ▸ List.mem_cons_self)
  have proper_back : Proper back := fun s hs => proper s (split ▸ List.mem_cons_of_mem _ hs)
  have some_chars : stage ≠ [] := by
    intro none_left
    rw [none_left] at mine
    exact mine.1 rfl
  refine ⟨some_chars, mine.2, proper_back, ?_⟩
  cases back with
  | nil => exact absurd rfl (proper_back [] List.mem_cons_self).1
  | cons c rest =>
      refine ⟨c, rest, rfl, fun same => ?_⟩
      have empty : stages (c :: rest) = [] :: stages rest := by
        rw [same]
        exact stages_append List.not_mem_nil rest
      exact absurd rfl (proper_back [] (empty ▸ List.mem_cons_self)).1

/-- White space in front of the first stage changes neither the stages, up to white
space, nor that they are proper. -/
theorem stages_cons_space (space : isSpace c = true) (proper : Proper (c :: rest)) :
    (stages (c :: rest)).map trim = (stages rest).map trim ∧ Proper rest := by
  obtain ⟨first, others, split_rest, -, -⟩ := stages_cases rest
  have split : stages (c :: rest) = (c :: first) :: others := by
    rw [stages_cons (space_ne_bar space), split_rest]
    rfl
  constructor
  · rw [split, split_rest, List.map_cons, List.map_cons, trim_cons_of_space space]
  · intro s hs
    rw [split_rest] at hs
    cases hs with
    | head =>
        have mine := proper (c :: first) (split ▸ List.mem_cons_self)
        rw [trim_cons_of_space space, List.length_cons] at mine
        exact ⟨mine.1, Nat.lt_of_succ_lt mine.2⟩
    | tail _ hs => exact proper s (split ▸ List.mem_cons_of_mem _ hs)

theorem forks_succ {n : Nat} (works : fork pipes = true) : (∀ k < n + 1, fork (pipes + k) = true) ↔
    ∀ k < n, fork (pipes + 1 + k) = true := by
  constructor
  · intro all k hk
    rw [Nat.add_assoc, Nat.add_comm 1 k]
    exact all (k + 1) (Nat.succ_lt_succ hk)
  · intro all k hk
    cases k with
    | zero => exact works
    | succ k =>
        have later := all k (Nat.lt_of_succ_lt_succ hk)
        rwa [Nat.add_assoc, Nat.add_comm 1 k] at later

theorem not_runsStages_of_fork_fails (first : bar ∉ stage) (some_chars : stage ≠ [])
    (short : stage.length < 1024) (fails : fork pipes = false) :
    ¬ RunsStages fork pipes stdin (stage ++ bar :: c :: rest) := by
  intro runs
  obtain ⟨calls, made, -, connected⟩ := runs
  rw [executeProgs_append first some_chars short, fails, if_neg Bool.false_ne_true] at made
  cases made
  exact connected.elim

theorem not_runsStages_of_not_space (first : bar ∉ stage) (some_chars : stage ≠ [])
    (short : stage.length < 1024) (works : fork pipes = true) (other : c ≠ bar) (solid : isSpace c = false) :
    ¬ RunsStages fork pipes stdin (stage ++ bar :: c :: rest) := by
  intro runs
  obtain ⟨calls, made, cmds, -⟩ := runs
  rw [executeProgs_append first some_chars short, works, if_pos rfl] at made
  obtain ⟨calls', made', rfl⟩ := Library.map_ok made
  rw [stages_append first _] at cmds
  exact absurd (List.cons.inj cmds).2 (not_runs_without_first other solid made')

/-- With white space behind the first `'|'`, the line runs its stages when what is
left behind does. -/
theorem runsStages_append (first : bar ∉ stage) (some_chars : stage ≠ []) (short : stage.length < 1024)
    (works : fork pipes = true) (same_trim : (stages (c :: rest)).map trim = (stages rest).map trim) :
    RunsStages fork pipes stdin (stage ++ bar :: c :: rest) ↔
      RunsStages fork (pipes + 1) (.readEnd pipes) rest := by
  have step : executeProgs fork pipes stdin (stage ++ bar :: c :: rest) =
      (executeProgs fork (pipes + 1) (.readEnd pipes) rest).map (⟨stage, stdin, .writeEnd pipes⟩ :: ·) := by
    rw [executeProgs_append first some_chars short, works, if_pos rfl]
  constructor
  · intro runs
    obtain ⟨calls, made, cmds, connected⟩ := runs
    rw [step] at made
    obtain ⟨calls', made', rfl⟩ := Library.map_ok made
    rw [stages_append first _, List.map_cons, List.map_cons] at cmds
    have cmds' : calls'.map (fun call => trim call.cmd) = (stages rest).map trim :=
      (List.cons.inj cmds).2.trans same_trim
    refine ⟨calls', made', cmds', ?_⟩
    cases calls' with
    | nil =>
        obtain ⟨next, others, split_rest, -, -⟩ := stages_cases rest
        rw [split_rest] at cmds'
        cases cmds'
    | cons call calls' => exact connected.2.2
  · intro runs
    obtain ⟨calls, made, cmds, connected⟩ := runs
    refine ⟨⟨stage, stdin, .writeEnd pipes⟩ :: calls, ?_, ?_, ?_⟩
    · rw [step, made]
      rfl
    · rw [stages_append first _, List.map_cons, List.map_cons, cmds, same_trim]
    · cases calls with
      | nil => exact connected.elim
      | cons call calls => exact ⟨rfl, rfl, connected⟩

theorem runsStages_of_not_mem (none_left : bar ∉ line) : RunsStages fork pipes stdin line := by
  refine ⟨_, executeProgs_of_not_mem none_left, ?_, rfl, rfl⟩
  rw [stages_of_not_mem none_left]
  rfl

/-- The process that has set up so many pipes runs the stages that are left when each
`'|'` has white space behind it and no `fork` fails. -/
theorem runsStages_iff_spaced (proper : Proper line) : RunsStages fork pipes stdin line ↔
    Spaced line ∧ ∀ k < line.count bar, fork (pipes + k) = true := by
  induction hn : line.length using Nat.strong_induction_on generalizing line pipes stdin with
  | _ n ih =>
      obtain none_left | ⟨stage, back, first, rfl⟩ := line_cases line
      · refine iff_of_true (runsStages_of_not_mem none_left) ⟨spaced_of_not_mem none_left, ?_⟩
        intro k hk
        rw [List.count_eq_zero_of_not_mem none_left] at hk
        exact absurd hk (Nat.not_lt_zero k)
      · obtain ⟨some_chars, short, proper_back, c, rest, rfl, other⟩ := proper_cases first proper
        rw [count_append first other]
        cases works : fork pipes with
        | false =>
            refine iff_of_false (not_runsStages_of_fork_fails first some_chars short works) ?_
            intro both
            have last := both.2 0 (Nat.zero_lt_succ _)
            rw [Nat.add_zero, works] at last
            cases last
        | true =>
            cases space : isSpace c with
            | false =>
                refine iff_of_false
                  (not_runsStages_of_not_space first some_chars short works other space) ?_
                intro both
                obtain ⟨d, rest', same, is_space⟩ := both.1 stage (c :: rest) rfl
                cases same
                rw [space] at is_space
                cases is_space
            | true =>
                obtain ⟨same_trim, proper_rest⟩ := stages_cons_space space proper_back
                have shorter : rest.length < n := by
                  rw [← hn, List.length_append, List.length_cons, List.length_cons]
                  omega
                rw [runsStages_append first some_chars short works same_trim, spaced_append first space,
                  forks_succ works]
                exact ih rest.length shorter proper_rest rfl

end Calls

/-- `execute_progs` runs the stages of a line as typed when it passes over white
space behind each `'|'`, and every `fork` succeeds. -/
theorem runsStages_iff (fork : Nat → Bool) (line : Str) (proper : Proper line) :
    RunsStages fork 0 .inherited line ↔ Spaced line ∧ ∀ k < line.count bar, fork k = true := by
  rw [runsStages_iff_spaced proper]
  simp only [Nat.zero_add]

theorem runsStages_twoStages : RunsStages (fun _ => true) 0 .inherited [0x61, 0x20, bar, 0x20, 0x62] := by
  have proper : Proper [0x61, 0x20, bar, 0x20, 0x62] := by
    intro stage hs
    have split : stages [0x61, 0x20, bar, 0x20, 0x62] = [[0x61, 0x20], [0x20, 0x62]] := by decide
    rw [split] at hs
    cases hs with
    | head => decide
    | tail _ hs =>
        cases hs with
        | head => decide
        | tail _ none_left => cases none_left
  have first : bar ∉ [(0x61 : UInt8), 0x20] := by decide
  have last : bar ∉ [(0x62 : UInt8)] := by decide
  have spaced : Spaced ([0x61, 0x20] ++ bar :: 0x20 :: [0x62]) :=
    (spaced_append first (by decide)).mpr (spaced_of_not_mem last)
  exact (runsStages_iff (fun _ => true) _ proper).mpr ⟨spaced, fun _ _ => rfl⟩

/-- `a|b` has proper stages, and `b` is dropped. -/
theorem not_runsStages_of_unspaced : ∃ line, Proper line ∧ line.length ≤ 4095 ∧
    ¬ RunsStages (fun _ => true) 0 .inherited line := by
  have first : bar ∉ [(0x61 : UInt8)] := by decide
  refine ⟨[0x61, bar, 0x62], ?_, by decide, ?_⟩
  · intro stage hs
    have split : stages [0x61, bar, 0x62] = [[0x61], [0x62]] := by decide
    rw [split] at hs
    cases hs with
    | head => decide
    | tail _ hs =>
        cases hs with
        | head => decide
        | tail _ none_left => cases none_left
  · exact not_runsStages_of_not_space first (List.cons_ne_nil _ _) (by decide) rfl (by decide) (by decide)

end CS162.Shell
