import CS162.Library.NaturalMerge
import CS162.Pintos.KernelList
import CS162.Pintos.KernelListSpec

/-!
`list_sort` is a stable sort. On the sequence that the links stand for it does what the
natural merge sort of lists does, pass by pass; every splice on the way moves an element
of the list to a place further in front in the same list.
-/

namespace CS162.Pintos.KernelList
open CS162.Library
variable {Λ ε : Type} {m m' m'' : Links Λ ε} {S S' S'' : Λ → List ε} {l : Λ}
  {front range back rest : List ε} {a e : ε}

section Places

/-- The node that a rest of a list starts with. -/
abbrev start (l : Λ) (rest : List ε) : Elem Λ ε := nodeAt .backward l [] rest

theorem start_cons : start l (e :: back) = .elem e := rfl

theorem listNext_start (h : Linked m S) (cut : S l = front ++ e :: back) :
    listNext m (.elem e) = .ok (some (start l back)) :=
  listNext_eq (Linked.next_elem h cut)

theorem listPrev_start (h : Linked m S) (cut : S l = front ++ e :: back) :
    listPrev m (start l back) = .ok (some (.elem e)) := by
  have behind : S l = (front ++ [e]) ++ back := by
    rw [cut, List.append_assoc]
    rfl
  have prev : m.prev (start l back) = some (.elem e) := by
    have found := Linked.prev h behind
    rw [nodeAt_forward_concat] at found
    exact found
  simp only [listPrev, placed_eq, prev, Option.isSome_some, assert_true, ok_bind]
  rfl

/-- Only where nothing lies between them, two rests of a list start with one node. -/
theorem start_eq_iff (h : Linked m S) (cut : S l = front ++ range ++ back) :
    start l (range ++ back) = start l back ↔ range = [] := by
  constructor
  · intro same
    have whole : S l = front ++ (range ++ back) := by rw [cut, List.append_assoc]
    have inj := nodeAt_inj (d := .backward) h.apart whole cut same
    exact List.append_left_eq_self.mp inj.2.2
  · intro empty
    rw [empty, List.nil_append]

end Places

variable [DecidableEq Λ] [DecidableEq ε] {less : Elem Λ ε → Elem Λ ε → Bool} {rounds : Nat}

/-- The comparison of two elements. -/
def elemLess (less : Elem Λ ε → Elem Λ ε → Bool) (a b : ε) : Bool := less (.elem a) (.elem b)

section Runs

omit [DecidableEq Λ] [DecidableEq ε] in
theorem descents_cons {b : ε} : descents (elemLess less) (a :: b :: rest) =
    (if less (.elem b) (.elem a) then 1 else 0) + descents (elemLess less) (b :: rest) := rfl

theorem sortedLoop_spec (h : Linked m S) (cut : S l = front ++ a :: range ++ back)
    (enough : range.length < rounds) :
    sortedLoop less m (start l back) rounds (.elem a) =
      .ok (decide (descents (elemLess less) (a :: range) = 0)) := by
  induction range generalizing front a rounds with
  | nil =>
      obtain ⟨rounds, rfl⟩ : ∃ n, rounds = n + 1 := ⟨rounds - 1, by omega⟩
      have cut' : S l = front ++ a :: back := by simp [cut]
      rw [sortedLoop, listNext_start h cut', ok_bind, follow_some, ok_bind, if_pos rfl]
      rfl
  | cons x range ih =>
      obtain ⟨rounds, rfl⟩ : ∃ n, rounds = n + 1 := ⟨rounds - 1, by omega⟩
      have cut' : S l = front ++ a :: (x :: range ++ back) := by simp [cut]
      have behind : S l = (front ++ [a]) ++ x :: range ++ back := by simp [cut]
      have going : start l (x :: range ++ back) ≠ start l back := fun same =>
        List.cons_ne_nil x range ((start_eq_iff h behind).mp same)
      rw [sortedLoop, listNext_start h cut', ok_bind, follow_some, ok_bind, if_neg going,
        listPrev_start h cut', ok_bind, follow_some, ok_bind, List.cons_append, start_cons,
        descents_cons]
      split
      next => exact congrArg Except.ok (decide_eq_false (by omega)).symm
      next =>
        rw [ih behind (by rw [List.length_cons] at enough; omega), Nat.zero_add]

variable (less) in
theorem isSorted_spec (h : Linked m S) (cut : S l = front ++ range ++ back)
    (enough : range.length < rounds) :
    isSorted less m (start l back) rounds (start l (range ++ back)) =
      .ok (decide (descents (elemLess less) range = 0)) := by
  cases range with
  | nil =>
      rw [isSorted, List.nil_append, if_pos rfl]
      rfl
  | cons a range =>
      have going : start l (a :: range ++ back) ≠ start l back := fun same =>
        List.cons_ne_nil a range ((start_eq_iff h cut).mp same)
      rw [isSorted, if_neg going]
      exact sortedLoop_spec h cut (Nat.lt_of_succ_lt enough)

theorem endOfRunLoop_spec (h : Linked m S) (cut : S l = front ++ a :: rest)
    (enough : rest.length < rounds) :
    endOfRunLoop less m (listEnd l) rounds (.elem a) =
      .ok (start l (splitRun (elemLess less) a rest).2) := by
  induction rest generalizing front a rounds with
  | nil =>
      obtain ⟨rounds, rfl⟩ : ∃ n, rounds = n + 1 := ⟨rounds - 1, by omega⟩
      rw [endOfRunLoop, listNext_start h cut, ok_bind, follow_some, ok_bind]
      exact if_pos rfl
  | cons x rest ih =>
      obtain ⟨rounds, rfl⟩ : ∃ n, rounds = n + 1 := ⟨rounds - 1, by omega⟩
      have behind : S l = (front ++ [a]) ++ x :: rest := by simp [cut]
      have going : start l (x :: rest) ≠ listEnd l := nofun
      rw [endOfRunLoop, listNext_start h cut, ok_bind, follow_some, ok_bind, if_neg going,
        listPrev_start h cut, ok_bind, follow_some, ok_bind, start_cons, splitRun]
      split
      next down => rw [if_pos (show elemLess less x a = true from down)]; rfl
      next keeps =>
        rw [if_neg (show ¬ elemLess less x a = true from keeps)]
        exact ih behind (Nat.lt_of_succ_lt_succ enough)

variable (less) in
theorem findEndOfRun_spec (h : Linked m S) (cut : S l = front ++ a :: rest)
    (enough : rest.length < rounds) :
    findEndOfRun less m (listEnd l) rounds (start l (a :: rest)) =
      .ok (start l (splitRun (elemLess less) a rest).2) := by
  have going : start l (a :: rest) ≠ listEnd l := nofun
  rw [findEndOfRun, decide_eq_true going, assert_true, ok_bind]
  exact endOfRunLoop_spec h cut enough

end Runs

section Moves

/-- Splices one after the other, each of which takes an element of the list to a place
further in front in it. Before each one the links stand for the sequences. -/
inductive MovesInside (l : Λ) : Links Λ ε → (Λ → List ε) → List (Splice Λ ε) → Links Λ ε →
    (Λ → List ε) → Prop where
  | nil {m : Links Λ ε} {S : Λ → List ε} (h : Linked m S) : MovesInside l m S [] m S
  | cons {m m' m'' : Links Λ ε} {S S' : Λ → List ε} {splices : List (Splice Λ ε)}
      (front skipped : List ε) (e : ε) (back : List ε) (h : Linked m S)
      (cut : S l = front ++ skipped ++ e :: back)
      (done : listSplice m (start l (skipped ++ e :: back)) (.elem e) (start l back) = .ok m')
      (rest : MovesInside l m' (Function.update S l (front ++ e :: skipped ++ back)) splices m'' S') :
      MovesInside l m S (⟨start l (skipped ++ e :: back), .elem e, start l back⟩ :: splices) m'' S'

variable {splices splices' : List (Splice Λ ε)}

theorem MovesInside.linked (moves : MovesInside l m S splices m' S') : Linked m' S' := by
  induction moves with
  | nil h => exact h
  | cons front skipped e back h cut done rest ih => exact ih

theorem MovesInside.append (moves : MovesInside l m S splices m' S')
    (more : MovesInside l m' S' splices' m'' S'') :
    MovesInside l m S (splices ++ splices') m'' S'' := by
  induction moves with
  | nil h => exact more
  | cons front skipped e back h cut done rest ih => exact .cons front skipped e back h cut done (ih more)

theorem listSplice_forward {skipped : List ε} (h : Linked m S) (cut : S l = front ++ skipped ++ e :: back)
    (some_skipped : skipped ≠ []) :
    ∃ m', listSplice m (start l (skipped ++ e :: back)) (.elem e) (start l back) = .ok m' ∧
      Linked m' (Function.update S l (front ++ e :: skipped ++ back)) := by
  have whole : S l = front ++ skipped ++ [e] ++ back := by simp [cut]
  have place : Function.update S l (front ++ skipped ++ back) l = front ++ (skipped ++ back) := by
    rw [Function.update_self, List.append_assoc]
  obtain ⟨m', done, linked⟩ := listSplice_spec h whole (List.cons_ne_nil e []) place
  have node : nodeAt .backward l front (skipped ++ back) = start l (skipped ++ e :: back) := by
    rw [start, nodeAt_append_right some_skipped, nodeAt_append_right some_skipped]
    rfl
  rw [node] at done
  refine ⟨m', done, ?_⟩
  rw [Function.update_idem] at linked
  simpa using linked

end Moves

section Merge

section Round
variable {xs ys : List ε} {b : ε} (h : Linked m S) (cut : S l = front ++ a :: xs ++ b :: ys ++ back)
include h cut

omit [DecidableEq Λ] [DecidableEq ε] in
theorem mergeLoop_going : (.elem a : Elem Λ ε) ≠ .elem b ∧ (.elem b : Elem Λ ε) ≠ start l back := by
  have cut' : S l = front ++ a :: xs ++ (b :: ys ++ back) := by rw [cut, List.append_assoc]
  constructor
  · intro same
    exact List.cons_ne_nil a xs ((start_eq_iff h cut').mp same)
  · intro same
    exact List.cons_ne_nil b ys ((start_eq_iff h cut).mp same)

theorem mergeLoop_keeps (keeps : less (.elem b) (.elem a) = false) :
    mergeLoop less (start l back) (rounds + 1) m (.elem a) (.elem b) =
      mergeLoop less (start l back) rounds m (start l (xs ++ b :: ys ++ back)) (.elem b) := by
  have first : S l = front ++ a :: (xs ++ b :: ys ++ back) := by simp [cut]
  have stays : (!less (.elem b) (.elem a)) = true := by rw [keeps, Bool.not_false]
  rw [mergeLoop, if_pos (mergeLoop_going h cut), if_pos stays, listNext_start h first, ok_bind,
    follow_some, ok_bind]

theorem mergeLoop_splices (down : less (.elem b) (.elem a) = true)
    (spliced : listSplice m (.elem a) (.elem b) (start l (ys ++ back)) = .ok m') :
    mergeLoop less (start l back) (rounds + 1) m (.elem a) (.elem b) =
      (mergeLoop less (start l back) rounds m' (.elem a) (start l (ys ++ back))).map
        fun out => (out.1, ⟨.elem a, .elem b, start l (ys ++ back)⟩ :: out.2) := by
  have second : S l = (front ++ a :: xs) ++ b :: (ys ++ back) := by simp [cut]
  have moves_on : ¬ (!less (.elem b) (.elem a)) = true := by simp [down]
  rw [mergeLoop, if_pos (mergeLoop_going h cut), if_neg moves_on, listNext_start h second, ok_bind,
    follow_some, ok_bind, listPrev_start h second, ok_bind, follow_some, ok_bind, spliced, ok_bind]
  cases mergeLoop less (start l back) rounds m' (.elem a) (start l (ys ++ back)) with
  | error => rfl
  | ok => rfl

end Round

theorem mergeLoop_spec {xs ys : List ε} (h : Linked m S) (cut : S l = front ++ xs ++ ys ++ back)
    (enough : xs.length + ys.length < rounds) :
    ∃ m' splices, mergeLoop less (start l back) rounds m (start l (xs ++ ys ++ back))
        (start l (ys ++ back)) = .ok (m', splices) ∧
      MovesInside l m S splices m'
        (Function.update S l (front ++ List.merge xs ys (inOrder (elemLess less)) ++ back)) := by
  induction rounds generalizing m S front xs ys with
  | zero => exact absurd enough (Nat.not_lt_zero _)
  | succ rounds ih =>
      cases xs with
      | nil =>
          rw [List.nil_append, mergeLoop, if_neg (fun both => both.1 rfl), List.nil_merge]
          rw [List.append_nil] at cut
          refine ⟨m, [], rfl, ?_⟩
          rw [← cut, Function.update_eq_self]
          exact .nil h
      | cons a xs =>
          cases ys with
          | nil =>
              rw [List.append_nil, mergeLoop, if_neg (fun both => both.2 rfl), List.merge_right]
              rw [List.append_nil] at cut
              refine ⟨m, [], rfl, ?_⟩
              rw [← cut, Function.update_eq_self]
              exact .nil h
          | cons b ys =>
              simp only [List.cons_append, start_cons, List.cons_merge_cons]
              by_cases down : less (.elem b) (.elem a) = true
              case neg =>
                have keeps : inOrder (elemLess less) a b = true := by simp [inOrder, elemLess, down]
                have cut' : S l = (front ++ [a]) ++ xs ++ b :: ys ++ back := by simp [cut]
                obtain ⟨m', splices, done, moves⟩ := ih h cut' (by
                  simp only [List.length_cons] at enough ⊢
                  omega)
                rw [List.append_assoc front [a]] at moves
                rw [mergeLoop_keeps h cut (Bool.eq_false_iff.mpr down), if_pos keeps]
                exact ⟨m', splices, done, moves⟩
              case pos =>
                have descends : ¬ inOrder (elemLess less) a b = true := by
                  simp [inOrder, elemLess, down]
                have second : S l = (front ++ a :: xs) ++ b :: (ys ++ back) := by simp [cut]
                obtain ⟨m1, spliced, linked⟩ := listSplice_forward h second (List.cons_ne_nil a xs)
                have cut' : Function.update S l (front ++ b :: a :: xs ++ (ys ++ back)) l =
                    (front ++ [b]) ++ a :: xs ++ ys ++ back := by simp
                obtain ⟨m', splices, done, moves⟩ := ih linked cut' (by
                  simp only [List.length_cons] at enough ⊢
                  omega)
                have done' : mergeLoop less (start l back) rounds m1 (.elem a) (start l (ys ++ back)) =
                    .ok (m', splices) := done
                rw [Function.update_idem, List.append_assoc front [b]] at moves
                rw [mergeLoop_splices h cut down spliced, if_neg descends, done']
                exact ⟨m', _ :: splices, rfl, .cons front (a :: xs) b (ys ++ back) h second spliced moves⟩

variable (less) in
theorem inplaceMerge_spec {xs ys : List ε} (h : Linked m S) (cut : S l = front ++ xs ++ ys ++ back)
    (sorted : descents (elemLess less) xs = 0) (sorted' : descents (elemLess less) ys = 0)
    (enough : xs.length + ys.length < rounds) :
    ∃ m' splices, inplaceMerge less rounds m (start l (xs ++ ys ++ back)) (start l (ys ++ back))
        (start l back) = .ok (m', splices) ∧
      MovesInside l m S splices m'
        (Function.update S l (front ++ List.merge xs ys (inOrder (elemLess less)) ++ back)) := by
  have cut' : S l = front ++ xs ++ (ys ++ back) := by simp [cut]
  have first := isSorted_spec less h cut' (show xs.length < rounds by omega)
  have second := isSorted_spec less h cut (show ys.length < rounds by omega)
  rw [← List.append_assoc, decide_eq_true sorted] at first
  rw [decide_eq_true sorted'] at second
  rw [inplaceMerge, first, ok_bind, assert_true, ok_bind, second, ok_bind, assert_true, ok_bind]
  exact mergeLoop_spec h cut enough

end Merge

section Passes
variable {runRounds : Nat}

/-- From a rest of the list on, a pass over the links leaves this list and counts so many
runs. -/
def PassLeaves (less : Elem Λ ε → Elem Λ ε → Bool) (runRounds : Nat) (l : Λ) (rest : List ε)
    (out : List ε × Nat) : Prop :=
  ∀ (m : Links Λ ε) (S : Λ → List ε) (front : List ε) (rounds cnt : Nat), Linked m S →
    S l = front ++ rest → rest.length < rounds → (S l).length < runRounds →
    ∃ m' splices, passLoop less runRounds l rounds m (start l rest) cnt = .ok (m', cnt + out.2, splices) ∧
      MovesInside l m S splices m' (Function.update S l (front ++ out.1))

theorem passLeaves_last {a : ε} {rest : List ε} (last : (splitRun (elemLess less) a rest).2 = []) :
    PassLeaves less runRounds l (a :: rest) ((splitRun (elemLess less) a rest).1, 1) := by
  intro m S front rounds cnt h cut enough short
  obtain ⟨rounds, rfl⟩ : ∃ n, rounds = n + 1 := ⟨rounds - 1, by omega⟩
  have inside := congrArg List.length cut
  simp only [List.length_append, List.length_cons] at inside
  have found := findEndOfRun_spec less h cut (show rest.length < runRounds by omega)
  have whole := splitRun_append (elemLess less) a rest
  rw [last, List.append_nil] at whole
  refine ⟨m, [], ?_, ?_⟩
  · have going : start l (a :: rest) ≠ listEnd l := nofun
    rw [passLoop, if_pos going, found, ok_bind, last]
    exact if_pos rfl
  · rw [whole, ← cut, Function.update_eq_self]
    exact .nil h

theorem passLeaves_more {a b : ε} {rest rest' : List ε}
    (more : (splitRun (elemLess less) a rest).2 = b :: rest') {out : List ε × Nat}
    (later : PassLeaves less runRounds l (splitRun (elemLess less) b rest').2 out) :
    PassLeaves less runRounds l (a :: rest)
      (List.merge (splitRun (elemLess less) a rest).1 (splitRun (elemLess less) b rest').1
        (inOrder (elemLess less)) ++ out.1, out.2 + 1) := by
  intro m S front rounds cnt h cut enough short
  obtain ⟨rounds, rfl⟩ : ∃ n, rounds = n + 1 := ⟨rounds - 1, by omega⟩
  have sorted : descents (elemLess less) (splitRun (elemLess less) a rest).1 = 0 :=
    descents_splitRun_fst
  have sorted' : descents (elemLess less) (splitRun (elemLess less) b rest').1 = 0 :=
    descents_splitRun_fst
  have first := splitRun_append (elemLess less) a rest
  have second := splitRun_append (elemLess less) b rest'
  have some_run := splitRun_fst (elemLess less) b rest'
  rw [more] at first
  generalize (splitRun (elemLess less) a rest).1 = xs at first sorted
  generalize eq : splitRun (elemLess less) b rest' = run at second sorted' some_run later
  obtain ⟨ys, zs⟩ := run
  dsimp only at second sorted' some_run later ⊢
  have cut' : S l = (front ++ xs) ++ b :: rest' := by rw [cut, ← first, List.append_assoc]
  have whole : S l = front ++ xs ++ ys ++ zs := by rw [cut', ← second, List.append_assoc (front ++ xs)]
  have inside := congrArg List.length cut
  have parts := congrArg List.length first
  have parts' := congrArg List.length second
  simp only [List.length_append, List.length_cons] at inside parts parts' enough
  have short_run : 0 < ys.length := by
    obtain ⟨run, first_elem⟩ := some_run
    rw [first_elem]
    exact Nat.succ_pos _
  have found := findEndOfRun_spec less h cut (show rest.length < runRounds by omega)
  have found' := findEndOfRun_spec less h cut' (show rest'.length < runRounds by omega)
  obtain ⟨m1, splices, merged, moves⟩ := inplaceMerge_spec less h whole sorted sorted'
    (show xs.length + ys.length < runRounds by omega)
  obtain ⟨m', splices', passed, moves'⟩ := later m1 _ (front ++ List.merge xs ys (inOrder (elemLess less)))
    rounds (cnt + 1) moves.linked (Function.update_self ..) (by omega) (by
      rw [Function.update_self, List.length_append, List.length_append, List.length_merge]
      omega)
  have going : start l (a :: rest) ≠ listEnd l := nofun
  have going' : start l (b :: rest') ≠ listEnd l := nofun
  rw [List.append_assoc xs, second, first] at merged
  rw [more] at found
  rw [eq] at found'
  rw [Function.update_idem, List.append_assoc front _ out.1] at moves'
  refine ⟨m', splices ++ splices', ?_, moves.append moves'⟩
  rw [passLoop, if_pos going, found, ok_bind, if_neg going', found', ok_bind, merged, ok_bind]
  simp only [passed, ok_bind]
  rw [Nat.add_right_comm]
  rfl

variable (less) in
theorem passLoop_spec (rest : List ε) :
    PassLeaves less runRounds l rest (mergePass (elemLess less) rest) := by
  refine mergePass_induction (P := PassLeaves less runRounds l) ?_ ?_ ?_ rest
  · intro m S front rounds cnt h cut enough _
    obtain ⟨rounds, rfl⟩ : ∃ n, rounds = n + 1 := ⟨rounds - 1, by omega⟩
    refine ⟨m, [], ?_, ?_⟩
    · rw [passLoop]
      exact if_neg (fun other => other rfl)
    · rw [← cut, Function.update_eq_self]
      exact .nil h
  · intro a rest last
    exact passLeaves_last last
  · intro a rest b rest' more later
    exact passLeaves_more more later

theorem sortLoop_spec {passes : Nat} {out : List ε} (h : Linked m S)
    (sorted : naturalMerge (elemLess less) passes (S l) = some out) (short : (S l).length < rounds) :
    descents (elemLess less) out = 0 ∧
    ∃ m' splices, sortLoop less rounds l passes m = .ok (m', splices) ∧
      MovesInside l m S splices m' (Function.update S l out) := by
  induction passes generalizing m S with
  | zero => cases sorted
  | succ passes ih =>
      obtain ⟨m1, splices, passed, moves⟩ := passLoop_spec less (S l) m S [] rounds 0 h rfl
        short short
      rw [Nat.zero_add] at passed
      rw [List.nil_append] at moves
      rw [naturalMerge] at sorted
      simp only [sortLoop, listBegin_eq h l, follow_some, ok_bind, passed]
      split
      next again =>
        rw [if_pos again] at sorted
        have list : Function.update S l (mergePass (elemLess less) (S l)).1 l =
            (mergePass (elemLess less) (S l)).1 := Function.update_self ..
        obtain ⟨level, m', splices', done, moves'⟩ := ih moves.linked (by rw [list]; exact sorted)
          (by rw [list, mergePass_perm.length_eq]; exact short)
        rw [Function.update_idem] at moves'
        refine ⟨level, m', splices ++ splices', ?_, moves.append moves'⟩
        rw [done]
        rfl
      next last =>
        rw [if_neg last] at sorted
        split at sorted
        next level =>
          cases sorted
          exact ⟨level, m1, splices, rfl, moves⟩
        next => cases sorted

theorem listSort_spec {out : List ε} (h : Linked m S)
    (sorted : naturalMerge (elemLess less) rounds (S l) = some out) (short : (S l).length < rounds) :
    ∃ m' splices, listSort less m rounds l = .ok (m', splices) ∧
      MovesInside l m S splices m' (Function.update S l out) := by
  obtain ⟨level, m', splices, done, moves⟩ := sortLoop_spec h sorted short
  have cut : Function.update S l out l = [] ++ out ++ [] := by simp
  have in_order := isSorted_spec less moves.linked cut
    (by rw [(naturalMerge_perm sorted).length_eq]; exact short)
  rw [decide_eq_true level, List.append_nil] at in_order
  refine ⟨m', splices, ?_, moves⟩
  rw [listSort, done, ok_bind]
  simp only [listBegin_eq moves.linked l, Function.update_self, follow_some, ok_bind]
  have checked : isSorted less m' (listEnd l) rounds (start l out) = .ok true := in_order
  rw [checked, ok_bind, assert_true, ok_bind]
  rfl

/-- Under a strict weak order, and with a round for each element and one more, `list_sort` ends
without a failing assertion; the list then has its elements in order, equivalent ones as they
were, and every splice moved an element of the list inside it. -/
theorem listSort_stable (weak : StrictWeak (elemLess less)) (h : Linked m S) (l : Λ)
    (enough : (S l).length < rounds) :
    ∃ m' splices out, listSort less m rounds l = .ok (m', splices) ∧
      MovesInside l m S splices m' (Function.update S l out) ∧
      Linked m' (Function.update S l out) ∧ out.Perm (S l) ∧
      (out.Pairwise fun a b => less (.elem b) (.elem a) = false) ∧
      ∀ a b, less (.elem a) (.elem b) = false → less (.elem b) (.elem a) = false →
        List.Sublist [a, b] (S l) → List.Sublist [a, b] out := by
  have passes := Nat.lt_of_lt_of_le (descents_lt_length (elemLess less) (S l)) enough
  obtain ⟨out, sorted, perm, in_order⟩ := weak.naturalMerge_spec passes
  obtain ⟨m', splices, done, moves⟩ := listSort_spec h sorted enough
  refine ⟨m', splices, out, done, moves, moves.linked, perm, in_order, ?_⟩
  intro a b not_less not_more before
  have same : [a, b].filter (equivalent (elemLess less) a) = [a, b] := by
    have self : less (.elem a) (.elem a) = false := weak.irrefl a
    simp [equivalent, self, elemLess, not_less, not_more]
  have kept := before.filter (equivalent (elemLess less) a)
  rw [same, ← weak.naturalMerge_filter a sorted] at kept
  exact kept.trans List.filter_sublist

/-- Numbers by their halves. -/
def byHalf : Elem Unit Nat → Elem Unit Nat → Bool
  | .elem a, .elem b => a / 2 < b / 2
  | _, _ => false

/-- 5 and 4 are equivalent, and 3 goes in front of them. -/
theorem listSort_stable_of_byHalf :
    ∃ (m : Links Unit Nat) (S : Unit → List Nat), S () = [5, 3, 4] ∧ Linked m S ∧
      ∃ m' splices out, listSort byHalf m 4 () = .ok (m', splices) ∧
        MovesInside () m S splices m' (Function.update S () out) ∧
        Linked m' (Function.update S () out) ∧ out.Perm (S ()) ∧
        (out.Pairwise fun a b => byHalf (.elem b) (.elem a) = false) ∧
        ∀ a b, byHalf (.elem a) (.elem b) = false → byHalf (.elem b) (.elem a) = false →
          List.Sublist [a, b] (S ()) → List.Sublist [a, b] out := by
  have weak : StrictWeak (elemLess byHalf) := StrictWeak.of_rank fun n : Nat => n / 2
  have empty : Linked (listInit ⟨fun _ => none, fun _ => none⟩ ()) fun _ : Unit => ([] : List Nat) :=
    Initialized.linked fun l => by
      cases l
      decide
  obtain ⟨m1, _, one⟩ := listPushBack_spec (l := ()) (e := 5) empty fun _ => List.not_mem_nil
  obtain ⟨m2, _, two⟩ := listPushBack_spec (l := ()) (e := 3) one fun _ => by simp
  obtain ⟨m3, _, three⟩ := listPushBack_spec (l := ()) (e := 4) two fun _ => by simp
  exact ⟨m3, _, rfl, three, listSort_stable weak three () (by decide)⟩

end Passes

end CS162.Pintos.KernelList
