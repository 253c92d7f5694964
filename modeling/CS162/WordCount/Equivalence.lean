import Mathlib.Data.Finset.Card
import CS162.WordCount.WordList

/-!
The two versions of the word list against each other. Their lists go through the
same states, and all calls return the same, except `len_words`: the version with
the mutex always answers zero, so the versions agree exactly as long as the length
is only asked for while the list is empty.
-/

namespace CS162.WordCount
open CS162.Library

section Steps
variable {list : WordList} {passes : Nat}

/-- No two nodes have one address, and none has that of the next allocation. -/
structure Distinct (list : WordList) : Prop where
  nodup : (list.nodes.map (·.id)).Nodup
  old : ∀ node ∈ list.nodes, node.id < list.allocated

theorem increment_id (node : Node) : node.increment.id = node.id := rfl

theorem increment_word (node : Node) : node.increment.wc.word = node.wc.word := rfl

theorem map_increment {β : Type*} (f : Node → β) (same : ∀ node, f node.increment = f node) (id : Nat) :
    (list.increment id).nodes.map f = list.nodes.map f := by
  rw [WordList.increment, List.map_map]
  refine List.map_congr_left fun node _ => ?_
  rw [Function.comp]
  split
  · exact same node
  · rfl

theorem Distinct.init : Distinct list.init where
  nodup := List.nodup_nil
  old _ h := absurd h List.not_mem_nil

theorem Distinct.pushBack (h : Distinct list) (word : Word) : Distinct (list.pushBack word) where
  nodup := by
    rw [WordList.pushBack, List.map_append]
    refine h.nodup.append (List.nodup_singleton _) fun id inside fresh => ?_
    obtain ⟨node, hn, rfl⟩ := List.mem_map.mp inside
    exact Nat.ne_of_lt (h.old node hn) (List.mem_singleton.mp fresh)
  old node hn := by
    cases List.mem_append.mp hn with
    | inl hn => exact Nat.lt_succ_of_lt (h.old node hn)
    | inr hn =>
        rw [List.mem_singleton.mp hn]
        exact Nat.lt_succ_self _

theorem Distinct.increment (h : Distinct list) (id : Nat) : Distinct (list.increment id) where
  nodup := by
    rw [map_increment _ increment_id]
    exact h.nodup
  old node hn := by
    have inside : node.id ∈ (list.increment id).nodes.map (·.id) := List.mem_map_of_mem hn
    rw [map_increment _ increment_id] at inside
    obtain ⟨node', hn', same⟩ := List.mem_map.mp inside
    exact same ▸ h.old node' hn'

theorem Distinct.perm {nodes : List Node} (h : Distinct list) (perm : nodes.Perm list.nodes) :
    Distinct ⟨nodes, list.allocated⟩ where
  nodup := (perm.map _).nodup_iff.mpr h.nodup
  old node hn := h.old node (perm.mem_iff.mp hn)

theorem Distinct.addLocked (h : Distinct list) (word : Word) :
    Distinct (Parallel.addLocked list word).2 := by
  rw [Parallel.addLocked]
  cases list.findWord word with
  | none => exact h.pushBack word
  | some node => exact h.increment node.id

/-- The one loop of the sequential `add_word` does what the other does in two. -/
theorem addLoop_eq {nodes : List Node} (nodup : (nodes.map (·.id)).Nodup) (word : Word) :
    Sequential.addLoop word nodes = (nodes.find? fun node => node.wc.word = word).map fun found =>
      (found.increment, nodes.map fun node => if node.id = found.id then node.increment else node) := by
  induction nodes with
  | nil => rfl
  | cons node nodes ih =>
      rw [List.map_cons] at nodup
      obtain ⟨fresh, nodup⟩ := List.nodup_cons.mp nodup
      have apart (other : Node) (hn : other ∈ nodes) : other.id ≠ node.id :=
        fun same => fresh (same ▸ List.mem_map_of_mem hn)
      by_cases here : node.wc.word = word
      · have rest : (nodes.map fun other => if other.id = node.id then other.increment else other) = nodes :=
          (List.map_congr_left fun other hn => if_neg (apart other hn)).trans (List.map_id' nodes)
        rw [Sequential.addLoop, if_pos here, List.find?_cons_of_pos (by simpa using here), Option.map_some,
          List.map_cons, if_pos rfl, rest]
      · rw [Sequential.addLoop, if_neg here, List.find?_cons_of_neg (by simpa using here), ih nodup]
        cases search : nodes.find? fun node => node.wc.word = word with
        | none => rfl
        | some found =>
            have other : node.id ≠ found.id := (apart found (List.mem_of_find?_eq_some search)).symm
            simp only [Option.map_some, List.map_cons, if_neg other]

theorem addWord_eq (h : Distinct list) (word : Word) :
    Sequential.addWord list word = Parallel.addLocked list word := by
  rw [Sequential.addWord, addLoop_eq h.nodup, Parallel.addLocked, WordList.findWord]
  cases list.nodes.find? fun node => node.wc.word = word with
  | none => rfl
  | some node => rfl

theorem Distinct.call {result : Result} {list' : WordList} (h : Distinct list) (c : Call)
    (step : Sequential.call passes list c = some (result, list')) : Distinct list' := by
  cases c with
  | initWords =>
      cases step
      exact .init
  | lenWords =>
      cases step
      exact h
  | findWord word =>
      cases step
      exact h
  | addWord word =>
      cases step
      rw [addWord_eq h]
      exact h.addLocked word
  | wordcountSort less =>
      rw [Sequential.call, WordList.wordcountSort, Option.map_map] at step
      obtain ⟨nodes, sorted, made⟩ := Option.map_eq_some_iff.mp step
      cases made
      exact h.perm (naturalMerge_perm sorted)

/-- A call other than `len_words` returns the same from both, with the same list. -/
theorem call_eq (passes : Nat) (h : Distinct list) {c : Call} (other : c ≠ .lenWords) :
    Parallel.call passes ⟨list, false⟩ c =
      (Sequential.call passes list c).map fun result => (result.1, ⟨result.2, false⟩) := by
  cases c with
  | initWords => rfl
  | lenWords => exact absurd rfl other
  | findWord word => rfl
  | addWord word =>
      simp only [Parallel.call, Parallel.addWord, Sequential.call, addWord_eq h]
      rfl
  | wordcountSort less =>
      simp only [Parallel.call, Sequential.call, Option.map_map]
      rfl

theorem countNodes_eq (nodes : List Node) (len : Nat) : countNodes nodes len = nodes.length + len := by
  induction nodes generalizing len with
  | nil => exact (Nat.zero_add _).symm
  | cons node nodes ih =>
      rw [countNodes, ih, List.length_cons]
      omega

theorem sequential_lenWords : Sequential.lenWords list = list.nodes.length := countNodes_eq ..

end Steps

section Runs
variable {σ : Type*} {call : σ → Call → Option (Result × σ)} {nodes : σ → List Node}

theorem results_cons_some {c : Call} {calls : List Call} {s s' : σ} {result : Result}
    (h : call s c = some (result, s')) :
    results call nodes (c :: calls) s = some (result, nodes s') :: results call nodes calls s' := by
  rw [results, h]

theorem results_cons_none {c : Call} {calls : List Call} {s : σ} (h : call s c = none) :
    results call nodes (c :: calls) s = [none] := by
  rw [results, h]

theorem run_cons {c : Call} {calls : List Call} {s s' : σ} {result : Result}
    (h : call s c = some (result, s')) : run call (c :: calls) s = run call calls s' := by
  rw [run, h]
  rfl

/-- What a call returned was returned from the state after the calls before it. -/
theorem run_of_results {front back : List Call} {c : Call} {s : σ} {r : Result × List Node}
    (h : (results call nodes (front ++ c :: back) s)[front.length]? = some (some r)) :
    ∃ s' s'', run call front s = some s' ∧ call s' c = some (r.1, s'') ∧ r.2 = nodes s'' := by
  induction front generalizing s with
  | nil =>
      cases step : call s c with
      | none =>
          rw [List.nil_append, results_cons_none step] at h
          cases h
      | some result =>
          rw [List.nil_append, results_cons_some step] at h
          cases h
          exact ⟨s, result.2, rfl, step, rfl⟩
  | cons first front ih =>
      cases step : call s first with
      | none =>
          rw [List.cons_append, results_cons_none step, List.length_cons] at h
          cases h
      | some result =>
          rw [List.cons_append, results_cons_some step, List.length_cons, List.getElem?_cons_succ] at h
          rw [run_cons step]
          exact ih h

theorem results_of_run (nodes : σ → List Node) (back : List Call) {front : List Call} {c : Call}
    {s s' s'' : σ} {result : Result} (before : run call front s = some s') (step : call s' c = some (result, s'')) :
    (results call nodes (front ++ c :: back) s)[front.length]? = some (some (result, nodes s'')) := by
  induction front generalizing s with
  | nil =>
      cases before
      rw [List.nil_append, results_cons_some step, List.length_nil, List.getElem?_cons_zero]
  | cons first front ih =>
      obtain ⟨r, first_step, before⟩ := Option.bind_eq_some_iff.mp before
      rw [List.cons_append, results_cons_some first_step, List.length_cons, List.getElem?_cons_succ]
      exact ih before

end Runs

section Length
variable {list : WordList} {passes : Nat}

/-- The list has one node for each word that was added. -/
structure HasWords (list : WordList) (words : List Word) : Prop where
  nodup : (list.nodes.map (·.wc.word)).Nodup
  mem : ∀ word, word ∈ list.nodes.map (·.wc.word) ↔ word ∈ words

theorem mem_of_findWord {node : Node} {word : Word} (h : list.findWord word = some node) :
    word ∈ list.nodes.map (·.wc.word) :=
  List.mem_map.mpr ⟨node, List.mem_of_find?_eq_some h, by simpa using List.find?_some h⟩

theorem not_mem_of_findWord {word : Word} (h : list.findWord word = none) :
    word ∉ list.nodes.map (·.wc.word) := by
  intro inside
  obtain ⟨node, hn, same⟩ := List.mem_map.mp inside
  have differs := List.find?_eq_none.mp h node hn
  exact differs (by simpa using same)

theorem HasWords.addLocked {words : List Word} (h : HasWords list words) (word : Word) :
    HasWords (Parallel.addLocked list word).2 (words ++ [word]) := by
  rw [Parallel.addLocked]
  cases search : list.findWord word with
  | some node =>
      have old := (h.mem word).mp (mem_of_findWord search)
      constructor
      · rw [map_increment _ increment_word]
        exact h.nodup
      · intro other
        rw [map_increment _ increment_word, h.mem, List.mem_append, List.mem_singleton]
        exact ⟨.inl, fun inside => inside.elim id fun same => same ▸ old⟩
  | none =>
      have fresh := not_mem_of_findWord search
      have words_eq : (list.pushBack word).nodes.map (·.wc.word) =
          list.nodes.map (·.wc.word) ++ [word] := List.map_append
      constructor
      · rw [words_eq]
        refine h.nodup.append (List.nodup_singleton _) fun other inside same => fresh ?_
        exact List.mem_singleton.mp same ▸ inside
      · intro other
        rw [words_eq, List.mem_append, List.mem_append, h.mem]

theorem HasWords.length {words : List Word} (h : HasWords list words) :
    list.nodes.length = words.toFinset.card := by
  have same : (list.nodes.map (·.wc.word)).toFinset = words.toFinset := by
    ext word
    rw [List.mem_toFinset, List.mem_toFinset, h.mem]
  rw [← same, List.toFinset_card_of_nodup h.nodup, List.length_map]

theorem added_append (calls : List Call) (c : Call) : added (calls ++ [c]) =
    match c with
    | .initWords => []
    | .addWord word => added calls ++ [word]
    | _ => added calls := by
  rw [added, List.foldl_append]
  rfl

theorem HasWords.call {result : Result} {list' : WordList} {calls : List Call}
    (distinct : Distinct list) (h : HasWords list (added calls)) (c : Call)
    (step : Sequential.call passes list c = some (result, list')) :
    HasWords list' (added (calls ++ [c])) := by
  rw [added_append]
  cases c with
  | initWords =>
      cases step
      exact ⟨List.nodup_nil, fun word => Iff.rfl⟩
  | lenWords =>
      cases step
      exact h
  | findWord word =>
      cases step
      exact h
  | addWord word =>
      cases step
      rw [addWord_eq distinct]
      exact h.addLocked word
  | wordcountSort less =>
      rw [Sequential.call, WordList.wordcountSort, Option.map_map] at step
      obtain ⟨nodes, sorted, made⟩ := Option.map_eq_some_iff.mp step
      cases made
      have perm := (naturalMerge_perm sorted).map (·.wc.word)
      exact ⟨perm.nodup_iff.mpr h.nodup, fun word => perm.mem_iff.trans (h.mem word)⟩

/-- After any calls the nodes have addresses of their own and the added words. -/
theorem sequential_run (front : List Call) {calls : List Call} {list' : WordList} (distinct : Distinct list)
    (words : HasWords list (added front)) (h : run (Sequential.call passes) calls list = some list') :
    Distinct list' ∧ HasWords list' (added (front ++ calls)) := by
  induction calls generalizing front list with
  | nil =>
      cases h
      rw [List.append_nil]
      exact ⟨distinct, words⟩
  | cons c calls ih =>
      obtain ⟨result, step, h⟩ := Option.bind_eq_some_iff.mp h
      have split : front ++ c :: calls = front ++ [c] ++ calls := by
        rw [List.append_assoc, List.singleton_append]
      rw [split]
      exact ih (front ++ [c]) (distinct.call c step) (words.call distinct c step) h

/-- What `len_words` returns, wherever it is called, is the number of the distinct
words added since the list was initialized. -/
def LengthsRight (calls : List Call) (returned : List (Option (Result × List Node))) : Prop :=
  ∀ front back n nodes, calls = front ++ .lenWords :: back →
    returned[front.length]? = some (some (.size n, nodes)) → n = (added front).toFinset.card

theorem start_distinct : Distinct Sequential.start where
  nodup := List.nodup_nil
  old _ h := absurd h List.not_mem_nil

theorem start_hasWords : HasWords Sequential.start (added []) where
  nodup := List.nodup_nil
  mem _ := Iff.rfl

theorem sequential_lengthsRight (passes : Nat) (calls : List Call) :
    LengthsRight calls (results (Sequential.call passes) (·.nodes) calls Sequential.start) := by
  intro front back n nodes split returned
  subst split
  obtain ⟨list, list', before, step, -⟩ := run_of_results returned
  obtain ⟨-, words⟩ := sequential_run [] start_distinct start_hasWords before
  cases step
  rw [sequential_lenWords]
  exact words.length

end Length

section Equivalence
variable {passes : Nat}

/-- From one list the calls return the same while no length of a list with nodes
is asked for. -/
theorem results_eq (passes : Nat) {list : WordList} (distinct : Distinct list) {calls : List Call}
    (empty : ∀ front back list', calls = front ++ .lenWords :: back →
      run (Sequential.call passes) front list = some list' → list'.nodes = []) :
    results (Parallel.call passes) (·.lst.nodes) calls ⟨list, false⟩ =
      results (Sequential.call passes) (·.nodes) calls list := by
  induction calls generalizing list with
  | nil => rfl
  | cons c calls ih =>
      have later (result : Result) (list' : WordList)
          (step : Sequential.call passes list c = some (result, list')) :
          results (Parallel.call passes) (·.lst.nodes) calls ⟨list', false⟩ =
            results (Sequential.call passes) (·.nodes) calls list' :=
        ih (distinct.call c step) fun front back last split before =>
          empty (c :: front) back last (congrArg (c :: ·) split) (by rw [run_cons step]; exact before)
      by_cases length : c = .lenWords
      · subst length
        have none_left : list.nodes = [] := empty [] calls list rfl rfl
        have step : Sequential.call passes list .lenWords = some (.size 0, list) := by
          rw [Sequential.call, sequential_lenWords, none_left]
          rfl
        have stays : Parallel.call passes ⟨list, false⟩ .lenWords = some (.size 0, ⟨list, false⟩) := rfl
        rw [results_cons_some step, results_cons_some stays, later _ _ step]
      · have same := call_eq passes distinct length
        cases step : Sequential.call passes list c with
        | none =>
            rw [step] at same
            rw [results_cons_none step, results_cons_none same]
        | some result =>
            rw [step] at same
            rw [results_cons_some step, results_cons_some same, later _ _ step]

theorem run_eq {list : WordList} (distinct : Distinct list) {calls : List Call} :
    run (Parallel.call passes) calls ⟨list, false⟩ =
      (run (Sequential.call passes) calls list).map fun list => ⟨list, false⟩ := by
  induction calls generalizing list with
  | nil => rfl
  | cons c calls ih =>
      by_cases length : c = .lenWords
      · subst length
        exact ih distinct
      · have same := call_eq passes distinct length
        rw [run, run, same]
        cases step : Sequential.call passes list c with
        | none => rfl
        | some result => exact ih (distinct.call c step)

/-- The versions agree on these calls: all return the same and leave the same
nodes in the same order, and `len_words` tells the number of words. -/
def Agree (passes : Nat) (calls : List Call) : Prop :=
  results (Parallel.call passes) (·.lst.nodes) calls Parallel.start =
      results (Sequential.call passes) (·.nodes) calls Sequential.start ∧
    LengthsRight calls (results (Parallel.call passes) (·.lst.nodes) calls Parallel.start)

/-- A length that is asked for while the list has nodes tells the versions apart. -/
theorem empty_of_results_eq {calls : List Call}
    (same : results (Parallel.call passes) (·.lst.nodes) calls Parallel.start =
      results (Sequential.call passes) (·.nodes) calls Sequential.start)
    {front back : List Call} {list : WordList} (split : calls = front ++ .lenWords :: back)
    (before : run (Sequential.call passes) front Sequential.start = some list) : list.nodes = [] := by
  subst split
  have parallel : run (Parallel.call passes) front Parallel.start = some ⟨list, false⟩ := by
    rw [Parallel.start, run_eq start_distinct, before]
    rfl
  have one := results_of_run (·.lst.nodes) back parallel
    (show Parallel.call passes ⟨list, false⟩ .lenWords = some (.size 0, ⟨list, false⟩) from rfl)
  have other := results_of_run (·.nodes) back before
    (show Sequential.call passes list .lenWords = some (.size (Sequential.lenWords list), list) from rfl)
  rw [same, other, sequential_lenWords] at one
  apply List.eq_nil_of_length_eq_zero
  simpa using one

/-- The versions agree exactly on calls that ask for the length of the empty list
only. -/
theorem agree_iff (passes : Nat) (calls : List Call) :
    Agree passes calls ↔ ∀ front back list, calls = front ++ .lenWords :: back →
      run (Sequential.call passes) front Sequential.start = some list → list.nodes = [] := by
  constructor
  · intro agree front back list split before
    exact empty_of_results_eq agree.1 split before
  · intro empty
    have same := results_eq passes start_distinct empty
    refine ⟨same, ?_⟩
    rw [Parallel.start, same]
    exact sequential_lengthsRight passes calls

/-- One word has been added and the answer is zero. -/
theorem not_agree_of_lenWords : ¬ Agree 1 [.addWord [0x61], .lenWords] := by
  intro agree
  have split : [.addWord [0x61], .lenWords] = [.addWord [0x61]] ++ Call.lenWords :: [] := rfl
  have empty := empty_of_results_eq agree.1 split rfl
  cases empty

end Equivalence
end CS162.WordCount
