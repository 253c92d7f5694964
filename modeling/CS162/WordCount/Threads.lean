import CS162.Library.History
import CS162.Library.Transition
import CS162.WordCount.Equivalence

/-!
The threads of the parallel word count (hw-list: pwords.c, word_count_p.c). Each
thread adds the words of its file, one `add_word` after the other, and any thread
may take the next step. A thread that wants the mutex takes it when it is free;
then it looks the word up, stores, and gives the mutex back, each in a step of its
own.

What the list holds are the words stored so far, in whatever order that was.
-/

namespace CS162.WordCount
open CS162.Library

/-- Where a thread is in `add_word`. -/
inductive Pc where
  | outside
  | locked (word : Word)
  | searched (word : Word) (found : Option Nat)
  | stored
  deriving DecidableEq

structure Threads where
  lst : WordList
  lock : Option Nat
  pc : Nat → Pc
  todo : Nat → List Word

/-- `wc->count++` on the node that was found, else `list_push_back` of a new one -/
def WordList.store (list : WordList) (word : Word) : Option Nat → WordList
  | some id => list.increment id
  | none => list.pushBack word

namespace Threads

/-- One step of a thread. -/
def next (s : Threads) (t : Nat) : Option Threads :=
  match s.pc t with
  | .outside =>
      match s.todo t, s.lock with
      | word :: words, none =>
          some ⟨s.lst, some t, Function.update s.pc t (.locked word), Function.update s.todo t words⟩
      | _, _ => none
  | .locked word =>
      some ⟨s.lst, s.lock,
        Function.update s.pc t (.searched word ((s.lst.findWord word).map (·.id))), s.todo⟩
  | .searched word found =>
      some ⟨s.lst.store word found, s.lock, Function.update s.pc t .stored, s.todo⟩
  | .stored => some ⟨s.lst, none, Function.update s.pc t .outside, s.todo⟩

def start (inputs : List (List Word)) : Threads where
  lst := Sequential.start
  lock := none
  pc _ := .outside
  todo t := inputs[t]?.getD []

/-- The threads of `main`, one for each input. -/
def system (inputs : List (List Word)) : System Threads Nat :=
  .ofNext (fun s => s = start inputs) next

/-- All threads have come to their end, so that `main` has joined them. -/
def Joined (s : Threads) : Prop := ∀ t, s.pc t = .outside ∧ s.todo t = []

end Threads

section Counts
variable {list : WordList} {words : List Word}

theorem toInt32_succ (x : Int) : toInt32 (toInt32 x + 1) = toInt32 (x + 1) := by
  simp only [toInt32]
  omega

/-- The list holds these words, each counted as often as it is among them. -/
structure Holds (list : WordList) (words : List Word) : Prop where
  distinct : Distinct list
  hasWords : HasWords list words
  count : ∀ node ∈ list.nodes, node.wc.count = toInt32 (words.count node.wc.word)

theorem start_holds : Holds Sequential.start [] where
  distinct := start_distinct
  hasWords := start_hasWords
  count _ h := absurd h List.not_mem_nil

theorem count_append_of_ne {word other : Word} (h : other ≠ word) :
    (words ++ [word]).count other = words.count other := by
  have absent : other ∉ [word] := fun inside => h (List.mem_singleton.mp inside)
  rw [List.count_append, List.count_eq_zero_of_not_mem absent, Nat.add_zero]

theorem HasWords.eq_of_word {node other : Node} (h : HasWords list words) (hn : node ∈ list.nodes)
    (ho : other ∈ list.nodes) (same : node.wc.word = other.wc.word) : node = other :=
  List.inj_on_of_nodup_map h.nodup hn ho same

theorem Holds.addLocked (h : Holds list words) (word : Word) :
    Holds (Parallel.addLocked list word).2 (words ++ [word]) where
  distinct := h.distinct.addLocked word
  hasWords := h.hasWords.addLocked word
  count node hn := by
    rw [Parallel.addLocked] at hn
    cases search : list.findWord word with
    | some found =>
        have inside : found ∈ list.nodes := List.mem_of_find?_eq_some search
        have word_eq : found.wc.word = word := by simpa using List.find?_some search
        rw [search] at hn
        obtain ⟨old, ho, rfl⟩ := List.mem_map.mp hn
        by_cases here : old.id = found.id
        · obtain rfl : old = found := List.inj_on_of_nodup_map h.distinct.nodup ho inside here
          rw [if_pos rfl, increment_word, word_eq, List.count_append, List.count_singleton_self,
            Node.increment, h.count old ho, word_eq, toInt32_succ]
          rfl
        · have other : old.wc.word ≠ word := fun same =>
            here (congrArg Node.id (h.hasWords.eq_of_word ho inside (same.trans word_eq.symm)))
          rw [if_neg here, h.count old ho, count_append_of_ne other]
    | none =>
        have fresh : word ∉ words := fun inside =>
          not_mem_of_findWord search ((h.hasWords.mem word).mpr inside)
        rw [search] at hn
        cases List.mem_append.mp hn with
        | inl hn =>
            have other : node.wc.word ≠ word := fun same =>
              not_mem_of_findWord search (same ▸ List.mem_map_of_mem hn)
            rw [h.count node hn, count_append_of_ne other]
        | inr hn =>
            have none_yet : words.count word = 0 := List.count_eq_zero_of_not_mem fresh
            rw [List.mem_singleton.mp hn, WordList.fresh, List.count_append, List.count_singleton_self,
              none_yet]
            rfl

theorem store_eq (list : WordList) (word : Word) :
    list.store word ((list.findWord word).map (·.id)) = (Parallel.addLocked list word).2 := by
  rw [Parallel.addLocked]
  cases list.findWord word with
  | none => rfl
  | some node => rfl

end Counts

namespace Threads
variable {inputs : List (List Word)} {s s' : Threads}

/-- The word of a thread that is in `add_word` and has not stored it. -/
def pending : Pc → List Word
  | .outside => []
  | .locked word => [word]
  | .searched word _ => [word]
  | .stored => []

/-- What holds after every step, for the words stored so far in their order. -/
structure Inv (inputs : List (List Word)) (log : List (Nat × Word)) (s : Threads) : Prop where
  holds : Holds s.lst (log.map (·.2))
  split : ∀ t, owned log t ++ pending (s.pc t) ++ s.todo t = inputs[t]?.getD []
  lock : ∀ t, s.pc t ≠ .outside → s.lock = some t
  found : ∀ t word found, s.pc t = .searched word found → found = (s.lst.findWord word).map (·.id)

theorem inv_start (inputs : List (List Word)) : Inv inputs [] (start inputs) where
  holds := start_holds
  split _ := rfl
  lock _ h := absurd rfl h
  found _ _ _ h := by cases h

/-- The thread that is in `add_word` is alone there. -/
theorem Inv.alone {log : List (Nat × Word)} {t u : Nat} (h : Inv inputs log s)
    (inside : s.pc t ≠ .outside) (other : u ≠ t) : s.pc u = .outside := by
  by_contra also
  exact other (Option.some.inj ((h.lock u also).symm.trans (h.lock t inside)))

/-- A thread moves while all others are outside of `add_word`. -/
theorem Inv.move {log log' : List (Nat × Word)} {t : Nat} {p : Pc} (h : Inv inputs log s)
    (alone : ∀ u, u ≠ t → s.pc u = .outside) (pc : s'.pc = Function.update s.pc t p)
    (holds : Holds s'.lst (log'.map (·.2))) (todo : ∀ u, u ≠ t → s'.todo u = s.todo u)
    (others : ∀ u, u ≠ t → owned log' u = owned log u)
    (split : owned log' t ++ pending p ++ s'.todo t = inputs[t]?.getD [])
    (lock : p ≠ .outside → s'.lock = some t)
    (found : ∀ word found, p = .searched word found → found = (s'.lst.findWord word).map (·.id)) :
    Inv inputs log' s' where
  holds := holds
  split u := by
    by_cases same : u = t
    · subst same
      rw [pc, Function.update_self]
      exact split
    · rw [pc, Function.update_of_ne same, others u same, todo u same]
      exact h.split u
  lock u hu := by
    by_cases same : u = t
    · subst same
      rw [pc, Function.update_self] at hu
      exact lock hu
    · rw [pc, Function.update_of_ne same] at hu
      exact absurd (alone u same) hu
  found u word found' hu := by
    by_cases same : u = t
    · subst same
      rw [pc, Function.update_self] at hu
      exact found word found' hu
    · rw [pc, Function.update_of_ne same, alone u same] at hu
      cases hu

theorem Inv.next {log : List (Nat × Word)} {t : Nat} (h : Inv inputs log s)
    (step : s.next t = some s') : ∃ log', Inv inputs log' s' := by
  have split := h.split t
  cases here : s.pc t with
  | outside =>
      simp only [Threads.next, here] at step
      split at step
      · next word words todo free =>
          cases step
          have nobody (u : Nat) : s.pc u = .outside := by
            by_contra inside
            rw [h.lock u inside] at free
            cases free
          refine ⟨log, h.move (fun u _ => nobody u) rfl h.holds ?_ (fun _ _ => rfl) ?_ (fun _ => rfl) nofun⟩
          · exact fun u other => Function.update_of_ne other ..
          · rw [here, todo] at split
            simp only [Function.update_self]
            rw [← split, pending, pending, List.append_nil, List.append_assoc, List.singleton_append]
      · cases step
  | locked word =>
      simp only [Threads.next, here] at step
      cases step
      have inside : s.pc t ≠ .outside := here ▸ nofun
      rw [here] at split
      refine ⟨log, h.move (fun _ => h.alone inside) rfl h.holds (fun _ _ => rfl) (fun _ _ => rfl) split
        (fun _ => h.lock t inside) fun other found same => ?_⟩
      cases same
      rfl
  | searched word found =>
      simp only [Threads.next, here] at step
      cases step
      have inside : s.pc t ≠ .outside := here ▸ nofun
      rw [here] at split
      refine ⟨log ++ [(t, word)], h.move (fun _ => h.alone inside) rfl ?_ (fun _ _ => rfl) (fun u other => ?_)
        ?_ (fun _ => h.lock t inside) nofun⟩
      · rw [h.found t word found here, store_eq, List.map_append]
        exact h.holds.addLocked word
      · rw [owned_append, owned_singleton_ne (Ne.symm other), List.append_nil]
      · rw [owned_append, owned_singleton_self, pending, List.append_nil]
        exact split
  | stored =>
      simp only [Threads.next, here] at step
      cases step
      have inside : s.pc t ≠ .outside := here ▸ nofun
      rw [here] at split
      exact ⟨log, h.move (fun _ => h.alone inside) rfl h.holds (fun _ _ => rfl) (fun _ _ => rfl) split
        (fun out => absurd rfl out) nofun⟩

theorem exists_inv (h : (system inputs).Reachable s) : ∃ log, Inv inputs log s := by
  refine h.invariant (I := fun s => ∃ log, Inv inputs log s) (fun s init => ?_) fun s t s' inv step => ?_
  · cases init
    exact ⟨[], inv_start inputs⟩
  · obtain ⟨log, inv⟩ := inv
    exact inv.next step

theorem holds_of_joined (h : (system inputs).Reachable s) (joined : s.Joined) :
    ∃ words, words.Perm inputs.flatten ∧ Holds s.lst words := by
  obtain ⟨log, inv⟩ := exists_inv h
  refine ⟨log.map (·.2), perm_flatten_of_owned fun t => ?_, inv.holds⟩
  have split := inv.split t
  rw [(joined t).1, (joined t).2] at split
  simpa [pending] using split

end Threads
end CS162.WordCount
