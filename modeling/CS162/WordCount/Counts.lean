import Mathlib.Data.List.Lex
import Mathlib.Data.Prod.Lex
import CS162.WordCount.Threads

/-!
What the parallel word count prints does not depend on the schedule. When all
threads are joined, each word has one node with the number of its occurrences in
all inputs, as far as an `int` holds it; so an order that tells words apart leaves
one list, whatever order the words were added in.
-/

namespace CS162.WordCount
open CS162.Library

section Sorted
variable {less : LessFunc} {list : WordList} {words words' : List Word}

/-- Different words are told apart. -/
def TellsWords (less : LessFunc) : Prop :=
  ∀ a b : WordCountT, a.word ≠ b.word → less a b = true ∨ less b a = true

theorem lessList_weak (weak : StrictWeak less) : StrictWeak (lessList less) where
  asymm a b := weak.asymm a.wc b.wc
  trans a b c := weak.trans a.wc b.wc c.wc

/-- What a list that holds these words has in it, in some order. -/
def countsOf (words : List Word) : List WordCountT :=
  words.dedup.map fun word => ⟨word, toInt32 (words.count word)⟩

theorem Holds.perm_countsOf (h : Holds list words) (perm : words.Perm words') :
    (list.nodes.map (·.wc)).Perm (countsOf words') := by
  have nodup : (list.nodes.map (·.wc)).Nodup := by
    have by_word : ((list.nodes.map (·.wc)).map (·.word)).Nodup := by
      rw [List.map_map]
      exact h.hasWords.nodup
    exact by_word.of_map _
  have nodup' : (countsOf words').Nodup := by
    refine List.Nodup.of_map WordCountT.word ?_
    rw [countsOf, List.map_map]
    exact (List.map_id' words'.dedup).symm ▸ words'.nodup_dedup
  refine (List.perm_ext_iff_of_nodup nodup nodup').mpr fun wc => ?_
  simp only [countsOf, List.mem_map, List.mem_dedup]
  constructor
  · intro inside
    obtain ⟨node, hn, rfl⟩ := inside
    refine ⟨node.wc.word, perm.mem_iff.mp ((h.hasWords.mem _).mp (List.mem_map_of_mem hn)), ?_⟩
    rw [← perm.count_eq, ← h.count node hn]
  · intro inside
    obtain ⟨word, hw, rfl⟩ := inside
    obtain ⟨node, hn, rfl⟩ := List.mem_map.mp ((h.hasWords.mem word).mpr (perm.mem_iff.mpr hw))
    refine ⟨node, hn, ?_⟩
    rw [← perm.count_eq, ← h.count node hn]

theorem eq_of_sorted (tells : TellsWords less) {l l' : List WordCountT}
    (perm : l.Perm (countsOf words)) (perm' : l'.Perm (countsOf words))
    (sorted : l.Pairwise fun a b => less b a = false)
    (sorted' : l'.Pairwise fun a b => less b a = false) : l = l' := by
  refine (perm.trans perm'.symm).eq_of_pairwise ?_ sorted sorted'
  intro a b ha hb above below
  have same : a.word = b.word := by
    by_contra differ
    cases tells a b differ with
    | inl less_ab => rw [below] at less_ab; cases less_ab
    | inr less_ba => rw [above] at less_ba; cases less_ba
  obtain ⟨word, -, rfl⟩ := List.mem_map.mp (perm.mem_iff.mp ha)
  obtain ⟨word', -, rfl⟩ := List.mem_map.mp (perm'.mem_iff.mp hb)
  cases same
  rfl

/-- The sort of a list that holds the words leaves their counts in that order. -/
theorem Holds.wordcountSort (h : Holds list words) (perm : words.Perm words') (weak : StrictWeak less)
    {passes : Nat} (enough : list.nodes.length < passes) :
    ∃ list', list.wordcountSort passes less = some list' ∧
      (list'.nodes.map (·.wc)).Perm (countsOf words') ∧
      (list'.nodes.map (·.wc)).Pairwise fun a b => less b a = false := by
  have few := descents_lt_length (lessList less) list.nodes
  have enough' : descents (lessList less) list.nodes < passes := by omega
  obtain ⟨nodes, done, same, sorted⟩ := (lessList_weak weak).naturalMerge_spec enough'
  refine ⟨⟨nodes, list.allocated⟩, ?_, ?_, ?_⟩
  · rw [WordList.wordcountSort, done]
    rfl
  · exact (same.map _).trans (h.perm_countsOf perm)
  · exact List.pairwise_map.mpr sorted

end Sorted

namespace Threads
variable {inputs : List (List Word)} {less : LessFunc}

/-- The list has each word of the inputs once, with the number of its occurrences. -/
structure Counted (inputs : List (List Word)) (list : WordList) : Prop where
  once : (list.nodes.map (·.wc.word)).Nodup
  mem : ∀ word, word ∈ list.nodes.map (·.wc.word) ↔ word ∈ inputs.flatten
  count : ∀ node ∈ list.nodes, node.wc.count = inputs.flatten.count node.wc.word

/-- One list is left by every schedule. -/
def OneList (inputs : List (List Word)) (less : LessFunc) : Prop :=
  ∃ final : List WordCountT, ∀ s, (system inputs).Reachable s → s.Joined →
    ∀ passes, s.lst.nodes.length < passes →
      ∃ list, s.lst.wordcountSort passes less = some list ∧ list.nodes.map (·.wc) = final

theorem oneList (weak : StrictWeak less) (tells : TellsWords less) : OneList inputs less := by
  obtain ⟨final, -, perm, sorted⟩ :=
    weak.naturalMerge_spec (l := countsOf inputs.flatten) (Nat.lt_of_lt_of_le (descents_lt_length _ _) (Nat.le_refl _))
  refine ⟨final, fun s reachable joined passes enough => ?_⟩
  obtain ⟨words, all, holds⟩ := holds_of_joined reachable joined
  obtain ⟨list, done, perm', sorted'⟩ := holds.wordcountSort all weak enough
  exact ⟨list, done, eq_of_sorted tells perm' perm sorted' sorted⟩

/-- After all threads are joined each distinct word has one node with its number of
occurrences over all inputs, if no word occurs more than `INT_MAX` times, and one
list is left after the sort. -/
theorem counted_and_oneList (few : ∀ word, (inputs.flatten.count word : Int) ≤ intMax)
    (weak : StrictWeak less) (tells : TellsWords less) :
    (∀ s, (system inputs).Reachable s → s.Joined → Counted inputs s.lst) ∧ OneList inputs less := by
  refine ⟨fun s reachable joined => ?_, oneList weak tells⟩
  obtain ⟨words, all, holds⟩ := holds_of_joined reachable joined
  refine ⟨holds.hasWords.nodup, fun word => ?_, fun node hn => ?_⟩
  · exact (holds.hasWords.mem word).trans all.mem_iff
  · rw [holds.count node hn, all.count_eq]
    exact toInt32_of_range (by omega) (few _)

section Witness

/-- `less_count`: by the count, and by the word where the counts are equal -/
def countRank (wc : WordCountT) : Int ×ₗ List Nat := toLex (wc.count, wc.word.map UInt8.toNat)

def lessCount (wc1 wc2 : WordCountT) : Bool := decide (countRank wc1 < countRank wc2)

theorem lessCount_tellsWords : TellsWords lessCount := by
  intro a b differ
  have apart : countRank a ≠ countRank b := by
    intro same
    have words := congrArg (fun rank => (ofLex rank).2) same
    exact differ (List.map_injective_iff.mpr (fun _ _ => UInt8.toNat_inj.mp) words)
  cases lt_or_gt_of_ne apart with
  | inl below => exact .inl (decide_eq_true below)
  | inr above => exact .inr (decide_eq_true above)

/-- `"a"` and `"b"` -/
def twoInputs : List (List Word) := [[[0x61], [0x62]], [[0x61]]]

theorem counted_and_oneList_twoInputs :
    (∀ s, (system twoInputs).Reachable s → s.Joined → Counted twoInputs s.lst) ∧
      OneList twoInputs lessCount := by
  apply counted_and_oneList
  case few =>
    intro word
    have few := List.count_le_length (a := word) (l := twoInputs.flatten)
    have three : twoInputs.flatten.length = 3 := rfl
    rw [intMax]
    omega
  case weak => exact .of_rank countRank
  case tells => exact lessCount_tellsWords

end Witness

section Overflow

/-- A thread that is outside of `add_word` adds its next word. -/
theorem add_next {s : Threads} {word : Word} {words : List Word} (h : (system inputs).Reachable s)
    (outside : ∀ t, s.pc t = .outside) (free : s.lock = none) (todo : s.todo 0 = word :: words) :
    ∃ s', (system inputs).Reachable s' ∧ (∀ t, s'.pc t = .outside) ∧ s'.lock = none ∧
      s'.todo = Function.update s.todo 0 words := by
  let found := (s.lst.findWord word).map (·.id)
  let s1 : Threads := ⟨s.lst, some 0, Function.update s.pc 0 (.locked word), Function.update s.todo 0 words⟩
  let s2 : Threads := ⟨s.lst, some 0, Function.update s1.pc 0 (.searched word found), s1.todo⟩
  let s3 : Threads := ⟨s.lst.store word found, some 0, Function.update s2.pc 0 .stored, s1.todo⟩
  let s4 : Threads := ⟨s3.lst, none, Function.update s3.pc 0 .outside, s1.todo⟩
  have step1 : s.next 0 = some s1 := by simp only [next, outside, todo, free, s1]
  have step2 : s1.next 0 = some s2 := by simp only [next, s1, s2, found, Function.update_self]
  have step3 : s2.next 0 = some s3 := by simp only [next, s2, s3, Function.update_self]
  have step4 : s3.next 0 = some s4 := by simp only [next, s3, s4, Function.update_self]
  refine ⟨s4, (((h.step step1).step step2).step step3).step step4, fun t => ?_, rfl, rfl⟩
  by_cases same : t = 0
  · subst same
    simp only [s4, Function.update_self]
  · simp only [s4, s3, s2, s1, Function.update_of_ne same]
    exact outside t

theorem exists_joined (words : List Word) : ∃ s, (system [words]).Reachable s ∧ s.Joined := by
  have finish (rest : List Word) (s : Threads) (h : (system [words]).Reachable s)
      (outside : ∀ t, s.pc t = .outside) (free : s.lock = none) (mine : s.todo 0 = rest)
      (others : ∀ t, t ≠ 0 → s.todo t = []) : ∃ s, (system [words]).Reachable s ∧ s.Joined := by
    induction rest generalizing s with
    | nil =>
        refine ⟨s, h, fun t => ⟨outside t, ?_⟩⟩
        by_cases first : t = 0
        · exact first ▸ mine
        · exact others t first
    | cons word rest ih =>
        obtain ⟨s', h', outside', free', todo⟩ := add_next h outside free mine
        refine ih s' h' outside' free' ?_ fun t other => ?_
        · rw [todo, Function.update_self]
        · rw [todo, Function.update_of_ne other]
          exact others t other
  refine finish words (start [words]) (.init rfl) (fun _ => rfl) rfl rfl fun t other => ?_
  obtain ⟨t, rfl⟩ := Nat.exists_eq_succ_of_ne_zero other
  rfl

theorem not_counted_of_many {n : Nat} (many : intMax < n) :
    ¬ ∀ s, (system [List.replicate n [0x61]]).Reachable s → s.Joined →
      Counted [List.replicate n [0x61]] s.lst := by
  intro counted
  obtain ⟨s, reachable, joined⟩ := exists_joined (List.replicate n [0x61])
  obtain ⟨words, all, holds⟩ := holds_of_joined reachable joined
  have right := counted s reachable joined
  have total : [List.replicate n ([0x61] : Word)].flatten = List.replicate n [0x61] := by
    rw [List.flatten_cons, List.flatten_nil, List.append_nil]
  have inside : ([0x61] : Word) ∈ s.lst.nodes.map (·.wc.word) := by
    refine (right.mem _).mpr ?_
    rw [total]
    refine List.mem_replicate.mpr ⟨?_, rfl⟩
    rw [intMax] at many
    omega
  obtain ⟨node, hn, word⟩ := List.mem_map.mp inside
  have count := right.count node hn
  rw [holds.count node hn, all.count_eq, total, word, List.count_replicate_self] at count
  simp only [toInt32, intMax] at count many
  omega

/-- A word that occurs `2 ^ 31` times is not counted. -/
theorem not_counted_of_overflow :
    ¬ ∀ s, (system [List.replicate (2 ^ 31) [0x61]]).Reachable s → s.Joined →
      Counted [List.replicate (2 ^ 31) [0x61]] s.lst :=
  not_counted_of_many (by decide)

end Overflow
end Threads
end CS162.WordCount
