import Mathlib.Data.List.Destutter
import CS162.Library.Outcome
import CS162.Pintos.KernelList

/-!
What each kernel list operation does to the sequences that the links stand for. The
operations on one element and on a range come down to two nodes being joined and a
range being placed between two.
-/

namespace CS162.Pintos.KernelList
open CS162.Library
variable {Λ ε : Type} {m : Links Λ ε} {S : Λ → List ε} {l : Λ} {front back range : List ε}

section Readers

@[simp] theorem follow_some (n : Elem Λ ε) : follow (some n) = .ok n := rfl

@[simp] theorem assert_true : assert true = .ok () := rfl

theorem placed_eq (n : Elem Λ ε) : (isInterior m n || isTail m n) = (m.prev n).isSome := by
  rw [isInterior, isTail]
  cases m.prev n <;> cases m.next n <;> rfl

theorem followed_eq (n : Elem Λ ε) : (isHead m n || isInterior m n) = (m.next n).isSome := by
  rw [isInterior, isHead]
  cases m.prev n <;> cases m.next n <;> rfl

theorem Linked.next (h : Linked m S) (cut : S l = front ++ back) :
    m.next (nodeAt .forward l front back) = some (nodeAt .backward l front back) :=
  h.cut .forward l front back cut

theorem Linked.prev (h : Linked m S) (cut : S l = front ++ back) :
    m.prev (nodeAt .backward l front back) = some (nodeAt .forward l front back) :=
  h.cut .backward l front back cut

theorem Linked.next_elem (h : Linked m S) {e : ε} (cut : S l = front ++ e :: back) :
    m.next (.elem e) = some (nodeAt .backward l (front ++ [e]) back) := by
  have behind : S l = (front ++ [e]) ++ back := by
    rw [cut, List.append_assoc]
    rfl
  have next := Linked.next h behind
  rwa [nodeAt_forward_concat] at next

theorem Linked.prev_elem (h : Linked m S) {e : ε} (cut : S l = front ++ e :: back) :
    m.prev (.elem e) = some (nodeAt .forward l front (e :: back)) :=
  Linked.prev h cut

theorem listBegin_eq (h : Linked m S) (l : Λ) : listBegin m l = some (nodeAt .backward l [] (S l)) :=
  h.cut .forward l [] (S l) rfl

end Readers

variable [DecidableEq Λ] [DecidableEq ε]

theorem listEmpty_eq (h : Linked m S) (l : Λ) : listEmpty m l = (S l).isEmpty := by
  rw [listEmpty, listBegin_eq h l]
  cases S l with
  | nil => exact decide_eq_true rfl
  | cons e rest => exact decide_eq_false (fun same => by cases same)

section Calls
variable {before first last final p n q : Elem Λ ε}

theorem listInsert_eq (placed : m.prev before = some p) (other : before ≠ first) :
    listInsert m before first = .ok (m.place p first first before) := by
  have found : Function.update m.prev first (some p) before = some p := by
    rw [Function.update_of_ne other, placed]
  simp only [listInsert, placed_eq, placed, Option.isSome_some, assert_true, ok_bind, Links.setPrev_prev,
    Links.setNext_prev, found, follow_some]
  rfl

theorem listRemove_eq (prev : m.prev first = some p) (next : m.next first = some n) :
    listRemove m first = .ok (m.join p n, some n) := by
  have found : Function.update m.next p (some n) first = some n := by
    by_cases same : first = p
    · rw [same, Function.update_self]
    · rw [Function.update_of_ne same, next]
  simp only [listRemove, isInterior, prev, next, Option.isSome_some, assert_true, ok_bind, Bool.and_self,
    Links.setNext_next, Links.setNext_prev, Links.setPrev_next, found, follow_some]
  rfl

theorem listSplice_eq (start : (m.prev before).isSome) (some_range : first ≠ last)
    (prev_last : m.prev last = some final) (prev_first : m.prev first = some p)
    (next_first : (m.next first).isSome) (prev_final : (m.prev final).isSome)
    (next_final : m.next final = some n) (other : before ≠ first)
    (placed : (m.join p n).prev before = some q) :
    listSplice m before first last = .ok ((m.join p n).place q first final before) := by
  have found : Function.update m.next p (some n) final = some n := by
    by_cases same : final = p
    · rw [same, Function.update_self]
    · rw [Function.update_of_ne same, next_final]
  have placed' : Function.update m.prev n (some p) before = some q := placed
  have found' : Function.update (Function.update m.prev n (some p)) first (some q) before = some q := by
    rw [Function.update_of_ne other, placed']
  have inside : isInterior m first = true := by
    rw [isInterior, prev_first, next_first]
    rfl
  have inside' : isInterior m final = true := by
    rw [isInterior, prev_final, next_final]
    rfl
  simp only [listSplice, listPrev, placed_eq, start, assert_true, ok_bind, if_neg some_range, prev_last,
    Option.isSome_some, inside, inside', prev_first, next_final, Links.setNext_next, Links.setNext_prev,
    Links.setPrev_prev, found, placed', found', follow_some, pure_bind]
  rfl

end Calls

section Operations
variable {e : ε}

/-- Every list has been initialized, by `list_init` or `LIST_INITIALIZER`. -/
def Initialized (m : Links Λ ε) : Prop :=
  ∀ l, m.prev (.head l) = none ∧ m.next (.head l) = some (.tail l) ∧
    m.prev (.tail l) = some (.head l) ∧ m.next (.tail l) = none

omit [DecidableEq Λ] [DecidableEq ε] in
theorem Initialized.linked (h : Initialized m) : Linked m fun _ => [] := by
  refine ⟨⟨fun _ => List.nodup_nil, fun _ _ _ inside => absurd inside List.not_mem_nil⟩, ?_, ?_⟩
  · intro d l front back split
    obtain ⟨rfl, rfl⟩ := List.append_eq_nil_iff.mp split.symm
    cases d with
    | forward => exact (h l).2.1
    | backward => exact (h l).2.2.1
  · intro d l
    cases d with
    | forward => exact (h l).2.2.2
    | backward => exact (h l).1

theorem listInit_spec (h : Linked m S) (l : Λ) : Linked (listInit m l) (Function.update S l []) := by
  have apart : Apart (Function.update S l []) :=
    h.apart.update List.nodup_nil fun e inside => absurd inside List.not_mem_nil
  refine ⟨apart, fun d l' front back split => ?_, fun d l' => ?_⟩
  · by_cases same : l' = l
    · subst same
      rw [Function.update_self] at split
      obtain ⟨rfl, rfl⟩ := List.append_eq_nil_iff.mp split.symm
      cases d <;> simp [listInit, Links.link, Direction.opposite]
    · have elsewhere : nodeAt d l' front back ≠ .head l ∧ nodeAt d l' front back ≠ .tail l := by
        cases d with
        | forward => cases last : front.getLast? <;> simp [nodeAt, last, same]
        | backward => cases first : back.head? <;> simp [nodeAt, first, same]
      rw [Function.update_of_ne same] at split
      rw [← h.cut d l' front back split]
      cases d <;> simp [listInit, Links.link, elsewhere]
  · have stops := h.stop d l'
    by_cases same : l' = l
    · subst same
      cases d <;> simp [listInit, Links.link, Library.stop]
    · cases d <;> simpa [listInit, Links.link, Library.stop, same] using stops

theorem listInsert_spec (h : Linked m S) (fresh : ∀ l', e ∉ S l') (cut : S l = front ++ back) :
    ∃ m', listInsert m (nodeAt .backward l front back) (.elem e) = .ok m' ∧
      Linked m' (Function.update S l (front ++ e :: back)) := by
  have other : nodeAt .backward l front back ≠ .elem e := by
    intro same
    cases back with
    | nil => cases same
    | cons e' back =>
        cases same
        exact fresh l (by simp [cut])
  have placed := h.place cut (segment_singleton m e) (List.cons_ne_nil e []) (List.nodup_singleton e)
    fun e' inside => List.mem_singleton.mp inside ▸ fresh
  rw [List.append_assoc, List.singleton_append] at placed
  exact ⟨_, listInsert_eq (Linked.prev h cut) other, placed⟩

theorem listRemove_spec (h : Linked m S) (cut : S l = front ++ e :: back) :
    ∃ m', listRemove m (.elem e) = .ok (m', some (nodeAt .backward l front back)) ∧
      Linked m' (Function.update S l (front ++ back)) ∧ ∀ l', e ∉ Function.update S l (front ++ back) l' := by
  have cut' : S l = front ++ [e] ++ back := by
    rw [cut, List.append_assoc]
    rfl
  obtain ⟨linked, -, -, fresh⟩ := h.join cut'
  exact ⟨_, listRemove_eq (Linked.prev_elem h cut) (Linked.next_elem h cut), linked,
    fresh e (List.mem_singleton_self e)⟩

/-- A range of one list goes before an element outside of it, of the same list or of
another. -/
theorem listSplice_spec (h : Linked m S) {l' : Λ} {front' back' : List ε} (cut : S l = front ++ range ++ back)
    (some_range : range ≠ []) (place : Function.update S l (front ++ back) l' = front' ++ back') :
    ∃ m', listSplice m (nodeAt .backward l' front' back') (nodeAt .backward l front (range ++ back))
        (nodeAt .backward l (front ++ range) back) = .ok m' ∧
      Linked m' (Function.update (Function.update S l (front ++ back)) l' (front' ++ range ++ back')) := by
  obtain ⟨joined, segment, nodup, fresh⟩ := h.join cut
  have whole : S l = front ++ (range ++ back) := by rw [cut, List.append_assoc]
  have first_node : nodeAt .backward l front (range ++ back) = nodeAt .backward l' front' range := by
    cases range with
    | nil => exact absurd rfl some_range
    | cons e range => rfl
  have last_node : nodeAt .forward l (front ++ range) back = nodeAt .forward l' range back' := by
    obtain rfl | ⟨range, e, rfl⟩ := List.eq_nil_or_concat' range
    · exact absurd rfl some_range
    · rw [← List.append_assoc, nodeAt_forward_concat, nodeAt_forward_concat]
  have start : (m.prev (nodeAt .backward l' front' back')).isSome := by
    obtain ⟨rfl, rfl, rfl⟩ | ⟨F, B, old, same, -⟩ := cut_without cut place
    · have prev := Linked.prev h cut
      exact Option.isSome_of_eq_some prev
    · rw [← same]
      exact Option.isSome_of_eq_some (Linked.prev h old)
  have distinct : nodeAt .backward l front (range ++ back) ≠ nodeAt .backward l (front ++ range) back := by
    intro same
    exact some_range (List.append_right_eq_self.mp (nodeAt_inj h.apart whole cut same).2.1.symm)
  have next_first : (m.next (nodeAt .backward l front (range ++ back))).isSome := by
    cases range with
    | nil => exact absurd rfl some_range
    | cons e range => exact Option.isSome_of_eq_some (Linked.next_elem h whole)
  have prev_final : (m.prev (nodeAt .forward l (front ++ range) back)).isSome := by
    obtain rfl | ⟨range, e, rfl⟩ := List.eq_nil_or_concat' range
    · exact absurd rfl some_range
    · have last : S l = (front ++ range) ++ e :: back := by simp [cut]
      rw [← List.append_assoc, nodeAt_forward_concat]
      exact Option.isSome_of_eq_some (Linked.prev_elem h last)
  have outside : nodeAt .backward l' front' back' ≠ nodeAt .backward l front (range ++ back) := by
    intro same
    cases range with
    | nil => exact some_range rfl
    | cons e range =>
        cases back' with
        | nil => cases same
        | cons e' back' =>
            cases same
            exact fresh e List.mem_cons_self l' (by simp [place])
  have done := listSplice_eq start distinct (Linked.prev h cut) (Linked.prev h whole) next_first prev_final
    (Linked.next h cut) outside (Linked.prev joined place)
  rw [first_node, last_node] at done
  exact ⟨_, by rw [first_node]; exact done, joined.place place segment some_range nodup fresh⟩

theorem listPushFront_spec (h : Linked m S) (fresh : ∀ l', e ∉ S l') :
    ∃ m', listPushFront m l (.elem e) = .ok m' ∧ Linked m' (Function.update S l (e :: S l)) := by
  obtain ⟨m', done, linked⟩ := listInsert_spec h fresh (List.nil_append (S l)).symm
  refine ⟨m', ?_, linked⟩
  rw [listPushFront, listBegin_eq h l, follow_some, ok_bind]
  exact done

theorem listPushBack_spec (h : Linked m S) (fresh : ∀ l', e ∉ S l') :
    ∃ m', listPushBack m l (.elem e) = .ok m' ∧ Linked m' (Function.update S l (S l ++ [e])) :=
  listInsert_spec h fresh (List.append_nil (S l)).symm

theorem listPopFront_spec (h : Linked m S) (cut : S l = e :: back) :
    ∃ m', listPopFront m l = .ok (m', some (.elem e)) ∧ Linked m' (Function.update S l back) := by
  obtain ⟨m', done, linked, -⟩ := listRemove_spec h (cut.trans (List.nil_append _).symm)
  have front : m.next (.head l) = some (.elem e) := by
    have first := listBegin_eq h l
    rwa [cut] at first
  refine ⟨m', ?_, linked⟩
  simp only [listPopFront, listFront, listEmpty_eq h l, cut, List.isEmpty_cons, Bool.not_false, assert_true,
    ok_bind, pure_bind, front, follow_some, done]
  rfl

theorem listPopBack_spec (h : Linked m S) (cut : S l = front ++ [e]) :
    ∃ m', listPopBack m l = .ok (m', some (.elem e)) ∧ Linked m' (Function.update S l front) := by
  obtain ⟨m', done, linked, -⟩ := listRemove_spec h cut
  rw [List.append_nil] at linked
  have back : m.prev (.tail l) = some (.elem e) := by
    have last := h.cut .backward l (front ++ [e]) [] (by rw [cut, List.append_nil])
    rwa [Direction.opposite, nodeAt_forward_concat] at last
  have some_elem : (S l).isEmpty = false := by
    rw [cut]
    cases front <;> rfl
  refine ⟨m', ?_, linked⟩
  simp only [listPopBack, listBack, listEmpty_eq h l, some_elem, Bool.not_false, assert_true, ok_bind, pure_bind,
    back, follow_some, done]
  rfl

end Operations

section Reverse

/-- The links after the loop of `list_reverse` has been at these elements. -/
def exchange (m : Links Λ ε) (visited : List ε) : Links Λ ε where
  prev n := if n ∈ visited.map .elem then m.next n else m.prev n
  next n := if n ∈ visited.map .elem then m.prev n else m.next n

theorem exchange_nil : exchange m [] = m := rfl

theorem exchange_concat {e : ε} (new : e ∉ front) :
    ((exchange m front).setPrev (.elem e) ((exchange m front).next (.elem e))).setNext (.elem e)
      ((exchange m front).prev (.elem e)) = exchange m (front ++ [e]) := by
  ext1
  · funext n
    by_cases here : n = .elem e
    · subst here
      simp [exchange, new]
    · simp [exchange, here]
  · funext n
    by_cases here : n = .elem e
    · subst here
      simp [exchange, new]
    · simp [exchange, here]

/-- From an element on, the loop exchanges the pointers of all that are left. -/
theorem reverseLoop_eq (h : Linked m S) {rounds : Nat} (cut : S l = front ++ back) (enough : back.length < rounds) :
    reverseLoop l rounds (exchange m front) (some (nodeAt .backward l front back)) =
      .ok (exchange m (S l)) := by
  induction back generalizing front rounds with
  | nil =>
      cases rounds with
      | zero => exact absurd enough (Nat.not_lt_zero _)
      | succ rounds =>
          rw [cut, List.append_nil, reverseLoop]
          exact if_pos rfl
  | cons e back ih =>
      cases rounds with
      | zero => exact absurd enough (Nat.not_lt_zero _)
      | succ rounds =>
          have behind : S l = (front ++ [e]) ++ back := by
            rw [cut, List.append_assoc]
            rfl
          have new : e ∉ front := by
            intro inside
            have nodup := h.apart.nodup l
            rw [cut] at nodup
            exact List.disjoint_of_nodup_append nodup inside List.mem_cons_self
          have onward : (exchange m (front ++ [e])).prev (.elem e) =
              some (nodeAt .backward l (front ++ [e]) back) := by
            rw [← Linked.next_elem h cut]
            exact if_pos (List.mem_map_of_mem (by simp))
          have going : some (nodeAt .backward l front (e :: back)) ≠ some (listEnd l) := by
            intro same
            cases same
          rw [reverseLoop, if_neg going, follow_some, ok_bind, nodeAt_backward_cons]
          simp only [exchange_concat new, onward]
          exact ih behind (Nat.lt_of_succ_lt_succ enough)

/-- The links after `list_reverse` of a list from `x` to `y`. -/
def reversed (m : Links Λ ε) (l : Λ) (visited : List ε) (x y : ε) : Links Λ ε :=
  ((((exchange m visited).setNext (.head l) (some (.elem y))).setPrev (.tail l) (some (.elem x))).setPrev
    (.elem y) (some (.head l))).setNext (.elem x) (some (.tail l))

section Reversed
variable (m) (l) (visited : List ε) {x y e : ε}

theorem reversed_next_head : (reversed m l visited x y).next (.head l) = some (.elem y) := by
  simp [reversed]

theorem reversed_next_first : (reversed m l visited x y).next (.elem x) = some (.tail l) := by
  simp [reversed]

theorem reversed_prev_tail : (reversed m l visited x y).prev (.tail l) = some (.elem x) := by
  simp [reversed]

theorem reversed_prev_last : (reversed m l visited x y).prev (.elem y) = some (.head l) := by
  simp [reversed]

theorem reversed_next_elem (inside : e ∈ visited) (other : e ≠ x) :
    (reversed m l visited x y).next (.elem e) = m.prev (.elem e) := by
  simp [reversed, exchange, inside, other]

theorem reversed_prev_elem (inside : e ∈ visited) (other : e ≠ y) :
    (reversed m l visited x y).prev (.elem e) = m.next (.elem e) := by
  simp [reversed, exchange, inside, other]

end Reversed

theorem listReverse_eq (h : Linked m S) {rounds : Nat} {x y : ε} (first : S l = x :: back)
    (last : S l = front ++ [y]) (enough : (S l).length < rounds) :
    listReverse m rounds l = .ok (reversed m l (S l) x y) := by
  have loop := reverseLoop_eq h (List.nil_append (S l)).symm enough
  have some_elem : (S l).isEmpty = false := by
    rw [first]
    rfl
  have head_next : (exchange m (S l)).next (.head l) = some (.elem x) := by
    have start := listBegin_eq h l
    rw [first] at start
    exact (if_neg (by simp)).trans start
  have tail_prev : (exchange m (S l)).prev (.tail l) = some (.elem y) := by
    have finish := h.cut .backward l (front ++ [y]) [] (by rw [last, List.append_nil])
    rw [Direction.opposite, nodeAt_forward_concat] at finish
    exact (if_neg (by simp)).trans finish
  have first_next : (exchange m (S l)).next (.elem x) = some (.head l) := by
    have start := Linked.prev_elem h (first.trans (List.nil_append _).symm)
    exact (if_pos (List.mem_map_of_mem (by simp [first]))).trans start
  have last_prev : (exchange m (S l)).prev (.elem y) = some (.tail l) := by
    have finish := Linked.next_elem h last
    exact (if_pos (List.mem_map_of_mem (by simp [last]))).trans finish
  rw [exchange_nil] at loop
  simp only [listReverse, listEmpty_eq h l, some_elem, Bool.false_eq_true, if_false, listBegin_eq h l, loop, ok_bind,
    head_next, tail_prev, Links.setPrev_next, Links.setPrev_prev, Links.setNext_next, Links.setNext_prev,
    Function.update_self, follow_some]
  rw [Function.update_of_ne (by simp), Function.update_of_ne (by simp), first_next, last_prev]
  rfl

omit [DecidableEq ε] in
theorem turned_elem {e : ε} (d : Direction) (inside : e ∈ S l) :
    ∃ front back, S l = front ++ back ∧ (.elem e : Elem Λ ε) = turned l (nodeAt d l front back) := by
  obtain ⟨front, back, cut⟩ := List.append_of_mem inside
  cases d with
  | forward =>
      refine ⟨front ++ [e], back, by rw [cut, List.append_assoc]; rfl, ?_⟩
      rw [nodeAt_forward_concat]
      rfl
  | backward => exact ⟨front, e :: back, cut, rfl⟩

omit [DecidableEq ε] in
theorem turned_stop (S : Λ → List ε) (d : Direction) (l : Λ) :
    ∃ front back, S l = front ++ back ∧ Library.stop d l = turned l (nodeAt d l front back) := by
  cases d with
  | forward => exact ⟨[], S l, rfl, (if_pos rfl).symm⟩
  | backward => exact ⟨S l, [], (List.append_nil _).symm, (if_pos rfl).symm⟩

omit [DecidableEq ε] in
theorem turned_tail (front : List ε) : turned l (nodeAt .backward l front []) = .head l := if_pos rfl

omit [DecidableEq ε] in
theorem turned_head (back : List ε) : turned l (nodeAt .forward l [] back) = .tail l := if_pos rfl

theorem reversed_link (h : Linked m S) {x y : ε} {rest init : List ε} (first : S l = x :: rest)
    (last : S l = init ++ [y]) {d : Direction} (cut : S l = front ++ back) :
    (reversed m l (S l) x y).link d (turned l (nodeAt d.opposite l front back)) =
      some (turned l (nodeAt d l front back)) := by
  have nodup := h.apart.nodup l
  cases d with
  | forward =>
      cases back with
      | nil =>
          rw [List.append_nil] at cut
          rw [Direction.opposite, turned_tail, ← cut, last, nodeAt_forward_concat]
          exact reversed_next_head m l _
      | cons e back =>
          obtain rfl | ⟨front, z, rfl⟩ := List.eq_nil_or_concat' front
          · rw [turned_head]
            cases first.symm.trans cut
            exact reversed_next_first m l _
          · have other : e ≠ x := by
              intro same
              rw [same] at cut
              have start : S l = [] ++ x :: rest := first
              obtain ⟨before, -⟩ := split_unique (cut ▸ nodup) (cut.symm.trans start)
              exact List.append_ne_nil_of_right_ne_nil _ (List.cons_ne_nil _ _) before
            refine (reversed_next_elem m l _ (by simp [cut]) other).trans ?_
            have old := Linked.prev_elem h cut
            rw [nodeAt_forward_concat] at old ⊢
            exact old
  | backward =>
      obtain rfl | ⟨front, e, rfl⟩ := List.eq_nil_or_concat' front
      · rw [List.nil_append, first] at cut
        rw [Direction.opposite, turned_head, ← cut]
        exact reversed_prev_tail m l _
      · rw [Direction.opposite, nodeAt_forward_concat]
        rw [List.append_assoc, List.singleton_append] at cut
        cases back with
        | nil =>
            rw [turned_tail]
            cases List.append_inj_right' (last.symm.trans cut) rfl
            exact reversed_prev_last m l _
        | cons z back =>
            have other : e ≠ y := by
              intro same
              rw [same] at cut
              obtain ⟨-, behind⟩ := split_unique (cut ▸ nodup) (cut.symm.trans last)
              cases behind
            exact (reversed_prev_elem m l _ (by simp [cut]) other).trans (Linked.next_elem h cut)

theorem listReverse_spec (h : Linked m S) {rounds : Nat} (l : Λ) (enough : (S l).length < rounds) :
    ∃ m', listReverse m rounds l = .ok m' ∧ Linked m' (Function.update S l (S l).reverse) := by
  cases first : S l with
  | nil =>
      refine ⟨m, ?_, ?_⟩
      · rw [listReverse, listEmpty_eq h l, first]
        rfl
      · rw [List.reverse_nil, ← first, Function.update_eq_self]
        exact h
  | cons x rest =>
      obtain none_left | ⟨init, y, last⟩ := List.eq_nil_or_concat' (S l)
      · rw [first] at none_left
        cases none_left
      · rw [← first]
        refine ⟨_, listReverse_eq h first last enough, h.reverse (fun d front back cut => ?_) fun d n outside => ?_⟩
        · exact reversed_link h first last cut
        · have not_elem : n ∉ (S l).map .elem := by
            intro inside
            obtain ⟨e, there, rfl⟩ := List.mem_map.mp inside
            obtain ⟨front, back, cut, same⟩ := turned_elem d.opposite there
            exact outside front back cut same
          have not_stop : n ≠ Library.stop d.opposite l := by
            intro same
            obtain ⟨front, back, cut, same'⟩ := turned_stop S d.opposite l
            exact outside front back cut (same.trans same')
          have not_x : n ≠ .elem x := by
            intro same
            exact not_elem (same ▸ List.mem_map_of_mem (by simp [first]))
          have not_y : n ≠ .elem y := by
            intro same
            exact not_elem (same ▸ List.mem_map_of_mem (by simp [last]))
          cases d with
          | forward =>
              refine (Function.update_of_ne not_x ..).trans ((Function.update_of_ne not_stop ..).trans ?_)
              exact if_neg not_elem
          | backward =>
              refine (Function.update_of_ne not_y ..).trans ((Function.update_of_ne not_stop ..).trans ?_)
              exact if_neg not_elem

end Reverse

section Unique
variable {less : Elem Λ ε → Elem Λ ε → Bool} {duplicates : Option Λ} {kept rest : List ε} {e : ε} {rounds : Nat}

/-- One of the two is less than the other. -/
def Differ (less : Elem Λ ε → Elem Λ ε → Bool) (a b : ε) : Prop :=
  less (.elem a) (.elem b) = true ∨ less (.elem b) (.elem a) = true

instance : DecidableRel (Differ less) :=
  fun a b => inferInstanceAs (Decidable (less (.elem a) (.elem b) = true ∨ less (.elem b) (.elem a) = true))

/-- What `List.destutter'` leaves out. -/
def stuttered (R : ε → ε → Prop) [DecidableRel R] : ε → List ε → List ε
  | _, [] => []
  | e, x :: rest => if R e x then stuttered R x rest else x :: stuttered R e rest

/-- What `List.destutter` leaves out. -/
def stutters (R : ε → ε → Prop) [DecidableRel R] : List ε → List ε
  | [] => []
  | e :: rest => stuttered R e rest

/-- The elements taken out of one list are appended to another, if there is one. -/
def collect (S : Λ → List ε) : Option Λ → List ε → Λ → List ε
  | none, _ => S
  | some duplicates, removed => Function.update S duplicates (S duplicates ++ removed)

omit [DecidableEq ε] in
theorem collect_nil (S : Λ → List ε) (duplicates : Option Λ) : collect S duplicates [] = S := by
  cases duplicates with
  | none => rfl
  | some duplicates => rw [collect, List.append_nil, Function.update_eq_self]

omit [DecidableEq ε] in
theorem collect_cons (S : Λ → List ε) {d : Λ} (other : d ≠ l) (x : ε) (between final removed : List ε) :
    collect (Function.update (Function.update (Function.update S l between) d
        (Function.update S l between d ++ [x])) l final) (some d) removed =
      collect (Function.update S l final) (some d) (x :: removed) := by
  funext l'
  by_cases here : l' = d
  · subst here
    simp [collect, other]
  · by_cases there : l' = l
    · subst there
      simp [collect, here]
    · simp [collect, here, there]

omit [DecidableEq Λ] [DecidableEq ε] in
theorem listNext_eq {n p : Elem Λ ε} (next : m.next n = some p) : listNext m n = .ok (some p) := by
  simp only [listNext, followed_eq, next, Option.isSome_some, assert_true, ok_bind]
  rfl

theorem uniqueLoop_spec (less : Elem Λ ε → Elem Λ ε → Bool) (h : Linked m S) (other : duplicates ≠ some l)
    (cut : S l = kept ++ e :: rest)
    (enough : rest.length < rounds) :
    ∃ m', uniqueLoop l duplicates less rounds m (.elem e) = .ok m' ∧
      Linked m' (collect (Function.update S l (kept ++ List.destutter' (Differ less) e rest)) duplicates
        (stuttered (Differ less) e rest)) := by
  induction rest generalizing m S kept e rounds with
  | nil =>
      cases rounds with
      | zero => exact absurd enough (Nat.not_lt_zero _)
      | succ rounds =>
          refine ⟨m, ?_, ?_⟩
          · rw [uniqueLoop, listNext_eq (Linked.next_elem h cut), ok_bind]
            exact if_pos rfl
          · rw [List.destutter'_nil, ← cut, Function.update_eq_self, stuttered, collect_nil]
            exact h
  | cons x rest ih =>
      cases rounds with
      | zero => exact absurd enough (Nat.not_lt_zero _)
      | succ rounds =>
          have behind : S l = (kept ++ [e]) ++ x :: rest := by
            rw [cut, List.append_assoc]
            rfl
          have going : some (nodeAt .backward l (kept ++ [e]) (x :: rest)) ≠ some (listEnd l) := by
            intro same
            cases same
          have enough' := Nat.lt_of_succ_lt_succ enough
          rw [uniqueLoop, listNext_eq (Linked.next_elem h cut), ok_bind, if_neg going, follow_some, ok_bind,
            nodeAt_backward_cons]
          by_cases differ : Differ less e x
          case pos =>
            have goes : (!less (.elem e) (.elem x) && !less (.elem x) (.elem e)) = false := by
              obtain is_less | is_less := differ <;> simp [is_less]
            rw [goes, if_neg Bool.false_ne_true, List.destutter'_cons_pos _ differ, stuttered, if_pos differ]
            obtain ⟨m', done, linked⟩ := ih h behind enough'
            rw [List.append_assoc] at linked
            exact ⟨m', done, linked⟩
          case neg =>
            have stays : (!less (.elem e) (.elem x) && !less (.elem x) (.elem e)) = true := by
              obtain ⟨not_less, not_more⟩ := not_or.mp differ
              simp [not_less, not_more]
            obtain ⟨m1, removed, linked1, fresh⟩ := listRemove_spec h behind
            rw [stays, if_pos rfl, removed, ok_bind, List.destutter'_cons_neg _ differ, stuttered, if_neg differ]
            cases duplicates with
            | none =>
                have cut1 : Function.update S l (kept ++ [e] ++ rest) l = kept ++ e :: rest := by
                  rw [Function.update_self, List.append_assoc]
                  rfl
                obtain ⟨m', done, linked⟩ := ih linked1 cut1 enough'
                rw [Function.update_idem] at linked
                exact ⟨m', done, linked⟩
            | some d =>
                have apart : d ≠ l := fun same => other (congrArg some same)
                obtain ⟨m2, pushed, linked2⟩ := listPushBack_spec (l := d) linked1 fresh
                have cut2 : Function.update (Function.update S l (kept ++ [e] ++ rest)) d
                    (Function.update S l (kept ++ [e] ++ rest) d ++ [x]) l = kept ++ e :: rest := by
                  rw [Function.update_of_ne apart.symm, Function.update_self, List.append_assoc]
                  rfl
                obtain ⟨m', done, linked⟩ := ih linked2 cut2 enough'
                rw [collect_cons S apart] at linked
                refine ⟨m', ?_, linked⟩
                simp only [pushed, ok_bind]
                exact done

theorem listUnique_spec (less : Elem Λ ε → Elem Λ ε → Bool) (h : Linked m S) (other : duplicates ≠ some l)
    (enough : (S l).length < rounds) :
    ∃ m', listUnique m rounds l duplicates less = .ok m' ∧
      Linked m' (collect (Function.update S l ((S l).destutter (Differ less))) duplicates
        (stutters (Differ less) (S l))) := by
  cases cut : S l with
  | nil =>
      refine ⟨m, ?_, ?_⟩
      · rw [listUnique, listEmpty_eq h l, cut]
        rfl
      · rw [List.destutter_nil, stutters, collect_nil, ← cut, Function.update_eq_self]
        exact h
  | cons e rest =>
      have enough' : rest.length < rounds := by
        rw [cut, List.length_cons] at enough
        omega
      obtain ⟨m', done, linked⟩ := uniqueLoop_spec less h other (cut.trans (List.nil_append _).symm) enough'
      refine ⟨m', ?_, linked⟩
      rw [listUnique, listEmpty_eq h l, listBegin_eq h l, cut, List.isEmpty_cons, if_neg Bool.false_ne_true,
        nodeAt_backward_cons, follow_some, ok_bind]
      exact done

end Unique
end CS162.Pintos.KernelList
