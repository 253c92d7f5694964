import Mathlib.Data.List.Basic
import Mathlib.Data.List.Nodup
import Mathlib.Logic.Function.Basic

/-!
Doubly linked lists with two sentinels each, any number of them over one pool of
elements, and the sequences they stand for.

A cut of a sequence is a way to split it in two. At each cut the node in front and the
node behind point at each other; a rule that changes the links names the cuts at
which it does, in both directions at once.
-/

namespace CS162.Library
universe u v

inductive ListNode (Λ : Type u) (ε : Type v) where
  | head (list : Λ)
  | elem (e : ε)
  | tail (list : Λ)
  deriving DecidableEq

/-- The `prev` and the `next` pointer of each node. -/
@[ext] structure Links (Λ : Type u) (ε : Type v) where
  prev : ListNode Λ ε → Option (ListNode Λ ε)
  next : ListNode Λ ε → Option (ListNode Λ ε)

inductive Direction where
  | forward
  | backward
  deriving DecidableEq

def Direction.opposite : Direction → Direction
  | forward => backward
  | backward => forward

@[simp] theorem Direction.opposite_opposite (d : Direction) : d.opposite.opposite = d := by
  cases d <;> rfl

variable {Λ : Type u} {ε : Type v}

def Links.link (m : Links Λ ε) : Direction → ListNode Λ ε → Option (ListNode Λ ε)
  | .forward => m.next
  | .backward => m.prev

/-- The node at a cut from which a pointer in this direction leads over it. -/
def nodeAt : Direction → Λ → List ε → List ε → ListNode Λ ε
  | .forward, l, front, _ => front.getLast?.elim (.head l) .elem
  | .backward, l, _, back => back.head?.elim (.tail l) .elem

/-- The sentinel behind which there is nothing in this direction. -/
def stop : Direction → Λ → ListNode Λ ε
  | .forward, l => .tail l
  | .backward, l => .head l

/-- No element is in two places. -/
structure Apart (S : Λ → List ε) : Prop where
  nodup : ∀ l, (S l).Nodup
  one : ∀ l l' e, e ∈ S l → e ∈ S l' → l = l'

/-- The links stand for these sequences. -/
structure Linked (m : Links Λ ε) (S : Λ → List ε) : Prop where
  apart : Apart S
  cut : ∀ d l front back, S l = front ++ back →
    m.link d (nodeAt d l front back) = some (nodeAt d.opposite l front back)
  stop : ∀ d l, m.link d (stop d l) = none

/-- The elements of a range are linked to each other. -/
def Segment (m : Links Λ ε) (range : List ε) : Prop :=
  ∀ d l front back, range = front ++ back → front ≠ [] → back ≠ [] →
    m.link d (nodeAt d l front back) = some (nodeAt d.opposite l front back)

section Nodes
variable {d : Direction} {l l' : Λ} {front back front' back' some_front some_back : List ε} {S : Λ → List ε}

@[simp] theorem nodeAt_forward_nil : nodeAt .forward l [] back = .head l := rfl
@[simp] theorem nodeAt_backward_nil : nodeAt .backward l front [] = .tail l := rfl

@[simp] theorem nodeAt_backward_cons {e : ε} : nodeAt .backward l front (e :: back) = .elem e := rfl

@[simp] theorem nodeAt_forward_concat {e : ε} : nodeAt .forward l (front ++ [e]) back = .elem e := by
  simp [nodeAt]

theorem nodeAt_append_left (h : some_front ≠ []) :
    nodeAt d l (front ++ some_front) back = nodeAt d l some_front back := by
  cases d with
  | forward => simp [nodeAt, List.getLast?_append_of_ne_nil _ h]
  | backward => rfl

theorem nodeAt_append_right (h : some_back ≠ []) :
    nodeAt d l front (some_back ++ back) = nodeAt d l front some_back := by
  cases d with
  | forward => rfl
  | backward => simp [nodeAt, List.head?_append_of_ne_nil _ h]

theorem nodeAt_inside (some_front : front ≠ []) (some_back : back ≠ []) :
    nodeAt d l front back = nodeAt d l' front back := by
  cases d with
  | forward =>
      obtain rfl | ⟨front, e, rfl⟩ := List.eq_nil_or_concat' front
      · exact absurd rfl some_front
      · rw [nodeAt_forward_concat, nodeAt_forward_concat]
  | backward =>
      cases back with
      | nil => exact absurd rfl some_back
      | cons e back => rfl

theorem nodeAt_ne_stop : nodeAt d l front back ≠ stop d l' := by
  cases d with
  | forward => cases h : front.getLast? <;> simp [nodeAt, stop, h]
  | backward => cases h : back.head? <;> simp [nodeAt, stop, h]

theorem split_unique {e : ε} {front back front' back' : List ε} (nodup : (front ++ e :: back).Nodup)
    (same : front ++ e :: back = front' ++ e :: back') : front = front' ∧ back = back' := by
  have not_front : e ∉ front := fun inside => List.disjoint_of_nodup_append nodup inside List.mem_cons_self
  have not_back : e ∉ back := (List.nodup_cons.mp (List.nodup_append.mp nodup).2.1).1
  obtain ⟨rfl, -, rfl⟩ := (List.append_cons_inj_of_notMem not_front not_back).mp same
  exact ⟨rfl, rfl⟩

theorem nodeAt_inj (apart : Apart S) (cut : S l = front ++ back) (cut' : S l' = front' ++ back')
    (same : nodeAt d l front back = nodeAt d l' front' back') : l = l' ∧ front = front' ∧ back = back' := by
  cases d with
  | forward =>
      obtain rfl | ⟨some_front, e, rfl⟩ := List.eq_nil_or_concat' front
      · obtain rfl | ⟨some_front', e', rfl⟩ := List.eq_nil_or_concat' front'
        · cases same
          exact ⟨rfl, rfl, List.append_cancel_left (cut.symm.trans cut')⟩
        · rw [nodeAt_forward_concat] at same
          cases same
      · obtain rfl | ⟨some_front', e', rfl⟩ := List.eq_nil_or_concat' front'
        · rw [nodeAt_forward_concat] at same
          cases same
        · rw [nodeAt_forward_concat, nodeAt_forward_concat] at same
          cases same
          rw [List.append_assoc, List.singleton_append] at cut cut'
          cases apart.one l l' e (by simp [cut]) (by simp [cut'])
          obtain ⟨rfl, rfl⟩ := split_unique (cut ▸ apart.nodup l) (cut.symm.trans cut')
          exact ⟨rfl, rfl, rfl⟩
  | backward =>
      cases back with
      | nil =>
          cases back' with
          | nil =>
              cases same
              exact ⟨rfl, List.append_cancel_right (cut.symm.trans cut'), rfl⟩
          | cons e' back' => cases same
      | cons e back =>
          cases back' with
          | nil => cases same
          | cons e' back' =>
              cases same
              cases apart.one l l' e (by simp [cut]) (by simp [cut'])
              obtain ⟨rfl, rfl⟩ := split_unique (cut ▸ apart.nodup l) (cut.symm.trans cut')
              exact ⟨rfl, rfl, rfl⟩

end Nodes

theorem segment_singleton (m : Links Λ ε) (e : ε) : Segment m [e] := by
  intro d l front back split some_front some_back
  have length := congrArg List.length split
  have front_pos := List.length_pos_of_ne_nil some_front
  have back_pos := List.length_pos_of_ne_nil some_back
  rw [List.length_append, List.length_singleton] at length
  omega

section Change
variable {m m' : Links Λ ε} {S S' : Λ → List ε} {l : Λ} {front range back : List ε} [DecidableEq Λ]

/-- Where a cut of the sequences without a range lies: at the place of the range, or
it is also a cut of the sequences with it. -/
theorem cut_without {S : Λ → List ε} {l' : Λ} {F B : List ε} (cut : S l = front ++ range ++ back)
    (cut' : Function.update S l (front ++ back) l' = F ++ B) :
    (l' = l ∧ F = front ∧ B = back) ∨ ∃ F' B', S l' = F' ++ B' ∧
      (∀ d, nodeAt d l' F' B' = nodeAt d l' F B) ∧ ¬ (l' = l ∧ F = front ∧ B = back) := by
  by_cases other : l' = l
  · subst other
    rw [Function.update_self] at cut'
    obtain ⟨c, rfl, rfl⟩ | ⟨c, rfl, rfl⟩ := List.append_eq_append_iff.mp cut'
    · by_cases none_left : c = []
      · subst none_left
        exact .inl ⟨rfl, by simp, by simp⟩
      · refine .inr ⟨front ++ range ++ c, B, ?_, fun d => ?_, ?_⟩
        · rw [cut, List.append_assoc _ c B]
        · rw [nodeAt_append_left none_left, nodeAt_append_left none_left]
        · intro here
          exact none_left (List.append_right_eq_self.mp here.2.1)
    · by_cases none_left : c = []
      · subst none_left
        exact .inl ⟨rfl, by simp, by simp⟩
      · refine .inr ⟨F, c ++ range ++ back, ?_, fun d => ?_, ?_⟩
        · rw [cut]
          simp only [List.append_assoc]
        · rw [List.append_assoc c, nodeAt_append_right none_left, nodeAt_append_right none_left]
        · intro here
          exact none_left (List.append_left_eq_self.mp here.2.2)
  · rw [Function.update_of_ne other] at cut'
    exact .inr ⟨F, B, cut', fun _ => rfl, fun here => other here.1⟩

/-- Where a cut of the sequences with a range lies: in front of the range, behind it,
inside it, or it is also a cut of the sequences without it. -/
theorem cut_with {l' : Λ} {F B : List ε} (cut : S l = front ++ back)
    (cut' : Function.update S l (front ++ range ++ back) l' = F ++ B) :
    (l' = l ∧ F = front ∧ B = range ++ back) ∨ (l' = l ∧ F = front ++ range ∧ B = back) ∨
      (∃ c c', l' = l ∧ range = c ++ c' ∧ c ≠ [] ∧ c' ≠ [] ∧ F = front ++ c ∧ B = c' ++ back) ∨
      ∃ F' B', S l' = F' ++ B' ∧ ∀ d, nodeAt d l' F' B' = nodeAt d l' F B := by
  by_cases other : l' = l
  · subst other
    rw [Function.update_self, List.append_assoc] at cut'
    obtain ⟨c, rfl, behind⟩ | ⟨c, rfl, rfl⟩ := List.append_eq_append_iff.mp cut'
    · obtain ⟨c', rfl, rfl⟩ | ⟨c', rfl, rfl⟩ := List.append_eq_append_iff.mp behind
      · by_cases none_left : c' = []
        · subst none_left
          exact .inr (.inl ⟨rfl, by simp, by simp⟩)
        · refine .inr (.inr (.inr ⟨front ++ c', B, ?_, fun d => ?_⟩))
          · rw [cut, List.append_assoc]
          · rw [← List.append_assoc, nodeAt_append_left none_left, nodeAt_append_left none_left]
      · by_cases start : c = []
        · subst start
          exact .inl ⟨rfl, by simp, by simp⟩
        · by_cases finish : c' = []
          · subst finish
            exact .inr (.inl ⟨rfl, by simp, by simp⟩)
          · exact .inr (.inr (.inl ⟨c, c', rfl, rfl, start, finish, rfl, rfl⟩))
    · by_cases none_left : c = []
      · subst none_left
        exact .inl ⟨rfl, by simp, by simp⟩
      · refine .inr (.inr (.inr ⟨F, c ++ back, ?_, fun d => ?_⟩))
        · rw [cut, List.append_assoc]
        · rw [nodeAt_append_right none_left, nodeAt_append_right none_left]
  · rw [Function.update_of_ne other] at cut'
    exact .inr (.inr (.inr ⟨F, B, cut', fun _ => rfl⟩))

theorem Apart.update {sequence : List ε} (h : Apart S) (nodup : sequence.Nodup)
    (mine : ∀ e ∈ sequence, ∀ l', e ∈ S l' → l' = l) : Apart (Function.update S l sequence) := by
  constructor
  · intro l'
    by_cases same : l' = l
    · rw [same, Function.update_self]
      exact nodup
    · rw [Function.update_of_ne same]
      exact h.nodup l'
  · intro l1 l2 e inside inside'
    by_cases same : l1 = l
    · by_cases same' : l2 = l
      · exact same.trans same'.symm
      · rw [same, Function.update_self] at inside
        rw [Function.update_of_ne same'] at inside'
        exact absurd (mine e inside l2 inside') same'
    · rw [Function.update_of_ne same] at inside
      by_cases same' : l2 = l
      · rw [same', Function.update_self] at inside'
        exact absurd (mine e inside' l1 inside) same
      · rw [Function.update_of_ne same'] at inside'
        exact h.one l1 l2 e inside inside'

theorem Apart.without (h : Apart S) (cut : S l = front ++ range ++ back) :
    Apart (Function.update S l (front ++ back)) := by
  have sublist : (front ++ back).Sublist (S l) := by
    rw [cut, List.append_assoc]
    exact (List.sublist_append_right range back).append_left front
  exact h.update ((h.nodup l).sublist sublist) fun e inside l' there => h.one l' l e there (sublist.subset inside)

theorem Apart.with (h : Apart S) (cut : S l = front ++ back) (nodup : range.Nodup)
    (fresh : ∀ e ∈ range, ∀ l', e ∉ S l') : Apart (Function.update S l (front ++ range ++ back)) := by
  have perm : (front ++ range ++ back).Perm (range ++ S l) := by
    rw [cut, ← List.append_assoc]
    exact List.perm_append_comm.append_right back
  refine h.update ?_ fun e inside l' there => ?_
  · refine perm.nodup_iff.mpr (nodup.append (h.nodup l) ?_)
    intro e inside there
    exact fresh e inside l there
  · obtain new | old := List.mem_append.mp (perm.mem_iff.mp inside)
    · exact absurd there (fresh e new l')
    · exact h.one l' l e there old

/-- Linking the two nodes at the ends of a range to each other takes the range out. -/
theorem Linked.unlink (h : Linked m S) (cut : S l = front ++ range ++ back)
    (joined : ∀ d, m'.link d (nodeAt d l front back) = some (nodeAt d.opposite l front back))
    (rest : ∀ d n, n ≠ nodeAt d l front back → m'.link d n = m.link d n) :
    Linked m' (Function.update S l (front ++ back)) := by
  have apart := h.apart.without cut
  refine ⟨apart, fun d l' F B cut' => ?_, fun d l' => ?_⟩
  · obtain ⟨rfl, rfl, rfl⟩ | ⟨F', B', old, same, elsewhere⟩ := cut_without cut cut'
    · exact joined d
    · have moved : nodeAt d l' F B ≠ nodeAt d l front back := by
        intro here
        exact elsewhere (nodeAt_inj apart cut' (Function.update_self l _ S) here)
      rw [rest d _ moved, ← same d, ← same d.opposite]
      exact h.cut d l' F' B' old
  · rw [rest d _ nodeAt_ne_stop.symm]
    exact h.stop d l'

/-- The range that was taken out is still linked in itself, and in no sequence. -/
theorem Linked.unlinked (h : Linked m S) (cut : S l = front ++ range ++ back)
    (rest : ∀ d n, n ≠ nodeAt d l front back → m'.link d n = m.link d n) :
    Segment m' range ∧ range.Nodup ∧ ∀ e ∈ range, ∀ l', e ∉ Function.update S l (front ++ back) l' := by
  have nodup := h.apart.nodup l
  rw [cut, List.append_assoc] at nodup
  have nodup_range := (List.nodup_append.mp (List.nodup_append.mp nodup).2.1).1
  refine ⟨fun d l' c c' split some_front some_back => ?_, nodup_range, fun e inside l' there => ?_⟩
  · have inner : S l = (front ++ c) ++ (c' ++ back) := by
      rw [cut, split]
      simp only [List.append_assoc]
    have moved : nodeAt d l (front ++ c) (c' ++ back) ≠ nodeAt d l front back := by
      intro same
      cases d with
      | forward =>
          have whole : S l = front ++ (range ++ back) := by rw [cut, List.append_assoc]
          have here := nodeAt_inj (d := .forward) h.apart inner whole same
          exact some_front (List.append_right_eq_self.mp here.2.1)
      | backward =>
          have here := nodeAt_inj (d := .backward) h.apart inner cut same
          exact some_back (List.append_left_eq_self.mp here.2.2)
    have inside (d : Direction) : nodeAt d l (front ++ c) (c' ++ back) = nodeAt d l' c c' := by
      rw [nodeAt_append_left some_front, nodeAt_append_right some_back]
      exact nodeAt_inside some_front some_back
    rw [← inside d, ← inside d.opposite, rest d _ moved]
    exact h.cut d l (front ++ c) (c' ++ back) inner
  · have here : e ∈ S l := by simp [cut, inside]
    by_cases other : l' = l
    · rw [other, Function.update_self] at there
      obtain in_front | in_back := List.mem_append.mp there
      · exact List.disjoint_of_nodup_append nodup in_front (List.mem_append_left back inside)
      · exact List.disjoint_of_nodup_append (List.nodup_append.mp nodup).2.1 inside in_back
    · rw [Function.update_of_ne other] at there
      exact other (h.apart.one l' l e there here)

/-- Linking the ends of a loose range to the two nodes at a cut puts it there. -/
theorem Linked.link_range (h : Linked m S) (cut : S l = front ++ back) (segment : Segment m range)
    (some_range : range ≠ []) (nodup : range.Nodup) (fresh : ∀ e ∈ range, ∀ l', e ∉ S l')
    (before : ∀ d, m'.link d (nodeAt d l front (range ++ back)) =
      some (nodeAt d.opposite l front (range ++ back)))
    (behind : ∀ d, m'.link d (nodeAt d l (front ++ range) back) =
      some (nodeAt d.opposite l (front ++ range) back))
    (rest : ∀ d n, n ≠ nodeAt d l front (range ++ back) → n ≠ nodeAt d l (front ++ range) back →
      m'.link d n = m.link d n) :
    Linked m' (Function.update S l (front ++ range ++ back)) := by
  have apart := h.apart.with cut nodup fresh
  have here : Function.update S l (front ++ range ++ back) l = front ++ (range ++ back) := by
    rw [Function.update_self, List.append_assoc]
  have here' : Function.update S l (front ++ range ++ back) l = front ++ range ++ back :=
    Function.update_self l _ S
  refine ⟨apart, fun d l' F B cut' => ?_, fun d l' => ?_⟩
  · -- At any other cut the pointer is the one that was there.
    have rest' (other : ¬ (l' = l ∧ F = front ∧ B = range ++ back))
        (other' : ¬ (l' = l ∧ F = front ++ range ∧ B = back)) :
        m'.link d (nodeAt d l' F B) = m.link d (nodeAt d l' F B) := by
      refine rest d _ ?_ ?_
      · intro same
        exact other (nodeAt_inj apart cut' here same)
      · intro same
        exact other' (nodeAt_inj apart cut' here' same)
    by_cases first : l' = l ∧ F = front ∧ B = range ++ back
    · obtain ⟨rfl, rfl, rfl⟩ := first
      exact before d
    · by_cases last : l' = l ∧ F = front ++ range ∧ B = back
      · obtain ⟨rfl, rfl, rfl⟩ := last
        exact behind d
      · rw [rest' first last]
        obtain at_front | at_back | ⟨c, c', rfl, rfl, some_c, some_c', rfl, rfl⟩ | ⟨F', B', old, same⟩ :=
          cut_with cut cut'
        · exact absurd at_front first
        · exact absurd at_back last
        · rw [nodeAt_append_left some_c, nodeAt_append_right some_c', nodeAt_append_left some_c,
            nodeAt_append_right some_c']
          exact segment d l' c c' rfl some_c some_c'
        · rw [← same d, ← same d.opposite]
          exact h.cut d l' F' B' old
  · rw [rest d _ nodeAt_ne_stop.symm nodeAt_ne_stop.symm]
    exact h.stop d l'

end Change

section Writes
variable {m : Links Λ ε} {S : Λ → List ε} {l : Λ} {front range back : List ε} [DecidableEq Λ] [DecidableEq ε]

def Links.setPrev (m : Links Λ ε) (n : ListNode Λ ε) (p : Option (ListNode Λ ε)) : Links Λ ε :=
  { m with prev := Function.update m.prev n p }

def Links.setNext (m : Links Λ ε) (n : ListNode Λ ε) (p : Option (ListNode Λ ε)) : Links Λ ε :=
  { m with next := Function.update m.next n p }

section Fields
variable (m : Links Λ ε) (n : ListNode Λ ε) (p : Option (ListNode Λ ε))

@[simp] theorem Links.setPrev_prev : (m.setPrev n p).prev = Function.update m.prev n p := rfl
@[simp] theorem Links.setPrev_next : (m.setPrev n p).next = m.next := rfl
@[simp] theorem Links.setNext_next : (m.setNext n p).next = Function.update m.next n p := rfl
@[simp] theorem Links.setNext_prev : (m.setNext n p).prev = m.prev := rfl

end Fields

/-- Two nodes are linked to each other. -/
def Links.join (m : Links Λ ε) (p n : ListNode Λ ε) : Links Λ ε :=
  (m.setNext p (some n)).setPrev n (some p)

/-- The first and the last node of a range are linked to two nodes around it. -/
def Links.place (m : Links Λ ε) (p first last n : ListNode Λ ε) : Links Λ ε :=
  (((m.setPrev first (some p)).setNext last (some n)).setNext p (some first)).setPrev n (some last)

theorem Links.join_link (m : Links Λ ε) (d : Direction) (l : Λ) (front back : List ε) :
    (m.join (nodeAt .forward l front back) (nodeAt .backward l front back)).link d =
      Function.update (m.link d) (nodeAt d l front back) (some (nodeAt d.opposite l front back)) := by
  cases d <;> rfl

theorem Linked.join (h : Linked m S) (cut : S l = front ++ range ++ back) :
    Linked (m.join (nodeAt .forward l front back) (nodeAt .backward l front back))
        (Function.update S l (front ++ back)) ∧
      Segment (m.join (nodeAt .forward l front back) (nodeAt .backward l front back)) range ∧
      range.Nodup ∧ ∀ e ∈ range, ∀ l', e ∉ Function.update S l (front ++ back) l' := by
  have joined (d : Direction) := congrFun (m.join_link d l front back)
  have rest (d : Direction) (n : ListNode Λ ε) (other : n ≠ nodeAt d l front back) :
      (m.join (nodeAt .forward l front back) (nodeAt .backward l front back)).link d n = m.link d n := by
    rw [joined, Function.update_of_ne other]
  refine ⟨h.unlink cut (fun d => ?_) rest, h.unlinked cut rest⟩
  rw [joined, Function.update_self]

theorem Linked.place (h : Linked m S) (cut : S l = front ++ back) (segment : Segment m range)
    (some_range : range ≠ []) (nodup : range.Nodup) (fresh : ∀ e ∈ range, ∀ l', e ∉ S l') :
    Linked (m.place (nodeAt .forward l front back) (nodeAt .backward l front range)
      (nodeAt .forward l range back) (nodeAt .backward l front back))
      (Function.update S l (front ++ range ++ back)) := by
  have apart := h.apart.with cut nodup fresh
  have here : Function.update S l (front ++ range ++ back) l = front ++ (range ++ back) := by
    rw [Function.update_self, List.append_assoc]
  have here' : Function.update S l (front ++ range ++ back) l = front ++ range ++ back :=
    Function.update_self l _ S
  have distinct (d : Direction) : nodeAt d l front (range ++ back) ≠ nodeAt d l (front ++ range) back := by
    intro same
    exact some_range (List.append_right_eq_self.mp (nodeAt_inj apart here here' same).2.1.symm)
  have first : nodeAt .backward l front (range ++ back) = nodeAt .backward l front range :=
    nodeAt_append_right some_range
  have last : nodeAt .forward l (front ++ range) back = nodeAt .forward l range back :=
    nodeAt_append_left some_range
  have forward := distinct .forward
  have backward := distinct .backward
  rw [last] at forward
  rw [first] at backward
  refine h.link_range cut segment some_range nodup fresh (fun d => ?_) (fun d => ?_) fun d n hn hn' => ?_
  · cases d with
    | forward =>
        simp only [Direction.opposite, first]
        exact Function.update_self ..
    | backward =>
        rw [first]
        exact (Function.update_of_ne backward ..).trans (Function.update_self ..)
  · cases d with
    | forward =>
        rw [last]
        exact (Function.update_of_ne forward.symm ..).trans (Function.update_self ..)
    | backward =>
        simp only [Direction.opposite, last]
        exact Function.update_self ..
  · cases d with
    | forward =>
        rw [last] at hn'
        exact (Function.update_of_ne hn ..).trans (Function.update_of_ne hn' ..)
    | backward =>
        rw [first] at hn
        exact (Function.update_of_ne hn' ..).trans (Function.update_of_ne hn ..)

end Writes

section Reverse
variable {m m' : Links Λ ε} {S : Λ → List ε} {l : Λ} [DecidableEq Λ]

/-- What a node becomes when its list is turned round. -/
def turned (l : Λ) : ListNode Λ ε → ListNode Λ ε
  | .head l' => if l' = l then .tail l else .head l'
  | .elem e => .elem e
  | .tail l' => if l' = l then .head l else .tail l'

theorem turned_nodeAt (d : Direction) (front back : List ε) :
    turned l (nodeAt d l front back) = nodeAt d.opposite l back.reverse front.reverse := by
  cases d with
  | forward =>
      obtain rfl | ⟨front, e, rfl⟩ := List.eq_nil_or_concat' front
      · exact if_pos rfl
      · rw [nodeAt_forward_concat, List.reverse_append]
        rfl
  | backward =>
      cases back with
      | nil => exact if_pos rfl
      | cons e back =>
          rw [nodeAt_backward_cons, List.reverse_cons]
          exact nodeAt_forward_concat.symm

/-- Exchanging the two pointers of each node of a list, and its sentinels, reverses it. -/
theorem Linked.reverse (h : Linked m S)
    (exchanged : ∀ d front back, S l = front ++ back →
      m'.link d (turned l (nodeAt d.opposite l front back)) = some (turned l (nodeAt d l front back)))
    (rest : ∀ d n, (∀ front back, S l = front ++ back → n ≠ turned l (nodeAt d.opposite l front back)) →
      m'.link d n = m.link d n) :
    Linked m' (Function.update S l (S l).reverse) := by
  have apart : Apart (Function.update S l (S l).reverse) :=
    h.apart.update (List.nodup_reverse.mpr (h.apart.nodup l)) fun e inside l' there =>
      h.apart.one l' l e there (List.mem_reverse.mp inside)
  have turn_cut {front back : List ε} (split : S l = front ++ back) :
      Function.update S l (S l).reverse l = back.reverse ++ front.reverse := by
    rw [Function.update_self, split, List.reverse_append]
  refine ⟨apart, fun d l' F B cut => ?_, fun d l' => ?_⟩
  · by_cases other : l' = l
    · subst other
      rw [Function.update_self] at cut
      have split : S l' = B.reverse ++ F.reverse := by
        rw [← List.reverse_append, ← cut, List.reverse_reverse]
      have swapped := exchanged d B.reverse F.reverse split
      rw [turned_nodeAt, turned_nodeAt, Direction.opposite_opposite, List.reverse_reverse,
        List.reverse_reverse] at swapped
      exact swapped
    · rw [rest d _ ?_]
      · rw [Function.update_of_ne other] at cut
        exact h.cut d l' F B cut
      · intro front back split same
        rw [turned_nodeAt, Direction.opposite_opposite] at same
        exact other (nodeAt_inj apart cut (turn_cut split) same).1
  · rw [rest d _ ?_]
    · exact h.stop d l'
    · intro front back split same
      rw [turned_nodeAt, Direction.opposite_opposite] at same
      exact nodeAt_ne_stop same.symm

end Reverse

/-- From each node of a list the next leads to the one behind it, whose previous leads
back, from the head to the tail. -/
theorem Linked.chain {m : Links Λ ε} {S : Λ → List ε} (h : Linked m S) (l : Λ) :
    List.IsChain (fun a b => m.next a = some b ∧ m.prev b = some a)
      (.head l :: (S l).map .elem ++ [.tail l]) := by
  have behind (back : List ε) : ∀ front, S l = front ++ back →
      List.IsChain (fun a b => m.next a = some b ∧ m.prev b = some a)
        (nodeAt .forward l front back :: (back.map .elem ++ [.tail l])) := by
    induction back with
    | nil =>
        intro front split
        exact .cons_cons ⟨h.cut .forward l front [] split, h.cut .backward l front [] split⟩ (.singleton _)
    | cons e back ih =>
        intro front split
        have rest := ih (front ++ [e]) (by rw [split, List.append_assoc]; rfl)
        rw [nodeAt_forward_concat] at rest
        exact .cons_cons ⟨h.cut .forward l front (e :: back) split, h.cut .backward l front (e :: back) split⟩ rest
  exact behind (S l) [] rfl

end CS162.Library
