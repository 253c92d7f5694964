import CS162.Pintos.KernelListSpec

/-!
Kernel lists refine sequences. A step of the sequences is what an operation does to pure
lists where its documented precondition holds; the links follow step by step, through
any run, and go on standing for the sequences.
-/

namespace CS162.Pintos.KernelList
open CS162.Library
variable {Λ ε : Type}

inductive Op (Λ ε : Type) where
  | init (list : Λ)
  | pushFront (list : Λ) (e : ε)
  | pushBack (list : Λ) (e : ε)
  | insert (before : Elem Λ ε) (e : ε)
  | remove (elem : Elem Λ ε)
  | popFront (list : Λ)
  | popBack (list : Λ)
  | splice (before first last : Elem Λ ε)
  | reverse (list : Λ)
  | unique (list : Λ) (duplicates : Option Λ) (less : Elem Λ ε → Elem Λ ε → Bool)

/-- The links stand for these sequences, as the comment at the top of list.c draws it. -/
structure Represents (m : Links Λ ε) (S : Λ → List ε) : Prop where
  head_prev : ∀ l, m.prev (.head l) = none
  tail_next : ∀ l, m.next (.tail l) = none
  /-- From the head to the tail, `next` and `prev` are inverse to each other. -/
  chain : ∀ l, List.IsChain (fun a b => m.next a = some b ∧ m.prev b = some a)
    (.head l :: (S l).map .elem ++ [.tail l])
  nodup : ∀ l, (S l).Nodup
  /-- No element is in two lists. -/
  disjoint : ∀ l l' e, e ∈ S l → e ∈ S l' → l = l'

theorem represents_of_linked {m : Links Λ ε} {S : Λ → List ε} (h : Linked m S) : Represents m S :=
  ⟨fun l => h.stop .backward l, fun l => h.stop .forward l, h.chain, h.apart.nodup, h.apart.one⟩

variable [DecidableEq Λ] [DecidableEq ε]

/-- An operation on the links, with the pointer it returns. -/
def Op.exec (rounds : Nat) (m : Links Λ ε) : Op Λ ε → Except Fault (Links Λ ε × Option (Elem Λ ε))
  | .init list => .ok (listInit m list, none)
  | .pushFront list e => (listPushFront m list (.elem e)).map (·, none)
  | .pushBack list e => (listPushBack m list (.elem e)).map (·, none)
  | .insert before e => (listInsert m before (.elem e)).map (·, none)
  | .remove elem => listRemove m elem
  | .popFront list => listPopFront m list
  | .popBack list => listPopBack m list
  | .splice before first last => (listSplice m before first last).map (·, none)
  | .reverse list => (listReverse m rounds list).map (·, none)
  | .unique list duplicates less => (listUnique m rounds list duplicates less).map (·, none)

def execAll (rounds : Nat) : Links Λ ε → List (Op Λ ε) → Except Fault (Links Λ ε × List (Option (Elem Λ ε)))
  | m, [] => .ok (m, [])
  | m, op :: ops => do
      let (m, result) ← op.exec rounds m
      let (m, results) ← execAll rounds m ops
      return (m, result :: results)

/-- What an operation does to the sequences, and what it returns, where its documented
precondition holds: an element that is put in is in no list, one that is taken out is in
one, and a range goes before an element that is not in it. -/
inductive SeqStep (S : Λ → List ε) : Op Λ ε → Option (Elem Λ ε) → (Λ → List ε) → Prop where
  | init (l : Λ) : SeqStep S (.init l) none (Function.update S l [])
  | pushFront (l : Λ) (e : ε) (fresh : ∀ l', e ∉ S l') :
      SeqStep S (.pushFront l e) none (Function.update S l (e :: S l))
  | pushBack (l : Λ) (e : ε) (fresh : ∀ l', e ∉ S l') :
      SeqStep S (.pushBack l e) none (Function.update S l (S l ++ [e]))
  | insert (l : Λ) (front back : List ε) (e : ε) (fresh : ∀ l', e ∉ S l') (cut : S l = front ++ back) :
      SeqStep S (.insert (nodeAt .backward l front back) e) none (Function.update S l (front ++ e :: back))
  | remove (l : Λ) (front back : List ε) (e : ε) (cut : S l = front ++ e :: back) :
      SeqStep S (.remove (.elem e)) (some (nodeAt .backward l front back)) (Function.update S l (front ++ back))
  | popFront (l : Λ) (e : ε) (back : List ε) (cut : S l = e :: back) :
      SeqStep S (.popFront l) (some (.elem e)) (Function.update S l back)
  | popBack (l : Λ) (front : List ε) (e : ε) (cut : S l = front ++ [e]) :
      SeqStep S (.popBack l) (some (.elem e)) (Function.update S l front)
  | spliceNone (l : Λ) (front back : List ε) (first : Elem Λ ε) (cut : S l = front ++ back) :
      SeqStep S (.splice (nodeAt .backward l front back) first first) none S
  | splice (l l' : Λ) (front range back front' back' : List ε) (cut : S l = front ++ range ++ back)
      (some_range : range ≠ []) (place : Function.update S l (front ++ back) l' = front' ++ back') :
      SeqStep S (.splice (nodeAt .backward l' front' back') (nodeAt .backward l front (range ++ back))
          (nodeAt .backward l (front ++ range) back)) none
        (Function.update (Function.update S l (front ++ back)) l' (front' ++ range ++ back'))
  | reverse (l : Λ) : SeqStep S (.reverse l) none (Function.update S l (S l).reverse)
  | unique (l : Λ) (duplicates : Option Λ) (less : Elem Λ ε → Elem Λ ε → Bool) (other : duplicates ≠ some l) :
      SeqStep S (.unique l duplicates less) none
        (collect (Function.update S l ((S l).destutter (Differ less))) duplicates
          (stutters (Differ less) (S l)))

/-- A run of the sequences, with what its operations return. -/
inductive SeqRun : (Λ → List ε) → List (Op Λ ε) → List (Option (Elem Λ ε)) → (Λ → List ε) → Prop where
  | nil (S : Λ → List ε) : SeqRun S [] [] S
  | cons {S S' S'' : Λ → List ε} {op : Op Λ ε} {ops : List (Op Λ ε)} {result : Option (Elem Λ ε)}
      {results : List (Option (Elem Λ ε))} (step : SeqStep S op result S') (rest : SeqRun S' ops results S'') :
      SeqRun S (op :: ops) (result :: results) S''

/-- The links follow a step of the sequences, given enough rounds for its loop. -/
theorem exec_simulates {S S' : Λ → List ε} {op : Op Λ ε} {result : Option (Elem Λ ε)}
    (step : SeqStep S op result S') : ∃ enough, ∀ rounds, enough ≤ rounds → ∀ m, Linked m S →
      ∃ m', op.exec rounds m = .ok (m', result) ∧ Linked m' S' := by
  cases step with
  | init l =>
      refine ⟨0, fun rounds _ m h => ?_⟩
      exact ⟨_, rfl, listInit_spec h l⟩
  | pushFront l e fresh =>
      refine ⟨0, fun rounds _ m h => ?_⟩
      obtain ⟨m', done, linked⟩ := listPushFront_spec (l := l) h fresh
      exact ⟨m', congrArg (Except.map _) done, linked⟩
  | pushBack l e fresh =>
      refine ⟨0, fun rounds _ m h => ?_⟩
      obtain ⟨m', done, linked⟩ := listPushBack_spec (l := l) h fresh
      exact ⟨m', congrArg (Except.map _) done, linked⟩
  | insert l front back e fresh cut =>
      refine ⟨0, fun rounds _ m h => ?_⟩
      obtain ⟨m', done, linked⟩ := listInsert_spec h fresh cut
      exact ⟨m', congrArg (Except.map _) done, linked⟩
  | remove l front back e cut =>
      refine ⟨0, fun rounds _ m h => ?_⟩
      obtain ⟨m', done, linked, -⟩ := listRemove_spec h cut
      exact ⟨m', done, linked⟩
  | popFront l e back cut => exact ⟨0, fun rounds _ m h => listPopFront_spec h cut⟩
  | popBack l front e cut => exact ⟨0, fun rounds _ m h => listPopBack_spec h cut⟩
  | spliceNone l front back first cut =>
      refine ⟨0, fun rounds _ m h => ⟨m, ?_, h⟩⟩
      have done : listSplice m (nodeAt .backward l front back) first first = .ok m := by
        rw [listSplice, placed_eq, Linked.prev h cut, Option.isSome_some, assert_true, ok_bind, if_pos rfl]
        rfl
      exact congrArg (Except.map _) done
  | splice l l' front range back front' back' cut some_range place =>
      refine ⟨0, fun rounds _ m h => ?_⟩
      obtain ⟨m', done, linked⟩ := listSplice_spec h cut some_range place
      exact ⟨m', congrArg (Except.map _) done, linked⟩
  | reverse l =>
      refine ⟨(S l).length + 1, fun rounds enough m h => ?_⟩
      obtain ⟨m', done, linked⟩ := listReverse_spec h l enough
      exact ⟨m', congrArg (Except.map _) done, linked⟩
  | unique l duplicates less other =>
      refine ⟨(S l).length + 1, fun rounds enough m h => ?_⟩
      obtain ⟨m', done, linked⟩ := listUnique_spec less h other enough
      exact ⟨m', congrArg (Except.map _) done, linked⟩

theorem execAll_simulates {S S' : Λ → List ε} {ops : List (Op Λ ε)} {results : List (Option (Elem Λ ε))}
    (run : SeqRun S ops results S') : ∃ enough, ∀ rounds, enough ≤ rounds → ∀ m, Linked m S →
      ∃ m', execAll rounds m ops = .ok (m', results) ∧ Linked m' S' := by
  induction run with
  | nil S => exact ⟨0, fun rounds _ m h => ⟨m, rfl, h⟩⟩
  | cons step rest ih =>
      obtain ⟨first, simulates⟩ := exec_simulates step
      obtain ⟨others, simulates'⟩ := ih
      refine ⟨max first others, fun rounds enough m h => ?_⟩
      obtain ⟨m1, done, linked⟩ := simulates rounds ((Nat.le_max_left _ _).trans enough) m h
      obtain ⟨m', done', linked'⟩ := simulates' rounds ((Nat.le_max_right _ _).trans enough) m1 linked
      refine ⟨m', ?_, linked'⟩
      rw [execAll, done, ok_bind]
      simp only [done', ok_bind]
      rfl

/-- In every run from initialized lists, with enough rounds for its loops, the
operations succeed, return what those on the sequences return, and leave links that
stand for the sequences. -/
theorem lists_refine_sequences {m : Links Λ ε} (start : Initialized m) {S : Λ → List ε} {ops : List (Op Λ ε)}
    {results : List (Option (Elem Λ ε))} (run : SeqRun (fun _ => []) ops results S) :
    ∃ enough, ∀ rounds, enough ≤ rounds →
      ∃ m', execAll rounds m ops = .ok (m', results) ∧ Represents m' S := by
  obtain ⟨enough, simulates⟩ := execAll_simulates run
  refine ⟨enough, fun rounds more => ?_⟩
  obtain ⟨m', done, linked⟩ := simulates rounds more m start.linked
  exact ⟨m', done, represents_of_linked linked⟩

/-- Links of two lists that `list_init` has just been called on. -/
def twoLists : Links Bool Nat where
  prev n := match n with
    | .tail l => some (.head l)
    | _ => none
  next n := match n with
    | .head l => some (.tail l)
    | _ => none

/-- Even numbers are all alike, and so are odd ones. -/
def lessParity : Elem Bool Nat → Elem Bool Nat → Bool
  | .elem a, .elem b => a % 2 < b % 2
  | _, _ => false

/-- Every operation: 1 and 4 are moved from between 3 and 2 to between 5 and 6 of the other
list; reversed, that is 6, 4, 1, 5, of which 4 and 5 go to the end of the first list. -/
def listOps : List (Op Bool Nat) :=
  [.pushBack true 1, .pushBack true 2, .pushFront true 3, .insert (.elem 2) 4,
    .pushBack false 5, .pushBack false 6, .splice (.elem 6) (.elem 1) (.elem 2), .reverse false,
    .unique false (some true) lessParity, .remove (.elem 2), .popFront false, .popBack true]

/-- The two lists. -/
def pair (a b : List Nat) : Bool → List Nat := fun l => if l then a else b

theorem SeqStep.to_pair {a b : List Nat} {S S' : Bool → List Nat} {op : Op Bool Nat}
    {result : Option (Elem Bool Nat)} (step : SeqStep S op result S')
    (same : S' true = a ∧ S' false = b) : SeqStep S op result (pair a b) := by
  have eq : S' = pair a b := by
    funext l
    cases l
    · exact same.2
    · exact same.1
  exact eq ▸ step

theorem listOps_run : SeqRun (pair [] []) listOps (List.replicate 9 none ++
    [some (.elem 4), some (.elem 6), some (.elem 5)]) (pair [3, 4] [1]) := by
  have fresh {a b : List Nat} {e : Nat} (h : e ∉ a ∧ e ∉ b) (l : Bool) : e ∉ pair a b l := by
    cases l
    · exact h.2
    · exact h.1
  refine .cons ((SeqStep.pushBack true 1 (fresh (by decide))).to_pair (b := []) ⟨rfl, rfl⟩) ?_
  refine .cons ((SeqStep.pushBack true 2 (fresh (by decide))).to_pair (b := []) ⟨rfl, rfl⟩) ?_
  refine .cons ((SeqStep.pushFront true 3 (fresh (by decide))).to_pair (b := []) ⟨rfl, rfl⟩) ?_
  refine .cons ((SeqStep.insert true [3, 1] [2] 4 (fresh (by decide)) rfl).to_pair (b := [])
    ⟨rfl, rfl⟩) ?_
  refine .cons ((SeqStep.pushBack false 5 (fresh (by decide))).to_pair (a := [3, 1, 4, 2])
    ⟨rfl, rfl⟩) ?_
  refine .cons ((SeqStep.pushBack false 6 (fresh (by decide))).to_pair (a := [3, 1, 4, 2])
    ⟨rfl, rfl⟩) ?_
  refine .cons ((SeqStep.splice true false [3] [1, 4] [2] [5] [6] rfl (by decide) rfl).to_pair
    (a := [3, 2]) (b := [5, 1, 4, 6]) ⟨rfl, rfl⟩) ?_
  refine .cons ((SeqStep.reverse false).to_pair (a := [3, 2]) (b := [6, 4, 1, 5]) ⟨rfl, rfl⟩) ?_
  refine .cons ((SeqStep.unique false (some true) lessParity (by decide)).to_pair
    (a := [3, 2, 4, 5]) (b := [6, 1]) (by decide)) ?_
  refine .cons ((SeqStep.remove true [3] [4, 5] 2 rfl).to_pair (b := [6, 1]) ⟨rfl, rfl⟩) ?_
  refine .cons ((SeqStep.popFront false 6 [1] rfl).to_pair (a := [3, 4, 5]) ⟨rfl, rfl⟩) ?_
  exact .cons ((SeqStep.popBack true [3, 4] 5 rfl).to_pair (b := [1]) ⟨rfl, rfl⟩) (.nil _)

theorem lists_refine_sequences_listOps :
    ∃ S : Bool → List Nat, S true = [3, 4] ∧ S false = [1] ∧ ∃ enough, ∀ rounds, enough ≤ rounds →
      ∃ m', execAll rounds twoLists listOps = .ok (m', List.replicate 9 none ++
        [some (.elem 4), some (.elem 6), some (.elem 5)]) ∧ Represents m' S := by
  have start : Initialized twoLists := fun l => ⟨rfl, rfl, rfl, rfl⟩
  have empty : pair [] [] = fun _ => [] := funext fun l => by cases l <;> rfl
  exact ⟨_, rfl, rfl, lists_refine_sequences start (empty ▸ listOps_run)⟩

end CS162.Pintos.KernelList
