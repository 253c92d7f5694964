import Mathlib.Data.List.Sort

/-!
Natural merge sort. A pass over the list merges the first maximal run of it with
the second, the third with the fourth, and so on; passes go on until one leaves a
single run. Where the comparison is a strict weak order, a pass halves the number
of places at which the list descends, so the passes come to an end.
-/

namespace CS162.Library
universe u
variable {α : Type u}

/-- A comparison by "comes before": what it does not tell apart is equivalent. -/
structure StrictWeak (less : α → α → Bool) : Prop where
  asymm : ∀ a b, less a b = true → less b a = false
  trans : ∀ a b c, less b a = false → less c b = false → less c a = false

theorem StrictWeak.irrefl {less : α → α → Bool} (weak : StrictWeak less) (a : α) :
    less a a = false := by
  cases self : less a a with
  | false => rfl
  | true => exact self.symm.trans (weak.asymm a a self)

theorem StrictWeak.of_rank {β : Type*} [LinearOrder β] (rank : α → β) :
    StrictWeak fun a b => decide (rank a < rank b) where
  asymm a b h := by
    rw [decide_eq_true_eq] at h
    exact decide_eq_false h.asymm
  trans a b c first second := by
    rw [decide_eq_false_iff_not, not_lt] at first second
    exact decide_eq_false (not_lt.mpr (first.trans second))

section Definitions
variable (less : α → α → Bool)

/-- The second of two neighbours does not come before the first. -/
def inOrder (a b : α) : Bool := !less b a

/-- The run that starts with the first element, and what is behind it. -/
def splitRun : α → List α → List α × List α
  | a, [] => ([a], [])
  | a, b :: l =>
      if less b a then ([a], b :: l) else (a :: (splitRun b l).1, (splitRun b l).2)

theorem length_splitRun_le (a : α) (l : List α) : (splitRun less a l).2.length ≤ l.length := by
  induction l generalizing a with
  | nil => exact Nat.le_refl _
  | cons b l ih =>
      rw [splitRun]
      split
      · exact Nat.le_refl _
      · exact Nat.le_succ_of_le (ih b)

/-- One pass: the list after it and the number of runs it put out. -/
def mergePass : List α → List α × Nat
  | [] => ([], 0)
  | a :: l =>
      match _h : (splitRun less a l).2 with
      | [] => ((splitRun less a l).1, 1)
      | b :: rest =>
          let later := mergePass (splitRun less b rest).2
          (List.merge (splitRun less a l).1 (splitRun less b rest).1 (inOrder less) ++ later.1,
            later.2 + 1)
termination_by l => l.length
decreasing_by
  have first := length_splitRun_le less a l
  have second := length_splitRun_le less b rest
  rw [_h, List.length_cons] at first
  rw [List.length_cons]
  omega

/-- The number of places at which the list descends. -/
def descents : List α → Nat
  | a :: b :: l => (if less b a then 1 else 0) + descents (b :: l)
  | _ => 0

/-- The sort, for so many passes at most, with the check at its end. -/
def naturalMerge : Nat → List α → Option (List α)
  | 0, _ => none
  | passes + 1, l =>
      if (mergePass less l).2 > 1 then naturalMerge passes (mergePass less l).1
      else if descents less (mergePass less l).1 = 0 then some (mergePass less l).1
      else none

end Definitions

section Runs
variable {less : α → α → Bool}

variable (less) in
theorem splitRun_append (a : α) (l : List α) :
    (splitRun less a l).1 ++ (splitRun less a l).2 = a :: l := by
  induction l generalizing a with
  | nil => rfl
  | cons b l ih =>
      rw [splitRun]
      split
      · rfl
      · rw [List.cons_append, ih]

variable (less) in
theorem splitRun_fst (a : α) (l : List α) : ∃ run, (splitRun less a l).1 = a :: run := by
  cases l with
  | nil => exact ⟨[], rfl⟩
  | cons b l =>
      rw [splitRun]
      split
      · exact ⟨[], rfl⟩
      · exact ⟨_, rfl⟩

theorem descents_splitRun_fst {a : α} {l : List α} : descents less (splitRun less a l).1 = 0 := by
  induction l generalizing a with
  | nil => rfl
  | cons b l ih =>
      rw [splitRun]
      split
      · rfl
      · next keeps =>
          obtain ⟨run, first⟩ := splitRun_fst less b l
          have rest := ih (a := b)
          rw [first] at rest ⊢
          rw [descents, if_neg keeps, rest]

theorem descents_splitRun_snd {a : α} {l : List α} : descents less (a :: l) =
    if (splitRun less a l).2 = [] then 0 else descents less (splitRun less a l).2 + 1 := by
  induction l generalizing a with
  | nil => rfl
  | cons b l ih =>
      rw [splitRun, descents]
      by_cases down : less b a = true
      · rw [if_pos down, if_pos down, if_neg (List.cons_ne_nil b l), Nat.add_comm]
      · rw [if_neg down, if_neg down, Nat.zero_add, ih]

variable (less) in
theorem descents_append_le (front back : List α) :
    descents less (front ++ back) ≤ descents less front + descents less back + 1 := by
  induction front with
  | nil => exact Nat.le_succ_of_le (Nat.le_add_left _ _)
  | cons a front ih =>
      cases front with
      | nil =>
          cases back with
          | nil => exact Nat.zero_le _
          | cons b back =>
              simp only [List.cons_append, List.nil_append, descents]
              split <;> omega
      | cons b front =>
          simp only [List.cons_append, descents] at ih ⊢
          omega

theorem descents_eq_zero {l : List α} :
    descents less l = 0 ↔ List.IsChain (fun a b => less b a = false) l := by
  induction l with
  | nil => exact ⟨fun _ => .nil, fun _ => rfl⟩
  | cons a l ih =>
      cases l with
      | nil => exact ⟨fun _ => .singleton a, fun _ => rfl⟩
      | cons b l =>
          rw [List.isChain_cons_cons, ← ih, descents]
          cases less b a <;> simp

theorem StrictWeak.descents_eq_zero (weak : StrictWeak less) {l : List α} :
    descents less l = 0 ↔ l.Pairwise fun a b => less b a = false := by
  have trans : Trans (fun a b => less b a = false) (fun a b => less b a = false)
      fun a b => less b a = false := ⟨fun {a b c} => weak.trans a b c⟩
  rw [Library.descents_eq_zero, List.isChain_iff_pairwise]

end Runs

section Pass
variable {less : α → α → Bool} {l : List α}

theorem mergePass_last {a : α} (h : (splitRun less a l).2 = []) :
    mergePass less (a :: l) = ((splitRun less a l).1, 1) := by
  rw [mergePass]
  split
  · rfl
  · next more => rw [h] at more; cases more

theorem mergePass_more {a b : α} {rest : List α} (h : (splitRun less a l).2 = b :: rest) :
    mergePass less (a :: l) =
      (List.merge (splitRun less a l).1 (splitRun less b rest).1 (inOrder less) ++
        (mergePass less (splitRun less b rest).2).1, (mergePass less (splitRun less b rest).2).2 + 1) := by
  rw [mergePass]
  split
  · next none_left => rw [h] at none_left; cases none_left
  · next more =>
      rw [h] at more
      cases more
      rfl

/-- What holds of every pass, by induction on the pairs of runs it merges. -/
theorem mergePass_induction {P : List α → List α × Nat → Prop} (nil : P [] ([], 0))
    (last : ∀ a l, (splitRun less a l).2 = [] → P (a :: l) ((splitRun less a l).1, 1))
    (more : ∀ a l b rest, (splitRun less a l).2 = b :: rest →
      P (splitRun less b rest).2 (mergePass less (splitRun less b rest).2) →
      P (a :: l) (List.merge (splitRun less a l).1 (splitRun less b rest).1 (inOrder less) ++
        (mergePass less (splitRun less b rest).2).1, (mergePass less (splitRun less b rest).2).2 + 1))
    (l : List α) : P l (mergePass less l) := by
  induction hn : l.length using Nat.strong_induction_on generalizing l with
  | _ n ih =>
      cases l with
      | nil =>
          rw [mergePass]
          exact nil
      | cons a l =>
          cases h : (splitRun less a l).2 with
          | nil =>
              rw [mergePass_last h]
              exact last a l h
          | cons b rest =>
              have first := length_splitRun_le less a l
              have second := length_splitRun_le less b rest
              rw [h, List.length_cons] at first
              rw [List.length_cons] at hn
              rw [mergePass_more h]
              exact more a l b rest h (ih _ (by omega) _ rfl)

theorem mergePass_perm : (mergePass less l).1.Perm l := by
  refine mergePass_induction (P := fun l out => out.1.Perm l) (.refl _) (fun a l h => ?_)
    (fun a l b rest h ih => ?_) l
  · have whole := splitRun_append less a l
    rw [h, List.append_nil] at whole
    rw [whole]
  · have first := splitRun_append less a l
    have second := splitRun_append less b rest
    refine ((List.merge_perm_append (inOrder less)).append ih).trans ?_
    rw [List.append_assoc, second, ← h, first]

theorem mergePass_snd (less : α → α → Bool) (l : List α) :
    (mergePass less l).2 = if l = [] then 0 else descents less l / 2 + 1 := by
  refine mergePass_induction (P := fun l out => out.2 = if l = [] then 0 else descents less l / 2 + 1)
    rfl (fun a l h => ?_) (fun a l b rest h ih => ?_) l
  · rw [if_neg (List.cons_ne_nil a l), descents_splitRun_snd, if_pos h]
  · rw [if_neg (List.cons_ne_nil a l), descents_splitRun_snd, h, if_neg (List.cons_ne_nil b rest), ih,
      descents_splitRun_snd]
    split
    · rfl
    · omega

theorem StrictWeak.descents_mergePass (weak : StrictWeak less) :
    descents less (mergePass less l).1 ≤ (mergePass less l).2 - 1 := by
  refine mergePass_induction (P := fun _ out => descents less out.1 ≤ out.2 - 1) (Nat.le_refl _)
    (fun a l _ => ?_) (fun a l b rest h ih => ?_) l
  · exact Nat.le_of_eq descents_splitRun_fst
  · have merged : descents less
        (List.merge (splitRun less a l).1 (splitRun less b rest).1 (inOrder less)) = 0 := by
      apply weak.descents_eq_zero.mpr
      have sorted (a : α) (l : List α) :
          (splitRun less a l).1.Pairwise fun a b => inOrder less a b = true := by
        refine (weak.descents_eq_zero.mp descents_splitRun_fst).imp fun keeps => ?_
        rw [inOrder, keeps]
        rfl
      refine (List.pairwise_merge ?_ ?_ _ _ (sorted a l) (sorted b rest)).imp fun keeps => ?_
      · intro a b c first second
        simp only [inOrder, Bool.not_eq_true'] at first second ⊢
        exact weak.trans a b c first second
      · intro a b
        have one := weak.asymm a b
        cases h : less a b with
        | false => simp [inOrder, h]
        | true => simp [inOrder, one h]
      · simpa [inOrder] using keeps
    have later := descents_append_le less
      (List.merge (splitRun less a l).1 (splitRun less b rest).1 (inOrder less))
      (mergePass less (splitRun less b rest).2).1
    have count := mergePass_snd less (splitRun less b rest).2
    by_cases none_left : (splitRun less b rest).2 = []
    · rw [none_left, mergePass, List.append_nil, merged]
      exact Nat.zero_le _
    · rw [if_neg none_left] at count
      simp only
      omega

end Pass

section Passes
variable {less : α → α → Bool} {l : List α}

theorem naturalMerge_perm {passes : Nat} {out : List α} (h : naturalMerge less passes l = some out) :
    out.Perm l := by
  induction passes generalizing l with
  | zero => cases h
  | succ passes ih =>
      rw [naturalMerge] at h
      split at h
      · exact (ih h).trans mergePass_perm
      · split at h
        · cases h
          exact mergePass_perm
        · cases h

/-- Under a strict weak order the sort ends, and leaves the list in order. -/
theorem StrictWeak.naturalMerge_spec (weak : StrictWeak less) {passes : Nat} {l : List α}
    (enough : descents less l < passes) :
    ∃ out, naturalMerge less passes l = some out ∧ out.Perm l ∧
      out.Pairwise fun a b => less b a = false := by
  induction passes generalizing l with
  | zero => exact absurd enough (Nat.not_lt_zero _)
  | succ passes ih =>
      have after := weak.descents_mergePass (l := l)
      have count := mergePass_snd less l
      rw [naturalMerge]
      by_cases more : (mergePass less l).2 > 1
      · rw [if_pos more]
        split at count
        · omega
        · obtain ⟨out, done, perm, sorted⟩ := ih (l := (mergePass less l).1) (by omega)
          exact ⟨out, done, perm.trans mergePass_perm, sorted⟩
      · have level : descents less (mergePass less l).1 = 0 := by omega
        rw [if_neg more, if_pos level]
        exact ⟨_, rfl, mergePass_perm, weak.descents_eq_zero.mp level⟩

/-- Neither of the two comes before the other. -/
def equivalent (less : α → α → Bool) (a b : α) : Bool := !less a b && !less b a

/-- What comes before one of two equivalent elements comes before the other. -/
theorem StrictWeak.lt_of_equivalent (weak : StrictWeak less) {a b x : α} (before : less a b = true)
    (same : equivalent less x a = true) : equivalent less x b = false := by
  simp only [equivalent, Bool.and_eq_true, Bool.not_eq_true'] at same
  cases after : less b x with
  | true => simp [equivalent, after]
  | false =>
      -- `a` would not come before `b`, which is no later than `x`.
      cases ahead : less x b with
      | true => simp [equivalent, ahead]
      | false =>
          have not_before := weak.trans b x a ahead same.2
          rw [not_before] at before
          cases before

/-- Merging keeps the order of equivalent elements, those of the first list first. -/
theorem StrictWeak.filter_merge (weak : StrictWeak less) (x : α) {xs ys : List α}
    (sorted : xs.Pairwise fun a b => less b a = false) :
    (List.merge xs ys (inOrder less)).filter (equivalent less x) =
      xs.filter (equivalent less x) ++ ys.filter (equivalent less x) := by
  induction xs generalizing ys with
  | nil => simp
  | cons a xs ih =>
      induction ys with
      | nil => simp
      | cons b ys ih' =>
          rw [List.cons_merge_cons]
          obtain ⟨first, rest⟩ := List.pairwise_cons.mp sorted
          cases before : less b a with
          | false =>
              rw [if_pos (by rw [inOrder, before]; rfl), List.filter_cons, ih rest]
              split
              next same =>
                rw [List.filter_cons_of_pos same]
                rfl
              next other => rw [List.filter_cons_of_neg other]
          | true =>
              rw [if_neg (by rw [inOrder, before]; decide), List.filter_cons, ih']
              split
              next same =>
                have none_left : (a :: xs).filter (equivalent less x) = [] := by
                  apply List.filter_eq_nil_iff.mpr
                  intro c mem
                  have ahead : less b c = true := by
                    cases List.mem_cons.mp mem with
                    | inl here => rw [here, before]
                    | inr there =>
                        cases later : less b c with
                        | true => rfl
                        | false =>
                            have not_before := weak.trans a c b (first c there) later
                            rw [not_before] at before
                            cases before
                  rw [weak.lt_of_equivalent ahead same]
                  exact Bool.false_ne_true
                rw [List.filter_cons_of_pos same, none_left]
                rfl
              next other => rw [List.filter_cons_of_neg other]

theorem StrictWeak.filter_mergePass (weak : StrictWeak less) (x : α) (l : List α) :
    (mergePass less l).1.filter (equivalent less x) = l.filter (equivalent less x) := by
  refine mergePass_induction
    (P := fun l out => out.1.filter (equivalent less x) = l.filter (equivalent less x))
    rfl (fun a l h => ?_) (fun a l b rest h ih => ?_) l
  · have whole := splitRun_append less a l
    rw [h, List.append_nil] at whole
    rw [whole]
  · have first := splitRun_append less a l
    have second := splitRun_append less b rest
    rw [List.filter_append, weak.filter_merge x (weak.descents_eq_zero.mp descents_splitRun_fst), ih,
      List.append_assoc, ← List.filter_append, second, ← h, ← List.filter_append, first]

theorem StrictWeak.naturalMerge_filter (weak : StrictWeak less) (x : α) {passes : Nat} {out : List α}
    (h : naturalMerge less passes l = some out) :
    out.filter (equivalent less x) = l.filter (equivalent less x) := by
  induction passes generalizing l with
  | zero => cases h
  | succ passes ih =>
      rw [naturalMerge] at h
      split at h
      · exact (ih h).trans (weak.filter_mergePass x l)
      · split at h
        · cases h
          exact weak.filter_mergePass x l
        · cases h

theorem descents_lt_length (less : α → α → Bool) (l : List α) : descents less l < l.length + 1 := by
  induction l with
  | nil => exact Nat.zero_lt_one
  | cons a l ih =>
      cases l with
      | nil => exact Nat.zero_lt_succ _
      | cons b l =>
          rw [descents, List.length_cons]
          split <;> omega

end Passes
end CS162.Library
