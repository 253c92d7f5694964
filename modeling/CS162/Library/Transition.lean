/-!
Labelled transition systems, the states they reach, and the induction rules the
developments over them share. A step condition restricts the steps of a system;
an invariant of the restricted system says what holds along every run whose
steps all meet the condition.
-/

namespace CS162.Library
universe u v

structure System (σ : Type u) (α : Type v) where
  init : σ → Prop
  step : σ → α → σ → Prop

namespace System
variable {σ : Type u} {α : Type v}

inductive Reachable (S : System σ α) : σ → Prop where
  | init {s : σ} : S.init s → Reachable S s
  | step {s s' : σ} {a : α} : Reachable S s → S.step s a s' → Reachable S s'

/-- The same system, taking only the steps that meet a condition on the state
before the step and on the label. -/
def under (S : System σ α) (C : σ → α → Prop) : System σ α where
  init := S.init
  step s a s' := S.step s a s' ∧ C s a

/-- A deterministic system, started in some state of a set. -/
def ofNext (start : σ → Prop) (next : σ → α → Option σ) : System σ α where
  init := start
  step s a s' := next s a = some s'

variable {S : System σ α}

theorem Reachable.invariant {I : σ → Prop} {s : σ} (h : S.Reachable s)
    (base : ∀ s, S.init s → I s)
    (keep : ∀ s a s', I s → S.step s a s' → I s') : I s := by
  induction h with
  | init h => exact base _ h
  | step _ hs ih => exact keep _ _ _ ih hs

/-- The step case may also use that the state before the step is reachable, so
invariants already proved need not be carried along. -/
theorem Reachable.invariant_of_reachable {I : σ → Prop} {s : σ} (h : S.Reachable s)
    (base : ∀ s, S.init s → I s)
    (keep : ∀ s a s', S.Reachable s → I s → S.step s a s' → I s') : I s := by
  induction h with
  | init h => exact base _ h
  | step hr hs ih => exact keep _ _ _ hr ih hs

theorem Reachable.mono {T : System σ α} {s : σ} (h : S.Reachable s)
    (base : ∀ s, S.init s → T.init s) (more : ∀ s a s', S.step s a s' → T.step s a s') :
    T.Reachable s :=
  h.invariant (fun s hs => .init (base s hs)) fun s a s' hr hs => hr.step (more s a s' hs)

theorem Reachable.of_under {C : σ → α → Prop} {s : σ}
    (h : (S.under C).Reachable s) : S.Reachable s :=
  h.mono (fun _ hs => hs) fun _ _ _ hs => hs.1

/-- Run a deterministic system on a list of labels. -/
def exec (next : σ → α → Option σ) : σ → List α → Option σ
  | s, [] => some s
  | s, a :: as => (next s a).bind fun s' => exec next s' as

theorem reachable_exec {start : σ → Prop} {next : σ → α → Option σ} {s t : σ} {as : List α}
    (h : (ofNext start next).Reachable s) (he : exec next s as = some t) :
    (ofNext start next).Reachable t := by
  induction as generalizing s with
  | nil =>
      cases he
      exact h
  | cons a as ih =>
      obtain ⟨s', hs, he⟩ := Option.bind_eq_some_iff.mp he
      exact ih (h.step hs) he

theorem exec_induction {next : σ → α → Option σ} {R : σ → σ → Prop} {s t : σ} {as : List α}
    (he : exec next s as = some t) (refl : ∀ s, R s s)
    (step : ∀ s a s' t, next s a = some s' → R s' t → R s t) : R s t := by
  induction as generalizing s with
  | nil =>
      cases he
      exact refl _
  | cons a as ih =>
      obtain ⟨s', hs, he⟩ := Option.bind_eq_some_iff.mp he
      exact step s a s' t hs (ih he)

/-- A run with at least as many steps of a kind as the potential of its first state gets to the goal,
if no step but one that arrives raises the potential, and each step of the kind lowers it. -/
theorem exec_reaches {next : σ → α → Option σ} {goal : σ → Prop} {kind : α → Bool} (I : σ → Prop)
    (potential : σ → Nat) (positive : ∀ s, I s → 0 < potential s)
    (lowers : ∀ s a s', I s → next s a = some s' → goal s' ∨ I s' ∧ potential s' + (kind a).toNat ≤ potential s)
    {s t : σ} {as : List α} (he : exec next s as = some t) (hs : I s) (enough : potential s ≤ as.countP kind) :
    ∃ before after u, as = before ++ after ∧ exec next s before = some u ∧ goal u := by
  induction as generalizing s with
  | nil => exact absurd enough (Nat.not_le_of_lt (positive s hs))
  | cons a as ih =>
      obtain ⟨s', step, he⟩ := Option.bind_eq_some_iff.mp he
      have count : (a :: as).countP kind = as.countP kind + (kind a).toNat := by
        rw [List.countP_cons]
        cases kind a with
        | false => rfl
        | true => rfl
      rw [count] at enough
      obtain arrived | ⟨hs', less⟩ := lowers s a s' hs step
      · exact ⟨[a], as, s', rfl, by rw [exec, step]; rfl, arrived⟩
      · obtain ⟨before, after, u, rfl, ran, arrived⟩ := ih he hs' (by omega)
        exact ⟨a :: before, after, u, rfl, by rw [exec, step]; exact ran, arrived⟩

/-- A list of labels that runs to a state with some property reaches such a
state; the property is checked by evaluation. -/
theorem exists_reachable (start : σ → Prop) (next : σ → α → Option σ) (p : σ → Bool) {s : σ}
    (hs : start s) (as : List α) (h : (exec next s as).any p = true) :
    ∃ t, (ofNext start next).Reachable t ∧ p t = true := by
  obtain ⟨t, he, hp⟩ := (Option.any_eq_true ..).mp h
  exact ⟨t, reachable_exec (.init hs) he, hp⟩

theorem exists_reachable_under (start : σ → Prop) (next : σ → α → Option σ) (C : σ → α → Prop)
    [∀ s a, Decidable (C s a)] (p : σ → Bool) {s : σ} (hs : start s) (as : List α)
    (h : (exec (fun s a => if C s a then next s a else none) s as).any p = true) :
    ∃ t, ((ofNext start next).under C).Reachable t ∧ p t = true := by
  obtain ⟨t, ht, hp⟩ := exists_reachable start _ p hs as h
  refine ⟨t, ht.invariant (fun s hs => .init hs) (fun s a s' hr hs => hr.step (a := a) ?_), hp⟩
  simp only [ofNext] at hs
  split at hs
  next hc => exact ⟨hs, hc⟩
  next => cases hs

end System
end CS162.Library
