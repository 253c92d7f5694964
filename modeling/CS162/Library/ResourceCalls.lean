import Mathlib.Logic.Function.Basic
import Mathlib.Data.List.Basic

/-!
Programs that open, use and close resources through calls whose answers are not theirs to
choose. A run is given the answers call by call and logs what it does with which resource.
A resource is fresh, held or released; the rules say from which phases a program starts and
in which it ends, and what that means for its log.
-/

namespace CS162.Library

inductive ResourceEvent (ρ : Type) where
  | opened (r : ρ)
  | used (r : ρ)
  | closed (r : ρ)
  deriving DecidableEq

def ResourceEvent.resource {ρ : Type} : ResourceEvent ρ → ρ
  | .opened r | .used r | .closed r => r

inductive Phase where
  | fresh
  | held
  | released
  deriving DecidableEq

abbrev Phases (ρ : Type) := ρ → Phase

section Logs
variable {ρ : Type} {p p' : Phases ρ} {r : ρ} {e : ResourceEvent ρ} {log more : List (ResourceEvent ρ)}

/-- Closed once, and left alone from then on. -/
def ClosedOnce (r : ρ) (log : List (ResourceEvent ρ)) : Prop :=
  ∃ before rest, log = before ++ .closed r :: rest ∧ .closed r ∉ before ∧ ∀ e ∈ rest, e.resource ≠ r

theorem ClosedOnce.cons (h : ClosedOnce r log) (other : e ≠ .closed r) : ClosedOnce r (e :: log) := by
  obtain ⟨before, rest, rfl, none_before, quiet⟩ := h
  refine ⟨e :: before, rest, rfl, fun inside => ?_, quiet⟩
  exact (List.mem_cons.mp inside).elim (fun same => other same.symm) none_before

theorem ClosedOnce.mem (h : ClosedOnce r log) : .closed r ∈ log := by
  obtain ⟨before, rest, rfl, -, -⟩ := h
  exact List.mem_append_right _ List.mem_cons_self

namespace Phases

/-- What has been opened in between has been closed again, the rest is as before. -/
def Settled (p p' : Phases ρ) : Prop := ∀ r, p' r = p r ∨ p r = .fresh ∧ p' r = .released

theorem Settled.refl (p : Phases ρ) : Settled p p := fun _ => .inl rfl

theorem Settled.held (h : Settled p p') (before : p r = .held) : p' r = .held := by
  obtain same | ⟨fresh, -⟩ := h r
  · exact same.trans before
  · cases fresh.symm.trans before

theorem Settled.ne_held (h : Settled p p') (before : p r = .fresh) : p' r ≠ .held := by
  obtain same | ⟨-, released⟩ := h r
  · rw [same, before]
    exact Phase.noConfusion
  · rw [released]
    exact Phase.noConfusion

variable [DecidableEq ρ]

def step (p : Phases ρ) : ResourceEvent ρ → Option (Phases ρ)
  | .opened r => if p r = .fresh then some (Function.update p r .held) else none
  | .used r => if p r = .held then some p else none
  | .closed r => if p r = .held then some (Function.update p r .released) else none

/-- The phases after what a log says; none if it breaks the rules. -/
def after : Phases ρ → List (ResourceEvent ρ) → Option (Phases ρ)
  | p, [] => some p
  | p, e :: log => (p.step e).bind fun p => p.after log

theorem after_append (p : Phases ρ) (log more : List (ResourceEvent ρ)) :
    p.after (log ++ more) = (p.after log).bind fun p => p.after more := by
  induction log generalizing p with
  | nil => rfl
  | cons e log ih =>
      rw [List.cons_append, after, after, Option.bind_assoc]
      exact congrArg _ (funext ih)

theorem step_of_ne (h : p.step e = some p') (other : e.resource ≠ r) : p' r = p r := by
  cases e <;> simp only [step] at h <;> split at h <;> cases h <;> first
    | rfl
    | exact Function.update_of_ne (Ne.symm other) ..

theorem step_released (h : p.step e = some p') (done : p r = .released) :
    e.resource ≠ r ∧ p' r = .released := by
  have other : e.resource ≠ r := by
    rintro rfl
    cases e <;> simp only [ResourceEvent.resource] at done <;> simp only [step, done] at h <;> cases h
  exact ⟨other, (step_of_ne h other).trans done⟩

theorem after_released (h : p.after log = some p') (done : p r = .released) :
    (∀ e ∈ log, e.resource ≠ r) ∧ p' r = .released := by
  induction log generalizing p with
  | nil =>
      cases h
      exact ⟨fun e inside => absurd inside List.not_mem_nil, done⟩
  | cons e log ih =>
      obtain ⟨p₁, first, rest⟩ := Option.bind_eq_some_iff.mp h
      obtain ⟨other, still⟩ := step_released first done
      obtain ⟨others, last⟩ := ih rest still
      exact ⟨List.forall_mem_cons.mpr ⟨other, others⟩, last⟩

/-- What is held at first, or opened, and not held at last has been closed once. -/
theorem closedOnce_of_after (h : p.after log = some p') (active : p r = .held ∨ .opened r ∈ log)
    (gone : p' r ≠ .held) : ClosedOnce r log := by
  induction log generalizing p with
  | nil =>
      cases h
      exact absurd (active.resolve_right List.not_mem_nil) gone
  | cons e log ih =>
      obtain ⟨p₁, first, rest⟩ := Option.bind_eq_some_iff.mp h
      by_cases closes : e = .closed r
      · subst closes
        simp only [step] at first
        split at first
        · cases first
          exact ⟨[], log, rfl, List.not_mem_nil, (after_released rest (Function.update_self ..)).1⟩
        · cases first
      · refine (ih rest ?_).cons closes
        by_cases other : e.resource = r
        · subst other
          left
          cases e with
          | closed r => exact absurd rfl closes
          | opened r =>
              simp only [step] at first
              split at first <;> cases first
              exact Function.update_self ..
          | used r =>
              simp only [step] at first
              split at first <;> cases first
              assumption
        · refine active.imp (fun held => (step_of_ne first other).trans held) fun inside => ?_
          refine (List.mem_cons.mp inside).resolve_left fun same => other ?_
          rw [← same]
          rfl

theorem closed_notMem_of_after (h : p.after log = some p') (held : p' r = .held) : .closed r ∉ log := by
  intro inside
  obtain ⟨before, rest, rfl⟩ := List.append_of_mem inside
  rw [after_append] at h
  obtain ⟨p₁, -, h⟩ := Option.bind_eq_some_iff.mp h
  obtain ⟨p₂, first, rest⟩ := Option.bind_eq_some_iff.mp h
  simp only [step] at first
  split at first
  · cases first
    rw [(after_released rest (Function.update_self ..)).2] at held
    cases held
  · cases first

theorem Settled.close (fresh : p r = .fresh) (h : Settled (Function.update p r .held) p') :
    Settled p (Function.update p' r .released) := by
  intro other
  by_cases same : other = r
  · subst same
    exact .inr ⟨fresh, Function.update_self ..⟩
  · have settled := h other
    rw [Function.update_of_ne same] at settled ⊢
    exact settled

end Phases
end Logs

/-- The answers to all calls, the number of calls made, and the log. -/
structure Calls (κ ρ : Type) where
  answers : Nat → κ
  made : Nat
  log : List (ResourceEvent ρ)

/-- No result: the program has not returned, or has ended without. -/
abbrev Program (κ ρ α : Type) := Calls κ ρ → Option (α × Calls κ ρ)

instance (κ ρ : Type) : Monad (Program κ ρ) := inferInstanceAs (Monad (StateT (Calls κ ρ) Option))

namespace Program
variable {κ ρ α β : Type}

/-- The answer to the next call. -/
def ask : Program κ ρ κ := fun c => some (c.answers c.made, { c with made := c.made + 1 })

def note (e : ResourceEvent ρ) : Program κ ρ Unit := fun c => some ((), { c with log := c.log ++ [e] })

def stop : Program κ ρ α := fun _ => none

theorem bind_apply (x : Program κ ρ α) (f : α → Program κ ρ β) (c : Calls κ ρ) :
    (x >>= f) c = (x c).bind fun result => f result.1 result.2 := rfl

/-- From these phases, whatever the answers, a run that returns keeps the rules, and the
result and the phases it ends in are such. -/
def Leads [DecidableEq ρ] (p : Phases ρ) (x : Program κ ρ α) (Q : α → Phases ρ → Prop) : Prop :=
  ∀ c a c', x c = some (a, c') → ∃ log p', c'.log = c.log ++ log ∧ p.after log = some p' ∧ Q a p'

section Rules
variable [DecidableEq ρ] {p : Phases ρ} {x y : Program κ ρ α} {f : α → Program κ ρ β}
  {Q Q' : α → Phases ρ → Prop} {R : β → Phases ρ → Prop} {r : ρ}

namespace Leads

theorem pure {a : α} (h : Q a p) : Leads p (Pure.pure a : Program κ ρ α) Q := by
  intro c _ _ run
  cases run
  exact ⟨[], p, (List.append_nil _).symm, rfl, h⟩

theorem stop : Leads p (Program.stop : Program κ ρ α) Q := by
  intro c _ _ run
  cases run

theorem bind (first : Leads p x Q) (rest : ∀ a p', Q a p' → Leads p' (f a) R) : Leads p (x >>= f) R := by
  intro c b c₂ run
  rw [bind_apply] at run
  obtain ⟨⟨a, c₁⟩, run₁, run₂⟩ := Option.bind_eq_some_iff.mp run
  obtain ⟨log₁, p₁, said₁, after₁, mid⟩ := first c a c₁ run₁
  obtain ⟨log₂, p₂, said₂, after₂, last⟩ := rest a p₁ mid c₁ b c₂ run₂
  refine ⟨log₁ ++ log₂, p₂, ?_, ?_, last⟩
  · rw [said₂, said₁, List.append_assoc]
  · rw [Phases.after_append, after₁]
    exact after₂

theorem imp (h : Leads p x Q) (weaker : ∀ a p', Q a p' → Q' a p') : Leads p x Q' := by
  intro c a c' run
  obtain ⟨log, p', said, after, last⟩ := h c a c' run
  exact ⟨log, p', said, after, weaker a p' last⟩

theorem ite {b : Prop} [Decidable b] (yes : b → Leads p x Q) (no : ¬ b → Leads p y Q) :
    Leads p (if b then x else y) Q := by
  split
  · exact yes ‹_›
  · exact no ‹_›

theorem ask : Leads p (Program.ask : Program κ ρ κ) fun _ p' => p' = p := by
  intro c _ _ run
  cases run
  exact ⟨[], p, (List.append_nil _).symm, rfl, rfl⟩

theorem note {e : ResourceEvent ρ} {p' : Phases ρ} (h : p.step e = some p') :
    Leads p (Program.note e : Program κ ρ Unit) fun _ q => q = p' := by
  intro c _ _ run
  cases run
  refine ⟨[e], p', rfl, ?_, rfl⟩
  rw [Phases.after, h]
  rfl

theorem opened (h : p r = .fresh) :
    Leads p (Program.note (.opened r) : Program κ ρ Unit) fun _ q => q = Function.update p r .held :=
  note (if_pos h)

theorem used (h : p r = .held) : Leads p (Program.note (.used r) : Program κ ρ Unit) fun _ q => q = p :=
  note (if_pos h)

theorem closed (h : p r = .held) :
    Leads p (Program.note (.closed r) : Program κ ρ Unit) fun _ q => q = Function.update p r .released :=
  note (if_pos h)

theorem next {p₁ : Phases ρ} (first : Leads p x fun _ q => q = p₁) (rest : ∀ a, Leads p₁ (f a) R) :
    Leads p (x >>= f) R :=
  first.bind fun a _ same => same ▸ rest a

end Leads
end Rules
end Program
end CS162.Library
