import Mathlib.Logic.Function.Basic

/-!
A lock made of a count that starts at one and a holder's name, taken and given
back in several steps: a unit is taken, then the name is set; the name is cleared,
then the unit is given back. Such a lock is always in one of five states, and in
each of them one member at most has the unit.
-/

namespace CS162.Library
universe u

/-- Where a member that has the unit is, outside the critical section. -/
inductive Passage where
  | acquired
  | release
  | released
  deriving DecidableEq

structure Mutex (ι : Type u) where
  units : Nat
  holder : Option ι
  inside : ι → Bool
  passing : ι → Option Passage

namespace Mutex
variable {ι : Type u} [DecidableEq ι]

/-- What may happen to a lock in one step; `takeInside` takes the unit and sets the
name at once. -/
inductive Turn (m : Nat) : Mutex ι → Mutex ι → Prop where
  | same (l : Mutex ι) : Turn m l l
  | take {units : Nat} {holder : Option ι} {inside : ι → Bool} {passing : ι → Option Passage}
      (t : ι) :
      Turn m ⟨units + 1, holder, inside, passing⟩
        ⟨units, holder, inside, Function.update passing t (some .acquired)⟩
  | takeInside {units : Nat} {holder : Option ι} {inside : ι → Bool} {passing : ι → Option Passage}
      (t : ι) :
      Turn m ⟨units + 1, holder, inside, passing⟩
        ⟨units, some t, Function.update inside t true, passing⟩
  | enter {units : Nat} {holder : Option ι} {inside : ι → Bool} {passing : ι → Option Passage}
      (t : ι) (here : passing t = some .acquired) :
      Turn m ⟨units, holder, inside, passing⟩
        ⟨units, some t, Function.update inside t true, Function.update passing t none⟩
  | leave {units : Nat} {inside : ι → Bool} {passing : ι → Option Passage}
      (t : ι) (here : passing t = none) :
      Turn m ⟨units, some t, inside, passing⟩
        ⟨units, some t, Function.update inside t false, Function.update passing t (some .release)⟩
  | clear {units : Nat} {holder : Option ι} {inside : ι → Bool} {passing : ι → Option Passage}
      (t : ι) (here : passing t = some .release) :
      Turn m ⟨units, holder, inside, passing⟩
        ⟨units, none, inside, Function.update passing t (some .released)⟩
  | give {units : Nat} {holder : Option ι} {inside : ι → Bool} {passing : ι → Option Passage}
      (t : ι) (here : passing t = some .released) :
      Turn m ⟨units, holder, inside, passing⟩
        ⟨(units + 1) % m, holder, inside, Function.update passing t none⟩

/-- The states of a lock. -/
inductive Law : Mutex ι → Prop where
  | free : Law ⟨1, none, fun _ => false, fun _ => none⟩
  | inside (t : ι) : Law ⟨0, some t, Function.update (fun _ => false) t true, fun _ => none⟩
  | passing (t : ι) (p : Passage) :
      Law ⟨0, if p = .release then some t else none, fun _ => false,
        Function.update (fun _ => none) t (some p)⟩

variable {m : Nat} {l l' : Mutex ι}

theorem passing_eq {t u : ι} {p q : Passage}
    (h : Function.update (fun _ => none) t (some p) u = some q) : u = t ∧ p = q := by
  by_cases hu : u = t
  · subst hu
    rw [Function.update_self] at h
    cases h
    exact ⟨rfl, rfl⟩
  · rw [Function.update_of_ne hu] at h
    cases h

theorem update_back {β : Type*} (b b' : β) (t : ι) :
    Function.update (Function.update (fun _ => b) t b') t b = fun _ => b := by
  rw [Function.update_idem, Function.update_eq_self_iff]

theorem Law.turn (one : 1 < m) (h : Law l) (step : Turn m l l') : Law l' := by
  cases step with
  | same => exact h
  | take t =>
      cases h
      exact .passing t .acquired
  | takeInside t =>
      cases h
      exact .inside t
  | enter t here =>
      cases h with
      | free => cases here
      | inside => cases here
      | passing u p =>
          obtain ⟨rfl, rfl⟩ := passing_eq here
          rw [update_back]
          exact .inside t
  | leave t here =>
      generalize eq : (some t : Option ι) = holder at h
      cases h with
      | free => cases eq
      | inside u =>
          cases eq
          rw [update_back]
          exact .passing t .release
      | passing u p =>
          split at eq
          · cases eq
            rw [Function.update_self] at here
            cases here
          · cases eq
  | clear t here =>
      cases h with
      | free => cases here
      | inside => cases here
      | passing u p =>
          obtain ⟨rfl, rfl⟩ := passing_eq here
          simp only [Function.update_idem]
          exact .passing t .released
  | give t here =>
      cases h with
      | free => cases here
      | inside => cases here
      | passing u p =>
          obtain ⟨rfl, rfl⟩ := passing_eq here
          rw [update_back, Nat.mod_eq_of_lt one]
          exact .free

/-- The member has the unit. -/
def has (l : Mutex ι) (t : ι) : Prop := l.inside t = true ∨ (l.passing t).isSome = true

theorem Law.exclusive {t u : ι} (h : Law l) (ht : l.has t) (hu : l.has u) : t = u := by
  simp only [has] at ht hu
  cases h with
  | free => simp at ht
  | inside v =>
      simp only [Function.update_apply] at ht hu
      grind
  | passing v p =>
      simp only [Function.update_apply] at ht hu
      grind

theorem Law.holder_inside {t : ι} (h : Law l) (ht : l.inside t = true) : l.holder = some t := by
  cases h with
  | free => cases ht
  | inside u =>
      simp only [Function.update_apply] at ht ⊢
      grind
  | passing => cases ht

theorem Law.has_of_holder {t : ι} (h : Law l) (ht : l.holder = some t) : l.has t := by
  cases h with
  | free => cases ht
  | inside u =>
      cases ht
      exact .inl (by simp)
  | passing u p =>
      simp only at ht
      split at ht <;> cases ht
      exact .inr (by simp)

theorem Law.units_eq (h : Law l) :
    (∃ t, l.has t) ∧ l.units = 0 ∨ (∀ t, ¬ l.has t) ∧ l.units = 1 := by
  cases h with
  | free =>
      refine .inr ⟨fun t has => ?_, rfl⟩
      rcases has with inside | passing
      · cases inside
      · cases passing
  | inside t => exact .inl ⟨⟨t, .inl (by simp)⟩, rfl⟩
  | passing t p => exact .inl ⟨⟨t, .inr (by simp)⟩, rfl⟩

end Mutex
end CS162.Library
