/-!
What holds when a computation that may stop is over: one property of where it
stopped, one of its result. Two such computations that stop in the same way, or have results
that are related.
-/

namespace CS162.Library
universe u v w
variable {ε : Type u} {α : Type v} {β : Type v}

inductive Ends (E : ε → Prop) (Q : α → Prop) : Except ε α → Prop where
  | ok {a : α} : Q a → Ends E Q (.ok a)
  | error {e : ε} : E e → Ends E Q (.error e)

variable {E E' : ε → Prop} {Q Q' : α → Prop} {R : β → Prop} {x : Except ε α}

theorem Ends.bind {f : α → Except ε β} (first : Ends E Q x) (rest : ∀ a, Q a → Ends E R (f a)) :
    Ends E R (x >>= f) := by
  cases first with
  | ok h => exact rest _ h
  | error h => exact .error h

theorem Ends.map {f : α → β} (h : Ends E Q x) (results : ∀ a, Q a → R (f a)) : Ends E R (x.map f) := by
  cases h with
  | ok h => exact .ok (results _ h)
  | error h => exact .error h

theorem Ends.imp (h : Ends E Q x) (stops : ∀ e, E e → E' e) (results : ∀ a, Q a → Q' a) :
    Ends E' Q' x := by
  cases h with
  | ok h => exact .ok (results _ h)
  | error h => exact .error (stops _ h)

theorem Ends.get {a : α} (h : Ends E Q x) (result : x = .ok a) : Q a := by
  subst result
  cases h with
  | ok holds => exact holds

theorem Ends.stop {e : ε} (h : Ends E Q x) (result : x = .error e) : E e := by
  subst result
  cases h with
  | error holds => exact holds

theorem Ends.ite {c : Prop} [Decidable c] {y : Except ε α} (yes : c → Ends E Q x)
    (no : ¬ c → Ends E Q y) : Ends E Q (if c then x else y) := by
  split
  · exact yes ‹_›
  · exact no ‹_›

/-- If there is a result, it has the property. -/
abbrev Yields (Q : α → Prop) (x : Except ε α) : Prop := Ends (fun _ => True) Q x

theorem Yields.of_ok (h : ∀ a, x = .ok a → Q a) : Yields Q x := by
  cases x with
  | ok a => exact .ok (h a rfl)
  | error e => exact .error trivial

theorem Yields.any (x : Except ε α) : Yields (fun _ => True) x := .of_ok fun _ _ => trivial

theorem Yields.get {a : α} (h : Yields Q x) (result : x = .ok a) : Q a := Ends.get h result

theorem ok_bind (a : α) (f : α → Except ε β) : (Except.ok a >>= f) = f a := rfl

theorem bind_eq_ok {f : α → Except ε β} {b : β} (h : x >>= f = .ok b) :
    ∃ a, x = .ok a ∧ f a = .ok b := by
  cases x with
  | error e => cases h
  | ok a => exact ⟨a, rfl, h⟩

theorem exists_bind_ok {f : α → Except ε β} :
    (∃ b, (x >>= f) = .ok b) ↔ ∃ a, x = .ok a ∧ ∃ b, f a = .ok b := by
  cases x with
  | error e => exact iff_of_false nofun nofun
  | ok a => exact ⟨fun result => ⟨a, rfl, result⟩, fun ⟨_, same, result⟩ => Except.ok.inj same ▸ result⟩

theorem map_ok {f : α → β} {b : β} (h : x.map f = .ok b) : ∃ a, x = .ok a ∧ f a = b := by
  cases x with
  | error => cases h
  | ok a =>
      cases h
      exact ⟨a, rfl, rfl⟩

theorem error_bind (e : ε) (f : α → Except ε β) : (Except.error e >>= f) = .error e := rfl

/-- Both stop, and for the same reason, or neither does and the results are related. -/
inductive Alike (R : α → β → Prop) : Except ε α → Except ε β → Prop where
  | ok {a : α} {b : β} : R a b → Alike R (.ok a) (.ok b)
  | error (e : ε) : Alike R (.error e) (.error e)

section
variable {α β γ δ : Type v} {R : α → β → Prop} {S : γ → δ → Prop} {y : Except ε β}

theorem Alike.bind {x : Except ε α} {f : α → Except ε γ} {g : β → Except ε δ} (first : Alike R x y)
    (rest : ∀ a b, R a b → Alike S (f a) (g b)) : Alike S (x >>= f) (y >>= g) := by
  cases first with
  | ok related => exact rest _ _ related
  | error e => exact .error e

theorem Alike.ite {c : Prop} [Decidable c] {x x' : Except ε α} {y' : Except ε β} (yes : c → Alike R x y)
    (no : ¬ c → Alike R x' y') : Alike R (if c then x else x') (if c then y else y') := by
  split
  · exact yes ‹_›
  · exact no ‹_›

theorem Alike.same (x : Except ε α) {f : α → Except ε γ} {g : α → Except ε δ}
    (rest : ∀ a, Alike S (f a) (g a)) : Alike S (x >>= f) (x >>= g) := by
  cases x with
  | ok a => exact rest a
  | error e => exact .error e

end

theorem toOption_bind (x : Except ε α) (f : α → Except ε β) :
    (x >>= f).toOption = x.toOption.bind fun a => (f a).toOption := by
  cases x <;> rfl

theorem toOption_some {a : α} : x.toOption = some a ↔ x = .ok a := by
  cases x <;> simp [Except.toOption]

end CS162.Library
