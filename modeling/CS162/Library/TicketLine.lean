import Mathlib.Data.List.Range
import Mathlib.Logic.Function.Basic

/-!
Lines of numbered tickets, one line for each name. A member draws the next number
of a line and waits; another member takes the first ticket off the line and then
raises it; the member that waits with a raised ticket may pass. The law says that a
line is served in the order of its numbers, and each ticket once.
-/

namespace CS162.Library
universe u v

/-- What a member does with a ticket. -/
inductive Role (γ : Type u) where
  | none
  | waits (k : γ × Nat)
  | passed (k : γ × Nat)
  | raises (k : γ × Nat)

/-- `issued` and `popped` count the tickets drawn from a line and taken off it; `ups`
and `downs` how often a ticket was raised and used. -/
structure Tickets (γ : Type u) (ι : Type v) where
  line : γ → List Nat
  issued : γ → Nat
  popped : γ → Nat
  role : ι → Role γ
  ups : γ × Nat → Nat
  downs : γ × Nat → Nat

variable {γ : Type u} {ι : Type v}

/-- The member has this ticket, before or after passing. -/
def Role.owns (r : Role γ) (k : γ × Nat) : Prop := r = .waits k ∨ r = .passed k

namespace Tickets

inductive Turn [DecidableEq γ] [DecidableEq ι] (a : Tickets γ ι) : Tickets γ ι → Prop where
  | same : Turn a a
  | leave (t : ι) (idle : ∀ k, a.role t ≠ .raises k) :
      Turn a { a with role := Function.update a.role t .none }
  | draw (t : ι) (c : γ) (idle : a.role t = .none) :
      Turn a { a with
        line := Function.update a.line c (a.line c ++ [a.issued c]),
        issued := Function.update a.issued c (a.issued c + 1),
        role := Function.update a.role t (.waits (c, a.issued c)) }
  | pop (t : ι) (c : γ) (n : Nat) (rest : List Nat) (idle : a.role t = .none)
      (first : a.line c = n :: rest) :
      Turn a { a with
        line := Function.update a.line c rest,
        popped := Function.update a.popped c (a.popped c + 1),
        role := Function.update a.role t (.raises (c, n)) }
  | raise (t : ι) (k : γ × Nat) (here : a.role t = .raises k) :
      Turn a { a with
        ups := Function.update a.ups k (a.ups k + 1),
        role := Function.update a.role t .none }
  | pass (t : ι) (k : γ × Nat) (here : a.role t = .waits k) :
      Turn a { a with
        downs := Function.update a.downs k (a.downs k + 1),
        role := Function.update a.role t (.passed k) }

structure Law (a : Tickets γ ι) : Prop where
  bound : ∀ c, a.popped c ≤ a.issued c
  line : ∀ c, a.line c = List.range' (a.popped c) (a.issued c - a.popped c)
  waits : ∀ t k, a.role t = .waits k → k.2 < a.issued k.1 ∧ a.downs k = 0
  passed : ∀ t k, a.role t = .passed k → k.2 < a.issued k.1 ∧ a.downs k = 1
  unique : ∀ t u k, (a.role t).owns k → (a.role u).owns k → t = u
  raises : ∀ t k, a.role t = .raises k → k.2 < a.popped k.1 ∧ a.ups k = 0
  raiser : ∀ t u k, a.role t = .raises k → a.role u = .raises k → t = u
  raised : ∀ k : γ × Nat, k.2 < a.popped k.1 → (∃ t, a.role t = .raises k) ∨ a.ups k = 1
  unraised : ∀ k : γ × Nat, a.popped k.1 ≤ k.2 → a.ups k = 0
  undrawn : ∀ k : γ × Nat, a.issued k.1 ≤ k.2 → a.downs k = 0

variable {a a' : Tickets γ ι}

theorem Law.init : Law (⟨fun _ => [], fun _ => 0, fun _ => 0, fun _ => .none, fun _ => 0, fun _ => 0⟩ :
    Tickets γ ι) where
  bound _ := Nat.le_refl 0
  line _ := rfl
  waits _ _ h := by cases h
  passed _ _ h := by cases h
  unique _ _ _ h := by rcases h with h | h <;> cases h
  raises _ _ h := by cases h
  raiser _ _ _ h := by cases h
  raised _ h := absurd h (Nat.not_lt_zero _)
  unraised _ _ := rfl
  undrawn _ _ := rfl

theorem Law.owned (h : Law a) {t : ι} {k : γ × Nat} (owns : (a.role t).owns k) :
    k.2 < a.issued k.1 := by
  rcases owns with waits | passed
  · exact (h.waits t k waits).1
  · exact (h.passed t k passed).1

theorem Law.front (h : Law a) {c : γ} {n : Nat} {rest : List Nat} (first : a.line c = n :: rest) :
    n = a.popped c ∧ a.popped c < a.issued c ∧
      rest = List.range' (a.popped c + 1) (a.issued c - (a.popped c + 1)) := by
  have line := h.line c
  rw [first] at line
  have le := h.bound c
  cases size : a.issued c - a.popped c with
  | zero =>
      rw [size] at line
      cases line
  | succ m =>
      rw [size, List.range'_succ] at line
      have more : a.issued c - (a.popped c + 1) = m := by omega
      rw [more]
      cases line
      exact ⟨rfl, by omega, rfl⟩

theorem Law.ups_le (h : Law a) (k : γ × Nat) : a.ups k ≤ 1 := by
  rcases Nat.lt_or_ge k.2 (a.popped k.1) with below | above
  · obtain ⟨t, here⟩ | up := h.raised k below
    · rw [(h.raises t k here).2]
      exact Nat.zero_le 1
    · exact up.le
  · rw [h.unraised k above]
    exact Nat.zero_le 1

theorem not_owns_none (k : γ × Nat) : ¬ (Role.none : Role γ).owns k := by simp [Role.owns]

theorem not_owns_raises (k k' : γ × Nat) : ¬ (Role.raises k' : Role γ).owns k := by simp [Role.owns]

variable [DecidableEq ι]

theorem role_old {role : ι → Role γ} {t u : ι} {r r' : Role γ} (here : Function.update role t r u = r')
    (ne : r ≠ r') : u ≠ t ∧ role u = r' := by
  by_cases hu : u = t
  · subst hu
    rw [Function.update_self] at here
    exact absurd here ne
  · rw [Function.update_of_ne hu] at here
    exact ⟨hu, here⟩

theorem owns_old {role : ι → Role γ} {t u : ι} {r : Role γ} {k : γ × Nat}
    (here : (Function.update role t r u).owns k) (ne : ¬ r.owns k) : u ≠ t ∧ (role u).owns k := by
  by_cases hu : u = t
  · subst hu
    rw [Function.update_self] at here
    exact absurd here ne
  · rw [Function.update_of_ne hu] at here
    exact ⟨hu, here⟩

theorem Law.raised_old (h : Law a) {t : ι} {r : Role γ} {k : γ × Nat} (below : k.2 < a.popped k.1)
    (other : a.role t ≠ .raises k) :
    (∃ u, Function.update a.role t r u = .raises k) ∨ a.ups k = 1 := by
  obtain ⟨u, here⟩ | up := h.raised k below
  · refine .inl ⟨u, ?_⟩
    have hu : u ≠ t := by
      intro eq
      exact other (eq ▸ here)
    rw [Function.update_of_ne hu]
    exact here
  · exact .inr up

theorem Law.leave (h : Law a) {t : ι} (idle : ∀ k, a.role t ≠ .raises k) :
    Law { a with role := Function.update a.role t .none } where
  bound := h.bound
  line := h.line
  waits u k here := h.waits u k (role_old here (by simp)).2
  passed u k here := h.passed u k (role_old here (by simp)).2
  unique u v k hu hv :=
    h.unique u v k (owns_old hu (not_owns_none k)).2 (owns_old hv (not_owns_none k)).2
  raises u k here := h.raises u k (role_old here (by simp)).2
  raiser u v k hu hv := h.raiser u v k (role_old hu (by simp)).2 (role_old hv (by simp)).2
  raised k below := h.raised_old below (idle k)
  unraised := h.unraised
  undrawn := h.undrawn

variable [DecidableEq γ]

theorem le_count (f : γ → Nat) (c c' : γ) : f c' ≤ Function.update f c (f c + 1) c' := by
  by_cases hc : c' = c
  · subst hc
    rw [Function.update_self]
    exact Nat.le_succ _
  · rw [Function.update_of_ne hc]

theorem Law.draw (h : Law a) {t : ι} {c : γ} (idle : a.role t = .none) :
    Law { a with
      line := Function.update a.line c (a.line c ++ [a.issued c]),
      issued := Function.update a.issued c (a.issued c + 1),
      role := Function.update a.role t (.waits (c, a.issued c)) } where
  bound c' := (h.bound c').trans (le_count a.issued c c')
  line c' := by
    by_cases hc : c' = c
    · subst hc
      have le := h.bound c'
      have more : a.issued c' + 1 - a.popped c' = a.issued c' - a.popped c' + 1 := by omega
      simp only [Function.update_self, h.line c', more, List.range'_1_concat]
      rw [Nat.add_sub_cancel' le]
    · simp only [Function.update_of_ne hc]
      exact h.line c'
  waits u k here := by
    by_cases hu : u = t
    · subst hu
      simp only [Function.update_self, Role.waits.injEq] at here
      subst here
      simp only [Function.update_self]
      exact ⟨Nat.lt_succ_self _, h.undrawn _ (Nat.le_refl _)⟩
    · simp only [Function.update_of_ne hu] at here
      obtain ⟨lt, unused⟩ := h.waits u k here
      exact ⟨lt.trans_le (le_count a.issued c k.1), unused⟩
  passed u k here := by
    obtain ⟨lt, used⟩ := h.passed u k (role_old here (by simp)).2
    exact ⟨lt.trans_le (le_count a.issued c k.1), used⟩
  unique u v k hu hv := by
    -- nobody had the number that is drawn now
    have fresh : ∀ x, ¬ (a.role x).owns (c, a.issued c) := fun x owns =>
      Nat.lt_irrefl _ (h.owned owns)
    by_cases new : k = (c, a.issued c)
    · subst new
      have only : ∀ x, (Function.update a.role t (.waits (c, a.issued c)) x).owns (c, a.issued c) →
          x = t := by
        intro x owns
        by_contra hx
        rw [Function.update_of_ne hx] at owns
        exact fresh x owns
      rw [only u hu, only v hv]
    · have other : ¬ (Role.waits (c, a.issued c)).owns k := by
        simp only [Role.owns, Role.waits.injEq, reduceCtorEq, or_false]
        exact fun eq => new eq.symm
      exact h.unique u v k (owns_old hu other).2 (owns_old hv other).2
  raises u k here := h.raises u k (role_old here (by simp)).2
  raiser u v k hu hv := h.raiser u v k (role_old hu (by simp)).2 (role_old hv (by simp)).2
  raised k below := h.raised_old below (by simp [idle])
  unraised := h.unraised
  undrawn k le := h.undrawn k ((le_count a.issued c k.1).trans le)

theorem Law.pop (h : Law a) {t : ι} {c : γ} {n : Nat} {rest : List Nat} (idle : a.role t = .none)
    (first : a.line c = n :: rest) :
    Law { a with
      line := Function.update a.line c rest,
      popped := Function.update a.popped c (a.popped c + 1),
      role := Function.update a.role t (.raises (c, n)) } := by
  obtain ⟨rfl, lt, rest_eq⟩ := h.front first
  constructor
  case bound =>
    intro c'
    by_cases hc : c' = c
    · subst hc
      simp only [Function.update_self]
      exact lt
    · simp only [Function.update_of_ne hc]
      exact h.bound c'
  case line =>
    intro c'
    by_cases hc : c' = c
    · subst hc
      simp only [Function.update_self]
      exact rest_eq
    · simp only [Function.update_of_ne hc]
      exact h.line c'
  case waits => exact fun u k here => h.waits u k (role_old here (by simp)).2
  case passed => exact fun u k here => h.passed u k (role_old here (by simp)).2
  case unique =>
    intro u v k hu hv
    exact h.unique u v k (owns_old hu (not_owns_raises k _)).2 (owns_old hv (not_owns_raises k _)).2
  case raises =>
    intro u k here
    by_cases hu : u = t
    · subst hu
      simp only [Function.update_self, Role.raises.injEq] at here
      subst here
      simp only [Function.update_self]
      exact ⟨Nat.lt_succ_self _, h.unraised _ (Nat.le_refl _)⟩
    · simp only [Function.update_of_ne hu] at here
      obtain ⟨below, not_up⟩ := h.raises u k here
      exact ⟨below.trans_le (le_count a.popped c k.1), not_up⟩
  case raiser =>
    intro u v k hu hv
    by_cases new : k = (c, a.popped c)
    · -- nobody was raising the ticket that comes off the line now
      subst new
      have only : ∀ x, Function.update a.role t (.raises (c, a.popped c)) x =
          .raises (c, a.popped c) → x = t := by
        intro x here
        by_contra hx
        rw [Function.update_of_ne hx] at here
        exact Nat.lt_irrefl _ (h.raises x _ here).1
      rw [only u hu, only v hv]
    · have other : (Role.raises (c, a.popped c) : Role γ) ≠ .raises k := by
        simp only [ne_eq, Role.raises.injEq]
        exact fun eq => new eq.symm
      exact h.raiser u v k (role_old hu other).2 (role_old hv other).2
  case raised =>
    intro k below
    by_cases new : k = (c, a.popped c)
    · subst new
      exact .inl ⟨t, Function.update_self ..⟩
    · have old : k.2 < a.popped k.1 := by
        by_cases hc : k.1 = c
        · subst hc
          simp only [Function.update_self] at below
          have ne : k.2 ≠ a.popped k.1 := fun eq => new (Prod.ext rfl eq)
          omega
        · simp only [Function.update_of_ne hc] at below
          exact below
      exact h.raised_old old (by simp [idle])
  case unraised => exact fun k le => h.unraised k ((le_count a.popped c k.1).trans le)
  case undrawn => exact h.undrawn

theorem Law.raise (h : Law a) {t : ι} {k : γ × Nat} (here : a.role t = .raises k) :
    Law { a with
      ups := Function.update a.ups k (a.ups k + 1), role := Function.update a.role t .none } := by
  obtain ⟨below, not_up⟩ := h.raises t k here
  constructor
  case bound => exact h.bound
  case line => exact h.line
  case waits => exact fun u k' at_u => h.waits u k' (role_old at_u (by simp)).2
  case passed => exact fun u k' at_u => h.passed u k' (role_old at_u (by simp)).2
  case unique =>
    intro u v k' hu hv
    exact h.unique u v k' (owns_old hu (not_owns_none k')).2 (owns_old hv (not_owns_none k')).2
  case raises =>
    intro u k' at_u
    obtain ⟨hu, old⟩ := role_old at_u (by simp)
    obtain ⟨below', not_up'⟩ := h.raises u k' old
    have ne : k' ≠ k := by
      intro eq
      exact hu (h.raiser u t k (eq ▸ old) here)
    simp only [Function.update_of_ne ne]
    exact ⟨below', not_up'⟩
  case raiser =>
    intro u v k' hu hv
    exact h.raiser u v k' (role_old hu (by simp)).2 (role_old hv (by simp)).2
  case raised =>
    intro k' below'
    by_cases eq : k' = k
    · subst eq
      exact .inr (by simp [not_up])
    · simp only [Function.update_of_ne eq]
      apply h.raised_old below'
      rw [here]
      simp only [ne_eq, Role.raises.injEq]
      exact fun same => eq same.symm
  case unraised =>
    intro k' le
    have ne : k' ≠ k := by
      intro eq
      subst eq
      exact absurd below (Nat.not_lt.mpr le)
    simp only [Function.update_of_ne ne]
    exact h.unraised k' le
  case undrawn => exact h.undrawn

theorem Law.pass (h : Law a) {t : ι} {k : γ × Nat} (here : a.role t = .waits k) :
    Law { a with
      downs := Function.update a.downs k (a.downs k + 1),
      role := Function.update a.role t (.passed k) } := by
  obtain ⟨drawn, unused⟩ := h.waits t k here
  have other : ∀ u, u ≠ t → ∀ k', (a.role u).owns k' → k' ≠ k := by
    intro u hu k' owns eq
    exact hu (h.unique u t k (eq ▸ owns) (.inl here))
  constructor
  case bound => exact h.bound
  case line => exact h.line
  case waits =>
    intro u k' at_u
    obtain ⟨hu, old⟩ := role_old at_u (by simp)
    simp only [Function.update_of_ne (other u hu k' (.inl old))]
    exact h.waits u k' old
  case passed =>
    intro u k' at_u
    by_cases hu : u = t
    · subst hu
      simp only [Function.update_self, Role.passed.injEq] at at_u
      subst at_u
      simp only [Function.update_self, unused, Nat.zero_add, and_true]
      exact drawn
    · simp only [Function.update_of_ne hu] at at_u
      simp only [Function.update_of_ne (other u hu k' (.inr at_u))]
      exact h.passed u k' at_u
  case unique =>
    intro u v k' hu hv
    have back : ∀ x, (Function.update a.role t (.passed k) x).owns k' → (a.role x).owns k' := by
      intro x owns
      by_cases hx : x = t
      · subst hx
        rw [Function.update_self] at owns
        rcases owns with eq | eq <;> cases eq
        exact .inl here
      · rw [Function.update_of_ne hx] at owns
        exact owns
    exact h.unique u v k' (back u hu) (back v hv)
  case raises => exact fun u k' at_u => h.raises u k' (role_old at_u (by simp)).2
  case raiser =>
    intro u v k' hu hv
    exact h.raiser u v k' (role_old hu (by simp)).2 (role_old hv (by simp)).2
  case raised => exact fun k' below => h.raised_old below (by simp [here])
  case unraised => exact h.unraised
  case undrawn =>
    intro k' le
    have ne : k' ≠ k := by
      intro eq
      subst eq
      exact absurd drawn (Nat.not_lt.mpr le)
    simp only [Function.update_of_ne ne]
    exact h.undrawn k' le

theorem Law.turn (h : Law a) (step : Turn a a') : Law a' := by
  cases step with
  | same => exact h
  | leave t idle => exact h.leave idle
  | draw t c idle => exact h.draw idle
  | pop t c n rest idle first => exact h.pop idle first
  | raise t k here => exact h.raise here
  | pass t k here => exact h.pass here

theorem Law.ups_turn (h : Law a) (step : Turn a a') :
    a'.ups = a.ups ∨ ∃ t k, a.role t = .raises k ∧ a.ups k = 0 ∧
      a'.ups = Function.update a.ups k 1 := by
  cases step with
  | raise t k here =>
      have not_up := (h.raises t k here).2
      exact .inr ⟨t, k, here, not_up, by simp only [not_up]⟩
  | same => exact .inl rfl
  | leave t idle => exact .inl rfl
  | draw t c idle => exact .inl rfl
  | pop t c n rest idle first => exact .inl rfl
  | pass t k here => exact .inl rfl

end Tickets
end CS162.Library
