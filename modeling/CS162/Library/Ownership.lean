import Mathlib.Logic.Function.Basic

/-!
Slots that own resources of a pool: what is in use is what was in use from the
start and what the slots hold, each resource in at most one slot. In `Owns` a
slot holds one resource at most, in `Shares` any set of them; `Backed` leaves open
what else is in use.
-/

namespace CS162.Library
universe u v
variable {ι : Type u} {ρ : Type v}

structure Owns (base : ρ → Prop) (held : ι → Option ρ) (used : ρ → Prop) : Prop where
  used_iff : ∀ r, used r ↔ base r ∨ ∃ i, held i = some r
  apart : ∀ i r, held i = some r → ¬ base r
  injective : ∀ i j r, held i = some r → held j = some r → i = j

section
variable {base used used' : ρ → Prop} {held held' : ι → Option ρ} {i : ι} {r : ρ}

theorem Owns.empty (base : ρ → Prop) : Owns base (fun _ : ι => none) base where
  used_iff r := by simp
  apart := by simp
  injective := by simp

theorem Owns.used_of_held (h : Owns base held used) (hr : held i = some r) : used r :=
  (h.used_iff r).mpr (.inr ⟨i, hr⟩)

theorem Owns.congr (h : Owns base held used) (slots : ∀ i, held' i = held i)
    (all : ∀ x, used' x ↔ used x) : Owns base held' used' := by
  refine ⟨fun x => ?_, fun i x => ?_, fun i j x => ?_⟩
  · simpa only [all, slots] using h.used_iff x
  · simpa only [slots] using h.apart i x
  · simpa only [slots] using h.injective i j x

theorem Owns.grow (h : Owns base held used) (free : ¬ used r)
    (all : ∀ x, used' x ↔ x = r ∨ used x) : Owns (fun x => x = r ∨ base x) held used' where
  used_iff x := by rw [all, h.used_iff, or_assoc]
  apart i x hx := by
    rintro (rfl | old)
    · exact free (h.used_of_held hx)
    · exact h.apart i x hx old
  injective := h.injective

theorem Owns.hold [DecidableEq ι] (h : Owns (fun x => x = r ∨ base x) held used) (new : ¬ base r)
    (empty : held i = none) : Owns base (Function.update held i (some r)) used := by
  have unheld (j : ι) : held j ≠ some r := fun hr => h.apart j r hr (.inl rfl)
  refine ⟨fun x => ?_, fun j x hx => ?_, fun j k x hj hk => ?_⟩
  · rw [h.used_iff]
    constructor
    · rintro ((rfl | base) | ⟨j, hj⟩)
      · exact .inr ⟨i, Function.update_self ..⟩
      · exact .inl base
      · refine .inr ⟨j, ?_⟩
        rw [Function.update_of_ne, hj]
        rintro rfl
        rw [empty] at hj
        cases hj
    · rintro (base | ⟨j, hj⟩)
      · exact .inl (.inr base)
      · by_cases same : j = i
        · rw [same, Function.update_self] at hj
          exact .inl (.inl (Option.some.inj hj).symm)
        · rw [Function.update_of_ne same] at hj
          exact .inr ⟨j, hj⟩
  · by_cases same : j = i
    · rw [same, Function.update_self] at hx
      cases hx
      exact new
    · rw [Function.update_of_ne same] at hx
      exact fun old => h.apart j x hx (.inr old)
  · by_cases hji : j = i <;> by_cases hki : k = i
    · rw [hji, hki]
    · rw [hji, Function.update_self] at hj
      rw [Function.update_of_ne hki] at hk
      cases hj
      exact absurd hk (unheld k)
    · rw [hki, Function.update_self] at hk
      rw [Function.update_of_ne hji] at hj
      cases hk
      exact absurd hj (unheld j)
    · rw [Function.update_of_ne hji] at hj
      rw [Function.update_of_ne hki] at hk
      exact h.injective j k x hj hk

theorem Owns.shrink (h : Owns (fun x => x = r ∨ base x) held used) (new : ¬ base r)
    (all : ∀ x, used' x ↔ x ≠ r ∧ used x) : Owns base held used' where
  used_iff x := by
    rw [all, h.used_iff]
    constructor
    · rintro ⟨differ, (equal | old) | held⟩
      · exact absurd equal differ
      · exact .inl old
      · exact .inr held
    · rintro (old | ⟨i, hx⟩)
      · exact ⟨fun equal => new (equal.subst old), .inl (.inr old)⟩
      · exact ⟨fun equal => h.apart i x hx (.inl equal), .inr ⟨i, hx⟩⟩
  apart i x hx old := h.apart i x hx (.inr old)
  injective := h.injective

theorem Owns.take [DecidableEq ι] (h : Owns base held used) (free : ¬ used r)
    (empty : held i = none) (all : ∀ x, used' x ↔ x = r ∨ used x) :
    Owns base (Function.update held i (some r)) used' :=
  (h.grow free all).hold (fun old => free ((h.used_iff r).mpr (.inl old))) empty

/-- A free resource is taken past the slots, or one of the base goes back. -/
theorem Owns.set [DecidableEq ρ] {base used : ρ → Bool}
    (h : Owns (fun x => base x = true) held fun x => used x = true) {taken : Bool}
    (able : if taken then used r = false else base r = true) :
    Owns (fun x => Function.update base r taken x = true) held
      fun x => Function.update used r taken x = true := by
  have unheld (j : ι) : held j ≠ some r := by
    intro hr
    cases taken with
    | true =>
        have free : used r = false := able
        rw [h.used_of_held hr] at free
        cases free
    | false => exact h.apart j r hr able
  refine ⟨fun x => ?_, fun j x hx => ?_, h.injective⟩
  · by_cases same : x = r
    · simp [same, unheld]
    · rw [Function.update_of_ne same, Function.update_of_ne same]
      exact h.used_iff x
  · have differ : x ≠ r := fun same => unheld j (same ▸ hx)
    rw [Function.update_of_ne differ]
    exact h.apart j x hx

theorem Owns.release [DecidableEq ι] (h : Owns base held used) (hr : held i = some r)
    (all : ∀ x, used' x ↔ x ≠ r ∧ used x) :
    Owns base (Function.update held i none) used' := by
  have other (j : ι) (x : ρ) : Function.update held i none j = some x ↔ x ≠ r ∧ held j = some x := by
    by_cases same : j = i
    · rw [same, Function.update_self, hr]
      simpa using fun differ equal => differ equal.symm
    · rw [Function.update_of_ne same]
      refine ⟨fun hj => ⟨?_, hj⟩, And.right⟩
      rintro rfl
      exact same (h.injective j i x hj hr)
  refine ⟨fun x => ?_, fun j x hx => h.apart j x ((other j x).mp hx).2, fun j k x hj hk =>
    h.injective j k x ((other j x).mp hj).2 ((other k x).mp hk).2⟩
  rw [all, h.used_iff]
  constructor
  · rintro ⟨differ, base | ⟨j, hj⟩⟩
    · exact .inl base
    · exact .inr ⟨j, (other j x).mpr ⟨differ, hj⟩⟩
  · rintro (base | ⟨j, hj⟩)
    · refine ⟨?_, .inl base⟩
      rintro rfl
      exact h.apart i x hr base
    · obtain ⟨differ, hj⟩ := (other j x).mp hj
      exact ⟨differ, .inr ⟨j, hj⟩⟩

end

structure Shares (base : ρ → Prop) (held : ι → ρ → Prop) (used : ρ → Prop) : Prop where
  used_iff : ∀ r, used r ↔ base r ∨ ∃ i, held i r
  apart : ∀ i r, held i r → ¬ base r
  injective : ∀ i j r, held i r → held j r → i = j

section
variable {base base' used used' : ρ → Prop} {held held' : ι → ρ → Prop} {i : ι} {r : ρ}

theorem Shares.used_of_held (h : Shares base held used) (hr : held i r) : used r :=
  (h.used_iff r).mpr (.inr ⟨i, hr⟩)

theorem Shares.used_of_base (h : Shares base held used) (hr : base r) : used r :=
  (h.used_iff r).mpr (.inl hr)

theorem Shares.congr (h : Shares base held used) (slots : ∀ i r, held' i r ↔ held i r)
    (all : ∀ r, used' r ↔ used r) : Shares base held' used' := by
  refine ⟨fun x => ?_, fun i x => ?_, fun i j x => ?_⟩
  · simpa only [all, slots] using h.used_iff x
  · simpa only [slots] using h.apart i x
  · simpa only [slots] using h.injective i j x

theorem Shares.take (h : Shares base held used) {S : ρ → Prop} (free : ∀ r, S r → ¬ used r)
    (slots : ∀ j r, held' j r ↔ j = i ∧ S r ∨ held j r)
    (all : ∀ r, used' r ↔ S r ∨ used r) : Shares base held' used' where
  used_iff x := by
    rw [all, h.used_iff]
    constructor
    · rintro (new | old | ⟨j, hj⟩)
      · exact .inr ⟨i, (slots i x).mpr (.inl ⟨rfl, new⟩)⟩
      · exact .inl old
      · exact .inr ⟨j, (slots j x).mpr (.inr hj)⟩
    · rintro (old | ⟨j, hj⟩)
      · exact .inr (.inl old)
      · exact ((slots j x).mp hj).elim (fun new => .inl new.2) fun old => .inr (.inr ⟨j, old⟩)
  apart j x hj old := by
    cases (slots j x).mp hj with
    | inl new => exact free x new.2 (h.used_of_base old)
    | inr held => exact h.apart j x held old
  injective j k x hj hk := by
    cases (slots j x).mp hj with
    | inl new =>
        cases (slots k x).mp hk with
        | inl new' => rw [new.1, new'.1]
        | inr held => exact absurd (h.used_of_held held) (free x new.2)
    | inr held =>
        cases (slots k x).mp hk with
        | inl new => exact absurd (h.used_of_held held) (free x new.2)
        | inr held' => exact h.injective j k x held held'

theorem Shares.lose (h : Shares base held used) {S : ρ → Prop} (mine : ∀ r, S r → held i r)
    (slots : ∀ j r, held' j r ↔ held j r ∧ ¬ S r) (all : ∀ r, used' r ↔ used r ∧ ¬ S r) :
    Shares base held' used' where
  used_iff x := by
    rw [all, h.used_iff]
    constructor
    · rintro ⟨old | ⟨j, hj⟩, left⟩
      · exact .inl old
      · exact .inr ⟨j, (slots j x).mpr ⟨hj, left⟩⟩
    · rintro (old | ⟨j, hj⟩)
      · exact ⟨.inl old, fun gone => h.apart i x (mine x gone) old⟩
      · obtain ⟨held, left⟩ := (slots j x).mp hj
        exact ⟨.inr ⟨j, held⟩, left⟩
  apart j x hj := h.apart j x ((slots j x).mp hj).1
  injective j k x hj hk := h.injective j k x ((slots j x).mp hj).1 ((slots k x).mp hk).1

theorem Shares.pass (h : Shares base held used) {j : ι} {S : ρ → Prop}
    (mine : ∀ r, S r → held i r)
    (slots : ∀ k r, held' k r ↔ k = j ∧ S r ∨ held k r ∧ ¬ S r) : Shares base held' used := by
  have lost : Shares base (fun k r => held k r ∧ ¬ S r) fun r => used r ∧ ¬ S r :=
    h.lose mine (fun _ _ => Iff.rfl) fun _ => Iff.rfl
  refine lost.take (i := j) (fun r mine used => used.2 mine) slots fun r => ?_
  constructor
  · intro used
    by_cases hr : S r
    · exact .inl hr
    · exact .inr ⟨used, hr⟩
  · rintro (new | old)
    · exact h.used_of_held (mine r new)
    · exact old.1

theorem Shares.release (h : Shares base held used) (slots : ∀ j r, held' j r ↔ j ≠ i ∧ held j r)
    (all : ∀ r, used' r ↔ used r ∧ ¬ held i r) : Shares base held' used' where
  used_iff x := by
    rw [all, h.used_iff]
    constructor
    · rintro ⟨old | ⟨j, hj⟩, left⟩
      · exact .inl old
      · exact .inr ⟨j, (slots j x).mpr ⟨fun same => left (same ▸ hj), hj⟩⟩
    · rintro (old | ⟨j, hj⟩)
      · exact ⟨.inl old, fun held => h.apart i x held old⟩
      · obtain ⟨other, held⟩ := (slots j x).mp hj
        exact ⟨.inr ⟨j, held⟩, fun mine => other (h.injective j i x held mine)⟩
  apart j x hj := h.apart j x ((slots j x).mp hj).2
  injective j k x hj hk := h.injective j k x ((slots j x).mp hj).2 ((slots k x).mp hk).2

theorem Shares.grow (h : Shares base held used) {S : ρ → Prop} (free : ∀ r, S r → ¬ used r)
    (bases : ∀ r, base' r ↔ S r ∨ base r) (all : ∀ r, used' r ↔ S r ∨ used r) :
    Shares base' held used' where
  used_iff x := by rw [all, h.used_iff, bases, or_assoc]
  apart i x hx old :=
    ((bases x).mp old).elim (fun new => free x new (h.used_of_held hx)) (h.apart i x hx)
  injective := h.injective

theorem Shares.shrink (h : Shares base held used) {S : ρ → Prop} (mine : ∀ r, S r → base r)
    (bases : ∀ r, base' r ↔ base r ∧ ¬ S r) (all : ∀ r, used' r ↔ used r ∧ ¬ S r) :
    Shares base' held used' where
  used_iff x := by
    rw [all, h.used_iff, bases]
    constructor
    · rintro ⟨old | held, left⟩
      · exact .inl ⟨old, left⟩
      · exact .inr held
    · rintro (⟨old, left⟩ | ⟨i, held⟩)
      · exact ⟨.inl old, left⟩
      · exact ⟨.inr ⟨i, held⟩, fun new => h.apart i x held (mine x new)⟩
  apart i x hx old := h.apart i x hx ((bases x).mp old).1
  injective := h.injective

end

structure Backed (held : ι → ρ → Prop) (used : ρ → Prop) : Prop where
  used_of_held : ∀ i r, held i r → used r
  injective : ∀ i j r, held i r → held j r → i = j

section
variable {used used' : ρ → Prop} {held held' new : ι → ρ → Prop} {i : ι} {r : ρ}

theorem Backed.mono (h : Backed held used) (less : ∀ i r, held' i r → held i r)
    (kept : ∀ i r, held' i r → used r → used' r) : Backed held' used' where
  used_of_held i r hr := kept i r hr (h.used_of_held i r (less i r hr))
  injective i j r hi hj := h.injective i j r (less i r hi) (less j r hj)

theorem Backed.add (h : Backed held used) (h' : Backed new used)
    (spare : ∀ i j r, held i r → ¬ new j r) (both : ∀ i r, held' i r → held i r ∨ new i r) :
    Backed held' used where
  used_of_held i r hr := (both i r hr).elim (h.used_of_held i r) (h'.used_of_held i r)
  injective i j r hi hj := by
    cases both i r hi with
    | inl old =>
        cases both j r hj with
        | inl old' => exact h.injective i j r old old'
        | inr taken => exact absurd taken (spare i j r old)
    | inr taken =>
        cases both j r hj with
        | inl old => exact absurd taken (spare j i r old)
        | inr taken' => exact h'.injective i j r taken taken'

theorem Backed.hold (h : Backed held used) (kept : ∀ j x, held j x → used x → used' x) (mine : used' r)
    (alone : ∀ j, held j r → j = i) (slots : ∀ j x, held' j x → held j x ∨ j = i ∧ x = r) :
    Backed held' used' where
  used_of_held j x hx := by
    cases slots j x hx with
    | inl old => exact kept j x old (h.used_of_held j x old)
    | inr taken => exact taken.2 ▸ mine
  injective j k x hj hk := by
    cases slots j x hj with
    | inl old =>
        cases slots k x hk with
        | inl old' => exact h.injective j k x old old'
        | inr taken =>
            rw [taken.2] at old
            rw [taken.1, alone j old]
    | inr taken =>
        cases slots k x hk with
        | inl old =>
            rw [taken.2] at old
            rw [taken.1, alone k old]
        | inr taken' => rw [taken.1, taken'.1]

end
end CS162.Library
