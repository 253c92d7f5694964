import Mathlib.Data.Finset.Card

/-!
Counting the members of a finite set that satisfy a predicate, when the
predicate changes at one member only.
-/

namespace CS162.Library
universe u
variable {α : Type u} {s : Finset α} {p q : α → Prop} [DecidablePred p] [DecidablePred q]

theorem card_filter_same (same : ∀ k, q k ↔ p k) : (s.filter q).card = (s.filter p).card :=
  congrArg Finset.card (Finset.filter_congr fun k _ => same k)

variable [DecidableEq α] {i : α}

theorem card_filter_set (hi : i ∈ s) (hp : ¬ p i) (hq : q i)
    (others : ∀ k, k ≠ i → (q k ↔ p k)) :
    (s.filter q).card = (s.filter p).card + 1 := by
  have grown : s.filter q = insert i (s.filter p) := by
    ext k
    by_cases hk : k = i
    · subst hk
      simp [hi, hq]
    · simp [hk, others k hk]
  rw [grown, Finset.card_insert_of_notMem (by simp [hp])]

theorem card_filter_unset (hi : i ∈ s) (hp : p i) (hq : ¬ q i)
    (others : ∀ k, k ≠ i → (q k ↔ p k)) :
    (s.filter q).card + 1 = (s.filter p).card :=
  (card_filter_set hi hq hp fun k hk => (others k hk).symm).symm

theorem card_filter_le_succ (others : ∀ k, k ≠ i → (q k ↔ p k)) :
    (s.filter q).card ≤ (s.filter p).card + 1 := by
  have within : s.filter q ⊆ insert i (s.filter p) := by
    intro k hk
    obtain ⟨hs, hq⟩ := Finset.mem_filter.mp hk
    by_cases hki : k = i
    · simp [hki]
    · simp [hs, (others k hki).mp hq]
  exact (Finset.card_le_card within).trans (Finset.card_insert_le _ _)

end CS162.Library
