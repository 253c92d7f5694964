import Mathlib.Data.List.Basic

/-!
Lists of pieces that tile an interval: each piece starts where the one before
it stops. Positions are read off the pieces by two functions.
-/

namespace CS162.Library
universe u
variable {β : Type u} (start stop : β → Nat)

def Tiles : Nat → List β → Nat → Prop
  | lo, [], hi => lo = hi
  | lo, b :: bs, hi => start b = lo ∧ lo ≤ stop b ∧ Tiles (stop b) bs hi

variable {start stop} {lo hi : Nat} {b c : β} {l r bs : List β}

theorem tiles_append :
    Tiles start stop lo (l ++ r) hi ↔ ∃ mid, Tiles start stop lo l mid ∧ Tiles start stop mid r hi := by
  induction l generalizing lo with
  | nil => simp [Tiles]
  | cons b l ih =>
      simp only [List.cons_append, Tiles, ih]
      constructor
      · rintro ⟨hs, hle, mid, hl, hr⟩
        exact ⟨mid, ⟨hs, hle, hl⟩, hr⟩
      · rintro ⟨mid, ⟨hs, hle, hl⟩, hr⟩
        exact ⟨hs, hle, mid, hl, hr⟩

theorem Tiles.le (h : Tiles start stop lo bs hi) : lo ≤ hi := by
  induction bs generalizing lo with
  | nil => exact Nat.le_of_eq h
  | cons b bs ih => exact Nat.le_trans h.2.1 (ih h.2.2)

theorem Tiles.bounds (h : Tiles start stop lo bs hi) (hb : b ∈ bs) :
    lo ≤ start b ∧ start b ≤ stop b ∧ stop b ≤ hi := by
  induction bs generalizing lo with
  | nil => cases hb
  | cons c bs ih =>
      obtain ⟨hs, hle, ht⟩ := h
      cases hb with
      | head => exact ⟨Nat.le_of_eq hs.symm, hs ▸ hle, ht.le⟩
      | tail _ hb =>
          have := ih ht hb
          exact ⟨Nat.le_trans hle this.1, this.2⟩

theorem Tiles.sorted (h : Tiles start stop lo bs hi) :
    bs.Pairwise fun b c => stop b ≤ start c := by
  induction bs generalizing lo with
  | nil => exact List.Pairwise.nil
  | cons b bs ih =>
      refine List.Pairwise.cons ?_ (ih h.2.2)
      exact fun c hc => (h.2.2.bounds hc).1

theorem Tiles.split (h : Tiles start stop lo (l ++ b :: r) hi) :
    Tiles start stop lo l (start b) ∧ start b ≤ stop b ∧ Tiles start stop (stop b) r hi := by
  obtain ⟨mid, hl, hs, hle, hr⟩ := tiles_append.mp h
  subst hs
  exact ⟨hl, hle, hr⟩

theorem Tiles.length_mul_le {w : Nat} (h : Tiles start stop lo bs hi)
    (width : ∀ b ∈ bs, start b + w ≤ stop b) : bs.length * w ≤ hi - lo := by
  induction bs generalizing lo with
  | nil => simp
  | cons b bs ih =>
      obtain ⟨hs, hle, ht⟩ := h
      have hb := width b List.mem_cons_self
      have := ih ht fun c hc => width c (List.mem_cons_of_mem _ hc)
      have := ht.le
      rw [List.length_cons, Nat.add_mul, Nat.one_mul]
      omega

end CS162.Library
