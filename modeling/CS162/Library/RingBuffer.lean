import Mathlib.Logic.Function.Basic

/-!
A ring of `n` places with the index of the next free place and that of the oldest
element. One place stays free, which tells a full ring from an empty one. The contents
are a list, oldest element first.
-/

namespace CS162.Library
universe u
variable {α : Type u} {n head tail : Nat} {buf : Nat → α} {contents : List α}

/-- The ring holds these elements. -/
structure RingHolds (n : Nat) (buf : Nat → α) (head tail : Nat) (contents : List α) : Prop where
  room : contents.length < n
  tail_lt : tail < n
  head_eq : head = (tail + contents.length) % n
  places : ∀ i, (h : i < contents.length) → buf ((tail + i) % n) = contents[i]

theorem wrap_eq {i : Nat} (ht : tail < n) (hi : i ≤ n) :
    (tail + i) % n = if tail + i < n then tail + i else tail + i - n := by
  split
  · exact Nat.mod_eq_of_lt ‹_›
  · rw [Nat.mod_eq_sub_mod (by omega), Nat.mod_eq_of_lt (by omega)]

namespace RingHolds

theorem nil (h : tail < n) : RingHolds n buf tail tail [] where
  room := Nat.zero_lt_of_lt h
  tail_lt := h
  head_eq := (Nat.mod_eq_of_lt h).symm
  places i inside := absurd inside (Nat.not_lt_zero i)

theorem head_lt (h : RingHolds n buf head tail contents) : head < n := by
  rw [h.head_eq]
  exact Nat.mod_lt _ (Nat.zero_lt_of_lt h.room)

theorem empty_iff (h : RingHolds n buf head tail contents) : head = tail ↔ contents = [] := by
  have room := h.room
  have wraps := wrap_eq h.tail_lt (Nat.le_of_lt room)
  rw [h.head_eq, wraps, ← List.length_eq_zero_iff]
  have := h.tail_lt
  split <;> omega

theorem full_iff (h : RingHolds n buf head tail contents) :
    (head + 1) % n = tail ↔ contents.length + 1 = n := by
  have room := h.room
  have wraps := wrap_eq h.tail_lt room
  rw [h.head_eq, Nat.mod_add_mod, Nat.add_assoc, wraps]
  have := h.tail_lt
  split <;> omega

theorem push (h : RingHolds n buf head tail contents) (b : α) (space : (head + 1) % n ≠ tail) :
    RingHolds n (Function.update buf head b) ((head + 1) % n) tail (contents ++ [b]) := by
  have room := h.room
  have more : contents.length + 1 < n := by
    have full := mt h.full_iff.mpr space
    omega
  refine ⟨by simpa using more, h.tail_lt, ?_, fun i inside => ?_⟩
  · rw [h.head_eq, Nat.mod_add_mod, List.length_append, List.length_singleton, Nat.add_assoc]
  · rw [List.length_append, List.length_singleton] at inside
    rw [List.getElem_append]
    split
    next old =>
      have apart : (tail + i) % n ≠ head := by
        rw [h.head_eq, wrap_eq h.tail_lt (by omega), wrap_eq h.tail_lt (Nat.le_of_lt room)]
        have := h.tail_lt
        split <;> split <;> omega
      rw [Function.update_of_ne apart, h.places i old]
    next new =>
      have last : i = contents.length := by omega
      subst last
      rw [← h.head_eq, Function.update_self]
      simp

theorem pop {b : α} (h : RingHolds n buf head tail (b :: contents)) :
    buf tail = b ∧ RingHolds n buf head ((tail + 1) % n) contents := by
  have room := h.room
  rw [List.length_cons] at room
  constructor
  · have first := h.places 0 (Nat.succ_pos _)
    rwa [Nat.add_zero, Nat.mod_eq_of_lt h.tail_lt] at first
  · refine ⟨by omega, Nat.mod_lt _ (by omega), ?_, fun i inside => ?_⟩
    · rw [h.head_eq, Nat.mod_add_mod, List.length_cons, Nat.add_assoc, Nat.add_comm 1]
    · have next := h.places (i + 1) (Nat.succ_lt_succ inside)
      rw [Nat.mod_add_mod, Nat.add_assoc, Nat.add_comm 1 i, next, List.getElem_cons_succ]

end RingHolds
end CS162.Library
