import CS162.Library.ByteMemory
import Mathlib.Logic.Function.Basic

/-!
Copying memory (proj-pregame: `memmove` of lib/string.c). An address is a
number, and the null pointer is 0; a region does not reach past the end of the address
space. No result is a failed ASSERT.
-/

namespace CS162.Pintos.Strings
open CS162.Library

section Model

/-- `while (size-- > 0) *dst++ = *src++;` with the memory and `dst` after it -/
def copyUp : (size : Nat) → Memory → (dst src : Nat) → Memory × Nat
  | 0, m, dst, _ => (m, dst)
  | size + 1, m, dst, src => copyUp size (Function.update m dst (m src)) (dst + 1) (src + 1)

/-- `while (size-- > 0) *--dst = *--src;` -/
def copyDown : (size : Nat) → Memory → (dst src : Nat) → Memory × Nat
  | 0, m, dst, _ => (m, dst)
  | size + 1, m, dst, src => copyDown size (Function.update m (dst - 1) (m (src - 1))) (dst - 1) (src - 1)

/-- `memmove`, and the pointer it returns: not its argument but the local pointer that
the loops move. -/
def memmove (m : Memory) (dst src size : Nat) : Option (Memory × Nat) :=
  if (dst ≠ 0 ∨ size = 0) ∧ (src ≠ 0 ∨ size = 0) then
    if dst < src then some (copyUp size m dst src)
    else some (copyDown size m (dst + size) (src + size))
  else none

end Model

section Loops
variable {m : Memory} {dst src size : Nat}

theorem update_eq_copy : Function.update m dst (m src) = m.copy dst m src 1 := by
  funext x
  by_cases here : x = dst
  · subst here
    rw [Function.update_self, Memory.copy, if_pos (by omega), Nat.sub_self, Nat.add_zero]
  · rw [Function.update_of_ne here, Memory.copy, if_neg (by omega)]

/-- Upwards a copy never overwrites what it still has to read if it moves down. -/
theorem copyUp_eq (below : dst ≤ src) : copyUp size m dst src = (m.copy dst m src size, dst + size) := by
  induction size generalizing m dst src with
  | zero =>
      rw [Memory.copy_zero]
      rfl
  | succ size ih =>
      have unread : ∀ x, x < size → Function.update m dst (m src) (src + 1 + x) = m (src + 1 + x) :=
        fun x _ => Function.update_of_ne (by omega) ..
      rw [copyUp, ih (Nat.succ_le_succ below), Memory.copy_congr unread, update_eq_copy, Memory.copy_copy,
        Nat.add_comm 1 size, Nat.succ_add_eq_add_succ]

theorem copyDown_eq (above : src ≤ dst) :
    copyDown size m (dst + size) (src + size) = (m.copy dst m src size, dst) := by
  induction size generalizing m with
  | zero =>
      rw [Memory.copy_zero]
      rfl
  | succ size ih =>
      have last : copyDown (size + 1) m (dst + (size + 1)) (src + (size + 1)) =
          copyDown size (Function.update m (dst + size) (m (src + size))) (dst + size) (src + size) := rfl
      have unread : ∀ x, x < size →
          Function.update m (dst + size) (m (src + size)) (src + x) = m (src + x) :=
        fun x _ => Function.update_of_ne (by omega) ..
      rw [last, ih, Memory.copy_congr unread, update_eq_copy]
      congr 1
      funext x
      simp only [Memory.copy]
      by_cases inside : dst ≤ x ∧ x < dst + size
      · rw [if_pos inside, if_pos (by omega)]
      · rw [if_neg inside]
        by_cases top : x = dst + size
        · subst top
          rw [if_pos (by omega), if_pos (by omega), Nat.sub_self, Nat.add_sub_cancel_left]
          rfl
        · rw [if_neg (by omega), if_neg (by omega)]

end Loops

section Law
variable {m : Memory} {dst src size : Nat}

/-- The destination holds what the source held, nothing else has changed, and the pointer
returned is the destination. -/
def Moves (m : Memory) (dst src size : Nat) (result : Option (Memory × Nat)) : Prop :=
  ∃ m', result = some (m', dst) ∧ m'.readBytes dst size = m.readBytes src size ∧ m.SameOff dst size m'

theorem moves_copy : Moves m dst src size (some (m.copy dst m src size, dst)) := by
  refine ⟨_, rfl, ?_, fun x outside => ?_⟩
  · refine Memory.readBytes_shift fun x inside => ?_
    rw [Memory.copy, if_pos (by omega), Nat.add_sub_cancel_left]
  · rw [Memory.copy, if_neg (by omega)]

/-- The memory that `memmove` leaves is right for every overlap. -/
theorem memmove_eq (hd : dst ≠ 0 ∨ size = 0) (hs : src ≠ 0 ∨ size = 0) :
    memmove m dst src size = some (m.copy dst m src size, if dst < src then dst + size else dst) := by
  rw [memmove, if_pos ⟨hd, hs⟩]
  by_cases down : dst < src
  · rw [if_pos down, if_pos down, copyUp_eq (Nat.le_of_lt down)]
  · rw [if_neg down, if_neg down, copyDown_eq (Nat.le_of_not_lt down)]

/-- `memmove` moves, and returns the destination, exactly when it copies from the top or
copies nothing. -/
theorem memmove_moves_iff (hd : dst ≠ 0 ∨ size = 0) (hs : src ≠ 0 ∨ size = 0) :
    Moves m dst src size (memmove m dst src size) ↔ src ≤ dst ∨ size = 0 := by
  rw [memmove_eq hd hs]
  constructor
  · intro moves
    obtain ⟨m', same, -⟩ := moves
    have pointer : (if dst < src then dst + size else dst) = dst := congrArg (·.2) (Option.some.inj same)
    split at pointer
    · exact .inr (by omega)
    · exact .inl (by omega)
  · intro back
    have pointer : (if dst < src then dst + size else dst) = dst := by
      split <;> omega
    rw [pointer]
    exact moves_copy

theorem memmove_moves_of_overlap :
    Moves (fun x => UInt8.ofNat x) 6 4 3 (memmove (fun x => UInt8.ofNat x) 6 4 3) :=
  (memmove_moves_iff (.inl (by decide)) (.inl (by decide))).mpr (.inl (by decide))

/-- One byte moved down: the pointer returned is the one behind it. -/
theorem not_moves_down : ¬ Moves (fun _ => 0) 4 5 1 (memmove (fun _ => 0) 4 5 1) := by
  intro moves
  obtain ⟨m', same, -⟩ := moves
  have pointer : 5 = 4 := congrArg (·.2) (Option.some.inj same)
  exact absurd pointer (by decide)

end Law
end CS162.Pintos.Strings
