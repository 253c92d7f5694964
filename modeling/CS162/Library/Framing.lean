import Mathlib.Data.List.Infix

/-!
Streams of frames. Values are written one after the other, each as a frame that
tells where it ends, and a reader takes the frames off the front of its input.
-/

namespace CS162.Library
universe u v

/-- How values are framed, with a reader that takes the frames and nothing else. -/
structure Framing (α : Type u) (β : Type v) where
  frame : β → List α
  next : List α → Option (β × List α)
  next_frame : ∀ value rest, next (frame value ++ rest) = some (value, rest)
  of_next : ∀ input value rest, next input = some (value, rest) → input = frame value ++ rest
  frame_ne_nil : ∀ value, frame value ≠ []

namespace Framing
variable {α : Type u} {β : Type v} (format : Framing α β)

theorem length_lt {input rest : List α} {value : β} (h : format.next input = some (value, rest)) :
    rest.length < input.length := by
  have some_bytes := List.length_pos_of_ne_nil (format.frame_ne_nil value)
  rw [format.of_next input value rest h, List.length_append]
  omega

def frames (values : List β) : List α := values.flatMap format.frame

/-- The values that can be read before the first refusal. -/
def reads (input : List α) : List β :=
  match _ : format.next input with
  | none => []
  | some (value, rest) => value :: reads rest
termination_by input.length
decreasing_by exact format.length_lt ‹_›

variable {format} {input rest : List α} {value : β} {values : List β}

theorem reads_of_none (h : format.next input = none) : format.reads input = [] := by
  rw [reads]
  split
  · rfl
  · next read => rw [h] at read; cases read

theorem reads_of_some (h : format.next input = some (value, rest)) :
    format.reads input = value :: format.reads rest := by
  rw [reads]
  split
  · next read => rw [h] at read; cases read
  · next read => rw [h] at read; cases read; rfl

theorem frames_cons : format.frames (value :: values) = format.frame value ++ format.frames values :=
  List.flatMap_cons

theorem reads_frames_append : format.reads (format.frames values ++ rest) = values ++ format.reads rest := by
  induction values with
  | nil => rfl
  | cons value values ih =>
      rw [frames_cons, List.append_assoc, reads_of_some (format.next_frame ..), ih]
      rfl

variable (format) in
theorem frames_reads (input : List α) :
    ∃ tail, input = format.frames (format.reads input) ++ tail ∧ format.next tail = none := by
  induction hn : input.length using Nat.strong_induction_on generalizing input with
  | _ n ih =>
      cases h : format.next input with
      | none =>
          refine ⟨input, ?_, h⟩
          rw [reads_of_none h]
          rfl
      | some read =>
          obtain ⟨value, rest⟩ := read
          have less := format.length_lt h
          obtain ⟨tail, split, last⟩ := ih rest.length (hn ▸ less) rest rfl
          refine ⟨tail, ?_, last⟩
          rw [reads_of_some h, frames_cons, List.append_assoc, ← split]
          exact format.of_next input value rest h

variable (format) in
theorem prefix_reads (h : format.frames values <+: input) : values <+: format.reads input := by
  obtain ⟨rest, rfl⟩ := h
  rw [reads_frames_append]
  exact List.prefix_append values _

end Framing
end CS162.Library
