import Mathlib.Data.List.Perm.Basic

/-!
Histories: lists of events, newest first. A statement about every event and what
was there before it is proved one event at a time.

An event of a log that several sequences write to carries the number of the sequence
it comes from; whatever the interleaving, the log has all events of the sequences.
-/

namespace CS162.Library
universe u
variable {α : Type u}

/-- A statement about every position of a history holds of a longer one if it
holds of the newest event and if the old positions keep it. -/
theorem history_cons {log : List α} {e : α} {P : α → List α → Prop} (newest : P e log)
    (older : ∀ later e' earlier, log = later ++ e' :: earlier → P e' earlier) :
    ∀ later e' earlier, e :: log = later ++ e' :: earlier → P e' earlier := by
  intro later e' earlier eq
  cases later with
  | nil =>
      cases eq
      exact newest
  | cons x later =>
      cases eq
      exact older later e' earlier rfl

theorem history_nil {P : α → List α → Prop} :
    ∀ later e earlier, [] = later ++ e :: earlier → P e earlier := by
  intro later e earlier eq
  cases later <;> cases eq

/-- The events of one sequence, in their order in the log. -/
def owned (log : List (Nat × α)) (t : Nat) : List α := (log.filter fun e => e.1 = t).map (·.2)

theorem owned_append (front back : List (Nat × α)) (t : Nat) :
    owned (front ++ back) t = owned front t ++ owned back t := by
  rw [owned, List.filter_append, List.map_append]
  rfl

theorem owned_singleton_self (t : Nat) (a : α) : owned [(t, a)] t = [a] := by
  rw [owned, List.filter_cons_of_pos (by simp)]
  rfl

theorem owned_singleton_ne {t t' : Nat} (h : t ≠ t') (a : α) : owned [(t, a)] t' = [] := by
  rw [owned, List.filter_cons_of_neg (by simpa using h)]
  rfl

theorem filter_lt_succ_perm (log : List (Nat × α)) (n : Nat) : (log.filter fun e => e.1 < n + 1).Perm
    ((log.filter fun e => e.1 < n) ++ log.filter fun e => e.1 = n) := by
  induction log with
  | nil => exact .refl _
  | cons e log ih =>
      simp only [List.filter_cons]
      by_cases below : e.1 < n
      · simpa [below, Nat.lt_succ_of_lt below, Nat.ne_of_lt below] using ih
      · by_cases here : e.1 = n
        · simpa [here] using (ih.cons e).trans List.perm_middle.symm
        · simpa [below, here, show ¬ e.1 < n + 1 by omega] using ih

theorem perm_owned (log : List (Nat × α)) (n : Nat) :
    ((log.filter fun e => e.1 < n).map (·.2)).Perm ((List.range n).flatMap (owned log)) := by
  induction n with
  | zero => simp
  | succ n ih =>
      rw [List.range_succ, List.flatMap_append, List.flatMap_singleton]
      refine ((filter_lt_succ_perm log n).map _).trans ?_
      rw [List.map_append]
      exact ih.append_right _

theorem perm_flatten_of_owned {log : List (Nat × α)} {inputs : List (List α)}
    (h : ∀ t, owned log t = inputs[t]?.getD []) : (log.map (·.2)).Perm inputs.flatten := by
  have below : (log.filter fun e => e.1 < inputs.length) = log := by
    refine List.filter_eq_self.mpr fun e he => decide_eq_true (Nat.lt_of_not_le fun past => ?_)
    have event : e.2 ∈ owned log e.1 :=
      List.mem_map_of_mem (List.mem_filter.mpr ⟨he, decide_eq_true rfl⟩)
    rw [h, List.getElem?_eq_none past] at event
    exact absurd event List.not_mem_nil
  have whole : (List.range inputs.length).map (fun t => inputs[t]?.getD []) = inputs := by
    refine List.ext_getElem (by simp) fun t h1 h2 => ?_
    simp [h2]
  have all := perm_owned log inputs.length
  rw [below, List.flatMap_def, List.map_congr_left fun t _ => h t, whole] at all
  exact all

end CS162.Library
