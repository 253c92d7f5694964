import Mathlib.Data.List.Induction
import Mathlib.Data.List.Nodup
import Mathlib.Data.List.Perm.Basic
import Mathlib.Logic.Function.Basic

/-!
Things in chains, one chain for each bucket, and a function that says which bucket is whose.
What is pushed into empty buckets lies where the function says, each thing once.
-/

namespace CS162.Library.Buckets
universe u
variable {α : Type u}

/-- What lies in the first `n` buckets, in their order. -/
def elements (b : Nat → List α) (n : Nat) : List α := (List.range n).flatMap b

/-- To the front of the bucket that the index says. -/
def push (idx : α → Nat) (b : Nat → List α) (e : α) : Nat → List α :=
  Function.update b (idx e) (e :: b (idx e))

/-- Each thing lies in its own bucket, and there once. -/
structure Placed (idx : α → Nat) (b : Nat → List α) (n : Nat) : Prop where
  home : ∀ i < n, ∀ e ∈ b i, idx e = i
  once : ∀ i < n, (b i).Nodup

section
variable {idx : α → Nat} {b : Nat → List α} {n : Nat} {e x : α} {l : List α}

theorem mem_elements : e ∈ elements b n ↔ ∃ i < n, e ∈ b i := by
  simp only [elements, List.mem_flatMap, List.mem_range]

theorem elements_empty : elements (fun _ => ([] : List α)) n = [] := by
  simp [elements]

theorem Placed.empty : Placed idx (fun _ => []) n where
  home _ _ _ no := by cases no
  once _ _ := List.nodup_nil

theorem Placed.mem (h : Placed idx b n) (inside : idx e < n) :
    e ∈ elements b n ↔ e ∈ b (idx e) := by
  rw [mem_elements]
  constructor
  · intro ⟨i, below, here⟩
    rw [h.home i below e here]
    exact here
  · exact fun here => ⟨idx e, inside, here⟩

theorem Placed.nodup (h : Placed idx b n) : (elements b n).Nodup := by
  apply List.nodup_flatMap.mpr
  refine ⟨fun i inside => h.once i (List.mem_range.mp inside), ?_⟩
  apply List.Pairwise.imp_of_mem _ List.nodup_range
  intro i j hi hj differ e here there
  apply differ
  rw [← h.home i (List.mem_range.mp hi) e here, h.home j (List.mem_range.mp hj) e there]

theorem mem_push (i : Nat) : x ∈ push idx b e i ↔ x = e ∧ i = idx e ∨ x ∈ b i := by
  rw [push, Function.update_apply]
  split
  next same => simp [same]
  next other => simp [other]

theorem Placed.push (h : Placed idx b n) (new : e ∉ b (idx e)) :
    Placed idx (Buckets.push idx b e) n where
  home i inside x here := by
    obtain ⟨rfl, same⟩ | old := (mem_push i).mp here
    · exact same.symm
    · exact h.home i inside x old
  once i inside := by
    rw [Buckets.push, Function.update_apply]
    split
    next same => exact List.nodup_cons.mpr ⟨new, h.once _ (same ▸ inside)⟩
    next => exact h.once i inside

theorem mem_elements_push (inside : idx e < n) :
    x ∈ elements (push idx b e) n ↔ x = e ∨ x ∈ elements b n := by
  simp only [mem_elements, mem_push]
  constructor
  · intro ⟨i, below, here⟩
    exact here.imp And.left fun old => ⟨i, below, old⟩
  · intro here
    cases here with
    | inl same => exact ⟨idx e, inside, .inl ⟨same, rfl⟩⟩
    | inr old =>
        obtain ⟨i, below, old⟩ := old
        exact ⟨i, below, .inr old⟩

theorem Placed.length_push (h : Placed idx b n) (new : e ∉ b (idx e)) (inside : idx e < n) :
    (elements (Buckets.push idx b e) n).length = (elements b n).length + 1 := by
  have fresh : (e :: elements b n).Nodup :=
    List.nodup_cons.mpr ⟨fun old => new ((h.mem inside).mp old), h.nodup⟩
  rw [← List.length_cons]
  apply List.Perm.length_eq
  apply (List.perm_ext_iff_of_nodup (h.push new).nodup fresh).mpr
  intro x
  rw [mem_elements_push inside, List.mem_cons]

section Erase
variable [DecidableEq α]

theorem Placed.erase (h : Placed idx b n) (e : α) : Placed idx (fun i => (b i).erase e) n where
  home i inside x here := h.home i inside x (List.mem_of_mem_erase here)
  once i inside := (h.once i inside).erase e

theorem Placed.mem_erase (h : Placed idx b n) :
    x ∈ elements (fun i => (b i).erase e) n ↔ x ≠ e ∧ x ∈ elements b n := by
  simp only [mem_elements]
  constructor
  · intro ⟨i, inside, here⟩
    obtain ⟨other, old⟩ := ((h.once i inside).mem_erase_iff).mp here
    exact ⟨other, i, inside, old⟩
  · intro ⟨other, i, inside, old⟩
    exact ⟨i, inside, ((h.once i inside).mem_erase_iff).mpr ⟨other, old⟩⟩

theorem Placed.length_erase (h : Placed idx b n) (here : e ∈ elements b n) :
    (elements (fun i => (b i).erase e) n).length = (elements b n).length - 1 := by
  rw [← List.length_erase_of_mem here]
  apply List.Perm.length_eq
  apply (List.perm_ext_iff_of_nodup (h.erase e).nodup (h.nodup.erase e)).mpr
  intro x
  rw [h.mem_erase, h.nodup.mem_erase_iff]

end Erase

theorem placed_foldl (nodup : l.Nodup) (bound : ∀ e ∈ l, idx e < n) :
    Placed idx (l.foldl (push idx) fun _ => []) n ∧
      ∀ x, x ∈ elements (l.foldl (push idx) fun _ => []) n ↔ x ∈ l := by
  induction l using List.reverseRecOn with
  | nil =>
      refine ⟨.empty, fun x => ?_⟩
      rw [List.foldl_nil, elements_empty]
  | append_singleton l e ih =>
      obtain ⟨nodup, _, apart⟩ := List.nodup_append.mp nodup
      have inside := bound e (List.mem_append_right l (List.mem_singleton_self e))
      obtain ⟨placed, members⟩ := ih nodup fun x mem => bound x (List.mem_append_left _ mem)
      have new : e ∉ l := fun old => apart e old e (List.mem_singleton_self e) rfl
      rw [List.foldl_append, List.foldl_cons, List.foldl_nil]
      refine ⟨placed.push fun old => new ((members e).mp ((placed.mem inside).mpr old)), fun x => ?_⟩
      rw [mem_elements_push inside, members, List.mem_append, List.mem_singleton, or_comm]

theorem length_foldl (nodup : l.Nodup) (bound : ∀ e ∈ l, idx e < n) :
    (elements (l.foldl (push idx) fun _ => []) n).length = l.length := by
  obtain ⟨placed, members⟩ := placed_foldl nodup bound
  exact ((List.perm_ext_iff_of_nodup placed.nodup nodup).mpr members).length_eq

end
end CS162.Library.Buckets
