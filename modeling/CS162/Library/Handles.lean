import Mathlib.Data.List.Perm.Basic
import Mathlib.Data.List.ReduceOption
import Mathlib.Logic.Function.Basic

/-!
A table of handles, in which a closed handle leaves a gap, and the number of open handles
with some property.
-/

namespace CS162.Library.Handles
universe u
variable {α : Type u}

/-- The open handle of a number. -/
def get (l : List (Option α)) (h : Nat) : Option α := (l[h]?).join

/-- The number of open handles with a property. -/
def count (l : List (Option α)) (q : α → Bool) : Nat := l.countP fun x => x.any q

variable {l : List (Option α)} {h k : Nat} {a b : α} {q q' : α → Bool}

theorem get_eq_some : get l h = some a ↔ l[h]? = some (some a) := by
  rw [get, Option.join_eq_some_iff]

theorem get_set (open_ : get l h = some a) (x : Option α) :
    get (l.set h x) k = if k = h then x else get l k := by
  have inside : h < l.length := by
    by_contra outside
    rw [get_eq_some, List.getElem?_eq_none (Nat.not_lt.mp outside)] at open_
    cases open_
  rw [get, List.getElem?_set]
  by_cases same : h = k
  · subst same
    rw [if_pos rfl, if_pos rfl, if_pos inside]
    rfl
  · rw [if_neg same, if_neg (Ne.symm same)]
    rfl

theorem get_append (x : α) :
    get (l ++ [some x]) k = if k = l.length then some x else get l k := by
  rw [get, List.getElem?_append]
  by_cases inside : k < l.length
  · rw [if_pos inside, if_neg (Nat.ne_of_lt inside)]
    rfl
  · rw [if_neg inside]
    by_cases last : k = l.length
    · rw [if_pos last, last, Nat.sub_self]
      rfl
    · rw [if_neg last, get, List.getElem?_eq_none (by rw [List.length_singleton]; omega),
        List.getElem?_eq_none (Nat.not_lt.mp inside)]

theorem count_set (open_ : get l h = some a) (x : Option α) (q : α → Bool) :
    count (l.set h x) q + (if q a then 1 else 0) = count l q + if x.any q then 1 else 0 := by
  rw [get_eq_some] at open_
  obtain ⟨inside, here⟩ := List.getElem?_eq_some_iff.mp open_
  have least : (if q a then 1 else 0) ≤ count l q := by
    split
    next hit =>
      apply List.countP_pos_iff.mpr
      exact ⟨some a, List.mem_of_getElem? open_, hit⟩
    next => exact Nat.zero_le _
  have replaced := List.countP_set (p := fun x => Option.any q x) (a := x) inside
  rw [here, Option.any_some] at replaced
  rw [count] at least ⊢
  rw [count]
  omega

theorem count_append (x : α) (q : α → Bool) :
    count (l ++ [some x]) q = count l q + if q x then 1 else 0 := by
  rw [count, List.countP_append, List.countP_singleton, Option.any_some]
  rfl

theorem count_mono (less : ∀ a, q a = true → q' a = true) : count l q ≤ count l q' := by
  apply List.countP_mono_left
  intro x _ hit
  obtain ⟨a, rfl, hit⟩ := (Option.any_eq_true ..).mp hit
  exact less a hit

theorem count_pos : 0 < count l q ↔ ∃ h a, get l h = some a ∧ q a = true := by
  rw [count, List.countP_pos_iff]
  constructor
  · intro ⟨x, mem, hit⟩
    obtain ⟨a, rfl, hit⟩ := (Option.any_eq_true ..).mp hit
    obtain ⟨h, here⟩ := List.getElem?_of_mem mem
    exact ⟨h, a, get_eq_some.mpr here, hit⟩
  · intro ⟨h, a, here, hit⟩
    exact ⟨some a, List.mem_of_getElem? (get_eq_some.mp here), hit⟩

theorem mem_reduceOption : a ∈ l.reduceOption ↔ ∃ h, get l h = some a := by
  rw [List.reduceOption_mem_iff, List.mem_iff_getElem?]
  exact exists_congr fun h => get_eq_some.symm

theorem perm_set (open_ : get l h = some a) (x : Option α) :
    (a :: (l.set h x).reduceOption).Perm (x.toList ++ l.reduceOption) := by
  obtain ⟨inside, here⟩ := List.getElem?_eq_some_iff.mp (get_eq_some.mp open_)
  have parts (x : Option α) :
      (l.take h ++ x :: l.drop (h + 1)).reduceOption =
        (l.take h).reduceOption ++ (x.toList ++ (l.drop (h + 1)).reduceOption) := by
    rw [List.reduceOption_append, List.append_right_inj]
    cases x with
    | none => rfl
    | some b => rfl
  have before := parts (some a)
  rw [← here, List.getElem_cons_drop, List.take_append_drop, here] at before
  rw [List.set_eq_take_append_cons_drop, if_pos inside, parts, before]
  cases x with
  | none => exact List.perm_middle.symm
  | some b =>
      have moved := List.Perm.cons a
        (@List.perm_middle _ b (l.take h).reduceOption (l.drop (h + 1)).reduceOption)
      exact moved.trans ((List.Perm.swap b a _).trans (List.Perm.cons b List.perm_middle.symm))

section Objects
variable {ν κ π β : Type u}

/-- An object has a name or a handle. -/
def Referred (names : ν → Option κ) (handles : Nat → Option (κ × π)) (k : κ) : Prop :=
  (∃ name, names name = some k) ∨ ∃ h x, handles h = some (k, x)

section Referred
variable {names : ν → Option κ} {handles : Nat → Option (κ × π)} {name : ν} {k : κ} {h : Nat}

theorem Referred.of_name [DecidableEq ν] {x : Option κ}
    (referred : Referred (Function.update names name x) handles k) : x = some k ∨ Referred names handles k := by
  cases referred with
  | inl named =>
      obtain ⟨other, here⟩ := named
      rw [Function.update_apply] at here
      split at here
      next => exact .inl here
      next => exact .inr (.inl ⟨other, here⟩)
  | inr opened => exact .inr (.inr opened)

theorem Referred.of_handle {x : Option (κ × π)}
    (referred : Referred names (Function.update handles h x) k) :
    (∃ state, x = some (k, state)) ∨ Referred names handles k := by
  cases referred with
  | inl named => exact .inr (.inl named)
  | inr opened =>
      obtain ⟨other, state, here⟩ := opened
      rw [Function.update_apply] at here
      split at here
      next => exact .inl ⟨state, here⟩
      next => exact .inr (.inr ⟨other, state, here⟩)

end Referred

/-- Objects with names and handles; an object that has neither is gone. A handle also carries a
state of its own. -/
@[ext] structure Objects (ν κ π β : Type u) where
  names : ν → Option κ
  handles : Nat → Option (κ × π)
  contents : κ → Option β
  present : ∀ k, contents k ≠ none ↔ Referred names handles k

namespace Objects
variable {s s' : Objects ν κ π β} {bound : ν → Option κ} {table : Nat → Option (κ × π)}
  {edit : κ → Option β} {all : κ → β} {k : κ}

/-- These are the names and the handles, and what they refer to has the contents of `edit`. -/
structure Is (s : Objects ν κ π β) (bound : ν → Option κ) (table : Nat → Option (κ × π))
    (edit : κ → Option β) : Prop where
  names : s.names = bound
  handles : s.handles = table
  contents : ∀ k, Referred bound table k → s.contents k = edit k

open Classical in
/-- What these names and handles refer to, with given contents. -/
noncomputable def of (bound : ν → Option κ) (table : Nat → Option (κ × π)) (all : κ → β) :
    Objects ν κ π β where
  names := bound
  handles := table
  contents k := if Referred bound table k then some (all k) else none
  present k := by
    split
    next referred => exact iff_of_true (Option.some_ne_none _) referred
    next gone => exact iff_of_false (not_not_intro rfl) gone

theorem contents_of (referred : Referred bound table k) : (of bound table all).contents k = some (all k) :=
  if_pos referred

theorem contents_eq_none : s.contents k = none ↔ ¬ Referred s.names s.handles k := by
  rw [← s.present, ne_eq, not_not]

/-- Names, handles and the contents of what they refer to are all there is. -/
theorem Is.unique (h : s.Is bound table edit) (h' : s'.Is bound table edit) : s = s' := by
  refine Objects.ext (h.names.trans h'.names.symm) (h.handles.trans h'.handles.symm) ?_
  funext k
  by_cases referred : Referred bound table k
  · rw [h.contents k referred, h'.contents k referred]
  · rw [contents_eq_none.mpr (by rwa [h.names, h.handles]),
      contents_eq_none.mpr (by rwa [h'.names, h'.handles])]

theorem Is.refl (s : Objects ν κ π β) : s.Is s.names s.handles s.contents :=
  ⟨rfl, rfl, fun _ _ => rfl⟩

theorem Is.trans {table' : Nat → Option (κ × π)} (h : s.Is bound table edit)
    (h' : s'.Is s.names table' s.contents) (known : ∀ k, Referred bound table' k → Referred bound table k) :
    s'.Is bound table' edit where
  names := h'.names.trans h.names
  handles := h'.handles
  contents k referred := (h'.contents k (h.names ▸ referred)).trans (h.contents k (known k referred))

theorem is_of (edits : ∀ k, Referred bound table k → edit k = some (all k)) :
    (of bound table all).Is bound table edit :=
  ⟨rfl, rfl, fun k referred => (contents_of referred).trans (edits k referred).symm⟩

end Objects
end Objects

end CS162.Library.Handles
