import Mathlib.Data.List.Nodup
import Mathlib.Data.Set.Card
import Mathlib.Logic.Function.Basic

/-!
A table of a fixed number of slots, each of which is free or holds a key and its value,
as a finite map. No key stands in two slots; filling a free slot with a new key binds it,
and clearing a slot unbinds the key that it held.
-/

namespace CS162.Library.SlotTable
universe u v
variable {κ : Type u} {ν : Type v}

/-- What the first `n` slots hold, in their order. -/
def bindings (t : Nat → Option (κ × ν)) (n : Nat) : List (κ × ν) := (List.range n).filterMap t

/-- What the slots from `j` on hold. -/
def rest (t : Nat → Option (κ × ν)) (n j : Nat) : List (κ × ν) :=
  (List.range' j (n - j)).filterMap t

def keys (t : Nat → Option (κ × ν)) (n : Nat) : List κ := (bindings t n).map Prod.fst

/-- The map that a table stands for. -/
def toMap [DecidableEq κ] (t : Nat → Option (κ × ν)) (n : Nat) (key : κ) : Option ν :=
  ((bindings t n).find? fun b => b.1 = key).map Prod.snd

/-- No key stands in two slots. -/
def Distinct (t : Nat → Option (κ × ν)) (n : Nat) : Prop :=
  ∀ i < n, ∀ j < n, ∀ key v v', t i = some (key, v) → t j = some (key, v') → i = j

/-- Where a scan of the slots from `j` on ends: at one that it looks for or that cannot be read,
or behind the last. -/
def stop (readable hit : Nat → Bool) : (left j : Nat) → Nat
  | 0, j => j
  | left + 1, j => if readable j && !hit j then stop readable hit left (j + 1) else j

inductive Change (κ : Type u) (ν : Type v) where
  | keep
  | bind (key : κ) (v : ν)
  | unbind (key : κ)

/-- A new key is bound, or a bound one unbound, and all others are as before. -/
def Change.Made [DecidableEq κ] (m m' : κ → Option ν) : Change κ ν → Prop
  | .keep => m' = m
  | .bind key v => m key = none ∧ m' = Function.update m key (some v)
  | .unbind key => m key ≠ none ∧ m' = Function.update m key none

section
variable {t : Nat → Option (κ × ν)} {n j : Nat} {key k : κ} {v w : ν}

theorem mem_bindings {b : κ × ν} : b ∈ bindings t n ↔ ∃ j < n, t j = some b := by
  simp [bindings, List.mem_filterMap, List.mem_range]

theorem bindings_congr {t' : Nat → Option (κ × ν)} (same : ∀ j < n, t' j = t j) :
    bindings t' n = bindings t n :=
  List.filterMap_congr fun j inside => same j (List.mem_range.mp inside)

theorem Distinct.congr {t' : Nat → Option (κ × ν)} (h : Distinct t n)
    (same : ∀ j < n, t' j = t j) : Distinct t' n :=
  fun i hi j hj key v v' here there =>
    h i hi j hj key v v' (same i hi ▸ here) (same j hj ▸ there)

theorem rest_zero : rest t n 0 = bindings t n := by
  rw [rest, bindings, Nat.sub_zero, List.range_eq_range']

theorem rest_end (h : n ≤ j) : rest t n j = [] := by
  rw [rest, Nat.sub_eq_zero_of_le h]
  rfl

theorem rest_next (h : j < n) : rest t n j = (t j).toList ++ rest t n (j + 1) := by
  rw [rest, show n - j = n - (j + 1) + 1 by omega, List.range'_succ, List.filterMap_cons]
  cases t j with
  | none => rfl
  | some b => rfl

theorem nodup_keys (h : Distinct t n) : (keys t n).Nodup := by
  rw [keys, List.Nodup, List.pairwise_map, bindings, List.pairwise_filterMap]
  apply List.Pairwise.imp_of_mem _ List.nodup_range
  intro i j hi hj differ b here b' there same
  apply differ
  exact h i (List.mem_range.mp hi) j (List.mem_range.mp hj) b.1 b.2 b'.2 here (same ▸ there)

theorem length_bindings_lt : (bindings t n).length < n ↔ ∃ j < n, t j = none := by
  induction n with
  | zero => simp [bindings]
  | succ n ih =>
      have step : bindings t (n + 1) = bindings t n ++ (t n).toList := by
        simp only [bindings, List.range_succ, List.filterMap_append, List.filterMap_cons,
          List.filterMap_nil]
        cases t n with
        | none => rfl
        | some b => rfl
      have most : (bindings t n).length ≤ n := by
        have := List.length_filterMap_le t (List.range n)
        rwa [List.length_range] at this
      rw [step, List.length_append]
      cases last : t n with
      | none =>
          simp only [Option.toList_none, List.length_nil, Nat.add_zero]
          exact iff_of_true (Nat.lt_succ_of_le most) ⟨n, Nat.lt_succ_self n, last⟩
      | some b =>
          simp only [Option.toList_some, List.length_singleton, Nat.add_lt_add_iff_right, ih]
          constructor
          · intro ⟨j, inside, free⟩
            exact ⟨j, Nat.lt_succ_of_lt inside, free⟩
          · intro ⟨j, inside, free⟩
            refine ⟨j, Nat.lt_of_le_of_ne (Nat.le_of_lt_succ inside) ?_, free⟩
            intro same
            rw [same, last] at free
            cases free

variable [DecidableEq κ]

theorem toMap_congr {t' : Nat → Option (κ × ν)} (same : ∀ j < n, t' j = t j) :
    toMap t' n = toMap t n := by
  funext key
  rw [toMap, toMap, bindings_congr same]

theorem toMap_eq_none : toMap t n key = none ↔ ∀ j < n, ∀ v, t j ≠ some (key, v) := by
  simp only [toMap, Option.map_eq_none_iff, List.find?_eq_none, mem_bindings, decide_eq_true_eq]
  constructor
  · intro none j inside v here
    exact none (key, v) ⟨j, inside, here⟩ rfl
  · intro none b ⟨j, inside, here⟩ same
    exact none j inside b.2 (same ▸ here)

theorem toMap_eq_some (h : Distinct t n) :
    toMap t n key = some v ↔ ∃ j < n, t j = some (key, v) := by
  constructor
  · intro found
    obtain ⟨b, first, rfl⟩ := Option.map_eq_some_iff.mp found
    obtain ⟨j, inside, here⟩ := mem_bindings.mp (List.mem_of_find?_eq_some first)
    have same : b.1 = key := by simpa using List.find?_some first
    exact ⟨j, inside, same ▸ here⟩
  · intro ⟨j, inside, here⟩
    cases found : toMap t n key with
    | none => exact absurd here (toMap_eq_none.mp found j inside v)
    | some w =>
        obtain ⟨b, first, rfl⟩ := Option.map_eq_some_iff.mp found
        obtain ⟨i, inside', there⟩ := mem_bindings.mp (List.mem_of_find?_eq_some first)
        have same : b.1 = key := by simpa using List.find?_some first
        have slot := h i inside' j inside key b.2 v (same ▸ there) here
        rw [slot, here] at there
        cases there
        rfl

theorem toMap_first (inside : j < n) (here : t j = some (key, v))
    (before : ∀ l < j, ∀ w, t l ≠ some (key, w)) : toMap t n key = some v := by
  have split : bindings t n = bindings t j ++ rest t n j := by
    rw [bindings, bindings, rest, List.range_eq_range', List.range_eq_range', ← List.filterMap_append]
    have whole : List.range' 0 j ++ List.range' (0 + j) (n - j) = List.range' 0 (j + (n - j)) :=
      List.range'_append_1
    rw [Nat.zero_add, Nat.add_sub_cancel' (Nat.le_of_lt inside)] at whole
    rw [whole]
  have none : (bindings t j).find? (fun b => b.1 = key) = none := by
    apply List.find?_eq_none.mpr
    intro b mem same
    obtain ⟨l, below, there⟩ := mem_bindings.mp mem
    have same : b.1 = key := by simpa using same
    exact before l below b.2 (same ▸ there)
  rw [toMap, split, rest_next inside, here, List.find?_append, none, Option.none_or]
  simp

theorem mem_keys : key ∈ keys t n ↔ toMap t n key ≠ none := by
  rw [ne_eq, toMap_eq_none, keys, List.mem_map]
  constructor
  · intro ⟨b, mem, same⟩ none
    obtain ⟨j, inside, here⟩ := mem_bindings.mp mem
    exact none j inside b.2 (same ▸ here)
  · intro some
    simp only [not_forall, not_not] at some
    obtain ⟨j, inside, v, here⟩ := some
    exact ⟨(key, v), mem_bindings.mpr ⟨j, inside, here⟩, rfl⟩

/-- There is room exactly while fewer keys are bound than there are slots. -/
theorem ncard_lt_iff (h : Distinct t n) :
    {key | toMap t n key ≠ none}.ncard < n ↔ ∃ j < n, t j = none := by
  have keyed : {key | toMap t n key ≠ none} = ((keys t n).toFinset : Set κ) := by
    ext key
    simp only [Set.mem_ofPred_eq, List.coe_toFinset, mem_keys]
  rw [keyed, Set.ncard_coe_finset, List.toFinset_card_of_nodup (nodup_keys h), keys,
    List.length_map, length_bindings_lt]

theorem Distinct.bind (h : Distinct t n) (inside : j < n) (free : t j = none)
    (absent : toMap t n key = none) :
    Distinct (Function.update t j (some (key, v))) n ∧
      toMap (Function.update t j (some (key, v))) n = Function.update (toMap t n) key (some v) := by
  have old := toMap_eq_none.mp absent
  have distinct : Distinct (Function.update t j (some (key, v))) n := by
    intro i hi i' hi' k w w' here there
    rw [Function.update_apply] at here there
    split at here
    next first =>
      cases here
      split at there
      next second => rw [first, second]
      next => exact absurd there (old i' hi' w')
    next =>
      split at there
      next =>
        cases there
        exact absurd here (old i hi w)
      next => exact h i hi i' hi' k w w' here there
  refine ⟨distinct, ?_⟩
  funext k
  apply Option.ext
  intro w
  rw [toMap_eq_some distinct, Function.update_apply]
  split
  next same =>
    subst same
    constructor
    · intro ⟨i, hi, here⟩
      rw [Function.update_apply] at here
      split at here
      next =>
        cases here
        rfl
      next => exact absurd here (old i hi w)
    · intro here
      cases here
      exact ⟨j, inside, Function.update_self ..⟩
  next other =>
    rw [toMap_eq_some h]
    refine exists_congr fun i => and_congr_right fun hi => ?_
    rw [Function.update_apply]
    split
    next same =>
      rw [same, free]
      simp [Ne.symm other]
    next => rfl

theorem Distinct.unbind (h : Distinct t n) (inside : j < n) (here : t j = some (key, v)) :
    Distinct (Function.update t j none) n ∧
      toMap (Function.update t j none) n = Function.update (toMap t n) key none := by
  have kept {i : Nat} {b : κ × ν} (now : Function.update t j none i = some b) :
      i ≠ j ∧ t i = some b := by
    rw [Function.update_apply] at now
    split at now
    next => cases now
    next other => exact ⟨other, now⟩
  have distinct : Distinct (Function.update t j none) n := by
    intro i hi i' hi' k w w' first second
    exact h i hi i' hi' k w w' (kept first).2 (kept second).2
  refine ⟨distinct, ?_⟩
  funext k
  apply Option.ext
  intro w
  rw [toMap_eq_some distinct, Function.update_apply]
  split
  next same =>
    subst same
    simp only [reduceCtorEq, iff_false]
    intro ⟨i, hi, now⟩
    obtain ⟨other, there⟩ := kept now
    exact other (h i hi j inside k w v there here)
  next other =>
    rw [toMap_eq_some h]
    constructor
    · intro ⟨i, hi, now⟩
      exact ⟨i, hi, (kept now).2⟩
    · intro ⟨i, hi, there⟩
      refine ⟨i, hi, (Function.update_of_ne ?_ ..).trans there⟩
      intro same
      rw [same, here] at there
      cases there
      exact other rfl

/-- A slot is filled with a key, whatever was in it and whatever else has the key. -/
theorem Distinct.fill_iff (h : Distinct t n) (inside : j < n) (key : κ) (v : ν) :
    Distinct (Function.update t j (some (key, v))) n ∧
        (Change.bind key v).Made (toMap t n) (toMap (Function.update t j (some (key, v))) n) ↔
      t j = none ∧ toMap t n key = none := by
  constructor
  · intro ⟨distinct, absent, made⟩
    refine ⟨?_, absent⟩
    cases here : t j with
    | none => rfl
    | some b =>
        obtain ⟨k, w⟩ := b
        have bound := (toMap_eq_some h).mpr ⟨j, inside, here⟩
        have other : k ≠ key := by
          intro same
          rw [same, absent] at bound
          cases bound
        rw [← Function.update_of_ne other (some v) (toMap t n), ← made, toMap_eq_some distinct] at bound
        obtain ⟨i, hi, there⟩ := bound
        rw [Function.update_apply] at there
        split at there
        next =>
          cases there
          exact absurd rfl other
        next apart => exact absurd (h i hi j inside k w w there here) apart
  · intro ⟨free, absent⟩
    obtain ⟨distinct, made⟩ := h.bind inside free absent
    exact ⟨distinct, absent, made⟩

end

section
variable {readable hit hit' : Nat → Bool} {left j : Nat}

theorem stop_congr (same : ∀ l, j ≤ l → l < j + left → hit' l = hit l) :
    stop readable hit' left j = stop readable hit left j := by
  induction left generalizing j with
  | zero => rfl
  | succ left ih =>
      rw [stop, stop, same j (Nat.le_refl j) (by omega)]
      rw [ih fun l lower upper => same l (by omega) (by omega)]

/-- A scan that reads all slots ends at one that it looks for, if there is one. -/
theorem stop_of_readable (all : ∀ l, readable l = true) :
    (stop readable hit left j < j + left → hit (stop readable hit left j) = true) ∧
      ∀ l, j ≤ l → l < j + left → hit l = true → stop readable hit left j < j + left := by
  induction left generalizing j with
  | zero => exact ⟨fun inside => absurd inside (Nat.lt_irrefl j), fun l lower upper => by omega⟩
  | succ left ih =>
      obtain ⟨found, ends⟩ := ih (j := j + 1)
      rw [stop, all, Bool.true_and]
      cases here : hit j with
      | true => exact ⟨fun _ => here, fun _ _ _ _ => by simp⟩
      | false =>
          have shift : j + 1 + left = j + (left + 1) := by omega
          rw [shift] at found ends
          refine ⟨found, fun l lower upper hits => ?_⟩
          have other : l ≠ j := by
            rintro rfl
            rw [here] at hits
            cases hits
          exact ends l (by omega) upper hits

end
end CS162.Library.SlotTable
