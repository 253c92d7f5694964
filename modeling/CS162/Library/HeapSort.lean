import CS162.Library.Comparator
import Mathlib.Data.List.Nodup
import Mathlib.Logic.Equiv.Basic

/-!
Heap sort of the values at the places from 1 to a bound. The children of a place `i` are at
`2 * i` and `2 * i + 1`. Sifting a value down repairs a heap in which only that value may be
less than its children; a heap is built from its last parent on, and taken apart by moving
its root behind it.
-/

namespace CS162.Library
universe u
variable {α : Type u}

section Definitions
variable (cmp : α → α → Int)

/-- The place of the larger of two values, the first of which may lie behind the heap. -/
def larger (f : Nat → α) (cnt child max : Nat) : Nat :=
  if child ≤ cnt ∧ 0 < cmp (f child) (f max) then child else max

/-- The place of the largest of a value and its children. -/
def largest (f : Nat → α) (cnt i : Nat) : Nat :=
  larger cmp f cnt (2 * i + 1) (larger cmp f cnt (2 * i) i)

/-- Sift the value at a place down, for so many rounds at most. -/
def siftDown (cnt : Nat) : Nat → (Nat → α) → Nat → Nat → α
  | 0, f, _ => f
  | rounds + 1, f, i =>
      if largest cmp f cnt i = i then f
      else siftDown cnt rounds (f ∘ Equiv.swap i (largest cmp f cnt i)) (largest cmp f cnt i)

/-- Make a heap of the values, from a place on towards the root. -/
def buildHeap (cnt rounds : Nat) : Nat → (Nat → α) → Nat → α
  | 0, f => f
  | i + 1, f => buildHeap cnt rounds i (siftDown cmp cnt rounds f (i + 1))

/-- Take a heap apart. -/
def sortHeap (rounds : Nat) : Nat → (Nat → α) → Nat → α
  | 0, f | 1, f => f
  | i + 2, f => sortHeap rounds (i + 1) (siftDown cmp (i + 1) rounds (f ∘ Equiv.swap 1 (i + 2)) 1)

def heapSort (rounds cnt : Nat) (f : Nat → α) : Nat → α :=
  sortHeap cmp rounds cnt (buildHeap cmp cnt rounds (cnt / 2) f)

end Definitions

section Rearranging
variable {f f' f'' : Nat → α} {lo hi lo' hi' k : Nat} {σ : Equiv.Perm Nat}

/-- Only places between the two are exchanged. -/
def Between (lo hi : Nat) (σ : Equiv.Perm Nat) : Prop := ∀ k, k < lo ∨ hi < k → σ k = k

theorem Between.symm (h : Between lo hi σ) : Between lo hi σ.symm :=
  fun k away => σ.symm_apply_eq.mpr (h k away).symm

theorem Between.inside (h : Between lo hi σ) (lower : lo ≤ k) (upper : k ≤ hi) :
    lo ≤ σ k ∧ σ k ≤ hi := by
  by_contra away
  have fixed : σ (σ k) = σ k := h (σ k) (by omega)
  have same : σ k = k := σ.injective fixed
  rw [same] at away
  exact away ⟨lower, upper⟩

/-- The values between two places are those that were there, in some order, and the others
are where they were. -/
def Rearranged (lo hi : Nat) (f f' : Nat → α) : Prop := ∃ σ, Between lo hi σ ∧ f' = f ∘ σ

theorem Rearranged.refl (f : Nat → α) : Rearranged lo hi f f :=
  ⟨Equiv.refl Nat, fun _ _ => rfl, rfl⟩

theorem Rearranged.trans (first : Rearranged lo hi f f') (second : Rearranged lo hi f' f'') :
    Rearranged lo hi f f'' := by
  obtain ⟨σ, between, rfl⟩ := first
  obtain ⟨τ, between', rfl⟩ := second
  refine ⟨τ.trans σ, ?_, rfl⟩
  intro k away
  rw [Equiv.trans_apply, between' k away, between k away]

theorem Rearranged.mono (h : Rearranged lo hi f f') (lower : lo' ≤ lo) (upper : hi ≤ hi') :
    Rearranged lo' hi' f f' := by
  obtain ⟨σ, between, eq⟩ := h
  exact ⟨σ, fun k away => between k (by omega), eq⟩

theorem Rearranged.swap {a b : Nat} (a_in : lo ≤ a ∧ a ≤ hi) (b_in : lo ≤ b ∧ b ≤ hi) :
    Rearranged lo hi f (f ∘ Equiv.swap a b) := by
  refine ⟨Equiv.swap a b, ?_, rfl⟩
  intro k away
  apply Equiv.swap_apply_of_ne_of_ne
  · omega
  · omega

theorem Rearranged.perm {cnt : Nat} (h : Rearranged 1 cnt f f') :
    ((List.range' 1 cnt).map f').Perm ((List.range' 1 cnt).map f) := by
  obtain ⟨σ, between, rfl⟩ := h
  have places : ((List.range' 1 cnt).map σ).Perm (List.range' 1 cnt) := by
    apply (List.perm_ext_iff_of_nodup (List.Nodup.map σ.injective List.nodup_range') List.nodup_range').mpr
    intro k
    rw [List.mem_map, List.mem_range'_1]
    constructor
    · intro found
      obtain ⟨j, inside, rfl⟩ := found
      rw [List.mem_range'_1] at inside
      have still := between.inside (k := j) (by omega) (by omega)
      omega
    · intro inside
      have source := between.symm.inside (k := k) (by omega) (by omega)
      exact ⟨σ.symm k, List.mem_range'_1.mpr (by omega), σ.apply_symm_apply k⟩
  rw [← List.map_map]
  exact places.map f

end Rearranging

section Largest
variable {cmp : α → α → Int} {f : Nat → α} {cnt child max i c : Nat}

theorem larger_cases (cmp : α → α → Int) (f : Nat → α) (cnt child max : Nat) :
    larger cmp f cnt child max = max ∨ larger cmp f cnt child max = child ∧ child ≤ cnt := by
  rw [larger]
  split
  next both => exact .inr ⟨rfl, both.1⟩
  next => exact .inl rfl

theorem TotalPreorder.max_le_larger (total : TotalPreorder cmp) (f : Nat → α) (cnt child max : Nat) :
    cmp (f max) (f (larger cmp f cnt child max)) ≤ 0 := by
  rw [larger]
  split
  next both => exact total.le_of_pos both.2
  next => exact total.refl (f max)

theorem TotalPreorder.child_le_larger (total : TotalPreorder cmp) (inside : child ≤ cnt) :
    cmp (f child) (f (larger cmp f cnt child max)) ≤ 0 := by
  rw [larger]
  split
  next => exact total.refl (f child)
  next other =>
    have not_above : ¬ 0 < cmp (f child) (f max) := fun above => other ⟨inside, above⟩
    omega

theorem largest_cases (cmp : α → α → Int) (f : Nat → α) (cnt i : Nat) (pos : 0 < i) :
    largest cmp f cnt i = i ∨
      largest cmp f cnt i / 2 = i ∧ i < largest cmp f cnt i ∧ largest cmp f cnt i ≤ cnt := by
  have right := larger_cases cmp f cnt (2 * i + 1) (larger cmp f cnt (2 * i) i)
  have left := larger_cases cmp f cnt (2 * i) i
  rw [← largest] at right
  omega

theorem TotalPreorder.le_largest (total : TotalPreorder cmp) (inside : c ≤ cnt)
    (place : c = i ∨ c / 2 = i) : cmp (f c) (f (largest cmp f cnt i)) ≤ 0 := by
  have right := total.max_le_larger f cnt (2 * i + 1) (larger cmp f cnt (2 * i) i)
  have which : c = i ∨ c = 2 * i ∨ c = 2 * i + 1 := by omega
  obtain rfl | rfl | rfl := which
  · exact total.trans _ _ _ (total.max_le_larger f cnt (2 * c) c) right
  · exact total.trans _ _ _ (total.child_le_larger inside) right
  · exact total.child_le_larger inside

end Largest

section Heaps
variable {cmp : α → α → Int} {f : Nat → α} {lo cnt rounds i : Nat}

/-- From a place on, no value is less than its children. -/
def Heap (cmp : α → α → Int) (f : Nat → α) (lo cnt : Nat) : Prop :=
  ∀ c, c ≤ cnt → lo ≤ c / 2 → cmp (f c) (f (c / 2)) ≤ 0

/-- The same but for one value, whose children may take its place. -/
structure HeapBut (cmp : α → α → Int) (f : Nat → α) (lo cnt i : Nat) : Prop where
  other : ∀ c, c ≤ cnt → lo ≤ c / 2 → c / 2 ≠ i → cmp (f c) (f (c / 2)) ≤ 0
  above : ∀ c, c ≤ cnt → c / 2 = i → lo ≤ i / 2 → cmp (f c) (f (i / 2)) ≤ 0

theorem TotalPreorder.heap_of_largest (total : TotalPreorder cmp) (but : HeapBut cmp f lo cnt i)
    (largest_eq : largest cmp f cnt i = i) : Heap cmp f lo cnt := by
  intro c inside from_lo
  by_cases here : c / 2 = i
  · have below := total.le_largest (f := f) inside (.inr here)
    rw [largest_eq] at below
    rw [here]
    exact below
  · exact but.other c inside from_lo here

/-- After a step down, the value that may be too small is at the place of the largest. -/
theorem TotalPreorder.heapBut_swap (total : TotalPreorder cmp) (pos : 0 < lo) (from_lo : lo ≤ i)
    (but : HeapBut cmp f lo cnt i) (down : largest cmp f cnt i ≠ i) :
    HeapBut cmp (f ∘ Equiv.swap i (largest cmp f cnt i)) lo cnt (largest cmp f cnt i) := by
  obtain ⟨parent, deeper, bound⟩ := (largest_cases cmp f cnt i (by omega)).resolve_left down
  have le_max (c : Nat) (inside : c ≤ cnt) (place : c = i ∨ c / 2 = i) :=
    total.le_largest (f := f) inside place
  generalize largest cmp f cnt i = max at parent deeper bound le_max
  have at_i : (f ∘ Equiv.swap i max) i = f max := congrArg f (Equiv.swap_apply_left i max)
  have at_max : (f ∘ Equiv.swap i max) max = f i := congrArg f (Equiv.swap_apply_right i max)
  have at_other (k : Nat) (ne : k ≠ i) (ne' : k ≠ max) : (f ∘ Equiv.swap i max) k = f k :=
    congrArg f (Equiv.swap_apply_of_ne_of_ne ne ne')
  constructor
  case other =>
    intro c inside low ne
    by_cases moved : c / 2 = i
    · rw [moved, at_i]
      by_cases max_here : c = max
      · rw [max_here, at_max]
        exact le_max i (by omega) (.inl rfl)
      · rw [at_other c (by omega) max_here]
        exact le_max c inside (.inr moved)
    · rw [at_other (c / 2) moved ne]
      by_cases here : c = i
      · rw [here, at_i]
        exact but.above max bound parent (by omega)
      · rw [at_other c here (by omega)]
        exact but.other c inside low moved
  case above =>
    intro c inside child _
    rw [parent, at_i, at_other c (by omega) (by omega), ← child]
    exact but.other c inside (by omega) (by omega)

theorem TotalPreorder.heap_siftDown (total : TotalPreorder cmp) (pos : 0 < lo) (from_lo : lo ≤ i)
    (enough : cnt - i < rounds) (but : HeapBut cmp f lo cnt i) :
    Heap cmp (siftDown cmp cnt rounds f i) lo cnt := by
  induction rounds generalizing f i with
  | zero => exact absurd enough (Nat.not_lt_zero _)
  | succ rounds ih =>
      rw [siftDown]
      split
      next done => exact total.heap_of_largest but done
      next down =>
        have deeper := (largest_cases cmp f cnt i (by omega)).resolve_left down
        exact ih (by omega) (by omega) (total.heapBut_swap pos from_lo but down)

theorem siftDown_rearranged (pos : 0 < i) :
    Rearranged i cnt f (siftDown cmp cnt rounds f i) := by
  induction rounds generalizing f i with
  | zero => exact .refl f
  | succ rounds ih =>
      rw [siftDown]
      split
      next => exact .refl f
      next down =>
        have deeper := (largest_cases cmp f cnt i pos).resolve_left down
        have step : Rearranged i cnt f (f ∘ Equiv.swap i (largest cmp f cnt i)) :=
          .swap (by omega) (by omega)
        exact step.trans ((ih (by omega)).mono (by omega) (Nat.le_refl cnt))

theorem TotalPreorder.le_root (total : TotalPreorder cmp) (heap : Heap cmp f 1 cnt) {k : Nat}
    (pos : 0 < k) (inside : k ≤ cnt) : cmp (f k) (f 1) ≤ 0 := by
  induction k using Nat.strong_induction_on with
  | _ k ih =>
      by_cases root : k = 1
      · rw [root]
        exact total.refl (f 1)
      · have parent := ih (k / 2) (by omega) (by omega) (by omega)
        exact total.trans _ _ _ (heap k inside (by omega)) parent

end Heaps

section Building
variable {cmp : α → α → Int} {f : Nat → α} {cnt rounds i : Nat}

theorem heap_of_half (cmp : α → α → Int) (f : Nat → α) (cnt : Nat) :
    Heap cmp f (cnt / 2 + 1) cnt := by
  intro c inside low
  omega

theorem Heap.but (heap : Heap cmp f (i + 2) cnt) : HeapBut cmp f (i + 1) cnt (i + 1) where
  other c inside low ne := heap c inside (by omega)
  above c _ _ low := by omega

theorem TotalPreorder.heap_buildHeap (total : TotalPreorder cmp) (enough : cnt ≤ rounds)
    (heap : Heap cmp f (i + 1) cnt) : Heap cmp (buildHeap cmp cnt rounds i f) 1 cnt := by
  induction i generalizing f with
  | zero => exact heap
  | succ i ih =>
      rw [buildHeap]
      apply ih
      by_cases small : cnt - (i + 1) < rounds
      · exact total.heap_siftDown (Nat.succ_pos i) (Nat.le_refl _) small heap.but
      · -- No place has children.
        intro c inside low
        omega

theorem buildHeap_rearranged : Rearranged 1 cnt f (buildHeap cmp cnt rounds i f) := by
  induction i generalizing f with
  | zero => exact .refl f
  | succ i ih =>
      rw [buildHeap]
      have first : Rearranged 1 cnt f (siftDown cmp cnt rounds f (i + 1)) :=
        (siftDown_rearranged (Nat.succ_pos i)).mono (by omega) (Nat.le_refl cnt)
      exact first.trans ih

end Building

section Sorting
variable {cmp : α → α → Int} {f : Nat → α} {cnt rounds i : Nat}

/-- A heap up to a place, and behind it the values that are not below those in front. -/
structure PartSorted (cmp : α → α → Int) (f : Nat → α) (cnt i : Nat) : Prop where
  heap : Heap cmp f 1 i
  behind : ∀ a b, 0 < a → a < b → i < b → b ≤ cnt → cmp (f a) (f b) ≤ 0

/-- The root goes behind the heap, and the value that takes its place is sifted down. -/
theorem TotalPreorder.partSorted_step (total : TotalPreorder cmp) (enough : i + 1 ≤ rounds)
    (part : PartSorted cmp f cnt (i + 2)) :
    PartSorted cmp (siftDown cmp (i + 1) rounds (f ∘ Equiv.swap 1 (i + 2)) 1) cnt (i + 1) := by
  have sifted : Rearranged 1 (i + 1) (f ∘ Equiv.swap 1 (i + 2))
      (siftDown cmp (i + 1) rounds (f ∘ Equiv.swap 1 (i + 2)) 1) :=
    siftDown_rearranged Nat.one_pos
  constructor
  case heap =>
    apply total.heap_siftDown Nat.one_pos (Nat.le_refl 1) (by omega)
    constructor
    case other =>
      intro c inside low ne
      have child : (f ∘ Equiv.swap 1 (i + 2)) c = f c :=
        congrArg f (Equiv.swap_apply_of_ne_of_ne (by omega) (by omega))
      have parent : (f ∘ Equiv.swap 1 (i + 2)) (c / 2) = f (c / 2) :=
        congrArg f (Equiv.swap_apply_of_ne_of_ne (by omega) (by omega))
      rw [child, parent]
      exact part.heap c (by omega) low
    case above => exact fun c _ _ low => absurd low (by decide)
  case behind =>
    have whole : Rearranged 1 (i + 2) f (siftDown cmp (i + 1) rounds (f ∘ Equiv.swap 1 (i + 2)) 1) :=
      Rearranged.trans (.swap (by omega) (by omega)) (sifted.mono (Nat.le_refl 1) (by omega))
    obtain ⟨σ, between, eq⟩ := sifted
    obtain ⟨τ, between', eq'⟩ := whole
    intro a b pos less beyond inside
    by_cases root : b = i + 2
    · -- The old root has come to the place behind the heap.
      have old_root : siftDown cmp (i + 1) rounds (f ∘ Equiv.swap 1 (i + 2)) 1 b = f 1 := by
        rw [eq, Function.comp_apply, between b (by omega), root]
        exact congrArg f (Equiv.swap_apply_right 1 (i + 2))
      have source := between'.inside (k := a) (by omega) (by omega)
      rw [old_root, eq']
      exact total.le_root part.heap source.1 source.2
    · rw [eq', Function.comp_apply, Function.comp_apply, between' b (by omega)]
      by_cases low : a ≤ i + 2
      · have source := between'.inside (k := a) (by omega) low
        exact part.behind (τ a) b (by omega) (by omega) (by omega) inside
      · rw [between' a (by omega)]
        exact part.behind a b pos less (by omega) inside

theorem TotalPreorder.partSorted_sortHeap (total : TotalPreorder cmp) (enough : i ≤ rounds)
    (part : PartSorted cmp f cnt i) : PartSorted cmp (sortHeap cmp rounds i f) cnt 1 := by
  induction i using Nat.strong_induction_on generalizing f with
  | _ i ih =>
      match i with
      | 0 => exact ⟨fun c inside low => absurd low (by omega), fun a b pos less beyond =>
          part.behind a b pos less (by omega)⟩
      | 1 => exact part
      | i + 2 =>
          rw [sortHeap]
          exact ih (i + 1) (by omega) (by omega) (total.partSorted_step (by omega) part)

theorem sortHeap_rearranged (inside : i ≤ cnt) : Rearranged 1 cnt f (sortHeap cmp rounds i f) := by
  induction i using Nat.strong_induction_on generalizing f with
  | _ i ih =>
      match i with
      | 0 | 1 => exact .refl f
      | i + 2 =>
          rw [sortHeap]
          have first : Rearranged 1 cnt f (f ∘ Equiv.swap 1 (i + 2)) :=
            .swap (by omega) (by omega)
          have second : Rearranged 1 cnt (f ∘ Equiv.swap 1 (i + 2))
              (siftDown cmp (i + 1) rounds (f ∘ Equiv.swap 1 (i + 2)) 1) :=
            (siftDown_rearranged Nat.one_pos).mono (Nat.le_refl 1) (by omega)
          exact (first.trans second).trans (ih (i + 1) (by omega) (by omega))

theorem heapSort_rearranged (cmp : α → α → Int) (rounds cnt : Nat) (f : Nat → α) :
    Rearranged 1 cnt f (heapSort cmp rounds cnt f) :=
  buildHeap_rearranged.trans (sortHeap_rearranged (Nat.le_refl cnt))

theorem TotalPreorder.heapSort_sorted (total : TotalPreorder cmp) (enough : cnt ≤ rounds) :
    ((List.range' 1 cnt).map (heapSort cmp rounds cnt f)).Pairwise fun a b => cmp a b ≤ 0 := by
  have heap := total.heap_buildHeap enough (heap_of_half cmp f cnt)
  have part : PartSorted cmp (buildHeap cmp cnt rounds (cnt / 2) f) cnt cnt :=
    ⟨heap, fun a b _ _ beyond inside => absurd inside (by omega)⟩
  have sorted := (total.partSorted_sortHeap enough part).behind
  apply List.pairwise_map.mpr
  apply (List.pairwise_lt_range').imp_of_mem
  intro a b a_mem b_mem less
  rw [List.mem_range'_1] at a_mem b_mem
  exact sorted a b (by omega) less (by omega) (by omega)

end Sorting

end CS162.Library
