import CS162.Malloc.Invariant
import Mathlib.Data.List.Chain

/-!
Coalescing: no two neighbours are both free, and a heap with nothing live is one
free block that serves an allocation of its whole size.
-/

namespace CS162.Malloc
open CS162.Library Memory

def Coalesced (bs : List Block) : Prop := bs.IsChain fun b c => ¬ (b.free = true ∧ c.free = true)

section Lists
variable {l r bs bs' : List Block} {b c : Block} {lo hi brk brk' size p : Nat}

theorem coalesced_split : Coalesced (l ++ b :: r) ↔ Coalesced l ∧ Coalesced r ∧
    (∀ c ∈ l.getLast?, ¬ (c.free = true ∧ b.free = true)) ∧
    ∀ c ∈ r.head?, ¬ (b.free = true ∧ c.free = true) := by
  simp only [Coalesced, List.isChain_append, List.isChain_cons, List.head?_cons, Option.mem_some_iff,
    forall_eq']
  tauto

theorem coalesced_used (used : b.free = false) :
    Coalesced (l ++ b :: r) ↔ Coalesced l ∧ Coalesced r := by
  simp [coalesced_split, used]

theorem Coalesced.allocate (h : Coalesced bs) (ha : Allocates bs brk size p bs' brk') :
    Coalesced bs' := by
  cases ha with
  | refuse why => exact h
  | take l r b here free pos enough tight =>
      subst here
      obtain ⟨hl, hr, _⟩ := coalesced_split.mp h
      exact (coalesced_used rfl).mpr ⟨hl, hr⟩
  | split l r b here free pos room =>
      subst here
      obtain ⟨hl, hr, _, after⟩ := coalesced_split.mp h
      refine (coalesced_used rfl).mpr ⟨hl, List.isChain_cons.mpr ⟨fun c hc => ?_, hr⟩⟩
      rw [free] at after
      exact after c hc
  | grow pos none => exact (coalesced_used rfl).mpr ⟨h, List.isChain_nil⟩

theorem Coalesced.release (h : Coalesced (l ++ b :: r)) : Coalesced (released l b r) := by
  obtain ⟨hl, hr, _⟩ := coalesced_split.mp h
  rw [← before_eq l] at hl
  rw [← after_eq r] at hr
  refine coalesced_split.mpr ⟨hl.left_of_append, hr.right_of_append, fun c hc => ?_, fun c hc => ?_⟩
  · simp [used_of_usedBefore hc]
  · simp [used_of_usedAfter hc]

theorem not_both_free_of_adjacent (h : Coalesced bs) (tiles : TilesRegion lo bs hi) (hb : b ∈ bs)
    (hc : c ∈ bs) (adjacent : b.stop = c.addr) : ¬ (b.free = true ∧ c.free = true) := by
  obtain ⟨l, r, rfl⟩ := List.append_of_mem hb
  obtain ⟨tl, _, tr⟩ := tiles.split
  obtain ⟨_, _, _, after⟩ := coalesced_split.mp h
  rw [stop_eq] at adjacent
  simp only [List.mem_append, List.mem_cons] at hc
  obtain hc | rfl | hc := hc
  · have := (tl.bounds hc).2.2
    rw [stop_eq] at this
    unfold metasize at *
    omega
  · unfold metasize at adjacent
    omega
  · cases r with
    | nil => cases hc
    | cons d r =>
        cases hc with
        | head => exact after c rfl
        | tail _ hc =>
            have first := tr.1
            have := (tr.2.2.bounds hc).1
            rw [stop_eq] at this first
            unfold metasize at *
            omega

/-- Only one block fits a list of free blocks no two of which are neighbours. -/
theorem eq_singleton_of_free (h : Coalesced bs) (tiles : TilesRegion lo bs hi)
    (free : ∀ b ∈ bs, b.free = true) (some : bs ≠ []) :
    bs = [⟨lo, hi - lo - metasize, true⟩] := by
  match bs, some with
  | [b], _ =>
      obtain ⟨rfl, _, rfl⟩ := tiles
      have := free b List.mem_cons_self
      have room : b.stop - b.addr - metasize = b.size := by
        rw [stop_eq]
        omega
      rw [room, ← this]
  | b :: c :: bs, _ =>
      have := (List.isChain_cons_cons.mp h).1
      exact absurd ⟨free b (by simp), free c (by simp)⟩ this

end Lists

/-- The list is coalesced and the break has moved by more than a header, if at all. -/
structure Compact (base : Nat) (s : List Block × Nat) : Prop where
  coalesced : Coalesced s.1
  room : s.1 ≠ [] → base + metasize < s.2

section Runs
variable {w : World} {base : Nat} {s s' : List Block × Nat}

theorem Compact.step (h : Compact base s) (below : base ≤ s.2) (step : ListStep s s') :
    Compact base s' ∧ base ≤ s'.2 := by
  cases step with
  | allocate ha =>
      refine ⟨⟨h.coalesced.allocate ha, ?_⟩, ?_⟩
      · cases ha with
        | refuse why => exact h.room
        | take l r b here free pos enough tight => exact fun _ => h.room (by simp [here])
        | split l r b here free pos room => exact fun _ => h.room (by simp [here])
        | grow pos none =>
            intro _
            simp only [contents] at below ⊢
            omega
      · cases ha with
        | grow pos none =>
            simp only [contents] at below ⊢
            omega
        | _ => exact below
  | release merge => exact ⟨⟨h.coalesced.release, fun _ => h.room (by simp)⟩, below⟩

theorem Compact.steps (h : Compact base s) (below : base ≤ s.2)
    (steps : Relation.ReflTransGen ListStep s s') : Compact base s' := by
  have : Compact base s' ∧ base ≤ s'.2 := by
    induction steps with
    | refl => exact ⟨h, below⟩
    | tail _ step ih => exact ih.1.step ih.2 step
  exact this.1

theorem reachable_compact (h : (allocator.under MergesSafely).Reachable w) :
    ∃ bs, Sound w bs ∧ Compact w.heap.base (bs, w.heap.brk) := by
  refine h.invariant (I := fun w => ∃ bs, Sound w bs ∧ Compact w.heap.base (bs, w.heap.brk))
    (fun w hw => ⟨[], sound_of_fresh hw, List.isChain_nil, fun some => absurd rfl some⟩) ?_
  rintro w c w' ⟨bs, sound, compact⟩ ⟨run, safe⟩
  obtain ⟨bs', after, base, steps⟩ := sound.next safe run
  refine ⟨bs', after, ?_⟩
  rw [base]
  exact compact.steps sound.represents.tiles.le steps

end Runs

/-- No two adjacent blocks are both free. With nothing live, a heap that has
grown is one free block of everything but a header, and an allocation of its
size gets it without moving the break. -/
structure CoalescesFully (w : World) : Prop where
  adjacent : ∀ b ∈ w.heap.blocks, ∀ c ∈ w.heap.blocks, b.stop = c.addr →
    ¬ (b.free = true ∧ c.free = true)
  whole : w.live = [] → w.heap.base < w.heap.brk →
    w.heap.blocks = [⟨w.heap.base, w.heap.brk - w.heap.base - metasize, true⟩] ∧
    ∀ ok, ∃ h', mmMalloc w.heap (w.heap.brk - w.heap.base - metasize) ok =
      some (h', contents w.heap.base) ∧ h'.brk = w.heap.brk

section Coalesced
variable {w : World} {bs : List Block}

theorem coalescesFully_of_compact (hs : Sound w bs) (hc : Compact w.heap.base (bs, w.heap.brk)) :
    CoalescesFully w := by
  have tiles := hs.represents.tiles
  constructor
  · intro b hb c hc' adjacent
    rw [hs.represents.blocks_eq] at hb hc'
    exact not_both_free_of_adjacent hc.coalesced tiles hb hc' adjacent
  · intro idle grown
    have some : bs ≠ [] := by
      rintro rfl
      exact absurd tiles (Nat.ne_of_lt grown)
    have free (b : Block) (hb : b ∈ bs) : b.free = true := by
      by_contra used
      have := hs.owns.used b hb (by simpa using used)
      simp [idle] at this
    have one : bs = [⟨w.heap.base, w.heap.brk - w.heap.base - metasize, true⟩] :=
      eq_singleton_of_free hc.coalesced tiles free some
    refine ⟨hs.represents.blocks_eq.trans one, fun ok => ?_⟩
    have size : (w.heap.brk - w.heap.base - metasize : Nat) ≠ 0 := by
      have := hc.room some
      simp only at this
      omega
    obtain ⟨m', _, b, hb, run, _⟩ := mmMalloc_found hs.represents (Nat.pos_of_ne_zero size)
      ⟨_, one ▸ List.mem_singleton_self _, rfl, Nat.le_refl _⟩ ok
    rw [one, List.mem_singleton] at hb
    subst hb
    exact ⟨_, run, rfl⟩

/-- In every run whose frees merge nothing, or merge at the end of the heap into
a size an `int` holds, coalescing is complete after every call. -/
theorem coalescesFully_of_mergesSafely (h : (allocator.under MergesSafely).Reachable w) :
    CoalescesFully w := by
  obtain ⟨bs, sound, compact⟩ := reachable_compact h
  exact coalescesFully_of_compact sound compact

end Coalesced

/-- Three blocks freed last to first. -/
theorem coalescesFully_of_frees_backwards :
    ∃ w, (w.live == [] && w.heap.brk == 4192) = true ∧ CoalescesFully w := by
  obtain ⟨w, hr, hp⟩ := System.exists_reachable_under World.fresh World.next MergesSafely
    (fun w => w.live == [] && w.heap.brk == 4192) (s := .empty) ⟨rfl, rfl, rfl, by decide, by decide⟩
    [.malloc 8 true, .malloc 8 true, .malloc 8 true, .free 4184, .free 4152, .free 4120]
    (by decide +kernel)
  exact ⟨w, hp, coalescesFully_of_mergesSafely hr⟩

/-- The same blocks freed first to last: the third follows its stale link into
the block already merged and counts it twice, 136 bytes in a region of 96. -/
theorem coalescesFully_fails_on_frees_forwards :
    ¬ ∀ w, allocator.Reachable w → CoalescesFully w := by
  intro all
  obtain ⟨w, hr, hp⟩ := System.exists_reachable World.fresh World.next
    (fun w => w.live == [] && w.heap.base == 4096 && w.heap.brk == 4192 &&
      w.heap.blocks == [⟨4096, 136, true⟩]) (s := .empty) ⟨rfl, rfl, rfl, by decide, by decide⟩
    [.malloc 8 true, .malloc 8 true, .malloc 8 true, .free 4120, .free 4152, .free 4184]
    (by decide +kernel)
  simp only [Bool.and_eq_true, beq_iff_eq] at hp
  obtain ⟨⟨⟨idle, base⟩, brk⟩, blocks⟩ := hp
  have whole := ((all w hr).whole idle (by rw [base, brk]; decide)).1
  rw [blocks, base, brk] at whole
  exact absurd whole (by decide)

end CS162.Malloc
