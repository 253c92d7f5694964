import CS162.Library.Transition
import CS162.Malloc.FreeSpec

/-!
Runs of the allocator. The invariant ties the pointers the program holds to the
used blocks of the list; it is preserved by every call whose frees merge
harmlessly.
-/

namespace CS162.Malloc
open CS162.Library Memory

/-- A program that has not allocated yet. -/
def World.fresh (w : World) : Prop :=
  w.live = [] ∧ w.heap.header = 0 ∧ w.heap.brk = w.heap.base ∧ 0 < w.heap.base ∧
    w.heap.brk < 2 ^ 64

def allocator : System World Call := .ofNext World.fresh World.next

/-- Freeing this pointer now would merge harmlessly. -/
def Heap.FreesSafely (h : Heap) (ptr : Nat) : Prop :=
  ∀ x ∈ focus ptr h.blocks, Mergeable x.1 x.2.1 x.2.2

/-- The frees of a call merge harmlessly. -/
def MergesSafely (w : World) : Call → Prop
  | .free ptr => w.heap.FreesSafely ptr
  | .realloc ptr _ _ => w.heap.FreesSafely ptr
  | _ => True

instance (l r : List Block) (b : Block) : Decidable (Mergeable l b r) :=
  inferInstanceAs (Decidable (_ ∧ _))

instance (h : Heap) (ptr : Nat) : Decidable (h.FreesSafely ptr) :=
  inferInstanceAs (Decidable (∀ x ∈ focus ptr h.blocks, Mergeable x.1 x.2.1 x.2.2))

instance (w : World) (c : Call) : Decidable (MergesSafely w c) :=
  match c with
  | .malloc _ _ | .store _ _ => .isTrue trivial
  | .free ptr | .realloc ptr _ _ => inferInstanceAs (Decidable (w.heap.FreesSafely ptr))

/-- What the program may do if it asks for any sizes. -/
def World.permits (w : World) : Call → Prop
  | .malloc size _ => size < 2 ^ 64
  | .free ptr => w.holds ptr
  | .realloc ptr size _ => w.holds ptr ∧ size < 2 ^ 64
  | .store addr _ => ∃ x ∈ w.live, x.1 ≤ addr ∧ addr < x.1 + x.2

/-- The size asked for is an `int`, or there is no memory for it. -/
def SizedCall (w : World) : Call → Prop
  | .malloc size ok | .realloc _ size ok => w.heap.Sized size ok
  | .free _ | .store _ _ => True

instance (h : Heap) (size : Nat) (ok : Bool) : Decidable (h.Sized size ok) :=
  inferInstanceAs (Decidable (_ ∨ _ = none))

instance (w : World) : (c : Call) → Decidable (w.permits c)
  | .malloc .. => inferInstanceAs (Decidable (_ < _))
  | .free _ => inferInstanceAs (Decidable (w.holds _))
  | .realloc .. => inferInstanceAs (Decidable (_ ∧ _))
  | .store addr _ => inferInstanceAs (Decidable (∃ x ∈ w.live, x.1 ≤ addr ∧ addr < x.1 + x.2))

instance (w : World) : (c : Call) → Decidable (SizedCall w c)
  | .malloc size ok | .realloc _ size ok => inferInstanceAs (Decidable (w.heap.Sized size ok))
  | .free _ | .store _ _ => .isTrue trivial

/-- The pointers held are those of the used blocks, each once. -/
structure Owns (bs : List Block) (live : List (Nat × Nat)) : Prop where
  nodup : (live.map Prod.fst).Nodup
  owned : ∀ x ∈ live, ∃ b ∈ bs, b.free = false ∧ contents b.addr = x.1 ∧ x.2 ≤ b.size
  used : ∀ b ∈ bs, b.free = false → contents b.addr ∈ live.map Prod.fst

section Owns
variable {lo hi size p brk brk' ptr : Nat} {l r bs bs' : List Block} {b c : Block}
  {live : List (Nat × Nat)}

theorem disjoint_of_tiles (h : TilesRegion lo bs hi) (hb : b ∈ bs) (hc : c ∈ bs)
    (ne : b.addr ≠ c.addr) : b.stop ≤ c.addr ∨ c.stop ≤ b.addr := by
  obtain ⟨l, r, rfl⟩ := List.append_of_mem hb
  obtain ⟨hl, _, hr⟩ := h.split
  simp only [List.mem_append, List.mem_cons] at hc
  obtain hc | rfl | hc := hc
  · exact .inr (hl.bounds hc).2.2
  · exact absurd rfl ne
  · exact .inl (hr.bounds hc).1

theorem Allocates.block (h : Allocates bs brk size p bs' brk') (some : p ≠ 0) :
    ∃ b ∈ bs', b.free = false ∧ contents b.addr = p ∧ size ≤ b.size := by
  cases h with
  | refuse _ => exact absurd rfl some
  | take l r b here free pos enough tight => exact ⟨{ b with free := false }, by simp, rfl, rfl, enough⟩
  | split l r b here free pos room => exact ⟨⟨b.addr, size, false⟩, by simp, rfl, rfl, Nat.le_refl _⟩
  | grow pos none => exact ⟨⟨brk, size, false⟩, by simp, rfl, rfl, Nat.le_refl _⟩

theorem Allocates.used_iff (h : Allocates bs brk size p bs' brk') (used : c.free = false)
    (ne : contents c.addr ≠ p) : c ∈ bs' ↔ c ∈ bs := by
  have other {d : Block} (hd : contents d.addr = p) : c ≠ d := by
    rintro rfl
    exact ne hd
  have busy {d : Block} (hd : d.free = true) : c ≠ d := by
    rintro rfl
    simp [used] at hd
  cases h with
  | refuse _ => rfl
  | take l r b here free pos enough tight =>
      subst here
      have new : c ≠ { b with free := false } := other rfl
      simp [new, busy free]
  | split l r b here free pos room =>
      subst here
      have new : c ≠ ⟨b.addr, size, false⟩ := other rfl
      have rest : c ≠ ⟨contents b.addr + size, b.size - size - metasize, true⟩ := busy rfl
      simp [new, rest, busy free]
  | grow pos none =>
      have new : c ≠ ⟨brk, size, false⟩ := other rfl
      simp [new]

theorem Allocates.fresh (h : Allocates bs brk size p bs' brk') (tiles : TilesRegion lo bs brk)
    (hc : c ∈ bs) (used : c.free = false) : contents c.addr ≠ p := by
  have free_apart {l r : List Block} {b : Block} (here : bs = l ++ b :: r) (free : b.free = true) :
      contents c.addr ≠ contents b.addr := by
    subst here
    intro same
    have addr : c.addr = b.addr := Nat.add_right_cancel same
    simp only [List.mem_append, List.mem_cons] at hc
    obtain hc | rfl | hc := hc
    · have := apart_of_tiles tiles (.inl hc)
      unfold Apart metasize at this
      omega
    · simp [used] at free
    · have := apart_of_tiles tiles (.inr hc)
      unfold Apart metasize at this
      omega
  cases h with
  | refuse _ =>
      unfold contents metasize
      omega
  | take l r b here free pos enough tight => exact free_apart here free
  | split l r b here free pos room => exact free_apart here free
  | grow pos none =>
      have := (tiles.bounds hc).2.2
      rw [stop_eq] at this
      unfold contents metasize at *
      omega

theorem Owns.allocate (h : Owns bs live) (tiles : TilesRegion lo bs brk)
    (ha : Allocates bs brk size p bs' brk') : Owns bs' (hold live p size) := by
  have keep {b : Block} (hb : b ∈ bs) (used : b.free = false) : b ∈ bs' :=
    (ha.used_iff used (ha.fresh tiles hb used)).mpr hb
  have owned (x : Nat × Nat) (hx : x ∈ live) :
      ∃ b ∈ bs', b.free = false ∧ contents b.addr = x.1 ∧ x.2 ≤ b.size := by
    obtain ⟨b, hb, used, rest⟩ := h.owned x hx
    exact ⟨b, keep hb used, used, rest⟩
  by_cases null : p = 0
  · subst null
    refine ⟨h.nodup, owned, fun b hb used => h.used b ?_ used⟩
    exact (ha.used_iff used (by unfold contents metasize; omega)).mp hb
  · simp only [hold, null, if_false]
    refine ⟨?_, fun x hx => ?_, fun b hb used => ?_⟩
    · refine List.nodup_cons.mpr ⟨fun held => ?_, h.nodup⟩
      obtain ⟨x, hx, same⟩ := List.mem_map.mp held
      obtain ⟨b, hb, used, here, _⟩ := h.owned x hx
      exact ha.fresh tiles hb used (here.trans same)
    · cases hx with
      | head => exact ha.block null
      | tail _ hx => exact owned x hx
    · by_cases same : contents b.addr = p
      · simp [same]
      · exact List.mem_cons_of_mem _ (h.used b ((ha.used_iff used same).mp hb) used)

theorem mem_released (used : c.free = false) : c ∈ released l b r ↔ c ∈ l ∨ c ∈ r := by
  have busy (bs : List Block) (free : ∀ d ∈ bs, d.free = true) : c ∉ bs := by
    intro hc
    exact absurd (free c hc) (by simp [used])
  have new : c ≠ merged (freeBefore l) b (freeAfter r) := by
    rintro rfl
    simp [merged] at used
  have left : c ∈ l ↔ c ∈ usedBefore l := by
    conv_lhs => rw [← before_eq l]
    simp [busy _ fun d hd => free_of_freeBefore hd]
  have right : c ∈ r ↔ c ∈ usedAfter r := by
    conv_lhs => rw [← after_eq r]
    simp [busy _ fun d hd => free_of_freeAfter hd]
  simp [released, left, right, new]

theorem Owns.release (h : Owns (l ++ b :: r) live) (tiles : TilesRegion lo (l ++ b :: r) hi)
    (here : contents b.addr = ptr) :
    Owns (released l b r) (live.filter fun x => x.1 ≠ ptr) := by
  refine ⟨h.nodup.sublist ((List.filter_sublist ..).map _), fun x hx => ?_, fun c hc used => ?_⟩
  · obtain ⟨hx, ne⟩ := List.mem_filter.mp hx
    obtain ⟨c, hc, used, at_x, rest⟩ := h.owned x hx
    refine ⟨c, (mem_released used).mpr ?_, used, at_x, rest⟩
    simp only [List.mem_append, List.mem_cons] at hc
    obtain hc | rfl | hc := hc
    · exact .inl hc
    · simp [← at_x, here] at ne
    · exact .inr hc
  · have inside := (mem_released used).mp hc
    have held := h.used c (by simpa using inside.imp_right .inr) used
    obtain ⟨x, hx, same⟩ := List.mem_map.mp held
    refine List.mem_map.mpr ⟨x, List.mem_filter.mpr ⟨hx, ?_⟩, same⟩
    have := apart_of_tiles tiles inside
    unfold Apart metasize at this
    simp only [same, ← here, contents, ne_eq, decide_eq_true_eq]
    omega

end Owns

/-- What holds between the calls of a program, for the block list `bs`. -/
structure Sound (w : World) (bs : List Block) : Prop where
  represents : Represents w.heap bs
  owns : Owns bs w.live

/-- What the calls do to the block list and the break. -/
inductive ListStep : List Block × Nat → List Block × Nat → Prop where
  | allocate {bs bs' : List Block} {brk brk' size p : Nat} (h : Allocates bs brk size p bs' brk') :
      ListStep (bs, brk) (bs', brk')
  | release {l r : List Block} {b : Block} {brk : Nat} (h : Mergeable l b r) :
      ListStep (l ++ b :: r, brk) (released l b r, brk)

section Steps
variable {w w' : World} {h h' : Heap} {bs : List Block} {b : Block} {c : Call} {ptr size a : Nat}
  {ok : Bool} {bytes : List UInt8}

theorem Represents.write (hr : Represents h bs) (hb : b ∈ bs) (lower : contents b.addr ≤ a)
    (upper : a + bytes.length ≤ b.stop) :
    Represents { h with mem := h.mem.writeBytes a bytes } bs := by
  refine ⟨hr.tiles, hr.linked.congr fun c hc => writeBytes_sameOff.sameOn ?_, hr.header, hr.base,
    hr.brk, hr.sizes⟩
  by_cases same : b.addr = c.addr
  · unfold contents at lower
    omega
  · have := disjoint_of_tiles hr.tiles hb hc same
    rw [stop_eq c] at this
    unfold contents at lower
    omega

theorem Sound.malloc (hs : Sound w bs) (ok : Bool) (sized : w.heap.Sized size ok) :
    ∃ h' p bs', mmMalloc w.heap size ok = some (h', p) ∧ h'.base = w.heap.base ∧
      Allocates bs w.heap.brk size p bs' h'.brk ∧ Sound ⟨h', hold w.live p size⟩ bs' := by
  obtain ⟨h', p, bs', run, base, after, effect⟩ := mmMalloc_spec hs.represents ok sized
  exact ⟨h', p, bs', run, base, effect, after, hs.owns.allocate hs.represents.tiles effect⟩

theorem Heap.Sized.congr (h' : Heap) (sized : h.Sized size ok) (base : h'.base = h.base)
    (brk : h'.brk = h.brk) : h'.Sized size ok := by
  refine sized.imp_right fun refused => ?_
  simp only [Heap.grown, sbrk, ite_eq_right_iff, reduceCtorEq, imp_false] at refused ⊢
  rwa [base, brk]

theorem Sound.free (hs : Sound w bs) (safe : w.heap.FreesSafely ptr) :
    ∃ h' bs', mmFree w.heap ptr = some h' ∧ h'.base = w.heap.base ∧ h'.brk = w.heap.brk ∧
      Sound ⟨h', w.drop ptr⟩ bs' ∧
      Relation.ReflTransGen ListStep (bs, w.heap.brk) (bs', h'.brk) := by
  rw [Heap.FreesSafely, hs.represents.blocks_eq] at safe
  cases hf : focus ptr bs with
  | none =>
      have unheld : ptr ∉ w.live.map Prod.fst := by
        intro held
        obtain ⟨x, hx, same⟩ := List.mem_map.mp held
        obtain ⟨b, hb, used, here, _⟩ := hs.owns.owned x hx
        exact focus_eq_none hf hb used (here.trans same)
      have all : w.drop ptr = w.live := by
        refine List.filter_eq_self.mpr fun x hx => ?_
        have : x.1 ≠ ptr := fun same => unheld (same ▸ List.mem_map_of_mem hx)
        simpa using this
      refine ⟨w.heap, bs, mmFree_miss hs.represents hf, rfl, rfl, ?_, .refl⟩
      rw [all]
      exact hs
  | some x =>
      obtain ⟨l, b, r⟩ := x
      have merge := safe _ hf
      obtain ⟨rfl, used, here⟩ := focus_eq_some hf
      obtain ⟨m', run, after, _⟩ := mmFree_hit hs.represents hf merge
      exact ⟨_, _, run, rfl, rfl, ⟨after, hs.owns.release hs.represents.tiles here⟩,
        .single (.release merge)⟩

/-- One call: the invariant is kept, and the list changes by the steps of a free
and an allocation. -/
theorem Sound.call (hs : Sound w bs) (permits : w.permits c) (sized : SizedCall w c)
    (safe : MergesSafely w c) (run : w.call c = some w') :
    ∃ bs', Sound w' bs' ∧ w'.heap.base = w.heap.base ∧
      Relation.ReflTransGen ListStep (bs, w.heap.brk) (bs', w'.heap.brk) := by
  cases c with
  | malloc size ok =>
      obtain ⟨h', p, bs', result, base, effect, after⟩ := hs.malloc ok sized
      simp only [World.call, result, Option.map_some, Option.some.injEq] at run
      subst run
      exact ⟨bs', after, base, .single (.allocate effect)⟩
  | free ptr =>
      obtain ⟨h', bs', result, base, _, after, steps⟩ := hs.free safe
      simp only [World.call, result, Option.map_some, Option.some.injEq] at run
      subst run
      exact ⟨bs', after, base, steps⟩
  | realloc ptr size ok =>
      obtain ⟨h₁, bs₁, freed, base₁, brk₁, sound₁, steps⟩ := hs.free safe
      obtain ⟨h₂, p, bs₂, result, base₂, effect, sound₂⟩ :=
        sound₁.malloc ok (Heap.Sized.congr h₁ sized base₁ brk₁)
      obtain ⟨⟨h', nptr⟩, result', rfl⟩ := Option.map_eq_some_iff.mp run
      simp only [mmRealloc] at result'
      split at result'
      next null =>
        -- The null pointer: freeing it did nothing.
        have : h₁ = w.heap := by
          simpa [null, mmFree, eq_comm] using freed
        subst this
        cases result.symm.trans result'
        exact ⟨bs₂, sound₂, base₂, steps.tail (.allocate effect)⟩
      next =>
        simp only [freed, Option.bind_eq_bind, Option.bind_some] at result'
        split at result'
        next =>
          cases result'
          exact ⟨bs₁, sound₁, base₁, steps⟩
        next =>
          simp only [result, Option.bind_some] at result'
          split at result'
          next => cases result'
          next some =>
            cases result'
            obtain ⟨b, hb, _, here, room⟩ := effect.block some
            refine ⟨bs₂, ⟨sound₂.represents.write hb (Nat.le_of_eq here) ?_, sound₂.owns⟩,
              base₂.trans base₁, steps.tail (.allocate effect)⟩
            unfold contents at here
            rw [stop_eq, readBytes_length]
            omega
  | store addr byte =>
      obtain ⟨x, hx, lower, upper⟩ := permits
      obtain ⟨b, hb, _, here, room⟩ := hs.owns.owned x hx
      simp only [World.call, Option.some.injEq] at run
      subst run
      refine ⟨bs, ⟨hs.represents.write hb (by omega) ?_, hs.owns⟩, rfl, .refl⟩
      unfold contents at here
      rw [stop_eq]
      simp only [List.length_singleton]
      omega

theorem World.permits_of_admits (admits : w.admits c) : w.permits c ∧ SizedCall w c := by
  have small {size : Nat} (fits : Fits size) : size < 2 ^ 64 := by
    rw [Fits, intMax] at fits
    omega
  cases c with
  | malloc size ok => exact ⟨small admits, Fits.sized admits ..⟩
  | free ptr => exact ⟨admits, trivial⟩
  | realloc ptr size ok => exact ⟨⟨admits.1, small admits.2⟩, admits.2.sized ..⟩
  | store addr byte => exact ⟨admits, trivial⟩

theorem Sound.next (hs : Sound w bs) (safe : MergesSafely w c) (run : w.next c = some w') :
    ∃ bs', Sound w' bs' ∧ w'.heap.base = w.heap.base ∧
      Relation.ReflTransGen ListStep (bs, w.heap.brk) (bs', w'.heap.brk) := by
  simp only [World.next] at run
  split at run
  next admits =>
    obtain ⟨permits, sized⟩ := World.permits_of_admits admits
    exact hs.call permits sized safe run
  next => cases run

theorem sound_of_fresh (h : w.fresh) : Sound w [] := by
  obtain ⟨none, header, brk, base, limit⟩ := h
  refine ⟨⟨brk.symm, trivial, header, base, limit, by simp⟩, ?_⟩
  rw [none]
  exact ⟨List.nodup_nil, by simp, by simp⟩

theorem reachable_sound (h : (allocator.under MergesSafely).Reachable w) : ∃ bs, Sound w bs := by
  refine h.invariant (I := fun w => ∃ bs, Sound w bs) (fun w hw => ⟨[], sound_of_fresh hw⟩) ?_
  rintro w c w' ⟨bs, sound⟩ ⟨run, safe⟩
  obtain ⟨bs', after, _⟩ := sound.next safe run
  exact ⟨bs', after⟩

/-- A call the program may make returns, unless `mm_realloc` gets no memory. -/
theorem Sound.returns (hs : Sound w bs) (admits : w.admits c) (safe : MergesSafely w c) :
    (∃ w', w.next c = some w') ∨
    ∃ ptr size ok h₁ h₂, c = .realloc ptr size ok ∧ mmFree w.heap ptr = some h₁ ∧
      mmMalloc h₁ size ok = some (h₂, 0) := by
  simp only [World.next, if_pos admits]
  cases c with
  | malloc size ok =>
      obtain ⟨h', p, bs', result, _⟩ := hs.malloc ok (admits.sized ..)
      exact .inl ⟨_, by rw [World.call, result]; rfl⟩
  | free ptr =>
      obtain ⟨h', bs', result, _⟩ := hs.free safe
      exact .inl ⟨_, by rw [World.call, result]; rfl⟩
  | realloc ptr size ok =>
      obtain ⟨_, fits⟩ := admits
      obtain ⟨h₁, bs₁, freed, _, _, sound₁, _⟩ := hs.free safe
      obtain ⟨h₂, p, bs₂, result, _⟩ := sound₁.malloc ok (fits.sized ..)
      by_cases failed : p = 0
      · subst failed
        exact .inr ⟨ptr, size, ok, h₁, h₂, rfl, freed, result⟩
      · refine .inl ?_
        simp only [World.call, mmRealloc]
        by_cases null : ptr = 0
        · have : h₁ = w.heap := by
            simpa [null, mmFree, eq_comm] using freed
          subst this
          exact ⟨_, by rw [if_pos null, result]; rfl⟩
        · by_cases none : size = 0
          · exact ⟨_, by rw [if_neg null, freed]; simp [none]; rfl⟩
          · exact ⟨_, by rw [if_neg null, freed]; simp [none, result, failed]; rfl⟩
  | store addr byte => exact .inl ⟨_, rfl⟩

/-- The heap is a tiling list of blocks, linked both ways; every pointer the
program holds is the contents of a used block of at least the size asked for,
and no two of these blocks overlap. -/
def WellFormed (w : World) : Prop :=
  ∃ bs, Represents w.heap bs ∧
    (∀ x ∈ w.live, ∃ b ∈ bs, b.free = false ∧ contents b.addr = x.1 ∧ x.2 ≤ b.size ∧
      w.heap.base ≤ b.addr ∧ b.stop ≤ w.heap.brk) ∧
    w.live.Pairwise fun x y => ∀ b ∈ bs, ∀ c ∈ bs, contents b.addr = x.1 → contents c.addr = y.1 →
      b.stop ≤ c.addr ∨ c.stop ≤ b.addr

theorem wellFormed_of_sound (hs : Sound w bs) : WellFormed w := by
  refine ⟨bs, hs.represents, fun x hx => ?_, ?_⟩
  · obtain ⟨b, hb, used, here, room⟩ := hs.owns.owned x hx
    obtain ⟨lower, _, upper⟩ := hs.represents.tiles.bounds hb
    exact ⟨b, hb, used, here, room, lower, upper⟩
  · have distinct := List.pairwise_map.mp hs.owns.nodup
    refine distinct.imp fun ne b hb c hc at_x at_y => ?_
    refine disjoint_of_tiles hs.represents.tiles hb hc fun same => ne ?_
    rw [← at_x, ← at_y, same]

/-- In every run whose frees merge nothing, or merge at the end of the heap into
a size an `int` holds, the heap is well formed after every call. -/
theorem wellFormed_of_mergesSafely (h : (allocator.under MergesSafely).Reachable w) :
    WellFormed w := by
  obtain ⟨bs, sound⟩ := reachable_sound h
  exact wellFormed_of_sound sound

end Steps

/-- A program with an empty heap at 4096. -/
def World.empty : World := ⟨⟨fun _ => 0, 0, 4096, 4096⟩, []⟩

/-- A block split, and two frees that merge at the end of the heap. -/
theorem wellFormed_of_merge_at_end :
    ∃ w, (w.heap.blocks == [⟨4096, 8, false⟩, ⟨4128, 96, true⟩]) = true ∧ WellFormed w := by
  obtain ⟨w, hr, hp⟩ := System.exists_reachable_under World.fresh World.next MergesSafely
    (fun w => w.heap.blocks == [⟨4096, 8, false⟩, ⟨4128, 96, true⟩]) (s := .empty)
    ⟨rfl, rfl, rfl, by decide, by decide⟩
    [.malloc 40 true, .free 4120, .malloc 8 true, .malloc 64 true, .free 4184] (by decide +kernel)
  exact ⟨w, hp, wellFormed_of_mergesSafely hr⟩

/-- Three blocks, the first two freed: the third still links back to the second,
which is inside the merged block. -/
theorem wellFormed_fails_on_merge_before_used_block :
    ¬ ∀ w, allocator.Reachable w → WellFormed w := by
  intro all
  obtain ⟨w, hr, hp⟩ := System.exists_reachable World.fresh World.next
    (fun w => w.heap.blocks == [⟨4096, 40, true⟩, ⟨4160, 8, false⟩] &&
      get .prev w.heap.mem 4160 == 4128) (s := .empty) ⟨rfl, rfl, rfl, by decide, by decide⟩
    [.malloc 8 true, .malloc 8 true, .malloc 8 true, .free 4120, .free 4152] (by decide +kernel)
  simp only [Bool.and_eq_true, beq_iff_eq] at hp
  obtain ⟨bs, represents, _⟩ := all w hr
  have linked := represents.linked
  rw [← represents.blocks_eq, hp.1] at linked
  have : get .prev w.heap.mem 4160 = 4096 := linked.2.1.prev
  rw [hp.2] at this
  cases this

end CS162.Malloc
