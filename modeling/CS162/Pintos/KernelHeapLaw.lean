import Mathlib.Data.List.GetD
import CS162.Pintos.KernelHeapSteps

/-!
The kernel heap over whole runs: blocks in use never meet, every counter counts
its free blocks, and an arena without users has gone back to the page allocator.
No assertion of malloc.c or palloc.c fails on the way.
-/

namespace CS162.Pintos.KernelHeap
open CS162.Library

structure HeapLaw (w : World) : Prop where
  /-- What `block_size` gives of two blocks in use does not overlap. -/
  disjoint : w.live.Pairwise fun x y => ∀ n m, w.heap.blockSize x.ptr = .ok n →
    w.heap.blockSize y.ptr = .ok m → x.ptr + n ≤ y.ptr ∨ y.ptr + m ≤ x.ptr
  /-- It is as much as was asked for, in pages of the heap's own. -/
  inside : ∀ x ∈ w.live, ∃ n, w.heap.blockSize x.ptr = .ok n ∧ x.size ≤ n ∧
    ∀ b, x.ptr ≤ b → b < x.ptr + n → (∃ page, w.heap.Covers page (b / pgSize)) ∧
      w.heap.pool.Used (b / pgSize) ∧ b / pgSize ∉ w.foreign
  counted : ∀ (page : Nat) (a : Arena) (d : Nat) (desc : Desc), w.heap.arena page = some a →
    a.desc = some d → w.heap.descs[d]? = some desc →
    a.freeCnt = (arenaBlocks page desc).countP (fun b => b ∈ desc.freeList) ∧
      ∀ b ∈ arenaBlocks page desc, desc.freeList.count b = if b ∈ w.ptrs then 0 else 1
  /-- An arena has a block in use, free lists hold blocks of arenas only, and the pages in
  use are those of arenas and of other parts of the kernel. -/
  returned : (∀ (page : Nat) (a : Arena) (d : Nat) (desc : Desc), w.heap.arena page = some a →
      a.desc = some d → w.heap.descs[d]? = some desc → ∃ b ∈ arenaBlocks page desc, b ∈ w.ptrs) ∧
    (∀ (d : Nat) (desc : Desc), w.heap.descs[d]? = some desc → ∀ b ∈ desc.freeList,
      ∃ a, w.heap.arena (b / pgSize) = some a ∧ a.desc = some d) ∧
    ∀ i, w.heap.pool.Used i ↔ i ∈ w.foreign ∨ ∃ page, w.heap.Covers page i

section Pages
variable {h : Heap} {live : List Block} {foreign : List Nat} {full : Option Nat} {page i : Nat}
  {a : Arena} {pool : Pool}

theorem Sound.span_pos (s : Sound h live full) (there : h.arena page = some a) : 0 < a.span := by
  rw [Arena.span]
  split
  next large => exact (s.big page a there large).1
  next => exact Nat.zero_lt_one

theorem Sound.covers_self (s : Sound h live full) (there : h.arena page = some a) :
    h.Covers page page :=
  ⟨a, there, Nat.le_refl _, Nat.lt_add_of_pos_right (s.span_pos there)⟩

theorem Consistent.no_arena (c : Consistent ⟨h, live, foreign⟩) (free : ¬ h.pool.Used page) :
    h.arena page = none := by
  by_contra some
  obtain ⟨a, there⟩ := Option.ne_none_iff_exists'.mp some
  exact free (c.shares.used_of_held (c.sound.covers_self there))

theorem covers_setArena (gone : h.arena page = none) (j r : Nat) :
    (h.setArena page (some a)).Covers j r ↔
      j = page ∧ (page ≤ r ∧ r < page + a.span) ∨ h.Covers j r := by
  rw [Heap.Covers, Heap.Covers, setArena_get]
  split
  next same => simp [same, gone]
  next other => simp [other]

theorem covers_dropArena (j r : Nat) :
    (h.setArena page none).Covers j r ↔ j ≠ page ∧ h.Covers j r := by
  rw [Heap.Covers, Heap.Covers, setArena_get]
  split
  next same => simp [same]
  next other => simp [other]

theorem covers_iff (there : h.arena page = some a) (i : Nat) :
    h.Covers page i ↔ page ≤ i ∧ i < page + a.span := by
  simp [Heap.Covers, there]

end Pages

section Calls
variable {h : Heap} {live : List Block} {foreign : List Nat} {size d page : Nat} {desc : Desc}

theorem Consistent.mallocBig (c : Consistent ⟨h, live, foreign⟩) (some_bytes : 0 < size)
    (fits : size + arenaSize < 2 ^ 32) :
    ∃ result, h.mallocBig size = .ok result ∧
      Consistent (World.add ⟨h, live, foreign⟩ result size) := by
  simp only [Heap.mallocBig]
  by_cases wraps : size + arenaSize + pgSize - 1 < 2 ^ 32
  · have bound : pgSize * ((size + arenaSize + pgSize - 1) % 2 ^ 32 / pgSize) < 2 ^ 32 ∧
        size + arenaSize ≤ pgSize * ((size + arenaSize + pgSize - 1) % 2 ^ 32 / pgSize) ∧
        0 < (size + arenaSize + pgSize - 1) % 2 ^ 32 / pgSize := by
      rw [Nat.mod_eq_of_lt wraps]
      simp only [pgSize, arenaSize] at *
      omega
    generalize (size + arenaSize + pgSize - 1) % 2 ^ 32 / pgSize = cnt at bound ⊢
    obtain ⟨bounded, enough, pages⟩ := bound
    obtain none | ⟨page, pool, got, pos, free, used⟩ :=
      h.pool.pallocGetMultiple_spec (Nat.pos_iff_ne_zero.mp pages)
    · rw [none]
      exact ⟨_, rfl, c⟩
    · rw [got]
      have gone := c.no_arena (free page (Nat.le_refl _) (by omega))
      refine ⟨_, rfl, (c.sound.withPool pool).newBig gone pos pages bounded enough, ?_⟩
      refine c.shares.take (i := page) (fun r run => free r run.1 run.2) (fun j r => ?_) used
      exact covers_setArena gone j r
  · have none : (size + arenaSize + pgSize - 1) % 2 ^ 32 / pgSize = 0 := by
      simp only [pgSize, arenaSize] at *
      omega
    rw [none]
    exact ⟨_, rfl, c⟩

theorem Consistent.refill (c : Consistent ⟨h, live, foreign⟩) (found : h.descs[d]? = some desc) :
    (∃ h', h.refill d = .ok (false, h') ∧ Consistent ⟨h', live, foreign⟩) ∨
      ∃ h' desc' b list full, h.refill d = .ok (true, h') ∧ Sound h' live full ∧
        Shares (· ∈ foreign) h'.Covers h'.pool.Used ∧ h'.descs[d]? = some desc' ∧
        desc'.blockSize = desc.blockSize ∧ desc'.freeList = b :: list ∧
        ∀ q, full = some q → q = b / pgSize := by
  simp only [Heap.refill, descAt_eq found, bind, Except.bind]
  by_cases empty : desc.freeList = []
  · rw [if_pos empty]
    obtain none | ⟨page, pool, got, pos, free, used⟩ :=
      h.pool.pallocGetMultiple_spec Nat.one_ne_zero
    · rw [none]
      exact .inl ⟨_, rfl, c⟩
    · rw [got]
      have gone := c.no_arena (free page (Nat.le_refl _) (by omega))
      obtain ⟨blocks, _, _⟩ := c.sound.fits d desc found
      obtain ⟨b, list, first⟩ : ∃ b list, arenaBlocks page desc = b :: list := by
        refine List.exists_cons_of_length_pos ?_
        simpa [arenaBlocks] using blocks
      refine .inr ⟨_, _, b, list, some page, rfl,
        (c.sound.withPool pool).newArena found empty gone pos, ?_, setList_self found _, rfl, first,
        fun q eq => ?_⟩
      · refine c.shares.take (i := page) (fun r run => free r run.1 run.2) (fun j r => ?_) used
        exact covers_setArena gone j r
      · have inside : b ∈ arenaBlocks page desc := first ▸ List.mem_cons_self
        rw [((c.sound.mem_arenaBlocks found).mp inside).1]
        exact (Option.some.inj eq).symm
  · rw [if_neg empty]
    obtain ⟨b, list, first⟩ := List.exists_cons_of_ne_nil empty
    exact .inr ⟨h, desc, b, list, none, rfl, c.sound, c.shares, found, rfl, first,
      fun q eq => by cases eq⟩

/-- `malloc` returns a null pointer or a new block in use. -/
theorem Consistent.malloc (c : Consistent ⟨h, live, foreign⟩) (fits : size + arenaSize < 2 ^ 32) :
    ∃ result, h.malloc size = .ok result ∧
      Consistent (World.add ⟨h, live, foreign⟩ result size) := by
  rw [Heap.malloc]
  split
  next => exact ⟨_, rfl, c⟩
  next some_bytes =>
    cases index : h.descs.findIdx? fun desc => desc.blockSize ≥ size with
    | none => exact c.mallocBig (Nat.pos_of_ne_zero some_bytes) fits
    | some d =>
        obtain ⟨inside, enough, _⟩ := List.findIdx?_eq_some_iff_getElem.mp index
        have found : h.descs[d]? = some h.descs[d] := List.getElem?_eq_getElem inside
        have enough : size ≤ h.descs[d].blockSize := by simpa using enough
        simp only
        obtain ⟨h', none, c'⟩ |
            ⟨h', desc, b, list, full, got, s, shares, found', same, first, other⟩ := c.refill found
        · rw [none]
          exact ⟨_, rfl, c'⟩
        · rw [got]
          obtain ⟨h'', taken, sound, pool, covers⟩ :=
            s.takeBlock _ found' first (same ▸ enough) other
          refine ⟨_, taken, sound, ?_⟩
          exact shares.congr covers fun r => by rw [show World.heap _ = h'' from rfl, pool]

theorem Sound.blockSize_small {b : Nat} {full : Option Nat} (s : Sound h live full)
    (found : h.descs[d]? = some desc) (block : h.IsBlock d b) :
    h.blockSize b = .ok desc.blockSize := by
  obtain ⟨a, _, small, arena⟩ := s.blockToArena_small block
  simp only [Heap.blockSize, arena, bind, Except.bind, small, descAt_eq found]
  rfl

/-- `block_size` of a block in use: enough, and inside the block's arena, behind the header. -/
theorem Sound.blockSize {full : Option Nat} (s : Sound h live full) {x : Block} (used : x ∈ live) :
    ∃ n a, h.blockSize x.ptr = .ok n ∧ x.size ≤ n ∧ n + arenaSize < 2 ^ 32 ∧
      h.arena (x.ptr / pgSize) = some a ∧ arenaSize ≤ x.ptr % pgSize ∧
      x.ptr + n ≤ pgSize * (x.ptr / pgSize + a.span) := by
  obtain ⟨d, desc, found, block, enough⟩ | ⟨a, there, big, offset, enough⟩ := s.held x used
  · obtain ⟨a, there, small, _⟩ := s.blockToArena_small block
    have sized := s.blockSize_small found block
    obtain ⟨_, desc', found', i, inside, place⟩ := block
    cases found.symm.trans found'
    obtain ⟨_, large, fits⟩ := s.fits d desc found
    have offset := (arenaToBlock_place (x.ptr / pgSize) inside fits (by omega)).2
    rw [← place] at offset
    have last : (i + 1) * desc.blockSize ≤ desc.blocksPerArena * desc.blockSize :=
      Nat.mul_le_mul_right _ inside
    rw [Nat.add_mul, Nat.one_mul] at last
    have span : a.span = 1 := by rw [Arena.span, small, if_neg (by simp)]
    rw [arenaToBlock] at place
    refine ⟨desc.blockSize, a, sized, enough, ?_, there, by omega, ?_⟩
    · simp only [pgSize, arenaSize] at *
      omega
    · rw [span]
      simp only [pgSize, arenaSize] at *
      omega
  · obtain ⟨pages, bounded⟩ := s.big _ a there big
    have size : (pgSize * a.freeCnt + 2 ^ 32 - x.ptr % pgSize) % 2 ^ 32 =
        pgSize * a.freeCnt - arenaSize := by
      rw [offset]
      simp only [pgSize, arenaSize] at *
      omega
    refine ⟨pgSize * a.freeCnt - arenaSize, a, ?_, by omega, ?_, there, Nat.le_of_eq offset.symm, ?_⟩
    · simp only [Heap.blockSize, s.blockToArena_big there big offset, bind, Except.bind, big, size]
      rfl
    · simp only [pgSize, arenaSize] at *
      omega
    · rw [Arena.span, if_pos big]
      simp only [pgSize, arenaSize] at *
      omega

theorem Sound.freeArena {cnt : Nat} {list : List Nat}
    (s : Sound (h.relist d page list ⟨some d, cnt⟩ (cnt + 1)) live (some page))
    (whole : cnt + 1 = desc.blocksPerArena)
    (found : h.descs[d]? = some desc)
    (used : ∀ i, (h.relist d page list ⟨some d, cnt⟩ (cnt + 1)).Covers page i → h.pool.Used i) :
    ∃ h', (h.relist d page list ⟨some d, cnt⟩ (cnt + 1)).freeArena page d = .ok h' ∧
      Sound h' live none ∧
      (∀ j r, h'.Covers j r ↔
        j ≠ page ∧ (h.relist d page list ⟨some d, cnt⟩ (cnt + 1)).Covers j r) ∧
      ∀ r, h'.pool.Used r ↔
        h.pool.Used r ∧ ¬ (h.relist d page list ⟨some d, cnt⟩ (cnt + 1)).Covers page r := by
  have now : (h.relist d page list ⟨some d, cnt⟩ (cnt + 1)).arena page =
      some ⟨some d, cnt + 1⟩ := by
    rw [Heap.relist, setArena_get, if_pos rfl]
  have owned : (h.relist d page list ⟨some d, cnt⟩ (cnt + 1)).descs[d]? =
      some { desc with freeList := list } := by
    rw [Heap.relist, setArena_descs, setList_self found]
  have pool : (h.relist d page list ⟨some d, cnt⟩ (cnt + 1)).pool = h.pool := rfl
  obtain ⟨rest, removed, sound⟩ := s.dropArena now rfl owned whole
  have mine := covers_iff now
  generalize h.relist d page list ⟨some d, cnt⟩ (cnt + 1) = h₁ at *
  rw [show Arena.span ⟨some d, cnt + 1⟩ = 1 from rfl] at mine
  obtain ⟨pool', freed, kept⟩ := h.pool.pallocFreeMultiple_spec Nat.one_ne_zero
    fun i lower upper => used i ((mine i).mpr ⟨lower, upper⟩)
  have removed : Heap.listRemove list ((List.range desc.blocksPerArena).map
      (arenaToBlock page desc.blockSize)) = .ok rest := removed
  refine ⟨({ h₁ with pool := pool' }.setList d rest).setArena page none, ?_, sound.withPool pool',
    fun j r => covers_dropArena j r, fun r => ?_⟩
  · simp only [Heap.freeArena, descAt_eq owned, bind, Except.bind, removed, pool, freed]
    rfl
  · rw [mine]
    exact kept r

/-- `free` of a block in use, or of a null pointer. -/
theorem Consistent.free (c : Consistent ⟨h, live, foreign⟩) {p : Option Nat}
    (used : ∀ b, p = some b → b ∈ live.map Block.ptr) :
    ∃ h', h.free p = .ok h' ∧
      Consistent ⟨h', live.filter fun x => some x.ptr ≠ p, foreign⟩ := by
  cases p with
  | none =>
      refine ⟨h, rfl, ?_⟩
      rw [List.filter_eq_self.mpr fun x _ => by simp]
      exact c
  | some b =>
      have s := c.sound
      obtain ⟨x, inside, same⟩ := List.mem_map.mp (used b rfl)
      have held := s.held x inside
      rw [same] at held
      obtain ⟨d, desc, found, block, _⟩ | ⟨a, there, big, offset, _⟩ := held
      · obtain ⟨⟨owner, cnt⟩, there, small, arena⟩ := s.blockToArena_small block
        obtain rfl : owner = some d := small
        obtain ⟨put, room⟩ := s.putBlock found block (used b rfl) there rfl
        have room : cnt + 1 ≤ desc.blocksPerArena := room
        have covers := relist_covers (b :: desc.freeList) there rfl (cnt + 1)
        simp only [Heap.free, arena, bind, Except.bind, descAt_eq found]
        by_cases whole : cnt + 1 = desc.blocksPerArena
        · rw [if_pos whole] at put
          rw [if_pos (by omega), if_pos whole]
          obtain ⟨h', freed, sound, gone, used⟩ := put.freeArena whole found
            fun i mine => c.shares.used_of_held ((covers _ i).mp mine)
          refine ⟨h', freed, sound, c.shares.release (i := b / pgSize) (fun j r => ?_) fun r => ?_⟩
          · exact (gone j r).trans (and_congr_right fun _ => covers j r)
          · exact (used r).trans (and_congr_right fun _ => not_congr (covers _ r))
        · rw [if_neg whole] at put
          rw [if_neg (by omega)]
          exact ⟨_, rfl, put, c.shares.congr covers fun _ => Iff.rfl⟩
      · have mine := covers_iff there
        rw [Arena.span, if_pos big] at mine
        obtain ⟨pages, _⟩ := s.big _ a there big
        obtain ⟨pool, freed, kept⟩ := h.pool.pallocFreeMultiple_spec (Nat.pos_iff_ne_zero.mp pages)
          fun i lower upper => c.shares.used_of_held ((mine i).mpr ⟨lower, upper⟩)
        simp only [Heap.free, s.blockToArena_big there big offset, bind, Except.bind, big, freed]
        refine ⟨_, rfl, (s.dropBig there big offset).withPool pool, ?_⟩
        refine c.shares.release (i := b / pgSize) (fun j r => covers_dropArena j r) fun r => ?_
        rw [mine]
        exact kept r

theorem Consistent.calloc (c : Consistent ⟨h, live, foreign⟩) {a b : Nat}
    (fits : a * b + arenaSize < 2 ^ 32) :
    ∃ result, h.calloc a b = .ok result ∧
      Consistent (World.add ⟨h, live, foreign⟩ result (a * b)) := by
  rw [Heap.calloc, Nat.mod_eq_of_lt (by omega)]
  split
  next => exact ⟨_, rfl, c⟩
  next => exact c.malloc fits

/-- `realloc` of a block in use, or of a null pointer. -/
theorem Consistent.realloc (c : Consistent ⟨h, live, foreign⟩) {old : Option Nat}
    (fits : size + arenaSize < 2 ^ 32) (used : ∀ b, old = some b → b ∈ live.map Block.ptr) :
    ∃ result, h.realloc old size = .ok result ∧
      Consistent (if size = 0 ∨ result.1.isSome then
        (World.drop ⟨h, live, foreign⟩ old).add result size
      else World.add ⟨h, live, foreign⟩ result size) := by
  rw [Heap.realloc]
  by_cases empty : size = 0
  · obtain ⟨h', freed, c'⟩ := c.free used
    rw [if_pos empty, freed]
    exact ⟨(none, h'), rfl, by rw [if_pos (.inl empty)]; exact c'⟩
  · obtain ⟨⟨new, h'⟩, got, c'⟩ := c.malloc fits
    rw [if_neg empty, got]
    cases new with
    | none =>
        have none : ¬ (size = 0 ∨ (none : Option Nat).isSome = true) := by simp [empty]
        refine ⟨(.none, h'), by cases old <;> rfl, ?_⟩
        rw [if_neg none]
        exact c'
    | some n =>
        have drops : size = 0 ∨ (some n).isSome = true := .inr rfl
        cases old with
        | none =>
            refine ⟨(some n, h'), rfl, ?_⟩
            rw [if_pos drops, World.drop, List.filter_eq_self.mpr fun x _ => by simp]
            exact c'
        | some b =>
            have both : b ∈ (⟨n, size⟩ :: live).map Block.ptr := List.mem_cons_of_mem _ (used b rfl)
            have apart : n ≠ b := by
              have unique := c'.sound.unique
              rw [World.add, List.map_cons, List.nodup_cons] at unique
              rintro rfl
              exact unique.1 (used n rfl)
            obtain ⟨x, inside, same⟩ := List.mem_map.mp both
            obtain ⟨bytes, _, sized, _⟩ := c'.sound.blockSize inside
            obtain ⟨h'', freed, c''⟩ := Consistent.free c' (p := some b)
              fun b' eq => Option.some.inj eq ▸ both
            refine ⟨(some n, h''), ?_, ?_⟩
            · have sized : h'.blockSize b = .ok bytes := same ▸ sized
              simp only [bind, Except.bind, sized, freed]
              rfl
            · rw [if_pos drops]
              rw [List.filter_cons, if_pos (by simpa using apart)] at c''
              exact c''

end Calls

section Run
variable {w w' : World} {a : Action}

theorem Consistent.perform (c : Consistent w) (fine : w.allows a = true) :
    ∃ w', w.perform a = .ok w' ∧ Consistent w' := by
  obtain ⟨h, live, foreign⟩ := w
  cases a with
  | malloc size =>
      obtain ⟨result, got, c'⟩ := c.malloc (by simpa [World.allows] using fine)
      refine ⟨_, ?_, c'⟩
      simp only [World.perform, got, bind, Except.bind]
      rfl
  | calloc a b =>
      obtain ⟨result, got, c'⟩ := c.calloc (by simpa [World.allows] using fine)
      refine ⟨_, ?_, c'⟩
      simp only [World.perform, got, bind, Except.bind]
      rfl
  | realloc old size =>
      simp only [World.allows, Bool.and_eq_true, decide_eq_true_eq, Option.all_eq_true] at fine
      obtain ⟨result, got, c'⟩ := c.realloc fine.1 fine.2
      refine ⟨_, ?_, c'⟩
      simp only [World.perform, got, bind, Except.bind]
      split <;> rfl
  | free p =>
      simp only [World.allows, decide_eq_true_eq, Option.all_eq_true] at fine
      obtain ⟨h', freed, c'⟩ := c.free fine
      refine ⟨_, ?_, c'⟩
      simp only [World.perform, freed, bind, Except.bind]
      rfl
  | takePages cnt =>
      simp only [World.perform]
      by_cases empty : cnt = 0
      · rw [empty]
        exact ⟨_, rfl, c⟩
      · obtain none | ⟨page, pool, got, _, free, used⟩ := h.pool.pallocGetMultiple_spec empty
        · rw [none]
          exact ⟨_, rfl, c⟩
        · rw [got]
          refine ⟨_, rfl, c.sound.withPool pool, ?_⟩
          refine c.shares.grow (fun r run => free r run.1 run.2) (fun r => ?_) used
          rw [List.mem_append, List.mem_range'_1]
  | givePage page =>
      have theirs : page ∈ foreign := by simpa [World.allows] using fine
      have only {r : Nat} (run : page ≤ r ∧ r < page + 1) : r = page := by omega
      obtain ⟨pool, freed, kept⟩ := h.pool.pallocFreeMultiple_spec Nat.one_ne_zero
        fun i (lower : page ≤ i) upper => only ⟨lower, upper⟩ ▸ c.shares.used_of_base theirs
      simp only [World.perform, freed]
      refine ⟨_, rfl, c.sound.withPool pool, c.shares.shrink (fun r run => ?_) (fun r => ?_) kept⟩
      · exact only run ▸ theirs
      · rw [List.mem_filter]
        refine and_congr_right fun _ => ?_
        simp only [decide_eq_true_eq]
        omega

theorem Consistent.next (c : Consistent w) (step : w.next a = some w') : Consistent w' := by
  rw [World.next] at step
  split at step
  next fine =>
    obtain ⟨w'', done, c'⟩ := c.perform fine
    rw [done] at step
    cases step
    exact c'
  next => cases step

theorem mallocInit_fits : ∀ desc ∈ mallocInit, desc.freeList = [] ∧ 0 < desc.blocksPerArena ∧
    16 ≤ desc.blockSize ∧ arenaSize + desc.blocksPerArena * desc.blockSize ≤ pgSize := by
  decide

theorem started_consistent (start : Started w) : Consistent w := by
  obtain ⟨descs, none, idle, used⟩ := start
  have fits {d : Nat} {desc : Desc} (found : w.heap.descs[d]? = some desc) :=
    mallocInit_fits desc (descs ▸ List.mem_of_getElem? found)
  have unowned {page d : Nat} : w.heap.descOf page ≠ some d := by
    simp [Heap.descOf, none]
  have gone {page : Nat} {a : Arena} : w.heap.arena page ≠ some a := by simp [none]
  refine ⟨?_, ?_⟩
  · constructor
    case fits => exact fun d desc found => (fits found).2
    case owned => exact fun page d owner => absurd owner unowned
    case pages => exact fun page a there => absurd there gone
    case nodup => exact fun d desc found => (fits found).1 ▸ List.nodup_nil
    case listed =>
      intro d desc found b inside
      rw [(fits found).1] at inside
      cases inside
    case counted => exact fun page a d desc there => absurd there gone
    case big => exact fun page a there => absurd there gone
    case unique => exact idle ▸ List.nodup_nil
    case split => exact fun d desc b _ block => absurd block.1 unowned
    case held => exact fun x inside => by rw [idle] at inside; cases inside
  · have uncovered {page i : Nat} : ¬ w.heap.Covers page i := by
      rintro ⟨a, there, _⟩
      exact gone there
    refine ⟨fun i => ?_, fun page i mine => absurd mine uncovered,
      fun page _ i mine => absurd mine uncovered⟩
    rw [used]
    refine (or_iff_left ?_).symm
    rintro ⟨page, mine⟩
    exact uncovered mine

theorem consistent_of_reachable (h : kernelHeap.Reachable w) : Consistent w :=
  h.invariant (fun _ => started_consistent) fun _ _ _ => Consistent.next

end Run

section Law
variable {w : World}

theorem arenaToBlock_apart {page size i j b b' : Nat} (place : b = arenaToBlock page size i)
    (place' : b' = arenaToBlock page size j) (other : b ≠ b') :
    b + size ≤ b' ∨ b' + size ≤ b := by
  rw [arenaToBlock] at place place'
  cases Nat.lt_trichotomy i j with
  | inl lower =>
      have := Nat.mul_le_mul_right size (Nat.succ_le_of_lt lower)
      rw [Nat.succ_mul] at this
      omega
  | inr rest =>
      cases rest with
      | inl same =>
          subst same
          omega
      | inr upper =>
          have := Nat.mul_le_mul_right size (Nat.succ_le_of_lt upper)
          rw [Nat.succ_mul] at this
          omega

/-- Blocks of one page are the places of one descriptor, of different pages in pages apart. -/
theorem Consistent.disjoint (c : Consistent w) {x y : Block} (hx : x ∈ w.live) (hy : y ∈ w.live)
    (other : x.ptr ≠ y.ptr) {n m : Nat} (sizeX : w.heap.blockSize x.ptr = .ok n)
    (sizeY : w.heap.blockSize y.ptr = .ok m) : x.ptr + n ≤ y.ptr ∨ y.ptr + m ≤ x.ptr := by
  obtain ⟨n', a, sized, _, _, there, _, inside⟩ := c.sound.blockSize hx
  cases sizeX.symm.trans sized
  obtain ⟨m', a', sized', _, _, there', _, inside'⟩ := c.sound.blockSize hy
  cases sizeY.symm.trans sized'
  by_cases same : x.ptr / pgSize = y.ptr / pgSize
  · obtain ⟨d, desc, found, block, _⟩ | ⟨_, now, big, offset, _⟩ := c.sound.held x hx
    · obtain ⟨d', _, _, block', _⟩ | ⟨_, now', big', _⟩ := c.sound.held y hy
      · have mine := block.1
        rw [same] at mine
        cases mine.symm.trans block'.1
        cases (c.sound.blockSize_small found block).symm.trans sizeX
        cases (c.sound.blockSize_small found block').symm.trans sizeY
        obtain ⟨_, _, found', i, _, place⟩ := block
        cases found.symm.trans found'
        obtain ⟨_, _, found', j, _, place'⟩ := block'
        cases found.symm.trans found'
        rw [same] at place
        exact arenaToBlock_apart place place' other
      · have mine := block.1
        rw [same, descOf_eq now', big'] at mine
        cases mine
    · obtain ⟨d', _, _, block', _⟩ | ⟨_, now', big', offset', _⟩ := c.sound.held y hy
      · have mine := block'.1
        rw [← same, descOf_eq now, big] at mine
        cases mine
      · refine absurd ?_ other
        rw [← Nat.div_add_mod x.ptr pgSize, ← Nat.div_add_mod y.ptr pgSize, same, offset, offset']
  · have apart {i : Nat} (mine : w.heap.Covers (x.ptr / pgSize) i) :
        ¬ w.heap.Covers (y.ptr / pgSize) i :=
      fun theirs => same (c.shares.injective _ _ i mine theirs)
    have left := apart (c.sound.covers_self there)
    have right : ¬ w.heap.Covers (x.ptr / pgSize) (y.ptr / pgSize) :=
      fun mine => apart mine (c.sound.covers_self there')
    rw [covers_iff there'] at left
    rw [covers_iff there] at right
    simp only [pgSize] at *
    omega

theorem Consistent.inside (c : Consistent w) {x : Block} (hx : x ∈ w.live) :
    ∃ n, w.heap.blockSize x.ptr = .ok n ∧ x.size ≤ n ∧
      ∀ b, x.ptr ≤ b → b < x.ptr + n → (∃ page, w.heap.Covers page (b / pgSize)) ∧
        w.heap.pool.Used (b / pgSize) ∧ b / pgSize ∉ w.foreign := by
  obtain ⟨n, a, sized, enough, _, there, _, last⟩ := c.sound.blockSize hx
  refine ⟨n, sized, enough, fun b lower upper => ?_⟩
  have covered : w.heap.Covers (x.ptr / pgSize) (b / pgSize) := by
    rw [covers_iff there]
    simp only [pgSize] at *
    omega
  exact ⟨⟨_, covered⟩, c.shares.used_of_held covered, c.shares.apart _ _ covered⟩

section Small
variable {page d : Nat} {a : Arena} {desc : Desc}

theorem Consistent.isBlock (c : Consistent w) (there : w.heap.arena page = some a)
    (small : a.desc = some d) (found : w.heap.descs[d]? = some desc) {b : Nat}
    (inside : b ∈ arenaBlocks page desc) : w.heap.IsBlock d b := by
  obtain ⟨same, place⟩ := (c.sound.mem_arenaBlocks found).mp inside
  exact ⟨by rw [same, descOf_eq there, small], desc, found, place⟩

theorem Consistent.counted (c : Consistent w) (there : w.heap.arena page = some a)
    (small : a.desc = some d) (found : w.heap.descs[d]? = some desc) :
    a.freeCnt = (arenaBlocks page desc).countP (fun b => b ∈ desc.freeList) ∧
      ∀ b ∈ arenaBlocks page desc, desc.freeList.count b = if b ∈ w.ptrs then 0 else 1 := by
  have nodup := c.sound.nodup d desc found
  constructor
  · have same : (desc.freeList.filter fun b => b / pgSize == page).Perm
        ((arenaBlocks page desc).filter fun b => b ∈ desc.freeList) := by
      refine (List.perm_ext_iff_of_nodup (nodup.filter _)
        ((c.sound.nodup_arenaBlocks found page).filter _)).mpr fun b => ?_
      rw [List.mem_filter, List.mem_filter, beq_iff_eq, decide_eq_true_eq, and_comm]
      refine and_congr_left fun listed => ?_
      rw [c.sound.mem_arenaBlocks found]
      refine (and_iff_left ?_).symm
      obtain ⟨_, _, found', place⟩ := c.sound.listed d desc found b listed
      cases found.symm.trans found'
      exact place
    rw [(c.sound.counted page a d desc there small found).1, countIn, List.countP_eq_length_filter,
      same.length_eq, List.countP_eq_length_filter]
  · intro b inside
    have split := c.sound.split d desc b found (c.isBlock there small found inside)
    split
    next used => exact List.count_eq_zero.mpr (split.mp used)
    next unused =>
      refine List.count_eq_one_of_mem nodup ?_
      by_contra unlisted
      exact unused (split.mpr unlisted)

theorem Consistent.has_user (c : Consistent w) (there : w.heap.arena page = some a)
    (small : a.desc = some d) (found : w.heap.descs[d]? = some desc) :
    ∃ b ∈ arenaBlocks page desc, b ∈ w.ptrs := by
  by_contra idle
  obtain ⟨count, most, whole⟩ := c.sound.counted page a d desc there small found
  have sub : arenaBlocks page desc ⊆ desc.freeList.filter fun b => b / pgSize == page := by
    intro b inside
    rw [List.mem_filter, beq_iff_eq]
    refine ⟨?_, ((c.sound.mem_arenaBlocks found).mp inside).1⟩
    by_contra unlisted
    exact idle ⟨b, inside,
      (c.sound.split d desc b found (c.isBlock there small found inside)).mpr unlisted⟩
  have long := ((c.sound.nodup_arenaBlocks found page).subperm sub).length_le
  rw [← List.countP_eq_length_filter, ← countIn, ← count] at long
  have : (arenaBlocks page desc).length = desc.blocksPerArena := by simp [arenaBlocks]
  cases whole (by omega)

end Small

theorem Consistent.law (c : Consistent w) : HeapLaw w where
  disjoint := by
    have unique := c.sound.unique
    rw [List.nodup_iff_pairwise_ne, List.pairwise_map] at unique
    refine unique.imp_of_mem fun hx hy other n m => ?_
    exact c.disjoint hx hy other
  inside _ := c.inside
  counted _ _ _ _ := c.counted
  returned := by
    refine ⟨fun _ _ _ _ => c.has_user, fun d desc found b inside => ?_, c.shares.used_iff⟩
    exact Option.bind_eq_some_iff.mp (c.sound.listed d desc found b inside).1

/-- After every run of calls, with pages coming and going in other parts of the kernel. -/
theorem heapLaw_of_reachable (h : kernelHeap.Reachable w) : HeapLaw w :=
  (consistent_of_reachable h).law

end Law

def fourPages : World :=
  ⟨⟨mallocInit, fun _ => none, ⟨1, ⟨List.replicate 4 false⟩, Nat.one_pos⟩⟩, [], []⟩

theorem fourPages_started : Started fourPages := by
  refine ⟨rfl, fun _ => rfl, rfl, fun i => iff_of_false ?_ List.not_mem_nil⟩
  rintro ⟨_, set⟩
  rw [Bitmap.test, List.getD_eq_getElem?_getD] at set
  have clear : (List.replicate 4 false)[i - 1]?.getD false = false :=
    List.getElem?_getD_replicate_default_eq ..
  exact Bool.false_ne_true (clear.symm.trans set)

/-- An arena goes back and its page gets the next one, after a call that finds no page. -/
theorem heapLaw_of_recycling :
    ∃ w, kernelHeap.Reachable w ∧ w.live = [⟨arenaToBlock 1 1024 0, 900⟩] ∧ w.foreign = [4] ∧
      HeapLaw w := by
  obtain ⟨w, reach, ends⟩ := System.exists_reachable Started World.next
    (fun w => w.live == [⟨arenaToBlock 1 1024 0, 900⟩] && w.foreign == [4])
    fourPages_started [.malloc 1000, .malloc 5000, .takePages 1, .calloc 2 1000,
      .free (some (arenaToBlock 1 1024 0)), .realloc (some (arenaToBlock 2 0 0)) 900] (by decide)
  simp only [Bool.and_eq_true, beq_iff_eq] at ends
  exact ⟨w, reach, ends.1, ends.2, heapLaw_of_reachable reach⟩

end CS162.Pintos.KernelHeap
