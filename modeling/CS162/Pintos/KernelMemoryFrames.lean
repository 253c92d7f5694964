import CS162.Pintos.KernelHeapSizes
import CS162.Pintos.KernelMemory

/-!
Which bytes the calls leave alone. Headers, links and what is cleared lie in no block in use,
so `malloc` keeps the room and the bytes of every block, and `free` those of every other one.
-/

namespace CS162.Pintos.KernelHeap
open CS162.Library Memory

section Room
variable {h : Heap} {live : List Block} {full : Option Nat} {d page b n y cnt : Nat} {desc : Desc}
  {a : Arena} {list : List Nat} {x : Block}

theorem blockSize_setList (b : Nat) : (h.setList d list).blockSize b = h.blockSize b := by
  simp only [Heap.blockSize, blockToArena_setList, descAt_setList]
  cases h.blockToArena b with
  | error => rfl
  | ok found =>
      obtain ⟨_, a⟩ := found
      cases owner : a.desc with
      | none => simp only [bind, Except.bind, owner]
      | some d' =>
          simp only [bind, Except.bind, owner]
          cases h.descAt d' with
          | error => rfl
          | ok desc => by_cases eq : d' = d <;> simp only [Except.map, eq, if_true, if_false]

theorem blockSize_setArena (a : Option Arena) (other : b / pgSize ≠ page) :
    (h.setArena page a).blockSize b = h.blockSize b := by
  have same (d : Nat) : (h.setArena page a).descAt d = h.descAt d := rfl
  simp only [Heap.blockSize, Heap.blockToArena, setArena_get, if_neg other, same]

/-- The counter of a small arena and its free list say nothing about its blocks. -/
theorem Sound.blockSize_relist {live' : List Block} {full' : Option Nat} (s : Sound h live full)
    (s' : Sound (h.relist d page list a cnt) live' full') (there : h.arena page = some a)
    (small : a.desc = some d) (used : x ∈ live) :
    (h.relist d page list a cnt).blockSize x.ptr = h.blockSize x.ptr := by
  obtain ⟨d', desc, found, block, _⟩ | ⟨a', there', big, _⟩ := s.held x used
  · have sizes := setList_sizes (h := h) (d := d) list d'
    rw [found] at sizes
    obtain ⟨desc', found', same⟩ := Option.map_eq_some_iff.mp sizes
    have same : desc'.blockSize = desc.blockSize := congrArg Prod.fst same
    have block' := (relist_isBlock (d := d) list there cnt d' x.ptr).mpr block
    rw [s.blockSize_small found block, s'.blockSize_small found' block', same]
  · have other : x.ptr / pgSize ≠ page := by
      intro same
      rw [same, there] at there'
      cases there'
      rw [small] at big
      cases big
    rw [Heap.relist, blockSize_setArena _ other, blockSize_setList]

theorem Sound.behind_header (s : Sound h live full)
    (apart : ∀ i j r, h.Covers i r → h.Covers j r → i = j) (used : x ∈ live)
    (sized : h.blockSize x.ptr = .ok n) (there : h.arena page = some a) (lower : x.ptr ≤ y)
    (upper : y < x.ptr + n) : y < pgSize * page ∨ pgSize * page + arenaSize ≤ y := by
  obtain ⟨n', a', sized', _, _, mine, offset, inside⟩ := s.blockSize used
  cases sized.symm.trans sized'
  by_contra within
  have first : x.ptr / pgSize ≤ page ∧ page < x.ptr / pgSize + a'.span := by
    simp only [pgSize, arenaSize] at *
    omega
  have same := apart _ _ page ((covers_iff mine page).mpr first) (s.covers_self there)
  simp only [pgSize, arenaSize] at *
  omega

theorem Sound.apart_block (s : Sound h live full)
    (apart : ∀ i j r, h.Covers i r → h.Covers j r → i = j) (used : x ∈ live)
    (sized : h.blockSize x.ptr = .ok n) (found : h.descs[d]? = some desc) (block : h.IsBlock d b)
    (other : x.ptr ≠ b) (lower : x.ptr ≤ y) (upper : y < x.ptr + n) :
    y < b ∨ b + desc.blockSize ≤ y := by
  obtain ⟨a₀, there, small, _⟩ := s.blockToArena_small block
  have owner := block.1
  obtain ⟨_, desc', found', i, inside, place⟩ := block
  cases found.symm.trans found'
  obtain ⟨_, large, fits⟩ := s.fits d desc found
  have offset := (arenaToBlock_place (b / pgSize) inside fits (by omega)).2
  rw [← place] at offset
  have last : (i + 1) * desc.blockSize ≤ desc.blocksPerArena * desc.blockSize :=
    Nat.mul_le_mul_right _ inside
  rw [Nat.add_mul, Nat.one_mul] at last
  by_cases same : x.ptr / pgSize = b / pgSize
  · obtain ⟨d', desc', found', block', _⟩ | ⟨a', there', big, _⟩ := s.held x used
    · have owner' := block'.1
      rw [same, owner] at owner'
      cases owner'
      cases found.symm.trans found'
      cases (s.blockSize_small found block').symm.trans sized
      obtain ⟨_, desc', found', j, _, place'⟩ := block'
      cases found.symm.trans found'
      rw [same] at place'
      have := arenaToBlock_apart place' place other
      omega
    · rw [same, there] at there'
      cases there'
      rw [small] at big
      cases big
  · obtain ⟨n', a', sized', _, _, mine, _, inside'⟩ := s.blockSize used
    cases sized.symm.trans sized'
    by_contra within
    have first : x.ptr / pgSize ≤ b / pgSize ∧ b / pgSize < x.ptr / pgSize + a'.span := by
      simp only [pgSize, arenaSize] at *
      omega
    exact same (apart _ _ (b / pgSize) ((covers_iff mine _).mpr first) (s.covers_self there))

theorem Sound.covers_byte (s : Sound h live full) (used : x ∈ live)
    (sized : h.blockSize x.ptr = .ok n) (lower : x.ptr ≤ y) (upper : y < x.ptr + n) :
    h.Covers (x.ptr / pgSize) (y / pgSize) := by
  obtain ⟨n', a', sized', _, _, mine, _, inside⟩ := s.blockSize used
  cases sized.symm.trans sized'
  rw [covers_iff mine]
  simp only [pgSize] at *
  omega

theorem listRemove_subset {list rest bs : List Nat} (run : Heap.listRemove list bs = .ok rest) :
    ∀ b ∈ rest, b ∈ list := by
  induction bs generalizing list with
  | nil =>
      cases run
      exact fun b inside => inside
  | cons b' bs ih =>
      rw [Heap.listRemove] at run
      split at run
      next => exact fun b inside => List.mem_of_mem_erase (ih run b inside)
      next => cases run

end Room

section Writes
variable {k k' k'' : Kernel} {m : Memory} {b d page cnt tail prev y : Nat} {list : List Nat} {a : Arena}

theorem links_apply (off : ∀ b ∈ list, y < b ∨ b + 8 ≤ y) : links m tail prev list y = m y := by
  induction list generalizing m prev with
  | nil => rfl
  | cons b list ih =>
      have first := off b List.mem_cons_self
      rw [links, ih fun b' inside => off b' (List.mem_cons_of_mem b inside)]
      rw [store_sameOff y (by omega), store_sameOff y (by omega)]

theorem initArena_mem (off : y < pgSize * page ∨ pgSize * page + arenaSize ≤ y) :
    (k.initArena page a).mem y = k.mem y := by
  rw [arenaSize] at off
  simp only [Kernel.initArena]
  rw [store_sameOff y (by omega), store_sameOff y (by omega), store_sameOff y (by omega)]

/-- The block keeps its room and its bytes. -/
structure Kernel.Keeps (k k' : Kernel) (b : Nat) : Prop where
  room : k'.heap.blockSize b = k.heap.blockSize b
  same : ∀ n, k.heap.blockSize b = .ok n → SameOn b n k.mem k'.mem

theorem Kernel.Keeps.refl (k : Kernel) (b : Nat) : k.Keeps k b := ⟨rfl, fun _ _ => SameOn.refl⟩

theorem Kernel.Keeps.trans (first : k.Keeps k' b) (rest : k'.Keeps k'' b) : k.Keeps k'' b := by
  refine ⟨rest.room.trans first.room, fun n sized => ?_⟩
  exact (first.same n sized).trans (rest.same n (first.room.trans sized))

theorem Kernel.Keeps.bytes (keeps : k.Keeps k' b) : k'.bytes b = k.bytes b := by
  rw [Kernel.bytes, Kernel.bytes, Kernel.room, Kernel.room, keeps.room]
  cases sized : k.heap.blockSize b with
  | error => rfl
  | ok n => exact readBytes_congr (keeps.same n sized)

end Writes

section Calls
variable {k : Kernel} {h' : Heap} {live live' : List Block} {foreign : List Nat} {full full' p : Option Nat}
  {size d b cnt n page y : Nat} {list : List Nat} {desc : Desc} {a : Arena} {x : Block}

theorem Kernel.mallocBig_keeps (size : Nat) (c : Consistent ⟨k.heap, live, foreign⟩) :
    ∃ p k', k.mallocBig size = some (p, k') ∧ k.heap.mallocBig size = .ok (p, k'.heap) ∧
      ∀ x ∈ live, k.Keeps k' x.ptr := by
  simp only [Kernel.mallocBig, Heap.mallocBig]
  generalize (size + arenaSize + pgSize - 1) % 2 ^ 32 / pgSize = cnt
  by_cases run : k.heap.pool.HasRun cnt
  · obtain none | ⟨page, pool, got, pos, free, used⟩ :=
      k.heap.pool.pallocGetMultiple_spec (Nat.pos_iff_ne_zero.mp run.1)
    · exact absurd run (Pool.pallocGetMultiple_eq_none.mp none)
    · rw [got]
      have unused := free page (Nat.le_refl _) (Nat.lt_add_of_pos_right run.1)
      have gone := c.no_arena unused
      refine ⟨_, _, rfl, rfl, fun x live => ?_⟩
      obtain ⟨n, a, sized, _, _, there, _⟩ := c.sound.blockSize live
      have other : x.ptr / pgSize ≠ page := by
        intro same
        rw [same, gone] at there
        cases there
      refine ⟨blockSize_setArena _ other, fun n sized y lower upper => initArena_mem ?_⟩
      by_contra within
      refine unused (c.shares.used_of_held (i := x.ptr / pgSize) ?_)
      have place : y / pgSize = page := by
        simp only [pgSize, arenaSize] at *
        omega
      exact place ▸ c.sound.covers_byte live sized lower upper
  · rw [Pool.pallocGetMultiple_eq_none.mpr run]
    exact ⟨_, _, rfl, rfl, fun x _ => .refl _ _⟩

theorem Kernel.refill_keeps (c : Consistent ⟨k.heap, live, foreign⟩)
    (found : k.heap.descs[d]? = some desc) :
    ∃ filled k', k.refill d = some (filled, k') ∧ k.heap.refill d = .ok (filled, k'.heap) ∧
      ∀ x ∈ live, k.Keeps k' x.ptr := by
  simp only [Kernel.refill, Heap.refill, descAt_eq found, Except.toOption, bind, Except.bind, Option.bind]
  by_cases empty : desc.freeList = []
  · rw [if_pos empty, if_pos empty]
    obtain none | ⟨page, pool, got, pos, free, used⟩ :=
      k.heap.pool.pallocGetMultiple_spec Nat.one_ne_zero
    · rw [none]
      exact ⟨_, _, rfl, rfl, fun x _ => .refl _ _⟩
    · rw [got]
      have unused := free page (Nat.le_refl _) (by omega)
      have gone := c.no_arena unused
      refine ⟨_, _, rfl, rfl, fun x live => ?_⟩
      obtain ⟨n, a, sized, _, _, there, _⟩ := c.sound.blockSize live
      have other : x.ptr / pgSize ≠ page := by
        intro same
        rw [same, gone] at there
        cases there
      refine ⟨(blockSize_setList _).trans (blockSize_setArena _ other), fun n sized y lower upper => ?_⟩
      have outside : y / pgSize ≠ page := by
        intro same
        refine unused (c.shares.used_of_held (i := x.ptr / pgSize) ?_)
        exact same ▸ c.sound.covers_byte live sized lower upper
      show links _ _ _ _ y = _
      rw [links_apply fun b inside => ?_, initArena_mem ?_]
      · rfl
      · simp only [pgSize, arenaSize] at *
        omega
      · obtain ⟨i, index, place⟩ := List.mem_map.mp inside
        have index := List.mem_range.mp index
        obtain ⟨_, large, fits⟩ := c.sound.fits d desc found
        have last : (i + 1) * desc.blockSize ≤ desc.blocksPerArena * desc.blockSize :=
          Nat.mul_le_mul_right _ index
        rw [Nat.add_mul, Nat.one_mul] at last
        rw [arenaToBlock] at place
        simp only [pgSize, arenaSize] at *
        omega
  · rw [if_neg empty, if_neg empty]
    exact ⟨_, _, rfl, rfl, fun x _ => .refl _ _⟩

theorem Kernel.takeBlock_keeps (s : Sound k.heap live full)
    (apart : ∀ i j r, k.heap.Covers i r → k.heap.Covers j r → i = j)
    (found : k.heap.descs[d]? = some desc) (first : desc.freeList = b :: list)
    (other : ∀ q, full = some q → q = b / pgSize) :
    ∃ k', k.takeBlock d = some (some b, k') ∧ k.heap.takeBlock d = .ok (some b, k'.heap) ∧
      ∀ x ∈ live, k.Keeps k' x.ptr := by
  have block := s.listed d desc found b (first ▸ List.mem_cons_self)
  obtain ⟨a, there, small, arena⟩ := s.blockToArena_small block
  obtain ⟨h', taken, sound, _⟩ := s.takeBlock 0 found first (Nat.zero_le _) other
  have run : k.heap.takeBlock d = .ok (some b, k.heap.relist d (b / pgSize) list a (a.freeCnt - 1)) := by
    simp only [Heap.takeBlock, descAt_eq found, bind, Except.bind, first, blockToArena_setList, arena]
    rfl
  cases taken.symm.trans run
  refine ⟨(k.setList d list).setFreeCnt (b / pgSize) a (a.freeCnt - 1), ?_, run, fun x used => ?_⟩
  · have arena : (k.setList d list).heap.blockToArena b = .ok (b / pgSize, a) :=
      (blockToArena_setList b).trans arena
    simp only [Kernel.takeBlock, descAt_eq found, Except.toOption, bind, Option.bind, first, arena]
    rfl
  · refine ⟨s.blockSize_relist sound there small used, fun n sized y lower upper => ?_⟩
    have header := s.behind_header apart used sized there lower upper
    show store _ _ _ _ y = _
    rw [store_sameOff y (by rw [arenaSize] at header; omega)]
    refine links_apply fun b' inside => ?_
    have listed : b' ∈ desc.freeList := first ▸ List.mem_cons_of_mem b inside
    have block' := s.listed d desc found b' listed
    have differ : x.ptr ≠ b' := by
      intro same
      exact (s.split d desc b' found block').mp (same ▸ List.mem_map_of_mem used) listed
    have := s.apart_block apart used sized found block' differ lower upper
    have := (s.fits d desc found).2.1
    omega

/-- `malloc` does to the heap what it did there, and keeps every block in use. -/
theorem Kernel.malloc_keeps (c : Consistent ⟨k.heap, live, foreign⟩)
    (run : k.heap.malloc size = .ok (p, h')) :
    ∃ k', k.malloc size = some (p, k') ∧ k'.heap = h' ∧ ∀ x ∈ live, k.Keeps k' x.ptr := by
  rw [Heap.malloc] at run
  rw [Kernel.malloc]
  split at run
  next none =>
    cases run
    rw [if_pos none]
    exact ⟨k, rfl, rfl, fun x _ => .refl _ _⟩
  next some =>
    rw [if_neg some]
    cases index : k.heap.descs.findIdx? fun desc => desc.blockSize ≥ size with
    | none =>
        rw [index] at run
        obtain ⟨p', k', done, same, keeps⟩ := Kernel.mallocBig_keeps size c
        cases run.symm.trans same
        exact ⟨k', done, rfl, keeps⟩
    | some d =>
        rw [index] at run
        obtain ⟨inside, _⟩ := List.findIdx?_eq_some_iff_getElem.mp index
        have found : k.heap.descs[d]? = .some k.heap.descs[d] := List.getElem?_eq_getElem inside
        obtain ⟨filled, k₁, done, same, keeps⟩ := Kernel.refill_keeps c found
        simp only [same, bind, Except.bind] at run
        simp only [done, bind, Option.bind]
        obtain ⟨h₁, stopped, _⟩ | ⟨h₁, desc, b, list, full, got, s, shares, found', _, first, other⟩ :=
          c.refill found
        · cases same.symm.trans stopped
          cases run
          exact ⟨k₁, rfl, rfl, keeps⟩
        · cases same.symm.trans got
          obtain ⟨k₂, taken, same', keeps'⟩ := Kernel.takeBlock_keeps s shares.injective found' first other
          cases run.symm.trans same'
          exact ⟨k₂, taken, rfl, fun x used => (keeps x used).trans (keeps' x used)⟩

/-- `palloc_free_multiple` clears the pages, and with them the header. -/
theorem Kernel.pallocFreeMultiple_eq {pool : Pool}
    (freed : k.heap.pool.pallocFreeMultiple page cnt = some pool) :
    k.pallocFreeMultiple page cnt = some ⟨{ k.heap with pool := pool }.setArena page none,
      k.mem.fill (pgSize * page) (pgSize * cnt) 0xcc, k.descsAt⟩ := by
  rw [Kernel.pallocFreeMultiple, freed]
  rfl

theorem Kernel.freeArena_eq (run : k.heap.freeArena page d = .ok h')
    (found : k.heap.descs[d]? = some desc) :
    ∃ pool rest, k.freeArena page d =
        some ⟨h', (links k.mem (k.descAddr d + 16) (k.descAddr d + 8) rest).fill (pgSize * page)
          (pgSize * 1) 0xcc, k.descsAt⟩ ∧
      h' = ({ k.heap with pool := pool }.setList d rest).setArena page none ∧
      ∀ b ∈ rest, b ∈ desc.freeList := by
  rw [Heap.freeArena, descAt_eq found, ok_bind] at run
  obtain ⟨rest, removed, run⟩ := bind_eq_ok run
  cases freed : k.heap.pool.pallocFreeMultiple page 1 with
  | none =>
      rw [freed] at run
      cases run
  | some pool =>
      rw [freed] at run
      cases run
      have done := Kernel.pallocFreeMultiple_eq (k := k.setList d rest) freed
      refine ⟨pool, rest, ?_, rfl, listRemove_subset removed⟩
      simp only [Kernel.freeArena, descAt_eq found, Except.toOption, bind, Option.bind, removed, done]
      rfl

theorem Sound.apart_listed (s : Sound k.heap live full)
    (apart : ∀ i j r, k.heap.Covers i r → k.heap.Covers j r → i = j) (used : x ∈ live)
    (sized : k.heap.blockSize x.ptr = .ok n) (found : k.heap.descs[d]? = some desc)
    (block : k.heap.IsBlock d b) (other : x.ptr ≠ b) (lower : x.ptr ≤ y) (upper : y < x.ptr + n) :
    ∀ b' ∈ b :: desc.freeList, y < b' ∨ b' + 8 ≤ y := by
  obtain ⟨_, large, _⟩ := s.fits d desc found
  intro b' mine
  cases List.mem_cons.mp mine with
  | inl same =>
      have := s.apart_block apart used sized found block other lower upper
      omega
  | inr listed =>
      have block' := s.listed d desc found b' listed
      have differ : x.ptr ≠ b' := by
        intro same
        exact (s.split d desc b' found block').mp (same ▸ List.mem_map_of_mem used) listed
      have := s.apart_block apart used sized found block' differ lower upper
      omega

/-- `free`: the block is cleared, listed and counted. -/
theorem Kernel.putBlock_keeps (s : Sound k.heap live full)
    (apart : ∀ i j r, k.heap.Covers i r → k.heap.Covers j r → i = j)
    (found : k.heap.descs[d]? = some desc) (block : k.heap.IsBlock d b)
    (there : k.heap.arena (b / pgSize) = some ⟨some d, cnt⟩)
    (put : Sound (k.heap.relist d (b / pgSize) (b :: desc.freeList) ⟨some d, cnt⟩ (cnt + 1)) live' full')
    (used : x ∈ live) (other : x.ptr ≠ b) :
    k.Keeps ((({ k with mem := k.mem.fill b desc.blockSize 0xcc } : Kernel).setList d
      (b :: desc.freeList)).setFreeCnt (b / pgSize) ⟨some d, cnt⟩ (cnt + 1)) x.ptr := by
  refine ⟨s.blockSize_relist put there rfl used, fun n sized y lower upper => ?_⟩
  have header := s.behind_header apart used sized there lower upper
  have aside := s.apart_block apart used sized found block other lower upper
  have beside := s.apart_listed apart used sized found block other lower upper
  show store _ _ _ _ y = _
  rw [store_sameOff y (by rw [arenaSize] at header; omega)]
  have cleared : k.mem.fill b desc.blockSize 0xcc y = k.mem y := fill_sameOff y (by omega)
  exact (links_apply beside).trans cleared

theorem Sound.ne_page {h : Heap} (s : Sound h live full) (used : x ∈ live) (none : h.arena page = none) :
    x.ptr / pgSize ≠ page := by
  intro same
  obtain ⟨_, _, _, _, _, there, _⟩ := s.blockSize used
  rw [same, none] at there
  cases there

theorem Sound.outside_arena (s : Sound k.heap live full)
    (apart : ∀ i j r, k.heap.Covers i r → k.heap.Covers j r → i = j) (used : x ∈ live)
    (sized : k.heap.blockSize x.ptr = .ok n) (there : k.heap.arena page = some a)
    (differ : x.ptr / pgSize ≠ page) (lower : x.ptr ≤ y) (upper : y < x.ptr + n) :
    y < pgSize * page ∨ pgSize * page + pgSize * a.span ≤ y := by
  by_contra within
  refine differ (apart _ _ (y / pgSize) (s.covers_byte used sized lower upper) ?_)
  refine (covers_iff there _).mpr ?_
  simp only [pgSize] at *
  omega

/-- `free` keeps every other block in use. -/
theorem Kernel.free_keeps (c : Consistent ⟨k.heap, live, foreign⟩) (used : b ∈ live.map Block.ptr) :
    ∃ k', k.free (some b) = some k' ∧ k.heap.free (some b) = .ok k'.heap ∧
      ∀ x ∈ live, x.ptr ≠ b → k.Keeps k' x.ptr := by
  have s := c.sound
  have apart := c.shares.injective
  obtain ⟨x₀, inside, rfl⟩ := List.mem_map.mp used
  obtain ⟨h', freed, c'⟩ := Consistent.free c (p := some x₀.ptr) fun b eq => Option.some.inj eq ▸ used
  have kept {x : Block} (mine : x ∈ live) (other : x.ptr ≠ x₀.ptr) :
      x ∈ live.filter fun x => some x.ptr ≠ some x₀.ptr := by
    rw [List.mem_filter]
    exact ⟨mine, by simpa using other⟩
  obtain ⟨d, desc, found, block, _⟩ | ⟨a, there, big, offset, _⟩ := s.held x₀ inside
  · obtain ⟨⟨owner, cnt⟩, there, small, arena⟩ := s.blockToArena_small block
    cases small
    obtain ⟨put, room⟩ := s.putBlock found block used there rfl
    have room : cnt + 1 ≤ desc.blocksPerArena := room
    have step : ∀ x ∈ live, x.ptr ≠ x₀.ptr → k.Keeps
        ((({ k with mem := k.mem.fill x₀.ptr desc.blockSize 0xcc } : Kernel).setList d
          (x₀.ptr :: desc.freeList)).setFreeCnt (x₀.ptr / pgSize) ⟨some d, cnt⟩ (cnt + 1)) x.ptr :=
      fun x => Kernel.putBlock_keeps s apart found block there put
    have arena' : k.heap.blockToArena x₀.ptr = .ok (x₀.ptr / pgSize, ⟨some d, cnt⟩) := arena
    simp only [Heap.free, arena', bind, Except.bind, descAt_eq found] at freed
    simp only [Kernel.free, Heap.free, arena', Except.toOption, bind, Except.bind, Option.bind,
      descAt_eq found]
    by_cases whole : cnt + 1 = desc.blocksPerArena
    · rw [if_pos (Nat.le_of_eq whole.symm), if_pos whole] at freed
      rw [if_pos (Nat.le_of_eq whole.symm), if_pos whole, if_pos (Nat.le_of_eq whole.symm), if_pos whole]
      have listed : (((({ k with mem := k.mem.fill x₀.ptr desc.blockSize 0xcc } : Kernel).setList d
          (x₀.ptr :: desc.freeList)).setFreeCnt (x₀.ptr / pgSize) ⟨some d, cnt⟩ (cnt + 1)).heap.descs[d]?) =
          some { desc with freeList := x₀.ptr :: desc.freeList } := setList_self found _
      obtain ⟨pool, rest, done, heap, sub⟩ := Kernel.freeArena_eq freed listed
      have gone : h'.arena (x₀.ptr / pgSize) = none := by
        rw [heap, setArena_get, if_pos rfl]
      refine ⟨_, done, freed, fun x live other => (step x live other).trans ?_⟩
      have differ := c'.sound.ne_page (kept live other) gone
      refine ⟨?_, fun n sized y lower upper => ?_⟩
      · rw [heap, blockSize_setArena _ differ]
        exact blockSize_setList _
      · have sized : k.heap.blockSize x.ptr = .ok n := (step x live other).room.symm.trans sized
        have outside : y < pgSize * (x₀.ptr / pgSize) ∨ pgSize * (x₀.ptr / pgSize) + pgSize * 1 ≤ y :=
          s.outside_arena apart live sized there differ lower upper
        have beside := s.apart_listed apart live sized found block other lower upper
        show fill _ _ _ _ y = _
        rw [fill_sameOff y outside]
        exact links_apply fun b' mine => beside b' (sub b' mine)
    · rw [if_neg (by omega)] at freed
      rw [if_neg (by omega), if_neg (by omega)]
      exact ⟨_, rfl, rfl, step⟩
  · have arena := s.blockToArena_big there big offset
    simp only [Heap.free, arena, bind, Except.bind, big] at freed
    simp only [Kernel.free, Heap.free, arena, Except.toOption, bind, Except.bind, Option.bind, big]
    cases done : k.heap.pool.pallocFreeMultiple (x₀.ptr / pgSize) a.freeCnt with
    | none =>
        simp only [done] at freed
        cases freed
    | some pool =>
        rw [Kernel.pallocFreeMultiple_eq done]
        simp only [done] at freed
        cases freed
        have span : a.span = a.freeCnt := by
          rw [Arena.span, if_pos big]
        refine ⟨_, rfl, rfl, fun x live other => ?_⟩
        have differ := c'.sound.ne_page (kept live other) (by rw [setArena_get, if_pos rfl])
        refine ⟨blockSize_setArena _ differ, fun n sized y lower upper => fill_sameOff y ?_⟩
        have outside := s.outside_arena apart live sized there differ lower upper
        rw [span] at outside
        exact outside

end Calls
end CS162.Pintos.KernelHeap
