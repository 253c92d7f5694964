import Mathlib.Data.List.Perm.Subperm
import CS162.Pintos.KernelHeapInvariant

/-!
What each part of `malloc` and `free` does to the invariant: a block leaves or
joins a free list, and an arena comes or goes.
-/

namespace CS162.Pintos.KernelHeap
open CS162.Library

section Relist
variable {h : Heap} {live live' : List Block} {full full' : Option Nat} {d page b : Nat}
  {desc : Desc} {a : Arena} {list : List Nat}

theorem descAt_setList (d' : Nat) : (h.setList d list).descAt d' =
    (h.descAt d').map fun desc => if d' = d then { desc with freeList := list } else desc := by
  rw [Heap.descAt, Heap.descAt, setList_get]
  by_cases eq : d' = d
  · subst eq
    cases h.descs[d']? <;> simp [Except.map]
  · cases h.descs[d']? <;> simp [eq, Except.map]

theorem blockToArena_setList (b : Nat) : (h.setList d list).blockToArena b = h.blockToArena b := by
  simp only [Heap.blockToArena, setList_arena, descAt_setList]
  split
  · rfl
  · split
    · rfl
    · split
      · rfl
      · rename_i d' _
        cases h.descAt d' with
        | error => rfl
        | ok desc =>
            by_cases eq : d' = d
            · simp only [Except.map, eq, if_true]
              rfl
            · simp only [Except.map, eq, if_false]

theorem countIn_eq_zero (outside : ∀ b ∈ list, b / pgSize ≠ page) : countIn page list = 0 := by
  rw [countIn, List.countP_eq_zero]
  intro b inside
  simpa using outside b inside

theorem countIn_cons : countIn page (b :: list) =
    countIn page list + if b / pgSize = page then 1 else 0 := by
  rw [countIn, List.countP_cons, countIn]
  simp only [beq_iff_eq]

/-- The arena at `page`, of descriptor `d`, and the list of `d` change together. -/
def Heap.relist (h : Heap) (d page : Nat) (list : List Nat) (a : Arena) (cnt : Nat) : Heap :=
  (h.setList d list).setArena page (some { a with freeCnt := cnt })

theorem relist_descOf (there : h.arena page = some a) (cnt q : Nat) :
    (h.relist d page list a cnt).descOf q = h.descOf q := by
  rw [Heap.descOf, Heap.relist, setArena_get, setList_arena]
  split
  next same => rw [same, descOf_eq there, Option.bind_some]
  next => rfl

theorem relist_isBlock (list : List Nat) (there : h.arena page = some a) (cnt d' b : Nat) :
    (h.relist d page list a cnt).IsBlock d' b ↔ h.IsBlock d' b :=
  isBlock_congr (setList_sizes list) (relist_descOf there cnt _)

theorem relist_covers (list : List Nat) (there : h.arena page = some a) (small : a.desc = some d) (cnt q i : Nat) :
    (h.relist d page list a cnt).Covers q i ↔ h.Covers q i := by
  rw [Heap.Covers, Heap.Covers, Heap.relist, setArena_get, setList_arena]
  split
  next same => simp [same, there, Arena.span, small]
  next => rfl

/-- One free list and one counter change, and the blocks in use with them. -/
theorem Sound.relist (s : Sound h live full) (there : h.arena page = some a)
    (small : a.desc = some d) (found : h.descs[d]? = some desc)
    (other : ∀ q, full = some q → q = page)
    (nodup : list.Nodup) (blocks : ∀ b ∈ list, h.IsBlock d b)
    (apart : ∀ q, q ≠ page → countIn q list = countIn q desc.freeList)
    (room : countIn page list ≤ desc.blocksPerArena ∧
      (countIn page list = desc.blocksPerArena → full' = some page))
    (unique : (live'.map Block.ptr).Nodup)
    (mine : ∀ b, h.IsBlock d b → (b ∈ live'.map Block.ptr ↔ b ∉ list))
    (theirs : ∀ d' b, d' ≠ d → h.IsBlock d' b →
      (b ∈ live'.map Block.ptr ↔ b ∈ live.map Block.ptr))
    (held : ∀ x ∈ live', x ∈ live ∨ h.IsBlock d x.ptr ∧ x.size ≤ desc.blockSize) :
    Sound (h.relist d page list a (countIn page list)) live' full' := by
  have isBlock := relist_isBlock (d := d) list there (countIn page list)
  have get (d' : Nat) : (h.relist d page list a (countIn page list)).descs[d']? =
      if d' = d then some { desc with freeList := list } else h.descs[d']? := by
    rw [Heap.relist, setArena_descs, setList_get, found, Option.map_some]
  have arena (q : Nat) : (h.relist d page list a (countIn page list)).arena q =
      if q = page then some { a with freeCnt := countIn page list } else h.arena q := by
    rw [Heap.relist, setArena_get, setList_arena]
  -- Every descriptor is an old one, up to the list of `d`.
  have old {d' : Nat} {desc' : Desc}
      (now : (h.relist d page list a (countIn page list)).descs[d']? = some desc') :
      ∃ desc₀, h.descs[d']? = some desc₀ ∧ desc'.blockSize = desc₀.blockSize ∧
        desc'.blocksPerArena = desc₀.blocksPerArena ∧
        (d' = d ∧ desc'.freeList = list ∨ d' ≠ d ∧ desc' = desc₀) := by
    rw [get] at now
    split at now
    next same =>
      cases now
      exact ⟨desc, same ▸ found, rfl, rfl, .inl ⟨same, rfl⟩⟩
    next differ => exact ⟨desc', now, rfl, rfl, .inr ⟨differ, rfl⟩⟩
  constructor
  case fits =>
    intro d' desc' now
    obtain ⟨desc₀, was, bytes, blocks, _⟩ := old now
    rw [bytes, blocks]
    exact s.fits d' desc₀ was
  case owned =>
    intro q d' owner
    rw [relist_descOf there] at owner
    have := s.owned q d' owner
    rwa [Heap.relist, setArena_descs, Heap.setList, List.length_modify]
  case pages =>
    intro q a' now
    rw [arena] at now
    split at now
    next same => exact same ▸ s.pages page a there
    next => exact s.pages q a' now
  case nodup =>
    intro d' desc' now
    obtain ⟨desc₀, was, _, _, ⟨_, eq⟩ | ⟨_, eq⟩⟩ := old now
    · exact eq ▸ nodup
    · exact eq ▸ s.nodup d' desc₀ was
  case listed =>
    intro d' desc' now b inside
    rw [isBlock]
    obtain ⟨desc₀, was, _, _, ⟨same, eq⟩ | ⟨_, eq⟩⟩ := old now
    · rw [same]
      exact blocks b (eq ▸ inside)
    · exact s.listed d' desc₀ was b (eq ▸ inside)
  case counted =>
    intro q a' d' desc' now owner owns
    obtain ⟨desc₀, was, _, perArena, lists⟩ := old owns
    rw [arena] at now
    split at now
    next same =>
      cases now
      cases small.symm.trans owner
      cases found.symm.trans was
      obtain ⟨_, eq⟩ | ⟨differ, _⟩ := lists
      · rw [eq, same, perArena]
        exact ⟨rfl, room⟩
      · exact absurd rfl differ
    next differ =>
      obtain ⟨count, most, whole⟩ := s.counted q a' d' desc₀ now owner was
      rw [perArena]
      refine ⟨?_, most, fun eq => absurd (other q (whole eq)) differ⟩
      obtain ⟨same, eq⟩ | ⟨_, eq⟩ := lists
      · subst same
        cases found.symm.trans was
        rw [count, eq, apart q differ]
      · rw [count, eq]
  case big =>
    intro q a' now large
    rw [arena] at now
    split at now
    next =>
      cases now
      rw [small] at large
      cases large
    next => exact s.big q a' now large
  case unique => exact unique
  case split =>
    intro d' desc' b now block
    rw [isBlock] at block
    obtain ⟨desc₀, was, _, _, ⟨same, eq⟩ | ⟨differ, eq⟩⟩ := old now
    · rw [eq]
      exact mine b (same ▸ block)
    · rw [eq, theirs d' b differ block]
      exact s.split d' desc₀ b was block
  case held =>
    intro x inside
    cases held x inside with
    | inr new =>
        exact .inl ⟨d, { desc with freeList := list }, by rw [get, if_pos rfl],
          (isBlock d x.ptr).mpr new.1, new.2⟩
    | inl kept =>
        obtain ⟨d', desc₀, was, block, small⟩ | ⟨a', was, large, place⟩ := s.held x kept
        · refine .inl ⟨d', if d' = d then { desc with freeList := list } else desc₀, ?_,
            (isBlock d' x.ptr).mpr block, ?_⟩
          · rw [get]
            split
            · rfl
            · exact was
          · split
            next same =>
              subst same
              cases found.symm.trans was
              exact small
            next => exact small
        · refine .inr ⟨a', ?_, large, place⟩
          rw [arena, if_neg]
          · exact was
          · intro same
            rw [same, there] at was
            cases was
            rw [small] at large
            cases large

theorem isBlock_unique {d' : Nat} (block : h.IsBlock d b) (block' : h.IsBlock d' b) : d' = d :=
  Option.some.inj (block'.1.symm.trans block.1)

theorem Sound.takeBlock (size : Nat) (s : Sound h live full) (found : h.descs[d]? = some desc)
    (first : desc.freeList = b :: list) (fits : size ≤ desc.blockSize)
    (other : ∀ q, full = some q → q = b / pgSize) :
    ∃ h', h.takeBlock d = .ok (some b, h') ∧ Sound h' (⟨b, size⟩ :: live) none ∧
      h'.pool = h.pool ∧ ∀ q i, h'.Covers q i ↔ h.Covers q i := by
  have nodup := s.nodup d desc found
  rw [first, List.nodup_cons] at nodup
  have block := s.listed d desc found b (first ▸ List.mem_cons_self)
  obtain ⟨a, there, small, arena⟩ := s.blockToArena_small block
  have unused : b ∉ live.map Block.ptr := by
    rw [s.split d desc b found block, first]
    simp
  obtain ⟨count, most, _⟩ := s.counted _ a d desc there small found
  rw [first, countIn_cons, if_pos rfl] at count
  refine ⟨h.relist d (b / pgSize) list a (countIn (b / pgSize) list), ?_, ?_, rfl,
    relist_covers list there small _⟩
  · simp only [Heap.takeBlock, descAt_eq found, bind, Except.bind, first, blockToArena_setList, arena,
      count, Nat.add_sub_cancel]
    rfl
  · refine s.relist there small found other nodup.2
      (fun b' inside => s.listed d desc found b' (first ▸ List.mem_cons_of_mem b inside))
      (fun q differ => ?_) ⟨by omega, fun whole => by omega⟩ ?_ (fun b' block' => ?_)
      (fun d' b' differ block' => ?_) (fun x inside => ?_)
    · rw [first, countIn_cons, if_neg (Ne.symm differ), Nat.add_zero]
    · rw [List.map_cons, List.nodup_cons]
      exact ⟨unused, s.unique⟩
    · rw [List.map_cons, List.mem_cons, s.split d desc b' found block', first, List.mem_cons]
      by_cases same : b' = b
      · simp [same, nodup.1]
      · simp [same]
    · rw [List.map_cons, List.mem_cons]
      refine or_iff_right fun same => differ ?_
      rw [same] at block'
      exact isBlock_unique block block'
    · cases List.mem_cons.mp inside with
      | inl new => exact .inr (new ▸ ⟨block, fits⟩)
      | inr old => exact .inl old

/-- A block in use joins its free list. Its arena may then have no user left. -/
theorem Sound.putBlock (s : Sound h live none) (found : h.descs[d]? = some desc)
    (block : h.IsBlock d b) (used : b ∈ live.map Block.ptr) (there : h.arena (b / pgSize) = some a)
    (small : a.desc = some d) :
    Sound (h.relist d (b / pgSize) (b :: desc.freeList) a (a.freeCnt + 1))
      (live.filter fun x => some x.ptr ≠ some b)
      (if a.freeCnt + 1 = desc.blocksPerArena then some (b / pgSize) else none) ∧
      a.freeCnt + 1 ≤ desc.blocksPerArena := by
  have unlisted := (s.split d desc b found block).mp used
  obtain ⟨count, most, whole⟩ := s.counted _ a d desc there small found
  have count' : countIn (b / pgSize) (b :: desc.freeList) = a.freeCnt + 1 := by
    rw [countIn_cons, if_pos rfl, count]
  have room : a.freeCnt + 1 ≤ desc.blocksPerArena := by
    have : a.freeCnt ≠ desc.blocksPerArena := fun eq => by cases whole eq
    omega
  have kept (b' : Nat) : b' ∈ (live.filter fun x => some x.ptr ≠ some b).map Block.ptr ↔
      b' ∈ live.map Block.ptr ∧ b' ≠ b := by
    simp only [List.mem_map, List.mem_filter, decide_eq_true_eq, ne_eq, Option.some.injEq]
    constructor
    · rintro ⟨x, ⟨inside, other⟩, rfl⟩
      exact ⟨⟨x, inside, rfl⟩, other⟩
    · rintro ⟨⟨x, inside, rfl⟩, other⟩
      exact ⟨x, ⟨inside, other⟩, rfl⟩
  refine ⟨?_, room⟩
  rw [← count']
  refine s.relist there small found (fun q none => by cases none)
    (List.nodup_cons.mpr ⟨unlisted, s.nodup d desc found⟩) (fun b' inside => ?_)
    (fun q differ => ?_) ⟨by omega, fun eq => if_pos eq⟩ ?_ (fun b' block' => ?_)
    (fun d' b' differ block' => ?_) (fun x inside => .inl (List.mem_of_mem_filter inside))
  · cases List.mem_cons.mp inside with
    | inl same => exact same ▸ block
    | inr old => exact s.listed d desc found b' old
  · rw [countIn_cons, if_neg (Ne.symm differ), Nat.add_zero]
  · exact s.unique.sublist (List.filter_sublist.map _)
  · rw [kept, s.split d desc b' found block', List.mem_cons, not_or, and_comm]
  · rw [kept]
    refine and_iff_left fun same => differ ?_
    rw [same] at block'
    exact isBlock_unique block block'

end Relist

/-- The invariant as far as it is about one page. -/
structure Here (h : Heap) (live : List Block) (full : Option Nat) (page : Nat) : Prop where
  pos : ∀ a, h.arena page = some a → 0 < page
  owned : ∀ d, h.descOf page = some d → d < h.descs.length
  listed : ∀ (d : Nat) (desc : Desc), h.descs[d]? = some desc → ∀ b ∈ desc.freeList,
    b / pgSize = page → h.IsBlock d b
  counted : ∀ (a : Arena) (d : Nat) (desc : Desc), h.arena page = some a →
    a.desc = some d → h.descs[d]? = some desc →
    a.freeCnt = countIn page desc.freeList ∧ a.freeCnt ≤ desc.blocksPerArena ∧
      (a.freeCnt = desc.blocksPerArena → full = some page)
  big : ∀ a, h.arena page = some a → a.desc = none → 0 < a.freeCnt ∧ pgSize * a.freeCnt < 2 ^ 32
  split : ∀ (d : Nat) (desc : Desc) (b : Nat), h.descs[d]? = some desc → h.IsBlock d b →
    b / pgSize = page → (b ∈ live.map Block.ptr ↔ b ∉ desc.freeList)
  held : ∀ x ∈ live, x.ptr / pgSize = page →
    (∃ (d : Nat) (desc : Desc), h.descs[d]? = some desc ∧ h.IsBlock d x.ptr ∧
      x.size ≤ desc.blockSize) ∨
    ∃ a, h.arena (x.ptr / pgSize) = some a ∧ a.desc = none ∧ x.ptr % pgSize = arenaSize ∧
      x.size + arenaSize ≤ pgSize * a.freeCnt

/-- Everything stays as it is but for one page. -/
structure Elsewhere (h h' : Heap) (live live' : List Block) (page : Nat) : Prop where
  length : h'.descs.length = h.descs.length
  sizes : ∀ d : Nat, (h'.descs[d]?).map Desc.sizes = (h.descs[d]?).map Desc.sizes
  arena : ∀ q, q ≠ page → h'.arena q = h.arena q
  nodup : ∀ (d : Nat) (desc : Desc), h'.descs[d]? = some desc → desc.freeList.Nodup
  lists : ∀ (d : Nat) (desc desc' : Desc), h.descs[d]? = some desc → h'.descs[d]? = some desc' →
    ∀ b, b / pgSize ≠ page → (b ∈ desc'.freeList ↔ b ∈ desc.freeList)
  counts : ∀ (d : Nat) (desc desc' : Desc), h.descs[d]? = some desc → h'.descs[d]? = some desc' →
    ∀ q, q ≠ page → countIn q desc'.freeList = countIn q desc.freeList
  unique : (live'.map Block.ptr).Nodup
  live : ∀ x : Block, x.ptr / pgSize ≠ page → (x ∈ live' ↔ x ∈ live)

section Replace
variable {h h' : Heap} {live live' : List Block} {full full' : Option Nat} {page : Nat}

theorem Elsewhere.isBlock (e : Elsewhere h h' live live' page) {b : Nat} (other : b / pgSize ≠ page)
    (d : Nat) : h'.IsBlock d b ↔ h.IsBlock d b :=
  isBlock_congr e.sizes (by rw [Heap.descOf, Heap.descOf, e.arena _ other])

theorem Elsewhere.desc (e : Elsewhere h h' live live' page) {d : Nat} {desc' : Desc}
    (now : h'.descs[d]? = some desc') :
    ∃ desc, h.descs[d]? = some desc ∧ desc'.sizes = desc.sizes := by
  have same := e.sizes d
  rw [now, Option.map_some] at same
  obtain ⟨desc, was, eq⟩ := Option.map_eq_some_iff.mp same.symm
  exact ⟨desc, was, eq.symm⟩

theorem Elsewhere.ptrs (e : Elsewhere h h' live live' page) {b : Nat} (other : b / pgSize ≠ page) :
    b ∈ live'.map Block.ptr ↔ b ∈ live.map Block.ptr := by
  simp only [List.mem_map]
  refine exists_congr fun x => and_congr_left ?_
  rintro rfl
  exact e.live x other

theorem Sound.replace (s : Sound h live full) (page : Nat) (e : Elsewhere h h' live live' page)
    (here : Here h' live' full' page) (spare : ∀ q, full = some q → q = page) :
    Sound h' live' full' where
  fits d desc' now := by
    obtain ⟨desc, was, eq⟩ := e.desc now
    rw [Desc.sizes, Desc.sizes, Prod.mk.injEq] at eq
    rw [eq.1, eq.2]
    exact s.fits d desc was
  owned q d owner := by
    by_cases same : q = page
    · exact here.owned d (same ▸ owner)
    · rw [Heap.descOf, e.arena q same] at owner
      exact e.length ▸ s.owned q d owner
  pages q a now := by
    by_cases same : q = page
    · exact same ▸ here.pos a (same ▸ now)
    · exact s.pages q a (e.arena q same ▸ now)
  nodup := e.nodup
  listed d desc' now b inside := by
    by_cases same : b / pgSize = page
    · exact here.listed d desc' now b inside same
    · obtain ⟨desc, was, _⟩ := e.desc now
      rw [e.isBlock same]
      exact s.listed d desc was b ((e.lists d desc desc' was now b same).mp inside)
  counted q a d desc' now owner owns := by
    by_cases same : q = page
    · subst same
      exact here.counted a d desc' now owner owns
    · obtain ⟨desc, was, eq⟩ := e.desc owns
      rw [Desc.sizes, Desc.sizes, Prod.mk.injEq] at eq
      rw [e.arena q same] at now
      rw [e.counts d desc desc' was owns q same, eq.2]
      obtain ⟨count, most, whole⟩ := s.counted q a d desc now owner was
      exact ⟨count, most, fun all => absurd (spare q (whole all)) same⟩
  big q a now large := by
    by_cases same : q = page
    · subst same
      exact here.big a now large
    · exact s.big q a (e.arena q same ▸ now) large
  unique := e.unique
  split d desc' b now block := by
    by_cases same : b / pgSize = page
    · exact here.split d desc' b now block same
    · obtain ⟨desc, was, _⟩ := e.desc now
      rw [e.isBlock same] at block
      rw [e.ptrs same, e.lists d desc desc' was now b same]
      exact s.split d desc b was block
  held x inside := by
    by_cases same : x.ptr / pgSize = page
    · exact here.held x inside same
    · obtain ⟨d, desc, was, block, small⟩ | ⟨a, was, large⟩ := s.held x ((e.live x same).mp inside)
      · have eq := e.sizes d
        rw [was, Option.map_some] at eq
        obtain ⟨desc', now, eq⟩ := Option.map_eq_some_iff.mp eq
        rw [Desc.sizes, Desc.sizes, Prod.mk.injEq] at eq
        exact .inl ⟨d, desc', now, (e.isBlock same d).mpr block, eq.1 ▸ small⟩
      · exact .inr ⟨a, (e.arena _ same).trans was, large⟩

theorem Sound.vacant (s : Sound h live full) (gone : h.arena page = none) :
    (∀ x ∈ live, x.ptr / pgSize ≠ page) ∧
      ∀ (d : Nat) (desc : Desc), h.descs[d]? = some desc → ∀ b ∈ desc.freeList,
        b / pgSize ≠ page := by
  have noBlock {d b : Nat} (block : h.IsBlock d b) : b / pgSize ≠ page := by
    intro same
    have owner := block.1
    rw [Heap.descOf, same, gone, Option.bind_none] at owner
    cases owner
  refine ⟨fun x inside => ?_, fun d desc found b inside => noBlock (s.listed d desc found b inside)⟩
  obtain ⟨d, _, _, block, _⟩ | ⟨a, there, _⟩ := s.held x inside
  · exact noBlock block
  · intro same
    rw [same, gone] at there
    cases there

theorem Sound.withPool (s : Sound h live full) (pool : Pool) :
    Sound { h with pool := pool } live full :=
  ⟨s.fits, s.owned, s.pages, s.nodup, s.listed, s.counted, s.big, s.unique, s.split, s.held⟩

end Replace

/-- The blocks of an arena. -/
def arenaBlocks (page : Nat) (desc : Desc) : List Nat :=
  (List.range desc.blocksPerArena).map (arenaToBlock page desc.blockSize)

section Arena
variable {h : Heap} {live : List Block} {full : Option Nat} {d page b : Nat} {desc : Desc}

theorem Sound.place (s : Sound h live full) (found : h.descs[d]? = some desc) {i : Nat}
    (inside : i < desc.blocksPerArena) : arenaToBlock page desc.blockSize i / pgSize = page := by
  obtain ⟨_, large, fits⟩ := s.fits d desc found
  exact (arenaToBlock_place page inside fits (by omega)).1

theorem Sound.mem_arenaBlocks (s : Sound h live full) (found : h.descs[d]? = some desc) :
    b ∈ arenaBlocks page desc ↔
      b / pgSize = page ∧ ∃ i < desc.blocksPerArena, b = arenaToBlock (b / pgSize) desc.blockSize i := by
  simp only [arenaBlocks, List.mem_map, List.mem_range]
  constructor
  · rintro ⟨i, inside, rfl⟩
    rw [s.place found inside]
    exact ⟨rfl, i, inside, rfl⟩
  · rintro ⟨rfl, i, inside, eq⟩
    exact ⟨i, inside, eq.symm⟩

theorem Sound.nodup_arenaBlocks (s : Sound h live full) (found : h.descs[d]? = some desc)
    (page : Nat) : (arenaBlocks page desc).Nodup := by
  obtain ⟨_, large, _⟩ := s.fits d desc found
  exact List.nodup_range.map_on fun i _ j _ same => arenaToBlock_injective (by omega) same

theorem Sound.newArena (s : Sound h live none) (found : h.descs[d]? = some desc)
    (empty : desc.freeList = []) (gone : h.arena page = none) (pos : 0 < page) :
    Sound ((h.setArena page (some ⟨some d, desc.blocksPerArena⟩)).setList d (arenaBlocks page desc))
      live (some page) := by
  obtain ⟨idle, unlisted⟩ := s.vacant gone
  have get (d' : Nat) :
      ((h.setArena page (some ⟨some d, desc.blocksPerArena⟩)).setList d
        (arenaBlocks page desc)).descs[d']? =
      if d' = d then some { desc with freeList := arenaBlocks page desc } else h.descs[d']? := by
    rw [setList_get, setArena_descs, found, Option.map_some]
  have arena (q : Nat) :
      ((h.setArena page (some ⟨some d, desc.blocksPerArena⟩)).setList d
        (arenaBlocks page desc)).arena q =
      if q = page then some ⟨some d, desc.blocksPerArena⟩ else h.arena q := by
    rw [setList_arena, setArena_get]
  have old {d' : Nat} {desc' : Desc}
      (now : ((h.setArena page (some ⟨some d, desc.blocksPerArena⟩)).setList d
        (arenaBlocks page desc)).descs[d']? = some desc') :
      d' = d ∧ desc' = { desc with freeList := arenaBlocks page desc } ∨
        d' ≠ d ∧ h.descs[d']? = some desc' := by
    rw [get] at now
    split at now
    next same => exact .inl ⟨same, (Option.some.inj now).symm⟩
    next differ => exact .inr ⟨differ, now⟩
  have inPage : ∀ b ∈ arenaBlocks page desc, b / pgSize = page :=
    fun b inside => ((s.mem_arenaBlocks found).mp inside).1
  refine s.replace page ?_ ?_ fun q none => by cases none
  · refine ⟨by simp [Heap.setList], fun d' => ?_, fun q other => ?_, fun d' desc' now => ?_,
      fun d' desc₀ desc' was now b other => ?_, fun d' desc₀ desc' was now q other => ?_,
      s.unique, fun _ _ => Iff.rfl⟩
    · rw [setList_sizes, setArena_descs]
    · rw [arena, if_neg other]
    · obtain ⟨rfl, rfl⟩ | ⟨_, same⟩ := old now
      · exact s.nodup_arenaBlocks found page
      · exact s.nodup d' desc' same
    · obtain ⟨rfl, rfl⟩ | ⟨_, same⟩ := old now
      · cases found.symm.trans was
        rw [empty]
        exact iff_of_false (fun inside => other (inPage b inside)) (by simp)
      · cases was.symm.trans same
        rfl
    · obtain ⟨rfl, rfl⟩ | ⟨_, same⟩ := old now
      · cases found.symm.trans was
        rw [empty, countIn_eq_zero fun b inside => (inPage b inside).trans_ne (Ne.symm other)]
        rfl
      · cases was.symm.trans same
        rfl
  · have owner : ((h.setArena page (some ⟨some d, desc.blocksPerArena⟩)).setList d
        (arenaBlocks page desc)).descOf page = some d := by
      rw [descOf_eq ((arena page).trans (if_pos rfl))]
    constructor
    case pos => exact fun _ _ => pos
    case owned =>
      intro d' owns
      cases owner.symm.trans owns
      have := (List.getElem?_eq_some_iff.mp found).1
      simpa [Heap.setList] using this
    case listed =>
      intro d' desc' now b inside same
      obtain ⟨rfl, rfl⟩ | ⟨_, was⟩ := old now
      · exact ⟨same.symm ▸ owner, _, now, ((s.mem_arenaBlocks found).mp inside).2⟩
      · exact absurd same (unlisted d' desc' was b inside)
    case counted =>
      intro a d' desc' now owns sized
      rw [arena, if_pos rfl] at now
      cases now
      cases owns
      obtain ⟨_, rfl⟩ | ⟨differ, _⟩ := old sized
      · refine ⟨?_, Nat.le_refl _, fun _ => rfl⟩
        rw [countIn, List.countP_eq_length.mpr fun b inside => by simpa using inPage b inside]
        simp [arenaBlocks]
      · exact absurd rfl differ
    case big =>
      intro a now large
      rw [arena, if_pos rfl] at now
      cases now
      cases large
    case split =>
      intro d' desc' b now block same
      have unused : b ∉ live.map Block.ptr := by
        intro inside
        obtain ⟨x, used, rfl⟩ := List.mem_map.mp inside
        exact idle x used same
      refine iff_of_false unused fun unlisted => unlisted ?_
      obtain ⟨owns, desc₀, sized, place⟩ := block
      rw [same] at owns
      cases owner.symm.trans owns
      cases now.symm.trans sized
      obtain ⟨_, rfl⟩ | ⟨differ, _⟩ := old now
      · exact (s.mem_arenaBlocks found).mpr ⟨same, place⟩
      · exact absurd rfl differ
    case held => exact fun x inside same => absurd same (idle x inside)

theorem Sound.all_listed {a : Arena} (s : Sound h live full) (there : h.arena page = some a)
    (small : a.desc = some d) (found : h.descs[d]? = some desc)
    (whole : a.freeCnt = desc.blocksPerArena) : ∀ b ∈ arenaBlocks page desc, b ∈ desc.freeList := by
  have sub : (desc.freeList.filter fun b => b / pgSize == page) ⊆ arenaBlocks page desc := by
    intro b inside
    obtain ⟨inside, same⟩ := List.mem_filter.mp inside
    have same : b / pgSize = page := by simpa using same
    obtain ⟨_, desc', found', place⟩ := s.listed d desc found b inside
    cases found.symm.trans found'
    exact (s.mem_arenaBlocks found).mpr ⟨same, place⟩
  have count := (s.counted page a d desc there small found).1
  have perm := (List.Nodup.subperm ((s.nodup d desc found).filter _) sub).perm_of_length_le (by
    rw [← List.countP_eq_length_filter, ← countIn, ← count, whole]
    simp [arenaBlocks])
  intro b inside
  exact (List.mem_filter.mp (perm.mem_iff.mpr inside)).1

theorem listRemove_eq {list bs : List Nat} (nodup : bs.Nodup) (inside : ∀ b ∈ bs, b ∈ list) :
    Heap.listRemove list bs = .ok (list.diff bs) := by
  induction bs generalizing list with
  | nil => rfl
  | cons b bs ih =>
      rw [List.nodup_cons] at nodup
      rw [Heap.listRemove, if_pos (inside b List.mem_cons_self), List.diff_cons]
      refine ih nodup.2 fun b' later => ?_
      refine (List.mem_erase_of_ne ?_).mpr (inside b' (List.mem_cons_of_mem b later))
      rintro rfl
      exact nodup.1 later

theorem countIn_filter {list : List Nat} {p : Nat → Bool} {q : Nat}
    (keeps : ∀ b ∈ list, b / pgSize = q → p b = true) :
    countIn q (list.filter p) = countIn q list := by
  rw [countIn, countIn, List.countP_filter]
  refine List.countP_congr fun b inside => ?_
  simp only [Bool.and_eq_true, beq_iff_eq]
  exact ⟨And.left, fun same => ⟨same, keeps b inside same⟩⟩

theorem Sound.dropArena {a : Arena} (s : Sound h live (some page)) (there : h.arena page = some a)
    (small : a.desc = some d) (found : h.descs[d]? = some desc)
    (whole : a.freeCnt = desc.blocksPerArena) :
    ∃ list, Heap.listRemove desc.freeList (arenaBlocks page desc) = .ok list ∧
      Sound ((h.setList d list).setArena page none) live none := by
  have listed := s.all_listed there small found whole
  have nodup := s.nodup d desc found
  have removed := listRemove_eq (s.nodup_arenaBlocks found page) listed
  rw [nodup.sdiff_eq_filter] at removed
  refine ⟨_, removed, ?_⟩
  have inPage {b : Nat} (inside : b ∈ arenaBlocks page desc) : b / pgSize = page :=
    ((s.mem_arenaBlocks found).mp inside).1
  have mine {b : Nat} (inside : b ∈ desc.freeList) (same : b / pgSize = page) :
      b ∈ arenaBlocks page desc := by
    obtain ⟨_, desc', found', place⟩ := s.listed d desc found b inside
    cases found.symm.trans found'
    exact (s.mem_arenaBlocks found).mpr ⟨same, place⟩
  have idle : ∀ x ∈ live, x.ptr / pgSize ≠ page := by
    intro x used same
    obtain ⟨d', desc', found', block, _⟩ | ⟨a', there', large, _⟩ := s.held x used
    · have owner := block.1
      rw [same, descOf_eq there, small] at owner
      cases owner
      cases found.symm.trans found'
      refine (s.split d desc x.ptr found block).mp (List.mem_map_of_mem used) (listed _ ?_)
      obtain ⟨_, desc', found', place⟩ := block
      cases found.symm.trans found'
      exact (s.mem_arenaBlocks found).mpr ⟨same, place⟩
    · rw [same, there] at there'
      cases there'
      rw [small] at large
      cases large
  have get (d' : Nat) (list : List Nat) : ((h.setList d list).setArena page none).descs[d']? =
      if d' = d then some { desc with freeList := list } else h.descs[d']? := by
    rw [setArena_descs, setList_get, found, Option.map_some]
  have gone (list : List Nat) : ((h.setList d list).setArena page none).arena page = none := by
    rw [setArena_get, if_pos rfl]
  have unowned (list : List Nat) : ((h.setList d list).setArena page none).descOf page = none := by
    rw [Heap.descOf, gone, Option.bind_none]
  refine s.replace page ?_ ?_ fun q eq => (Option.some.inj eq).symm
  · refine ⟨by simp [Heap.setList], fun d' => ?_, fun q other => ?_, fun d' desc' now => ?_,
      fun d' desc₀ desc' was now b other => ?_, fun d' desc₀ desc' was now q other => ?_,
      s.unique, fun _ _ => Iff.rfl⟩
    · rw [setArena_descs, setList_sizes]
    · rw [setArena_get, if_neg other, setList_arena]
    · rw [get] at now
      split at now
      next =>
        cases now
        exact nodup.filter _
      next => exact s.nodup d' desc' now
    · rw [get] at now
      split at now
      next same =>
        subst same
        cases found.symm.trans was
        cases now
        rw [List.mem_filter]
        exact and_iff_left (by simpa using fun inside => other (inPage inside))
      next =>
        cases was.symm.trans now
        rfl
    · rw [get] at now
      split at now
      next same =>
        subst same
        cases found.symm.trans was
        cases now
        refine countIn_filter fun b _ same => ?_
        simpa using fun inside => other (same.symm.trans (inPage inside))
      next =>
        cases was.symm.trans now
        rfl
  · constructor
    case pos => exact fun a' now => by rw [gone] at now; cases now
    case owned => exact fun d' owner => by rw [unowned] at owner; cases owner
    case listed =>
      intro d' desc' now b inside same
      rw [get] at now
      split at now
      next =>
        cases now
        obtain ⟨inside, left⟩ := List.mem_filter.mp inside
        exact absurd (mine inside same) (by simpa using left)
      next differ =>
        have owner := (s.listed d' desc' now b inside).1
        rw [same, descOf_eq there, small] at owner
        exact absurd (Option.some.inj owner).symm differ
    case counted => exact fun a' d' desc' now => by rw [gone] at now; cases now
    case big => exact fun a' now => by rw [gone] at now; cases now
    case split =>
      intro d' desc' b _ block same
      have owner := block.1
      rw [same, unowned] at owner
      cases owner
    case held => exact fun x used same => absurd same (idle x used)

end Arena

section Big
variable {h : Heap} {live : List Block} {page b size cnt : Nat} {a : Arena}

theorem big_place (page : Nat) : (pgSize * page + arenaSize) / pgSize = page ∧
    (pgSize * page + arenaSize) % pgSize = arenaSize := by
  simp only [pgSize, arenaSize]
  omega

theorem elsewhere_setArena {live' : List Block} {full : Option Nat} (s : Sound h live full)
    (a : Option Arena) (unique : (live'.map Block.ptr).Nodup)
    (same : ∀ x : Block, x.ptr / pgSize ≠ page → (x ∈ live' ↔ x ∈ live)) :
    Elsewhere h (h.setArena page a) live live' page where
  length := rfl
  sizes _ := rfl
  arena q other := by rw [setArena_get, if_neg other]
  nodup := s.nodup
  lists d desc desc' was now b _ := by
    cases was.symm.trans now
    rfl
  counts d desc desc' was now q _ := by
    cases was.symm.trans now
    rfl
  unique := unique
  live := same

theorem Sound.newBig (s : Sound h live none) (gone : h.arena page = none) (pos : 0 < page)
    (pages : 0 < cnt) (bounded : pgSize * cnt < 2 ^ 32) (fits : size + arenaSize ≤ pgSize * cnt) :
    Sound (h.setArena page (some ⟨none, cnt⟩)) (⟨pgSize * page + arenaSize, size⟩ :: live) none := by
  obtain ⟨idle, unlisted⟩ := s.vacant gone
  obtain ⟨inPage, offset⟩ := big_place page
  have here : (h.setArena page (some ⟨none, cnt⟩)).arena page = some ⟨none, cnt⟩ := by
    rw [setArena_get, if_pos rfl]
  have unowned : (h.setArena page (some ⟨none, cnt⟩)).descOf page = none := descOf_eq here
  refine s.replace _ (elsewhere_setArena s _ ?_ fun x other => ?_) ?_ fun q none => by cases none
  · rw [List.map_cons, List.nodup_cons]
    refine ⟨fun inside => ?_, s.unique⟩
    obtain ⟨x, used, eq⟩ := List.mem_map.mp inside
    exact idle x used (by rw [eq, inPage])
  · rw [List.mem_cons]
    refine or_iff_right fun new => other ?_
    rw [new]
    exact inPage
  · constructor
    case pos => exact fun _ _ => pos
    case owned => exact fun d owner => by rw [unowned] at owner; cases owner
    case listed => exact fun d desc found b inside same => absurd same (unlisted d desc found b inside)
    case counted =>
      intro a' d desc now owner
      rw [here] at now
      cases now
      cases owner
    case big =>
      intro a' now _
      rw [here] at now
      cases now
      exact ⟨pages, bounded⟩
    case split =>
      intro d desc b _ block same
      have owner := block.1
      rw [same, unowned] at owner
      cases owner
    case held =>
      intro x inside same
      cases List.mem_cons.mp inside with
      | inl new =>
          subst new
          exact .inr ⟨⟨none, cnt⟩, by rw [inPage]; exact here, rfl, offset, fits⟩
      | inr old => exact absurd same (idle x old)

theorem Sound.dropBig (s : Sound h live none) (there : h.arena (b / pgSize) = some a)
    (big : a.desc = none) (offset : b % pgSize = arenaSize) :
    Sound (h.setArena (b / pgSize) none) (live.filter fun x => some x.ptr ≠ some b) none := by
  have gone : (h.setArena (b / pgSize) none).arena (b / pgSize) = none := by
    rw [setArena_get, if_pos rfl]
  have unowned : (h.setArena (b / pgSize) none).descOf (b / pgSize) = none := by
    rw [Heap.descOf, gone, Option.bind_none]
  have noBlock {d b' : Nat} (block : h.IsBlock d b') : b' / pgSize ≠ b / pgSize := by
    intro same
    have owner := block.1
    rw [same, descOf_eq there, big] at owner
    cases owner
  refine s.replace _ (elsewhere_setArena s _ ?_ fun x other => ?_) ?_ fun q none => by cases none
  · exact s.unique.sublist (List.filter_sublist.map _)
  · rw [List.mem_filter]
    refine and_iff_left ?_
    simp only [ne_eq, Option.some.injEq, decide_eq_true_eq]
    rintro rfl
    exact other rfl
  · constructor
    case pos => exact fun a' now => by rw [gone] at now; cases now
    case owned => exact fun d owner => by rw [unowned] at owner; cases owner
    case listed =>
      exact fun d desc found b' inside same => absurd same (noBlock (s.listed d desc found b' inside))
    case counted => exact fun a' d desc now => by rw [gone] at now; cases now
    case big => exact fun a' now => by rw [gone] at now; cases now
    case split =>
      intro d desc b' _ block same
      have owner := block.1
      rw [same, unowned] at owner
      cases owner
    case held =>
      intro x inside same
      obtain ⟨used, other⟩ := List.mem_filter.mp inside
      obtain ⟨d, _, _, block, _⟩ | ⟨a', _, _, place, _⟩ := s.held x used
      · exact absurd same (noBlock block)
      · simp only [ne_eq, Option.some.injEq, decide_eq_true_eq] at other
        refine absurd ?_ other
        rw [← Nat.div_add_mod x.ptr pgSize, ← Nat.div_add_mod b pgSize, same, place, offset]

end Big
end CS162.Pintos.KernelHeap
