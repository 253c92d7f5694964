import Mathlib.Data.List.Nodup
import CS162.Library.Ownership
import CS162.Pintos.KernelHeap

/-!
The heap's invariant. Blocks are told apart by where they lie: the blocks of a
small arena are the places of its descriptor's size behind the header, and each
is either in use or on the descriptor's free list.
-/

namespace CS162.Pintos.KernelHeap
open CS162.Library

/-- The descriptor that owns the arena at a page. -/
def Heap.descOf (h : Heap) (page : Nat) : Option Nat := (h.arena page).bind Arena.desc

def Desc.sizes (desc : Desc) : Nat × Nat := (desc.blockSize, desc.blocksPerArena)

/-- `b` is a block of a small arena of descriptor `d`. -/
def Heap.IsBlock (h : Heap) (d b : Nat) : Prop :=
  h.descOf (b / pgSize) = some d ∧ ∃ desc, h.descs[d]? = some desc ∧
    ∃ i < desc.blocksPerArena, b = arenaToBlock (b / pgSize) desc.blockSize i

def Arena.span (a : Arena) : Nat := if a.desc = none then a.freeCnt else 1

/-- The pages of the arena that starts at `page`. -/
def Heap.Covers (h : Heap) (page i : Nat) : Prop :=
  ∃ a, h.arena page = some a ∧ page ≤ i ∧ i < page + a.span

/-- How many of the listed blocks lie in the page. -/
def countIn (page : Nat) (list : List Nat) : Nat := list.countP fun b => b / pgSize == page

/-- `full` is the arena that is about to get its first user or has just lost its last. -/
structure Sound (h : Heap) (live : List Block) (full : Option Nat) : Prop where
  fits : ∀ (d : Nat) (desc : Desc), h.descs[d]? = some desc →
    0 < desc.blocksPerArena ∧ 16 ≤ desc.blockSize ∧
      arenaSize + desc.blocksPerArena * desc.blockSize ≤ pgSize
  owned : ∀ page d, h.descOf page = some d → d < h.descs.length
  pages : ∀ page a, h.arena page = some a → 0 < page
  nodup : ∀ (d : Nat) (desc : Desc), h.descs[d]? = some desc → desc.freeList.Nodup
  listed : ∀ (d : Nat) (desc : Desc), h.descs[d]? = some desc → ∀ b ∈ desc.freeList, h.IsBlock d b
  counted : ∀ (page : Nat) (a : Arena) (d : Nat) (desc : Desc), h.arena page = some a →
    a.desc = some d → h.descs[d]? = some desc →
    a.freeCnt = countIn page desc.freeList ∧ a.freeCnt ≤ desc.blocksPerArena ∧
      (a.freeCnt = desc.blocksPerArena → full = some page)
  big : ∀ page a, h.arena page = some a → a.desc = none →
    0 < a.freeCnt ∧ pgSize * a.freeCnt < 2 ^ 32
  unique : (live.map Block.ptr).Nodup
  split : ∀ (d : Nat) (desc : Desc) (b : Nat), h.descs[d]? = some desc → h.IsBlock d b →
    (b ∈ live.map Block.ptr ↔ b ∉ desc.freeList)
  held : ∀ x ∈ live, (∃ (d : Nat) (desc : Desc), h.descs[d]? = some desc ∧ h.IsBlock d x.ptr ∧
      x.size ≤ desc.blockSize) ∨
    ∃ a, h.arena (x.ptr / pgSize) = some a ∧ a.desc = none ∧ x.ptr % pgSize = arenaSize ∧
      x.size + arenaSize ≤ pgSize * a.freeCnt

structure Consistent (w : World) : Prop where
  sound : Sound w.heap w.live none
  shares : Shares (· ∈ w.foreign) w.heap.Covers w.heap.pool.Used

section Place
variable {page blockSize idx : Nat}

theorem arenaToBlock_place (page : Nat) {n : Nat} (inside : idx < n) (fits : arenaSize + n * blockSize ≤ pgSize)
    (some_bytes : 0 < blockSize) :
    arenaToBlock page blockSize idx / pgSize = page ∧
      arenaToBlock page blockSize idx % pgSize = arenaSize + idx * blockSize := by
  have last : (idx + 1) * blockSize ≤ n * blockSize := Nat.mul_le_mul_right _ inside
  rw [Nat.add_mul, Nat.one_mul] at last
  simp only [arenaToBlock, arenaSize, pgSize] at *
  omega

theorem arenaToBlock_injective {i j : Nat} (some_bytes : 0 < blockSize)
    (same : arenaToBlock page blockSize i = arenaToBlock page blockSize j) : i = j := by
  rw [arenaToBlock, arenaToBlock] at same
  exact Nat.eq_of_mul_eq_mul_right some_bytes (by omega)

end Place

section Access
variable {h : Heap} {d page b : Nat} {desc : Desc} {a : Arena}

theorem descAt_eq (found : h.descs[d]? = some desc) : h.descAt d = .ok desc := by
  rw [Heap.descAt, found]

theorem setList_get (d' : Nat) (list : List Nat) :
    (h.setList d list).descs[d']? =
      if d' = d then (h.descs[d]?).map fun desc => { desc with freeList := list }
      else h.descs[d']? := by
  rw [Heap.setList, List.getElem?_modify]
  by_cases same : d' = d
  · rw [if_pos same, same]
    simp
  · rw [if_neg same]
    cases h.descs[d']? <;> simp [Ne.symm same]

theorem setList_self (found : h.descs[d]? = some desc) (list : List Nat) :
    (h.setList d list).descs[d]? = some { desc with freeList := list } := by
  rw [setList_get, if_pos rfl, found, Option.map_some]

theorem setArena_get (page' : Nat) (a : Option Arena) :
    (h.setArena page a).arena page' = if page' = page then a else h.arena page' :=
  Function.update_apply ..

@[simp] theorem setArena_descs (a : Option Arena) : (h.setArena page a).descs = h.descs := rfl

@[simp] theorem setArena_pool (a : Option Arena) : (h.setArena page a).pool = h.pool := rfl

@[simp] theorem setList_arena (list : List Nat) : (h.setList d list).arena = h.arena := rfl

@[simp] theorem setList_pool (list : List Nat) : (h.setList d list).pool = h.pool := rfl

theorem descOf_eq (found : h.arena page = some a) : h.descOf page = a.desc := by
  rw [Heap.descOf, found, Option.bind_some]

/-- Blocks depend on the sizes of the descriptors and the owners of the arenas. -/
theorem isBlock_congr {h h' : Heap}
    (sizes : ∀ d : Nat, (h'.descs[d]?).map Desc.sizes = (h.descs[d]?).map Desc.sizes)
    (owner : h'.descOf (b / pgSize) = h.descOf (b / pgSize)) :
    h'.IsBlock d b ↔ h.IsBlock d b := by
  have half {h h' : Heap}
      (sizes : ∀ d : Nat, (h'.descs[d]?).map Desc.sizes = (h.descs[d]?).map Desc.sizes)
      (owner : h'.descOf (b / pgSize) = h.descOf (b / pgSize)) (block : h.IsBlock d b) :
      h'.IsBlock d b := by
    obtain ⟨mine, desc, found, place⟩ := block
    have same := sizes d
    rw [found, Option.map_some] at same
    obtain ⟨desc', found', eq⟩ := Option.map_eq_some_iff.mp same
    rw [Desc.sizes, Desc.sizes, Prod.mk.injEq] at eq
    exact ⟨owner.trans mine, desc', found', by rw [eq.1, eq.2]; exact place⟩
  exact ⟨half (fun d => (sizes d).symm) owner.symm, half sizes owner⟩

theorem setList_sizes (list : List Nat) (d' : Nat) :
    ((h.setList d list).descs[d']?).map Desc.sizes = (h.descs[d']?).map Desc.sizes := by
  rw [setList_get]
  split
  next same =>
    rw [same]
    cases h.descs[d]? <;> rfl
  next => rfl

/-- The assertions of `block_to_arena` hold of a block of an arena. -/
theorem Sound.blockToArena_small {live : List Block} {full : Option Nat} (s : Sound h live full)
    (block : h.IsBlock d b) :
    ∃ a, h.arena (b / pgSize) = some a ∧ a.desc = some d ∧
      h.blockToArena b = .ok (b / pgSize, a) := by
  obtain ⟨mine, desc, found, i, inside, place⟩ := block
  obtain ⟨a, there, owner⟩ := Option.bind_eq_some_iff.mp mine
  obtain ⟨_, large, fits⟩ := s.fits d desc found
  have at_offset := (arenaToBlock_place (b / pgSize) inside fits (by omega)).2
  rw [← place] at at_offset
  have pos := s.pages _ a there
  refine ⟨a, there, owner, ?_⟩
  simp only [Heap.blockToArena, if_neg (Nat.pos_iff_ne_zero.mp pos), there, owner, descAt_eq found]
  have last : (i + 1) * desc.blockSize ≤ desc.blocksPerArena * desc.blockSize :=
    Nat.mul_le_mul_right _ inside
  rw [Nat.add_mul, Nat.one_mul] at last
  have offset : (b % pgSize + 2 ^ 32 - arenaSize) % 2 ^ 32 = i * desc.blockSize := by
    rw [at_offset]
    simp only [arenaSize, pgSize] at *
    omega
  rw [offset]
  exact if_pos (Nat.mul_mod_left i desc.blockSize)

theorem Sound.blockToArena_big {live : List Block} {full : Option Nat} (s : Sound h live full)
    (there : h.arena (b / pgSize) = some a) (big : a.desc = none)
    (offset : b % pgSize = arenaSize) : h.blockToArena b = .ok (b / pgSize, a) := by
  have pos := s.pages _ a there
  simp only [Heap.blockToArena, if_neg (Nat.pos_iff_ne_zero.mp pos), there, big, if_pos offset]

end Access
end CS162.Pintos.KernelHeap
