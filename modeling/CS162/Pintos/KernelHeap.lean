import Mathlib.Algebra.Group.Nat.Even
import Mathlib.Logic.Function.Basic
import CS162.Library.Transition
import CS162.Pintos.PageAllocator

/-!
The kernel's block allocator (proj-pregame: threads/malloc.c) on top of the page
allocator. A page either starts an arena, whose header is kept apart from the
bytes, or it does not; free lists are lists of block addresses. What is in the
blocks, the clearing of freed ones included, is left out, and so are the locks:
the calls come one after the other. A failing `ASSERT` is a `Panic`.
-/

namespace CS162.Pintos.KernelHeap
open CS162.Library

def pgSize : Nat := 4096

/-- `sizeof (struct arena)`. -/
def arenaSize : Nat := 12

inductive Panic where
  | badArena
  | misaligned
  | badCounter
  | notListed
  | palloc
  deriving DecidableEq

/-- `struct desc`. -/
structure Desc where
  blockSize : Nat
  blocksPerArena : Nat
  freeList : List Nat
  deriving DecidableEq

/-- `struct arena`, with the owning descriptor by its index; `none` is a big block. -/
structure Arena where
  desc : Option Nat
  freeCnt : Nat
  deriving DecidableEq

/-- The descriptors, the arenas by their page numbers and the pool they come from. -/
structure Heap where
  descs : List Desc
  arena : Nat → Option Arena
  pool : Pool

/-- The loop of `malloc_init`, with the slots left in `descs`. -/
def mallocInitFrom : Nat → Nat → List Desc
  | 0, _ => []
  | slots + 1, blockSize =>
      if blockSize < pgSize / 2 then
        ⟨blockSize, (pgSize - arenaSize) / blockSize, []⟩ :: mallocInitFrom slots (blockSize * 2)
      else []

def mallocInit : List Desc := mallocInitFrom 10 16

def arenaToBlock (page blockSize idx : Nat) : Nat := pgSize * page + arenaSize + idx * blockSize

namespace Heap
variable (h : Heap)

def descAt (d : Nat) : Except Panic Desc :=
  match h.descs[d]? with
  | some desc => .ok desc
  | none => .error .badArena

/-- `block_to_arena`; a page without an arena does not have the magic number. -/
def blockToArena (b : Nat) : Except Panic (Nat × Arena) :=
  let page := b / pgSize
  if page = 0 then .error .badArena else
  match h.arena page with
  | none => .error .badArena
  | some a =>
      match a.desc with
      | none => if b % pgSize = arenaSize then .ok (page, a) else .error .misaligned
      | some d => do
          let desc ← h.descAt d
          if (b % pgSize + 2 ^ 32 - arenaSize) % 2 ^ 32 % desc.blockSize = 0 then return (page, a)
          else throw .misaligned

def setList (d : Nat) (list : List Nat) : Heap :=
  { h with descs := h.descs.modify d fun desc => { desc with freeList := list } }

def setArena (page : Nat) (a : Option Arena) : Heap :=
  { h with arena := Function.update h.arena page a }

/-- `malloc` of more than the largest block. The rounding up is done in a `size_t`. -/
def mallocBig (size : Nat) : Except Panic (Option Nat × Heap) :=
  let pageCnt := (size + arenaSize + pgSize - 1) % 2 ^ 32 / pgSize
  match h.pool.pallocGetMultiple pageCnt with
  | none => .error .palloc
  | some (none, pool) => .ok (none, { h with pool := pool })
  | some (some page, pool) =>
      .ok (some (pgSize * page + arenaSize),
        { h with pool := pool }.setArena page (some ⟨none, pageCnt⟩))

/-- `malloc`: give an empty descriptor the blocks of a new arena, if a page is left. -/
def refill (d : Nat) : Except Panic (Bool × Heap) := do
  let desc ← h.descAt d
  if desc.freeList = [] then
    match h.pool.pallocGetMultiple 1 with
    | none => throw .palloc
    | some (none, pool) => return (false, { h with pool := pool })
    | some (some page, pool) =>
        let blocks := (List.range desc.blocksPerArena).map (arenaToBlock page desc.blockSize)
        let h := { h with pool := pool }.setArena page (some ⟨some d, desc.blocksPerArena⟩)
        return (true, h.setList d blocks)
  else return (true, h)

/-- `malloc`: get a block from the free list. -/
def takeBlock (d : Nat) : Except Panic (Option Nat × Heap) := do
  let desc ← h.descAt d
  match desc.freeList with
  | [] => throw .notListed
  | b :: list =>
      let h := h.setList d list
      let (page, a) ← h.blockToArena b
      return (some b, h.setArena page (some { a with freeCnt := a.freeCnt - 1 }))

def malloc (size : Nat) : Except Panic (Option Nat × Heap) :=
  if size = 0 then .ok (none, h) else
  match h.descs.findIdx? fun desc => desc.blockSize ≥ size with
  | none => h.mallocBig size
  | some d => do
      let (filled, h) ← h.refill d
      if filled then h.takeBlock d else return (none, h)

/-- `calloc`; the product is taken in a `size_t`. -/
def calloc (a b : Nat) : Except Panic (Option Nat × Heap) :=
  let size := a * b % 2 ^ 32
  if size < a ∨ size < b then .ok (none, h) else h.malloc size

def blockSize (b : Nat) : Except Panic Nat := do
  let (_, a) ← h.blockToArena b
  match a.desc with
  | some d => return (← h.descAt d).blockSize
  | none => return (pgSize * a.freeCnt + 2 ^ 32 - b % pgSize) % 2 ^ 32

/-- `list_remove` of each block. -/
def listRemove : List Nat → List Nat → Except Panic (List Nat)
  | list, [] => .ok list
  | list, b :: bs => if b ∈ list then listRemove (list.erase b) bs else .error .notListed

/-- `free`: give an unused arena back. -/
def freeArena (page d : Nat) : Except Panic Heap := do
  let desc ← h.descAt d
  let blocks := (List.range desc.blocksPerArena).map (arenaToBlock page desc.blockSize)
  let list ← listRemove desc.freeList blocks
  match h.pool.pallocFreeMultiple page 1 with
  | none => throw .palloc
  | some pool => return ({ h with pool := pool }.setList d list).setArena page none

def free : Option Nat → Except Panic Heap
  | none => .ok h
  | some b => do
      let (page, a) ← h.blockToArena b
      match a.desc with
      | some d =>
          let desc ← h.descAt d
          let h := (h.setList d (b :: desc.freeList)).setArena page
            (some { a with freeCnt := a.freeCnt + 1 })
          if a.freeCnt + 1 ≥ desc.blocksPerArena then
            if a.freeCnt + 1 = desc.blocksPerArena then h.freeArena page d else throw .badCounter
          else return h
      | none =>
          match h.pool.pallocFreeMultiple page a.freeCnt with
          | none => throw .palloc
          | some pool => return { h with pool := pool }.setArena page none

def realloc (old : Option Nat) (newSize : Nat) : Except Panic (Option Nat × Heap) :=
  if newSize = 0 then do
    let h ← h.free old
    return (none, h)
  else do
    let (new, h) ← h.malloc newSize
    match old, new with
    | some b, some _ =>
        let _ ← h.blockSize b
        let h ← h.free (some b)
        return (new, h)
    | _, _ => return (new, h)

end Heap

/-- A block in use: what `malloc` returned, and for what. -/
structure Block where
  ptr : Nat
  size : Nat
  deriving DecidableEq

/-- The callers hold the `live` blocks, other parts of the kernel the `foreign` pages. -/
structure World where
  heap : Heap
  live : List Block
  foreign : List Nat

inductive Action where
  | malloc (size : Nat)
  | calloc (a b : Nat)
  | realloc (old : Option Nat) (size : Nat)
  | free (p : Option Nat)
  | takePages (cnt : Nat)
  | givePage (page : Nat)
  deriving DecidableEq

namespace World
variable (w : World)

def ptrs : List Nat := w.live.map Block.ptr

/-- Sizes that a `size_t` can take with the header added, and pointers in use. -/
def allows : Action → Bool
  | .malloc size => size + arenaSize < 2 ^ 32
  | .calloc a b => a * b + arenaSize < 2 ^ 32
  | .realloc old size => size + arenaSize < 2 ^ 32 && old.all fun b => decide (b ∈ w.ptrs)
  | .free p => p.all fun b => decide (b ∈ w.ptrs)
  | .takePages _ => true
  | .givePage page => page ∈ w.foreign

def add (result : Option Nat × Heap) (size : Nat) : World :=
  { w with
    heap := result.2
    live := match result.1 with
      | some b => ⟨b, size⟩ :: w.live
      | none => w.live }

def drop (p : Option Nat) : World :=
  { w with live := w.live.filter fun x => some x.ptr ≠ p }

def perform : Action → Except Panic World
  | .malloc size => do return w.add (← w.heap.malloc size) size
  | .calloc a b => do return w.add (← w.heap.calloc a b) (a * b)
  | .realloc old size => do
      let result ← w.heap.realloc old size
      if size = 0 ∨ result.1.isSome then return (w.drop old).add result size
      else return w.add result size
  | .free p => do return { w.drop p with heap := ← w.heap.free p }
  | .takePages cnt =>
      match w.heap.pool.pallocGetMultiple cnt with
      | none => .error .palloc
      | some (none, pool) => .ok { w with heap := { w.heap with pool := pool } }
      | some (some page, pool) =>
          .ok { w with
            heap := { w.heap with pool := pool }
            foreign := List.range' page cnt ++ w.foreign }
  | .givePage page =>
      match w.heap.pool.pallocFreeMultiple page 1 with
      | none => .error .palloc
      | some pool =>
          .ok { w with
            heap := { w.heap with pool := pool }
            foreign := w.foreign.filter fun i => i ≠ page }

def next (a : Action) : Option World :=
  if w.allows a then (w.perform a).toOption else none

end World

/-- After `malloc_init`; the pages in use are other parts'. -/
def Started (w : World) : Prop :=
  w.heap.descs = mallocInit ∧ (∀ page, w.heap.arena page = none) ∧ w.live = [] ∧
    ∀ i, w.heap.pool.Used i ↔ i ∈ w.foreign

def kernelHeap : System World Action := .ofNext Started World.next

end CS162.Pintos.KernelHeap
