import CS162.Library.ByteMemory
import CS162.Pintos.KernelHeapLaw

/-!
The bytes that the block allocator writes (proj-pregame: threads/malloc.c, with
threads/palloc.c and lib/kernel/list.c below it): the headers of arenas, the links of
free blocks, the 0xcc in what was freed, and what `calloc` and `realloc` put into the
new block. All that the calls decide on is in the `Heap`. A `memset` or `memcpy` that
leaves its blocks ends the run, as a failing `ASSERT` does: `none`.
-/

namespace CS162.Pintos.KernelHeap
open CS162.Library

def arenaMagic : Nat := 0x9a548eed

/-- The heap with the memory it is in; the array `descs` is at `descsAt`. -/
structure Kernel where
  heap : Heap
  mem : Memory
  descsAt : Nat

/-- The links of a list, with the element in front of it and the one behind. -/
def links (mem : Memory) (tail : Nat) : Nat → List Nat → Memory
  | _, [] => mem
  | prev, b :: list => links ((mem.store b 4 prev).store (b + 4) 4 (list.headD tail)) tail b list

namespace Kernel
variable (k : Kernel)

/-- `&descs[d]`. A `struct desc` takes 48 bytes, `free_list` begins at the ninth. -/
def descAddr (d : Nat) : Nat := k.descsAt + 48 * d

def setPool (pool : Pool) : Kernel := { k with heap := { k.heap with pool := pool } }

/-- The list of a descriptor, between its head and its tail. -/
def setList (d : Nat) (list : List Nat) : Kernel :=
  { k with
    heap := k.heap.setList d list
    mem := links k.mem (k.descAddr d + 16) (k.descAddr d + 8) list }

/-- `malloc`: initialize the arena. -/
def initArena (page : Nat) (a : Arena) : Kernel :=
  { k with
    heap := k.heap.setArena page (some a)
    mem := ((k.mem.store (pgSize * page) 4 arenaMagic).store (pgSize * page + 4) 4
      (a.desc.elim 0 k.descAddr)).store (pgSize * page + 8) 4 a.freeCnt }

def setFreeCnt (page : Nat) (a : Arena) (cnt : Nat) : Kernel :=
  { k with
    heap := k.heap.setArena page (some { a with freeCnt := cnt })
    mem := k.mem.store (pgSize * page + 8) 4 cnt }

/-- `palloc_free_multiple`; the 0xcc is also over the header. -/
def pallocFreeMultiple (page pageCnt : Nat) : Option Kernel :=
  (k.heap.pool.pallocFreeMultiple page pageCnt).map fun pool =>
    { k with
      heap := { k.heap with pool := pool }.setArena page none
      mem := k.mem.fill (pgSize * page) (pgSize * pageCnt) 0xcc }

/-- `memset`, in a block. -/
def memset (b : Nat) (byte : UInt8) (size : Nat) : Option Kernel := do
  let bytes ← (k.heap.blockSize b).toOption
  if size ≤ bytes then return { k with mem := k.mem.fill b size byte } else none

/-- `memcpy`, from a block to another one. -/
def memcpy (dst src size : Nat) : Option Kernel := do
  let room ← (k.heap.blockSize dst).toOption
  let bytes ← (k.heap.blockSize src).toOption
  if size ≤ room ∧ size ≤ bytes then return { k with mem := k.mem.copy dst k.mem src size } else none

/-- `malloc` of more than the largest block. -/
def mallocBig (size : Nat) : Option (Option Nat × Kernel) :=
  let pageCnt := (size + arenaSize + pgSize - 1) % 2 ^ 32 / pgSize
  match k.heap.pool.pallocGetMultiple pageCnt with
  | none => none
  | some (none, pool) => some (none, k.setPool pool)
  | some (some page, pool) =>
      some (some (pgSize * page + arenaSize), (k.setPool pool).initArena page ⟨none, pageCnt⟩)

/-- `malloc`: give an empty descriptor the blocks of a new arena, if a page is left. -/
def refill (d : Nat) : Option (Bool × Kernel) := do
  let desc ← (k.heap.descAt d).toOption
  if desc.freeList = [] then
    match k.heap.pool.pallocGetMultiple 1 with
    | none => none
    | some (none, pool) => return (false, k.setPool pool)
    | some (some page, pool) =>
        let blocks := (List.range desc.blocksPerArena).map (arenaToBlock page desc.blockSize)
        let k := (k.setPool pool).initArena page ⟨some d, desc.blocksPerArena⟩
        return (true, k.setList d blocks)
  else return (true, k)

/-- `malloc`: get a block from the free list. -/
def takeBlock (d : Nat) : Option (Option Nat × Kernel) := do
  let desc ← (k.heap.descAt d).toOption
  match desc.freeList with
  | [] => none
  | b :: list =>
      let k := k.setList d list
      let (page, a) ← (k.heap.blockToArena b).toOption
      return (some b, k.setFreeCnt page a (a.freeCnt - 1))

def malloc (size : Nat) : Option (Option Nat × Kernel) :=
  if size = 0 then some (none, k) else
  match k.heap.descs.findIdx? fun desc => desc.blockSize ≥ size with
  | none => k.mallocBig size
  | some d => do
      let (filled, k) ← k.refill d
      if filled then k.takeBlock d else return (none, k)

def calloc (a b : Nat) : Option (Option Nat × Kernel) :=
  let size := a * b % 2 ^ 32
  if size < a ∨ size < b then some (none, k) else do
    let (p, k) ← k.malloc size
    match p with
    | none => return (none, k)
    | some b => return (some b, ← k.memset b 0 size)

/-- `free`: give an unused arena back. -/
def freeArena (page d : Nat) : Option Kernel := do
  let desc ← (k.heap.descAt d).toOption
  let blocks := (List.range desc.blocksPerArena).map (arenaToBlock page desc.blockSize)
  let list ← (Heap.listRemove desc.freeList blocks).toOption
  (k.setList d list).pallocFreeMultiple page 1

def free : Option Nat → Option Kernel
  | none => some k
  | some b => do
      let (page, a) ← (k.heap.blockToArena b).toOption
      match a.desc with
      | some d =>
          let desc ← (k.heap.descAt d).toOption
          let k := { k with mem := k.mem.fill b desc.blockSize 0xcc }
          let k := (k.setList d (b :: desc.freeList)).setFreeCnt page a (a.freeCnt + 1)
          if a.freeCnt + 1 ≥ desc.blocksPerArena then
            if a.freeCnt + 1 = desc.blocksPerArena then k.freeArena page d else none
          else return k
      | none => k.pallocFreeMultiple page a.freeCnt

def realloc (old : Option Nat) (newSize : Nat) : Option (Option Nat × Kernel) :=
  if newSize = 0 then do
    let k ← k.free old
    return (none, k)
  else do
    let (new, k) ← k.malloc newSize
    match old, new with
    | some b, some n =>
        let oldSize ← (k.heap.blockSize b).toOption
        let minSize := if newSize < oldSize then newSize else oldSize
        let k ← k.memcpy n b minSize
        let k ← k.free (some b)
        return (new, k)
    | _, _ => return (new, k)

/-- The room of a block, and the bytes in it. -/
def room (b : Nat) : Nat :=
  match k.heap.blockSize b with
  | .ok n => n
  | .error _ => 0

def bytes (b : Nat) : List UInt8 := k.mem.readBytes b (k.room b)

end Kernel

/-- The callers hold the `live` blocks, other parts of the kernel the `foreign` pages. -/
structure KernelWorld where
  kernel : Kernel
  live : List Block
  foreign : List Nat

/-- A call, or a byte that a caller or another part of the kernel writes. -/
inductive Event where
  | call (a : Action)
  | store (addr : Nat) (byte : UInt8)
  deriving DecidableEq

namespace KernelWorld
variable (w : KernelWorld)

def ptrs : List Nat := w.live.map Block.ptr

/-- Any `size_t`, and pointers in use. Callers write to their own blocks and pages. -/
def allows : Event → Bool
  | .call (.malloc size) => size < 2 ^ 32
  | .call (.calloc a b) => a < 2 ^ 32 && b < 2 ^ 32
  | .call (.realloc old size) => size < 2 ^ 32 && old.all fun b => decide (b ∈ w.ptrs)
  | .call (.free p) => p.all fun b => decide (b ∈ w.ptrs)
  | .call (.takePages _) => true
  | .call (.givePage page) => page ∈ w.foreign
  | .store addr _ => addr / pgSize ∈ w.foreign ||
      w.live.any fun x => x.ptr ≤ addr && addr < x.ptr + w.kernel.room x.ptr

def add (result : Option Nat × Kernel) (size : Nat) : KernelWorld :=
  { w with
    kernel := result.2
    live := match result.1 with
      | some b => ⟨b, size⟩ :: w.live
      | none => w.live }

def drop (p : Option Nat) : KernelWorld :=
  { w with live := w.live.filter fun x => some x.ptr ≠ p }

def perform : Event → Option KernelWorld
  | .call (.malloc size) => do return w.add (← w.kernel.malloc size) size
  | .call (.calloc a b) => do return w.add (← w.kernel.calloc a b) (a * b)
  | .call (.realloc old size) => do
      let result ← w.kernel.realloc old size
      if size = 0 ∨ result.1.isSome then return (w.drop old).add result size
      else return w.add result size
  | .call (.free p) => do return { w.drop p with kernel := ← w.kernel.free p }
  | .call (.takePages cnt) =>
      match w.kernel.heap.pool.pallocGetMultiple cnt with
      | none => none
      | some (none, pool) => some { w with kernel := w.kernel.setPool pool }
      | some (some page, pool) =>
          some { w with
            kernel := w.kernel.setPool pool
            foreign := List.range' page cnt ++ w.foreign }
  | .call (.givePage page) => do
      let k ← w.kernel.pallocFreeMultiple page 1
      return { w with kernel := k, foreign := w.foreign.filter fun i => i ≠ page }
  | .store addr byte =>
      some { w with kernel := { w.kernel with mem := Function.update w.kernel.mem addr byte } }

def next (e : Event) : Option KernelWorld := if w.allows e then w.perform e else none

end KernelWorld

/-- The memory may hold anything when `malloc_init` is over. -/
def KernelStarted (w : KernelWorld) : Prop := Started ⟨w.kernel.heap, w.live, w.foreign⟩

def kernelMemory : System KernelWorld Event := .ofNext KernelStarted KernelWorld.next

end CS162.Pintos.KernelHeap
