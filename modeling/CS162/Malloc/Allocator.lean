import CS162.Library.ByteMemory
import CS162.Library.MachineInt

/-!
The allocator of hw-memory (mm_alloc.c, mm_alloc.h) over byte-addressed memory,
on a 64-bit machine: a header is two 8-byte links, a flag byte, three bytes of
padding and a 4-byte `int` size, and the contents follow it. Headers live in the
same memory as the contents, so a stale link reads whatever has been written
over the header it points to.

A result `none` is a call that does not return: a loop over the block list that
has gone on for more passes than the region has bytes is in a cycle, and
`mm_realloc` may copy to the null pointer. The stack array of `mm_realloc` is
taken to fit the stack.
-/

namespace CS162.Malloc
open CS162.Library

/-- `sizeof(struct metadata)`. -/
def metasize : Nat := 24

/-- The members of `struct metadata`. -/
inductive Field where
  | prev
  | next
  | free
  | size
  deriving DecidableEq

def Field.offset : Field → Nat
  | .prev => 0
  | .next => 8
  | .free => 16
  | .size => 20

def Field.width : Field → Nat
  | .prev => 8
  | .next => 8
  | .free => 1
  | .size => 4

def get (f : Field) (m : Memory) (p : Nat) : Nat := m.load (p + f.offset) f.width

def set (f : Field) (m : Memory) (p v : Nat) : Memory := m.store (p + f.offset) f.width v

def isFree (m : Memory) (p : Nat) : Bool := get .free m p ≠ 0

def setFree (m : Memory) (p : Nat) (free : Bool) : Memory := set .free m p free.toNat

def sizeOf (m : Memory) (p : Nat) : Int := toInt32 (get .size m p)

/-- Assigning to the `int` member converts the value to `int`. -/
def setSize (m : Memory) (p : Nat) (size : Int) : Memory := set .size m p (toUInt32 size)

/-- `cur->contents`. -/
def contents (p : Nat) : Nat := p + metasize

/-- The program: its memory, the static `header`, where the break started and
where it is now. -/
structure Heap where
  mem : Memory
  header : Nat
  base : Nat
  brk : Nat

/-- More passes than a list of distinct headers in the region can take. -/
def Heap.fuel (h : Heap) : Nat := h.brk - h.base + 1

/-- `sbrk`, which may fail at any time. The caller reads the old break first. -/
def sbrk (h : Heap) (increment : Int) (ok : Bool) : Option Heap :=
  let brk := h.brk + increment
  if ok ∧ h.base ≤ brk ∧ brk < 2 ^ 64 then some { h with brk := brk.toNat } else none

/-- The search loop of `mm_malloc`: the first free block of enough space and the
block before it. Comparing `int` with `size_t` converts the size. -/
def findFit (m : Memory) (size : Nat) : Nat → Nat → Nat → Option (Nat × Nat)
  | 0, _, _ => none
  | fuel + 1, prev, cur =>
      if cur = 0 then some (prev, 0)
      else if isFree m cur && decide (size ≤ toUInt64 (sizeOf m cur)) then some (prev, cur)
      else findFit m size fuel cur (get .next m cur)

/-- Make the space behind `size` bytes of a block a free block of its own. -/
def splitBlock (m : Memory) (cur size : Nat) (extraSpace : Int) : Memory :=
  let m := setSize m cur size
  let extra := contents cur + size
  let m := set .prev m extra cur
  let m := set .next m extra (get .next m cur)
  let m := set .next m cur extra
  let m := if get .next m extra ≠ 0 then set .prev m (get .next m extra) extra else m
  let m := setFree m extra true
  setSize m extra (extraSpace - metasize)

/-- The block found is used, split where the rest can hold a header. -/
def takeBlock (m : Memory) (cur size : Nat) : Memory :=
  let extraSpace := toInt32 (toUInt64 (sizeOf m cur - size))
  let m := if metasize ≤ toUInt32 extraSpace then splitBlock m cur size extraSpace else m
  let m := setFree m cur false
  m.fill (contents cur) (toUInt64 (sizeOf m cur)) 0

/-- Link a new block at the old break behind the last block. -/
def linkBlock (m : Memory) (prev cur size : Nat) : Memory :=
  let m := if prev = 0 then m else set .next m prev cur
  let m := set .prev m cur prev
  let m := set .next m cur 0
  let m := setFree m cur false
  let m := setSize m cur size
  m.fill (contents cur) size 0

/-- `mm_malloc`; `ok` says whether `sbrk` succeeds if it is called. -/
def mmMalloc (h : Heap) (size : Nat) (ok : Bool) : Option (Heap × Nat) :=
  if size = 0 then some (h, 0)
  else match findFit h.mem size h.fuel 0 h.header with
    | none => none
    | some (prev, cur) =>
        if cur ≠ 0 then some ({ h with mem := takeBlock h.mem cur size }, contents cur)
        else match sbrk h (toInt64 (toUInt64 (metasize + size))) ok with
          | none => some (h, 0)
          | some h' =>
              let cur := h.brk
              some ({ h' with mem := linkBlock h.mem prev cur size,
                              header := if prev = 0 then cur else h.header }, contents cur)

/-- The search loop of `mm_free`. -/
def findUsed (m : Memory) (ptr : Nat) : Nat → Nat → Option Nat
  | 0, _ => none
  | fuel + 1, cur =>
      if cur = 0 then some 0
      else if !isFree m cur && decide (contents cur = ptr) then some cur
      else findUsed m ptr fuel (get .next m cur)

/-- `cur->size = cur->size + metasize + other->size`, in unsigned arithmetic. -/
def absorb (m : Memory) (cur other : Nat) : Memory :=
  setSize m cur (toUInt32 (sizeOf m cur + metasize + sizeOf m other))

/-- The first loop of `mm_free`: take in the free blocks from `m` on. -/
def mergeForward (cur : Nat) : Nat → Memory → Nat → Option (Memory × Nat)
  | 0, _, _ => none
  | fuel + 1, mem, m =>
      if m ≠ 0 ∧ isFree mem m then
        let mem := absorb mem cur m
        mergeForward cur fuel mem (get .next mem m)
      else some (mem, m)

/-- The second loop of `mm_free`: take in the free blocks before `m`. -/
def mergeBackward (cur : Nat) : Nat → Memory → Nat → Option (Memory × Nat)
  | 0, _, _ => none
  | fuel + 1, mem, m =>
      let prev := get .prev mem m
      if prev ≠ 0 ∧ isFree mem prev then
        let mem := absorb mem cur prev
        mergeBackward cur fuel mem (get .prev mem m)
      else some (mem, m)

/-- Free the block at `cur` and coalesce its neighbours. -/
def releaseBlock (fuel : Nat) (mem : Memory) (cur : Nat) : Option Memory := do
  let mem := setFree mem cur true
  let (mem, m) ← mergeForward cur fuel mem (get .next mem cur)
  let mem := set .next mem cur m
  let (mem, m) ← mergeBackward cur fuel mem cur
  let mem := setSize mem m (sizeOf mem cur)
  return set .next mem m (get .next mem cur)

def mmFree (h : Heap) (ptr : Nat) : Option Heap :=
  if ptr = 0 then some h
  else match findUsed h.mem ptr h.fuel h.header with
    | none => none
    | some 0 => some h
    | some cur => (releaseBlock h.fuel h.mem cur).map fun mem => { h with mem := mem }

def mmRealloc (h : Heap) (ptr size : Nat) (ok : Bool) : Option (Heap × Nat) :=
  if ptr = 0 then mmMalloc h size ok
  else do
    let h ← mmFree h ptr
    if size = 0 then return (h, 0)
    let tempstr := h.mem.readBytes ptr size
    let (h, nptr) ← mmMalloc h size ok
    if nptr = 0 then none
    else return ({ h with mem := h.mem.writeBytes nptr tempstr }, nptr)

/-- A call of the program, or a store of its own through a pointer it holds. -/
inductive Call where
  | malloc (size : Nat) (ok : Bool)
  | free (ptr : Nat)
  | realloc (ptr size : Nat) (ok : Bool)
  | store (addr : Nat) (byte : UInt8)
  deriving DecidableEq

/-- The heap and the pointers the program holds, with the sizes it asked for. -/
structure World where
  heap : Heap
  live : List (Nat × Nat)

def World.holds (w : World) (ptr : Nat) : Prop := ptr = 0 ∨ ptr ∈ w.live.map Prod.fst

def Fits (size : Nat) : Prop := (metasize + size : Int) ≤ intMax

/-- What `mm_malloc` gets from `sbrk` for this size. -/
def Heap.grown (h : Heap) (size : Nat) (ok : Bool) : Option Heap :=
  sbrk h (toInt64 (toUInt64 (metasize + size))) ok

/-- The size is an `int`, or there is no memory for it. -/
def Heap.Sized (h : Heap) (size : Nat) (ok : Bool) : Prop := (size : Int) ≤ intMax ∨ h.grown size ok = none

/-- What the program may do: free and resize null or live pointers, ask for sizes
that fit an `int` with the header, write where it has allocated. -/
def World.admits (w : World) : Call → Prop
  | .malloc size _ => Fits size
  | .free ptr => w.holds ptr
  | .realloc ptr size _ => w.holds ptr ∧ Fits size
  | .store addr _ => ∃ x ∈ w.live, x.1 ≤ addr ∧ addr < x.1 + x.2

instance (size : Nat) : Decidable (Fits size) :=
  inferInstanceAs (Decidable (_ ≤ _))

instance (w : World) (ptr : Nat) : Decidable (w.holds ptr) :=
  inferInstanceAs (Decidable (_ ∨ _))

instance (w : World) (c : Call) : Decidable (w.admits c) :=
  match c with
  | .malloc size _ => inferInstanceAs (Decidable (Fits size))
  | .free ptr => inferInstanceAs (Decidable (w.holds ptr))
  | .realloc _ _ _ => inferInstanceAs (Decidable (_ ∧ _))
  | .store addr _ => inferInstanceAs (Decidable (∃ x ∈ w.live, x.1 ≤ addr ∧ addr < x.1 + x.2))

def World.drop (w : World) (ptr : Nat) : List (Nat × Nat) := w.live.filter fun x => x.1 ≠ ptr

/-- The null pointer is not held. -/
def hold (live : List (Nat × Nat)) (ptr size : Nat) : List (Nat × Nat) :=
  if ptr = 0 then live else (ptr, size) :: live

def World.call (w : World) : Call → Option World
  | .malloc size ok => (mmMalloc w.heap size ok).map fun r => ⟨r.1, hold w.live r.2 size⟩
  | .free ptr => (mmFree w.heap ptr).map fun h => ⟨h, w.drop ptr⟩
  | .realloc ptr size ok =>
      (mmRealloc w.heap ptr size ok).map fun r => ⟨r.1, hold (w.drop ptr) r.2 size⟩
  | .store addr byte =>
      some { w with heap := { w.heap with mem := w.heap.mem.writeBytes addr [byte] } }

def World.next (w : World) (c : Call) : Option World := if w.admits c then w.call c else none

end CS162.Malloc
