import CS162.Pintos.PageAllocator
import CS162.Pintos.Paging
import CS162.Synch.ThreadSteps

/-!
The page allocator (proj-pregame: threads/palloc.c) used by many threads. A step is
one operation on a single bit of a pool's map, or one step of the pool's lock:
`palloc_get_multiple` scans and flips under the lock, `palloc_free_multiple` checks
and resets without it. Pages go by their numbers. Who owns which page is recorded
beside the pools and read by no function of the source; a caller frees pages it
owns only.
-/

namespace CS162.Pintos
open CS162.Library CS162.Synch
universe x

inductive PoolName where
  | kernel
  | user
  deriving DecidableEq

/-- `enum palloc_flags`, but for PAL_ZERO: clearing pages is left out. -/
structure PallocFlags where
  assert : Bool
  user : Bool
  deriving DecidableEq

def PallocFlags.pool (flags : PallocFlags) : PoolName := if flags.user then .user else .kernel

/-- What `start.S` leaves in `init_ram_pages`: all the memory above 1 MB is above it,
and there are 64 MB at most. -/
structure Ram where
  pages : Nat
  least : 256 ≤ pages
  most : pages ≤ 16384

def divRoundUp (x step : Nat) : Nat := (x + step - 1) / step

/-- `bitmap_buf_size`: a struct of two words and the words for the bits. -/
def bitmapBufSize (bitCnt : Nat) : Nat := 8 + 4 * divRoundUp bitCnt 32

theorem bitmapPages_pos (cnt : Nat) : 0 < divRoundUp (bitmapBufSize cnt) pgsize := by
  simp only [divRoundUp, bitmapBufSize, pgsize]
  omega

/-- `init_pool`, of the pages from number `base` on; `none` is a PANIC. -/
def initPool (base pageCnt : Nat) : Option Pool :=
  let bmPages := divRoundUp (bitmapBufSize pageCnt) pgsize
  if pageCnt < bmPages then none
  else some ⟨base + bmPages, ⟨List.replicate (pageCnt - bmPages) false⟩,
    Nat.add_pos_right base (bitmapPages_pos pageCnt)⟩

def pallocInit (ram : Ram) (userPageLimit : Nat) : Option (PoolName → Pool) := do
  let freeStart := physBase + 1024 * 1024
  let freeEnd := physBase + ram.pages * pgsize
  let freePages := (freeEnd - freeStart) / pgsize
  let userPages := if freePages / 2 > userPageLimit then userPageLimit else freePages / 2
  let kernelPages := freePages - userPages
  let kernelPool ← initPool (pgNo freeStart) kernelPages
  let userPool ← initPool (pgNo (freeStart + kernelPages * pgsize)) userPages
  some fun
    | .kernel => kernelPool
    | .user => userPool

/-- Where a thread is in the allocator. -/
inductive PallocStage where
  | outside
  -- `palloc_get_multiple`
  | start (flags : PallocFlags) (cnt : Nat)
  | scan (flags : PallocFlags) (cnt i j : Nat)
  | flip (flags : PallocFlags) (cnt idx j : Nat)
  | unlock (flags : PallocFlags) (cnt : Nat) (found : Option Nat)
  | leave (flags : PallocFlags) (cnt : Nat) (found : Option Nat)
  -- `palloc_free_multiple`
  | check (pool : PoolName) (idx cnt j : Nat)
  | reset (pool : PoolName) (idx cnt j : Nat)
  deriving DecidableEq

/-- A run of pages handed out, and for which call. -/
structure PallocRun where
  flags : PallocFlags
  cnt : Nat
  page : Nat
  deriving DecidableEq

structure PoolWorld (ι : Type x) where
  kernel : World Empty PoolName ι
  pool : PoolName → Pool
  stage : ι → PallocStage
  owns : ι → Nat → Bool
  returned : ι → Option PallocRun

inductive PallocCall where
  | get (flags : PallocFlags) (cnt : Nat)
  | free (page cnt : Nat)

/-- A thread goes on, with a call if it is outside; or it leaves a page of its own to
another. -/
inductive PallocLabel (ι : Type x) where
  | thread (t : ι) (call : PallocCall)
  | hand (t u : ι) (page : Nat)

/-- Why a step is not taken. -/
inductive PallocStop where
  | disabled
  | synch (stop : Stop)
  | notReached
  | pastEnd
  | notUsed
  | outOfPages
  deriving DecidableEq

variable {ι : Type x} [DecidableEq ι]

def Pool.pageFromPool (pool : Pool) (page : Nat) : Bool :=
  decide (pool.base ≤ page ∧ page < pool.base + pool.usedMap.size)

def Pool.set (pool : Pool) (idx : Nat) (value : Bool) : Pool :=
  { pool with usedMap := pool.usedMap.set idx value }

namespace PoolWorld
variable (w : PoolWorld ι) (t : ι)

def goto (stage : PallocStage) : PoolWorld ι :=
  { w with stage := Function.update w.stage t stage }

def setBit (n : PoolName) (idx : Nat) (value : Bool) : PoolWorld ι :=
  { w with pool := Function.update w.pool n ((w.pool n).set idx value) }

/-- The thread calls a function of a lock, and then is at `stage`. -/
def synch (call : Call Empty PoolName) (stage : PallocStage) : Except PallocStop (PoolWorld ι) :=
  match w.kernel.call t call with
  | .ok kernel => .ok { w.goto t stage with kernel }
  | .error stop => .error (.synch stop)

def bitCnt (n : PoolName) : Nat := (w.pool n).usedMap.size

def setOwns (owner : Nat → Bool) : PoolWorld ι :=
  { w with owns := Function.update w.owns t owner }

def setReturned (run : Option PallocRun) : PoolWorld ι :=
  { w with returned := Function.update w.returned t run }

/-- The pool that a page comes from. -/
def poolOf (page : Nat) : Option PoolName :=
  if (w.pool .kernel).pageFromPool page then some .kernel
  else if (w.pool .user).pageFromPool page then some .user
  else none

/-- `palloc_free_multiple` up to its first look at a bit. From here on the pages are
no longer the caller's. -/
def free (page cnt : Nat) : Except PallocStop (PoolWorld ι) :=
  if page = 0 ∨ cnt = 0 then .ok w
  else
    match w.poolOf page with
    | none => .error .notReached
    | some n =>
        let idx := page - (w.pool n).base
        if idx + cnt ≤ w.bitCnt n then
          .ok ((w.goto t (.check n idx cnt 0)).setOwns t fun p =>
            w.owns t p && !(decide (page ≤ p) && decide (p < page + cnt)))
        else .error .pastEnd

def call : PallocCall → Except PallocStop (PoolWorld ι)
  | .get flags cnt =>
      if cnt = 0 then .ok (w.setReturned t none)
      else w.synch t (.acquire flags.pool) (.start flags cnt)
  | .free page cnt =>
      if ∀ i, i < cnt → w.owns t (page + i) = true then w.free t page cnt else .error .disabled

/-- The end of `palloc_get_multiple`, after `lock_release`. -/
def finish (flags : PallocFlags) (cnt : Nat) : Option Nat → Except PallocStop (PoolWorld ι)
  | some idx =>
      let page := (w.pool flags.pool).base + idx
      .ok (((w.goto t .outside).setReturned t (some ⟨flags, cnt, page⟩)).setOwns t fun p =>
        w.owns t p || (decide (page ≤ p) && decide (p < page + cnt)))
  | none => if flags.assert then .error .outOfPages else .ok ((w.goto t .outside).setReturned t none)

/-- The next statement of a thread that is in no lock function. -/
def advance (call : PallocCall) : Except PallocStop (PoolWorld ι) :=
  match w.stage t with
  | .outside => w.call t call
  | .start flags cnt =>
      if cnt ≤ w.bitCnt flags.pool then .ok (w.goto t (.scan flags cnt 0 0))
      else .ok (w.goto t (.unlock flags cnt none))
  -- `bitmap_contains` from bit `i` on has looked at `j` bits
  | .scan flags cnt i j =>
      if j = cnt then .ok (w.goto t (.flip flags cnt i 0))
      else if (w.pool flags.pool).usedMap.test (i + j) = true then
        if i + 1 ≤ w.bitCnt flags.pool - cnt then .ok (w.goto t (.scan flags cnt (i + 1) 0))
        else .ok (w.goto t (.unlock flags cnt none))
      else .ok (w.goto t (.scan flags cnt i (j + 1)))
  | .flip flags cnt idx j =>
      if j = cnt then .ok (w.goto t (.unlock flags cnt (some idx)))
      else .ok ((w.goto t (.flip flags cnt idx (j + 1))).setBit flags.pool (idx + j) true)
  | .unlock flags cnt found => w.synch t (.release flags.pool) (.leave flags cnt found)
  | .leave flags cnt found => w.finish t flags cnt found
  | .check n idx cnt j =>
      if j = cnt then .ok (w.goto t (.reset n idx cnt 0))
      else if (w.pool n).usedMap.test (idx + j) = true then .ok (w.goto t (.check n idx cnt (j + 1)))
      else .error .notUsed
  | .reset n idx cnt j =>
      if j = cnt then .ok (w.goto t .outside)
      else .ok ((w.goto t (.reset n idx cnt (j + 1))).setBit n (idx + j) false)

def next : PallocLabel ι → Except PallocStop (PoolWorld ι)
  | .thread t call =>
      if w.kernel.status t = .blocked then .error .disabled
      else if w.kernel.pc t = .outside then w.advance t call
      else
        match w.kernel.advance t .block with
        | .ok kernel => .ok { w with kernel }
        | .error stop => .error (.synch stop)
  | .hand t u page =>
      if w.owns t page = true then
        let w := w.setOwns t (Function.update (w.owns t) page false)
        .ok (w.setOwns u (Function.update (w.owns u) page true))
      else .error .disabled

/-- After `palloc_init`, with every thread outside. -/
structure Start (ram : Ram) (userPageLimit : Nat) (w : PoolWorld ι) : Prop where
  kernel : Synch.Start (fun _ => 0) w.kernel
  pool : pallocInit ram userPageLimit = some w.pool
  stage : w.stage = fun _ => .outside
  owns : w.owns = fun _ _ => false
  returned : w.returned = fun _ => none

end PoolWorld

def palloc (ι : Type x) [DecidableEq ι] (ram : Ram) (userPageLimit : Nat) :
    System (PoolWorld ι) (PallocLabel ι) :=
  .ofNext (PoolWorld.Start ram userPageLimit) fun w a => (w.next a).toOption

end CS162.Pintos
