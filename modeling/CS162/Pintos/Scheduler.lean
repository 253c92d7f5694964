import Mathlib.Logic.Function.Basic
import CS162.Library.Transition

/-!
The thread scheduler (proj-pregame: threads/thread.c) under the FIFO policy.
Threads are known by the page their `struct thread` lies in. Every function here
runs with interrupts off; between two of them any thread may be preempted, which
is a yield like any other. A failing `ASSERT` is a `Panic`.

`trace` is a history variable: the creation and destruction of threads and every
assignment to `status`. Time slices, address spaces, stack frames and the names
and priorities of threads decide nothing under this policy and are left out.
-/

namespace CS162.Pintos.Scheduler
open CS162.Library
universe u

inductive Status where
  | running
  | ready
  | blocked
  | dying
  deriving DecidableEq

inductive Panic where
  | notThread
  | notRunning
  | notBlocked
  | stillRunning
  | prevIsCurrent
  deriving DecidableEq

/-- `struct thread`; `runsIdle` tells whether its function is `idle`. -/
structure Thread where
  tid : Nat
  status : Status
  runsIdle : Bool
  deriving DecidableEq

inductive Event (ι : Type u) where
  | create (t : ι)
  | set (t : ι) (status : Status)
  | free (t : ι)
  deriving DecidableEq

/-- The statics of thread.c. A page without a thread is free, `running` is the
thread the stack pointer is in. -/
structure Kernel (ι : Type u) where
  thread : ι → Option Thread
  fifoReadyList : List ι
  allList : List ι
  idleThread : Option ι
  initialThread : ι
  running : ι
  nextTid : Nat
  trace : List (Event ι)

namespace Kernel
variable {ι : Type u} [DecidableEq ι] (k : Kernel ι)

def status (t : ι) : Option Status := (k.thread t).map Thread.status

def setStatus (t : ι) (status : Status) : Kernel ι :=
  { k with
    thread := Function.update k.thread t ((k.thread t).map fun th => { th with status := status })
    trace := .set t status :: k.trace }

def threadCurrent : Except Panic ι :=
  match k.status k.running with
  | none => .error .notThread
  | some .running => .ok k.running
  | some _ => .error .notRunning

def threadEnqueue (t : ι) : Kernel ι := { k with fifoReadyList := k.fifoReadyList ++ [t] }

def initThread (t : ι) (runsIdle : Bool) : Kernel ι :=
  { k with
    thread := Function.update k.thread t (some ⟨0, .blocked, runsIdle⟩)
    allList := k.allList ++ [t]
    trace := .create t :: k.trace }

/-- `allocate_tid`, for the thread at `t`. -/
def allocateTid (t : ι) : Kernel ι :=
  { k with
    thread := Function.update k.thread t ((k.thread t).map fun th => { th with tid := k.nextTid })
    nextTid := k.nextTid + 1 }

def threadUnblock (t : ι) : Except Panic (Kernel ι) :=
  match k.status t with
  | none => .error .notThread
  | some .blocked => .ok ((k.threadEnqueue t).setStatus t .ready)
  | some _ => .error .notBlocked

def threadScheduleFifo : Option ι × Kernel ι :=
  match k.fifoReadyList with
  | t :: rest => (some t, { k with fifoReadyList := rest })
  | [] => (k.idleThread, k)

/-- `palloc_free_page`, of a thread's page. -/
def freePage (t : ι) : Kernel ι :=
  { k with thread := Function.update k.thread t none, trace := .free t :: k.trace }

/-- `thread_switch_tail`. Looking at a freed `prev` is a panic here. -/
def threadSwitchTail (prev : Option ι) : Except Panic (Kernel ι) :=
  let k := k.setStatus k.running .running
  match prev with
  | none => .ok k
  | some prev =>
      match k.status prev with
      | none => .error .notThread
      | some .dying =>
          if prev = k.initialThread then .ok k
          else if prev = k.running then .error .prevIsCurrent
          else .ok (k.freePage prev)
      | some _ => .ok k

/-- `schedule`, up to the end of the switch. -/
def schedule : Except Panic (Kernel ι) :=
  let cur := k.running
  let (next, k) := k.threadScheduleFifo
  if k.status cur = some .running then .error .stillRunning else
  match next with
  | none => .error .notThread
  | some next =>
      if k.status next = none then .error .notThread
      else if cur = next then k.threadSwitchTail none
      else threadSwitchTail { k with running := next } (some cur)

def threadBlock : Except Panic (Kernel ι) := do
  let cur ← k.threadCurrent
  (k.setStatus cur .blocked).schedule

def threadYield : Except Panic (Kernel ι) := do
  let cur ← k.threadCurrent
  let k := if k.idleThread = some cur then k else k.threadEnqueue cur
  (k.setStatus cur .ready).schedule

def threadExit : Except Panic (Kernel ι) := do
  let cur ← k.threadCurrent
  let k := { k with allList := k.allList.erase cur }
  (k.setStatus cur .dying).schedule

/-- `thread_create` in the page `t`, uninterrupted. -/
def threadCreate (t : ι) (runsIdle : Bool) : Except Panic (Kernel ι) :=
  ((k.initThread t runsIdle).allocateTid t).threadUnblock t

end Kernel

section Start
variable {ι : Type u} [DecidableEq ι] (main idlePage : ι)

def threadInit : Kernel ι :=
  let k : Kernel ι :=
    { thread := fun _ => none, fifoReadyList := [], allList := [], idleThread := none,
      initialThread := main, running := main, nextTid := 1, trace := [] }
  (((k.initThread main false).setStatus main .running).allocateTid main)

/-- `thread_start` up to `intr_enable`. -/
def threadStart : Except Panic (Kernel ι) := (threadInit main).threadCreate idlePage true

end Start

/-- What happens next: a part of `thread_create` in the page `palloc_get_page`
gave, a call of the running thread, or an interrupt. The last constructor is the
first statement of `idle`. -/
inductive Action (ι : Type u) where
  | initThread (t : ι)
  | allocateTid (t : ι)
  | unblock (t : ι)
  | block
  | yield
  | exit
  | becomeIdle
  deriving DecidableEq

def Action.switches {ι : Type u} : Action ι → Bool
  | .block | .yield | .exit => true
  | _ => false

namespace Kernel
variable {ι : Type u} [DecidableEq ι] (k : Kernel ι)

/-- The running thread executes `idle`. -/
def idles : Bool := (k.thread k.running).any Thread.runsIdle

/-- Only blocked threads are unblocked, pages come from the free ones, and the idle
thread follows its code: it blocks once it has set `idle_thread` and never exits. -/
def allows : Action ι → Bool
  | .initThread t => k.thread t = none
  | .allocateTid t => k.status t = some .blocked
  | .unblock t => k.status t = some .blocked
  | .block => !k.idles || k.idleThread.isSome
  | .yield => true
  | .exit => !k.idles
  | .becomeIdle => k.idles && k.idleThread.isNone

def perform : Action ι → Except Panic (Kernel ι)
  | .initThread t => .ok (k.initThread t false)
  | .allocateTid t => .ok (k.allocateTid t)
  | .unblock t => k.threadUnblock t
  | .block => k.threadBlock
  | .yield => k.threadYield
  | .exit => k.threadExit
  | .becomeIdle => .ok { k with idleThread := some k.running }

def next (a : Action ι) : Option (Kernel ι) :=
  if k.allows a then (k.perform a).toOption else none

end Kernel

def Started {ι : Type u} [DecidableEq ι] (k : Kernel ι) : Prop :=
  ∃ main idlePage, main ≠ idlePage ∧ threadStart main idlePage = .ok k

def scheduler (ι : Type u) [DecidableEq ι] : System (Kernel ι) (Action ι) :=
  .ofNext Started Kernel.next

end CS162.Pintos.Scheduler
