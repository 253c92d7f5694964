import CS162.Library.Transition
import Mathlib.Data.Fintype.Defs
import Mathlib.Logic.Function.Basic

/-!
The readers-writers lock of Pintos (threads/synch.c): a monitor lock, two
condition variables and four counters, used by any number of threads. A step is
what one thread does between two points where another may run: an operation on
the monitor, on a condition's list of waiters or on a waiter's semaphore. Every
wait has a semaphore of its own, so `sema i` is the one thread `i` waits on.
-/

namespace CS162.Threads
open CS162.Library
universe u

/-- `struct rw_lock`: the monitor's holder, the waiters of the conditions `read`
and `write`, and the numbers of active and waiting readers and writers. -/
structure RwLock (ι : Type u) where
  holder : Option ι
  read : List ι
  write : List ι
  AR : Int
  WR : Int
  AW : Int
  WW : Int

/-- Where a thread is. -/
inductive Pc where
  | idle
  | acquire (reader : Bool)
  | test (reader : Bool)
  | wait (reader : Bool)
  | unlockWait (reader : Bool)
  | asleep (reader : Bool)
  | relock (reader : Bool)
  | woken (reader : Bool)
  | acquired (reader : Bool)
  | holding (reader : Bool)
  | release (reader : Bool)
  | retract (reader : Bool)
  | signal
  | broadcast
  | unlock
  deriving DecidableEq

structure World (ι : Type u) where
  lock : RwLock ι
  sema : ι → Nat
  pc : ι → Pc

def rwLockInit {ι : Type u} : RwLock ι := ⟨none, [], [], 0, 0, 0, 0⟩

namespace RwLock
variable {ι : Type u} (l : RwLock ι)

/-- The condition of the waiting loop. -/
def blocked (reader : Bool) : Bool :=
  if reader then decide (0 < l.AW + l.WW) else decide (0 < l.AR + l.AW)

def register (reader : Bool) : RwLock ι :=
  if reader then { l with WR := l.WR + 1 } else { l with WW := l.WW + 1 }

def deregister (reader : Bool) : RwLock ι :=
  if reader then { l with WR := l.WR - 1 } else { l with WW := l.WW - 1 }

def activate (reader : Bool) : RwLock ι :=
  if reader then { l with AR := l.AR + 1 } else { l with AW := l.AW + 1 }

def retract (reader : Bool) : RwLock ι :=
  if reader then { l with AR := l.AR - 1 } else { l with AW := l.AW - 1 }

/-- The waiters of the condition readers or writers wait on. -/
def waiters (reader : Bool) : List ι := if reader then l.read else l.write

def setWaiters (reader : Bool) (waiters : List ι) : RwLock ι :=
  if reader then { l with read := waiters } else { l with write := waiters }

/-- What `rw_lock_release` does after its counter: signal a writer, wake all
readers, or neither. -/
def wakes (reader : Bool) : Pc :=
  if reader then
    if l.AR = 0 ∧ 0 < l.WW then .signal else .unlock
  else if 0 < l.WW then .signal
  else if 0 < l.WR then .broadcast
  else .unlock

end RwLock

namespace World
variable {ι : Type u} [DecidableEq ι] (w : World ι) (i : ι)

def goto (pc : Pc) : World ι := { w with pc := Function.update w.pc i pc }

def lockMonitor (pc : Pc) : Option (World ι) :=
  if w.lock.holder.isNone then
    some { w.goto i pc with lock := { w.lock with holder := some i } }
  else none

/-- `lock_release`, which asserts that the thread holds the monitor. -/
def unlockMonitor (pc : Pc) : Option (World ι) :=
  if w.lock.holder = some i then
    some { w.goto i pc with lock := { w.lock with holder := none } }
  else none

/-- `cond_signal`: `sema_up` for the first waiter, if there is one. -/
def condSignal (reader : Bool) : World ι :=
  match w.lock.waiters reader with
  | [] => w
  | j :: rest =>
      { w with lock := w.lock.setWaiters reader rest,
               sema := Function.update w.sema j (w.sema j + 1) }

/-- One step of thread `i`. An idle thread chooses whether it is a reader. -/
def next (a : ι × Bool) : Option (World ι) :=
  let i := a.1
  match w.pc i with
  | .idle => some (w.goto i (.acquire a.2))
  | .acquire reader => w.lockMonitor i (.test reader)
  | .test reader =>
      if w.lock.blocked reader then
        some { w.goto i (.wait reader) with lock := w.lock.register reader }
      else some { w.goto i (.acquired reader) with lock := w.lock.activate reader }
  -- `cond_wait`
  | .wait reader =>
      some { w.goto i (.unlockWait reader) with
        lock := w.lock.setWaiters reader (w.lock.waiters reader ++ [i]),
        sema := Function.update w.sema i 0 }
  | .unlockWait reader => w.unlockMonitor i (.asleep reader)
  | .asleep reader =>
      if 0 < w.sema i then
        some { w.goto i (.relock reader) with sema := Function.update w.sema i (w.sema i - 1) }
      else none
  | .relock reader => w.lockMonitor i (.woken reader)
  | .woken reader => some { w.goto i (.test reader) with lock := w.lock.deregister reader }
  | .acquired reader => w.unlockMonitor i (.holding reader)
  | .holding reader => some (w.goto i (.release reader))
  | .release reader => w.lockMonitor i (.retract reader)
  | .retract reader =>
      let lock := w.lock.retract reader
      some { w.goto i (lock.wakes reader) with lock }
  | .signal => some ((w.condSignal false).goto i .unlock)
  -- `cond_broadcast` signals until nobody waits
  | .broadcast =>
      if w.lock.read.isEmpty then some (w.goto i .unlock) else some (w.condSignal true)
  | .unlock => w.unlockMonitor i .idle

end World

def rwLock (ι : Type u) [DecidableEq ι] : System (World ι) (ι × Bool) :=
  .ofNext (· = ⟨rwLockInit, fun _ => 0, fun _ => .idle⟩) World.next

/-- The thread has acquired the lock and not given it up. -/
def Pc.active (reader : Bool) : Pc → Bool
  | .acquired r | .holding r | .release r | .retract r => r == reader
  | _ => false

/-- The thread is between `WR++` (or `WW++`) and the decrement. -/
def Pc.registered (reader : Bool) : Pc → Bool
  | .wait r | .unlockWait r | .asleep r | .relock r | .woken r => r == reader
  | _ => false

/-- The thread holds the monitor. -/
def Pc.inside : Pc → Bool
  | .test _ | .wait _ | .unlockWait _ | .woken _ | .acquired _ | .retract _ => true
  | .signal | .broadcast | .unlock => true
  | _ => false

/-- The waiter has been signalled: its semaphore is up, or it is past it. -/
def World.signalled {ι : Type u} (w : World ι) (reader : Bool) (i : ι) : Prop :=
  w.pc i = .asleep reader ∧ 0 < w.sema i ∨ w.pc i = .relock reader ∨ w.pc i = .woken reader

end CS162.Threads
