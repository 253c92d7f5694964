import Mathlib.Logic.Function.Basic
import CS162.Library.MachineInt
import CS162.Library.Transition

/-!
The work queue of the thread pool (hw-http: wq.c) between any number of threads
that accept connections and push them and threads that pop and serve them.

`DL_APPEND` and `DL_DELETE` are those of a list, and `calloc` succeeds. Any thread
may take the next step, and a thread that waits may wake up without a signal. What
is pushed is a descriptor that `accept` has just returned: a non-negative `int` of
no descriptor that is open, so in particular not that of the listening socket or
of a connection that is still in the queue or being served.
-/

namespace CS162.HttpServer.WorkQueue
open CS162.Library
universe u

/-- Where a thread is. Inside `wq_push` and `wq_pop` a place is named by what was
done last. -/
inductive Pc where
  | idle
  | accepted (fd : Int)
  | pushLocked (fd : Int)
  | pushLinked
  | pushCounted
  | pushBroadcast
  | popCalled
  | popLocked
  | popWaiting
  | popWoken
  | popRead (fd : Int)
  | popCounted (fd : Int)
  | popDeleted (fd : Int)
  | serving (fd : Int)
  /-- It has read from a `head` that is `NULL`. -/
  | crashed
  deriving DecidableEq

structure State (ι : Type u) where
  size : Int
  /-- The linked items, from `head` on. -/
  items : List Int
  mutex : Option ι
  pc : ι → Pc
  /-- The descriptors that are open. -/
  opened : Int → Bool
  /-- What `wq_push` has linked so far. -/
  pushed : List Int
  /-- What calls of `wq_pop` have returned so far, and to whom. -/
  returned : List (ι × Int)

section Steps
variable {ι : Type u} [DecidableEq ι]

/-- Where a thread goes on that has waited for the mutex. -/
def afterLock : Pc → Option Pc
  | .accepted fd => some (.pushLocked fd)
  | .popCalled => some .popLocked
  | .popWoken => some .popLocked
  | _ => none

/-- `pthread_cond_broadcast` -/
def wake (p : Pc) : Pc := if p = .popWaiting then .popWoken else p

def State.move (s : State ι) (t : ι) (p : Pc) : State ι := { s with pc := Function.update s.pc t p }

inductive Step (s : State ι) (t : ι) : State ι → Prop where
  | accept (fd : Int) (here : s.pc t = .idle) (range : 0 ≤ fd ∧ fd ≤ intMax) (fresh : s.opened fd = false) :
      Step s t { s.move t (.accepted fd) with opened := Function.update s.opened fd true }
  | pop (here : s.pc t = .idle) : Step s t (s.move t .popCalled)
  | lock (p : Pc) (waits : afterLock (s.pc t) = some p) (free : s.mutex = none) :
      Step s t { s.move t p with mutex := some t }
  | link (fd : Int) (here : s.pc t = .pushLocked fd) :
      Step s t { s.move t .pushLinked with items := s.items ++ [fd], pushed := s.pushed ++ [fd] }
  | countUp (here : s.pc t = .pushLinked) :
      Step s t { s.move t .pushCounted with size := toInt32 (s.size + 1) }
  | broadcast (here : s.pc t = .pushCounted) :
      Step s t { s with pc := Function.update (fun u => wake (s.pc u)) t .pushBroadcast }
  | pushed (here : s.pc t = .pushBroadcast) : Step s t { s.move t .idle with mutex := none }
  | wait (here : s.pc t = .popLocked) (empty : s.size = 0) :
      Step s t { s.move t .popWaiting with mutex := none }
  | spurious (here : s.pc t = .popWaiting) : Step s t (s.move t .popWoken)
  | read (fd : Int) (here : s.pc t = .popLocked) (some_size : s.size ≠ 0) (head : s.items.head? = some fd) :
      Step s t (s.move t (.popRead fd))
  | crash (here : s.pc t = .popLocked) (some_size : s.size ≠ 0) (head : s.items.head? = none) :
      Step s t (s.move t .crashed)
  | countDown (fd : Int) (here : s.pc t = .popRead fd) :
      Step s t { s.move t (.popCounted fd) with size := toInt32 (s.size - 1) }
  | delete (fd : Int) (here : s.pc t = .popCounted fd) (head : s.items ≠ []) :
      Step s t { s.move t (.popDeleted fd) with items := s.items.tail }
  | crashDelete (fd : Int) (here : s.pc t = .popCounted fd) (head : s.items = []) :
      Step s t (s.move t .crashed)
  | popped (fd : Int) (here : s.pc t = .popDeleted fd) :
      Step s t { s.move t (.serving fd) with mutex := none, returned := s.returned ++ [(t, fd)] }
  | close (fd : Int) (here : s.pc t = .serving fd) :
      Step s t { s.move t .idle with opened := Function.update s.opened fd false }
  | leave (fd : Int) (here : s.pc t = .serving fd) : Step s t (s.move t .idle)

/-- After `wq_init`, with the listening socket open. -/
structure Start (listener : Int) (s : State ι) : Prop where
  size : s.size = 0
  items : s.items = []
  mutex : s.mutex = none
  pc : ∀ t, s.pc t = .idle
  pushed : s.pushed = []
  returned : s.returned = []
  listening : s.opened listener = true
  range : ∀ fd, s.opened fd = true → 0 ≤ fd ∧ fd ≤ intMax

def system (ι : Type u) [DecidableEq ι] (listener : Int) : System (State ι) ι where
  init := Start listener
  step s t s' := Step s t s'

end Steps
end CS162.HttpServer.WorkQueue
