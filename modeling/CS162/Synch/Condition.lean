import CS162.Synch.ThreadSteps

/-!
The condition variables of Pintos (threads/synch.c) with one lock. Every call of
`cond_wait` has a semaphore of its own in its stack frame, so the semaphores are
numbered here: number `n` of condition `c` is that of the `n`-th waiter appended to
`c`. A step is one step of the semaphores and locks underneath, or one statement of
`cond_wait`, `cond_signal` or `cond_broadcast`.
-/

namespace CS162.Synch
open CS162.Library
universe u x

/-- The semaphore of a waiter. -/
abbrev Ticket (γ : Type u) := γ × Nat

/-- Where a thread is in the functions of a condition; `upto` is the number of
waiters there were when the broadcast began, if the signal is part of one. -/
inductive Stage (γ : Type u) where
  | outside
  -- `cond_wait`
  | append (c : γ)
  | unlock (k : Ticket γ)
  | sleep (k : Ticket γ)
  | relock (k : Ticket γ)
  | back (k : Ticket γ)
  -- `cond_signal`
  | signal (c : γ) (upto : Option Nat)
  | check (c : γ) (upto : Option Nat)
  | pop (c : γ) (upto : Option Nat)
  | raise (k : Ticket γ) (upto : Option Nat)
  -- `cond_broadcast`
  | broadcast (c : γ) (upto : Nat)
  deriving DecidableEq

/-- After `cond_signal`: back in the loop of `cond_broadcast`, or outside. -/
def Stage.leave {γ : Type u} (c : γ) : Option Nat → Stage γ
  | none => .outside
  | some upto => .broadcast c upto

/-- `issued` and `popped` count the waiters appended to a condition and taken off. -/
structure CondWorld (γ : Type u) (ι : Type x) where
  kernel : World (Ticket γ) Unit ι
  waiters : γ → List Nat
  issued : γ → Nat
  popped : γ → Nat
  stage : ι → Stage γ

inductive CondCall (γ : Type u) where
  | synch (call : Call (Ticket γ) Unit)
  | wait (c : γ)
  | signal (c : γ)
  | broadcast (c : γ)

inductive CondLabel (γ : Type u) (ι : Type x) where
  | thread (t : ι) (call : CondCall γ)
  | unblock (t : ι)

/-- Why a step is not taken; `empty` is the assertion of `list_front`. -/
inductive CondStop where
  | synch (stop : Stop)
  | empty
  deriving DecidableEq

variable {γ : Type u} {ι : Type x} [DecidableEq γ] [DecidableEq ι]

/-- What a thread does with semaphores and locks on its own account: it uses the
lock, and it may be blocked elsewhere. The semaphores of waiters are private. -/
def Call.ordinary : Call (Ticket γ) Unit → Bool
  | .acquire _ | .tryAcquire _ | .release _ | .block => true
  | .down _ | .tryDown _ | .up _ => false

namespace CondWorld
variable (w : CondWorld γ ι) (t : ι)

def goto (stage : Stage γ) : CondWorld γ ι := { w with stage := Function.update w.stage t stage }

/-- The thread calls a function of a semaphore or a lock, and then is at `stage`. -/
def synch (call : Call (Ticket γ) Unit) (stage : Stage γ) : Except CondStop (CondWorld γ ι) :=
  match w.kernel.call t call with
  | .ok kernel => .ok { w.goto t stage with kernel }
  | .error stop => .error (.synch stop)

/-- ASSERT (lock_held_by_current_thread (lock)). -/
def assertHeld (stage : Stage γ) : Except CondStop (CondWorld γ ι) :=
  if w.kernel.lockHeldByCurrentThread t () then .ok (w.goto t stage)
  else .error (.synch .notHeld)

/-- `sema_init (&waiter.semaphore, 0); list_push_back (&cond->waiters, ...)`. -/
def push (c : γ) : CondWorld γ ι :=
  { w.goto t (.unlock (c, w.issued c)) with
    waiters := Function.update w.waiters c (w.waiters c ++ [w.issued c]),
    issued := Function.update w.issued c (w.issued c + 1) }

def popFront (c : γ) (upto : Option Nat) : Except CondStop (CondWorld γ ι) :=
  match w.waiters c with
  | [] => .error .empty
  | n :: rest =>
      .ok { w.goto t (.raise (c, n) upto) with
        waiters := Function.update w.waiters c rest,
        popped := Function.update w.popped c (w.popped c + 1) }

/-- The first statement of a function that is called from outside. -/
def call : CondCall γ → Except CondStop (CondWorld γ ι)
  | .synch call =>
      if call.ordinary then w.synch t call .outside else .error (.synch .disabled)
  | .wait c => w.assertHeld t (.append c)
  | .signal c => .ok (w.goto t (.signal c none))
  -- its callers hold the lock
  | .broadcast c =>
      if w.kernel.lockHeldByCurrentThread t () then .ok (w.goto t (.broadcast c (w.issued c)))
      else .error (.synch .disabled)

/-- The next statement of a thread that is in no function underneath. -/
def advance (call : CondCall γ) : Except CondStop (CondWorld γ ι) :=
  match w.stage t with
  | .outside => w.call t call
  | .append c => .ok (w.push t c)
  | .unlock k => w.synch t (.release ()) (.sleep k)
  | .sleep k => w.synch t (.down k) (.relock k)
  | .relock k => w.synch t (.acquire ()) (.back k)
  | .back _ => .ok (w.goto t .outside)
  | .signal c upto => w.assertHeld t (.check c upto)
  | .check c upto =>
      if (w.waiters c).isEmpty then .ok (w.goto t (.leave c upto)) else .ok (w.goto t (.pop c upto))
  | .pop c upto => w.popFront t c upto
  | .raise k upto => w.synch t (.up k) (.leave k.1 upto)
  | .broadcast c upto =>
      if (w.waiters c).isEmpty then .ok (w.goto t .outside)
      else .ok (w.goto t (.signal c (some upto)))

def next : CondLabel γ ι → Except CondStop (CondWorld γ ι)
  | .thread t call =>
      if w.kernel.status t = .blocked then .error (.synch .disabled)
      else if w.kernel.pc t = .outside then w.advance t call
      else
        -- what is called is for threads outside only
        match w.kernel.advance t .block with
        | .ok kernel => .ok { w with kernel }
        | .error stop => .error (.synch stop)
  | .unblock t =>
      match w.kernel.next (.unblock t) with
      | .ok kernel => .ok { w with kernel }
      | .error stop => .error (.synch stop)

/-- `cond_init` and `lock_init`, with every thread outside. -/
structure Start (w : CondWorld γ ι) : Prop where
  kernel : Synch.Start (fun _ => 0) w.kernel
  waiters : w.waiters = fun _ => []
  issued : w.issued = fun _ => 0
  popped : w.popped = fun _ => 0
  stage : w.stage = fun _ => .outside

end CondWorld

def monitor (γ : Type u) (ι : Type x) [DecidableEq γ] [DecidableEq ι] :
    System (CondWorld γ ι) (CondLabel γ ι) :=
  .ofNext CondWorld.Start fun w a => (w.next a).toOption

end CS162.Synch
