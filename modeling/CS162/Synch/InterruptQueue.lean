import CS162.Synch.ThreadSteps

/-!
The interrupt queue of Pintos (devices/intq.c): a ring of bytes, a place for one
thread that waits for a byte and one for a thread that waits for room, and a lock
for the others. Its functions run with interrupts off, so a thread's step goes from
one point where it blocks, or enters, to the next; an interrupt handler runs a
whole call.
-/

namespace CS162.Synch
open CS162.Library
universe x
variable {ι : Type x} [DecidableEq ι]

/-- `not_full` and `not_empty`, the two things to wait for. -/
inductive Side where
  | notFull
  | notEmpty
  deriving DecidableEq

/-- `intq_getc` and `intq_putc`. -/
inductive Job where
  | getc
  | putc (byte : UInt8)
  deriving DecidableEq

def Job.waitsFor : Job → Side
  | .getc => .notEmpty
  | .putc _ => .notFull

def Job.signals : Job → Side
  | .getc => .notFull
  | .putc _ => .notEmpty

def intqBufsize : Nat := 64

/-- `struct intq`, but for the lock. -/
structure IntQ (ι : Type x) where
  waiter : Side → Option ι
  buf : Nat → UInt8
  head : Nat
  tail : Nat

namespace IntQ
variable (q : IntQ ι)

/-- The position after POS. -/
def next (pos : Nat) : Nat := (pos + 1) % intqBufsize

def empty : Bool := decide (q.head = q.tail)

def full : Bool := decide (next q.head = q.tail)

/-- What a waiter of this side waits for has not come. -/
def lacks : Side → Bool
  | .notFull => q.full
  | .notEmpty => q.empty

def setWaiter (side : Side) (waiter : Option ι) : IntQ ι :=
  { q with waiter := Function.update q.waiter side waiter }

/-- The byte moved, and the byte that `intq_getc` returns. -/
def move : Job → IntQ ι × Option UInt8
  | .getc => ({ q with tail := next q.tail }, some (q.buf q.tail))
  | .putc byte =>
      ({ q with buf := Function.update q.buf q.head byte, head := next q.head }, none)

end IntQ

/-- Where a thread is: blocked in `lock_acquire`, or past `thread_block` in `wait`. -/
inductive Spot where
  | outside
  | lock (job : Job)
  | wait (job : Job)
  deriving DecidableEq

/-- `returned` is what the last call returned, of a thread or of a handler. -/
structure IntQWorld (ι : Type x) where
  kernel : World Empty Unit ι
  queue : IntQ ι
  spot : ι → Spot
  returned : Option ι → Option UInt8

/-- Why a step is not taken: nobody can take it, or an ASSERT fails. -/
inductive Fault where
  | disabled
  | wait
  | signal
  | synch (stop : Stop)
  deriving DecidableEq

/-- A thread goes on, with a call if it is outside; or a handler makes a call. -/
inductive IntQLabel (ι : Type x) where
  | thread (t : ι) (job : Job)
  | handler (job : Job)

namespace IntQWorld
variable (w : IntQWorld ι) (t : ι)

def goto (spot : Spot) : IntQWorld ι := { w with spot := Function.update w.spot t spot }

def wait (job : Job) : Except Fault (IntQWorld ι) :=
  if w.queue.lacks job.waitsFor then
    .ok { w.goto t (.wait job) with
      queue := w.queue.setWaiter job.waitsFor (some t), kernel := w.kernel.threadBlock t }
  else .error .wait

def signal (side : Side) : Except Fault (IntQWorld ι) :=
  if w.queue.lacks side then .error .signal
  else
    match w.queue.waiter side with
    | none => .ok w
    | some u =>
        match w.kernel.threadUnblock u with
        | .ok kernel => .ok { w with kernel, queue := w.queue.setWaiter side none }
        | .error stop => .error (.synch stop)

/-- What follows the loop. -/
def finish (who : Option ι) (job : Job) : Except Fault (IntQWorld ι) :=
  let (queue, byte) := w.queue.move job
  ({ w with queue, returned := Function.update w.returned who byte }).signal job.signals

/-- After `lock_acquire` returned or blocked. -/
def locked (kernel : Except Stop (World Empty Unit ι)) (job : Job) : Except Fault (IntQWorld ι) :=
  match kernel with
  | .error stop => .error (.synch stop)
  | .ok kernel =>
      if kernel.waits t then .ok { w.goto t (.lock job) with kernel }
      else { w with kernel }.wait t job

/-- The call from the test of its loop on. -/
def loop (job : Job) : Except Fault (IntQWorld ι) :=
  if w.queue.lacks job.waitsFor then w.locked t (w.kernel.lockAcquire t ()) job
  else (w.goto t .outside).finish (some t) job

def next : IntQLabel ι → Except Fault (IntQWorld ι)
  | .thread t job =>
      if w.kernel.status t = .blocked then .error .disabled
      else
        match w.spot t with
        | .outside => w.loop t job
        | .lock job => w.locked t (w.kernel.lockResume t ()) job
        | .wait job =>
            match w.kernel.lockRelease t () with
            | .error stop => .error (.synch stop)
            | .ok kernel => { w with kernel }.loop t job
  -- called when the queue is not empty, or not full
  | .handler job => if w.queue.lacks job.waitsFor then .error .disabled else w.finish none job

/-- `intq_init`, with every thread outside. -/
structure Start (w : IntQWorld ι) : Prop where
  kernel : Synch.Start (fun _ => 0) w.kernel
  ready : w.kernel.status = fun _ => .ready
  waiter : w.queue.waiter = fun _ => none
  head : w.queue.head = 0
  tail : w.queue.tail = 0
  spot : w.spot = fun _ => .outside

end IntQWorld

def intq (ι : Type x) [DecidableEq ι] : System (IntQWorld ι) (IntQLabel ι) :=
  .ofNext IntQWorld.Start fun w a => (w.next a).toOption

end CS162.Synch
