import CS162.Library.Semaphore
import CS162.Library.Transition
import Mathlib.Algebra.Group.Nat.Defs

/-!
The semaphores and locks of Pintos (threads/synch.c) under every interleaving. A
step is what runs without another thread or an interrupt handler coming in
between: the body of `sema_try_down` or `sema_up`, one turn of the loop in
`sema_down` up to `thread_block`, or one statement of a lock function. A lock's
semaphore is one of the kernel's semaphores, so a thread inside `lock_acquire` is
inside `sema_down`.
-/

namespace CS162.Synch
open CS162.Library
universe u v x

/-- `struct semaphore`. -/
structure Semaphore (ι : Type u) where
  value : Nat
  waiters : List ι

/-- THREAD_READY stands for THREAD_RUNNING too: which thread the scheduler picks
is free. -/
inductive Status where
  | ready
  | blocked
  deriving DecidableEq

/-- Where a thread is in the functions of this file. -/
inductive Pc (κ : Type u) (Λ : Type v) where
  | outside
  -- called `thread_block` in the loop of `sema_down`
  | inDown (s : κ ⊕ Λ)
  | acquire (l : Λ)
  | tryAcquire (l : Λ)
  | acquired (l : Λ)
  | release (l : Λ)
  | released (l : Λ)
  deriving DecidableEq

/-- The statement after `sema_down`. -/
def Pc.after {κ : Type u} {Λ : Type v} : κ ⊕ Λ → Pc κ Λ
  | .inl _ => .outside
  | .inr l => .acquired l

/-- `ups` and `downs` count the operations that returned, and `inside` says who has
returned from acquiring a lock and not called `lock_release` yet. No function of the
source reads or sets these three: the steps do, which call the functions. -/
structure World (κ : Type u) (Λ : Type v) (ι : Type x) where
  sema : κ ⊕ Λ → Semaphore ι
  holder : Λ → Option ι
  status : ι → Status
  pc : ι → Pc κ Λ
  ups : κ ⊕ Λ → Nat
  downs : κ ⊕ Λ → Nat
  inside : Λ → ι → Bool

/-- Why a step is not taken: the thread cannot run, or an ASSERT fails. -/
inductive Stop where
  | disabled
  | notBlocked
  | held
  | notHeld
  deriving DecidableEq

/-- What a thread outside the functions may call. `block` is a `thread_block` of
other code. -/
inductive Call (κ : Type u) (Λ : Type v) where
  | down (k : κ)
  | tryDown (k : κ)
  | up (k : κ)
  | acquire (l : Λ)
  | tryAcquire (l : Λ)
  | release (l : Λ)
  | block

/-- A thread goes on, with a call if it is outside; or an interrupt handler runs,
`tryAcquire` on top of thread `t`; or other code unblocks a thread it blocked. -/
inductive Label (κ : Type u) (Λ : Type v) (ι : Type x) where
  | thread (t : ι) (call : Call κ Λ)
  | tryDown (k : κ)
  | up (k : κ)
  | tryAcquire (t : ι) (l : Λ)
  | unblock (t : ι)

variable {κ : Type u} {Λ : Type v} {ι : Type x} [DecidableEq κ] [DecidableEq Λ] [DecidableEq ι]

namespace World
variable (w : World κ Λ ι) (t : ι) (s : κ ⊕ Λ)

def goto (pc : Pc κ Λ) : World κ Λ ι := { w with pc := Function.update w.pc t pc }

def setInside (l : Λ) (now : Bool) : World κ Λ ι :=
  { w with inside := Function.update w.inside l (Function.update (w.inside l) t now) }

def setHolder (l : Λ) (holder : Option ι) : World κ Λ ι :=
  { w with holder := Function.update w.holder l holder }

def threadBlock : World κ Λ ι := { w with status := Function.update w.status t .blocked }

def threadUnblock : Except Stop (World κ Λ ι) :=
  if w.status t = .blocked then .ok { w with status := Function.update w.status t .ready }
  else .error .notBlocked

/-- `value--`. -/
def takeUnit : World κ Λ ι :=
  { w with sema := Function.update w.sema s ⟨(w.sema s).value - 1, (w.sema s).waiters⟩ }

/-- `value++`, an `unsigned`. -/
def giveUnit (waiters : List ι) : World κ Λ ι :=
  { w with sema := Function.update w.sema s ⟨((w.sema s).value + 1) % 2 ^ 32, waiters⟩ }

/-- `list_push_back (&sema->waiters, ...)`. -/
def enqueue : World κ Λ ι :=
  { w with sema := Function.update w.sema s ⟨(w.sema s).value, (w.sema s).waiters ++ [t]⟩ }

/-- One turn of the loop in `sema_down`, and whether the function returns after it. -/
def semaDown : World κ Λ ι × Bool :=
  if (w.sema s).value = 0 then ((w.enqueue t s).threadBlock t, false) else (w.takeUnit s, true)

def semaTryDown : World κ Λ ι × Bool :=
  if 0 < (w.sema s).value then (w.takeUnit s, true) else (w, false)

def semaUp : Except Stop (World κ Λ ι) :=
  match (w.sema s).waiters with
  | [] => .ok (w.giveUnit s [])
  | t :: rest => (w.threadUnblock t).map fun w => w.giveUnit s rest

def downDone : World κ Λ ι := { w with downs := Function.update w.downs s (w.downs s + 1) }

def upDone : World κ Λ ι := { w with ups := Function.update w.ups s (w.ups s + 1) }

/-- A turn of `sema_down`, counted when it returns. -/
def downTurn : World κ Λ ι :=
  match w.semaDown t s with
  | (w, true) => (w.downDone s).goto t (.after s)
  | (w, false) => w.goto t (.inDown s)

/-- `sema_try_down`, counted when it returns true. -/
def tryDownCall : World κ Λ ι × Bool :=
  match w.semaTryDown s with
  | (w, true) => (w.downDone s, true)
  | (w, false) => (w, false)

/-- `sema_up`, counted when it returns, whatever it did. -/
def upCall : Except Stop (World κ Λ ι) := (w.semaUp s).map fun w => w.upDone s

/-- `holder = thread_current ()`, after which the caller is inside. -/
def takeLock (l : Λ) : World κ Λ ι := (w.setHolder l (some t)).setInside t l true

def lockHeldByCurrentThread (l : Λ) : Prop := w.holder l = some t

instance (l : Λ) : Decidable (w.lockHeldByCurrentThread t l) :=
  inferInstanceAs (Decidable (_ = _))

/-- The first step of a function that thread `t` calls. -/
def call : Call κ Λ → Except Stop (World κ Λ ι)
  | .down k => .ok (w.downTurn t (.inl k))
  | .tryDown k => .ok (w.tryDownCall (.inl k)).1
  | .up k => w.upCall (.inl k)
  | .acquire l =>
      if w.lockHeldByCurrentThread t l then .error .held else .ok (w.goto t (.acquire l))
  | .tryAcquire l =>
      if w.lockHeldByCurrentThread t l then .error .held else .ok (w.goto t (.tryAcquire l))
  | .release l =>
      if w.lockHeldByCurrentThread t l then .ok ((w.setInside t l false).goto t (.release l))
      else .error .notHeld
  | .block => .ok (w.threadBlock t)

/-- The next step of thread `t`. -/
def advance (call : Call κ Λ) : Except Stop (World κ Λ ι) :=
  match w.pc t with
  | .outside => w.call t call
  | .inDown s => .ok (w.downTurn t s)
  | .acquire l => .ok (w.downTurn t (.inr l))
  | .tryAcquire l =>
      match w.tryDownCall (.inr l) with
      | (w, true) => .ok (w.goto t (.acquired l))
      | (w, false) => .ok (w.goto t .outside)
  | .acquired l => .ok ((w.takeLock t l).goto t .outside)
  | .release l => .ok ((w.setHolder l none).goto t (.released l))
  | .released l => (w.upCall (.inr l)).map fun w => w.goto t .outside

/-- `lock_try_acquire` in an interrupt handler: the current thread is the one that
was interrupted. -/
def handlerTryAcquire (l : Λ) : Except Stop (World κ Λ ι) :=
  if w.lockHeldByCurrentThread t l then .error .held
  else
    match w.tryDownCall (.inr l) with
    | (w, true) => .ok (w.takeLock t l)
    | (w, false) => .ok w

/-- The thread is inside the loop of `sema_down`, where interrupts are off. -/
def waits : Prop := ∃ s, w.pc t = .inDown s

instance : Decidable (w.waits t) :=
  match h : w.pc t with
  | .inDown s => isTrue ⟨s, h⟩
  | .outside | .acquire _ | .tryAcquire _ | .acquired _ | .release _ | .released _ =>
      isFalse fun ⟨s, eq⟩ => by
        rw [h] at eq
        cases eq

def next : Label κ Λ ι → Except Stop (World κ Λ ι)
  | .thread t call => if w.status t = .blocked then .error .disabled else w.advance t call
  | .tryDown k => .ok (w.tryDownCall (.inl k)).1
  | .up k => w.upCall (.inl k)
  | .tryAcquire t l =>
      if w.status t = .blocked ∨ w.waits t then .error .disabled else w.handlerTryAcquire t l
  | .unblock t =>
      if w.status t = .ready ∨ w.waits t then .error .disabled else w.threadUnblock t

end World

/-- What `sema_init` and `lock_init` put in. -/
def initialValue (initial : κ → UInt32) : κ ⊕ Λ → Nat
  | .inl k => (initial k).toNat
  | .inr _ => 1

/-- Every thread is outside; some may be blocked by other code. -/
structure Start (initial : κ → UInt32) (w : World κ Λ ι) : Prop where
  sema : w.sema = fun s => ⟨initialValue initial s, []⟩
  holder : w.holder = fun _ => none
  pc : w.pc = fun _ => .outside
  ups : w.ups = fun _ => 0
  downs : w.downs = fun _ => 0
  inside : w.inside = fun _ _ => false

def kernel (Λ : Type v) (ι : Type x) [DecidableEq Λ] [DecidableEq ι] (initial : κ → UInt32) :
    System (World κ Λ ι) (Label κ Λ ι) :=
  .ofNext (Start initial) fun w a => (w.next a).toOption

end CS162.Synch
