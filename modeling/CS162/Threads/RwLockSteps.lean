import CS162.Library.Counting
import CS162.Threads.RwLock
import Mathlib.Data.Fintype.Card

/-!
What one step of a thread does to the lock, to the semaphores and to its own
place. The invariants of the lock are derived from these facts.
-/

namespace CS162.Threads
open CS162.Library
universe u

namespace RwLock
variable {ι : Type u} (l : RwLock ι) (r r' : Bool) (q : List ι)

def active : Int := if r then l.AR else l.AW

def waiting : Int := if r then l.WR else l.WW

@[simp] theorem active_register : (l.register r).active r' = l.active r' := by
  cases r <;> rfl

@[simp] theorem active_deregister : (l.deregister r).active r' = l.active r' := by
  cases r <;> rfl

@[simp] theorem active_setWaiters : (l.setWaiters r q).active r' = l.active r' := by
  cases r <;> rfl

theorem active_activate : (l.activate r).active r' = l.active r' + (r == r').toNat := by
  cases r <;> cases r' <;> simp [activate, active]

theorem active_retract : (l.retract r).active r' = l.active r' - (r == r').toNat := by
  cases r <;> cases r' <;> simp [retract, active]

@[simp] theorem waiting_activate : (l.activate r).waiting r' = l.waiting r' := by
  cases r <;> rfl

@[simp] theorem waiting_retract : (l.retract r).waiting r' = l.waiting r' := by
  cases r <;> rfl

@[simp] theorem waiting_setWaiters : (l.setWaiters r q).waiting r' = l.waiting r' := by
  cases r <;> rfl

theorem waiting_register : (l.register r).waiting r' = l.waiting r' + (r == r').toNat := by
  cases r <;> cases r' <;> simp [register, waiting]

theorem waiting_deregister : (l.deregister r).waiting r' = l.waiting r' - (r == r').toNat := by
  cases r <;> cases r' <;> simp [deregister, waiting]

@[simp] theorem holder_register : (l.register r).holder = l.holder := by
  cases r <;> rfl

@[simp] theorem holder_deregister : (l.deregister r).holder = l.holder := by
  cases r <;> rfl

@[simp] theorem holder_activate : (l.activate r).holder = l.holder := by
  cases r <;> rfl

@[simp] theorem holder_retract : (l.retract r).holder = l.holder := by
  cases r <;> rfl

@[simp] theorem holder_setWaiters : (l.setWaiters r q).holder = l.holder := by
  cases r <;> rfl

@[simp] theorem waiters_register : (l.register r).waiters r' = l.waiters r' := by
  cases r <;> rfl

@[simp] theorem waiters_deregister : (l.deregister r).waiters r' = l.waiters r' := by
  cases r <;> rfl

@[simp] theorem waiters_activate : (l.activate r).waiters r' = l.waiters r' := by
  cases r <;> rfl

@[simp] theorem waiters_retract : (l.retract r).waiters r' = l.waiters r' := by
  cases r <;> rfl

@[simp] theorem waiters_holder (holder : Option ι) :
    RwLock.waiters { l with holder } r = l.waiters r := rfl

theorem waiters_setWaiters :
    (l.setWaiters r q).waiters r' = if r' = r then q else l.waiters r' := by
  cases r <;> cases r' <;> rfl

theorem wakes_eq : l.wakes r = .signal ∨ l.wakes r = .broadcast ∨ l.wakes r = .unlock := by
  unfold wakes
  split <;> split <;> try split
  all_goals simp

end RwLock

/-- The place of a thread that signals readers or writers. -/
def Pc.signals (r : Bool) : Pc := if r then .broadcast else .signal

/-- The steps of thread `i`, from one place to the next. -/
inductive Move {ι : Type u} [DecidableEq ι] (w : World ι) (i : ι) :
    Pc → Pc → RwLock ι → (ι → Nat) → Prop where
  | start (r : Bool) : Move w i .idle (.acquire r) w.lock w.sema
  | lock (r : Bool) (free : w.lock.holder = none) :
      Move w i (.acquire r) (.test r) { w.lock with holder := some i } w.sema
  | block (r : Bool) (blocked : w.lock.blocked r = true) :
      Move w i (.test r) (.wait r) (w.lock.register r) w.sema
  | activate (r : Bool) (passes : w.lock.blocked r = false) :
      Move w i (.test r) (.acquired r) (w.lock.activate r) w.sema
  | enqueue (r : Bool) :
      Move w i (.wait r) (.unlockWait r) (w.lock.setWaiters r (w.lock.waiters r ++ [i]))
        (Function.update w.sema i 0)
  | sleep (r : Bool) : Move w i (.unlockWait r) (.asleep r) { w.lock with holder := none } w.sema
  | wake (r : Bool) (up : 0 < w.sema i) :
      Move w i (.asleep r) (.relock r) w.lock (Function.update w.sema i (w.sema i - 1))
  | relock (r : Bool) (free : w.lock.holder = none) :
      Move w i (.relock r) (.woken r) { w.lock with holder := some i } w.sema
  | deregister (r : Bool) : Move w i (.woken r) (.test r) (w.lock.deregister r) w.sema
  | hold (r : Bool) : Move w i (.acquired r) (.holding r) { w.lock with holder := none } w.sema
  | release (r : Bool) : Move w i (.holding r) (.release r) w.lock w.sema
  | enter (r : Bool) (free : w.lock.holder = none) :
      Move w i (.release r) (.retract r) { w.lock with holder := some i } w.sema
  | retract (r : Bool) :
      Move w i (.retract r) ((w.lock.retract r).wakes r) (w.lock.retract r) w.sema
  | noWaiter (r : Bool) (none : w.lock.waiters r = []) :
      Move w i (Pc.signals r) .unlock w.lock w.sema
  | wakeFirst (r : Bool) (j : ι) (rest : List ι) (first : w.lock.waiters r = j :: rest) :
      Move w i (Pc.signals r) (if r then .broadcast else .unlock) (w.lock.setWaiters r rest)
        (Function.update w.sema j (w.sema j + 1))
  | leave : Move w i .unlock .idle { w.lock with holder := none } w.sema

section Steps
variable {ι : Type u} [DecidableEq ι] {w w' : World ι} {i j : ι} {c : Bool} {p q : Pc}
  {l : RwLock ι} {s : ι → Nat} {r : Bool}

/-- A step is a move of its thread; the other threads stay where they are. -/
theorem next_move (run : w.next (i, c) = some w') :
    ∃ q l s, Move w i (w.pc i) q l s ∧ w' = ⟨l, s, Function.update w.pc i q⟩ := by
  have lockFree {pc : Pc} (h : w.lockMonitor i pc = some w') :
      w.lock.holder = none ∧
        w' = ⟨{ w.lock with holder := some i }, w.sema, Function.update w.pc i pc⟩ := by
    simp only [World.lockMonitor] at h
    split at h
    next free =>
      cases h
      exact ⟨by simpa using free, rfl⟩
    next => cases h
  have unlocked {pc : Pc} (h : w.unlockMonitor i pc = some w') :
      w' = ⟨{ w.lock with holder := none }, w.sema, Function.update w.pc i pc⟩ := by
    simp only [World.unlockMonitor] at h
    split at h
    next => cases h; rfl
    next => cases h
  simp only [World.next] at run
  cases at_i : w.pc i with
  | idle =>
      simp only [at_i, Option.some.injEq] at run
      exact ⟨_, _, _, .start c, run.symm⟩
  | acquire r =>
      simp only [at_i] at run
      obtain ⟨free, rfl⟩ := lockFree run
      exact ⟨_, _, _, .lock r free, rfl⟩
  | test r =>
      simp only [at_i] at run
      split at run
      next blocked =>
        cases run
        exact ⟨_, _, _, .block r blocked, rfl⟩
      next passes =>
        cases run
        exact ⟨_, _, _, .activate r (by simpa using passes), rfl⟩
  | wait r =>
      simp only [at_i, Option.some.injEq] at run
      exact ⟨_, _, _, .enqueue r, run.symm⟩
  | unlockWait r =>
      simp only [at_i] at run
      exact ⟨_, _, _, .sleep r, unlocked run⟩
  | asleep r =>
      simp only [at_i] at run
      split at run
      next up =>
        cases run
        exact ⟨_, _, _, .wake r up, rfl⟩
      next => cases run
  | relock r =>
      simp only [at_i] at run
      obtain ⟨free, rfl⟩ := lockFree run
      exact ⟨_, _, _, .relock r free, rfl⟩
  | woken r =>
      simp only [at_i, Option.some.injEq] at run
      exact ⟨_, _, _, .deregister r, run.symm⟩
  | acquired r =>
      simp only [at_i] at run
      exact ⟨_, _, _, .hold r, unlocked run⟩
  | holding r =>
      simp only [at_i, Option.some.injEq] at run
      exact ⟨_, _, _, .release r, run.symm⟩
  | release r =>
      simp only [at_i] at run
      obtain ⟨free, rfl⟩ := lockFree run
      exact ⟨_, _, _, .enter r free, rfl⟩
  | retract r =>
      simp only [at_i, Option.some.injEq] at run
      exact ⟨_, _, _, .retract r, run.symm⟩
  | signal =>
      simp only [at_i, Option.some.injEq, World.condSignal] at run
      subst run
      cases front : w.lock.waiters false with
      | nil => exact ⟨_, _, _, .noWaiter false front, rfl⟩
      | cons j rest => exact ⟨_, _, _, .wakeFirst false j rest front, rfl⟩
  | broadcast =>
      simp only [at_i] at run
      split at run
      next none =>
        cases run
        exact ⟨_, _, _, .noWaiter true (by simpa [RwLock.waiters] using none), rfl⟩
      next some =>
        simp only [Option.some.injEq, World.condSignal] at run
        subst run
        cases front : w.lock.waiters true with
        | nil => exact absurd (by simpa [RwLock.waiters] using front) some
        | cons j rest =>
            refine ⟨_, _, _, .wakeFirst true j rest front, ?_⟩
            simp only [if_true, ← at_i, Function.update_eq_self]
  | unlock =>
      simp only [at_i] at run
      exact ⟨_, _, _, .leave, unlocked run⟩

theorem Move.active (h : Move w i p q l s) (r : Bool) :
    l.active r + (p.active r).toNat = w.lock.active r + (q.active r).toNat := by
  cases h with
  | activate r' passes =>
      rw [RwLock.active_activate]
      simp [Pc.active]
  | retract r' =>
      rw [RwLock.active_retract]
      obtain h | h | h := RwLock.wakes_eq (w.lock.retract r') r' <;> simp [h, Pc.active]
  | noWaiter r' none => cases r' <;> simp [Pc.signals, Pc.active]
  | wakeFirst r' j rest first => cases r' <;> simp [Pc.signals, Pc.active]
  | _ => simp [Pc.active] <;> rfl

theorem Move.waiting (h : Move w i p q l s) (r : Bool) :
    l.waiting r + (p.registered r).toNat = w.lock.waiting r + (q.registered r).toNat := by
  cases h with
  | block r' blocked =>
      rw [RwLock.waiting_register]
      simp [Pc.registered]
  | deregister r' =>
      rw [RwLock.waiting_deregister]
      simp [Pc.registered]
  | retract r' =>
      obtain h | h | h := RwLock.wakes_eq (w.lock.retract r') r' <;> simp [h, Pc.registered]
  | noWaiter r' none => cases r' <;> simp [Pc.signals, Pc.registered]
  | wakeFirst r' j rest first => cases r' <;> simp [Pc.signals, Pc.registered]
  | _ => simp [Pc.registered] <;> rfl

theorem Move.holder (h : Move w i p q l s) :
    (q.inside = p.inside ∧ l.holder = w.lock.holder) ∨
    (p.inside = false ∧ q.inside = true ∧ w.lock.holder = none ∧ l.holder = some i) ∨
    (p.inside = true ∧ q.inside = false ∧ l.holder = none) := by
  cases h with
  | lock r' free | relock r' free | enter r' free => exact .inr (.inl ⟨rfl, rfl, free, rfl⟩)
  | sleep r' | hold r' | leave => exact .inr (.inr ⟨rfl, rfl, rfl⟩)
  | retract r' =>
      refine .inl ⟨?_, by simp⟩
      obtain h | h | h := RwLock.wakes_eq (w.lock.retract r') r' <;> rw [h] <;> rfl
  | noWaiter r' none => cases r' <;> exact .inl ⟨rfl, rfl⟩
  | wakeFirst r' j rest first => cases r' <;> exact .inl ⟨rfl, rfl⟩
  | _ => exact .inl ⟨rfl, by simp⟩

theorem Move.admitted (h : Move w i p q l s) (hq : q.active r = true) :
    p.active r = true ∨ p = .test r ∧ q = .acquired r ∧ w.lock.blocked r = false := by
  cases h with
  | activate r' passes =>
      obtain rfl : r' = r := by simpa [Pc.active] using hq
      exact .inr ⟨rfl, rfl, passes⟩
  | retract r' =>
      obtain h | h | h := RwLock.wakes_eq (w.lock.retract r') r' <;> simp [h, Pc.active] at hq
  | wakeFirst r' j rest first => cases r' <;> simp [Pc.active] at hq
  | hold r' | release r' | enter r' => exact .inl hq
  | _ => simp [Pc.active] at hq

end Steps
end CS162.Threads
