import CS162.Synch.SemaphoreLaw
import CS162.Library.Mutex
import Mathlib.Data.Fintype.Basic

/-!
Locks over semaphores, and the law of both. As one lock sees it, each step of the
kernel is one turn of a mutex or nothing, so every lock is always in one of the
states of a mutex, with one thread at most between acquiring and releasing it.
-/

namespace CS162.Synch
open CS162.Library
universe u v x
variable {κ : Type u} {Λ : Type v} {ι : Type x} [DecidableEq Λ]

/-- Whether a thread at this place has the unit of lock `l` without being inside. -/
def Pc.passing (l : Λ) : Pc κ Λ → Option Passage
  | .acquired l' => if l' = l then some .acquired else none
  | .release l' => if l' = l then some .release else none
  | .released l' => if l' = l then some .released else none
  | .outside | .inDown _ | .acquire _ | .tryAcquire _ => none

namespace World
variable (w : World κ Λ ι)

/-- The kernel as lock `l` sees it. -/
def lockSeen (l : Λ) : Mutex ι :=
  ⟨(w.sema (.inr l)).value, w.holder l, w.inside l, fun t => (w.pc t).passing l⟩

variable {w} {w' : World κ Λ ι} {s : κ ⊕ Λ} {t : ι} {pc : Pc κ Λ} {l l' : Λ} {m : Nat}

section Places
variable [DecidableEq ι]

theorem lock_turn_of_seen (same : w'.lockSeen l = w.lockSeen l) :
    Mutex.Turn m (w.lockSeen l) (w'.lockSeen l) := by
  rw [same]
  exact .same _

theorem passing_goto : (fun u => ((w.goto t pc).pc u).passing l) =
    Function.update (fun u => (w.pc u).passing l) t (pc.passing l) := by
  funext u
  by_cases hu : u = t
  · subst hu
    rw [goto_pc_self, Function.update_self]
  · rw [goto_pc_of_ne hu, Function.update_of_ne hu]

theorem lockSeen_goto (same : pc.passing l = (w.pc t).passing l) :
    (w.goto t pc).lockSeen l = w.lockSeen l := by
  simp only [lockSeen, passing_goto, same]
  rw [Function.update_eq_self_iff.mpr rfl]
  rfl

theorem takeLock_seen_of_ne (other : l' ≠ l) : (w.takeLock t l').lockSeen l = w.lockSeen l := by
  simp only [lockSeen, takeLock, setHolder, setInside]
  rw [Function.update_of_ne (Ne.symm other), Function.update_of_ne (Ne.symm other)]

end Places

variable [DecidableEq κ]

theorem value_takeUnit (other : s ≠ .inr l) :
    (((w.takeUnit s).downDone s).sema (.inr l)).value = (w.sema (.inr l)).value := by
  simp only [takeUnit, downDone]
  rw [Function.update_of_ne (Ne.symm other)]

theorem lockSeen_takeUnit (other : s ≠ .inr l) : ((w.takeUnit s).downDone s).lockSeen l = w.lockSeen l := by
  simp only [lockSeen, value_takeUnit other]
  rfl

theorem lockSeen_tryDownCall (other : s ≠ .inr l) :
    (w.tryDownCall s).1.lockSeen l = w.lockSeen l := by
  simp only [tryDownCall_eq]
  split
  · exact lockSeen_takeUnit other
  · rfl

variable [DecidableEq ι]

theorem take_lock_turn {n : Nat} (some : (w.sema (.inr l)).value = n + 1) :
    Mutex.Turn m (w.lockSeen l) ((((w.takeUnit (.inr l)).downDone (.inr l)).goto t
      (.acquired l)).lockSeen l) := by
  have value : (((w.takeUnit (.inr l)).downDone (.inr l)).sema (.inr l)).value = n := by
    simp only [takeUnit, downDone]
    rw [Function.update_self, some, Nat.add_sub_cancel]
  simp only [lockSeen, passing_goto, some]
  simp only [goto, value, Pc.passing, if_true]
  exact .take t

theorem down_lock_turn (out : (w.pc t).passing l = none) :
    Mutex.Turn m (w.lockSeen l) ((w.downTurn t s).lockSeen l) := by
  simp only [downTurn_eq]
  split
  next =>
    apply lock_turn_of_seen
    rw [lockSeen_goto]
    · simp only [lockSeen, enqueue, threadBlock, Function.update_apply]
      grind
    · exact out.symm
  next pos =>
    by_cases own : s = .inr l
    · subst own
      obtain ⟨n, some⟩ := Nat.exists_eq_succ_of_ne_zero pos
      exact take_lock_turn some
    · apply lock_turn_of_seen
      rw [lockSeen_goto, lockSeen_takeUnit own]
      change (Pc.after s).passing l = (w.pc t).passing l
      rw [out]
      cases s with
      | inl => rfl
      | inr l' =>
          apply if_neg
          intro eq
          exact own (congrArg Sum.inr eq)

theorem lockSeen_upCall (other : s ≠ .inr l) (h : w.upCall s = .ok w') :
    w'.lockSeen l = w.lockSeen l := by
  simp only [upCall_eq] at h
  split at h
  next =>
    cases h
    simp only [lockSeen, giveUnit, upDone]
    rw [Function.update_of_ne (Ne.symm other)]
  next u rest _ =>
    simp only [threadUnblock] at h
    split at h <;> cases h
    simp only [lockSeen, giveUnit, upDone]
    rw [Function.update_of_ne (Ne.symm other)]

theorem value_upCall (h : w.upCall s = .ok w') :
    (w'.sema s).value = ((w.sema s).value + 1) % 2 ^ 32 := by
  simp only [upCall_eq] at h
  split at h
  next =>
    cases h
    simp only [giveUnit, upDone]
    rw [Function.update_self]
  next u rest _ =>
    simp only [threadUnblock] at h
    split at h <;> cases h
    simp only [giveUnit, upDone]
    rw [Function.update_self]

theorem call_lock_turn {call : Call κ Λ} (outside : w.pc t = .outside)
    (h : w.call t call = .ok w') : Mutex.Turn m (w.lockSeen l) (w'.lockSeen l) := by
  have out : (w.pc t).passing l = none := by rw [outside]; rfl
  cases call with
  | down k =>
      cases h
      exact down_lock_turn out
  | tryDown k =>
      cases h
      exact lock_turn_of_seen (lockSeen_tryDownCall (by simp))
  | up k => exact lock_turn_of_seen (lockSeen_upCall (by simp) h)
  | acquire l' =>
      simp only [World.call] at h
      split at h <;> cases h
      exact lock_turn_of_seen (lockSeen_goto out.symm)
  | tryAcquire l' =>
      simp only [World.call] at h
      split at h <;> cases h
      exact lock_turn_of_seen (lockSeen_goto out.symm)
  | release l' =>
      simp only [World.call] at h
      split at h <;> cases h
      next held =>
        simp only [lockHeldByCurrentThread] at held
        by_cases own : l' = l
        · subst own
          simp only [lockSeen, passing_goto, held]
          simp only [goto, setInside, held, Pc.passing, if_true, Function.update_self]
          exact .leave t out
        · apply lock_turn_of_seen
          rw [lockSeen_goto]
          · simp only [lockSeen, setInside]
            rw [Function.update_of_ne (Ne.symm own)]
          · exact (if_neg own).trans out.symm
  | block =>
      cases h
      exact lock_turn_of_seen rfl

theorem advance_lock_turn {call : Call κ Λ} (h : w.advance t call = .ok w') :
    Mutex.Turn (2 ^ 32) (w.lockSeen l) (w'.lockSeen l) := by
  simp only [advance] at h
  split at h
  next outside => exact call_lock_turn outside h
  next r here =>
    cases h
    exact down_lock_turn (by rw [here]; rfl)
  next l' here =>
    cases h
    exact down_lock_turn (by rw [here]; rfl)
  next l' here =>
    have out : (w.pc t).passing l = none := by rw [here]; rfl
    simp only [tryDownCall_eq] at h
    split at h
    next w'' yes =>
      cases h
      split at yes <;> cases yes
      next pos =>
        by_cases own : l' = l
        · subst own
          obtain ⟨n, some⟩ := Nat.exists_eq_succ_of_ne_zero (Nat.pos_iff_ne_zero.mp pos)
          exact take_lock_turn some
        · apply lock_turn_of_seen
          rw [lockSeen_goto, lockSeen_takeUnit (by simp [own])]
          exact (if_neg own).trans out.symm
    next w'' no =>
      cases h
      split at no <;> cases no
      exact lock_turn_of_seen (lockSeen_goto out.symm)
  next l' here =>
    cases h
    by_cases own : l' = l
    · subst own
      simp only [lockSeen, passing_goto]
      simp only [goto, takeLock, setHolder, setInside, Function.update_self]
      exact .enter t (by simp [here, Pc.passing])
    · apply lock_turn_of_seen
      rw [lockSeen_goto, takeLock_seen_of_ne own]
      simp [takeLock, setInside, setHolder, here, Pc.passing, own]
  next l' here =>
    cases h
    by_cases own : l' = l
    · subst own
      simp only [lockSeen, passing_goto]
      simp only [goto, setHolder, Function.update_self, Pc.passing, if_true]
      exact .clear t (by simp [here])
    · apply lock_turn_of_seen
      rw [lockSeen_goto]
      · simp only [lockSeen, setHolder]
        rw [Function.update_of_ne (Ne.symm own)]
      · simp [setHolder, here, Pc.passing, own]
  next l' here =>
    obtain ⟨w'', up, rfl⟩ := map_ok h
    have frame := upCall_frame up
    by_cases own : l' = l
    · subst own
      have value := value_upCall up
      simp only [lockSeen, passing_goto]
      simp only [goto, value, frame.1, frame.2.1, frame.2.2]
      exact .give t (by simp [here, Pc.passing])
    · apply lock_turn_of_seen
      rw [lockSeen_goto, lockSeen_upCall (by simp [own]) up]
      simp [frame.1, here, Pc.passing, own]

theorem handlerTryAcquire_lock_turn (h : w.handlerTryAcquire t l' = .ok w') :
    Mutex.Turn (2 ^ 32) (w.lockSeen l) (w'.lockSeen l) := by
  simp only [handlerTryAcquire] at h
  split at h
  · cases h
  simp only [tryDownCall_eq] at h
  split at h
  next w'' yes =>
    cases h
    split at yes <;> cases yes
    next pos =>
      by_cases own : l' = l
      · subst own
        obtain ⟨n, some⟩ := Nat.exists_eq_succ_of_ne_zero (Nat.pos_iff_ne_zero.mp pos)
        simp only [lockSeen, some]
        simp only [takeLock, takeUnit, downDone, setHolder, setInside, Function.update_self, some,
          Nat.succ_eq_add_one, Nat.add_sub_cancel]
        exact .takeInside t
      · apply lock_turn_of_seen
        rw [takeLock_seen_of_ne own, lockSeen_takeUnit (by simp [own])]
  next w'' no =>
    cases h
    split at no <;> cases no
    exact .same _

theorem next_lock_turn {a : Label κ Λ ι} (h : w.next a = .ok w') :
    Mutex.Turn (2 ^ 32) (w.lockSeen l) (w'.lockSeen l) := by
  cases a with
  | thread t call =>
      simp only [next] at h
      split at h
      · cases h
      exact advance_lock_turn h
  | tryDown k =>
      cases h
      exact lock_turn_of_seen (lockSeen_tryDownCall (by simp))
  | up k => exact lock_turn_of_seen (lockSeen_upCall (by simp) h)
  | tryAcquire t l' =>
      simp only [next] at h
      split at h
      · cases h
      exact handlerTryAcquire_lock_turn h
  | unblock t =>
      simp only [next, threadUnblock] at h
      split at h
      · cases h
      split at h <;> cases h
      exact lock_turn_of_seen rfl

end World

variable [DecidableEq κ] [DecidableEq ι]

theorem lock_law_of_reachable {initial : κ → UInt32} {w : World κ Λ ι}
    (h : (kernel Λ ι initial).Reachable w) : ∀ l, (w.lockSeen l).Law := by
  apply h.invariant (I := fun w => ∀ l, (w.lockSeen l).Law)
  · intro w start l
    simp only [World.lockSeen, start.sema, start.holder, start.inside, start.pc]
    exact .free
  · intro w a w' law step l
    exact (law l).turn (by decide) (World.next_lock_turn (toOption_some.mp step))

section Assertions
variable [Fintype ι] {n : κ ⊕ Λ → Nat} {w : World κ Λ ι}

/-- `thread_unblock` never meets a thread that is not blocked. -/
theorem next_unblocks (law : ∀ s, (w.seen s).Law (2 ^ 32) (n s)) (a : Label κ Λ ι) :
    w.next a ≠ .error .notBlocked := by
  cases a with
  | thread t call =>
      simp only [World.next]
      split
      · simp
      simp only [World.advance]
      split
      next =>
        cases call with
        | down => simp [World.call]
        | tryDown => simp [World.call]
        | up k =>
            obtain ⟨w', up⟩ := World.upCall_ok (law (.inl k))
            simp [World.call, up]
        | acquire => simp only [World.call]; split <;> simp
        | tryAcquire => simp only [World.call]; split <;> simp
        | release => simp only [World.call]; split <;> simp
        | block => simp [World.call]
      next => simp
      next => simp
      next => split <;> simp
      next => simp
      next => simp
      next l _ =>
        obtain ⟨w', up⟩ := World.upCall_ok (law (.inr l))
        simp [up, Except.map]
  | tryDown => simp [World.next]
  | up k =>
      obtain ⟨w', up⟩ := World.upCall_ok (law (.inl k))
      simp [World.next, up]
  | tryAcquire t l =>
      simp only [World.next, World.handlerTryAcquire]
      split
      · simp
      split
      · simp
      split <;> simp
  | unblock t =>
      simp only [World.next, World.threadUnblock]
      split
      · simp
      next guard =>
        cases status : w.status t with
        | ready => exact absurd (.inl status) guard
        | blocked => simp

end Assertions

/-- Thread `t` has the lock: from the `value--` of acquiring it to the `value++` of
releasing it. -/
def World.hasLock (w : World κ Λ ι) (l : Λ) (t : ι) : Prop :=
  w.inside l t = true ∨ w.pc t = .acquired l ∨ w.pc t = .release l ∨ w.pc t = .released l

omit [DecidableEq κ] [DecidableEq ι] in
theorem has_of_hasLock {w : World κ Λ ι} {l : Λ} {t : ι} : (w.lockSeen l).has t ↔ w.hasLock l t := by
  apply or_congr_right
  change ((w.pc t).passing l).isSome = true ↔ _
  cases w.pc t <;> simp [Pc.passing]

/-- The waiters of a semaphore sleep in its `sema_down`. -/
theorem waiting_of_reachable [Fintype ι] {initial : κ → UInt32} {w : World κ Λ ι}
    (h : (kernel Λ ι initial).Reachable w) (s : κ ⊕ Λ) (t : ι) :
    t ∈ (w.sema s).waiters ↔ w.pc t = .inDown s ∧ w.status t = .blocked :=
  ((law_of_reachable h s).listed t).trans World.place_asleep

/-- While some wait, there are no more units than threads that were woken. -/
theorem wakes_of_reachable [Fintype ι] {initial : κ → UInt32} {w : World κ Λ ι}
    (h : (kernel Λ ι initial).Reachable w) (s : κ ⊕ Λ) (some : (w.sema s).waiters ≠ []) :
    (w.sema s).value ≤ (Finset.univ.filter fun t => w.pc t = .inDown s ∧ w.status t = .ready).card := by
  apply ((law_of_reachable h s).wakes some).trans_eq
  apply congrArg Finset.card
  apply Finset.filter_congr
  intro t _
  exact World.place_woken

/-- What semaphores and locks promise. -/
structure SynchLaw [Fintype ι] (initial : κ → UInt32) (w : World κ Λ ι) : Prop where
  downs : ∀ s, w.downs s ≤ initialValue initial s + w.ups s
  value : ∀ s, (w.sema s).value = (initialValue initial s + w.ups s - w.downs s) % 2 ^ 32
  -- the same as a count of natural numbers, while that fits an `unsigned`
  exact : ∀ s, initialValue initial s + w.ups s - w.downs s < 2 ^ 32 →
    (w.sema s).value + w.downs s = initialValue initial s + w.ups s
  waiting : ∀ s t, t ∈ (w.sema s).waiters ↔ w.pc t = .inDown s ∧ w.status t = .blocked
  nodup : ∀ s, (w.sema s).waiters.Nodup
  -- no lost wake-up: the threads counted were woken and have not tested the value again
  wakes : ∀ s, (w.sema s).waiters ≠ [] →
    (w.sema s).value ≤ (Finset.univ.filter fun t => w.pc t = .inDown s ∧ w.status t = .ready).card
  unblocks : ∀ a, w.next a ≠ .error .notBlocked
  exclusive : ∀ l t u, w.hasLock l t → w.hasLock l u → t = u
  holder : ∀ l t, w.inside l t = true → w.holder l = some t
  holderHas : ∀ l t, w.holder l = some t → w.hasLock l t
  -- a released lock can be acquired
  lockUnit : ∀ l, (∃ t, w.hasLock l t) ∧ (w.sema (.inr l)).value = 0 ∨
    (∀ t, ¬ w.hasLock l t) ∧ (w.sema (.inr l)).value = 1

theorem synchLaw_of_reachable [Fintype ι] (initial : κ → UInt32) {w : World κ Λ ι}
    (h : (kernel Λ ι initial).Reachable w) : SynchLaw initial w := by
  have law := law_of_reachable h
  have locks := lock_law_of_reachable h
  refine ⟨fun s => (law s).downs, fun s => (law s).units, fun s => (law s).exact,
    waiting_of_reachable h, fun s => (law s).nodup, wakes_of_reachable h, next_unblocks law, fun l t u ht hu => ?_,
    fun l t => (locks l).holder_inside, fun l t ht => ?_, fun l => ?_⟩
  · exact (locks l).exclusive (has_of_hasLock.mpr ht) (has_of_hasLock.mpr hu)
  · exact has_of_hasLock.mp ((locks l).has_of_holder ht)
  · have unit := (locks l).units_eq
    simp only [has_of_hasLock] at unit
    exact unit

/-- One semaphore at zero, one lock and three threads. -/
def sampleWorld : World Unit Unit (Fin 3) where
  sema := fun s => ⟨initialValue (fun _ => 0) s, []⟩
  holder _ := none
  status _ := .ready
  pc _ := .outside
  ups _ := 0
  downs _ := 0
  inside _ _ := false

/-- Threads 1 and 2 raise the semaphore while nobody waits and thread 0 takes one unit of
it. Thread 0 takes the lock, threads 1 and 2 go to sleep for it; the release wakes thread 1,
but an interrupt handler on top of thread 0 takes the lock first. -/
def contend : List (Label Unit Unit (Fin 3)) :=
  let go t := Label.thread t (.acquire ())
  [.thread 1 (.up ()), .thread 2 (.up ()), .thread 0 (.down ()),
    go 0, go 0, go 0, go 1, go 1, go 2, go 2,
    .thread 0 (.release ()), go 0, go 0, .tryAcquire 0 ()]

theorem synchLaw_of_contend : ∃ w : World Unit Unit (Fin 3),
    ((w.sema (.inl ())).value = 1 ∧ w.ups (.inl ()) = 2 ∧ w.downs (.inl ()) = 1 ∧
      (w.sema (.inr ())).waiters = [2] ∧ w.holder () = some 0 ∧ w.pc 1 = .inDown (.inr ()) ∧
      w.status 1 = .ready) ∧ SynchLaw (fun _ => 0) w := by
  obtain ⟨w, reachable, holds⟩ := System.exists_reachable (Start fun _ => 0)
    (fun (w : World Unit Unit (Fin 3)) a => (w.next a).toOption)
    (fun w => decide ((w.sema (.inl ())).value = 1 ∧ w.ups (.inl ()) = 2 ∧ w.downs (.inl ()) = 1 ∧
      (w.sema (.inr ())).waiters = [2] ∧ w.holder () = some 0 ∧ w.pc 1 = .inDown (.inr ()) ∧
      w.status 1 = .ready))
    (s := sampleWorld) ⟨rfl, rfl, rfl, rfl, rfl, rfl⟩ contend (by decide)
  exact ⟨w, of_decide_eq_true holds, synchLaw_of_reachable (fun _ => 0) reachable⟩

end CS162.Synch
