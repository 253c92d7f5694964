import CS162.Synch.InterruptQueue

/-!
The blocking protocol of the interrupt queue. A thread that slept on the queue's
lock waits for its condition as soon as it gets the lock, without testing it again;
as long as the condition still lacks whenever that happens, no assertion fails and
nobody stays registered for what has come.
-/

namespace CS162.Synch
open CS162.Library
universe x
variable {ι : Type x}

theorem Job.waitsFor_ne_signals (job : Job) : job.waitsFor ≠ job.signals := by
  cases job <;> simp [Job.waitsFor, Job.signals]

theorem Job.side_cases (job : Job) (side : Side) : side = job.waitsFor ∨ side = job.signals := by
  cases job <;> cases side <;> simp [Job.waitsFor, Job.signals]

namespace IntQ
variable {q : IntQ ι} {job : Job}

theorem next_lt (pos : Nat) : next pos < intqBufsize := Nat.mod_lt _ (by decide)

theorem next_inj {a b : Nat} (ha : a < intqBufsize) (hb : b < intqBufsize) (h : next a = next b) :
    a = b := by
  simp only [next, intqBufsize] at *
  omega

theorem move_waiter (job : Job) : (q.move job).1.waiter = q.waiter := by
  cases job <;> rfl

theorem move_head (job : Job) (h : q.head < intqBufsize) : (q.move job).1.head < intqBufsize := by
  cases job with
  | getc => exact h
  | putc => exact next_lt q.head

theorem move_tail (job : Job) (h : q.tail < intqBufsize) : (q.move job).1.tail < intqBufsize := by
  cases job with
  | getc => exact next_lt q.tail
  | putc => exact h

theorem move_signals (head : q.head < intqBufsize) (tail : q.tail < intqBufsize)
    (has : q.lacks job.waitsFor = false) : (q.move job).1.lacks job.signals = false := by
  cases job with
  | getc =>
      have some : q.head ≠ q.tail := of_decide_eq_false has
      apply decide_eq_false
      intro eq
      exact some (next_inj head tail eq)
  | putc byte =>
      have room : next q.head ≠ q.tail := of_decide_eq_false has
      exact decide_eq_false room

end IntQ

variable [DecidableEq ι]

/-- A thread's place in the queue's functions and in the kernel. -/
def Spot.At : Spot → Pc Empty Unit → Status → Bool → Prop
  | .outside, pc, status, inside => pc = .outside ∧ status = .ready ∧ inside = false
  | .lock _, pc, _, inside => pc = .inDown (.inr ()) ∧ inside = false
  | .wait _, pc, _, inside => pc = .outside ∧ inside = true

namespace IntQWorld

structure Inv (w : IntQWorld ι) : Prop where
  kernel : (Synch.kernel Unit ι fun _ => 0).Reachable w.kernel
  head : w.queue.head < intqBufsize
  tail : w.queue.tail < intqBufsize
  spots : ∀ t, (w.spot t).At (w.kernel.pc t) (w.kernel.status t) (w.kernel.inside () t)
  registered : ∀ side t, w.queue.waiter side = some t →
    (∃ job : Job, w.spot t = .wait job ∧ job.waitsFor = side) ∧ w.kernel.status t = .blocked ∧
      w.queue.lacks side = true
  waiting : ∀ t job, w.spot t = .wait job → w.kernel.status t = .blocked →
    w.queue.waiter job.waitsFor = some t

variable {w w' : IntQWorld ι} {t : ι} {job : Job} {k : World Empty Unit ι} {spot : Spot}

theorem inv_start (h : Start w) : Inv w where
  kernel := .init h.kernel
  head := by
    rw [h.head]
    decide
  tail := by
    rw [h.tail]
    decide
  spots t := by
    rw [h.spot, h.kernel.pc, h.ready, h.kernel.inside]
    exact ⟨rfl, rfl, rfl⟩
  registered side t some := by
    rw [h.waiter] at some
    cases some
  waiting t job here := by
    rw [h.spot] at here
    cases here

theorem goto_self : (w.goto t spot).spot t = spot := Function.update_self ..

theorem goto_of_ne {u : ι} (h : u ≠ t) : (w.goto t spot).spot u = w.spot u := Function.update_of_ne h ..

theorem Inv.unregistered (h : Inv w) (ready : w.kernel.status t = .ready) (side : Side) :
    w.queue.waiter side ≠ some t := by
  intro registered
  have blocked := (h.registered side t registered).2.1
  rw [ready] at blocked
  cases blocked

/-- A thread at `wait` is no sleeper of the kernel's semaphores. -/
theorem Inv.not_waits (h : Inv w) (here : w.spot t = .wait job) : ¬ w.kernel.waits t := by
  have place := h.spots t
  rw [here] at place
  intro ⟨s, eq⟩
  rw [place.1] at eq
  cases eq

/-- One thread at most is at `wait`: it has the lock. -/
theorem Inv.alone (h : Inv w) {u : ι} {job' : Job} (ht : w.spot t = .wait job)
    (hu : w.spot u = .wait job') : u = t := by
  have placeT := h.spots t
  have placeU := h.spots u
  rw [ht] at placeT
  rw [hu] at placeU
  exact (lock_law_of_reachable h.kernel ()).exclusive (.inl placeU.2) (.inl placeT.2)

/-- Thread `t` has moved in the kernel, to where `spot` says. -/
theorem Inv.move (h : Inv w) (ready : w.kernel.status t = .ready)
    (reachable : (Synch.kernel Unit ι fun _ => 0).Reachable k) (moved : Moved t w.kernel k)
    (here : spot.At (k.pc t) (k.status t) (k.inside () t))
    (awake : ∀ job, spot = .wait job → k.status t = .ready) :
    Inv ({ w with kernel := k }.goto t spot) where
  kernel := reachable
  head := h.head
  tail := h.tail
  spots u := by
    by_cases hu : u = t
    · subst hu
      rw [goto_self]
      exact here
    · rw [goto_of_ne hu]
      have place := h.spots u
      have status := moved.status u hu
      simp only [goto, moved.pc u hu, moved.inside () u hu]
      cases at_u : w.spot u with
      | outside =>
          rw [at_u] at place
          refine ⟨place.1, ?_, place.2.2⟩
          obtain same | ⟨_, now, _⟩ := status
          · exact same.trans place.2.1
          · exact now
      | lock job =>
          rw [at_u] at place
          exact place
      | wait job =>
          rw [at_u] at place
          exact place
  registered side u some := by
    obtain ⟨⟨job, at_u, for_side⟩, blocked, lacks⟩ := h.registered side u some
    have hu : u ≠ t := by
      intro eq
      exact h.unregistered ready side (eq ▸ some)
    refine ⟨⟨job, (goto_of_ne hu).trans at_u, for_side⟩, ?_, lacks⟩
    obtain same | ⟨_, _, waits⟩ := moved.status u hu
    · exact same.trans blocked
    · exact absurd waits (h.not_waits at_u)
  waiting u job at_u blocked := by
    by_cases hu : u = t
    · subst hu
      rw [goto_self] at at_u
      have now := awake job at_u
      simp only [goto] at blocked
      rw [now] at blocked
      cases blocked
    · rw [goto_of_ne hu] at at_u
      obtain same | ⟨_, now, _⟩ := moved.status u hu
      · exact h.waiting u job at_u (same.symm.trans blocked)
      · simp only [goto] at blocked
        rw [now] at blocked
        cases blocked

/-- `wait`, reached with the lock while the condition lacks. -/
theorem Inv.wait (h : Inv w) (here : w.spot t = .wait job) (ready : w.kernel.status t = .ready)
    (lacks : w.queue.lacks job.waitsFor = true) : ∃ w', w.wait t job = .ok w' ∧ Inv w' := by
  simp only [IntQWorld.wait, lacks, if_true]
  refine ⟨_, rfl, ?_⟩
  have place := h.spots t
  rw [here] at place
  have step : w.kernel.advance t .block = .ok (w.kernel.threadBlock t) := by
    simp only [World.advance, place.1, World.call]
  constructor
  case kernel => exact reachable_advance h.kernel ready step
  case head => exact h.head
  case tail => exact h.tail
  case spots =>
    intro u
    by_cases hu : u = t
    · subst hu
      simp only [goto, Function.update_self]
      exact place
    · simp only [goto, World.threadBlock, Function.update_of_ne hu]
      exact h.spots u
  case registered =>
    intro side u some
    simp only [IntQ.setWaiter] at some
    by_cases hs : side = job.waitsFor
    · subst hs
      rw [Function.update_self] at some
      cases some
      exact ⟨⟨job, goto_self, rfl⟩, Function.update_self .., lacks⟩
    · rw [Function.update_of_ne hs] at some
      obtain ⟨⟨job', at_u, _⟩, _⟩ := h.registered side u some
      cases h.alone here at_u
      exact absurd some (h.unregistered ready side)
  case waiting =>
    intro u job' at_u _
    by_cases hu : u = t
    · subst hu
      simp only [goto, Function.update_self, Spot.wait.injEq] at at_u
      subst at_u
      exact Function.update_self ..
    · simp only [goto, Function.update_of_ne hu] at at_u
      exact absurd (h.alone here at_u) hu

theorem Inv.nobody (h : Inv w) {side : Side} (has : w.queue.lacks side = false) :
    w.queue.waiter side = none := by
  cases some : w.queue.waiter side with
  | none => rfl
  | some t =>
      have lacks := (h.registered side t some).2.2
      rw [has] at lacks
      cases lacks

theorem Inv.finish (h : Inv w) (who : Option ι) (has : w.queue.lacks job.waitsFor = false) :
    ∃ w', w.finish who job = .ok w' ∧ Inv w' := by
  have moved := IntQ.move_signals h.head h.tail has
  have none_for := h.nobody has
  have waiters := IntQ.move_waiter (q := w.queue) job
  have head := IntQ.move_head job h.head
  have tail := IntQ.move_tail job h.tail
  simp only [IntQWorld.finish]
  generalize w.queue.move job = moves at *
  simp only [IntQWorld.signal, moved, Bool.false_eq_true, if_false, waiters]
  cases sleeper : w.queue.waiter job.signals with
  | none =>
      have nobody : ∀ side, w.queue.waiter side = none := by
        intro side
        obtain rfl | rfl := job.side_cases side
        · exact none_for
        · exact sleeper
      refine ⟨_, rfl, h.kernel, head, tail, h.spots, fun side t some => ?_, fun t job' at_t blocked => ?_⟩
      · simp only [waiters, nobody] at some
        cases some
      · have registered := h.waiting t job' at_t blocked
        rw [nobody] at registered
        cases registered
  | some u =>
      obtain ⟨⟨job', at_u, for_side⟩, blocked, _⟩ := h.registered _ u sleeper
      have place := h.spots u
      rw [at_u] at place
      have unblock : w.kernel.threadUnblock u =
          .ok { w.kernel with status := Function.update w.kernel.status u .ready } := by
        simp only [World.threadUnblock, blocked, if_true]
      have next : w.kernel.next (.unblock u) =
          .ok { w.kernel with status := Function.update w.kernel.status u .ready } := by
        simp only [World.next, blocked, h.not_waits at_u, unblock]
        simp
      simp only [unblock]
      refine ⟨_, rfl, h.kernel.step (a := .unblock u) (toOption_some.mpr next), head, tail,
        fun t => ?_, fun side t some => ?_, fun t job'' at_t still => ?_⟩
      · by_cases ht : t = u
        · subst ht
          simp only [at_u]
          exact place
        · simp only [Function.update_of_ne ht]
          exact h.spots t
      · simp only [IntQ.setWaiter, waiters] at some
        obtain rfl | rfl := job.side_cases side
        · rw [Function.update_of_ne job.waitsFor_ne_signals, none_for] at some
          cases some
        · rw [Function.update_self] at some
          cases some
      · by_cases ht : t = u
        · subst ht
          simp only [Function.update_self, reduceCtorEq] at still
        · exact absurd (h.alone at_u at_t) ht

/-- What a thread does after it got the lock, or fell asleep for it, does not depend
on where it came from. -/
theorem locked_goto (r : Except Stop (World Empty Unit ι)) :
    (w.goto t spot).locked t r job = w.locked t r job := by
  cases r with
  | error => rfl
  | ok k => simp only [locked, goto, wait, Function.update_idem]

theorem loop_goto : (w.goto t spot).loop t job = w.loop t job := by
  simp only [loop, locked_goto]
  simp only [goto, Function.update_idem]

theorem Inv.locked (h : Inv w) (ready : w.kernel.status t = .ready)
    (out : w.kernel.inside () t = false)
    (acquiring : Acquiring (fun _ => 0) t () w.kernel k)
    (lacks : (w.kernel.sema (.inr ())).value ≠ 0 → w.queue.lacks job.waitsFor = true) :
    ∃ w', w.locked t (.ok k) job = .ok w' ∧ Inv w' := by
  obtain ⟨sleeps, _, inside⟩ | ⟨here, still, pos, inside⟩ := acquiring.ends
  · have waits : k.waits t := ⟨_, sleeps⟩
    simp only [IntQWorld.locked, waits, if_true]
    refine ⟨_, rfl, h.move ready acquiring.reachable acquiring.moved ⟨sleeps, ?_⟩ ?_⟩
    · rw [inside]
      exact out
    · intro job' eq
      cases eq
  · have free : ¬ k.waits t := by
      intro ⟨s, eq⟩
      rw [here] at eq
      cases eq
    have entered : Inv ({ w with kernel := k }.goto t (.wait job)) := by
      apply h.move ready acquiring.reachable acquiring.moved
      · refine ⟨here, ?_⟩
        rw [inside, Function.update_self, Function.update_self]
      · intro _ _
        exact still
    obtain ⟨w', done, inv⟩ := entered.wait goto_self still (lacks pos)
    refine ⟨w', ?_, inv⟩
    rw [← done]
    simp only [IntQWorld.locked, free, if_false, IntQWorld.wait, goto, Function.update_idem]

section Law
variable [Fintype ι]

theorem Inv.loop (h : Inv w) (job : Job) (here : w.spot t = .outside) :
    ∃ w', w.loop t job = .ok w' ∧ Inv w' := by
  have place := h.spots t
  rw [here] at place
  obtain ⟨outside, ready, out⟩ := place
  cases lacks : w.queue.lacks job.waitsFor with
  | false =>
      simp only [IntQWorld.loop, lacks, Bool.false_eq_true, if_false]
      have same : w.goto t .outside = w := by
        simp only [goto]
        rw [Function.update_eq_self_iff.mpr here.symm]
      rw [same]
      exact h.finish (some t) lacks
  | true =>
      obtain ⟨k, acquired, acquiring⟩ := lockAcquire_spec (l := ()) h.kernel outside ready out
      simp only [IntQWorld.loop, lacks, if_true, acquired]
      exact h.locked ready out acquiring fun _ => lacks

/-- A thread woken from `wait` gives the lock back and tests its condition again. -/
theorem Inv.resume (h : Inv w) (job : Job) {job' : Job} (here : w.spot t = .wait job')
    (ready : w.kernel.status t = .ready) :
    ∃ k w', w.kernel.lockRelease t () = .ok k ∧ { w with kernel := k }.loop t job = .ok w' ∧ Inv w' := by
  have place := h.spots t
  rw [here] at place
  obtain ⟨k, released, reachable, moved, outside, still, inside⟩ :=
    lockRelease_spec (l := ()) h.kernel place.1 ready place.2
  have left : Inv ({ w with kernel := k }.goto t .outside) := by
    apply h.move ready reachable moved
    · refine ⟨outside, still, ?_⟩
      rw [inside, Function.update_self, Function.update_self]
    · intro _ eq
      cases eq
  obtain ⟨w', done, inv⟩ := left.loop job goto_self
  rw [loop_goto] at done
  exact ⟨k, w', released, done, inv⟩

/-- A thread that slept on the lock gets it only while what it is going to wait for
still lacks. -/
def Orderly (w : IntQWorld ι) : IntQLabel ι → Prop
  | .thread t _ => ∀ job, w.spot t = .lock job → (w.kernel.sema (.inr ())).value ≠ 0 →
      w.queue.lacks job.waitsFor = true
  | .handler _ => True

theorem Inv.next (h : Inv w) {a : IntQLabel ι} (orderly : Orderly w a) :
    w.next a = .error .disabled ∨ ∃ w', w.next a = .ok w' ∧ Inv w' := by
  cases a with
  | handler job =>
      simp only [IntQWorld.next]
      cases lacks : w.queue.lacks job.waitsFor with
      | true => exact .inl rfl
      | false => exact .inr (h.finish none lacks)
  | thread t job =>
      simp only [IntQWorld.next]
      split
      · exact .inl rfl
      next awake =>
        have ready := World.status_ready awake
        refine .inr ?_
        have place := h.spots t
        cases here : w.spot t with
        | outside => exact h.loop _ here
        | lock job' =>
            rw [here] at place
            obtain ⟨k, resumed, acquiring⟩ := lockResume_spec (l := ()) h.kernel place.1 ready
            simp only [resumed]
            exact h.locked ready place.2 acquiring (orderly job' here)
        | wait job' =>
            obtain ⟨k, w', released, done, inv⟩ := h.resume job' here ready
            exact ⟨w', by simp only [released, done], inv⟩

/-- Where the order is the other one, the assertion in `wait` fails. -/
theorem Inv.disorderly (h : Inv w) {job : Job} (ready : w.kernel.status t = .ready)
    (disorder : ¬ Orderly w (.thread t job)) : w.next (.thread t job) = .error .wait := by
  simp only [Orderly, Classical.not_forall] at disorder
  obtain ⟨job', here, pos, has⟩ := disorder
  have place := h.spots t
  rw [here] at place
  obtain ⟨k, resumed, acquiring⟩ := lockResume_spec (l := ()) h.kernel place.1 ready
  obtain ⟨_, empty, _⟩ | ⟨outside, _, _, _⟩ := acquiring.ends
  · exact absurd empty pos
  · have free : ¬ k.waits t := by
      intro ⟨s, eq⟩
      rw [outside] at eq
      cases eq
    simp [IntQWorld.next, ready, here, resumed, IntQWorld.locked, free, IntQWorld.wait, has]

end Law

instance (w : IntQWorld ι) (a : IntQLabel ι) : Decidable (Orderly w a) :=
  match a with
  | .handler _ => .isTrue trivial
  | .thread t _ =>
      match h : w.spot t with
      | .lock job =>
          decidable_of_iff
            ((w.kernel.sema (.inr ())).value ≠ 0 → w.queue.lacks job.waitsFor = true)
            ⟨fun orderly job' eq => by
              rw [h] at eq
              cases eq
              exact orderly, fun orderly => orderly job h⟩
      | .outside | .wait _ => .isTrue fun job eq => by
          rw [h] at eq
          cases eq

end IntQWorld

open IntQWorld

/-- What the queue's functions promise, and where they break it. -/
structure IntQLaw (w : IntQWorld ι) : Prop where
  asserts : ∀ a, Orderly w a → ∀ fault, w.next a = .error fault → fault = .disabled
  breaks : ∀ t job, w.kernel.status t = .ready → ¬ Orderly w (.thread t job) →
    w.next (.thread t job) = .error .wait
  -- registered for data only while there is none, for room only while there is none
  registered : ∀ side t, w.queue.waiter side = some t → w.queue.lacks side = true
  -- and whoever sleeps in `wait` is registered
  asleep : ∀ t job, w.spot t = .wait job → w.kernel.status t = .blocked →
    w.queue.waiter job.waitsFor = some t

theorem intqLaw_of_orderly [Fintype ι] {w : IntQWorld ι}
    (h : ((intq ι).under Orderly).Reachable w) : IntQLaw w := by
  have inv : Inv w := by
    apply h.invariant (I := Inv)
    · intro w start
      exact inv_start start
    · intro w a w' inv step
      have taken := toOption_some.mp step.1
      obtain stuck | ⟨w'', done, inv'⟩ := inv.next step.2
      · rw [stuck] at taken
        cases taken
      · rw [done] at taken
        cases taken
        exact inv'
  refine ⟨fun a orderly fault failed => ?_, fun t job ready disorder => inv.disorderly ready disorder,
    fun side t some => (inv.registered side t some).2.2, inv.waiting⟩
  obtain stuck | ⟨w', done, _⟩ := inv.next orderly
  · rw [stuck] at failed
    cases failed
    rfl
  · rw [done] at failed
    cases failed

def sampleIntQ : IntQWorld (Fin 2) where
  kernel :=
    { sema := fun s => ⟨initialValue (fun _ => 0) s, []⟩
      holder := fun _ => none
      status := fun _ => .ready
      pc := fun _ => .outside
      ups := fun _ => 0
      downs := fun _ => 0
      inside := fun _ _ => false }
  queue := ⟨fun _ => none, fun _ => 0, 0, 0⟩
  spot := fun _ => .outside
  returned := fun _ => none

theorem sampleIntQ_start : IntQWorld.Start sampleIntQ :=
  ⟨⟨rfl, rfl, rfl, rfl, rfl, rfl⟩, rfl, rfl, rfl, rfl, rfl⟩

/-- Reader 0 waits, reader 1 sleeps on the lock, one byte comes and reader 0 takes
it: reader 1 gets the lock and waits for the next byte. -/
theorem intqLaw_of_oneByte : ∃ w : IntQWorld (Fin 2),
    (w.returned (some 0) = some 7 ∧ w.queue.waiter .notEmpty = some 1) ∧ IntQLaw w := by
  obtain ⟨w, reachable, holds⟩ := System.exists_reachable_under IntQWorld.Start
    (fun (w : IntQWorld (Fin 2)) a => (w.next a).toOption) Orderly
    (fun w => decide (w.returned (some 0) = some 7 ∧ w.queue.waiter .notEmpty = some 1))
    sampleIntQ_start
    [.thread 0 .getc, .thread 1 .getc, .handler (.putc 7), .thread 0 .getc, .thread 1 .getc]
    (by decide)
  exact ⟨w, of_decide_eq_true holds, intqLaw_of_orderly reachable⟩

/-- With two bytes instead of one, reader 1 gets the lock while the second byte is
in the queue, and the assertion in `wait` fails. -/
theorem wait_asserts_with_twoBytes : ∃ w : IntQWorld (Fin 2),
    (intq (Fin 2)).Reachable w ∧ w.next (.thread 1 .getc) = .error .wait := by
  obtain ⟨w, reachable, holds⟩ := System.exists_reachable IntQWorld.Start
    (fun (w : IntQWorld (Fin 2)) a => (w.next a).toOption)
    (fun w => match w.next (.thread 1 .getc) with
      | .error fault => fault == .wait
      | .ok _ => false)
    sampleIntQ_start
    [.thread 0 .getc, .thread 1 .getc, .handler (.putc 7), .handler (.putc 8), .thread 0 .getc]
    (by decide)
  refine ⟨w, reachable, ?_⟩
  cases result : w.next (.thread 1 .getc) with
  | ok => simp [result] at holds
  | error fault =>
      simp only [result, beq_iff_eq] at holds
      rw [holds]

end CS162.Synch
