import CS162.Pintos.SchedulerSwitch

/-!
The calls of thread.c over whole runs. No assertion fails and every switch leaves
the scheduler in order, as long as nobody unblocks the idle thread. The idle
thread is the exception to first come, first served: once `idle_thread` is set it
is never queued, and threads that became ready after it run before it.
-/

namespace CS162.Pintos.Scheduler
open CS162.Library
universe u
variable {ι : Type u} [DecidableEq ι]

section Calls
variable {k k' : Kernel ι} {t : ι}

theorem Consistent.threadCurrent (c : Consistent k) : k.threadCurrent = .ok k.running := by
  rw [Kernel.threadCurrent, c.runs]

theorem Consistent.unlisted (c : Consistent k) : k.running ∉ k.fifoReadyList := by
  intro inside
  have := ((c.shape.listed _).mp inside).1
  rw [c.runs] at this
  cases this

theorem Consistent.threadBlock (c : Consistent k) (set : k.idles = true → k.idleThread ≠ none) :
    ∃ k', k.threadBlock = .ok k' ∧ Consistent k' ∧ SwitchLaw k' := by
  have m : Move k (k.setStatus k.running .blocked) k.running .running .blocked k.running :=
    { found := c.runs
      alive := by decide
      change := fun eq => by cases eq
      thread := rfl
      trace := rfl
      initial := rfl
      idleThread := rfl
      queue := by
        rw [List.erase_of_not_mem c.unlisted, if_neg (by simp)]
        rfl
      all := rfl
      stays := fun _ => rfl
      runs := fun eq => by cases eq
      dies := fun eq => by cases eq
      sleeps := fun _ => set }
  rw [Kernel.threadBlock, c.threadCurrent]
  refine ((c.shape.name _).move m).schedule ?_
  rw [show (k.setStatus k.running .blocked).running = k.running from rfl, m.status_self]
  decide

theorem Consistent.threadYield (c : Consistent k) :
    ∃ k', k.threadYield = .ok k' ∧ Consistent k' ∧ SwitchLaw k' := by
  let queued := if k.idleThread = some k.running then k else k.threadEnqueue k.running
  have same : queued.running = k.running ∧ queued.thread = k.thread ∧ queued.trace = k.trace ∧
      queued.initialThread = k.initialThread ∧ queued.idleThread = k.idleThread ∧
      queued.allList = k.allList := by
    simp only [queued]
    split <;> exact ⟨rfl, rfl, rfl, rfl, rfl, rfl⟩
  obtain ⟨running, thread, trace, initial, idle, all⟩ := same
  have m : Move k (queued.setStatus k.running .ready) k.running .running .ready k.running :=
    { found := c.runs
      alive := by decide
      change := fun _ => by decide
      thread := by rw [Kernel.setStatus, Kernel.setStatus, thread]
      trace := by rw [Kernel.setStatus, trace]
      initial := initial
      idleThread := idle
      queue := by
        change queued.fifoReadyList = _
        simp only [queued]
        split
        next set => rw [List.erase_of_not_mem c.unlisted, if_neg (by simp [set])]
        next unset =>
          rw [if_pos (by simp [unset])]
          rfl
      all := all
      stays := fun _ => running
      runs := fun eq => by cases eq
      dies := fun eq => by cases eq
      sleeps := fun eq => by cases eq }
  have shape : Shape (queued.setStatus k.running .ready)
      (queued.setStatus k.running .ready).running := by
    rw [show (queued.setStatus k.running .ready).running = k.running from running]
    exact (c.shape.name _).move m
  rw [Kernel.threadYield, c.threadCurrent]
  refine shape.schedule ?_
  rw [show (queued.setStatus k.running .ready).running = k.running from running, m.status_self]
  decide

theorem Consistent.threadExit (c : Consistent k) (user : k.idles = false) :
    ∃ k', k.threadExit = .ok k' ∧ Consistent k' ∧ SwitchLaw k' := by
  have m : Move k
      (Kernel.setStatus { k with allList := k.allList.erase k.running } k.running .dying)
      k.running .running .dying k.running :=
    { found := c.runs
      alive := by decide
      change := fun eq => by cases eq
      thread := rfl
      trace := rfl
      initial := rfl
      idleThread := rfl
      queue := by
        rw [List.erase_of_not_mem c.unlisted, if_neg (by simp)]
        rfl
      all := rfl
      stays := fun _ => rfl
      runs := fun eq => by cases eq
      dies := fun _ => ⟨rfl, rfl, user⟩
      sleeps := fun eq => by cases eq }
  rw [Kernel.threadExit, c.threadCurrent]
  refine ((c.shape.name _).move m).schedule ?_
  change (Kernel.setStatus { k with allList := k.allList.erase k.running } k.running
    .dying).status k.running ≠ _
  rw [m.status_self]
  decide

theorem Consistent.threadUnblock (c : Consistent k) (blocked : k.status t = some .blocked)
    (spared : k.idleThread ≠ some t) :
    ∃ k', k.threadUnblock t = .ok k' ∧ Consistent k' := by
  have m : Move k ((k.threadEnqueue t).setStatus t .ready) t .blocked .ready k.initialThread :=
    { found := blocked
      alive := by decide
      change := fun _ => by decide
      thread := rfl
      trace := rfl
      initial := rfl
      idleThread := rfl
      queue := (if_pos ⟨rfl, spared⟩).symm
      all := rfl
      stays := fun _ => rfl
      runs := fun eq => by cases eq
      dies := fun eq => by cases eq
      sleeps := fun eq => by cases eq }
  refine ⟨(k.threadEnqueue t).setStatus t .ready, by rw [Kernel.threadUnblock, blocked],
    c.shape.move m, ?_⟩
  refine (m.status_of_ne ?_).trans c.runs
  rintro same
  have : k.status t = some .running := same ▸ c.runs
  rw [blocked] at this
  cases this

end Calls

/-- Nobody unblocks the idle thread. -/
def SparesIdle (k : Kernel ι) : Action ι → Prop
  | .unblock t => k.idleThread ≠ some t
  | _ => True

instance (k : Kernel ι) (a : Action ι) : Decidable (SparesIdle k a) :=
  match a with
  | .unblock t => inferInstanceAs (Decidable (k.idleThread ≠ some t))
  | .initThread _ | .allocateTid _ | .block | .yield | .exit | .becomeIdle =>
      inferInstanceAs (Decidable True)

section Run
variable {k k' : Kernel ι} {a : Action ι}

theorem Consistent.perform (c : Consistent k) (allowed : k.allows a = true)
    (spares : SparesIdle k a) :
    ∃ k', k.perform a = .ok k' ∧ Consistent k' ∧ (a.switches = true → SwitchLaw k') := by
  cases a with
  | initThread t =>
      have free : k.thread t = none := of_decide_eq_true allowed
      refine ⟨_, rfl, ⟨c.shape.initThread free, ?_⟩, fun no => by cases no⟩
      refine (status_initThread k t false _).trans ((if_neg ?_).trans c.runs)
      rintro same
      have := c.runs
      rw [show k.running = t from same, status_eq_none.mpr free] at this
      cases this
  | allocateTid t =>
      refine ⟨_, rfl, ⟨c.shape.allocateTid, ?_⟩, fun no => by cases no⟩
      exact (status_allocateTid k t _).trans c.runs
  | unblock t =>
      obtain ⟨k', done, c'⟩ := c.threadUnblock (of_decide_eq_true allowed) spares
      exact ⟨k', done, c', fun no => by cases no⟩
  | block =>
      obtain ⟨k', done, c', law⟩ := c.threadBlock fun idles => by
        simpa [Kernel.allows, idles, Option.isSome_iff_ne_none] using allowed
      exact ⟨k', done, c', fun _ => law⟩
  | yield =>
      obtain ⟨k', done, c', law⟩ := c.threadYield
      exact ⟨k', done, c', fun _ => law⟩
  | exit =>
      obtain ⟨k', done, c', law⟩ := c.threadExit (by simpa [Kernel.allows] using allowed)
      exact ⟨k', done, c', fun _ => law⟩
  | becomeIdle =>
      simp only [Kernel.allows, Bool.and_eq_true, Option.isNone_iff_eq_none] at allowed
      exact ⟨_, rfl, c.becomeIdle allowed.1 allowed.2, fun no => by cases no⟩

theorem Consistent.next (c : Consistent k) (spares : SparesIdle k a) (hs : k.next a = some k') :
    Consistent k' ∧ (a.switches = true → SwitchLaw k') := by
  rw [Kernel.next] at hs
  split at hs
  next allowed =>
    obtain ⟨k₁, done, c', law⟩ := c.perform allowed spares
    rw [done] at hs
    cases hs
    exact ⟨c', law⟩
  next => cases hs

theorem started_consistent (h : Started k) : Consistent k := by
  obtain ⟨main, i, ne, start⟩ := h
  have ne' : i ≠ main := ne.symm
  simp only [threadStart, Kernel.threadCreate, threadInit, Kernel.threadUnblock, Kernel.initThread,
    Kernel.allocateTid, Kernel.setStatus, Kernel.threadEnqueue, Kernel.status,
    Function.update_self, Option.map_some, List.nil_append, Except.ok.injEq] at start
  have thread (u : ι) : k.thread u = if u = i then some ⟨2, .ready, true⟩ else
      if u = main then some ⟨1, .running, false⟩ else none := by
    subst start
    by_cases same : u = i <;> simp [Function.update_apply, same]
  have status (u : ι) : k.status u = if u = i then some .ready else
      if u = main then some .running else none := by
    rw [Kernel.status, thread]
    split
    · rfl
    · split <;> rfl
  have runs : k.status main = some .running := by rw [status, if_neg ne, if_pos rfl]
  have idle : k.status i = some .ready := by rw [status, if_pos rfl]
  have trace : k.trace = [.set i .ready, .create i, .set main .running, .create main] := by
    subst start
    rfl
  have list : k.fifoReadyList = [i] := by
    subst start
    rfl
  have all : k.allList = [main, i] := by
    subst start
    rfl
  have unset : k.idleThread = none := by
    subst start
    rfl
  have here : k.running = main ∧ k.initialThread = main := by
    subst start
    exact ⟨rfl, rfl⟩
  refine ⟨?_, here.1 ▸ runs⟩
  constructor
  case listed =>
    intro u
    rw [list, unset, List.mem_singleton, status]
    by_cases same : u = i <;> by_cases first : u = main <;> simp [same, first]
  case ordered =>
    rw [list]
    exact List.pairwise_singleton _ _
  case unique =>
    rw [all]
    simpa using ne
  case all =>
    intro u
    rw [all, status]
    by_cases same : u = i <;> by_cases first : u = main <;> simp [same, first, ne]
  case running =>
    intro u hu
    rw [status] at hu
    by_cases same : u = i <;> by_cases first : u = main <;> simp_all
  case dying =>
    intro u hu
    rw [status] at hu
    by_cases same : u = i <;> by_cases first : u = main <;> simp_all
  case current => exact ⟨_, here.1 ▸ runs⟩
  case initial => exact ⟨_, here.2 ▸ runs⟩
  case idle =>
    refine ⟨i, fun u => ?_, ?_, ?_, fun _ => .inr idle⟩
    · rw [thread]
      by_cases same : u = i <;> by_cases first : u = main <;> simp [same, first, ne]
    · rw [idle]
      decide
    · rw [unset]
      exact fun _ no => by cases no
  case phases =>
    intro u
    rw [trace, Kernel.phaseOf, status]
    by_cases same : u = i
    · simp [phase, same]
    · by_cases first : u = main
      · simp [phase, first, ne, ne']
      · simp [phase, same, first, Ne.symm same, Ne.symm first]
  case lastRun =>
    rw [trace, here.1]
    rfl
  case lawful =>
    rw [trace, here.2]
    refine history_cons ?_ (history_cons ?_ (history_cons ?_ (history_cons rfl history_nil)))
    · simp [Lawful, phase]
    · simp [Lawful, phase, ne]
    · simp [Lawful, phase]

theorem reachable_consistent (h : ((scheduler ι).under SparesIdle).Reachable k) : Consistent k :=
  h.invariant (fun _ start => started_consistent start) fun _ _ _ c hs => (c.next hs.2 hs.1).1

/-- After every completed switch of a run in which nobody unblocks the idle thread. -/
theorem switchLaw_of_reachable (h : ((scheduler ι).under SparesIdle).Reachable k)
    (spares : SparesIdle k a) (hs : k.next a = some k') (switch : a.switches = true) :
    SwitchLaw k' :=
  ((reachable_consistent h).next spares hs).2 switch

end Run

/-- Main in page 0, the idle thread in page 1. -/
def started : Kernel Nat := (threadStart 0 1).toOption.getD (threadInit 0)

theorem started_started : Started started := ⟨0, 1, by decide, rfl⟩

/-- A thread is created, runs after the idle thread has set itself up, and exits. -/
theorem switchLaw_of_exit :
    ∃ k : Kernel Nat, .free 2 ∈ k.trace ∧ k.running = 0 ∧ SwitchLaw k := by
  obtain ⟨k, reach, ends⟩ := System.exists_reachable_under Started Kernel.next SparesIdle
    (fun k => (k.next .exit).any fun k' : Kernel Nat => decide (.free 2 ∈ k'.trace) && k'.running == 0)
    started_started [.initThread 2, .allocateTid 2, .unblock 2, .block, .becomeIdle, .unblock 0,
      .block] (by decide)
  obtain ⟨k', hs, shows⟩ := (Option.any_eq_true ..).mp ends
  simp only [Bool.and_eq_true, decide_eq_true_eq, beq_iff_eq] at shows
  exact ⟨k', shows.1, shows.2, switchLaw_of_reachable (a := .exit) reach trivial hs rfl⟩

/-- First come, first served with the idle thread in the line. -/
def FifoOfAll (k : Kernel ι) : Prop :=
  ∀ t, k.status t = some .ready → t ≠ k.running → readyAt k.trace k.running < readyAt k.trace t

/-- The preempted idle thread is ready and stays behind a thread that became ready
later. Unblocked like another blocked thread, it runs with others waiting. -/
theorem switchLaw_fails_for_idle :
    (¬ ∀ (k k' : Kernel Nat) a, ((scheduler Nat).under SparesIdle).Reachable k → SparesIdle k a →
      k.next a = some k' → a.switches = true → FifoOfAll k') ∧
    ¬ ∀ (k k' : Kernel Nat) a, (scheduler Nat).Reachable k → k.next a = some k' →
      a.switches = true → k'.idleThread = some k'.running → k'.fifoReadyList = [] := by
  constructor
  · intro all
    obtain ⟨k, reach, ends⟩ := System.exists_reachable_under Started Kernel.next SparesIdle
      (fun k => (k.next .block).any fun k' : Kernel Nat => k'.status 1 == some .ready && k'.running == 2 &&
        decide (readyAt k'.trace 1 ≤ readyAt k'.trace 2))
      started_started [.block, .becomeIdle, .unblock 0, .yield, .initThread 2, .allocateTid 2,
        .unblock 2] (by decide)
    obtain ⟨k', hs, shows⟩ := (Option.any_eq_true ..).mp ends
    simp only [Bool.and_eq_true, decide_eq_true_eq, beq_iff_eq] at shows
    obtain ⟨⟨ready, runs⟩, earlier⟩ := shows
    have later := all k k' .block reach trivial hs rfl 1 ready (by rw [runs]; decide)
    rw [runs] at later
    omega
  · intro all
    obtain ⟨k, reach, ends⟩ := System.exists_reachable Started Kernel.next
      (fun k => (k.next .block).any fun k' : Kernel Nat => k'.idleThread == some k'.running &&
        k'.fifoReadyList == [2])
      started_started [.block, .becomeIdle, .unblock 0, .block, .unblock 1, .initThread 2,
        .unblock 2] (by decide)
    obtain ⟨k', hs, shows⟩ := (Option.any_eq_true ..).mp ends
    simp only [Bool.and_eq_true, beq_iff_eq] at shows
    have empty := all k k' .block reach hs rfl shows.1
    rw [shows.2] at empty
    cases empty
end CS162.Pintos.Scheduler
