import Mathlib.Data.List.Nodup
import CS162.Pintos.SchedulerInvariant

/-!
The end of a switch. `schedule` always finds a thread, the dying thread's page goes
back once another one runs, and `SwitchLaw` is what holds then.
-/

namespace CS162.Pintos.Scheduler
open CS162.Library
universe u
variable {ι : Type u} [DecidableEq ι]

structure SwitchLaw (k : Kernel ι) : Prop where
  /-- Exactly one thread is running, the one the processor is in. -/
  running : ∀ t, k.status t = some .running ↔ t = k.running
  listed : ∀ t, k.status t = some .ready → k.idleThread ≠ some t → k.fifoReadyList.count t = 1
  unlisted : ∀ t ∈ k.fifoReadyList, k.status t = some .ready
  /-- Whoever else is ready became ready after the thread that runs. -/
  fifo : ∀ t, k.status t = some .ready → k.idleThread ≠ some t →
    readyAt k.trace k.running < readyAt k.trace t
  idle : k.idleThread = some k.running → k.fifoReadyList = []
  /-- No exited thread but the initial one is left, and every page was freed after its
  thread's exit, once, while another thread was running. -/
  freed : ∀ t, k.status t = some .dying → t = k.initialThread
  lawful : ∀ later e earlier, k.trace = later ++ e :: earlier → Lawful k.initialThread e earlier

section Other
variable {k : Kernel ι} {t d : ι}

theorem status_initThread (k : Kernel ι) (t : ι) (b : Bool) (u : ι) :
    (k.initThread t b).status u = if u = t then some .blocked else k.status u := by
  by_cases same : u = t
  · subst same
    simp [Kernel.status, Kernel.initThread]
  · simp [Kernel.status, Kernel.initThread, same]

theorem status_freePage (k : Kernel ι) (t u : ι) :
    (k.freePage t).status u = if u = t then none else k.status u := by
  by_cases same : u = t
  · subst same
    simp [Kernel.status, Kernel.freePage]
  · simp [Kernel.status, Kernel.freePage, same]

theorem status_allocateTid (k : Kernel ι) (t u : ι) :
    (k.allocateTid t).status u = k.status u := by
  by_cases same : u = t
  · subst same
    cases h : k.thread u <;> simp [Kernel.status, Kernel.allocateTid, h]
  · simp [Kernel.status, Kernel.allocateTid, same]

theorem runsIdle_allocateTid (k : Kernel ι) (t u : ι) :
    ((k.allocateTid t).thread u).any Thread.runsIdle = (k.thread u).any Thread.runsIdle := by
  by_cases same : u = t
  · subst same
    cases h : k.thread u <;> simp [Kernel.allocateTid, h]
  · simp [Kernel.allocateTid, same]

omit [DecidableEq ι] in
theorem status_eq_none {k : Kernel ι} {t : ι} : k.status t = none ↔ k.thread t = none :=
  Option.map_eq_none_iff

theorem Shape.initThread (h : Shape k d) (free : k.thread t = none) :
    Shape (k.initThread t false) d := by
  have none : k.status t = none := status_eq_none.mpr free
  have ne {u : ι} {s : Status} (hu : k.status u = some s) : u ≠ t := by
    rintro rfl
    rw [none] at hu
    cases hu
  have status := status_initThread k t false
  have keeps {u : ι} {s : Status} (hs : s ≠ .blocked) :
      (k.initThread t false).status u = some s ↔ k.status u = some s := by
    rw [status]
    split
    next same => simp [same, none, hs.symm]
    next => rfl
  obtain ⟨i, flags, alive, only, early⟩ := h.idle
  constructor
  case listed => exact fun u => by rw [keeps (by decide)]; exact h.listed u
  case ordered =>
    refine h.ordered.imp fun lt => ?_
    rwa [Kernel.initThread, readyAt, if_neg (by simp), readyAt, if_neg (by simp)]
  case unique =>
    refine List.Nodup.append h.unique (List.nodup_singleton t)
      (List.disjoint_singleton.mpr fun inside => ?_)
    obtain ⟨s, hs, _⟩ := (h.all t).mp inside
    exact ne hs rfl
  case all =>
    intro u
    rw [status, Kernel.initThread, List.mem_append, List.mem_singleton, h.all u]
    split
    next same => simp [same]
    next other => simp [other]
  case running => exact fun u hu => h.running u ((keeps (by decide)).mp hu)
  case dying => exact fun u hu => h.dying u ((keeps (by decide)).mp hu)
  case current =>
    obtain ⟨s, hs⟩ := h.current
    exact ⟨s, (status _).trans ((if_neg (ne hs)).trans hs)⟩
  case initial =>
    obtain ⟨s, hs⟩ := h.initial
    exact ⟨s, (status _).trans ((if_neg (ne hs)).trans hs)⟩
  case idle =>
    refine ⟨i, fun u => ?_, (keeps (by decide)).not.mpr alive, only, fun unset => ?_⟩
    · rw [← flags u]
      by_cases same : u = t
      · subst same
        simp [Kernel.initThread, free]
      · simp [Kernel.initThread, same]
    · rw [keeps (by decide), keeps (by decide)]
      exact early unset
  case phases =>
    intro u
    have before := h.phases u
    rw [Kernel.phaseOf] at before ⊢
    rw [status, Kernel.initThread, phase]
    by_cases same : u = t
    · rw [if_pos same.symm, if_pos same]
    · rw [if_neg (Ne.symm same), if_neg same, before]
  case lastRun => exact h.lastRun
  case lawful =>
    refine history_cons ?_ h.lawful
    change phase k.trace t = .free
    rw [h.phases t, Kernel.phaseOf, none]

theorem Shape.allocateTid (h : Shape k d) : Shape (k.allocateTid t) d := by
  have status := status_allocateTid k t
  have phaseOf (u : ι) : (k.allocateTid t).phaseOf u = k.phaseOf u := by
    rw [Kernel.phaseOf, status, Kernel.phaseOf]
  obtain ⟨i, flags, rest⟩ := h.idle
  constructor
  case listed => exact fun u => by rw [status]; exact h.listed u
  case ordered => exact h.ordered
  case unique => exact h.unique
  case all => exact fun u => by rw [status]; exact h.all u
  case running => exact fun u => by rw [status]; exact h.running u
  case dying => exact fun u => by rw [status]; exact h.dying u
  case current => rw [status]; exact h.current
  case initial => rw [status]; exact h.initial
  case idle =>
    refine ⟨i, fun u => ?_, ?_⟩
    · rw [runsIdle_allocateTid]
      exact flags u
    · rw [status]
      exact rest
  case phases => exact fun u => by rw [phaseOf]; exact h.phases u
  case lastRun => exact h.lastRun
  case lawful => exact h.lawful

/-- The first statement of `idle`. -/
theorem Consistent.becomeIdle (c : Consistent k) (idles : k.idles = true)
    (unset : k.idleThread = none) : Consistent { k with idleThread := some k.running } := by
  have h := c.shape
  obtain ⟨i, flags, alive, _, _⟩ := h.idle
  have self := (flags _).mp idles
  refine ⟨{ h with listed := fun t => ?_, idle := ?_ }, c.runs⟩
  · change t ∈ k.fifoReadyList ↔ k.status t = some .ready ∧ some k.running ≠ some t
    rw [h.listed t, unset]
    refine and_congr_right fun ready => ⟨fun _ same => ?_, fun _ => by simp⟩
    rw [← Option.some.inj same, c.runs] at ready
    cases ready
  · exact ⟨i, flags, alive, fun t set => by rw [← self]; exact (Option.some.inj set).symm,
      fun eq => by cases eq⟩

theorem Shape.freePage (h : Shape k d) (dies : k.status d = some .dying)
    (other : d ≠ k.initialThread) (left : d ≠ k.running) :
    Shape (k.freePage d) k.initialThread := by
  have status := status_freePage k d
  have keeps {u : ι} {s : Status} (hs : s ≠ .dying) :
      (k.freePage d).status u = some s ↔ k.status u = some s := by
    rw [status]
    split
    next same => simp [same, dies, hs.symm]
    next => rfl
  obtain ⟨i, flags, alive, only, early⟩ := h.idle
  constructor
  case listed => exact fun u => by rw [keeps (by decide)]; exact h.listed u
  case ordered =>
    refine h.ordered.imp fun lt => ?_
    rwa [Kernel.freePage, readyAt, if_neg (by simp), readyAt, if_neg (by simp)]
  case unique => exact h.unique
  case all =>
    intro u
    rw [status]
    refine (h.all u).trans ?_
    split
    next same => simp [same, dies]
    next => rfl
  case running => exact fun u hu => h.running u ((keeps (by decide)).mp hu)
  case dying =>
    intro u hu
    rw [status] at hu
    split at hu
    next => cases hu
    next ne => exact .inl ((h.dying u hu).resolve_right ne)
  case current => exact (status _).trans (if_neg left.symm) ▸ h.current
  case initial => exact (status _).trans (if_neg other.symm) ▸ h.initial
  case idle =>
    have ne : i ≠ d := by
      rintro rfl
      exact alive dies
    refine ⟨i, fun u => ?_, ?_, only, fun unset => ?_⟩
    · by_cases same : u = d
      · subst same
        simpa [Kernel.freePage] using ne.symm
      · rw [← flags u]
        simp [Kernel.freePage, same]
    · rwa [status, if_neg ne]
    · rw [keeps (by decide), keeps (by decide)]
      exact early unset
  case phases =>
    intro u
    have before := h.phases u
    rw [Kernel.phaseOf] at before ⊢
    rw [status, Kernel.freePage, phase]
    by_cases same : u = d
    · rw [if_pos same.symm, if_pos same]
    · rw [if_neg (Ne.symm same), if_neg same, before]
  case lastRun => exact h.lastRun
  case lawful =>
    refine history_cons ⟨?_, other, ?_⟩ h.lawful
    · rw [h.phases d, Kernel.phaseOf, dies]
    · rw [h.lastRun]
      exact fun eq => left (Option.some.inj eq).symm

end Other

section Switch
variable {k k' : Kernel ι} {t : ι} {s : Status}

theorem Consistent.law (c : Consistent k)
    (first : ∀ t ∈ k.fifoReadyList, readyAt k.trace k.running < readyAt k.trace t)
    (idle : k.idleThread = some k.running → k.fifoReadyList = []) : SwitchLaw k where
  running t := ⟨c.shape.running t, fun same => same ▸ c.runs⟩
  listed t ready other :=
    List.count_eq_one_of_mem c.shape.nodup ((c.shape.listed t).mpr ⟨ready, other⟩)
  unlisted t inside := ((c.shape.listed t).mp inside).1
  fifo t ready other := first t ((c.shape.listed t).mpr ⟨ready, other⟩)
  idle := idle
  freed t dies := (c.shape.dying t dies).elim id id
  lawful := c.shape.lawful

/-- The thread `next_thread_to_run` picks, and what makes it the one: it heads the
ready list, or it is the idle thread and the list is empty. -/
structure Picked (k : Kernel ι) (t : ι) (s : Status) : Prop where
  picked : k.threadScheduleFifo =
    (some t, { k with fifoReadyList := k.fifoReadyList.erase t })
  found : k.status t = some s
  waits : s ≠ .dying
  first : ∀ u ∈ k.fifoReadyList.erase t, readyAt k.trace t < readyAt k.trace u
  idle : k.idleThread = some t → k.fifoReadyList.erase t = []

theorem Shape.picks (h : Shape k k.running) (left : k.status k.running ≠ some .running) :
    ∃ t s, Picked k t s := by
  cases list : k.fifoReadyList with
  | cons t rest =>
      have ready := (h.listed t).mp (list ▸ List.mem_cons_self)
      refine ⟨t, .ready, ?_, ready.1, (by decide), ?_, fun idle => absurd idle ready.2⟩
      · simp [Kernel.threadScheduleFifo, list]
      · have ordered := h.ordered
        rw [list] at ordered ⊢
        rw [List.erase_cons_head]
        exact (List.pairwise_cons.mp ordered).1
  | nil =>
      obtain ⟨i, flags, alive, only, early⟩ := h.idle
      have empty (u : ι) : ¬ (k.status u = some .ready ∧ k.idleThread ≠ some u) := by
        rw [← h.listed u, list]
        exact List.not_mem_nil
      have set : k.idleThread = some i := by
        cases idle : k.idleThread with
        | some t => rw [only t idle]
        | none =>
            cases early idle with
            | inl runs => exact absurd (h.running i runs ▸ runs) left
            | inr ready => exact absurd ⟨ready, by simp [idle]⟩ (empty i)
      obtain ⟨th, there, _⟩ := (Option.any_eq_true ..).mp ((flags i).mpr rfl)
      have found : k.status i = some th.status := by rw [Kernel.status, there, Option.map_some]
      refine ⟨i, th.status, ?_, found, fun dies => alive (dies ▸ found), ?_, fun _ => ?_⟩
      · rw [show k.fifoReadyList.erase i = k.fifoReadyList by simp [list]]
        simp only [Kernel.threadScheduleFifo]
        split
        next eq =>
          rw [list] at eq
          cases eq
        next => exact Prod.ext set rfl
      · simp [list]
      · simp [list]

/-- The switch up to the assignment of `THREAD_RUNNING`. -/
def Kernel.dispatch (k : Kernel ι) (t : ι) : Kernel ι :=
  ({ k with fifoReadyList := k.fifoReadyList.erase t, running := t } : Kernel ι).setStatus t .running

theorem Picked.move (p : Picked k t s) (left : k.status k.running ≠ some .running) :
    Move k (k.dispatch t) t s .running k.running where
  found := p.found
  alive := p.waits
  change eq := by cases eq
  thread := rfl
  trace := rfl
  initial := rfl
  idleThread := rfl
  queue := (if_neg fun eq => by cases eq.1).symm
  all := rfl
  stays ne := absurd rfl ne
  runs _ := ⟨rfl, left⟩
  dies eq := by cases eq
  sleeps eq := by cases eq

theorem Picked.law (p : Picked k t s) (c : Consistent k')
    (list : k'.fifoReadyList = k.fifoReadyList.erase t) (runs : k'.running = t)
    (idle : k'.idleThread = k.idleThread)
    (trace : ∀ u, readyAt k'.trace u = readyAt k.trace u) : SwitchLaw k' := by
  refine c.law (fun u inside => ?_) fun set => ?_
  · rw [runs, trace, trace]
    exact p.first u (list ▸ inside)
  · rw [list]
    exact p.idle (by rw [← idle, set, runs])

/-- `thread_switch_tail` ends the switch away from `d`. -/
theorem Shape.switchTail {d : ι} {prev : Option ι}
    (h : Shape (k.setStatus k.running .running) d)
    (runs : (k.setStatus k.running .running).status k.running = some .running)
    (named : prev = none ∧ d = k.running ∨ prev = some d ∧ d ≠ k.running)
    (there : (k.setStatus k.running .running).status d ≠ none) :
    ∃ k', k.threadSwitchTail prev = .ok k' ∧ Consistent k' ∧
      k'.fifoReadyList = k.fifoReadyList ∧ k'.running = k.running ∧ k'.idleThread = k.idleThread ∧
      ∀ u, readyAt k'.trace u = readyAt k.trace u := by
  have trace (u : ι) : readyAt (k.setStatus k.running .running).trace u = readyAt k.trace u :=
    readyAt_set_of_ne_ready u (by decide)
  have done (shape : Shape (k.setStatus k.running .running) k.initialThread) :
      Consistent (k.setStatus k.running .running) := ⟨shape, runs⟩
  obtain ⟨rfl, rfl⟩ | ⟨rfl, other⟩ := named
  · refine ⟨_, rfl, done (h.forget ?_ _), rfl, rfl, rfl, trace⟩
    rw [runs]
    decide
  · obtain ⟨s, found⟩ := Option.ne_none_iff_exists'.mp there
    simp only [Kernel.threadSwitchTail, found]
    cases s with
    | running | ready | blocked =>
        refine ⟨_, rfl, done (h.forget ?_ _), rfl, rfl, rfl, trace⟩
        rw [found]
        decide
    | dying =>
        by_cases initial : d = k.initialThread
        · simp only [if_pos (show d = (k.setStatus k.running .running).initialThread from initial)]
          exact ⟨_, rfl, done (initial ▸ h), rfl, rfl, rfl, trace⟩
        · simp only [if_neg (show d ≠ (k.setStatus k.running .running).initialThread from initial),
            if_neg (show d ≠ (k.setStatus k.running .running).running from other)]
          refine ⟨_, rfl, ⟨h.freePage found initial other, ?_⟩, rfl, rfl, rfl, fun u => ?_⟩
          · exact (status_freePage _ _ _).trans ((if_neg (Ne.symm other)).trans runs)
          · rw [Kernel.freePage, readyAt, if_neg (by simp), trace]

/-- `schedule` finds a thread, and a completed switch leaves everything in order. -/
theorem Shape.schedule (h : Shape k k.running) (left : k.status k.running ≠ some .running) :
    ∃ k', k.schedule = .ok k' ∧ Consistent k' ∧ SwitchLaw k' := by
  obtain ⟨t, s, p⟩ := h.picks left
  have m := p.move left
  obtain ⟨c, current⟩ := h.current
  have there : (k.dispatch t).status k.running ≠ none := by
    rw [m.status]
    split
    · simp
    · simp [current]
  have found : ({ k with fifoReadyList := k.fifoReadyList.erase t } : Kernel ι).status t ≠ none := by
    change k.status t ≠ none
    simp [p.found]
  have before : ({ k with fifoReadyList := k.fifoReadyList.erase t } : Kernel ι).status k.running ≠
      some .running := left
  simp only [Kernel.schedule, p.picked, if_neg before, if_neg found]
  by_cases same : k.running = t
  · rw [if_pos same]
    subst same
    obtain ⟨k', tail, c, list, runs, idle, trace⟩ :=
      Shape.switchTail (k := { k with fifoReadyList := k.fifoReadyList.erase k.running })
        (h.move m) m.status_self (.inl ⟨rfl, rfl⟩) there
    exact ⟨k', tail, c, p.law c list runs idle trace⟩
  · rw [if_neg same]
    obtain ⟨k', tail, c, list, runs, idle, trace⟩ :=
      Shape.switchTail
        (k := { k with fifoReadyList := k.fifoReadyList.erase t, running := t })
        (h.move m) m.status_self (.inr ⟨rfl, same⟩) there
    exact ⟨k', tail, c, p.law c list runs idle trace⟩

end Switch

end CS162.Pintos.Scheduler
