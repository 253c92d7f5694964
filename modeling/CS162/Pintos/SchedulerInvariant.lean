import Mathlib.Data.List.Basic
import CS162.Library.History
import CS162.Pintos.Scheduler

/-!
What holds of the scheduler whenever interrupts are on, and what is left of it
between a thread's giving up the processor and the end of the switch. Every
assignment to a thread's status is one `Move`; the ready list goes with it.
-/

namespace CS162.Pintos.Scheduler
open CS162.Library
universe u
variable {ι : Type u} [DecidableEq ι]

section Trace

/-- When a thread last became ready: the length the trace then had. -/
def readyAt : List (Event ι) → ι → Nat
  | [], _ => 0
  | e :: log, t => if e = .set t .ready then log.length + 1 else readyAt log t

/-- The thread that was last set running. -/
def lastRun : List (Event ι) → Option ι
  | [] => none
  | .set t .running :: _ => some t
  | _ :: log => lastRun log

inductive Phase where
  | free
  | alive
  | exited

/-- What has become of a page. -/
def phase : List (Event ι) → ι → Phase
  | [], _ => .free
  | .create u :: log, t => if u = t then .alive else phase log t
  | .set u .dying :: log, t => if u = t then .exited else phase log t
  | .set _ _ :: log, t => phase log t
  | .free u :: log, t => if u = t then .free else phase log t

/-- What has to precede an event: only free pages are given to threads, only the
running thread exits, and a page is freed after its thread's exit, once, while
another thread runs. -/
def Lawful (initial : ι) : Event ι → List (Event ι) → Prop
  | .create t, log => phase log t = .free
  | .set t .dying, log => phase log t = .alive ∧ lastRun log = some t
  | .set t _, log => phase log t = .alive
  | .free t, log => phase log t = .exited ∧ t ≠ initial ∧ lastRun log ≠ some t

variable {e : Event ι} {log : List (Event ι)} {t u : ι} {s : Status}

theorem readyAt_le (log : List (Event ι)) (t : ι) : readyAt log t ≤ log.length := by
  induction log with
  | nil => exact Nat.le_refl 0
  | cons e log ih =>
      rw [readyAt, List.length_cons]
      split
      · exact Nat.le_refl _
      · exact Nat.le_succ_of_le ih

theorem readyAt_set_of_ne (s : Status) (h : t ≠ u) :
    readyAt (.set u s :: log) t = readyAt log t := by
  rw [readyAt, if_neg]
  intro eq
  cases eq
  exact h rfl

theorem readyAt_set_of_ne_ready (t : ι) (h : s ≠ .ready) :
    readyAt (.set u s :: log) t = readyAt log t := by
  rw [readyAt, if_neg]
  intro eq
  cases eq
  exact h rfl

omit [DecidableEq ι] in
theorem lastRun_set : lastRun (.set t s :: log) = if s = .running then some t else lastRun log := by
  cases s <;> rfl

theorem phase_set : phase (.set u s :: log) t =
    if s = .dying ∧ u = t then .exited else phase log t := by
  cases s <;> simp [phase]

end Trace

namespace Kernel
variable (k : Kernel ι) {t u : ι} {s : Status}

/-- What the trace has to say about the page. -/
def phaseOf (t : ι) : Phase :=
  match k.status t with
  | none => .free
  | some .dying => .exited
  | some _ => .alive

theorem status_setStatus (found : k.status t = some s) (s' : Status) (u : ι) :
    (k.setStatus t s').status u = if u = t then some s' else k.status u := by
  obtain ⟨th, eq, _⟩ := Option.map_eq_some_iff.mp found
  by_cases same : u = t
  · subst same
    simp [status, setStatus, eq]
  · simp [status, setStatus, same]

theorem runsIdle_setStatus (s : Status) (u : ι) :
    ((k.setStatus t s).thread u).any Thread.runsIdle = (k.thread u).any Thread.runsIdle := by
  by_cases same : u = t
  · subst same
    cases h : k.thread u <;> simp [setStatus, h]
  · simp [setStatus, same]

end Kernel

/-- `d` is the thread that may be dying, beside the initial one. -/
structure Shape (k : Kernel ι) (d : ι) : Prop where
  listed : ∀ t, t ∈ k.fifoReadyList ↔ k.status t = some .ready ∧ k.idleThread ≠ some t
  ordered : k.fifoReadyList.Pairwise fun a b => readyAt k.trace a < readyAt k.trace b
  unique : k.allList.Nodup
  all : ∀ t, t ∈ k.allList ↔ ∃ s, k.status t = some s ∧ s ≠ .dying
  running : ∀ t, k.status t = some .running → t = k.running
  dying : ∀ t, k.status t = some .dying → t = k.initialThread ∨ t = d
  current : ∃ s, k.status k.running = some s
  initial : ∃ s, k.status k.initialThread = some s
  idle : ∃ i, (∀ t, (k.thread t).any Thread.runsIdle = true ↔ t = i) ∧
    k.status i ≠ some .dying ∧ (∀ t, k.idleThread = some t → t = i) ∧
    (k.idleThread = none → k.status i = some .running ∨ k.status i = some .ready)
  phases : ∀ t, phase k.trace t = k.phaseOf t
  lastRun : lastRun k.trace = some k.running
  lawful : ∀ later e earlier, k.trace = later ++ e :: earlier → Lawful k.initialThread e earlier

structure Consistent (k : Kernel ι) : Prop where
  shape : Shape k k.initialThread
  runs : k.status k.running = some .running

/-- One thread's status is assigned. A thread that becomes ready is queued, unless it
is the idle thread; any other change takes it off the list if it was there. -/
structure Move (k k' : Kernel ι) (t : ι) (s s' : Status) (d : ι) : Prop where
  found : k.status t = some s
  alive : s ≠ .dying
  change : s' = .ready → s ≠ .ready
  thread : k'.thread = (k.setStatus t s').thread
  trace : k'.trace = .set t s' :: k.trace
  initial : k'.initialThread = k.initialThread
  idleThread : k'.idleThread = k.idleThread
  queue : k'.fifoReadyList =
    if s' = .ready ∧ k.idleThread ≠ some t then k.fifoReadyList ++ [t] else k.fifoReadyList.erase t
  all : k'.allList = if s' = .dying then k.allList.erase t else k.allList
  stays : s' ≠ .running → k'.running = k.running
  runs : s' = .running → k'.running = t ∧ k.status k.running ≠ some .running
  dies : s' = .dying → t = d ∧ t = k.running ∧ (k.thread t).any Thread.runsIdle = false
  sleeps : s' = .blocked → (k.thread t).any Thread.runsIdle = true → k.idleThread ≠ none

section Keep
variable {k k' : Kernel ι} {t d : ι} {s s' : Status}

theorem Shape.nodup (h : Shape k d) : k.fifoReadyList.Nodup :=
  h.ordered.imp fun lt => by
    rintro rfl
    exact Nat.lt_irrefl _ lt

theorem Move.status (m : Move k k' t s s' d) (u : ι) :
    k'.status u = if u = t then some s' else k.status u := by
  rw [← k.status_setStatus m.found s' u, Kernel.status, m.thread, Kernel.status]

theorem Move.status_of_ne (m : Move k k' t s s' d) {u : ι} (h : u ≠ t) :
    k'.status u = k.status u := by
  rw [m.status, if_neg h]

theorem Move.status_self (m : Move k k' t s s' d) : k'.status t = some s' := by
  rw [m.status, if_pos rfl]

theorem Move.listed (m : Move k k' t s s' d) (h : Shape k d) (u : ι) :
    u ∈ k'.fifoReadyList ↔ k'.status u = some .ready ∧ k'.idleThread ≠ some u := by
  rw [m.idleThread, m.queue]
  by_cases same : u = t
  · subst same
    rw [m.status_self]
    split
    next ready => simp [ready]
    next other =>
      rw [Option.some.injEq]
      exact ⟨fun inside => absurd inside h.nodup.not_mem_erase, fun ready => absurd ready other⟩
  · rw [m.status_of_ne same, ← h.listed u]
    split
    · simp [same]
    · exact List.mem_erase_of_ne same

theorem Move.ordered (m : Move k k' t s s' d) (h : Shape k d) :
    k'.fifoReadyList.Pairwise fun a b => readyAt k'.trace a < readyAt k'.trace b := by
  have old {l : List ι} (outside : t ∉ l) (sub : l.Sublist k.fifoReadyList) :
      l.Pairwise fun a b => readyAt k'.trace a < readyAt k'.trace b := by
    refine (h.ordered.sublist sub).imp_of_mem fun {a b} ha hb lt => ?_
    rw [m.trace, readyAt_set_of_ne s' (ne_of_mem_of_not_mem ha outside),
      readyAt_set_of_ne s' (ne_of_mem_of_not_mem hb outside)]
    exact lt
  rw [m.queue]
  split
  next ready =>
    have outside : t ∉ k.fifoReadyList := by
      intro inside
      have := ((h.listed t).mp inside).1
      rw [m.found, Option.some.injEq] at this
      exact m.change ready.1 this
    refine List.pairwise_append.mpr ⟨old outside (List.Sublist.refl _), List.pairwise_singleton _ _,
      fun a ha b hb => ?_⟩
    cases List.mem_singleton.mp hb
    rw [m.trace, readyAt_set_of_ne s' (ne_of_mem_of_not_mem ha outside), ready.1, readyAt, if_pos rfl]
    exact Nat.lt_succ_of_le (readyAt_le _ _)
  next => exact old h.nodup.not_mem_erase List.erase_sublist

theorem Move.phases (m : Move k k' t s s' d) (h : Shape k d) (u : ι) :
    phase k'.trace u = k'.phaseOf u := by
  rw [m.trace, phase_set]
  by_cases same : u = t
  · subst same
    have before := h.phases u
    have alive := m.alive
    rw [Kernel.phaseOf, m.found] at before
    rw [Kernel.phaseOf, m.status_self]
    cases s <;> cases s' <;> simp_all
  · rw [if_neg fun eq => same eq.2.symm, h.phases u, Kernel.phaseOf, Kernel.phaseOf,
      m.status_of_ne same]

theorem Move.lawful (m : Move k k' t s s' d) (h : Shape k d) :
    Lawful k.initialThread (.set t s') k.trace := by
  have alive : phase k.trace t = .alive := by
    have := m.alive
    rw [h.phases t, Kernel.phaseOf, m.found]
    cases s <;> simp_all
  cases s' with
  | dying => exact ⟨alive, h.lastRun.trans (congrArg some (m.dies rfl).2.1.symm)⟩
  | running | ready | blocked => exact alive

theorem Shape.move (h : Shape k d) (m : Move k k' t s s' d) : Shape k' d where
  listed := m.listed h
  ordered := m.ordered h
  unique := by
    rw [m.all]
    split
    · exact h.unique.erase t
    · exact h.unique
  all u := by
    rw [m.all]
    by_cases same : u = t
    · subst same
      rw [m.status_self]
      split
      next dies => simpa [dies] using h.unique.not_mem_erase
      next lives => simpa [lives] using (h.all u).mpr ⟨s, m.found, m.alive⟩
    · rw [m.status_of_ne same, ← h.all u]
      split
      · exact List.mem_erase_of_ne same
      · rfl
  running u hu := by
    by_cases same : u = t
    · subst same
      rw [m.status_self, Option.some.injEq] at hu
      exact (m.runs hu).1.symm
    · rw [m.status_of_ne same] at hu
      have eq := h.running u hu
      by_cases runs : s' = .running
      · exact absurd (eq ▸ hu) (m.runs runs).2
      · rw [m.stays runs]
        exact eq
  dying u hu := by
    by_cases same : u = t
    · subst same
      rw [m.status_self, Option.some.injEq] at hu
      exact .inr (m.dies hu).1
    · rw [m.status_of_ne same] at hu
      rw [m.initial]
      exact h.dying u hu
  current := by
    by_cases same : k'.running = t
    · exact ⟨s', same ▸ m.status_self⟩
    · rw [m.status_of_ne same]
      by_cases runs : s' = .running
      · exact absurd (m.runs runs).1 same
      · rw [m.stays runs]
        exact h.current
  initial := by
    rw [m.initial, m.status]
    split
    · exact ⟨s', rfl⟩
    · exact h.initial
  idle := by
    obtain ⟨i, flags, alive, only, early⟩ := h.idle
    have flags' (u : ι) : (k'.thread u).any Thread.runsIdle = true ↔ u = i := by
      rw [m.thread, k.runsIdle_setStatus]
      exact flags u
    rw [m.idleThread]
    refine ⟨i, flags', ?_, only, fun unset => ?_⟩
    all_goals rw [m.status]
    all_goals split
    · rename_i same
      intro dies
      have := (m.dies (Option.some.inj dies)).2.2
      rw [(flags t).mpr same.symm] at this
      cases this
    · exact alive
    · rename_i same
      have flag := (flags t).mpr same.symm
      cases s' with
      | running => exact .inl rfl
      | ready => exact .inr rfl
      | blocked => exact absurd unset (m.sleeps rfl flag)
      | dying =>
          rw [(m.dies rfl).2.2] at flag
          cases flag
    · exact early unset
  phases := m.phases h
  lastRun := by
    rw [m.trace, lastRun_set]
    split
    next runs => rw [(m.runs runs).1]
    next other => rw [m.stays other, h.lastRun]
  lawful := by
    rw [m.trace, m.initial]
    exact history_cons (m.lawful h) h.lawful

theorem Shape.forget (h : Shape k d) (alive : k.status d ≠ some .dying) (d' : ι) : Shape k d' :=
  { h with dying := fun t ht => .inl ((h.dying t ht).resolve_right fun eq => alive (eq ▸ ht)) }

theorem Shape.name (h : Shape k k.initialThread) (d : ι) : Shape k d :=
  { h with dying := fun t ht => .inl ((h.dying t ht).elim id id) }

end Keep
end CS162.Pintos.Scheduler
