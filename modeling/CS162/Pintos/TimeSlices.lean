import CS162.Library.Outcome
import CS162.Pintos.SchedulerLaw

/-!
Time slices (proj-pregame: `thread_tick` of thread.c, and the end of `intr_handler` after a timer
interrupt). A thread that is in the ready list runs once every thread ahead of it has had its
slice, whatever the threads do meanwhile. The counts of idle, kernel and user ticks are
left out.
-/

namespace CS162.Pintos.Scheduler
open CS162.Library
universe u

def timeSlice : Nat := 4

/-- The scheduler with `thread_ticks`. -/
structure Clock (ι : Type u) where
  kernel : Kernel ι
  threadTicks : Nat

/-- A call, or a timer interrupt. -/
inductive ClockAction (ι : Type u) where
  | act (a : Action ι)
  | tick
  deriving DecidableEq

namespace ClockAction
variable {ι : Type u}

def switches : ClockAction ι → Bool
  | .act a => a.switches
  | .tick => false

def ticks : ClockAction ι → Bool
  | .act _ => false
  | .tick => true

end ClockAction

namespace Clock
variable {ι : Type u} [DecidableEq ι] (c : Clock ι)

/-- A call after which `thread_switch_tail` has started a new time slice, or one that has not
switched. Nobody unblocks the idle thread. -/
def call (a : Action ι) : Option (Clock ι) :=
  if SparesIdle c.kernel a then
    (c.kernel.next a).map fun kernel => ⟨kernel, if a.switches then 0 else c.threadTicks⟩
  else none

/-- `thread_tick`, and the yield on return from the interrupt. -/
def threadTick : Option (Clock ι) :=
  let c := { c with threadTicks := c.threadTicks + 1 }
  if timeSlice ≤ c.threadTicks then c.call .yield else some c

def next : ClockAction ι → Option (Clock ι)
  | .act a => c.call a
  | .tick => c.threadTick

/-- How many threads are ahead of it. -/
def position (t : ι) : Nat := c.kernel.fifoReadyList.idxOf t

end Clock

def timeSlices (ι : Type u) [DecidableEq ι] : System (Clock ι) (ClockAction ι) :=
  .ofNext (fun c => Started c.kernel ∧ c.threadTicks = 0) Clock.next

section Switch
variable {ι : Type u} [DecidableEq ι] {k k' : Kernel ι} {a : Action ι} {t x : ι} {rest : List ι}

theorem switchTail_keeps {prev : Option ι} (done : k.threadSwitchTail prev = .ok k') :
    k'.fifoReadyList = k.fifoReadyList ∧ k'.running = k.running := by
  cases prev with
  | none =>
      cases done
      exact ⟨rfl, rfl⟩
  | some prev =>
      simp only [Kernel.threadSwitchTail] at done
      split at done
      next => cases done
      next =>
        split at done
        next =>
          cases done
          exact ⟨rfl, rfl⟩
        next =>
          split at done
          next => cases done
          next =>
            cases done
            exact ⟨rfl, rfl⟩
      next =>
        cases done
        exact ⟨rfl, rfl⟩

/-- `schedule` runs the first thread of the list. -/
theorem schedule_head (list : k.fifoReadyList = x :: rest) (done : k.schedule = .ok k') :
    k'.running = x ∧ k'.fifoReadyList = rest := by
  simp only [Kernel.schedule, Kernel.threadScheduleFifo, list] at done
  split at done
  next => cases done
  next =>
    split at done
    next => cases done
    next =>
      split at done
      next same =>
        obtain ⟨listed, runs⟩ := switchTail_keeps done
        exact ⟨runs.trans same, listed⟩
      next =>
        obtain ⟨listed, runs⟩ := switchTail_keeps done
        exact ⟨runs, listed⟩

theorem perform_of_next (hs : k.next a = some k') : k.perform a = .ok k' := by
  rw [Kernel.next] at hs
  split at hs
  next =>
    cases done : k.perform a with
    | ok k₁ =>
        rw [done] at hs
        cases hs
        rfl
    | error fault =>
        rw [done] at hs
        cases hs
  next => cases hs

theorem queue_of_call (hs : k.next a = some k') (stays : a.switches = false) :
    k.fifoReadyList <+: k'.fifoReadyList := by
  have done := perform_of_next hs
  cases a with
  | initThread u =>
      cases done
      exact List.prefix_rfl
  | allocateTid u =>
      cases done
      exact List.prefix_rfl
  | unblock u =>
      simp only [Kernel.perform, Kernel.threadUnblock] at done
      split at done
      next => cases done
      next =>
        cases done
        exact List.prefix_append _ _
      next => cases done
  | becomeIdle =>
      cases done
      exact List.prefix_rfl
  | block => cases stays
  | yield => cases stays
  | exit => cases stays

/-- Whoever gives the processor up gives it to the first thread of the list. -/
theorem head_of_switch (hs : k.next a = some k') (switch : a.switches = true)
    (list : k.fifoReadyList = x :: rest) : k'.running = x ∧ rest <+: k'.fifoReadyList := by
  have done := perform_of_next hs
  cases a with
  | initThread u => cases switch
  | allocateTid u => cases switch
  | unblock u => cases switch
  | becomeIdle => cases switch
  | block =>
      obtain ⟨cur, _, done⟩ := bind_eq_ok done
      obtain ⟨runs, left⟩ := schedule_head (k := k.setStatus cur .blocked) list done
      exact ⟨runs, left ▸ List.prefix_rfl⟩
  | yield =>
      obtain ⟨cur, _, done⟩ := bind_eq_ok done
      have queued : ∃ more, (if k.idleThread = some cur then k else k.threadEnqueue cur).fifoReadyList =
          x :: (rest ++ more) := by
        split
        next => exact ⟨[], by rw [list, List.append_nil]⟩
        next => exact ⟨[cur], by rw [Kernel.threadEnqueue, list, List.cons_append]⟩
      obtain ⟨more, queued⟩ := queued
      obtain ⟨runs, left⟩ := schedule_head (k := Kernel.setStatus _ cur .ready) queued done
      exact ⟨runs, left ▸ List.prefix_append rest more⟩
  | exit =>
      obtain ⟨cur, _, done⟩ := bind_eq_ok done
      obtain ⟨runs, left⟩ := schedule_head
        (k := Kernel.setStatus { k with allList := k.allList.erase cur } cur .dying) list done
      exact ⟨runs, left ▸ List.prefix_rfl⟩

end Switch

section Waiting
variable {ι : Type u} [DecidableEq ι] {c c' : Clock ι} {a : Action ι} {b : ClockAction ι} {t : ι}

namespace Clock

theorem call_eq_some (hs : c.call a = some c') : SparesIdle c.kernel a ∧
    c.kernel.next a = some c'.kernel ∧ c'.threadTicks = if a.switches then 0 else c.threadTicks := by
  rw [call] at hs
  split at hs
  next spares =>
    obtain ⟨kernel, step, rfl⟩ := Option.map_eq_some_iff.mp hs
    exact ⟨spares, step, rfl⟩
  next => cases hs

/-- What holds whenever interrupts are on. -/
structure Good (c : Clock ι) : Prop where
  consistent : Consistent c.kernel
  within : c.threadTicks < timeSlice

theorem Good.call (h : Good c) (hs : c.call a = some c') : Good c' := by
  obtain ⟨spares, step, ticks⟩ := call_eq_some hs
  refine ⟨(h.consistent.next spares step).1, ?_⟩
  rw [ticks]
  split
  next => decide
  next => exact h.within

theorem threadTick_eq (h : Good c) (hs : c.threadTick = some c') :
    (⟨c.kernel, timeSlice⟩ : Clock ι).call .yield = some c' ∧ c.threadTicks + 1 = timeSlice ∨
      c' = ⟨c.kernel, c.threadTicks + 1⟩ ∧ c.threadTicks + 1 < timeSlice := by
  have within := h.within
  simp only [threadTick] at hs
  split at hs
  next late =>
    have last : c.threadTicks + 1 = timeSlice := by omega
    rw [last] at hs
    exact .inl ⟨hs, last⟩
  next more =>
    cases hs
    exact .inr ⟨rfl, Nat.lt_of_not_le more⟩

theorem Good.next (h : Good c) (hs : c.next b = some c') : Good c' := by
  cases b with
  | act a => exact h.call hs
  | tick =>
      obtain ⟨yields, _⟩ | ⟨rfl, within⟩ := threadTick_eq h hs
      · obtain ⟨spares, step, ticks⟩ := call_eq_some yields
        refine ⟨(h.consistent.next spares step).1, ?_⟩
        rw [ticks, if_pos (show Action.yield.switches = true from rfl)]
        decide
      · exact ⟨h.consistent, within⟩

theorem good_of_reachable (reach : (timeSlices ι).Reachable c) : Good c :=
  reach.invariant (I := Good) (fun _ start => ⟨started_consistent start.1, by rw [start.2]; decide⟩)
    fun _ _ _ h step => h.next step

/-- A thread in the list keeps its place until the processor is given up, and then moves up or runs. -/
theorem call_waits (hs : c.call a = some c') (waits : t ∈ c.kernel.fifoReadyList) :
    (a.switches = false → t ∈ c'.kernel.fifoReadyList ∧ c'.position t = c.position t) ∧
    (a.switches = true → c'.kernel.running = t ∨
      t ∈ c'.kernel.fifoReadyList ∧ c'.position t + 1 = c.position t) := by
  obtain ⟨_, step, _⟩ := call_eq_some hs
  constructor
  · intro stays
    have kept := queue_of_call step stays
    obtain ⟨more, list⟩ := kept
    exact ⟨list ▸ List.mem_append_left more waits, by
      rw [position, position, ← list, List.idxOf_append_of_mem waits]⟩
  · intro switch
    obtain ⟨x, rest, list⟩ := List.exists_cons_of_ne_nil (List.ne_nil_of_mem waits)
    obtain ⟨runs, more, left⟩ := head_of_switch step switch list
    by_cases first : x = t
    · exact .inl (runs.trans first)
    · rw [list] at waits
      have behind := (List.mem_cons.mp waits).resolve_left (Ne.symm first)
      refine .inr ⟨left ▸ List.mem_append_left more behind, ?_⟩
      rw [position, position, list, ← left, List.idxOf_append_of_mem behind, List.idxOf_cons_ne rest first]

theorem Good.waits (h : Good c) (hs : c.next b = some c') (waits : t ∈ c.kernel.fifoReadyList) :
    c'.kernel.running = t ∨ t ∈ c'.kernel.fifoReadyList ∧
      (c'.position t = c.position t ∧ b.switches = false ∧ c'.threadTicks = c.threadTicks + b.ticks.toNat ∨
        c'.position t + 1 = c.position t ∧ c'.threadTicks = 0) := by
  cases b with
  | act a =>
      obtain ⟨stay, switch⟩ := call_waits hs waits
      have ticks := (call_eq_some hs).2.2
      cases switches : a.switches with
      | false =>
          rw [switches] at ticks
          exact .inr ⟨(stay switches).1, .inl ⟨(stay switches).2, switches, ticks⟩⟩
      | true =>
          rw [switches] at ticks
          exact (switch switches).imp_right fun moved => ⟨moved.1, .inr ⟨moved.2, ticks⟩⟩
  | tick =>
      obtain ⟨yields, _⟩ | ⟨rfl, _⟩ := threadTick_eq h hs
      · have ticks := (call_eq_some yields).2.2
        exact ((call_waits yields waits).2 rfl).imp_right fun moved => ⟨moved.1, .inr ⟨moved.2, ticks⟩⟩
      · exact .inr ⟨waits, .inl ⟨rfl, rfl, rfl⟩⟩

theorem Good.tick (h : Good c) : ∃ c', c.next .tick = some c' := by
  obtain ⟨kernel, done, _⟩ := h.consistent.perform (a := .yield) rfl trivial
  have yields : c.kernel.next .yield = some kernel := by
    rw [Kernel.next, if_pos (show c.kernel.allows .yield = true from rfl), done]
    rfl
  simp only [Clock.next, threadTick]
  split
  next =>
    refine ⟨⟨kernel, 0⟩, ?_⟩
    rw [Clock.call, if_pos (show SparesIdle c.kernel .yield from trivial), yields]
    rfl
  next => exact ⟨_, rfl⟩

section Reaches
variable {run : List (ClockAction ι)}

theorem Good.runs_of_switches (h : Good c) (waits : t ∈ c.kernel.fifoReadyList)
    (ran : System.exec Clock.next c run = some c')
    (enough : c.position t + 1 ≤ run.countP ClockAction.switches) :
    ∃ before after u, run = before ++ after ∧ System.exec Clock.next c before = some u ∧
      u.kernel.running = t := by
  refine System.exec_reaches (fun c => Good c ∧ t ∈ c.kernel.fifoReadyList)
    (fun c => c.position t + 1) (fun _ _ => Nat.succ_pos _) ?_ ran ⟨h, waits⟩ enough
  rintro c b c' ⟨h, waits⟩ step
  refine (h.waits step waits).imp_right ?_
  rintro ⟨waits', ⟨position, stays, _⟩ | ⟨position, _⟩⟩
  · refine ⟨⟨h.next step, waits'⟩, ?_⟩
    rw [stays, position]
    exact Nat.le_refl _
  · have one := Bool.toNat_le b.switches
    exact ⟨⟨h.next step, waits'⟩, by omega⟩

theorem Good.runs_of_ticks (h : Good c) (waits : t ∈ c.kernel.fifoReadyList)
    (ran : System.exec Clock.next c run = some c')
    (enough : timeSlice * (c.position t + 1) - c.threadTicks ≤ run.countP ClockAction.ticks) :
    ∃ before after u, run = before ++ after ∧ System.exec Clock.next c before = some u ∧
      u.kernel.running = t := by
  refine System.exec_reaches (fun c => Good c ∧ t ∈ c.kernel.fifoReadyList)
    (fun c => timeSlice * (c.position t + 1) - c.threadTicks) ?_ ?_ ran ⟨h, waits⟩ enough
  · rintro c ⟨h, _⟩
    have within := h.within
    rw [timeSlice] at within ⊢
    omega
  · rintro c b c' ⟨h, waits⟩ step
    have good := h.next step
    have within := h.within
    have within' := good.within
    rw [timeSlice] at within within' ⊢
    refine (h.waits step waits).imp_right ?_
    have one := Bool.toNat_le b.ticks
    rintro ⟨waits', ⟨position, _, ticks⟩ | moved⟩
    · exact ⟨⟨good, waits'⟩, by omega⟩
    · exact ⟨⟨good, waits'⟩, by omega⟩

end Reaches
end Clock

open Clock

/-- A ready thread runs before more threads have given up the processor than were ahead of it, and
before each of them and the one that runs has had its slice. Timer interrupts never fail. -/
theorem ready_thread_runs {ahead behind : List ι} {run : List (ClockAction ι)}
    (reach : (timeSlices ι).Reachable c) (ready : c.kernel.fifoReadyList = ahead ++ t :: behind)
    (ran : System.exec Clock.next c run = some c')
    (enough : ahead.length < run.countP ClockAction.switches ∨
      timeSlice * (ahead.length + 1) ≤ run.countP ClockAction.ticks + c.threadTicks) :
    (∃ before after u, run = before ++ after ∧ System.exec Clock.next c before = some u ∧
      u.kernel.threadCurrent = .ok t) ∧ ∃ c'', c'.next .tick = some c'' := by
  have good := good_of_reachable reach
  have waits : t ∈ c.kernel.fifoReadyList := ready ▸ List.mem_append_right ahead List.mem_cons_self
  have position : c.position t ≤ ahead.length := by
    rw [Clock.position, ready, List.idxOf_append]
    split
    next inside => exact Nat.le_of_lt (List.idxOf_lt_length_of_mem inside)
    next => exact Nat.le_of_eq (by rw [List.idxOf_cons_self, Nat.zero_add])
  constructor
  · have runs : ∃ before after u, run = before ++ after ∧ System.exec Clock.next c before = some u ∧
        u.kernel.running = t := by
      cases enough with
      | inl switches => exact good.runs_of_switches waits ran (by omega)
      | inr ticks =>
          have enough : timeSlice * (c.position t + 1) ≤ timeSlice * (ahead.length + 1) :=
            Nat.mul_le_mul_left _ (Nat.succ_le_succ position)
          exact good.runs_of_ticks waits ran (by omega)
    obtain ⟨before, after, u, split, first, runs⟩ := runs
    have good' := good_of_reachable (System.reachable_exec reach first)
    exact ⟨before, after, u, split, first, runs ▸ good'.consistent.threadCurrent⟩
  · exact (good_of_reachable (System.reachable_exec reach ran)).tick

/-- A new thread behind the idle thread runs after two slices. -/
theorem ready_thread_runs_after_slices : ∃ c c' : Clock Nat, (timeSlices Nat).Reachable c ∧
    c.kernel.fifoReadyList = [1, 2] ∧
    (∃ before after u, List.replicate 8 ClockAction.tick = before ++ after ∧
      System.exec Clock.next c before = some u ∧ u.kernel.threadCurrent = .ok 2) ∧
    ∃ c'', c'.next .tick = some c'' := by
  obtain ⟨c, reach, holds⟩ := System.exists_reachable (fun c => Started c.kernel ∧ c.threadTicks = 0) Clock.next
    (fun c => decide (c.kernel.fifoReadyList = [1, 2]) && (System.exec Clock.next c (List.replicate 8 .tick)).isSome)
    (s := ⟨started, 0⟩) ⟨started_started, rfl⟩ [.act (.initThread 2), .act (.allocateTid 2), .act (.unblock 2)]
    (by decide)
  simp only [Bool.and_eq_true, decide_eq_true_eq] at holds
  obtain ⟨c', ran⟩ := Option.isSome_iff_exists.mp holds.2
  have ready : c.kernel.fifoReadyList = [1] ++ 2 :: [] := holds.1
  exact ⟨c, c', reach, ready, ready_thread_runs reach ready ran (.inr (Nat.le_add_right 8 _))⟩

end Waiting
end CS162.Pintos.Scheduler
