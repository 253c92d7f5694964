import CS162.MapReduce.CoordinatorBarrier
import CS162.MapReduce.CoordinatorProgress

/-!
Work conservation: a wait reply means that no queued job has a task to hand out,
and a job whose tasks have all been reported is done. Both rest on equality
tests against counters. The map counter can be pushed past `n_map` by a repeated
report, and `reduce_finished == n_reduce` is only tested when a reduce task is
reported, which never happens when there is none.
-/

namespace CS162.MapReduce
open CS162.Library

/-- The task may be handed out at this time: never assigned, or assigned long
enough ago and not reported since. -/
def Assignable (log : List Event) (now : Int) (id : Int) (r : Bool) (i : Int) : Prop :=
  handedOut log id r i = false ∨
    reported log id r i = false ∧ ∃ t, lastHandout log id r i = some t ∧ now - t ≥ taskTimeoutSecs

def WaitsIdle (w : World) : Prop :=
  ∀ now s' reply, w.admits ⟨now, .getTask⟩ = true → getTask now w.coord = .ok (s', reply) →
    reply.wait = true → ∀ id ∈ w.coord.waitingQueue, ∃ job, w.coord.allJob id = some job ∧
      (∀ i, 0 ≤ i → i < job.nMap → ¬ Assignable w.log now id false i) ∧
      ((∀ k, 0 ≤ k → k < job.nMap → reported w.log id false k = true) →
        ∀ i, 0 ≤ i → i < job.nReduce → ¬ Assignable w.log now id true i)

def ReportedDone (w : World) : Prop :=
  ∀ id job, w.coord.allJob id = some job →
    (∀ r k, 0 ≤ k → k < job.size r → reported w.log id r k = true) →
    (pollJob w.coord id).2.done = true ∧ (pollJob w.coord id).2.invalidJobId = false

def Request.submit? : Request → Option SubmitJobRequest
  | .submitJob r => some r
  | _ => none

/-- No repeated success report of a map task of a queued job, and no accepted job
without reduce tasks. -/
def Conserving (w : World) (c : Call) : Prop :=
  FirstReport false w c ∧ ∀ r ∈ c.request.submit?, r.app ∈ apps → 1 ≤ r.nReduce

instance (w : World) (c : Call) : Decidable (Conserving w c) :=
  inferInstanceAs (Decidable (_ ∧ ∀ r ∈ c.request.submit?, _))

/-- An unfinished job still waits for a reduce report. -/
def ReduceShort (w : World) : Prop :=
  ∀ id job, w.coord.allJob id = some job → job.done = false → job.reduceFinished < job.nReduce

/-- An unfinished job is new, or it was there, and a report that left it unfinished was
not the last it waited for. -/
theorem Consistent.reduces_step {w : World} {now : Int} {request : Request} {reply : Reply}
    {coord : Coordinator} (h : Consistent w) (he : Effect now w.coord request reply coord) {id : Int}
    {job' : Job} (hj : coord.allJob id = some job') (hd : job'.done = false) :
    (∃ req, request = .submitJob req ∧ req.app ∈ apps ∧ job' = newJob w.coord req) ∨
      ∃ job, w.coord.allJob id = some job ∧ job.done = false ∧ job'.nReduce = job.nReduce ∧
        (job.reduceFinished < job.nReduce → job'.reduceFinished < job'.nReduce) := by
  cases h.jobStep he hj hd with
  | new req asked known fresh absent silent => exact .inl ⟨req, asked, known, fresh⟩
  | same job found undone sizes counters silent =>
      have size : job'.nReduce = job.nReduce := sizes true
      have counter : job'.reduceFinished = job.reduceFinished := counters true
      exact .inr ⟨job, found, undone, size, fun short => by omega⟩
  | counted job f i asked success named queued found undone index inside sizes counter other more reports =>
      have size : job'.nReduce = job.nReduce := sizes true
      refine .inr ⟨job, found, undone, size, fun short => ?_⟩
      cases hr : f.reduce with
      | false =>
          have same : job'.reduceFinished = job.reduceFinished := other true (by simp [hr])
          omega
      | true =>
          rw [hr] at counter
          have one : job'.reduceFinished = job.reduceFinished + 1 := counter
          have := more hr
          omega

theorem reduceShort_step {w : World} {c : Call} {reply : Reply} {coord : Coordinator}
    (h : Consistent w) (short : ReduceShort w)
    (positive : ∀ r ∈ c.request.submit?, r.app ∈ apps → 1 ≤ r.nReduce)
    (he : Effect c.now w.coord c.request reply coord) :
    ReduceShort ⟨coord, ⟨c.now, c.request, reply⟩ :: w.log⟩ := by
  intro id job' hj hd
  obtain ⟨req, asked, known, fresh⟩ | ⟨job, found, undone, -, next⟩ := h.reduces_step he hj hd
  · subst fresh
    exact Int.lt_of_lt_of_le Int.zero_lt_one (positive req (by simp [asked, Request.submit?]) known)
  · exact next (short id job found undone)

structure Conserved (w : World) : Prop where
  maps : CounterExact false w
  reduces : ReduceShort w

theorem reachable_conserved {w : World} (h : (mapReduce.under Conserving).Reachable w) :
    Conserved w := by
  refine h.invariant_of_reachable (fun s hs => ?_) (fun s c s' hr hw hs => ?_)
  · cases hs
    exact ⟨fun id job hj => (nomatch hj), fun id job hj => (nomatch hj)⟩
  · obtain ⟨hs, first, positive⟩ := hs
    have hc := reachable_consistent hr.of_under
    obtain ⟨reply, coord, names, effect, rfl⟩ := step_effect hc (World.serve_of_next hs)
    exact ⟨counterExact_step hc hw.maps first effect, reduceShort_step hc hw.reduces positive effect⟩

theorem not_assignable_of_entry {log : List Event} {now id : Int} {r : Bool} {n : Int}
    {table : List Task} (tracks : Tracks log id r n table)
    (expired : ∀ t ∈ table, t.expired now = false) (unassigned : ∀ t ∈ table, t.unassigned = false)
    {i : Int} (lower : 0 ≤ i) (upper : i < n) : ¬ Assignable log now id r i := by
  have inside : i.toNat < table.length := by
    rw [tracks.length]
    omega
  have entry : table[i.toNat]? = some table[i.toNat] := List.getElem?_eq_getElem inside
  have htime := tracks.time _ _ entry
  have hsuccess := tracks.success _ _ entry
  rw [Int.toNat_of_nonneg lower] at htime hsuccess
  have hmem : table[i.toNat] ∈ table := List.getElem_mem inside
  have assigned : table[i.toNat].time ≠ 0 := by
    simpa [Task.unassigned] using unassigned _ hmem
  rintro (idle | ⟨unfinished, t, last, late⟩)
  · exact assigned (by simpa [lastHandout_eq_none idle] using htime)
  · have running := expired _ hmem
    rw [last, Option.getD_some] at htime
    rw [unfinished] at hsuccess
    have timedOut : Task.expired now table[i.toNat] = true := by
      simp only [Task.expired, hsuccess, Bool.not_false, Bool.and_true, Bool.and_eq_true,
        decide_eq_true_eq]
      exact ⟨assigned, htime ▸ late⟩
    simp [running] at timedOut

theorem waitsIdle_of_counter {w : World} (h : Consistent w) (maps : CounterExact false w) : WaitsIdle w := by
  intro now s' reply _ answer waits id hid
  cases getTask_effect answer with
  | assign id' job mem reduce i t reply queued found live entry test phase fields =>
      simp [fields.1] at waits
  | wait reply _ idle =>
      obtain ⟨job, mem, hj, hm, expired, unassigned⟩ := idle id hid
      have undone := h.undone id hid job hj
      obtain ⟨mem', hm', _, tracks⟩ := (h.live id job hj undone).arrays
      cases hm.symm.trans hm'
      refine ⟨job, hj, fun i => not_assignable_of_entry (tracks false) expired.1 unassigned.1, ?_⟩
      intro all
      have phase : job.mapFinished = job.nMap := by
        have counted : job.mapFinished = countReported w.log id false job.nMap := maps id job hj undone
        rw [counted, countReported_of_all all]
        exact Int.toNat_of_nonneg (h.ids id job hj).2.2.2
      exact fun i => not_assignable_of_entry (tracks true) (expired.2 phase) (unassigned.2 phase)

theorem waitsIdle_of_conserved {w : World} (h : Consistent w) (hw : Conserved w) : WaitsIdle w :=
  waitsIdle_of_counter h hw.maps

theorem reportedDone_of_conserved {w : World} (h : Consistent w) (hw : Conserved w) :
    ReportedDone w := by
  intro id job hj all
  have done : job.done = true := by
    by_contra undone
    have undone : job.done = false := by simpa using undone
    have short := hw.reduces id job hj undone
    have counted := (h.live id job hj undone).counted true
    rw [countReported_of_all (all true)] at counted
    change ((job.nReduce.toNat : Nat) : Int) ≤ job.reduceFinished at counted
    omega
  simp [pollJob, hj, done]

/-- In every run without a repeated map report and without a job of no reduce
tasks, GET_TASK replies wait only when nothing can be assigned, and a job whose
tasks are all reported is done. -/
theorem workConserved_of_conserving {w : World} (h : (mapReduce.under Conserving).Reachable w) :
    WaitsIdle w ∧ ReportedDone w := by
  have hc := reachable_consistent h.of_under
  have hw := reachable_conserved h
  exact ⟨waitsIdle_of_conserved hc hw, reportedDone_of_conserved hc hw⟩

/-- A run that ends with a wait reply while the only task is out. -/
theorem workConserved_of_busy_job :
    ∃ w, w.log.any (fun e => e.reply.handsOut 1 false 0) = true ∧ WaitsIdle w ∧ ReportedDone w := by
  obtain ⟨w, hr, hp⟩ := System.exists_reachable_under (· = World.initial) World.next Conserving
    (fun w => w.log.any fun e => e.reply.handsOut 1 false 0)
    rfl [⟨1, .submitJob (wordCount ["a"] 1)⟩, ⟨1, .getTask⟩, ⟨2, .getTask⟩] (by decide)
  exact ⟨w, hp, workConserved_of_conserving hr⟩

/-- One file; map task 0 times out, is handed out again, and both workers report
it. The counter is 2 past `n_map` = 1, so the reduce task is never handed out:
GET_TASK replies wait with every map task reported and reduce task 0 unassigned. -/
theorem workConserved_fails_on_repeated_report :
    ¬ ∀ w, mapReduce.Reachable w → WaitsIdle w ∧ ReportedDone w := by
  intro all
  obtain ⟨w, hr, hp⟩ := System.exists_reachable (· = World.initial) World.next
    (fun w => w.admits ⟨12, .getTask⟩ && w.coord.waitingQueue == [1] &&
      (w.coord.allJob 1).all (fun j => j.nMap == 1 && j.nReduce == 1) &&
      reported w.log 1 false 0 && !handedOut w.log 1 true 0 &&
      (getTask 12 w.coord).toOption.any (fun p => p.2.wait))
    rfl [⟨1, .submitJob (wordCount ["a"] 1)⟩, ⟨1, .getTask⟩, ⟨11, .getTask⟩,
      ⟨12, report 1 0 false⟩, ⟨12, report 1 0 false⟩] (by decide)
  simp only [Bool.and_eq_true, Bool.not_eq_true', beq_iff_eq] at hp
  obtain ⟨⟨⟨⟨⟨admits, queue⟩, sizes⟩, finished⟩, unassigned⟩, waits⟩ := hp
  obtain ⟨⟨s', reply⟩, answer, waits⟩ := (Option.any_eq_true ..).mp waits
  have answer : getTask 12 w.coord = .ok (s', reply) := by
    cases hg : getTask 12 w.coord with
    | error e => simp [hg, Except.toOption] at answer
    | ok p => simpa [hg, Except.toOption] using answer
  obtain ⟨job, hj, _, reduces⟩ := (all w hr).1 12 s' reply admits answer waits 1 (by simp [queue])
  simp only [hj, Option.all_some, Bool.and_eq_true, beq_iff_eq] at sizes
  refine reduces (fun k lower upper => ?_) 0 (Int.le_refl 0) (by omega) (.inl unassigned)
  obtain rfl : k = 0 := by omega
  exact finished

end CS162.MapReduce
