import CS162.MapReduce.CoordinatorProgress

/-!
The waiting queue and the job table over whole runs, under any clock. The queue
is the accepted jobs that are not done, in the order of their submission. An
ended job keeps its table entry: its arrays were released when it ended, and no
later request touches them or changes what a poll says.

Time 0 stands for a task that was never assigned, so the two searches tell tasks
in progress from new ones as long as no request is handled at time 0. A task
then goes to one worker for `TASK_TIMEOUT_SECS`, and to none once it is reported
or its job has ended.
-/

namespace CS162.MapReduce
open CS162.Library

/-- The id that a SUBMIT_JOB reply gives to the job it accepted. -/
def Event.accepted? (e : Event) : Option Int :=
  match e.reply with
  | .submitted id => if id = -1 then none else some id
  | _ => none

/-- The ids of the accepted jobs in the order of their submission. -/
def accepted (log : List Event) : List Int := log.reverse.filterMap Event.accepted?

def Coordinator.undone (s : Coordinator) (id : Int) : Bool :=
  (s.allJob id).any fun job => !job.done

/-- The job's arrays have been released. -/
def World.released (w : World) (id : Int) : Bool :=
  (w.coord.allJob id).any fun job => job.mem.isNone

/-- How often a run releases the job's arrays. -/
def releases (id : Int) : World → List Call → Nat
  | _, [] => 0
  | w, c :: calls =>
      match w.serve c with
      | some w' => (!w.released id && w'.released id).toNat + releases id w' calls
      | none => 0

/-- Every valid answer after one that said done repeats it. -/
def PollsFixed (w : World) : Prop :=
  ∀ later e earlier, w.log = later ++ e :: earlier → ∀ e' ∈ earlier, ∀ id r r',
    e'.request = .pollJob id → e'.reply = .polled r' → r'.invalidJobId = false → r'.done = true →
    e.request = .pollJob id → e.reply = .polled r →
    r.invalidJobId = false ∧ r.done = true ∧ r.failed = r'.failed

structure QueueLaw (w : World) : Prop where
  /-- In submission order, exactly the accepted jobs that are not done. -/
  queue : w.coord.waitingQueue = (accepted w.log).filter w.coord.undone
  /-- No id is used twice, so none is queued twice. -/
  unique : (accepted w.log).Nodup
  table : ∀ id, id ∈ accepted w.log ↔ ∃ job, w.coord.allJob id = some job
  freed : ∀ id job, w.coord.allJob id = some job → (job.mem = none ↔ job.done = true)
  /-- The next request is handled without a fault and leaves released jobs alone. -/
  untouched : ∀ c, w.names c.request = true → ∃ w', w.serve c = some w' ∧
    ∀ id job, w.coord.allJob id = some job → job.mem = none → w'.coord.allJob id = some job
  polls : PollsFixed w

section Log
variable {e : Event} {log : List Event}

@[simp] theorem accepted_cons : accepted (e :: log) = accepted log ++ e.accepted?.toList := by
  cases h : e.accepted? <;> simp [accepted, h]

end Log

section Steps
variable {w w' : World} {now : Int} {request : Request} {reply : Reply} {coord : Coordinator}
  {id : Int} {job : Job}

/-- An ended job is out of reach: no request changes its entry or hands out one of
its tasks. -/
theorem Consistent.ended (h : Consistent w) (he : Effect now w.coord request reply coord)
    (found : w.coord.allJob id = some job) (done : job.done = true) :
    coord.allJob id = some job ∧ ∀ r i, reply.handsOut id r i = false := by
  have unqueued : id ∉ w.coord.waitingQueue := by
    intro queued
    simp [h.undone id queued job found] at done
  have other {id' : Int} (queued : id' ∈ w.coord.waitingQueue) (job' : Job) :
      (w.coord.setJob id' job').allJob id = some job := by
    rwa [Coordinator.setJob_of_ne]
    intro same
    exact unqueued (same ▸ queued)
  cases he with
  | refuse | poll | ignore => exact ⟨found, fun _ _ => rfl⟩
  | accept r =>
      have ne : id ≠ w.coord.nextId + 1 := by
        have := (h.ids id job found).2.2.1
        omega
      exact ⟨by simpa [Coordinator.setJob, ne] using found, fun _ _ => rfl⟩
  | wait reply waits => exact ⟨found, fun r i => by simp [Reply.handsOut, waits]⟩
  | assign id' job' mem reduce i t reply queued found' live entry test phase hands =>
      refine ⟨other queued _, fun r k => ?_⟩
      rw [Bool.eq_false_iff]
      intro out
      have := (handsOut_task hands.1 (hands.2.1.trans (h.ids id' job' found').1) hands.2.2.1
        hands.2.2.2).mp out
      exact unqueued (this.1 ▸ queued)
  | fail r job' queued | report r job' mem i queued | complete r job' mem i queued =>
      exact ⟨other queued _, fun _ _ => rfl⟩

theorem Consistent.mem_eq_none (h : Consistent w) (found : w.coord.allJob id = some job) :
    job.mem = none ↔ job.done = true := by
  refine ⟨fun released => ?_, h.freed id job found⟩
  by_contra undone
  obtain ⟨mem, live, _⟩ := (h.live id job found (by simpa using undone)).arrays
  rw [released] at live
  cases live

/-- What the log and the table know of the accepted jobs. -/
structure Queued (w : World) : Prop where
  queue : w.coord.waitingQueue = (accepted w.log).filter w.coord.undone
  unique : (accepted w.log).Nodup
  table : ∀ id, id ∈ accepted w.log ↔ ∃ job, w.coord.allJob id = some job

theorem Queued.same {e : Event} (q : Queued w) (silent : e.accepted? = none)
    (queue : coord.waitingQueue = w.coord.waitingQueue)
    (table : ∀ id, (∃ job, coord.allJob id = some job) ↔ ∃ job, w.coord.allJob id = some job)
    (undone : ∀ id, coord.undone id = w.coord.undone id) : Queued ⟨coord, e :: w.log⟩ where
  queue := by
    rw [queue, q.queue, accepted_cons, silent, Option.toList_none, List.append_nil]
    exact List.filter_congr fun id _ => (undone id).symm
  unique := by simpa [silent] using q.unique
  table id := by
    rw [table id, ← q.table id]
    simp [silent]

theorem undone_setJob (s : Coordinator) (id : Int) (job : Job) (id' : Int) :
    (s.setJob id job).undone id' = if id' = id then !job.done else s.undone id' := by
  rw [Coordinator.undone]
  split
  next same => rw [same, Coordinator.setJob_self, Option.any_some]
  next other => rw [Coordinator.setJob_of_ne s job other, Coordinator.undone]

theorem exists_setJob {s : Coordinator} (found : s.allJob id = some job) (job' : Job)
    (id' : Int) :
    (∃ j, (s.setJob id job').allJob id' = some j) ↔ ∃ j, s.allJob id' = some j := by
  by_cases same : id' = id
  · rw [same, Coordinator.setJob_self, found]
    exact ⟨fun _ => ⟨job, rfl⟩, fun _ => ⟨job', rfl⟩⟩
  · rw [Coordinator.setJob_of_ne s job' same]

theorem Queued.kept {e : Event} (q : Queued w) (h : Consistent w) (silent : e.accepted? = none)
    (queued : id ∈ w.coord.waitingQueue) (found : w.coord.allJob id = some job) {job' : Job}
    (jobs : coord.allJob = (w.coord.setJob id job').allJob) (same : job'.done = job.done)
    (queue : coord.waitingQueue = w.coord.waitingQueue) : Queued ⟨coord, e :: w.log⟩ := by
  refine q.same silent queue (fun id' => jobs ▸ exists_setJob found job' id') fun id' => ?_
  have moved : coord.undone id' = (w.coord.setJob id job').undone id' := by
    rw [Coordinator.undone, jobs, ← Coordinator.undone]
  rw [moved, undone_setJob, same, h.undone id queued job found]
  split
  next eq => rw [eq, Coordinator.undone, found, Option.any_some, h.undone id queued job found]
  next => rfl

theorem Queued.left {e : Event} (q : Queued w) (silent : e.accepted? = none)
    (found : w.coord.allJob id = some job) {job' : Job}
    (jobs : coord.allJob = (w.coord.setJob id job').allJob) (done : job'.done = true)
    (queue : coord.waitingQueue = w.coord.waitingQueue.erase id) :
    Queued ⟨coord, e :: w.log⟩ where
  queue := by
    rw [queue, q.queue, accepted_cons, silent, Option.toList_none, List.append_nil,
      (q.unique.filter _).erase_eq_filter, List.filter_filter]
    refine List.filter_congr fun id' _ => ?_
    have moved : coord.undone id' = (w.coord.setJob id job').undone id' := by
      rw [Coordinator.undone, jobs, ← Coordinator.undone]
    rw [moved, undone_setJob, done]
    by_cases same : id' = id <;> simp [same]
  unique := by simpa [silent] using q.unique
  table id' := by
    rw [jobs, exists_setJob found, ← q.table id']
    simp [silent]

theorem Queued.accept {e : Event} (q : Queued w) (h : Consistent w) (r : SubmitJobRequest)
    (given : e.accepted? = some (w.coord.nextId + 1)) :
    Queued ⟨{ w.coord.setJob (w.coord.nextId + 1) (newJob w.coord r) with
      nextId := w.coord.nextId + 1,
      waitingQueue := w.coord.waitingQueue ++ [w.coord.nextId + 1] }, e :: w.log⟩ := by
  have older : ∀ id ∈ accepted w.log, id ≠ w.coord.nextId + 1 := by
    intro id known
    obtain ⟨job, found⟩ := (q.table id).mp known
    have := (h.ids id job found).2.2.1
    omega
  constructor
  case queue =>
    rw [accepted_cons, given, Option.toList_some, List.filter_append, q.queue]
    have before : (accepted w.log).filter
        (w.coord.setJob (w.coord.nextId + 1) (newJob w.coord r)).undone =
        (accepted w.log).filter w.coord.undone :=
      List.filter_congr fun id known => by rw [undone_setJob, if_neg (older id known)]
    have last : [w.coord.nextId + 1].filter
        (w.coord.setJob (w.coord.nextId + 1) (newJob w.coord r)).undone =
        [w.coord.nextId + 1] := by
      simp [undone_setJob, newJob]
    exact congrArg₂ (· ++ ·) before.symm last.symm
  case unique =>
    rw [accepted_cons, given, Option.toList_some]
    exact q.unique.append (List.nodup_singleton _)
      (List.disjoint_singleton.mpr fun known => older _ known rfl)
  case table =>
    intro id
    rw [accepted_cons, given, Option.toList_some, List.mem_append, List.mem_singleton, q.table id]
    by_cases new : id = w.coord.nextId + 1
    · subst new
      simp
    · rw [show Coordinator.allJob _ id = w.coord.allJob id from
        Coordinator.setJob_of_ne w.coord _ new]
      simp [new]

theorem Consistent.queued_effect (h : Consistent w) (q : Queued w)
    (he : Effect now w.coord request reply coord) :
    Queued ⟨coord, ⟨now, request, reply⟩ :: w.log⟩ := by
  cases he with
  | refuse | poll | wait | ignore =>
      exact q.same rfl rfl (fun _ => Iff.rfl) fun _ => rfl
  | accept r =>
      have := h.nextId
      exact q.accept h r (if_neg (by omega))
  | assign id job mem reduce i t reply queued found => exact q.kept h rfl queued found rfl rfl rfl
  | fail r job queued found => exact q.left rfl found rfl rfl rfl
  | report r job mem i queued found =>
      refine q.kept h rfl queued found rfl ?_ rfl
      cases r.reduce <;> rfl
  | complete r job mem i queued found => exact q.left rfl found rfl rfl rfl

/-- A poll that said done was about a job that has ended, with that result. -/
def PollsEnded (w : World) : Prop :=
  ∀ e ∈ w.log, ∀ id r, e.request = .pollJob id → e.reply = .polled r → r.invalidJobId = false →
    r.done = true → ∃ job, w.coord.allJob id = some job ∧ job.done = true ∧ job.failed = r.failed

theorem pollsEnded_effect (h : Consistent w) (polls : PollsEnded w)
    (he : Effect now w.coord request reply coord) :
    PollsEnded ⟨coord, ⟨now, request, reply⟩ :: w.log⟩ := by
  intro e he' id r asked answered valid done
  cases he' with
  | tail _ older =>
      obtain ⟨job, found, ended, same⟩ := polls e older id r asked answered valid done
      exact ⟨job, (h.ended he found ended).1, ended, same⟩
  | head =>
      cases asked
      cases answered
      cases he with
      | poll id reply known unknown =>
          cases found : w.coord.allJob id with
          | none => simp [unknown found] at valid
          | some job =>
              obtain rfl := known job found
              exact ⟨job, rfl, done, rfl⟩

theorem pollsFixed_effect (fixed : PollsFixed w) (polls : PollsEnded w)
    (he : Effect now w.coord request reply coord) :
    PollsFixed ⟨coord, ⟨now, request, reply⟩ :: w.log⟩ := by
  refine history_cons ?_ fixed
  intro e' older id r r' asked' answered' valid done asked answered
  obtain ⟨job, found, ended, same⟩ := polls e' older id r' asked' answered' valid done
  cases asked
  cases answered
  cases he with
  | poll id reply known unknown =>
      obtain rfl := known job found
      exact ⟨rfl, ended, same⟩

end Steps

structure Lawful (w : World) : Prop where
  consistent : Consistent w
  queued : Queued w
  ended : PollsEnded w
  fixed : PollsFixed w

theorem anyClock_lawful {w : World} (h : anyClock.Reachable w) : Lawful w := by
  refine h.invariant (fun w start => ?_) fun w c w' l hs => ?_
  · obtain rfl := start
    refine ⟨consistent_init, ⟨rfl, List.nodup_nil, fun id => ?_⟩, fun e he => ?_, ?_⟩
    · simp [World.initial, accepted, coordinatorInit]
    · cases he
    · exact history_nil
  · obtain ⟨reply, coord, names, he, rfl⟩ := step_effect l.consistent hs
    exact ⟨l.consistent.effect names he, l.consistent.queued_effect l.queued he,
      pollsEnded_effect l.consistent l.ended he, pollsFixed_effect l.fixed l.ended he⟩

theorem Lawful.law {w : World} (l : Lawful w) : QueueLaw w := by
  refine ⟨l.queued.queue, l.queued.unique, l.queued.table,
    fun id job found => l.consistent.mem_eq_none found, fun c names => ?_, l.fixed⟩
  obtain ⟨w', hs⟩ := l.consistent.served names
  refine ⟨w', hs, fun id job found released => ?_⟩
  obtain ⟨reply, coord, _, he, rfl⟩ := step_effect l.consistent hs
  exact (l.consistent.ended he found ((l.consistent.mem_eq_none found).mp released)).1

section Release
variable {w w' : World} {id : Int}

theorem Consistent.released_eq (h : Consistent w) {job : Job} (found : w.coord.allJob id = some job) :
    w.released id = job.done := by
  rw [World.released, found, Option.any_some, Bool.eq_iff_iff, Option.isNone_iff_eq_none]
  exact h.mem_eq_none found

theorem Consistent.released_step (h : Consistent w) {c : Call} (hs : w.serve c = some w')
    (id : Int) (released : w.released id = true) : w'.released id = true := by
  obtain ⟨job, found, empty⟩ := (Option.any_eq_true ..).mp released
  have empty := Option.isNone_iff_eq_none.mp empty
  obtain ⟨reply, coord, _, he, rfl⟩ := step_effect h hs
  have kept := (h.ended he found ((h.mem_eq_none found).mp empty)).1
  rw [World.released, kept, Option.any_some, empty]
  rfl

/-- A run releases the job's arrays once if they were there before it and are gone
after it, and else never. -/
theorem releases_eq (id : Int) (h : Consistent w) {calls : List Call}
    (run : System.exec World.serve w calls = some w') :
    releases id w calls + (w.released id).toNat = (w'.released id).toNat := by
  induction calls generalizing w with
  | nil =>
      cases run
      exact Nat.zero_add _
  | cons c calls ih =>
      obtain ⟨w₁, hs, run⟩ := Option.bind_eq_some_iff.mp run
      have rest := ih (h.serve hs) run
      have mono := h.released_step hs id
      simp only [releases, hs]
      cases before : w.released id with
      | false => simpa [Nat.add_comm] using rest
      | true => simpa [mono before] using rest

end Release

/-- Over every run the queue is the accepted undone jobs in submission order, ids are
not reused, an ended job's arrays are released once and then left alone, and polls of
an ended job keep their answer. -/
theorem queueLaw_of_run {calls : List Call} {w : World}
    (run : System.exec World.serve World.initial calls = some w) :
    QueueLaw w ∧ ∀ id job, w.coord.allJob id = some job →
      releases id World.initial calls = if job.done then 1 else 0 := by
  have l := anyClock_lawful (System.reachable_exec (.init rfl) run)
  refine ⟨l.law, fun id job found => ?_⟩
  have count := releases_eq id consistent_init run
  rw [l.consistent.released_eq found] at count
  change releases id World.initial calls = job.done.toNat at count
  rw [count]
  cases job.done <;> rfl

/-- Both map tasks of job 1 are out when one worker fails; the report of the other one
comes late, between two polls. Job 2 waits. -/
def lateReport : List Call :=
  [⟨1, .submitJob (wordCount ["a", "b"] 1)⟩, ⟨1, .getTask⟩, ⟨1, .getTask⟩,
    ⟨2, .submitJob (wordCount ["c"] 1)⟩, ⟨3, .finishTask ⟨1, 0, false, false⟩⟩, ⟨3, .pollJob 1⟩,
    ⟨4, report 1 1 false⟩, ⟨5, .pollJob 1⟩]

theorem queueLaw_of_lateReport :
    ∃ w, System.exec World.serve World.initial lateReport = some w ∧
      w.coord.waitingQueue = [2] ∧ QueueLaw w := by
  obtain ⟨w, run, queue⟩ := (Option.any_eq_true (fun w : World => w.coord.waitingQueue == [2])
    (System.exec World.serve World.initial lateReport)).mp (by decide)
  exact ⟨w, run, by simpa using queue, (queueLaw_of_run run).1⟩

def NonzeroClock (_ : World) (c : Call) : Prop := c.now ≠ 0

instance (w : World) (c : Call) : Decidable (NonzeroClock w c) :=
  inferInstanceAs (Decidable (c.now ≠ 0))

/-- Successive hand-outs of a task are at least the timeout apart. -/
def HandoutsSpaced (w : World) : Prop :=
  ∀ later e earlier, w.log = later ++ e :: earlier → ∀ id r i, e.reply.handsOut id r i = true →
    ∀ t, lastHandout earlier id r i = some t → e.now - t ≥ taskTimeoutSecs

/-- No task is handed out after a success report. -/
def ReportedRest (w : World) : Prop :=
  ∀ later e earlier, w.log = later ++ e :: earlier → ∀ id r i, e.reply.handsOut id r i = true →
    reported earlier id r i = false

/-- However the run goes on, no task of a job that is done or failed is handed out. -/
def EndedRest (w : World) : Prop :=
  ∀ calls w', System.exec World.next w calls = some w' →
    ∀ id job, w.coord.allJob id = some job → job.done = true ∨ job.failed = true →
      ∃ news, w'.log = news ++ w.log ∧ ∀ e ∈ news, ∀ r i, e.reply.handsOut id r i = false

section Steps
variable {w w' : World} {now : Int} {request : Request} {reply : Reply} {coord : Coordinator}
  {id : Int} {r : Bool} {i : Int}

/-- What a hand-out says about the task: it was not reported, and it is new or was
handed out long enough ago. -/
theorem Consistent.handout (h : Consistent w) (clock : ∀ e ∈ w.log, e.now ≠ 0)
    (he : Effect now w.coord request reply coord) (hands : reply.handsOut id r i = true) :
    reported w.log id r i = false ∧
      ∀ t, lastHandout w.log id r i = some t → now - t ≥ taskTimeoutSecs := by
  cases he with
  | wait reply waits => simp [Reply.handsOut, waits] at hands
  | assign id' job mem reduce k t reply queued found live entry test phase fields =>
      obtain ⟨rfl, rfl, rfl⟩ := (handsOut_task fields.1
        (fields.2.1.trans (h.ids id' job found).1) fields.2.2.1 fields.2.2.2).mp hands
      obtain ⟨mem', live', _, tracks⟩ := (h.live id job found (h.undone id queued job found)).arrays
      cases live.symm.trans live'
      have time := (tracks r).time k t entry
      have success := (tracks r).success k t entry
      cases test with
      | inl expired =>
          simp only [Task.expired, Bool.and_eq_true, Bool.not_eq_true', decide_eq_true_eq]
            at expired
          refine ⟨success.symm.trans expired.2, fun last ht => ?_⟩
          rw [ht, Option.getD_some] at time
          exact time ▸ expired.1.2
      | inr unassigned =>
          -- The entry says never assigned, and no hand-out can have written time 0.
          have never : lastHandout w.log id r k = none := by
            by_contra some
            obtain ⟨last, ht⟩ := Option.ne_none_iff_exists'.mp some
            obtain ⟨e, he, eq⟩ := Option.map_eq_some_iff.mp ht
            refine clock e (List.mem_of_find?_eq_some he) ?_
            rw [eq]
            rw [ht, Option.getD_some] at time
            exact time.symm.trans (of_decide_eq_true unassigned)
          refine ⟨?_, fun last ht => by rw [never] at ht; cases ht⟩
          rw [Bool.eq_false_iff]
          intro was
          obtain ⟨e, he, out⟩ := List.any_eq_true.mp (h.admitted id r k was)
          have : (w.log.find? fun e => e.reply.handsOut id r k).isSome :=
            List.find?_isSome.mpr ⟨e, he, out⟩
          rw [lastHandout, Option.map_eq_none_iff] at never
          rw [never] at this
          cases this
  | _ => cases hands

end Steps

structure Exclusive (w : World) : Prop where
  clock : ∀ e ∈ w.log, e.now ≠ 0
  spaced : HandoutsSpaced w
  rest : ReportedRest w

theorem reachable_exclusive {w : World} (h : (mapReduce.under NonzeroClock).Reachable w) :
    Exclusive w := by
  refine h.invariant_of_reachable (fun w start => ?_) fun w c w' reach x hs => ?_
  · obtain rfl := start
    refine ⟨fun e he => (nomatch he), ?_, ?_⟩
    · exact history_nil
    · exact history_nil
  · obtain ⟨hs, nonzero⟩ := hs
    have hc := reachable_consistent reach.of_under
    obtain ⟨reply, coord, _, he, rfl⟩ := step_effect hc (World.serve_of_next hs)
    refine ⟨fun e member => ?_, history_cons ?_ x.spaced, history_cons ?_ x.rest⟩
    · cases member with
      | head => exact nonzero
      | tail _ older => exact x.clock e older
    · exact fun id r i hands => (hc.handout x.clock he hands).2
    · exact fun id r i hands => (hc.handout x.clock he hands).1

theorem Consistent.endedRest {w : World} (h : Consistent w) : EndedRest w := by
  intro calls w' run id job found ended
  have done : job.done = true := by
    by_contra undone
    have undone : job.done = false := by simpa using undone
    simp [undone, (h.live id job found undone).failed] at ended
  refine System.exec_induction (R := fun w w' => Consistent w → w.coord.allJob id = some job →
    ∃ news, w'.log = news ++ w.log ∧ ∀ e ∈ news, ∀ r i, e.reply.handsOut id r i = false)
    run (fun w _ _ => ⟨[], rfl, fun e he => (nomatch he)⟩) (fun w c w₁ w' hs rest h found => ?_)
    h found
  have hs := World.serve_of_next hs
  obtain ⟨reply, coord, _, he, rfl⟩ := step_effect h hs
  obtain ⟨kept, quiet⟩ := h.ended he found done
  obtain ⟨news, log, silent⟩ := rest (h.serve hs) kept
  refine ⟨news ++ [⟨c.now, c.request, reply⟩], by simp [log], fun e member => ?_⟩
  cases List.mem_append.mp member with
  | inl newer => exact silent e newer
  | inr this =>
      cases List.mem_singleton.mp this
      exact quiet

/-- In every run in which no request is handled at time 0, hand-outs of a task are
the timeout apart, and reported tasks and ended jobs are left alone. -/
theorem exclusive_of_nonzeroClock {w : World} (h : (mapReduce.under NonzeroClock).Reachable w) :
    HandoutsSpaced w ∧ ReportedRest w ∧ EndedRest w := by
  have x := reachable_exclusive h
  exact ⟨x.spaced, x.rest, (reachable_consistent h.of_under).endedRest⟩

/-- A task times out, is handed out again and reported; its job fails. -/
theorem exclusive_of_timeout :
    ∃ w, (w.log.filter fun e => e.reply.handsOut 1 false 0).length = 2 ∧
      HandoutsSpaced w ∧ ReportedRest w ∧ EndedRest w := by
  obtain ⟨w, hr, hp⟩ := System.exists_reachable_under (· = World.initial) World.next NonzeroClock
    (fun w => (w.log.filter fun e => e.reply.handsOut 1 false 0).length == 2)
    rfl [⟨1, .submitJob (wordCount ["a"] 1)⟩, ⟨1, .getTask⟩, ⟨5, .getTask⟩, ⟨11, .getTask⟩,
      ⟨12, report 1 0 false⟩, ⟨13, .getTask⟩, ⟨14, .finishTask ⟨1, 0, true, false⟩⟩, ⟨15, .getTask⟩]
    (by decide)
  exact ⟨w, by simpa using hp, exclusive_of_nonzeroClock hr⟩

end CS162.MapReduce
