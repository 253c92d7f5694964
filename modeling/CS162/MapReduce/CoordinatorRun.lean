import CS162.Library.Counting
import CS162.Library.History
import CS162.MapReduce.CoordinatorEffects

/-!
Runs of the coordinator: any finite sequence of requests at a non-decreasing
clock, in which a FINISH_TASK request names a task that an earlier GET_TASK
reply handed out, and `next_id`, an `int`, does not overflow at a SUBMIT_JOB
request. `World` keeps the log of what was asked and answered, newest first, and
`Consistent` ties the job table to that log whatever the workers report, late or
repeatedly.
-/

namespace CS162.MapReduce
open CS162.Library

structure Call where
  now : Int
  request : Request

/-- The report a FINISH_TASK request carries. -/
def Request.finish? : Request → Option FinishTaskRequest
  | .finishTask r => some r
  | _ => none

structure Event where
  now : Int
  request : Request
  reply : Reply

structure World where
  coord : Coordinator
  log : List Event

def handedOut (log : List Event) (id : Int) (reduce : Bool) (i : Int) : Bool :=
  log.any fun e => e.reply.handsOut id reduce i

def Event.reports (e : Event) (id : Int) (reduce : Bool) (i : Int) : Bool :=
  e.request == .finishTask ⟨id, i, reduce, true⟩

/-- Task `i` of the job has been reported successful. -/
def reported (log : List Event) (id : Int) (reduce : Bool) (i : Int) : Bool :=
  log.any fun e => e.reports id reduce i

/-- When the task was last handed out. -/
def lastHandout (log : List Event) (id : Int) (reduce : Bool) (i : Int) : Option Int :=
  (log.find? fun e => e.reply.handsOut id reduce i).map Event.now

/-- The number of distinct tasks reported among the first `n` of a phase. -/
def countReported (log : List Event) (id : Int) (reduce : Bool) (n : Int) : Nat :=
  ((Finset.range n.toNat).filter fun i : Nat => reported log id reduce i = true).card

/-- A FINISH_TASK request names a task that was handed out, and there is an id for the job of a
SUBMIT_JOB request. -/
def World.names (w : World) : Request → Bool
  | .finishTask r => handedOut w.log r.jobId r.reduce r.task
  | .submitJob _ => w.coord.nextId < intMax
  | _ => true

/-- The requests the environment may make next. -/
def World.admits (w : World) (c : Call) : Bool :=
  (w.log.head?.all fun e => decide (e.now ≤ c.now)) && w.names c.request

def World.next (w : World) (c : Call) : Option World :=
  if w.admits c then
    match handle c.now w.coord c.request with
    | .ok (coord, reply) => some ⟨coord, ⟨c.now, c.request, reply⟩ :: w.log⟩
    | .error _ => none
  else none

def World.initial : World := ⟨coordinatorInit, []⟩

def mapReduce : System World Call := .ofNext (· = World.initial) World.next

/-- A step at whatever time the clock shows. -/
def World.serve (w : World) (c : Call) : Option World :=
  if w.names c.request then
    match handle c.now w.coord c.request with
    | .ok (coord, reply) => some ⟨coord, ⟨c.now, c.request, reply⟩ :: w.log⟩
    | .error _ => none
  else none

/-- The coordinator under a clock that may also be set back. -/
def anyClock : System World Call := .ofNext (· = World.initial) World.serve

theorem World.names_of_admits {w : World} {c : Call} (h : w.admits c = true) :
    w.names c.request = true := by
  simp only [World.admits, Bool.and_eq_true] at h
  exact h.2

theorem World.serve_of_next {w w' : World} {c : Call} (h : w.next c = some w') :
    w.serve c = some w' := by
  rw [World.next] at h
  split at h
  next admits => rwa [World.serve, if_pos (World.names_of_admits admits)]
  next => cases h

theorem anyClock_of_mapReduce {w : World} (h : mapReduce.Reachable w) : anyClock.Reachable w :=
  h.mono (fun _ start => start) fun _ _ _ hs => World.serve_of_next hs

def wordCount (files : List String) (nReduce : Int) : SubmitJobRequest :=
  ⟨files, "out", "wc", nReduce, ""⟩

def report (id task : Int) (reduce : Bool) : Request := .finishTask ⟨id, task, reduce, true⟩

section Log
variable {e : Event} {log : List Event} {id : Int} {r : Bool} {i : Int}

@[simp] theorem handedOut_cons :
    handedOut (e :: log) id r i = (e.reply.handsOut id r i || handedOut log id r i) := rfl

@[simp] theorem reported_cons :
    reported (e :: log) id r i = (e.reports id r i || reported log id r i) := rfl

theorem lastHandout_cons :
    lastHandout (e :: log) id r i =
      if e.reply.handsOut id r i then some e.now else lastHandout log id r i := by
  unfold lastHandout
  rw [List.find?_cons]
  cases e.reply.handsOut id r i <;> rfl

theorem Event.reports_iff :
    e.reports id r i = true ↔ e.request = .finishTask ⟨id, i, r, true⟩ := by
  simp [Event.reports]

theorem reported_mono {later earlier : List Event} (h : reported earlier id r i = true) :
    reported (later ++ earlier) id r i = true := by
  simp only [reported, List.any_append] at h ⊢
  simp [h]

theorem handsOut_task {reply : GetTaskReply} (wait : reply.wait = false) (hid : reply.jobId = id)
    (hr : reply.reduce = r) (hi : reply.task = i) {id' : Int} {r' : Bool} {i' : Int} :
    (Reply.task reply).handsOut id' r' i' = true ↔ id' = id ∧ r' = r ∧ i' = i := by
  subst hid hr hi
  simp only [Reply.handsOut, wait, Bool.not_false, Bool.true_and, Bool.and_eq_true, beq_iff_eq,
    and_assoc]
  exact ⟨fun ⟨h1, h2, h3⟩ => ⟨h1.symm, h2.symm, h3.symm⟩,
    fun ⟨h1, h2, h3⟩ => ⟨h1.symm, h2.symm, h3.symm⟩⟩

end Log

/-- A job's task array agrees with the log: a flag is set exactly when a success
report is in the log, and the time is that of the last hand-out. -/
structure Tracks (log : List Event) (id : Int) (r : Bool) (n : Int) (table : List Task) : Prop where
  length : table.length = n.toNat
  success : ∀ (i : Nat) t, table[i]? = some t → t.success = reported log id r i
  time : ∀ (i : Nat) t, table[i]? = some t → t.time = (lastHandout log id r i).getD 0

/-- An unfinished job: its arrays are there and agree with the log, and its
counters have not fallen behind the distinct reports. -/
structure Live (log : List Event) (id : Int) (job : Job) : Prop where
  failed : job.failed = false
  arrays : ∃ mem, job.mem = some mem ∧ mem.files.length = job.nMap.toNat ∧
    ∀ r, Tracks log id r (job.size r) (mem.table r)
  counted : ∀ r, countReported log id r (job.size r) ≤ job.finished r

structure Consistent (w : World) : Prop where
  nextId : 0 ≤ w.coord.nextId
  ids : ∀ id job, w.coord.allJob id = some job →
    job.jobId = id ∧ 0 < id ∧ id ≤ w.coord.nextId ∧ 0 ≤ job.nMap
  nodup : w.coord.waitingQueue.Nodup
  queued : ∀ id, id ∈ w.coord.waitingQueue ↔
    ∃ job, w.coord.allJob id = some job ∧ job.done = false
  live : ∀ id job, w.coord.allJob id = some job → job.done = false → Live w.log id job
  freed : ∀ id job, w.coord.allJob id = some job → job.done = true → job.mem = none
  handed : ∀ id r i, handedOut w.log id r i = true →
    ∃ job, w.coord.allJob id = some job ∧ 0 ≤ i ∧ i < job.size r
  admitted : ∀ id r i, reported w.log id r i = true → handedOut w.log id r i = true

theorem countReported_congr {log log' : List Event} {id : Int} {r : Bool} {n : Int}
    (h : ∀ i, reported log' id r i = reported log id r i) :
    countReported log' id r n = countReported log id r n :=
  card_filter_same fun i => by simp [h]

theorem Live.congr {log log' : List Event} {id : Int} {job : Job}
    (reports : ∀ r i, reported log' id r i = reported log id r i)
    (hands : ∀ r i, lastHandout log' id r i = lastHandout log id r i)
    (h : Live log id job) : Live log' id job := by
  obtain ⟨failed, ⟨mem, hm, hf, ht⟩, counted⟩ := h
  refine ⟨failed, ⟨mem, hm, hf, fun r => ?_⟩, fun r => ?_⟩
  · refine ⟨(ht r).length, fun i t hi => ?_, fun i t hi => ?_⟩
    · rw [reports, (ht r).success i t hi]
    · rw [hands, (ht r).time i t hi]
  · rw [countReported_congr (reports r)]
    exact counted r

end CS162.MapReduce
