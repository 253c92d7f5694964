import CS162.MapReduce.CoordinatorConservation
import CS162.MapReduce.CoordinatorQueue
import CS162.MapReduce.GroupBy

/-!
A MapReduce cluster (hw-map-reduce: `run_worker` of worker.c and `finish_task` of
task_handler.c): the coordinator's service, its clients, any number of workers, and the
disk that the workers share.

A worker asks for a task, handles it and reports it. While a handler runs, the files of
its task hold anything, and at its end what `handleMapTask` or `handleReduceTask` makes of
the disk. Opening a file may fail, and the handler then returns 1; the code does not look at
whether `fread` and `ldw_write` succeed, and files that are open are read and written without
failure here. A worker may die at any time, and another one is started in its place.

Nobody writes the input files, and they are not in an output directory. Two paths may
name one directory.

In an orderly run each task is held by one worker at most, and not reported before that one
reports it.
-/

namespace CS162.MapReduce
open CS162.Library

/-- What the machines have in common: how a text is laid out in bytes, which directory a
path names, the input files, the applications, where their map functions stay in their
memory, and the C library's sort. -/
structure Site (δ : Type) where
  bytes : String → Buffer
  directory : String → δ
  inputs : Buffer → Option (List UInt8)
  getApp : String → Option App
  inBounds : String → KeyValue → Buffer → Bool
  qsort : Sorter KeyValue
  known : ∀ name ∈ apps, (getApp name).isSome

/-- Where a worker is in its loop. -/
inductive Stage where
  | idle
  | working (reply : GetTaskReply)
  /-- The handler has returned, and `finish_task` is next. -/
  | ended (reply : GetTaskReply) (success : Bool)

def Stage.reply? : Stage → Option GetTaskReply
  | .idle => none
  | .working reply => some reply
  | .ended reply _ => some reply

/-- The output directories, and the files in each of them. -/
abbrev Disk (δ : Type) := δ → Files

structure Cluster (δ ι : Type) where
  service : World
  stage : ι → Stage
  disk : Disk δ

inductive Move (ι : Type) where
  | client (call : Call)
  | ask (i : ι) (now : Int)
  /-- The handler has come to leave this in a file of its task. -/
  | scribble (i : ι) (name : FileName) (bytes : Option (List UInt8))
  | run (i : ι)
  /-- The handler returns 1 because a file could not be opened. -/
  | giveUp (i : ι)
  | tell (i : ι) (now : Int)
  | die (i : ι)

/-- The files that a task writes. -/
def ownsFile (reduce : Bool) (task : Nat) : FileName → Bool
  | .input _ => false
  | .tmp m _ => !reduce && m == task
  | .out r => reduce && r == task

def Request.fromClient : Request → Bool
  | .submitJob _ => true
  | .pollJob _ => true
  | _ => false

section Tasks
variable {δ : Type} (site : Site δ)

/-- The fields of a reply, as the handlers read them. -/
def Site.taskReply (reply : GetTaskReply) : TaskReply where
  task := reply.task.toNat
  file := site.bytes reply.file
  app := reply.app
  nReduce := reply.nReduce.toNat
  nMap := reply.nMap.toNat
  args := site.bytes reply.args

/-- The job that a request asks for. -/
def Site.taskJob (req : SubmitJobRequest) : TaskJob where
  files := req.files.map site.bytes
  nReduce := req.nReduce.toNat
  app := req.app
  args := site.bytes req.args

/-- The files that a task of a directory sees. -/
def Site.view (disk : Disk δ) (dir : δ) : Files
  | .input path => site.inputs path
  | name => disk dir name

def Site.inputFiles : Files
  | .input path => site.inputs path
  | _ => none

/-- The map function of a task stays in its memory, if it is called. -/
def Site.mapInBounds (reply : TaskReply) (files : Files) : Bool :=
  (readAll files reply.file).all fun contents => site.inBounds reply.app ⟨reply.file, contents⟩ reply.args

/-- `handle_map_task` or `handle_reduce_task` -/
def Site.handle (reply : GetTaskReply) (files : Files) : Except Failure Files :=
  if reply.reduce then handleReduceTask site.getApp site.qsort (site.taskReply reply) files
  else if site.mapInBounds (site.taskReply reply) files then handleMapTask site.getApp (site.taskReply reply) files
  else .error .undefined

end Tasks

/-- What a worker makes of the newest answer. -/
def World.answer (w : World) : Stage :=
  match w.log with
  | ⟨_, _, .task reply⟩ :: _ => if reply.wait then .idle else .working reply
  | _ => .idle

/-- The report of `finish_task`. -/
def reportOf (reply : GetTaskReply) (success : Bool) : FinishTaskRequest :=
  ⟨reply.jobId, reply.task, reply.reduce, success⟩

section Run
variable {δ ι : Type} [DecidableEq δ] [DecidableEq ι] (site : Site δ)

def Cluster.setStage (c : Cluster δ ι) (i : ι) (stage : Stage) : Cluster δ ι :=
  { c with stage := Function.update c.stage i stage }

def Cluster.setFiles (c : Cluster δ ι) (dir : δ) (files : Files) : Cluster δ ι :=
  { c with disk := Function.update c.disk dir files }

def Cluster.next (c : Cluster δ ι) : Move ι → Option (Cluster δ ι)
  | .client call =>
      if call.request.fromClient then
        (c.service.next call).map fun w => { c with service := w }
      else none
  | .ask i now =>
      match c.stage i with
      | .idle => (c.service.next ⟨now, .getTask⟩).map fun w =>
          { c with service := w }.setStage i w.answer
      | _ => none
  | .scribble i name bytes =>
      match c.stage i with
      | .working reply =>
          let dir := site.directory reply.outputDir
          if ownsFile reply.reduce reply.task.toNat name then
            some (c.setFiles dir (Function.update (c.disk dir) name bytes))
          else none
      | _ => none
  | .run i =>
      match c.stage i with
      | .working reply =>
          let dir := site.directory reply.outputDir
          match site.handle reply (site.view c.disk dir) with
          | .ok files => some ((c.setFiles dir files).setStage i (.ended reply true))
          | .error .reported => some (c.setStage i (.ended reply false))
          | .error .undefined => none
      | _ => none
  | .giveUp i =>
      match c.stage i with
      | .working reply => some (c.setStage i (.ended reply false))
      | _ => none
  | .tell i now =>
      match c.stage i with
      | .ended reply success =>
          (c.service.next ⟨now, .finishTask (reportOf reply success)⟩).map fun w =>
            { c with service := w }.setStage i .idle
      | _ => none
  | .die i => some (c.setStage i .idle)

def cluster : System (Cluster δ ι) (Move ι) :=
  .ofNext (fun c => c.service = World.initial ∧ ∀ i, c.stage i = .idle) (Cluster.next site)

/-- Every worker that has a task got it less than `TASK_TIMEOUT_SECS` ago. -/
def Cluster.Prompt (c : Cluster δ ι) (now : Int) : Prop :=
  ∀ i, ∀ reply ∈ (c.stage i).reply?, ∀ t ∈ lastHandout c.service.log reply.jobId reply.reduce reply.task,
    now - t < taskTimeoutSecs

/-- The clock does not stand at zero, a worker whose task has timed out is dead when another
one asks, and each accepted job has an output directory of its own. -/
def Orderly (c : Cluster δ ι) : Move ι → Prop
  | .client call => call.now ≠ 0 ∧ ∀ req ∈ call.request.submit?, req.app ∈ apps →
      ∀ id job, c.service.coord.allJob id = some job →
        site.directory job.outputDir ≠ site.directory req.outputDir
  | .ask _ now => now ≠ 0 ∧ c.Prompt now
  | .tell _ now => now ≠ 0
  | _ => True

end Run

section Step
variable {δ ι : Type} [DecidableEq δ] [DecidableEq ι] (site : Site δ)

/-- What a step does. -/
inductive Cluster.Did (c : Cluster δ ι) : Move ι → Cluster δ ι → Prop where
  | client (call : Call) (w : World) (asks : call.request.fromClient = true)
      (served : c.service.next call = some w) : Did c (.client call) { c with service := w }
  | waits (i : ι) (now : Int) (w : World) (reply : GetTaskReply) (idle : c.stage i = .idle)
      (served : c.service.next ⟨now, .getTask⟩ = some w)
      (answer : w.log = ⟨now, .getTask, .task reply⟩ :: c.service.log) (wait : reply.wait = true) :
      Did c (.ask i now) { c with service := w }
  | gets (i : ι) (now : Int) (w : World) (reply : GetTaskReply) (idle : c.stage i = .idle)
      (served : c.service.next ⟨now, .getTask⟩ = some w)
      (answer : w.log = ⟨now, .getTask, .task reply⟩ :: c.service.log) (task : reply.wait = false) :
      Did c (.ask i now) ({ c with service := w }.setStage i (.working reply))
  | scribble (i : ι) (name : FileName) (bytes : Option (List UInt8)) (reply : GetTaskReply)
      (working : c.stage i = .working reply) (own : ownsFile reply.reduce reply.task.toNat name = true) :
      Did c (.scribble i name bytes) (c.setFiles (site.directory reply.outputDir)
        (Function.update (c.disk (site.directory reply.outputDir)) name bytes))
  | succeeds (i : ι) (reply : GetTaskReply) (files : Files) (working : c.stage i = .working reply)
      (handled : site.handle reply (site.view c.disk (site.directory reply.outputDir)) = .ok files) :
      Did c (.run i) ((c.setFiles (site.directory reply.outputDir) files).setStage i (.ended reply true))
  | fails (i : ι) (move : Move ι) (reply : GetTaskReply) (working : c.stage i = .working reply) :
      Did c move (c.setStage i (.ended reply false))
  | tells (i : ι) (now : Int) (w : World) (reply : GetTaskReply) (success : Bool)
      (ended : c.stage i = .ended reply success)
      (served : c.service.next ⟨now, .finishTask (reportOf reply success)⟩ = some w) :
      Did c (.tell i now) ({ c with service := w }.setStage i .idle)
  | dies (i : ι) : Did c (.die i) (c.setStage i .idle)

variable {site : Site δ} {c c' : Cluster δ ι}

theorem World.next_getTask {w w' : World} {now : Int} (h : w.next ⟨now, .getTask⟩ = some w') :
    ∃ coord reply, getTask now w.coord = .ok (coord, reply) ∧
      w' = ⟨coord, ⟨now, .getTask, .task reply⟩ :: w.log⟩ := by
  rw [World.next] at h
  split at h
  · split at h
    · next coord answer served =>
        cases h
        obtain ⟨p, got, served⟩ := bind_eq_ok served
        cases served
        exact ⟨p.1, p.2, got, rfl⟩
    · cases h
  · cases h

theorem Cluster.did_of_next {move : Move ι} (h : c.next site move = some c') : c.Did site move c' := by
  cases move with
  | client call =>
      simp only [Cluster.next] at h
      split at h
      · next asks =>
          obtain ⟨w, served, rfl⟩ := Option.map_eq_some_iff.mp h
          exact .client call w asks served
      · cases h
  | ask i now =>
      simp only [Cluster.next] at h
      split at h
      · next idle =>
          obtain ⟨w, served, rfl⟩ := Option.map_eq_some_iff.mp h
          obtain ⟨coord, reply, -, rfl⟩ := World.next_getTask served
          cases wait : reply.wait with
          | true =>
              have same : Function.update c.stage i .idle = c.stage := by
                rw [← idle, Function.update_eq_self]
              simpa [World.answer, wait, Cluster.setStage, same] using
                (.waits i now _ reply idle served rfl wait : Cluster.Did site c _ _)
          | false =>
              simpa [World.answer, wait] using (.gets i now _ reply idle served rfl wait : Cluster.Did site c _ _)
      · cases h
  | scribble i name bytes =>
      simp only [Cluster.next] at h
      split at h
      · next reply working =>
          split at h
          · next own =>
              cases h
              exact .scribble i name bytes reply working own
          · cases h
      · cases h
  | run i =>
      simp only [Cluster.next] at h
      split at h
      · next reply working =>
          split at h
          · next files handled =>
              cases h
              exact .succeeds i reply files working handled
          · cases h
            exact .fails i _ reply working
          · cases h
      · cases h
  | giveUp i =>
      simp only [Cluster.next] at h
      split at h
      · next reply working =>
          cases h
          exact .fails i _ reply working
      · cases h
  | tell i now =>
      simp only [Cluster.next] at h
      split at h
      · next reply success ended =>
          obtain ⟨w, served, rfl⟩ := Option.map_eq_some_iff.mp h
          exact .tells i now w reply success ended served
      · cases h
  | die i =>
      cases h
      exact .dies i

end Step

section Holding
variable {δ ι : Type} {c c' : Cluster δ ι}

/-- Each task that a worker has was handed out and is not reported, and no other worker
has it. -/
structure Held (c : Cluster δ ι) : Prop where
  clock : ∀ e ∈ c.service.log, e.now ≠ 0
  handed : ∀ i, ∀ reply ∈ (c.stage i).reply?,
    handedOut c.service.log reply.jobId reply.reduce reply.task = true
  unreported : ∀ i, ∀ reply ∈ (c.stage i).reply?,
    reported c.service.log reply.jobId reply.reduce reply.task = false
  alone : ∀ i j, ∀ reply ∈ (c.stage i).reply?, ∀ reply' ∈ (c.stage j).reply?,
    reply'.jobId = reply.jobId → reply'.reduce = reply.reduce → reply'.task = reply.task → j = i

theorem handedOut_of_suffix {news log : List Event} {id : Int} {r : Bool} {k : Int}
    (h : handedOut log id r k = true) : handedOut (news ++ log) id r k = true := by
  rw [handedOut, List.any_append, Bool.or_eq_true]
  exact .inr h

/-- Workers keep or lose tasks, and what is new in the log reports none that is left. -/
theorem Held.of_fewer (h : Held c) (news : List Event) (log : c'.service.log = news ++ c.service.log)
    (clock : ∀ e ∈ news, e.now ≠ 0)
    (fewer : ∀ i, ∀ reply ∈ (c'.stage i).reply?, reply ∈ (c.stage i).reply?)
    (silent : ∀ i, ∀ reply ∈ (c'.stage i).reply?, ∀ e ∈ news,
      e.reports reply.jobId reply.reduce reply.task = false) : Held c' where
  clock e member := by
    rw [log] at member
    exact (List.mem_append.mp member).elim (clock e) (h.clock e)
  handed i reply has := by
    rw [log]
    exact handedOut_of_suffix (h.handed i reply (fewer i reply has))
  unreported i reply has := by
    have old := h.unreported i reply (fewer i reply has)
    rw [reported] at old
    rw [log, reported, List.any_append, old, Bool.or_false, List.any_eq_false]
    exact fun e member => by simp [silent i reply has e member]
  alone i j reply has reply' has' := h.alone i j reply (fewer i reply has) reply' (fewer j reply' has')

theorem lastHandout_of_handedOut {log : List Event} {id : Int} {r : Bool} {k : Int}
    (h : handedOut log id r k = true) : ∃ t, lastHandout log id r k = some t := by
  obtain ⟨e, member, out⟩ := List.any_eq_true.mp h
  have found : (log.find? fun e => e.reply.handsOut id r k).isSome := List.find?_isSome.mpr ⟨e, member, out⟩
  obtain ⟨e', he'⟩ := Option.isSome_iff_exists.mp found
  exact ⟨e'.now, by rw [lastHandout, he']; rfl⟩

theorem World.log_of_next {w w' : World} {call : Call} (h : w.next call = some w') :
    ∃ reply, w'.log = ⟨call.now, call.request, reply⟩ :: w.log := by
  rw [World.next] at h
  split at h
  · split at h
    · next coord reply _ =>
        cases h
        exact ⟨reply, rfl⟩
    · cases h
  · cases h

theorem reports_client {e : Event} (client : e.request.fromClient = true) (id : Int) (r : Bool) (k : Int) :
    e.reports id r k = false := by
  rw [Bool.eq_false_iff, ne_eq, Event.reports_iff]
  intro same
  rw [same] at client
  cases client

theorem reports_getTask {e : Event} (asked : e.request = .getTask) (id : Int) (r : Bool) (k : Int) :
    e.reports id r k = false := by
  rw [Bool.eq_false_iff, ne_eq, Event.reports_iff, asked]
  exact fun same => (by cases same)

variable [DecidableEq ι]

theorem mem_setStage_reply? {i j : ι} {stage : Stage} {reply : GetTaskReply} :
    reply ∈ ((c.setStage i stage).stage j).reply? ↔
      if j = i then reply ∈ stage.reply? else reply ∈ (c.stage j).reply? := by
  simp only [Cluster.setStage, Function.update_apply]
  split <;> rfl

theorem Held.of_gets (h : Held c) (consistent : Consistent c.service) {i : ι} {now : Int} {w : World}
    {reply : GetTaskReply} (served : c.service.next ⟨now, .getTask⟩ = some w)
    (answer : w.log = ⟨now, .getTask, .task reply⟩ :: c.service.log) (task : reply.wait = false)
    (clock : now ≠ 0) (prompt : c.Prompt now) :
    Held ({ c with service := w }.setStage i (.working reply)) := by
  obtain ⟨answer', coord, -, effect, rfl⟩ := step_effect consistent (World.serve_of_next served)
  obtain rfl : answer' = .task reply := by
    cases answer
    rfl
  have out {id : Int} {r : Bool} {k : Int} : (Reply.task reply).handsOut id r k = true ↔
      id = reply.jobId ∧ r = reply.reduce ∧ k = reply.task := handsOut_task task rfl rfl rfl
  obtain ⟨fresh, late⟩ := consistent.handout h.clock effect (out.mpr ⟨rfl, rfl, rfl⟩)
  -- A worker that still had the task would have had it for too long.
  have free (j : ι) (reply' : GetTaskReply) (has : reply' ∈ (c.stage j).reply?) :
      ¬ (reply'.jobId = reply.jobId ∧ reply'.reduce = reply.reduce ∧ reply'.task = reply.task) := by
    rintro ⟨job, phase, same⟩
    obtain ⟨t, last⟩ := lastHandout_of_handedOut (h.handed j reply' has)
    have soon := prompt j reply' has t last
    rw [job, phase, same] at last
    exact absurd soon (Int.not_lt.mpr (late t last))
  refine ⟨?_, fun j reply' has => ?_, fun j reply' has => ?_, fun j k first hasFirst second hasSecond => ?_⟩
  · exact List.forall_mem_cons.mpr ⟨clock, h.clock⟩
  · rw [mem_setStage_reply?] at has
    split at has
    · cases has
      exact Bool.or_eq_true_iff.mpr (.inl (out.mpr ⟨rfl, rfl, rfl⟩))
    · exact Bool.or_eq_true_iff.mpr (.inr (h.handed j reply' has))
  · rw [mem_setStage_reply?] at has
    change reported (_ :: c.service.log) _ _ _ = false
    rw [reported_cons, reports_getTask rfl, Bool.false_or]
    split at has
    · cases has
      exact fresh
    · exact h.unreported j reply' has
  · rw [mem_setStage_reply?] at hasFirst hasSecond
    intro job phase same
    split at hasFirst
    · next here =>
        cases hasFirst
        split at hasSecond
        · next there => rw [here, there]
        · exact absurd ⟨job, phase, same⟩ (free k second hasSecond)
    · split at hasSecond
      · cases hasSecond
        exact absurd ⟨job.symm, phase.symm, same.symm⟩ (free j first hasFirst)
      · exact h.alone j k first hasFirst second hasSecond job phase same

end Holding

section Service
variable {δ ι : Type} [DecidableEq δ] [DecidableEq ι] {site : Site δ} {c c' : Cluster δ ι} {move : Move ι}

theorem Cluster.Did.service (did : c.Did site move c') :
    c'.service = c.service ∨ ∃ call, c.service.next call = some c'.service := by
  cases did with
  | client call w asks served => exact .inr ⟨call, served⟩
  | waits i now w reply idle served => exact .inr ⟨_, served⟩
  | gets i now w reply idle served => exact .inr ⟨_, served⟩
  | tells i now w reply success ended served => exact .inr ⟨_, served⟩
  | scribble => exact .inl rfl
  | succeeds => exact .inl rfl
  | fails => exact .inl rfl
  | dies => exact .inl rfl

theorem reachable_service (h : (cluster site).Reachable c) : mapReduce.Reachable c.service := by
  refine h.invariant (I := fun c => mapReduce.Reachable c.service)
    (fun c start => System.Reachable.init (s := c.service) start.1)
    fun c move c' reach hs => ?_
  obtain same | ⟨call, served⟩ := (Cluster.did_of_next hs).service
  · rwa [same]
  · exact reach.step served

theorem cluster_consistent (h : (cluster site).Reachable c) : Consistent c.service :=
  reachable_consistent (reachable_service h)

theorem Held.step (h : Held c) (consistent : Consistent c.service) (orderly : Orderly site c move)
    (did : c.Did site move c') : Held c' := by
  cases did with
  | client call w asks served =>
      obtain ⟨reply, log⟩ := World.log_of_next served
      refine h.of_fewer [_] log ?_ (fun _ _ has => has) fun i reply' _ => ?_
      · exact List.forall_mem_singleton.mpr orderly.1
      · exact List.forall_mem_singleton.mpr (reports_client asks _ _ _)
  | waits i now w reply idle served answer wait =>
      refine h.of_fewer [_] answer ?_ (fun _ _ has => has) fun j reply' _ => ?_
      · exact List.forall_mem_singleton.mpr orderly.1
      · exact List.forall_mem_singleton.mpr (reports_getTask rfl _ _ _)
  | gets i now w reply idle served answer task => exact h.of_gets consistent served answer task orderly.1 orderly.2
  | scribble i name bytes reply working own =>
      exact h.of_fewer [] rfl (by simp) (fun _ _ has => has) (by simp)
  | succeeds i reply files working handled =>
      refine h.of_fewer [] rfl (by simp) (fun j reply' has => ?_) (by simp)
      rw [mem_setStage_reply?] at has
      split at has
      · next here => rwa [here, working]
      · exact has
  | fails i move reply working =>
      refine h.of_fewer [] rfl (by simp) (fun j reply' has => ?_) (by simp)
      rw [mem_setStage_reply?] at has
      split at has
      · next here => rwa [here, working]
      · exact has
  | tells i now w reply success ended served =>
      obtain ⟨answer, log⟩ := World.log_of_next served
      have others (j : ι) (reply' : GetTaskReply)
          (has : reply' ∈ (({ c with service := w }.setStage i .idle).stage j).reply?) :
          j ≠ i ∧ reply' ∈ (c.stage j).reply? := by
        rw [mem_setStage_reply?] at has
        split at has
        · cases has
        · next other => exact ⟨other, has⟩
      refine h.of_fewer [_] log ?_ (fun j reply' has => (others j reply' has).2) fun j reply' has => ?_
      · exact List.forall_mem_singleton.mpr orderly
      · refine List.forall_mem_singleton.mpr ?_
        rw [Bool.eq_false_iff, ne_eq, Event.reports_iff]
        intro same
        obtain ⟨other, has⟩ := others j reply' has
        simp only [reportOf, Request.finishTask.injEq, FinishTaskRequest.mk.injEq] at same
        exact other (h.alone i j reply (by rw [ended]; rfl) reply' has same.1.symm same.2.2.1.symm same.2.1.symm)
  | dies i =>
      refine h.of_fewer [] rfl (by simp) (fun j reply' has => ?_) (by simp)
      rw [mem_setStage_reply?] at has
      split at has
      · cases has
      · exact has

theorem reachable_held (h : ((cluster site).under (Orderly site)).Reachable c) : Held c := by
  refine h.invariant_of_reachable (fun c start => ?_) fun c move c' reach held hs => ?_
  · obtain ⟨service, idle⟩ := start
    refine ⟨?_, fun i reply has => ?_, fun i reply has => ?_, fun i j reply has => ?_⟩
    · simp [service, World.initial]
    all_goals
      rw [idle i] at has
      cases has
  · exact held.step (cluster_consistent reach.of_under) hs.2 (Cluster.did_of_next hs.1)

theorem reachable_firstReports (h : ((cluster site).under (Orderly site)).Reachable c) :
    (mapReduce.under FirstReports).Reachable c.service := by
  refine h.invariant_of_reachable (I := fun c => (mapReduce.under FirstReports).Reachable c.service)
    (fun c start => System.Reachable.init (s := c.service) start.1) fun c move c' reach first hs => ?_
  have held := reachable_held reach
  cases Cluster.did_of_next hs.1 with
  | client call w asks served =>
      refine first.step ⟨served, fun r f reports => ?_⟩
      obtain ⟨now, request⟩ := call
      cases request <;> cases reports
      cases asks
  | waits i now w reply idle served => exact first.step ⟨served, fun r f reports => (by cases reports)⟩
  | gets i now w reply idle served => exact first.step ⟨served, fun r f reports => (by cases reports)⟩
  | tells i now w reply success ended served =>
      refine first.step ⟨served, fun r f reports success phase queued => ?_⟩
      cases reports
      cases phase
      exact held.unreported i reply (by rw [ended]; rfl)
  | scribble => exact first
  | succeeds => exact first
  | fails => exact first
  | dies => exact first

end Service
end CS162.MapReduce
