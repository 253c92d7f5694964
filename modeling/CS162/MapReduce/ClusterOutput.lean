import CS162.MapReduce.Cluster

/-!
What is where in the cluster: each job and each task that a worker has is the one that a
client asked for, and a reported task has left its files on the disk.
-/

namespace CS162.MapReduce
open CS162.Library

section Submissions

def Event.submits? (e : Event) (id : Int) : Option SubmitJobRequest :=
  match e.request with
  | .submitJob req => if e.reply = .submitted id then some req else none
  | _ => none

/-- The request that got this number. -/
def submission (log : List Event) (id : Int) : Option SubmitJobRequest :=
  log.findSome? fun e => e.submits? id

theorem submission_cons_of_none {e : Event} {log : List Event} {id : Int} (other : e.submits? id = none) :
    submission (e :: log) id = submission log id := by
  rw [submission, List.findSome?_cons, other]
  rfl

theorem submission_cons_of_some {e : Event} {log : List Event} {id : Int} {req : SubmitJobRequest}
    (this : e.submits? id = some req) : submission (e :: log) id = some req := by
  rw [submission, List.findSome?_cons, this]

/-- The job is the one that the request asks for. -/
structure Job.For (req : SubmitJobRequest) (job : Job) : Prop where
  known : req.app ∈ apps
  app : job.app = req.app
  nReduce : job.nReduce = req.nReduce
  nMap : job.nMap = req.files.length
  args : job.args.getD "" = req.args
  outputDir : job.outputDir = req.outputDir
  files : ∀ mem ∈ job.mem, mem.files = req.files

/-- So is the task. -/
structure GetTaskReply.For (req : SubmitJobRequest) (reply : GetTaskReply) : Prop where
  known : req.app ∈ apps
  app : reply.app = req.app
  nReduce : reply.nReduce = req.nReduce
  nMap : reply.nMap = req.files.length
  args : reply.args = req.args
  outputDir : reply.outputDir = req.outputDir
  file : reply.reduce = false → req.files[reply.task.toNat]? = some reply.file

theorem newJob_for (s : Coordinator) {req : SubmitJobRequest} (known : req.app ∈ apps) :
    (newJob s req).For req where
  known := known
  app := rfl
  nReduce := rfl
  nMap := rfl
  args := by
    rw [newJob]
    split
    · next empty => exact empty.symm
    · rfl
  outputDir := rfl
  files := by
    rintro mem ⟨⟩
    rfl

theorem Job.For.of_mem {req : SubmitJobRequest} {job : Job} (h : job.For req) {mem : Option JobMemory}
    (files : ∀ m ∈ mem, m.files = req.files) : Job.For req { job with mem := mem } :=
  ⟨h.known, h.app, h.nReduce, h.nMap, h.args, h.outputDir, files⟩

theorem Job.For.count {req : SubmitJobRequest} {job : Job} (h : job.For req) (r : Bool) :
    (job.count r).For req := by
  cases r with
  | false => exact ⟨h.known, h.app, h.nReduce, h.nMap, h.args, h.outputDir, h.files⟩
  | true => exact ⟨h.known, h.app, h.nReduce, h.nMap, h.args, h.outputDir, h.files⟩

/-- A job of the table was there before and is for the same request, or it is new. -/
theorem Effect.job_for {now : Int} {s s' : Coordinator} {request : Request} {reply : Reply}
    (he : Effect now s request reply s') {id : Int} {job' : Job} (found' : s'.allJob id = some job') :
    (∃ req, request = .submitJob req ∧ reply = .submitted id ∧ id = s.nextId + 1 ∧ job'.For req) ∨
      ∃ job, s.allJob id = some job ∧ job'.outputDir = job.outputDir ∧ ∀ req, job.For req → job'.For req := by
  have same (found : s.allJob id = some job') : ∃ job, s.allJob id = some job ∧
      job'.outputDir = job.outputDir ∧ ∀ req, job.For req → job'.For req := ⟨job', found, rfl, fun _ h => h⟩
  have update {id' : Int} {old new : Job} (here : (s.setJob id' new).allJob id = some job')
      (found : s.allJob id' = some old) (dir : new.outputDir = old.outputDir)
      (keeps : ∀ req, old.For req → new.For req) :
      ∃ job, s.allJob id = some job ∧ job'.outputDir = job.outputDir ∧ ∀ req, job.For req → job'.For req := by
    by_cases this : id = id'
    · subst this
      rw [Coordinator.setJob_self] at here
      cases here
      exact ⟨old, found, dir, keeps⟩
    · rw [Coordinator.setJob_of_ne _ _ this] at here
      exact same here
  cases he with
  | refuse r unknown => exact .inr (same found')
  | accept r known =>
      by_cases this : id = s.nextId + 1
      · subst this
        have here : (s.setJob (s.nextId + 1) (newJob s r)).allJob (s.nextId + 1) = some job' := found'
        rw [Coordinator.setJob_self] at here
        cases here
        exact .inl ⟨r, rfl, rfl, rfl, newJob_for s known⟩
      · have here : (s.setJob (s.nextId + 1) (newJob s r)).allJob id = some job' := found'
        rw [Coordinator.setJob_of_ne _ _ this] at here
        exact .inr (same here)
  | poll => exact .inr (same found')
  | wait => exact .inr (same found')
  | assign id' job mem reduce i t reply queued found live =>
      refine .inr (update found' found rfl fun req h => h.of_mem ?_)
      rintro mem' ⟨⟩
      rw [JobMemory.assign, JobMemory.files_setTable]
      exact h.files mem live
  | ignore => exact .inr (same found')
  | fail r job queued found failure =>
      refine .inr (update found' found rfl fun req h => ?_)
      exact ⟨h.known, h.app, h.nReduce, h.nMap, h.args, h.outputDir, fun _ none => (by cases none)⟩
  | report r job mem i queued found live =>
      refine .inr (update found' found ?_ fun req h => (h.count _).of_mem ?_)
      · cases r.reduce <;> rfl
      · rintro mem' ⟨⟩
        rw [JobMemory.mark, JobMemory.files_setTable]
        exact h.files mem live
  | complete r job mem i queued found live =>
      refine .inr (update found' found rfl fun req h => ?_)
      exact ⟨h.known, h.app, h.nReduce, h.nMap, h.args, h.outputDir, fun _ none => (by cases none)⟩

theorem initTaskReply_for {reply out : GetTaskReply} {job : Job} {mem : JobMemory} {i : Nat} {r : Bool}
    {req : SubmitJobRequest} (h : initTaskReply reply job mem i r = .ok out) (asked : job.For req)
    (live : job.mem = some mem) : out.For req := by
  simp only [initTaskReply] at h
  split at h
  · next reduce =>
      cases h
      exact ⟨asked.known, asked.app, asked.nReduce, asked.nMap, asked.args, asked.outputDir,
        fun map => absurd (reduce.symm.trans map) Bool.noConfusion⟩
  · split at h
    · next file found =>
        cases h
        refine ⟨asked.known, asked.app, asked.nReduce, asked.nMap, asked.args, asked.outputDir, fun _ => ?_⟩
        rw [← asked.files mem live]
        exact found
    · cases h

theorem findTask_for {test : Task → Bool} {now : Int} {job job' : Job} {reply out : GetTaskReply}
    {req : SubmitJobRequest} (h : findTask test now job reply = .ok (some (job', out))) (asked : job.For req) :
    out.For req := by
  obtain ⟨mem, hm, h⟩ := bind_eq_ok h
  have given {r : Bool} {i : Nat} {p : Job × GetTaskReply} (ha : assignTask now job mem reply r i = .ok p) :
      p.2.For req := by
    obtain ⟨out, hr, ha⟩ := bind_eq_ok ha
    cases ha
    exact initTaskReply_for hr asked (memory_eq_ok hm)
  split at h
  · obtain ⟨p, ha, h⟩ := bind_eq_ok h
    cases h
    exact given ha
  · split at h
    · split at h
      · obtain ⟨p, ha, h⟩ := bind_eq_ok h
        cases h
        exact given ha
      · cases h
    · cases h

theorem getTask_for {now : Int} {s s' : Coordinator} {out : GetTaskReply} (h : getTask now s = .ok (s', out))
    (task : out.wait = false) : ∃ id job, s.allJob id = some job ∧ out.jobId = job.jobId ∧
      ∀ req, job.For req → out.For req := by
  have given {test : Task → Bool} {reply : GetTaskReply} {p : Coordinator × GetTaskReply}
      (hs : searchQueue (findTask test now) s reply s.waitingQueue = .ok (some p)) :
      ∃ id job, s.allJob id = some job ∧ p.2.jobId = job.jobId ∧ ∀ req, job.For req → p.2.For req := by
    obtain ⟨id, -, job, job', found, hf, -⟩ := searchQueue_eq_some hs
    obtain ⟨_, _, _, _, _, _, _, _, _, _, owner, _⟩ := findTask_eq_some hf
    exact ⟨id, job, found, owner, fun req asked => findTask_for hf asked⟩
  obtain ⟨first, h1, h⟩ := bind_eq_ok h
  cases first with
  | some p =>
      cases h
      exact given h1
  | none =>
      obtain ⟨second, h2, h⟩ := bind_eq_ok h
      cases second with
      | some p =>
          cases h
          exact given h2
      | none =>
          cases h
          cases task

end Submissions

section Described
variable {δ ι : Type} {site : Site δ} {c c' : Cluster δ ι} {move : Move ι}

/-- The jobs and the tasks that workers have are what clients asked for, and two jobs do not
share an output directory. -/
structure Described (site : Site δ) (c : Cluster δ ι) : Prop where
  jobs : ∀ id job, c.service.coord.allJob id = some job →
    ∃ req, submission c.service.log id = some req ∧ job.For req
  held : ∀ i, ∀ reply ∈ (c.stage i).reply?,
    ∃ req, submission c.service.log reply.jobId = some req ∧ reply.For req
  apart : ∀ id job id' job', c.service.coord.allJob id = some job → c.service.coord.allJob id' = some job' →
    site.directory job.outputDir = site.directory job'.outputDir → id = id'

theorem Consistent.submits?_eq_none {w : World} {now : Int} {request : Request} {reply : Reply}
    {coord : Coordinator} (h : Consistent w) (he : Effect now w.coord request reply coord) {id : Int} {job : Job}
    (found : w.coord.allJob id = some job) : (Event.mk now request reply).submits? id = none := by
  obtain ⟨-, pos, last, -⟩ := h.ids id job found
  have other (id' : Int) (ne : id' ≠ id) (req : SubmitJobRequest) :
      (Event.mk now (.submitJob req) (.submitted id')).submits? id = none := by
    simp [Event.submits?, ne]
  cases he with
  | refuse r unknown => exact other _ (by omega) r
  | accept r known => exact other _ (by omega) r
  | _ => rfl

/-- The directory that a request names is no job's. -/
def Fresh (site : Site δ) (s : Coordinator) (request : Request) : Prop :=
  ∀ req ∈ request.submit?, req.app ∈ apps →
    ∀ id job, s.allJob id = some job → site.directory job.outputDir ≠ site.directory req.outputDir

theorem Described.served (h : Described site c) (consistent : Consistent c.service) {call : Call} {w : World}
    (served : c.service.next call = some w) (fresh : Fresh site c.service.coord call.request) :
    (∀ id job, w.coord.allJob id = some job → ∃ req, submission w.log id = some req ∧ job.For req) ∧
      (∀ id job, c.service.coord.allJob id = some job → submission w.log id = submission c.service.log id) ∧
      ∀ id job id' job', w.coord.allJob id = some job → w.coord.allJob id' = some job' →
        site.directory job.outputDir = site.directory job'.outputDir → id = id' := by
  obtain ⟨reply, coord, -, effect, rfl⟩ := step_effect consistent (World.serve_of_next served)
  have keeps (id : Int) (job : Job) (found : c.service.coord.allJob id = some job) :
      submission (⟨call.now, call.request, reply⟩ :: c.service.log) id = submission c.service.log id :=
    submission_cons_of_none (consistent.submits?_eq_none effect found)
  refine ⟨fun id job found => ?_, keeps, fun id job id' job' found found' same => ?_⟩
  · obtain ⟨req, asked, answered, -, new⟩ | ⟨old, before, -, carries⟩ := effect.job_for found
    · exact ⟨req, submission_cons_of_some (by simp [Event.submits?, asked, answered]), new⟩
    · obtain ⟨req, submitted, asked⟩ := h.jobs id old before
      exact ⟨req, (keeps id old before).trans submitted, carries req asked⟩
  · obtain ⟨req, asked, -, newest, new⟩ | ⟨old, before, dir, -⟩ := effect.job_for found
    · obtain ⟨req', _, -, newest', _⟩ | ⟨old', before', dir', -⟩ := effect.job_for found'
      · exact newest.trans newest'.symm
      · rw [new.outputDir, dir'] at same
        exact absurd same.symm (fresh req (by rw [asked]; rfl) new.known id' old' before')
    · obtain ⟨req', asked', -, -, new'⟩ | ⟨old', before', dir', -⟩ := effect.job_for found'
      · rw [new'.outputDir, dir] at same
        exact absurd same (fresh req' (by rw [asked']; rfl) new'.known id old before)
      · exact h.apart id old id' old' before before' (by rw [← dir, ← dir', same])

theorem Held.job (h : Held c) (consistent : Consistent c.service) {i : ι} {reply : GetTaskReply}
    (has : reply ∈ (c.stage i).reply?) :
    ∃ job, c.service.coord.allJob reply.jobId = some job ∧ 0 ≤ reply.task ∧ reply.task < job.size reply.reduce :=
  consistent.handed _ _ _ (h.handed i reply has)

theorem Described.of_fewer (h : Described site c) (consistent : Consistent c.service) (held : Held c)
    {call : Call} {w : World} (served : c.service.next call = some w)
    (fresh : Fresh site c.service.coord call.request) {stage : ι → Stage} {disk : Disk δ}
    (fewer : ∀ i, ∀ reply ∈ (stage i).reply?, reply ∈ (c.stage i).reply?) : Described site ⟨w, stage, disk⟩ := by
  obtain ⟨jobs, keeps, apart⟩ := h.served consistent served fresh
  refine ⟨jobs, fun i reply has => ?_, apart⟩
  obtain ⟨job, found, -⟩ := held.job consistent (fewer i reply has)
  obtain ⟨req, submitted, asked⟩ := h.held i reply (fewer i reply has)
  exact ⟨req, (keeps _ job found).trans submitted, asked⟩

variable [DecidableEq ι] [DecidableEq δ]

theorem Described.step (h : Described site c) (consistent : Consistent c.service) (held : Held c)
    (orderly : Orderly site c move) (did : c.Did site move c') : Described site c' := by
  have fewer {i : ι} {stage : Stage} (less : ∀ reply ∈ stage.reply?, reply ∈ (c.stage i).reply?) (j : ι)
      (reply : GetTaskReply) (has : reply ∈ ((c.setStage i stage).stage j).reply?) :
      reply ∈ (c.stage j).reply? := by
    rw [mem_setStage_reply?] at has
    split at has
    · next here => exact here ▸ less reply has
    · exact has
  cases did with
  | client call w asks served => exact h.of_fewer consistent held served orderly.2 fun _ _ has => has
  | waits i now w reply idle served =>
      exact h.of_fewer consistent held served (fun _ none => (by cases none)) fun _ _ has => has
  | gets i now w reply idle served answer task =>
      obtain ⟨coord, reply', got, rfl⟩ := World.next_getTask served
      cases answer
      obtain ⟨jobs, keeps, apart⟩ := h.served consistent served fun _ none => (by cases none)
      refine ⟨jobs, fun j reply' has => ?_, apart⟩
      rw [mem_setStage_reply?] at has
      split at has
      · cases has
        obtain ⟨id, job, found, owner, given⟩ := getTask_for got task
        obtain ⟨req, submitted, asked⟩ := h.jobs id job found
        have number : reply.jobId = id := owner.trans (consistent.ids id job found).1
        rw [number]
        exact ⟨req, (keeps id job found).trans submitted, given req asked⟩
      · obtain ⟨job, found, -⟩ := held.job consistent has
        obtain ⟨req, submitted, asked⟩ := h.held j reply' has
        exact ⟨req, (keeps _ job found).trans submitted, asked⟩
  | tells i now w reply success ended served =>
      exact h.of_fewer consistent held served (fun _ none => (by cases none)) (fewer fun _ none => (by cases none))
  | scribble i name bytes reply working own => exact ⟨h.jobs, h.held, h.apart⟩
  | succeeds i reply files working handled =>
      refine ⟨h.jobs, fun j reply' has => h.held j reply' (fewer ?_ j reply' has), h.apart⟩
      simp [working, Stage.reply?]
  | fails i move reply working =>
      refine ⟨h.jobs, fun j reply' has => h.held j reply' (fewer ?_ j reply' has), h.apart⟩
      simp [working, Stage.reply?]
  | dies i =>
      have less : ∀ reply ∈ Stage.idle.reply?, reply ∈ (c.stage i).reply? := fun _ none => (by cases none)
      exact ⟨h.jobs, fun j reply' has => h.held j reply' (fewer less j reply' has), h.apart⟩

theorem reachable_described (h : ((cluster site).under (Orderly site)).Reachable c) : Described site c := by
  refine h.invariant_of_reachable (fun c start => ?_) fun c move c' reach described hs => ?_
  · obtain ⟨service, idle⟩ := start
    refine ⟨fun id job found => ?_, fun i reply has => ?_, fun id job id' job' found => ?_⟩
    · simp [service, World.initial, coordinatorInit] at found
    · rw [idle i] at has
      cases has
    · simp [service, World.initial, coordinatorInit] at found
  · exact described.step (cluster_consistent reach.of_under) (reachable_held reach) hs.2 (Cluster.did_of_next hs.1)

end Described

section Tasks
variable {δ : Type} {site : Site δ}
variable {disk disk' : Disk δ} {req : SubmitJobRequest} {reduce : Bool} {task : Nat} {files : Files}

/-- What map task `task` of the job leaves on the disk. -/
def Site.MapDone (site : Site δ) (disk : Disk δ) (req : SubmitJobRequest) (task : Nat) : Prop :=
  ∃ app, site.getApp req.app = some app ∧
    (∀ kv ∈ fileOutput app (site.taskJob req) site.inputFiles task, kv.key.length < 2 ^ 32) ∧
    ∀ r < (site.taskJob req).nReduce, disk (site.directory req.outputDir) (.tmp task r) =
      some (pairsFile (partitionOf (site.taskJob req).nReduce r
        (fileOutput app (site.taskJob req) site.inputFiles task)))

/-- What reduce task `task` of the job leaves on the disk. -/
def Site.ReduceDone (site : Site δ) (disk : Disk δ) (req : SubmitJobRequest) (task : Nat) : Prop :=
  ∃ app, site.getApp req.app = some app ∧
    Library.Consistent byKey (partitionOf (site.taskJob req).nReduce task
      (emitted app (site.taskJob req) site.inputFiles)) ∧
    disk (site.directory req.outputDir) (.out task) =
      some (outputOf site.qsort app (site.taskJob req).args (partitionOf (site.taskJob req).nReduce task
        (emitted app (site.taskJob req) site.inputFiles)))

def Site.TaskDone (site : Site δ) (disk : Disk δ) (req : SubmitJobRequest) (reduce : Bool) (task : Nat) : Prop :=
  if reduce then site.ReduceDone disk req task else site.MapDone disk req task

theorem Site.TaskDone.congr (h : site.TaskDone disk req reduce task)
    (same : ∀ name, ownsFile reduce task name = true →
      disk' (site.directory req.outputDir) name = disk (site.directory req.outputDir) name) :
    site.TaskDone disk' req reduce task := by
  cases reduce with
  | true =>
      obtain ⟨app, known, ordered, out⟩ := h
      exact ⟨app, known, ordered, (same _ (by simp [ownsFile])).trans out⟩
  | false =>
      obtain ⟨app, known, short, wrote⟩ := h
      exact ⟨app, known, short, fun r hr => (same _ (by simp [ownsFile])).trans (wrote r hr)⟩

theorem view_input (disk : Disk δ) (dir : δ) (path : Buffer) :
    site.view disk dir (.input path) = site.inputFiles (.input path) := rfl

theorem handleMapTask_frame {getApp : String → Option App} {reply : TaskReply} {files' : Files}
    (h : handleMapTask getApp reply files = .ok files') {name : FileName}
    (other : ∀ r, name ≠ .tmp reply.task r) : files' name = files name := by
  simp only [handleMapTask] at h
  split at h
  · cases h
  · split at h
    · cases h
    · rw [writeMapKvs_frame h other, openMapWriters_apply, if_neg]
      simpa using fun r _ => (other r).symm

theorem known_and_read_of_handleMapTask {getApp : String → Option App} {reply : TaskReply} {files' : Files}
    (h : handleMapTask getApp reply files = .ok files') :
    ∃ app contents, getApp reply.app = some app ∧ readAll files reply.file = some contents := by
  simp only [handleMapTask] at h
  split at h
  · cases h
  · next app known =>
      split at h
      · cases h
      · next contents read =>
          refine ⟨app, contents, known, ?_⟩
          rw [readAll, openMapWriters_apply, if_neg (by simp)] at read
          exact read

variable {reply : GetTaskReply}

theorem taskReply_map (asked : reply.For req) (map : reply.reduce = false) :
    site.taskReply reply = (site.taskJob req).mapReply reply.task.toNat := by
  have file : ((site.taskJob req).mapReply reply.task.toNat).file = site.bytes reply.file := by
    simp [TaskJob.mapReply, Site.taskJob, asked.file map]
  have nMap : (site.taskJob req).nMap = reply.nMap.toNat := by
    rw [TaskJob.nMap, Site.taskJob, List.length_map, asked.nMap, Int.toNat_natCast]
  simp only [Site.taskReply, asked.app, asked.nReduce, asked.args, ← file, ← nMap]
  rfl

theorem ready_of_maps {app : App} (known : site.getApp req.app = some app)
    (maps : ∀ task < req.files.length, site.MapDone disk req task) :
    ∀ r < (site.taskJob req).nReduce, Ready (site.taskJob req) (site.view disk (site.directory req.outputDir)) r
      (partitionOf (site.taskJob req).nReduce r (emitted app (site.taskJob req) site.inputFiles)) := by
  refine ready_of_runMaps fun task htask r hr => ?_
  have nMap : (site.taskJob req).nMap = req.files.length := List.length_map ..
  obtain ⟨app', known', -, wrote⟩ := maps task (nMap ▸ htask)
  obtain rfl : app = app' := Option.some.inj (known.symm.trans known')
  exact wrote r hr

theorem handleReduceTask_for (asked : reply.For req) :
    handleReduceTask site.getApp site.qsort (site.taskReply reply) files =
      handleReduceTask site.getApp site.qsort ((site.taskJob req).reduceReply reply.task.toNat) files := by
  have nMap : (site.taskJob req).nMap = reply.nMap.toNat := by
    rw [TaskJob.nMap, Site.taskJob, List.length_map, asked.nMap, Int.toNat_natCast]
  simp only [Site.taskReply, asked.app, asked.nReduce, asked.args, ← nMap]
  rfl

variable [DecidableEq δ]

/-- A map task that its handler ends well is done, and no other file has changed. -/
theorem mapDone_of_handle (asked : reply.For req) (map : reply.reduce = false)
    (handled : site.handle reply (site.view disk (site.directory req.outputDir)) = .ok files) :
    site.MapDone (Function.update disk (site.directory req.outputDir) files) req reply.task.toNat ∧
      ∀ name, ownsFile false reply.task.toNat name = false → (∀ path, name ≠ .input path) →
        files name = disk (site.directory req.outputDir) name := by
  rw [Site.handle, map, if_neg Bool.false_ne_true, taskReply_map asked map] at handled
  by_cases bounded : site.mapInBounds ((site.taskJob req).mapReply reply.task.toNat)
      (site.view disk (site.directory req.outputDir)) = true
  case neg =>
    rw [if_neg bounded] at handled
    cases handled
  rw [if_pos bounded] at handled
  obtain ⟨app, contents, known, read⟩ := known_and_read_of_handleMapTask handled
  have output : fileOutput app (site.taskJob req) site.inputFiles reply.task.toNat =
      app.map ⟨((site.taskJob req).mapReply reply.task.toNat).file, contents⟩ (site.taskJob req).args := by
    rw [← fileOutput_congr app _ (view_input disk (site.directory req.outputDir)), fileOutput_of_read app read]
    rfl
  have short := short_of_handleMapTask known read handled
  refine ⟨⟨app, known, by rw [output]; exact short, fun r hr => ?_⟩, fun name other inside => ?_⟩
  · obtain ⟨files', done, wrote, -⟩ := handleMapTask_spec known read short (Nat.lt_of_le_of_lt (Nat.zero_le r) hr)
    obtain rfl : files = files' := Except.ok.inj (handled.symm.trans done)
    rw [Function.update_self, output]
    exact wrote r hr
  · rw [handleMapTask_frame handled fun r same => by simp [same, ownsFile, TaskJob.mapReply] at other]
    cases name with
    | input path => exact absurd rfl (inside path)
    | tmp m r => rfl
    | out r => rfl

theorem reduceDone_of_handle (asked : reply.For req) (isReduce : reply.reduce = true)
    (maps : ∀ task < req.files.length, site.MapDone disk req task)
    (upper : reply.task.toNat < req.nReduce.toNat)
    (handled : site.handle reply (site.view disk (site.directory req.outputDir)) = .ok files) :
    site.ReduceDone (Function.update disk (site.directory req.outputDir) files) req reply.task.toNat ∧
      ∀ name, ownsFile true reply.task.toNat name = false → (∀ path, name ≠ .input path) →
        files name = disk (site.directory req.outputDir) name := by
  obtain ⟨app, known⟩ := Option.isSome_iff_exists.mp (site.known req.app asked.known)
  have spec := reduceTask_of_ready site.qsort known (ready_of_maps known maps _ upper)
  rw [Site.handle, isReduce, if_pos rfl, handleReduceTask_for asked, spec] at handled
  split at handled
  · next ordered =>
      cases handled
      refine ⟨⟨app, known, ordered, by rw [Function.update_self, Function.update_self]⟩, fun name other inside => ?_⟩
      rw [Function.update_of_ne fun same => by simp [same, ownsFile] at other]
      cases name with
      | input path => exact absurd rfl (inside path)
      | tmp m r => rfl
      | out r => rfl
  · cases handled

end Tasks

section Delivered
variable {δ ι : Type} {site : Site δ} {c c' : Cluster δ ι} {move : Move ι}

/-- The files of each task that was reported, or will be, are there. -/
structure Delivered (site : Site δ) (c : Cluster δ ι) : Prop where
  reported : ∀ id req, submission c.service.log id = some req → ∀ r k, reported c.service.log id r k = true →
    site.TaskDone c.disk req r k.toNat
  ended : ∀ i reply, c.stage i = .ended reply true → ∀ req, submission c.service.log reply.jobId = some req →
    site.TaskDone c.disk req reply.reduce reply.task.toNat

theorem ownsFile_apart {r r' : Bool} {k k' : Nat} {name : FileName} (owned : ownsFile r' k' name = true)
    (apart : ¬ (r' = r ∧ k' = k)) : ownsFile r k name = false := by
  cases name with
  | input path => rfl
  | tmp m n =>
      simp only [ownsFile, Bool.and_eq_true, Bool.not_eq_true', beq_iff_eq] at owned
      rw [Bool.eq_false_iff]
      intro other
      simp only [ownsFile, Bool.and_eq_true, Bool.not_eq_true', beq_iff_eq] at other
      exact apart ⟨owned.1.trans other.1.symm, owned.2.symm.trans other.2⟩
  | out n =>
      simp only [ownsFile, Bool.and_eq_true, beq_iff_eq] at owned
      rw [Bool.eq_false_iff]
      intro other
      simp only [ownsFile, Bool.and_eq_true, beq_iff_eq] at other
      exact apart ⟨owned.1.trans other.1.symm, owned.2.symm.trans other.2⟩

theorem Consistent.job_of_reported {w : World} (h : Consistent w) {id : Int} {r : Bool} {k : Int}
    (was : MapReduce.reported w.log id r k = true) : ∃ job, w.coord.allJob id = some job ∧ 0 ≤ k :=
  let ⟨job, found, lower, _⟩ := h.handed id r k (h.admitted id r k was)
  ⟨job, found, lower⟩

theorem Delivered.maps (h : Delivered site c) (held : Held c) (exactly : Exact c.service) {i : ι}
    {reply : GetTaskReply} (has : reply ∈ (c.stage i).reply?) (isReduce : reply.reduce = true)
    {req : SubmitJobRequest} (submitted : submission c.service.log reply.jobId = some req)
    (described : Described site c) : ∀ task < req.files.length, site.MapDone c.disk req task := by
  intro task htask
  obtain ⟨e, member, out⟩ := List.any_eq_true.mp (held.handed i reply has)
  obtain ⟨later, earlier, log⟩ := List.append_of_mem member
  rw [isReduce] at out
  obtain ⟨job, found, all⟩ := exactly.barrier later e earlier log _ _ out
  obtain ⟨req', submitted', asked⟩ := described.jobs _ job found
  obtain rfl : req' = req := Option.some.inj (submitted'.symm.trans submitted)
  have was := all task (Int.natCast_nonneg task) (by rw [asked.nMap]; exact Int.ofNat_lt.mpr htask)
  have now : MapReduce.reported c.service.log reply.jobId false task = true := by
    rw [log, ← List.singleton_append, ← List.append_assoc]
    exact reported_mono was
  exact h.reported _ req' submitted false task now

theorem Delivered.served (h : Delivered site c) (consistent : Consistent c.service) {call : Call} {w : World}
    (served : c.service.next call = some w)
    (news : ∀ id r k, (Event.mk call.now call.request .finished).reports id r k = true →
      ∃ i reply, c.stage i = .ended reply true ∧ id = reply.jobId ∧ r = reply.reduce ∧ k = reply.task)
    (jobs : ∀ i, ∀ reply ∈ (c.stage i).reply?, ∃ job, c.service.coord.allJob reply.jobId = some job)
    {stage : ι → Stage} (fewer : ∀ i reply, stage i = .ended reply true → c.stage i = .ended reply true) :
    Delivered site ⟨w, stage, c.disk⟩ := by
  obtain ⟨reply, coord, -, effect, rfl⟩ := step_effect consistent (World.serve_of_next served)
  have keeps (id : Int) (job : Job) (found : c.service.coord.allJob id = some job) :
      submission (⟨call.now, call.request, reply⟩ :: c.service.log) id = submission c.service.log id :=
    submission_cons_of_none (consistent.submits?_eq_none effect found)
  have ended (i : ι) (reply : GetTaskReply) (is : c.stage i = .ended reply true) (req : SubmitJobRequest)
      (submitted : submission (⟨call.now, call.request, ‹Reply›⟩ :: c.service.log) reply.jobId = some req) :
      site.TaskDone c.disk req reply.reduce reply.task.toNat := by
    obtain ⟨job, found⟩ := jobs i reply (by rw [is]; rfl)
    exact h.ended i reply is req ((keeps _ job found).symm.trans submitted)
  refine ⟨fun id req submitted r k was => ?_, fun i reply is => ended i reply (fewer i reply is)⟩
  simp only [reported_cons, Bool.or_eq_true] at was
  cases was with
  | inl new =>
      obtain ⟨i, reply, is, rfl, rfl, rfl⟩ := news id r k new
      exact ended i reply is req submitted
  | inr old =>
      obtain ⟨job, found, -⟩ := consistent.job_of_reported old
      exact h.reported id req ((keeps id job found).symm.trans submitted) r k old

variable [DecidableEq δ]

theorem Described.untouched (h : Described site c) (consistent : Consistent c.service) (held : Held c) {i : ι}
    {reply : GetTaskReply} (has : reply ∈ (c.stage i).reply?) {files : Files}
    (own : ∀ name, ownsFile reply.reduce reply.task.toNat name = false → (∀ path, name ≠ .input path) →
      files name = c.disk (site.directory reply.outputDir) name)
    {id : Int} {job : Job} (found : c.service.coord.allJob id = some job) {req : SubmitJobRequest}
    (submitted : submission c.service.log id = some req) {r : Bool} {k : Int} (lower : 0 ≤ k)
    (other : ¬ (id = reply.jobId ∧ r = reply.reduce ∧ k = reply.task)) (done : site.TaskDone c.disk req r k.toNat) :
    site.TaskDone (Function.update c.disk (site.directory reply.outputDir) files) req r k.toNat := by
  refine done.congr fun name owned => ?_
  by_cases here : site.directory req.outputDir = site.directory reply.outputDir
  · obtain ⟨mine, found', lower', -⟩ := held.job consistent has
    obtain ⟨req', submitted', asked⟩ := h.held i reply has
    obtain ⟨req₁, submitted₁, asked₁⟩ := h.jobs id job found
    obtain ⟨req₂, submitted₂, asked₂⟩ := h.jobs _ mine found'
    obtain rfl : req₁ = req := Option.some.inj (submitted₁.symm.trans submitted)
    obtain rfl : req₂ = req' := Option.some.inj (submitted₂.symm.trans submitted')
    have same : id = reply.jobId := h.apart id job _ mine found found' (by
      rw [asked₁.outputDir, asked₂.outputDir, here, asked.outputDir])
    rw [here, Function.update_self]
    refine own name (ownsFile_apart owned ?_) ?_
    · rintro ⟨phase, number⟩
      exact other ⟨same, phase, by omega⟩
    · rintro path rfl
      cases owned
  · rw [Function.update_of_ne here]

variable [DecidableEq ι]

theorem Delivered.step (h : Delivered site c) (consistent : Consistent c.service) (held : Held c)
    (exactly : Exact c.service) (described : Described site c) (did : c.Did site move c') : Delivered site c' := by
  have jobs (i : ι) (reply : GetTaskReply) (has : reply ∈ (c.stage i).reply?) :
      ∃ job, c.service.coord.allJob reply.jobId = some job := by
    obtain ⟨job, found, _⟩ := held.job consistent has
    exact ⟨job, found⟩
  have fewer {i : ι} {stage : Stage} (less : ∀ reply, stage ≠ .ended reply true) (j : ι) (reply : GetTaskReply)
      (is : (c.setStage i stage).stage j = .ended reply true) : c.stage j = .ended reply true := by
    simp only [Cluster.setStage, Function.update_apply] at is
    split at is
    · exact absurd is (less reply)
    · exact is
  -- The writes of a worker are to files of a task that is neither reported nor ended.
  have writes {i : ι} {reply : GetTaskReply} (working : c.stage i = .working reply) {files : Files}
      (own : ∀ name, ownsFile reply.reduce reply.task.toNat name = false → (∀ path, name ≠ .input path) →
        files name = c.disk (site.directory reply.outputDir) name) :
      Delivered site (c.setFiles (site.directory reply.outputDir) files) := by
    have has : reply ∈ (c.stage i).reply? := by rw [working]; rfl
    refine ⟨fun id req submitted r k was => ?_, fun j reply' is req submitted => ?_⟩
    · obtain ⟨job, found, lower⟩ := consistent.job_of_reported was
      refine described.untouched consistent held has own found submitted lower ?_ (h.reported id req submitted r k was)
      rintro ⟨rfl, rfl, rfl⟩
      exact Bool.false_ne_true ((held.unreported i reply has).symm.trans was)
    · change c.stage j = .ended reply' true at is
      have has' : reply' ∈ (c.stage j).reply? := by rw [is]; rfl
      obtain ⟨job, found, lower, -⟩ := held.job consistent has'
      refine described.untouched consistent held has own found submitted lower ?_ (h.ended j reply' is req submitted)
      rintro ⟨job, phase, same⟩
      obtain rfl := held.alone i j reply has reply' has' job phase same
      rw [working] at is
      cases is
  cases did with
  | client call w asks served =>
      refine h.served consistent served (fun id r k news => ?_) jobs fun _ _ is => is
      rw [reports_client asks] at news
      cases news
  | waits i now w reply idle served =>
      refine h.served consistent served (fun id r k news => ?_) jobs fun _ _ is => is
      rw [reports_getTask rfl] at news
      cases news
  | gets i now w reply idle served =>
      refine h.served consistent served (fun id r k news => ?_) jobs (fewer fun _ other => (by cases other))
      rw [reports_getTask rfl] at news
      cases news
  | tells i now w reply success is served =>
      refine h.served consistent served (fun id r k news => ?_) jobs (fewer fun _ other => (by cases other))
      have same := Event.reports_iff.mp news
      simp only [reportOf, Request.finishTask.injEq, FinishTaskRequest.mk.injEq] at same
      obtain ⟨rfl, rfl, rfl, rfl⟩ := same
      exact ⟨i, reply, is, rfl, rfl, rfl⟩
  | scribble i name bytes reply working own =>
      refine writes working fun other notOwn _ => Function.update_of_ne ?_ ..
      rintro rfl
      rw [own] at notOwn
      cases notOwn
  | succeeds i reply files working handled =>
      have has : reply ∈ (c.stage i).reply? := by rw [working]; rfl
      obtain ⟨req, submitted, asked⟩ := described.held i reply has
      obtain ⟨job, found, lower, upper⟩ := held.job consistent has
      have done : site.TaskDone (Function.update c.disk (site.directory req.outputDir) files) req reply.reduce
          reply.task.toNat ∧ ∀ name, ownsFile reply.reduce reply.task.toNat name = false →
            (∀ path, name ≠ .input path) → files name = c.disk (site.directory req.outputDir) name := by
        rw [asked.outputDir] at handled
        cases isReduce : reply.reduce with
        | false => exact mapDone_of_handle asked isReduce handled
        | true =>
            obtain ⟨req', submitted', asked'⟩ := described.jobs _ job found
            obtain rfl : req' = req := Option.some.inj (submitted'.symm.trans submitted)
            rw [isReduce] at upper
            change reply.task < job.nReduce at upper
            rw [asked'.nReduce] at upper
            exact reduceDone_of_handle asked isReduce (h.maps held exactly has isReduce submitted described)
              (by omega) handled
      rw [← asked.outputDir] at done
      have kept := writes working done.2
      refine ⟨kept.reported, fun j reply' is req' submitted' => ?_⟩
      simp only [Cluster.setStage, Function.update_apply] at is
      split at is
      · cases is
        obtain rfl : req' = req := Option.some.inj (submitted'.symm.trans submitted)
        exact done.1
      · exact kept.ended j reply' is req' submitted'
  | fails i move reply working => exact ⟨h.reported, fun j reply' is => h.ended j reply' (fewer (by simp) j reply' is)⟩
  | dies i =>
      have less : ∀ reply, Stage.idle ≠ .ended reply true := fun _ other => (by cases other)
      exact ⟨h.reported, fun j reply' is => h.ended j reply' (fewer less j reply' is)⟩

theorem reachable_delivered (h : ((cluster site).under (Orderly site)).Reachable c) : Delivered site c := by
  refine h.invariant_of_reachable (fun c start => ?_) fun c move c' reach delivered hs => ?_
  · obtain ⟨service, idle⟩ := start
    refine ⟨fun id req submitted => ?_, fun i reply is => ?_⟩
    · simp [service, World.initial, submission] at submitted
    · rw [idle i] at is
      cases is
  · exact delivered.step (cluster_consistent reach.of_under) (reachable_held reach)
      (reachable_exact (reachable_firstReports reach)) (reachable_described reach) (Cluster.did_of_next hs.1)

end Delivered
end CS162.MapReduce
