import Mathlib.Data.Finset.Union
import Mathlib.Data.Int.Interval
import Mathlib.Data.Set.Finite.Basic
import Mathlib.Logic.Relation
import CS162.MapReduce.Apps
import CS162.MapReduce.ClusterOutput

/-!
An orderly run never spoils a job: from every state it reaches, even if all workers die
there, the queued jobs can be brought to their ends, as far as their input files can be
read and their keys can be hashed and ordered. And a job that is done and did not fail has
left what its tasks make of the input files when each runs once.

One worker is enough for an end. It asks when every task that is out has timed out, and
each round of its loop reports one more task.
-/

namespace CS162.MapReduce
open CS162.Library

section Coordinator
variable {w : World}

/-- An unfinished job that has reduce tasks waits for one of them. -/
def ReducesLeft (w : World) : Prop :=
  ∀ id job, w.coord.allJob id = some job → job.done = false → 1 ≤ job.nReduce →
    job.reduceFinished < job.nReduce

theorem reachable_reducesLeft (h : mapReduce.Reachable w) : ReducesLeft w := by
  refine h.invariant_of_reachable (fun w start => ?_) fun w call w' reach left hs => ?_
  · cases start
    exact fun id job found => (by cases found)
  · obtain ⟨reply, coord, -, effect, rfl⟩ := step_effect (reachable_consistent reach) (World.serve_of_next hs)
    intro id job' found undone some
    obtain ⟨req, -, -, rfl⟩ | ⟨job, found', undone', size, next⟩ :=
      (reachable_consistent reach).reduces_step effect found undone
    · exact Int.lt_of_lt_of_le Int.zero_lt_one some
    · exact next (left id job found' undone' (size ▸ some))

/-- All that was logged is over `TASK_TIMEOUT_SECS` ago. -/
def Late (log : List Event) (now : Int) : Prop := now ≠ 0 ∧ ∀ e ∈ log, now - e.now ≥ taskTimeoutSecs

theorem exists_late (log : List Event) : ∃ now, Late log now := by
  have bound : ∃ b : Int, 0 < b ∧ ∀ e ∈ log, e.now ≤ b := by
    induction log with
    | nil => exact ⟨1, Int.zero_lt_one, by simp⟩
    | cons e log ih =>
        obtain ⟨b, pos, le⟩ := ih
        refine ⟨max e.now b, by omega, List.forall_mem_cons.mpr ⟨Int.le_max_left .., fun e' member => ?_⟩⟩
        have := le e' member
        omega
  obtain ⟨b, pos, le⟩ := bound
  refine ⟨b + taskTimeoutSecs, ?_, fun e member => ?_⟩
  · rw [taskTimeoutSecs]
    omega
  · have := le e member
    omega

theorem Late.admits {log : List Event} {now : Int} (late : Late log now) (h : w.log = log) :
    w.admits ⟨now, .getTask⟩ = true := by
  subst h
  refine Bool.and_eq_true_iff.mpr ⟨?_, rfl⟩
  cases shape : w.log with
  | nil => rfl
  | cons e log =>
      have := late.2 e (by rw [shape]; exact List.mem_cons_self)
      rw [taskTimeoutSecs] at this
      simp only [List.head?_cons, Option.all_some, decide_eq_true_eq]
      omega

theorem Late.assignable {now id : Int} {r : Bool} {k : Int} (late : Late w.log now)
    (unreported : reported w.log id r k = false) : Assignable w.log now id r k := by
  cases handed : handedOut w.log id r k with
  | false => exact .inl handed
  | true =>
      obtain ⟨e, found, t⟩ := Option.map_eq_some_iff.mp (lastHandout_of_handedOut handed).choose_spec
      refine .inr ⟨unreported, e.now, ?_, late.2 e (List.mem_of_find?_eq_some found)⟩
      rw [lastHandout, found]
      rfl

theorem Consistent.task_of_late (h : Consistent w) (counters : ∀ r, CounterExact r w) (left : ReducesLeft w)
    {now id : Int} {job : Job} (late : Late w.log now) (queued : id ∈ w.coord.waitingQueue)
    (found : w.coord.allJob id = some job) (some : 1 ≤ job.nReduce) {s : Coordinator} {reply : GetTaskReply}
    (answer : getTask now w.coord = .ok (s, reply)) : reply.wait = false := by
  rw [Bool.eq_false_iff]
  intro waits
  have undone := h.undone id queued job found
  obtain ⟨job', found', maps, reduces⟩ :=
    waitsIdle_of_counter h (counters false) now s reply (late.admits rfl) answer waits id queued
  cases found.symm.trans found'
  have all {r : Bool} (none : ∀ i, 0 ≤ i → i < job.size r → ¬ Assignable w.log now id r i) :
      ∀ k, 0 ≤ k → k < job.size r → reported w.log id r k = true := by
    intro k lower upper
    by_contra unreported
    exact none k lower upper (late.assignable (by simpa using unreported))
  have full := countReported_of_all (all (r := true) (reduces (all (r := false) maps)))
  have counted := counters true id job found undone
  rw [full] at counted
  have short := left id job found undone some
  change job.reduceFinished = (job.nReduce.toNat : Int) at counted
  omega

/-- What the requests of workers leave whose handlers succeed for these jobs: no new jobs, none
of these failed, and all that was reported. -/
structure Onward (jobs : Int → Prop) (w w' : World) : Prop where
  table : ∀ id job', w'.coord.allJob id = some job' →
    ∃ job, w.coord.allJob id = some job ∧ ∀ r, job'.size r = job.size r
  queue : ∀ id ∈ w'.coord.waitingQueue, id ∈ w.coord.waitingQueue
  fine : ∀ id job, w.coord.allJob id = some job →
    ∃ job', w'.coord.allJob id = some job' ∧ (jobs id → job.failed = false → job'.failed = false)
  submissions : ∀ id job, w.coord.allJob id = some job → submission w'.log id = submission w.log id
  reports : ∀ id r k, reported w.log id r k = true → reported w'.log id r k = true

theorem Onward.refl (jobs : Int → Prop) (w : World) : Onward jobs w w :=
  ⟨fun _ job' found => ⟨job', found, fun _ => rfl⟩, fun _ member => member,
    fun _ job found => ⟨job, found, fun _ fine => fine⟩, fun _ _ _ => rfl, fun _ _ _ was => was⟩

theorem Onward.trans {jobs : Int → Prop} {w₁ w₂ w₃ : World} (first : Onward jobs w₁ w₂)
    (second : Onward jobs w₂ w₃) : Onward jobs w₁ w₃ where
  table id job₃ found₃ := by
    obtain ⟨job₂, found₂, size₂⟩ := second.table id job₃ found₃
    obtain ⟨job₁, found₁, size₁⟩ := first.table id job₂ found₂
    exact ⟨job₁, found₁, fun r => (size₂ r).trans (size₁ r)⟩
  queue id member := first.queue id (second.queue id member)
  fine id job found := by
    obtain ⟨job₂, found₂, fine₂⟩ := first.fine id job found
    obtain ⟨job₃, found₃, fine₃⟩ := second.fine id job₂ found₂
    exact ⟨job₃, found₃, fun among fine => fine₃ among (fine₂ among fine)⟩
  submissions id job found := by
    obtain ⟨job₂, found₂, -⟩ := first.fine id job found
    exact (second.submissions id job₂ found₂).trans (first.submissions id job found)
  reports id r k was := second.reports id r k (first.reports id r k was)

theorem Job.failed_count (job : Job) (r : Bool) : (job.count r).failed = job.failed := by
  cases r <;> rfl

theorem Effect.keeps_fine {jobs : Int → Prop} {now : Int} {s s' : Coordinator} {request : Request} {reply : Reply}
    (he : Effect now s request reply s') (good : ∀ f ∈ request.finish?, jobs f.jobId → f.success = true) {id : Int}
    {job : Job} (found : s.allJob id = some job) :
    ∃ job', s'.allJob id = some job' ∧ (jobs id → job.failed = false → job'.failed = false) := by
  have update {id' : Int} {old new : Job} (found' : s.allJob id' = some old)
      (fine : jobs id' → old.failed = false → new.failed = false) :
      ∃ job', (s.setJob id' new).allJob id = some job' ∧ (jobs id → job.failed = false → job'.failed = false) := by
    by_cases this : id = id'
    · subst this
      cases found.symm.trans found'
      exact ⟨new, Coordinator.setJob_self .., fine⟩
    · exact ⟨job, (Coordinator.setJob_of_ne _ _ this).trans found, fun _ fine => fine⟩
  cases he with
  | refuse r unknown => exact ⟨job, found, fun _ fine => fine⟩
  | accept r known =>
      by_cases this : id = s.nextId + 1
      · subst this
        exact ⟨newJob s r, Coordinator.setJob_self .., fun _ _ => rfl⟩
      · exact ⟨job, (Coordinator.setJob_of_ne _ _ this).trans found, fun _ fine => fine⟩
  | poll => exact ⟨job, found, fun _ fine => fine⟩
  | wait => exact ⟨job, found, fun _ fine => fine⟩
  | assign id' old mem reduce i t reply queued found' => exact update found' fun _ fine => fine
  | ignore => exact ⟨job, found, fun _ fine => fine⟩
  | fail r old queued found' failure =>
      refine update found' fun among => ?_
      rw [good r rfl among] at failure
      cases failure
  | report r old mem i queued found' => exact update found' fun _ fine => (Job.failed_count old _).trans fine
  | complete r old mem i queued found' => exact update found' fun _ _ => rfl

theorem Onward.of_served {jobs : Int → Prop} {w' : World} {call : Call} (h : Consistent w)
    (served : w.next call = some w') (worker : call.request.fromClient = false)
    (good : ∀ f ∈ call.request.finish?, jobs f.jobId → f.success = true) : Onward jobs w w' := by
  obtain ⟨reply, coord, names, effect, rfl⟩ := step_effect h (World.serve_of_next served)
  have noSubmit (req : SubmitJobRequest) : call.request ≠ .submitJob req := by
    intro same
    rw [same] at worker
    cases worker
  have after := h.effect names effect
  refine ⟨fun id job' found => ?_, fun id queued => ?_, fun id job found => effect.keeps_fine good found,
    fun id job found => submission_cons_of_none (h.submits?_eq_none effect found), fun id r k was => ?_⟩
  · obtain ⟨req, asked, -⟩ | ⟨job, before, -⟩ := effect.job_for found
    · exact absurd asked (noSubmit req)
    · obtain ⟨job₁, found₁, sizes⟩ := h.keeps_job effect before
      cases found.symm.trans found₁
      exact ⟨job, before, sizes⟩
  · obtain ⟨job', found, undone⟩ := (after.queued id).mp queued
    refine (h.queued id).mpr ?_
    cases h.jobStep effect found undone with
    | new req asked => exact absurd asked (noSubmit req)
    | same job before undone => exact ⟨job, before, undone⟩
    | counted job f i asked success name queued before undone => exact ⟨job, before, undone⟩
  · rw [reported_cons, was, Bool.or_true]

theorem Consistent.not_queued_of_failure (h : Consistent w) {w' : World} {now : Int} {f : FinishTaskRequest}
    (served : w.next ⟨now, .finishTask f⟩ = some w') (failure : f.success = false) :
    f.jobId ∉ w'.coord.waitingQueue := by
  obtain ⟨reply, coord, names, effect, rfl⟩ := step_effect h (World.serve_of_next served)
  have after := h.effect names effect
  intro queued
  obtain ⟨job', found', undone⟩ := (after.queued f.jobId).mp queued
  cases effect with
  | ignore r gone => exact gone queued
  | fail r job queued found failure =>
      cases (Coordinator.setJob_self ..).symm.trans found'
      cases undone
  | report r job mem i queued found live success =>
      rw [failure] at success
      cases success
  | complete r job mem i queued found live success =>
      rw [failure] at success
      cases success

/-- These are all tasks of the jobs in the table. -/
def Covers (tasks : Finset (Int × Bool × Int)) (w : World) : Prop :=
  ∀ id job r k, w.coord.allJob id = some job → 0 ≤ k → k < job.size r → (id, r, k) ∈ tasks

theorem Consistent.exists_covers (h : Consistent w) : ∃ tasks, Covers tasks w := by
  let ofJob (id : Int) : Finset (Int × Bool × Int) :=
    (w.coord.allJob id).elim ∅ fun job =>
      Finset.univ.biUnion fun r => (Finset.Ico 0 (job.size r)).image fun k => (id, r, k)
  refine ⟨(Finset.Icc 1 w.coord.nextId).biUnion ofJob, fun id job r k found lower upper => ?_⟩
  obtain ⟨-, pos, last, -⟩ := h.ids id job found
  refine Finset.mem_biUnion.mpr ⟨id, Finset.mem_Icc.mpr ⟨pos, last⟩, ?_⟩
  simp only [ofJob, found, Option.elim, Finset.mem_biUnion, Finset.mem_univ, true_and, Finset.mem_image, Finset.mem_Ico]
  exact ⟨r, k, ⟨lower, upper⟩, rfl⟩

theorem Covers.onward {jobs : Int → Prop} {tasks : Finset (Int × Bool × Int)} {w' : World} (h : Covers tasks w)
    (on : Onward jobs w w') : Covers tasks w' := by
  intro id job' r k found lower upper
  obtain ⟨job, before, size⟩ := on.table id job' found
  exact h id job r k before lower (size r ▸ upper)

/-- Which of the tasks are not reported. -/
def unreportedOf (tasks : Finset (Int × Bool × Int)) (w : World) : Finset (Int × Bool × Int) :=
  tasks.filter fun t => reported w.log t.1 t.2.1 t.2.2 = false

/-- How many of the tasks are not reported, and how many jobs are queued. -/
def remaining (tasks : Finset (Int × Bool × Int)) (w : World) : Nat :=
  (unreportedOf tasks w).card + w.coord.waitingQueue.toFinset.card

section Remaining
variable {jobs : Int → Prop} {tasks : Finset (Int × Bool × Int)} {w' : World}

theorem Onward.unreportedOf_subset (on : Onward jobs w w') : unreportedOf tasks w' ⊆ unreportedOf tasks w := by
  intro t unreported
  obtain ⟨inside, still⟩ := Finset.mem_filter.mp unreported
  refine Finset.mem_filter.mpr ⟨inside, ?_⟩
  rw [Bool.eq_false_iff] at still ⊢
  exact fun was => still (on.reports _ _ _ was)

theorem Onward.queue_subset (on : Onward jobs w w') :
    w'.coord.waitingQueue.toFinset ⊆ w.coord.waitingQueue.toFinset := fun id queued =>
  List.mem_toFinset.mpr (on.queue id (List.mem_toFinset.mp queued))

theorem Onward.remaining_lt_of_report (on : Onward jobs w w') {id : Int} {r : Bool} {k : Int}
    (member : (id, r, k) ∈ tasks) (before : reported w.log id r k = false) (after : reported w'.log id r k = true) :
    remaining tasks w' < remaining tasks w := by
  refine Nat.add_lt_add_of_lt_of_le (Finset.card_lt_card ⟨on.unreportedOf_subset, fun all => ?_⟩)
    (Finset.card_le_card on.queue_subset)
  have still := (Finset.mem_filter.mp (all (Finset.mem_filter.mpr ⟨member, before⟩))).2
  exact Bool.false_ne_true (still.symm.trans after)

theorem Onward.remaining_lt_of_gone (on : Onward jobs w w') {id : Int} (queued : id ∈ w.coord.waitingQueue)
    (gone : id ∉ w'.coord.waitingQueue) : remaining tasks w' < remaining tasks w := by
  refine Nat.add_lt_add_of_le_of_lt (Finset.card_le_card on.unreportedOf_subset)
    (Finset.card_lt_card ⟨on.queue_subset, fun all => gone ?_⟩)
  exact List.mem_toFinset.mp (all (List.mem_toFinset.mpr queued))

end Remaining

end Coordinator

section Rounds
variable {δ ι : Type} {site : Site δ} {c c' : Cluster δ ι}

/-- The job's input files can be read, its application is known and stays in its memory with
them, and their keys can be hashed and ordered. -/
structure Site.Sound (site : Site δ) (req : SubmitJobRequest) (app : App) : Prop where
  known : site.getApp req.app = some app
  reduces : 1 ≤ req.nReduce
  readable : ∀ task < (site.taskJob req).nMap,
    (readAll site.inputFiles ((site.taskJob req).mapReply task).file).isSome
  bounded : ∀ task < (site.taskJob req).nMap, site.mapInBounds ((site.taskJob req).mapReply task) site.inputFiles
  hashed : ∀ kv ∈ emitted app (site.taskJob req) site.inputFiles, kv.key.length < 2 ^ 32
  ordered : ∀ r < (site.taskJob req).nReduce, Library.Consistent byKey
    (partitionOf (site.taskJob req).nReduce r (emitted app (site.taskJob req) site.inputFiles))

theorem handle_of_sound {req : SubmitJobRequest} {app : App} (sound : site.Sound req app) {disk : Disk δ}
    {reply : GetTaskReply} (asked : reply.For req) {job : Job} (jobFor : job.For req) (lower : 0 ≤ reply.task)
    (upper : reply.task < job.size reply.reduce)
    (maps : reply.reduce = true → ∀ task < req.files.length, site.MapDone disk req task) :
    ∃ files, site.handle reply (site.view disk (site.directory req.outputDir)) = .ok files := by
  have nMap : (site.taskJob req).nMap = req.files.length := List.length_map ..
  cases isReduce : reply.reduce with
  | false =>
      have inside : reply.task.toNat < (site.taskJob req).nMap := by
        rw [isReduce] at upper
        change reply.task < job.nMap at upper
        rw [jobFor.nMap] at upper
        omega
      obtain ⟨contents, read⟩ := Option.isSome_iff_exists.mp (sound.readable _ inside)
      have output := fileOutput_of_read app read
      have short : ∀ kv ∈ app.map ⟨((site.taskJob req).mapReply reply.task.toNat).file, contents⟩
          ((site.taskJob req).mapReply reply.task.toNat).args, kv.key.length < 2 ^ 32 := by
        rw [← output]
        exact fun kv member => sound.hashed kv (List.mem_flatMap.mpr ⟨_, List.mem_range.mpr inside, member⟩)
      have some : 0 < (site.taskJob req).nReduce := by
        have := sound.reduces
        change 0 < req.nReduce.toNat
        omega
      have read : readAll (site.view disk (site.directory req.outputDir))
          ((site.taskJob req).mapReply reply.task.toNat).file = Option.some contents := read
      obtain ⟨files, done, -⟩ := handleMapTask_spec sound.known read short some
      have bounded : site.mapInBounds ((site.taskJob req).mapReply reply.task.toNat)
          (site.view disk (site.directory req.outputDir)) = true := sound.bounded _ inside
      refine ⟨files, ?_⟩
      rw [Site.handle, isReduce, if_neg Bool.false_ne_true, taskReply_map asked isReduce, if_pos bounded, done]
  | true =>
      have inside : reply.task.toNat < (site.taskJob req).nReduce := by
        rw [isReduce] at upper
        change reply.task < job.nReduce at upper
        rw [jobFor.nReduce] at upper
        change reply.task.toNat < req.nReduce.toNat
        omega
      have ready := ready_of_maps sound.known (maps isReduce) reply.task.toNat inside
      have done := reduceTask_of_ready site.qsort sound.known ready
      rw [if_pos (sound.ordered _ inside)] at done
      exact ⟨_, by rw [Site.handle, isReduce, if_pos rfl, handleReduceTask_for asked, done]⟩

variable [DecidableEq ι] [DecidableEq δ]

/-- An orderly run leads from the one state to the other. -/
def Leads (site : Site δ) : Cluster δ ι → Cluster δ ι → Prop :=
  Relation.ReflTransGen fun c c' => ∃ move, ((cluster site).under (Orderly site)).step c move c'

theorem Leads.reachable (leads : Leads site c c') (h : ((cluster site).under (Orderly site)).Reachable c) :
    ((cluster site).under (Orderly site)).Reachable c' := by
  induction leads with
  | refl => exact h
  | tail _ last ih =>
      obtain ⟨move, step⟩ := last
      exact ih.step step

theorem Cluster.Did.stage {move : Move ι} (did : c.Did site move c') :
    c'.stage = c.stage ∨ ∃ i stage, c'.stage = Function.update c.stage i stage := by
  cases did with
  | client => exact .inl rfl
  | waits => exact .inl rfl
  | scribble => exact .inl rfl
  | gets i => exact .inr ⟨i, _, rfl⟩
  | succeeds i => exact .inr ⟨i, _, rfl⟩
  | fails i => exact .inr ⟨i, _, rfl⟩
  | tells i => exact .inr ⟨i, _, rfl⟩
  | dies i => exact .inr ⟨i, _, rfl⟩

theorem exists_busy (h : (cluster site).Reachable c) : ∃ busy : Finset ι, ∀ i ∉ busy, c.stage i = .idle := by
  refine h.invariant (I := fun c => ∃ busy : Finset ι, ∀ i ∉ busy, c.stage i = .idle)
    (fun c start => ⟨∅, fun i _ => start.2 i⟩) fun c move c' ⟨busy, idle⟩ hs => ?_
  obtain same | ⟨i, stage, changed⟩ := (Cluster.did_of_next hs).stage
  · exact ⟨busy, by rwa [same]⟩
  · refine ⟨insert i busy, fun j other => ?_⟩
    rw [Finset.mem_insert, not_or] at other
    rw [changed, Function.update_of_ne other.1]
    exact idle j other.2

theorem exists_all_idle (busy : Finset ι) (rest : ∀ i ∉ busy, c.stage i = .idle) :
    ∃ c', Leads site c c' ∧ c'.service = c.service ∧ ∀ i, c'.stage i = .idle := by
  induction busy using Finset.induction_on generalizing c with
  | empty => exact ⟨c, .refl, rfl, fun i => rest i (Finset.notMem_empty i)⟩
  | insert i busy _ ih =>
      have less : ∀ j ∉ busy, (c.setStage i .idle).stage j = .idle := by
        intro j other
        simp only [Cluster.setStage, Function.update_apply]
        split
        · rfl
        · next ne => exact rest j fun member => (Finset.mem_insert.mp member).elim ne other
      obtain ⟨c', leads, service, idle⟩ := ih less
      exact ⟨c', .head ⟨.die i, rfl, trivial⟩ leads, service, idle⟩

theorem reports_reportOf (now : Int) (reply : GetTaskReply) :
    (Event.mk now (.finishTask (reportOf reply true)) .finished).reports reply.jobId reply.reduce reply.task = true :=
  Event.reports_iff.mpr rfl

section Round
variable {jobs : Int → Prop} {i : ι} {reply : GetTaskReply}

/-- When all other workers are dead and what they had has timed out, a worker gets a task. -/
theorem exists_taken (jobs : Int → Prop) (h : ((cluster site).under (Orderly site)).Reachable c) (i : ι)
    (idle : ∀ j, c.stage j = .idle) {id : Int} (queued : id ∈ c.service.coord.waitingQueue) {job : Job}
    (found : c.service.coord.allJob id = some job) (reduces : 1 ≤ job.nReduce) :
    ∃ c' reply, Leads site c c' ∧ Onward jobs c.service c'.service ∧ c'.stage i = .working reply ∧
      (∀ j, j ≠ i → c'.stage j = .idle) ∧ reply.jobId ∈ c.service.coord.waitingQueue := by
  have consistent := cluster_consistent h.of_under
  obtain ⟨now, late⟩ := exists_late c.service.log
  obtain ⟨w, served⟩ := consistent.next_isSome (late.admits rfl)
  obtain ⟨coord, reply, got, rfl⟩ := World.next_getTask served
  have task : reply.wait = false := consistent.task_of_late (reachable_exact (reachable_firstReports h)).counters
    (reachable_reducesLeft (reachable_service h.of_under)) late queued found reduces got
  let c' : Cluster δ ι :=
    { c with service := ⟨coord, ⟨now, .getTask, .task reply⟩ :: c.service.log⟩ }.setStage i (.working reply)
  have step : ((cluster site).under (Orderly site)).step c (.ask i now) c' := by
    refine ⟨?_, late.1, fun j reply' has => ?_⟩
    · change Cluster.next site c (.ask i now) = _
      simp only [Cluster.next, idle i, served, Option.map_some, World.answer, task]
      rfl
    · rw [idle j] at has
      cases has
  have asked : reply.jobId ∈ c.service.coord.waitingQueue := by
    cases getTask_effect got with
    | wait reply waits =>
        rw [task] at waits
        cases waits
    | assign id' job mem reduce k t reply queued found live entry test phase hands =>
        rw [hands.2.1, (consistent.ids id' job found).1]
        exact queued
  exact ⟨c', reply, .single ⟨_, step⟩, .of_served consistent served rfl fun _ none => (by cases none),
    Function.update_self .., fun j other => (Function.update_of_ne other ..).trans (idle j), asked⟩

theorem exists_handled (h : ((cluster site).under (Orderly site)).Reachable c) (working : c.stage i = .working reply)
    (sound : ∀ req, submission c.service.log reply.jobId = some req → ∃ app, site.Sound req app) :
    ∃ files, site.handle reply (site.view c.disk (site.directory reply.outputDir)) = .ok files := by
  have held := reachable_held h
  have described := reachable_described h
  have has : reply ∈ (c.stage i).reply? := by
    rw [working]
    rfl
  obtain ⟨job, found, lower, upper⟩ := held.job (cluster_consistent h.of_under) has
  obtain ⟨req, submitted, asked⟩ := described.held i reply has
  obtain ⟨req', submitted', jobFor⟩ := described.jobs _ job found
  obtain rfl : req' = req := Option.some.inj (submitted'.symm.trans submitted)
  obtain ⟨app, sound⟩ := sound req' submitted
  rw [asked.outputDir]
  exact handle_of_sound sound asked jobFor lower upper fun isReduce =>
    (reachable_delivered h).maps held (reachable_exact (reachable_firstReports h)) has isReduce submitted described

/-- A worker whose handler has returned reports it, a failure only if the job is none of these. -/
theorem exists_told (jobs : Int → Prop) (h : ((cluster site).under (Orderly site)).Reachable c) {success : Bool}
    (ended : c.stage i = .ended reply success) (idle : ∀ j, j ≠ i → c.stage j = .idle)
    (good : jobs reply.jobId → success = true) :
    ∃ c' now, Leads site c c' ∧ (∀ j, c'.stage j = .idle) ∧ Onward jobs c.service c'.service ∧
      c.service.next ⟨now, .finishTask (reportOf reply success)⟩ = some c'.service := by
  have consistent := cluster_consistent h.of_under
  have has : reply ∈ (c.stage i).reply? := by
    rw [ended]
    rfl
  obtain ⟨now, late⟩ := exists_late c.service.log
  have admits : c.service.admits ⟨now, .finishTask (reportOf reply success)⟩ = true :=
    Bool.and_eq_true_iff.mpr
      ⟨(Bool.and_eq_true_iff.mp (late.admits rfl)).1, (reachable_held h).handed i reply has⟩
  obtain ⟨w, served⟩ := consistent.next_isSome admits
  let c' : Cluster δ ι := { c with service := w }.setStage i .idle
  have step : ((cluster site).under (Orderly site)).step c (.tell i now) c' := by
    refine ⟨?_, late.1⟩
    change Cluster.next site c (.tell i now) = _
    simp only [Cluster.next, ended, served, Option.map_some]
    rfl
  refine ⟨c', now, .single ⟨_, step⟩, fun j => ?_, .of_served consistent served rfl ?_, served⟩
  · by_cases this : j = i
    · subst this
      exact Function.update_self ..
    · exact (Function.update_of_ne this ..).trans (idle j this)
  · rintro f ⟨⟩
    exact good

/-- A round of a worker's loop, when all other workers are dead and what they had has timed
out: a task is reported, or a job that is none of these fails. -/
theorem exists_round {tasks : Finset (Int × Bool × Int)} (h : ((cluster site).under (Orderly site)).Reachable c)
    (covers : Covers tasks c.service) (i : ι) (idle : ∀ j, c.stage j = .idle) {id : Int}
    (queued : id ∈ c.service.coord.waitingQueue) (among : jobs id)
    (sound : ∀ id ∈ c.service.coord.waitingQueue, jobs id → ∀ req, submission c.service.log id = some req →
      ∃ app, site.Sound req app) :
    ∃ c', Leads site c c' ∧ (∀ j, c'.stage j = .idle) ∧ Onward jobs c.service c'.service ∧
      remaining tasks c'.service < remaining tasks c.service := by
  have consistent := cluster_consistent h.of_under
  obtain ⟨job, found, undone⟩ := (consistent.queued id).mp queued
  obtain ⟨req, submitted, asked⟩ := (reachable_described h).jobs id job found
  obtain ⟨_, sound₀⟩ := sound id queued among req submitted
  obtain ⟨c₁, reply, leads₁, on₁, working, idle₁, queued₁⟩ :=
    exists_taken jobs h i idle queued found (asked.nReduce ▸ sound₀.reduces)
  have reach₁ := leads₁.reachable h
  have held₁ := reachable_held reach₁
  have has : reply ∈ (c₁.stage i).reply? := by
    rw [working]
    rfl
  obtain ⟨job₁, found₁, lower, upper⟩ := held₁.job (cluster_consistent reach₁.of_under) has
  obtain ⟨job₀, found₀, size₀⟩ := on₁.table _ job₁ found₁
  by_cases chosen : jobs reply.jobId
  case pos =>
    obtain ⟨files, handled⟩ := exists_handled reach₁ working fun req submitted₁ =>
      sound _ queued₁ chosen req ((on₁.submissions _ job₀ found₀).symm.trans submitted₁)
    let c₂ : Cluster δ ι := (c₁.setFiles (site.directory reply.outputDir) files).setStage i (.ended reply true)
    have step₂ : ((cluster site).under (Orderly site)).step c₁ (.run i) c₂ := by
      refine ⟨?_, trivial⟩
      change Cluster.next site c₁ (.run i) = _
      simp only [Cluster.next, working, handled]
      rfl
    have leads₂ : Leads site c₁ c₂ := .single ⟨_, step₂⟩
    have idle₂ (j : ι) (other : j ≠ i) : c₂.stage j = .idle := (Function.update_of_ne other ..).trans (idle₁ j other)
    obtain ⟨c₃, now, leads₃, idle₃, on₃, served₃⟩ :=
      exists_told jobs (leads₂.reachable reach₁) (Function.update_self ..) idle₂ fun _ => rfl
    have on : Onward jobs c.service c₃.service := on₁.trans on₃
    refine ⟨c₃, (leads₁.trans leads₂).trans leads₃, idle₃, on, ?_⟩
    refine on.remaining_lt_of_report (covers _ job₀ reply.reduce reply.task found₀ lower (size₀ _ ▸ upper)) ?_ ?_
    · rw [Bool.eq_false_iff]
      intro was
      exact Bool.false_ne_true ((held₁.unreported i reply has).symm.trans (on₁.reports _ _ _ was))
    · obtain ⟨answer, log₃⟩ := World.log_of_next served₃
      rw [log₃, reported_cons, Bool.or_eq_true]
      exact .inl (reports_reportOf now reply)
  case neg =>
    let c₂ : Cluster δ ι := c₁.setStage i (.ended reply false)
    have step₂ : ((cluster site).under (Orderly site)).step c₁ (.giveUp i) c₂ := by
      refine ⟨?_, trivial⟩
      change Cluster.next site c₁ (.giveUp i) = _
      simp only [Cluster.next, working]
      rfl
    have leads₂ : Leads site c₁ c₂ := .single ⟨_, step₂⟩
    have idle₂ (j : ι) (other : j ≠ i) : c₂.stage j = .idle := (Function.update_of_ne other ..).trans (idle₁ j other)
    have reach₂ := leads₂.reachable reach₁
    obtain ⟨c₃, now, leads₃, idle₃, on₃, served₃⟩ :=
      exists_told jobs reach₂ (Function.update_self ..) idle₂ fun among => absurd among chosen
    have on : Onward jobs c.service c₃.service := on₁.trans on₃
    exact ⟨c₃, (leads₁.trans leads₂).trans leads₃, idle₃, on,
      on.remaining_lt_of_gone queued₁ ((cluster_consistent reach₂.of_under).not_queued_of_failure served₃ rfl)⟩

end Round

theorem exists_end [Nonempty ι] {jobs : Int → Prop} (tasks : Finset (Int × Bool × Int)) (n : Nat)
    (h : ((cluster site).under (Orderly site)).Reachable c) (covers : Covers tasks c.service)
    (few : remaining tasks c.service ≤ n) (idle : ∀ j, c.stage j = .idle)
    (sound : ∀ id ∈ c.service.coord.waitingQueue, jobs id → ∀ req, submission c.service.log id = some req →
      ∃ app, site.Sound req app) :
    ∃ c', Leads site c c' ∧ Onward jobs c.service c'.service ∧ ∀ id ∈ c'.service.coord.waitingQueue, ¬ jobs id := by
  induction n generalizing c with
  | zero =>
      refine ⟨c, .refl, .refl _ _, fun id queued among => ?_⟩
      obtain ⟨c', -, -, -, less⟩ := exists_round h covers (Classical.arbitrary ι) idle queued among sound
      omega
  | succ n ih =>
      by_cases empty : ∀ id ∈ c.service.coord.waitingQueue, ¬ jobs id
      · exact ⟨c, .refl, .refl _ _, empty⟩
      · push Not at empty
        obtain ⟨id, queued, among⟩ := empty
        obtain ⟨c', leads, idle', on, less⟩ := exists_round h covers (Classical.arbitrary ι) idle queued among sound
        obtain ⟨c'', leads', on', ended⟩ := ih (leads.reachable h) (covers.onward on) (by omega) idle'
          fun id queued among req submitted => by
            have queued := on.queue id queued
            obtain ⟨job, found, -⟩ := ((cluster_consistent h.of_under).queued id).mp queued
            exact sound id queued among req ((on.submissions id job found).symm.trans submitted)
        exact ⟨c'', leads.trans leads', on.trans on', ended⟩

/-- All workers die, and one of them comes back and works until none of these jobs is queued. -/
theorem exists_ended [Nonempty ι] (jobs : Int → Prop) (h : ((cluster site).under (Orderly site)).Reachable c)
    (sound : ∀ id ∈ c.service.coord.waitingQueue, jobs id → ∀ req, submission c.service.log id = some req →
      ∃ app, site.Sound req app) :
    ∃ c', Leads site c c' ∧ Onward jobs c.service c'.service ∧ ∀ id ∈ c'.service.coord.waitingQueue, ¬ jobs id := by
  obtain ⟨busy, rest⟩ := exists_busy h.of_under
  obtain ⟨c₀, leads₀, service, idle⟩ := exists_all_idle busy rest
  obtain ⟨tasks, covers⟩ := (cluster_consistent h.of_under).exists_covers
  rw [← service] at covers
  obtain ⟨c', leads, on, ended⟩ := exists_end tasks _ (leads₀.reachable h) covers (Nat.le_refl _) idle
    (by rwa [service])
  exact ⟨c', leads₀.trans leads, service ▸ on, ended⟩

theorem Onward.done_of_ended {jobs : Int → Prop} {w w' : World} (on : Onward jobs w w') (h : Consistent w)
    (h' : Consistent w') (ended : ∀ id ∈ w'.coord.waitingQueue, ¬ jobs id) {id : Int}
    (queued : id ∈ w.coord.waitingQueue) (among : jobs id) :
    submission w'.log id = submission w.log id ∧ (pollJob w'.coord id).2 = ⟨true, false, false⟩ := by
  obtain ⟨job, found, undone⟩ := (h.queued id).mp queued
  obtain ⟨job', found', fine⟩ := on.fine id job found
  have done : job'.done = true := by
    by_contra still
    exact ended id ((h'.queued id).mpr ⟨job', found', by simpa using still⟩) among
  refine ⟨on.submissions id job found, ?_⟩
  simp only [pollJob, found', done, fine among (h.live id job found undone).failed]

/-- From every state of an orderly run, an orderly run leads to one where all sound jobs that are
queued now are done and have not failed, whatever other jobs are queued. -/
theorem exists_completion [Nonempty ι] (h : ((cluster site).under (Orderly site)).Reachable c) :
    ∃ c', Leads site c c' ∧ ∀ id ∈ c.service.coord.waitingQueue, ∀ req, submission c.service.log id = some req →
      ∀ app, site.Sound req app →
        submission c'.service.log id = some req ∧ (pollJob c'.service.coord id).2 = ⟨true, false, false⟩ := by
  obtain ⟨c', leads, on, ended⟩ :=
    exists_ended (fun id => ∀ req, submission c.service.log id = some req → ∃ app, site.Sound req app) h
      fun _ _ sound => sound
  refine ⟨c', leads, fun id queued req submitted app sound => ?_⟩
  obtain ⟨same, done⟩ := on.done_of_ended (cluster_consistent h.of_under)
    (cluster_consistent (leads.reachable h).of_under) ended queued fun req' submitted' => by
      cases submitted.symm.trans submitted'
      exact ⟨app, sound⟩
  exact ⟨same.trans submitted, done⟩

end Rounds

section WordCount
open CS162.WordCount.FileWords (letters_nil)
variable {δ ι : Type} {site : Site δ} {malloc : ∀ n, Vector UInt8 n} {req : SubmitJobRequest}

/-- An `int` counts the bytes of each input file that can be read. -/
def Site.Short (site : Site δ) (req : SubmitJobRequest) : Prop :=
  ∀ path ∈ (site.taskJob req).files, ∀ contents ∈ readAll site.inputFiles path, contents.length ≤ intMax

theorem plain_words (short : site.Short req) : Plain ((site.taskJob req).words site.inputFiles) := by
  intro word inside
  obtain ⟨path, asked, inside⟩ := List.mem_flatMap.mp inside
  cases read : readAll site.inputFiles path with
  | none =>
      rw [read] at inside
      cases inside
  | some contents =>
      rw [read] at inside
      obtain ⟨solid, length⟩ := of_mem_wordsOf letters_nil inside
      have bound := short path asked contents read
      rw [intMax] at bound
      have length : word.length ≤ contents.length := length
      exact ⟨solid, by omega⟩

theorem sound_wc (getApp : site.getApp req.app = some (wc malloc)) (reduces : 1 ≤ req.nReduce)
    (readable : ∀ task < (site.taskJob req).nMap,
      (readAll site.inputFiles ((site.taskJob req).mapReply task).file).isSome)
    (bounded : ∀ input aux, input.value.length ≤ intMax → site.inBounds req.app input aux = true)
    (short : site.Short req) : site.Sound req (wc malloc) := by
  have apart : KeysApart (site.taskJob req).nReduce (emitted (wc malloc) (site.taskJob req) site.inputFiles) :=
    (emitted_wc short).keysApart (plain_words short)
  refine ⟨getApp, reduces, readable, fun task inside => ?_, apart.hashed, apart.ordered⟩
  have asked : ((site.taskJob req).mapReply task).file ∈ (site.taskJob req).files := by
    rw [← map_mapReply_file (site.taskJob req)]
    exact List.mem_map.mpr ⟨task, List.mem_range.mpr inside, rfl⟩
  rw [Site.mapInBounds]
  cases read : readAll site.inputFiles ((site.taskJob req).mapReply task).file with
  | none => rfl
  | some contents => exact bounded _ _ (short _ asked contents read)

end WordCount

section OneJob

/-- A site where every input file is "is it it". -/
def oneText : Site String where
  bytes s := ⟨s.toUTF8.toList.take (2 ^ 63 - 1), by rw [List.length_take]; omega⟩
  directory path := path
  inputs _ := some [0x69, 0x73, 0x20, 0x69, 0x74, 0x20, 0x69, 0x74]
  getApp := getApp (fun n => Vector.replicate n 0) (Sorter.insertion KeyValue)
  inBounds := inBounds (fun n => Vector.replicate n 0)
  qsort := Sorter.insertion KeyValue
  known := by decide

/-- The cluster after a client has asked for a word count. -/
def oneJob : Cluster String Nat where
  service := ⟨(submitJob coordinatorInit (wordCount ["in"] 1)).1,
    [⟨1, .submitJob (wordCount ["in"] 1), .submitted 1⟩]⟩
  stage _ := .idle
  disk _ _ := none

theorem oneJob_reachable : ((cluster oneText).under (Orderly oneText)).Reachable oneJob := by
  have start : ((cluster (ι := Nat) oneText).under (Orderly oneText)).Reachable
      ⟨World.initial, fun _ => .idle, fun _ _ => none⟩ := .init ⟨rfl, fun _ => rfl⟩
  refine start.step (a := .client ⟨1, .submitJob (wordCount ["in"] 1)⟩) ⟨rfl, by decide, ?_⟩
  exact fun _ _ _ _ _ none => (by cases none)

theorem wordCount_sound : ∃ app, oneText.Sound (wordCount ["in"] 1) app :=
  ⟨_, sound_wc (getApp_wc _ (Sorter.insertion KeyValue)) (by decide) (fun _ _ => rfl) (fun _ _ => inBounds_wc)
    (by rintro _ _ _ ⟨⟩; decide)⟩

theorem oneJob_done : ∃ c, ((cluster oneText).under (Orderly oneText)).Reachable (c : Cluster String Nat) ∧
    submission c.service.log 1 = some (wordCount ["in"] 1) ∧ (pollJob c.service.coord 1).2 = ⟨true, false, false⟩ := by
  obtain ⟨c, leads, on, ended⟩ := exists_ended (· = 1) oneJob_reachable fun k _ first _ submitted => by
    subst first
    cases submitted
    exact wordCount_sound
  have reach := leads.reachable oneJob_reachable
  obtain ⟨same, done⟩ := on.done_of_ended (cluster_consistent oneJob_reachable.of_under)
    (cluster_consistent reach.of_under) ended (List.mem_singleton_self 1) rfl
  exact ⟨c, reach, same, done⟩

end OneJob

section Example

/-- A job that never comes to its end. -/
def withoutReduces : SubmitJobRequest := ⟨["in"], "none", "wc", 0, ""⟩

/-- The cluster after a client has asked for that and then for a word count. -/
def jobAndWordCount : Cluster String Nat where
  service := ⟨(submitJob (submitJob coordinatorInit withoutReduces).1 (wordCount ["in"] 1)).1,
    [⟨1, .submitJob (wordCount ["in"] 1), .submitted 2⟩, ⟨1, .submitJob withoutReduces, .submitted 1⟩]⟩
  stage _ := .idle
  disk _ _ := none

theorem jobAndWordCount_reachable : ((cluster oneText).under (Orderly oneText)).Reachable jobAndWordCount := by
  have start : ((cluster (ι := Nat) oneText).under (Orderly oneText)).Reachable
      ⟨World.initial, fun _ => .idle, fun _ _ => none⟩ := .init ⟨rfl, fun _ => rfl⟩
  have first : ((cluster (ι := Nat) oneText).under (Orderly oneText)).Reachable
      ⟨⟨(submitJob coordinatorInit withoutReduces).1, [⟨1, .submitJob withoutReduces, .submitted 1⟩]⟩,
        fun _ => .idle, fun _ _ => none⟩ :=
    start.step (a := .client ⟨1, .submitJob withoutReduces⟩)
      ⟨rfl, by decide, fun _ _ _ _ _ none => (by cases none)⟩
  refine first.step (a := .client ⟨1, .submitJob (wordCount ["in"] 1)⟩) ⟨rfl, by decide, ?_⟩
  rintro _ ⟨⟩ _ id job found
  by_cases this : id = 1
  · subst this
    cases found
    decide
  · cases (Coordinator.setJob_of_ne _ _ this).symm.trans found

theorem jobAndWordCount_completes : ∃ c, Leads oneText jobAndWordCount c ∧
    submission c.service.log 2 = some (wordCount ["in"] 1) ∧
    (pollJob c.service.coord 2).2 = ⟨true, false, false⟩ := by
  obtain ⟨c, leads, done⟩ := exists_completion jobAndWordCount_reachable
  obtain ⟨app, sound⟩ := wordCount_sound
  exact ⟨c, leads, done 2 (by decide) _ rfl app sound⟩

end Example

section Output
variable {δ ι : Type} [DecidableEq ι] [DecidableEq δ] {site : Site δ} {c : Cluster δ ι}

theorem done_of_poll {s : Coordinator} {id : Int} (done : (pollJob s id).2 = ⟨true, false, false⟩) :
    ∃ job, s.allJob id = some job ∧ job.done = true ∧ job.failed = false := by
  cases found : s.allJob id with
  | none => simp [pollJob, found] at done
  | some job =>
      simp only [pollJob, found, PollJobReply.mk.injEq] at done
      exact ⟨job, rfl, done.1, done.2.1⟩

/-- The output of a job that is done and has not failed, and what its handlers found out about
its keys. -/
theorem outputs_of_job (h : ((cluster site).under (Orderly site)).Reachable c) {id : Int} {req : SubmitJobRequest}
    {job : Job} (submitted : submission c.service.log id = some req) (found : c.service.coord.allJob id = some job)
    (ended : job.done = true) (fine : job.failed = false) :
    ∃ app, site.getApp req.app = some app ∧
      (∀ kv ∈ emitted app (site.taskJob req) site.inputFiles, kv.key.length < 2 ^ 32) ∧
      ∀ r < (site.taskJob req).nReduce,
        Library.Consistent byKey (partitionOf (site.taskJob req).nReduce r
          (emitted app (site.taskJob req) site.inputFiles)) ∧
        c.disk (site.directory req.outputDir) (.out r) =
          some (outputOf site.qsort app (site.taskJob req).args (partitionOf (site.taskJob req).nReduce r
            (emitted app (site.taskJob req) site.inputFiles))) := by
  have delivered := reachable_delivered h
  have all := (reachable_exact (reachable_firstReports h)).done id job found ended fine
  obtain ⟨req', submitted', asked⟩ := (reachable_described h).jobs id job found
  obtain rfl : req' = req := Option.some.inj (submitted'.symm.trans submitted)
  obtain ⟨app, known⟩ := Option.isSome_iff_exists.mp (site.known req'.app asked.known)
  have nMap : (site.taskJob req').nMap = req'.files.length := List.length_map ..
  refine ⟨app, known, fun kv member => ?_, fun r hr => ?_⟩
  · obtain ⟨task, inside, member⟩ := List.mem_flatMap.mp member
    have upper : (task : Int) < job.size false := by
      have := List.mem_range.mp inside
      change (task : Int) < job.nMap
      rw [asked.nMap]
      omega
    obtain ⟨app', known', short, -⟩ := delivered.reported id req' submitted false task
      (all false task (Int.natCast_nonneg task) upper)
    obtain rfl : app = app' := Option.some.inj (known.symm.trans known')
    exact short kv member
  · have upper : (r : Int) < job.size true := by
      change (r : Int) < job.nReduce
      rw [asked.nReduce]
      exact Int.lt_toNat.mp hr
    obtain ⟨app', known', ordered, out⟩ := delivered.reported id req' submitted true r
      (all true r (Int.natCast_nonneg r) upper)
    obtain rfl : app = app' := Option.some.inj (known.symm.trans known')
    exact ⟨ordered, out⟩

/-- Where a poll says that a job is done and has not failed, its output files are what its
tasks make of its input files when each runs once: the group-by, if `by_key` tells the keys
of every partition apart. -/
theorem output_of_done (h : ((cluster site).under (Orderly site)).Reachable c) {id : Int} {req : SubmitJobRequest}
    (submitted : submission c.service.log id = some req)
    (done : (pollJob c.service.coord id).2 = ⟨true, false, false⟩) :
    ∃ app, site.getApp req.app = some app ∧
      (∀ r < (site.taskJob req).nReduce, c.disk (site.directory req.outputDir) (.out r) =
        some (outputOf site.qsort app (site.taskJob req).args (partitionOf (site.taskJob req).nReduce r
          (emitted app (site.taskJob req) site.inputFiles)))) ∧
      ((∀ kv1 ∈ emitted app (site.taskJob req) site.inputFiles, ∀ kv2 ∈ emitted app (site.taskJob req) site.inputFiles,
          reduceTaskOf (site.taskJob req).nReduce kv1.key = reduceTaskOf (site.taskJob req).nReduce kv2.key →
            byKey kv1 kv2 = 0 → kv1.key = kv2.key) →
        GroupsBy (fun key kvs => app.reduce key kvs (site.taskJob req).args) (site.taskJob req).nReduce
          (emitted app (site.taskJob req) site.inputFiles) (c.disk (site.directory req.outputDir))) := by
  obtain ⟨job, found, ended, fine⟩ := done_of_poll done
  obtain ⟨app, known, hashed, reduced⟩ := outputs_of_job h submitted found ended fine
  exact ⟨app, known, fun r hr => (reduced r hr).2, fun apart =>
    groupsBy_of_keysApart ⟨hashed, fun r hr => (reduced r hr).1, apart⟩ fun r hr => (reduced r hr).2⟩

theorem oneJob_output : ∃ c : Cluster String Nat, ∃ app, oneText.getApp "wc" = some app ∧
    c.disk "out" (.out 0) = some (outputOf oneText.qsort app (oneText.taskJob (wordCount ["in"] 1)).args
      (partitionOf 1 0 (emitted app (oneText.taskJob (wordCount ["in"] 1)) oneText.inputFiles))) := by
  obtain ⟨c, reach, submitted, done⟩ := oneJob_done
  obtain ⟨app, known, out, -⟩ := output_of_done reach submitted done
  exact ⟨c, app, known, out 0 (by decide)⟩

/-- Where a poll says that a word-count job is done and has not failed, the client prints each
word of its input files once, with how often it occurs. -/
theorem wordCount_of_done {malloc : ∀ n, Vector UInt8 n} {req : SubmitJobRequest}
    (h : ((cluster site).under (Orderly site)).Reachable c) {id : Int}
    (submitted : submission c.service.log id = some req)
    (done : (pollJob c.service.coord id).2 = ⟨true, false, false⟩)
    (getApp : site.getApp req.app = some (wc malloc)) (reduces : 1 ≤ req.nReduce) (short : site.Short req)
    (few : ((site.taskJob req).words site.inputFiles).length < 2 ^ 31) :
    ∃ kvs counts, process site.getApp ⟨req.app, (site.taskJob req).nReduce⟩
        (c.disk (site.directory req.outputDir)) = .ok kvs ∧
      CountsOf ((site.taskJob req).words site.inputFiles) counts ∧
      printed (wcProcessOutput site.qsort) kvs = counts.flatMap countLine := by
  obtain ⟨job, found, ended, fine⟩ := done_of_poll done
  obtain ⟨app, known, -, reduced⟩ := outputs_of_job h submitted found ended fine
  obtain rfl : app = wc malloc := Option.some.inj (known.symm.trans getApp)
  refine process_wc (emitted_wc short) (plain_words short) few known ?_ fun r hr => (reduced r hr).2
  change 0 < req.nReduce.toNat
  omega

theorem oneJob_counts : ∃ c : Cluster String Nat, ∃ kvs counts,
    process oneText.getApp ⟨"wc", 1⟩ (c.disk "out") = .ok kvs ∧
      CountsOf ((oneText.taskJob (wordCount ["in"] 1)).words oneText.inputFiles) counts ∧
      printed (wcProcessOutput oneText.qsort) kvs = counts.flatMap countLine := by
  obtain ⟨c, reach, submitted, done⟩ := oneJob_done
  exact ⟨c, wordCount_of_done reach submitted done (getApp_wc _ (Sorter.insertion KeyValue)) (by decide)
    (by rintro _ _ _ ⟨⟩; decide) (by decide)⟩

end Output
end CS162.MapReduce
