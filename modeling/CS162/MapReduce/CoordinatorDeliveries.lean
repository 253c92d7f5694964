import Mathlib.Data.List.Dedup
import CS162.MapReduce.CoordinatorConservation
import CS162.MapReduce.CoordinatorQueue

/-!
Success reports delivered in any order and any number of times. A delivery counts
whether or not its task was reported before, and a job that is done counts no more.
So what the deliveries leave is decided job by job, and for each by how many of its
reduce reports are distinct.
-/

namespace CS162.MapReduce
open CS162.Library

/-- The FINISH_TASK requests of a list, one after the other. -/
def finishAll (s : Coordinator) (deliveries : List FinishTaskRequest) : Except Fault Coordinator :=
  deliveries.foldlM finishTask s

/-- The same job states, queue and POLL_JOB answers. -/
def Coordinator.Same (s t : Coordinator) : Prop :=
  s.allJob = t.allJob ∧ s.waitingQueue = t.waitingQueue ∧ ∀ id, (pollJob s id).2 = (pollJob t id).2

/-- The deliveries leave what the distinct ones of them leave, each processed once,
in whatever order. -/
def OnceEach (s : Coordinator) (deliveries : List FinishTaskRequest) : Prop :=
  ∀ distinct : List FinishTaskRequest, distinct.Nodup → (∀ r, r ∈ distinct ↔ r ∈ deliveries) →
    ∃ t t', finishAll s deliveries = .ok t ∧ finishAll s distinct = .ok t' ∧ t.Same t'

/-- A success report of a task that was handed out. -/
def World.reportable (w : World) (r : FinishTaskRequest) : Prop :=
  r.success = true ∧ handedOut w.log r.jobId r.reduce r.task = true

/-- A success report that leaves its job undone. -/
def Job.record (job : Job) (r : FinishTaskRequest) : Job :=
  { job.count r.reduce with mem := job.mem.map fun mem => mem.mark r.reduce r.task.toNat }

/-- What a success report makes of the job it names. -/
def Job.deliver (job : Job) (r : FinishTaskRequest) : Job :=
  if job.done then job
  else if r.reduce = true ∧ job.reduceFinished + 1 = job.nReduce then
    { job.count true with done := true, failed := false, mem := none }
  else job.record r

def Job.deliverAll (job : Job) (reports : List FinishTaskRequest) : Job := reports.foldl Job.deliver job

/-- The reports, each processed once, complete the job. -/
def Job.CompletedBy (job : Job) (reports : List FinishTaskRequest) : Prop :=
  let reduces := (reports.filter FinishTaskRequest.reduce).dedup.length
  0 < reduces ∧ job.nReduce ≤ job.reduceFinished + reduces

/-- When the reports complete the job, none of them is of a map task; else none is
there twice. -/
def Job.Repeatable (job : Job) (reports : List FinishTaskRequest) : Prop :=
  (job.CompletedBy reports → ∀ r ∈ reports, r.reduce = true) ∧ (¬ job.CompletedBy reports → reports.Nodup)

section Run
variable {w : World} {r : FinishTaskRequest}

theorem finishTask_deliver (h : Consistent w) (named : w.reportable r) :
    ∃ t, finishTask w.coord r = .ok t ∧ Effect 0 w.coord (.finishTask r) .finished t ∧
      t.pollReply = w.coord.pollReply ∧ ∀ id, t.allJob id =
        if r.jobId = id then (w.coord.allJob id).map fun job => job.deliver r else w.coord.allJob id := by
  obtain ⟨success, handed⟩ := named
  obtain ⟨t, ok⟩ := h.finishTask_ok handed
  have effect : Effect 0 w.coord (.finishTask r) .finished t := finishTask_effect h.undone ok
  have polled : t.pollReply = w.coord.pollReply := by
    cases effect <;> rfl
  refine ⟨t, ok, effect, polled, fun id => ?_⟩
  by_cases mine : r.jobId = id
  case neg =>
    rw [if_neg mine]
    cases effect with
    | ignore _ gone => rfl
    | fail _ job queued found failure => exact Coordinator.setJob_of_ne _ _ (Ne.symm mine)
    | report _ job mem i queued found live success index inside more =>
        exact Coordinator.setJob_of_ne _ _ (Ne.symm mine)
    | complete _ job mem i queued found live success reduce index inside last =>
        exact Coordinator.setJob_of_ne _ _ (Ne.symm mine)
  case pos =>
    subst mine
    rw [if_pos rfl]
    cases effect with
    | ignore _ gone =>
        cases found : w.coord.allJob r.jobId with
        | none => rfl
        | some job =>
            have ended : job.done = true := by
              by_contra undone
              exact gone ((h.queued _).mpr ⟨job, found, by simpa using undone⟩)
            rw [Option.map_some, Job.deliver, if_pos ended]
    | fail _ job queued found failure =>
        rw [success] at failure
        cases failure
    | report _ job mem i queued found live success index inside more =>
        rw [found, Option.map_some, Coordinator.setJob_self, Job.deliver, if_neg (by simp [more.1]),
          if_neg (fun last => more.2 last.1 last.2), Job.record, live, index]
        rfl
    | complete _ job mem i queued found live success reduce index inside last =>
        have undone := h.undone _ queued job found
        rw [found, Option.map_some, Job.deliver, if_neg (by simp [undone]), if_pos ⟨reduce, last⟩]
        exact Coordinator.setJob_self _ _ _

theorem World.reportable.cons {e : Event} (named : w.reportable r) (coord : Coordinator) :
    (World.mk coord (e :: w.log)).reportable r :=
  ⟨named.1, by simp [named.2]⟩

/-- The deliveries are processed without a fault. Each job of the table gets those that
name it, and the queue is what then is not done. -/
theorem finishAll_deliverAll (h : Consistent w) (q : Queued w) {deliveries : List FinishTaskRequest}
    (named : ∀ r ∈ deliveries, w.reportable r) :
    ∃ t, finishAll w.coord deliveries = .ok t ∧ t.pollReply = w.coord.pollReply ∧
      t.waitingQueue = (accepted w.log).filter t.undone ∧ ∀ id, t.allJob id = (w.coord.allJob id).map fun job =>
        job.deliverAll (deliveries.filter fun r => r.jobId = id) := by
  induction deliveries generalizing w with
  | nil => exact ⟨w.coord, rfl, rfl, q.queue, fun id => Option.map_id'.symm⟩
  | cons r deliveries ih =>
      obtain ⟨s, ok, effect, polled, jobs⟩ := finishTask_deliver h (named r List.mem_cons_self)
      have names : w.names (.finishTask r) = true := (named r List.mem_cons_self).2
      obtain ⟨t, ok', polled', queue, jobs'⟩ := ih (h.effect (c := ⟨0, .finishTask r⟩) names effect)
        (h.queued_effect q effect) fun r' hr => (named r' (List.mem_cons_of_mem _ hr)).cons s
      refine ⟨t, ?_, polled'.trans polled, ?_, fun id => ?_⟩
      · rw [finishAll, List.foldlM_cons, ok]
        exact ok'
      · rw [queue, accepted_cons]
        simp [Event.accepted?]
      · rw [jobs' id, jobs id]
        by_cases mine : r.jobId = id
        · rw [if_pos mine, Option.map_map, List.filter_cons_of_pos (by simpa using mine)]
          rfl
        · rw [if_neg mine, List.filter_cons_of_neg (by simpa using mine)]

end Run

section Job
variable {job : Job} {reports : List FinishTaskRequest} {r : FinishTaskRequest}

theorem JobMemory.mark_comm (mem : JobMemory) (r r' : Bool) (i j : Nat) :
    (mem.mark r i).mark r' j = (mem.mark r' j).mark r i := by
  have modify_comm (table : List Task) :
      (table.modify i fun t => { t with success := true }).modify j (fun t => { t with success := true }) =
        (table.modify j fun t => { t with success := true }).modify i fun t => { t with success := true } := by
    apply List.ext_getElem?
    intro k
    simp only [List.getElem?_modify, Option.map_eq_map]
    cases table[k]? with
    | none => rfl
    | some t => split <;> split <;> rfl
  cases r <;> cases r' <;> simp [JobMemory.mark, JobMemory.setTable, JobMemory.table, modify_comm]

/-- The arrays after these reports, none of which completes the job. -/
def JobMemory.markAll (mem : JobMemory) (reports : List FinishTaskRequest) : JobMemory :=
  reports.foldl (fun mem r => mem.mark r.reduce r.task.toNat) mem

theorem JobMemory.markAll_perm (mem : JobMemory) {reports' : List FinishTaskRequest}
    (h : reports.Perm reports') : mem.markAll reports = mem.markAll reports' := by
  have comm : RightCommutative fun (mem : JobMemory) (r : FinishTaskRequest) =>
      mem.mark r.reduce r.task.toNat := ⟨fun mem r r' => mem.mark_comm _ _ _ _⟩
  exact h.foldl_eq mem

theorem deliverAll_of_done (ended : job.done = true) : job.deliverAll reports = job := by
  induction reports with
  | nil => rfl
  | cons r reports ih =>
      rw [Job.deliverAll, List.foldl_cons, Job.deliver, if_pos ended]
      exact ih

@[simp] theorem Job.record_done (job : Job) (r : FinishTaskRequest) : (job.record r).done = job.done := by
  cases phase : r.reduce <;> simp [Job.record, Job.count, phase]

theorem deliverAll_cons (undone : job.done = false)
    (more : ¬ (r.reduce = true ∧ job.reduceFinished + 1 = job.nReduce)) :
    job.deliverAll (r :: reports) = (job.record r).deliverAll reports := by
  rw [Job.deliverAll, List.foldl_cons, Job.deliver, if_neg (by simp [undone]), if_neg more]
  rfl

theorem deliverAll_of_more (undone : job.done = false)
    (more : reports.countP FinishTaskRequest.reduce = 0 ∨
      job.reduceFinished + reports.countP FinishTaskRequest.reduce < job.nReduce) :
    job.deliverAll reports =
      { job with mapFinished := job.mapFinished + reports.countP (fun r => !r.reduce),
                 reduceFinished := job.reduceFinished + reports.countP FinishTaskRequest.reduce,
                 mem := job.mem.map fun mem => mem.markAll reports } := by
  induction reports generalizing job with
  | nil => simp [Job.deliverAll, JobMemory.markAll]
  | cons r reports ih =>
      cases phase : r.reduce with
      | false =>
          rw [List.countP_cons_of_neg (by simp [phase])] at more
          rw [deliverAll_cons undone (fun last => absurd (last.1.symm.trans phase) Bool.noConfusion)]
          have undone' : (job.record r).done = false := (job.record_done r).trans undone
          rw [ih undone' (by simpa [Job.record, Job.count, phase] using more)]
          simp [Job.record, Job.count, phase, JobMemory.markAll, Function.comp_def]
          omega
      | true =>
          rw [List.countP_cons_of_pos phase] at more
          rw [deliverAll_cons undone (fun last => by omega)]
          have undone' : (job.record r).done = false := (job.record_done r).trans undone
          have more' : job.reduceFinished + 1 + reports.countP FinishTaskRequest.reduce < job.nReduce := by omega
          rw [ih undone' (.inr (by simpa [Job.record, Job.count, phase] using more'))]
          simp [Job.record, Job.count, phase, JobMemory.markAll, Function.comp_def]
          omega

/-- How many map reports come before so many reduce reports. -/
def mapsBefore : Nat → List FinishTaskRequest → Nat
  | 0, _ => 0
  | _, [] => 0
  | n + 1, r :: reports => if r.reduce then mapsBefore n reports else mapsBefore (n + 1) reports + 1

theorem deliverAll_of_complete {n : Nat} (undone : job.done = false)
    (lacking : job.reduceFinished + (n + 1 : Nat) = job.nReduce)
    (enough : n + 1 ≤ reports.countP FinishTaskRequest.reduce) :
    job.deliverAll reports =
      { job with mapFinished := job.mapFinished + mapsBefore (n + 1) reports,
                 reduceFinished := job.nReduce, done := true, failed := false, mem := none } := by
  induction reports generalizing job n with
  | nil => exact absurd enough (Nat.not_succ_le_zero n)
  | cons r reports ih =>
      cases phase : r.reduce with
      | false =>
          rw [List.countP_cons_of_neg (by simp [phase])] at enough
          rw [deliverAll_cons undone (fun last => absurd (last.1.symm.trans phase) Bool.noConfusion)]
          have undone' : (job.record r).done = false := (job.record_done r).trans undone
          rw [ih undone' (by simpa [Job.record, Job.count, phase] using lacking) enough]
          simp [Job.record, Job.count, phase, mapsBefore]
          omega
      | true =>
          rw [List.countP_cons_of_pos phase] at enough
          cases n with
          | zero =>
              rw [Job.deliverAll, List.foldl_cons, Job.deliver, if_neg (by simp [undone]), if_pos ⟨phase, lacking⟩]
              refine (deliverAll_of_done rfl).trans ?_
              simp only [Job.count, if_true, mapsBefore, phase]
              rw [← lacking]
              simp
          | succ n =>
              rw [deliverAll_cons undone (fun last => by omega)]
              have undone' : (job.record r).done = false := (job.record_done r).trans undone
              have lacking' : job.reduceFinished + 1 + (n + 1 : Nat) = job.nReduce := by omega
              rw [ih undone' (by simpa [Job.record, Job.count, phase] using lacking') (by omega)]
              simp [Job.record, Job.count, phase, mapsBefore]

end Job

section Compare
variable {job : Job} {reports distinct : List FinishTaskRequest} {n : Nat}

theorem mapsBefore_append_of_maps {front : List FinishTaskRequest} (maps : ∀ r ∈ front, r.reduce = false) :
    mapsBefore (n + 1) (front ++ reports) = mapsBefore (n + 1) reports + front.length := by
  induction front with
  | nil => rfl
  | cons r front ih =>
      have first : r.reduce = false := maps r List.mem_cons_self
      simp only [List.cons_append, mapsBefore, first, Bool.false_eq_true, if_false, List.length_cons]
      rw [ih fun r' hr => maps r' (List.mem_cons_of_mem _ hr)]
      omega

theorem mapsBefore_append_of_reduces {front : List FinishTaskRequest} (reduces : ∀ r ∈ front, r.reduce = true)
    (enough : n ≤ front.length) : mapsBefore n (front ++ reports) = 0 := by
  induction front generalizing n with
  | nil =>
      rw [Nat.le_zero.mp enough]
      cases reports <;> rfl
  | cons r front ih =>
      cases n with
      | zero => rfl
      | succ n =>
          have first : r.reduce = true := reduces r List.mem_cons_self
          simp only [List.cons_append, mapsBefore, first, if_true]
          exact ih (fun r' hr => reduces r' (List.mem_cons_of_mem _ hr)) (Nat.le_of_succ_le_succ enough)

theorem countP_distinct (nodup : distinct.Nodup) (same : ∀ r, r ∈ distinct ↔ r ∈ reports) :
    distinct.countP FinishTaskRequest.reduce = (reports.filter FinishTaskRequest.reduce).dedup.length := by
  rw [List.countP_eq_length_filter]
  apply List.Perm.length_eq
  refine (List.perm_ext_iff_of_nodup (nodup.filter _) (List.nodup_dedup _)).mpr fun r => ?_
  rw [List.mem_dedup, List.mem_filter, List.mem_filter, same r]

theorem countP_dedup_le (reports : List FinishTaskRequest) :
    (reports.filter FinishTaskRequest.reduce).dedup.length ≤ reports.countP FinishTaskRequest.reduce := by
  rw [List.countP_eq_length_filter]
  exact (List.dedup_sublist _).length_le

/-- With a map report among them, reports that complete a job leave a map counter that
depends on the order. -/
theorem order_matters (undone : job.done = false) (short : job.reduceFinished < job.nReduce)
    (complete : job.CompletedBy reports) (map : ∃ r ∈ reports, r.reduce = false) :
    ¬ ∀ distinct : List FinishTaskRequest, distinct.Nodup → (∀ r, r ∈ distinct ↔ r ∈ reports) →
      job.deliverAll reports = job.deliverAll distinct := by
  intro all
  obtain ⟨n, lacking⟩ : ∃ n : Nat, job.reduceFinished + (n + 1 : Nat) = job.nReduce :=
    ⟨(job.nReduce - job.reduceFinished - 1).toNat, by omega⟩
  let maps := (reports.filter fun r => !r.reduce).dedup
  let reduces := (reports.filter FinishTaskRequest.reduce).dedup
  have is_map : ∀ r ∈ maps, r.reduce = false := by
    intro r hr
    simpa using (List.mem_filter.mp (List.mem_dedup.mp hr)).2
  have is_reduce : ∀ r ∈ reduces, r.reduce = true := by
    intro r hr
    exact (List.mem_filter.mp (List.mem_dedup.mp hr)).2
  have apart : maps.Disjoint reduces := by
    intro r hm hr
    exact absurd ((is_map r hm).symm.trans (is_reduce r hr)) Bool.noConfusion
  have members (r : FinishTaskRequest) : r ∈ maps ∨ r ∈ reduces ↔ r ∈ reports := by
    simp only [maps, reduces, List.mem_dedup, List.mem_filter]
    cases r.reduce <;> simp
  have enough : n + 1 ≤ reduces.length := by
    have all_lacking : job.nReduce ≤ job.reduceFinished + reduces.length := complete.2
    omega
  have enough_of {list : List FinishTaskRequest} (nodup : list.Nodup) (same : ∀ r, r ∈ list ↔ r ∈ reports) :
      n + 1 ≤ list.countP FinishTaskRequest.reduce := by
    rw [countP_distinct nodup same]
    exact enough
  -- All maps first are all counted, after all reduces none is.
  have nodup := (List.nodup_dedup _).append (List.nodup_dedup _) apart
  have nodup' := (List.nodup_dedup _).append (List.nodup_dedup _) apart.symm
  have same (r : FinishTaskRequest) : r ∈ maps ++ reduces ↔ r ∈ reports := by
    rw [List.mem_append, members r]
  have same' (r : FinishTaskRequest) : r ∈ reduces ++ maps ↔ r ∈ reports := by
    rw [List.mem_append, or_comm, members r]
  have equal := (all _ nodup same).symm.trans (all _ nodup' same')
  rw [deliverAll_of_complete undone lacking (enough_of nodup same),
    deliverAll_of_complete undone lacking (enough_of nodup' same')] at equal
  have counters := congrArg Job.mapFinished equal
  simp only at counters
  rw [mapsBefore_append_of_maps is_map, mapsBefore_append_of_reduces is_reduce enough] at counters
  obtain ⟨r, hr, phase⟩ := map
  have some_map : 0 < maps.length := by
    apply List.length_pos_of_mem (a := r)
    exact List.mem_dedup.mpr (List.mem_filter.mpr ⟨hr, by simp [phase]⟩)
  omega

theorem length_eq_countP_add (reports : List FinishTaskRequest) :
    reports.length = reports.countP FinishTaskRequest.reduce + reports.countP (fun r => !r.reduce) := by
  rw [List.length_eq_countP_add_countP FinishTaskRequest.reduce]
  simp

/-- Where the distinct reports do not complete the job, each delivery counts. -/
theorem nodup_of_same (undone : job.done = false)
    (short : 0 < reports.countP FinishTaskRequest.reduce → job.reduceFinished < job.nReduce)
    (incomplete : ¬ job.CompletedBy reports)
    (same : job.deliverAll reports = job.deliverAll reports.dedup) : reports.Nodup := by
  have distinct := countP_distinct (List.nodup_dedup reports) fun r => List.mem_dedup
  have more : reports.dedup.countP FinishTaskRequest.reduce = 0 ∨
      job.reduceFinished + reports.dedup.countP FinishTaskRequest.reduce < job.nReduce := by
    by_contra none_left
    refine incomplete ⟨?_, ?_⟩ <;> omega
  rw [deliverAll_of_more undone more] at same
  by_cases more' : reports.countP FinishTaskRequest.reduce = 0 ∨
      job.reduceFinished + reports.countP FinishTaskRequest.reduce < job.nReduce
  case pos =>
    rw [deliverAll_of_more undone more'] at same
    have maps := congrArg Job.mapFinished same
    have reduces := congrArg Job.reduceFinished same
    simp only at maps reduces
    have length := length_eq_countP_add reports
    have length' := length_eq_countP_add reports.dedup
    have whole := (List.dedup_sublist reports).eq_of_length (by omega)
    exact List.dedup_eq_self.mp whole
  case neg =>
    obtain ⟨n, lacking⟩ : ∃ n : Nat, job.reduceFinished + (n + 1 : Nat) = job.nReduce :=
      ⟨(job.nReduce - job.reduceFinished - 1).toNat, by omega⟩
    rw [deliverAll_of_complete undone lacking (by omega)] at same
    have ended := congrArg Job.done same
    simp only [undone] at ended
    cases ended

theorem deliverAll_eq_of_repeatable (undone : job.done = false)
    (short : 0 < reports.countP FinishTaskRequest.reduce → job.reduceFinished < job.nReduce)
    (repeatable : job.Repeatable reports) (nodup : distinct.Nodup)
    (same : ∀ r, r ∈ distinct ↔ r ∈ reports) : job.deliverAll reports = job.deliverAll distinct := by
  have count := countP_distinct nodup same
  have count_le := countP_dedup_le reports
  by_cases complete : job.CompletedBy reports
  case pos =>
    have reduces := repeatable.1 complete
    have some_left : 0 < (reports.filter FinishTaskRequest.reduce).dedup.length := complete.1
    have all_lacking : job.nReduce ≤
      job.reduceFinished + (reports.filter FinishTaskRequest.reduce).dedup.length := complete.2
    obtain ⟨n, lacking⟩ : ∃ n : Nat, job.reduceFinished + (n + 1 : Nat) = job.nReduce :=
      ⟨(job.nReduce - job.reduceFinished - 1).toNat, by omega⟩
    have no_maps {list : List FinishTaskRequest} (all : ∀ r ∈ list, r ∈ reports)
        (enough : n + 1 ≤ list.countP FinishTaskRequest.reduce) : mapsBefore (n + 1) list = 0 := by
      rw [← List.append_nil list]
      exact mapsBefore_append_of_reduces (fun r hr => reduces r (all r hr))
        (enough.trans List.countP_le_length)
    have enough : n + 1 ≤ reports.countP FinishTaskRequest.reduce := by omega
    have enough' : n + 1 ≤ distinct.countP FinishTaskRequest.reduce := by omega
    rw [deliverAll_of_complete undone lacking enough, deliverAll_of_complete undone lacking enough',
      no_maps (fun _ hr => hr) enough, no_maps (fun r hr => (same r).mp hr) enough']
  case neg =>
    have perm := (List.perm_ext_iff_of_nodup (repeatable.2 complete) nodup).mpr fun r => (same r).symm
    have more : distinct.countP FinishTaskRequest.reduce = 0 ∨
        job.reduceFinished + distinct.countP FinishTaskRequest.reduce < job.nReduce := by
      by_contra none_left
      refine complete ⟨?_, ?_⟩ <;> omega
    have more' := more
    rw [← perm.countP_eq] at more'
    rw [deliverAll_of_more undone more, deliverAll_of_more undone more', perm.countP_eq, perm.countP_eq]
    congr 1
    exact congrArg (Option.map · job.mem) (funext fun mem => mem.markAll_perm perm)

end Compare

/-- An unfinished job that has reduce tasks still waits for a reduce report. -/
def ReduceLacking (w : World) : Prop :=
  ∀ id job, w.coord.allJob id = some job → job.done = false → 0 < job.nReduce →
    job.reduceFinished < job.nReduce

theorem reduceLacking {w : World} (h : anyClock.Reachable w) : ReduceLacking w := by
  refine h.invariant_of_reachable (fun w start => ?_) fun w c w' reach lacking hs => ?_
  · subst start
    intro id job hj
    cases hj
  · have hc := anyClock_consistent reach
    obtain ⟨reply, coord, names, effect, rfl⟩ := step_effect hc hs
    intro id job' hj hd positive
    obtain ⟨req, -, -, fresh⟩ | ⟨job, found, undone, size, next⟩ := hc.reduces_step effect hj hd
    · subst fresh
      exact positive
    · exact next (lacking id job found undone (size ▸ positive))

section Deliveries
variable {w : World} {deliveries : List FinishTaskRequest}

/-- What two lists of deliveries leave is the same when they make the same of each job. -/
theorem same_iff (h : anyClock.Reachable w) {deliveries' : List FinishTaskRequest}
    (named : ∀ r ∈ deliveries, w.reportable r) (named' : ∀ r ∈ deliveries', w.reportable r) :
    (∃ t t', finishAll w.coord deliveries = .ok t ∧ finishAll w.coord deliveries' = .ok t' ∧ t.Same t') ↔
      ∀ id job, w.coord.allJob id = some job → job.deliverAll (deliveries.filter fun r => r.jobId = id) =
        job.deliverAll (deliveries'.filter fun r => r.jobId = id) := by
  have lawful := anyClock_lawful h
  obtain ⟨t, ok, polled, queue, jobs⟩ := finishAll_deliverAll lawful.consistent lawful.queued named
  obtain ⟨t', ok', polled', queue', jobs'⟩ := finishAll_deliverAll lawful.consistent lawful.queued named'
  constructor
  · intro both id job found
    obtain ⟨s, s', done, done', same⟩ := both
    cases ok.symm.trans done
    cases ok'.symm.trans done'
    have entry := congrFun same.1 id
    rw [jobs id, jobs' id, found] at entry
    exact Option.some.inj entry
  · intro each
    have table : t.allJob = t'.allJob := by
      funext id
      rw [jobs id, jobs' id]
      cases found : w.coord.allJob id with
      | none => rfl
      | some job => exact congrArg some (each id job found)
    have undone : t.undone = t'.undone := by
      funext id
      rw [Coordinator.undone, Coordinator.undone, table]
    refine ⟨t, t', ok, ok', table, ?_, fun id => ?_⟩
    · rw [queue, queue', undone]
    · simp only [pollJob, table, polled, polled']

/-- The distinct deliveries can be listed with those of one job in any order. -/
theorem same_of_mine {id : Int} {mine : List FinishTaskRequest} (nodup : mine.Nodup)
    (same : ∀ r, r ∈ mine ↔ r ∈ deliveries.filter fun r => r.jobId = id) :
    ∃ distinct : List FinishTaskRequest, distinct.Nodup ∧ (∀ r, r ∈ distinct ↔ r ∈ deliveries) ∧
      distinct.filter (fun r => r.jobId = id) = mine := by
  let others := (deliveries.filter fun r => ¬ r.jobId = id).dedup
  have is_mine : ∀ r ∈ mine, r.jobId = id := by
    intro r hr
    simpa using (List.mem_filter.mp ((same r).mp hr)).2
  have is_other : ∀ r ∈ others, ¬ r.jobId = id := by
    intro r hr
    simpa using (List.mem_filter.mp (List.mem_dedup.mp hr)).2
  refine ⟨mine ++ others, ?_, fun r => ?_, ?_⟩
  · refine nodup.append (List.nodup_dedup _) ?_
    intro r hr other
    exact is_other r other (is_mine r hr)
  · rw [List.mem_append, same r, List.mem_dedup, List.mem_filter, List.mem_filter]
    by_cases named : r.jobId = id <;> simp [named]
  · rw [List.filter_append, List.filter_eq_self.mpr (fun r hr => by simpa using is_mine r hr),
      List.filter_eq_nil_iff.mpr (fun r hr => by simpa using is_other r hr), List.append_nil]

/-- From any state, deliveries in any order and number leave what each distinct one
leaves exactly when those of each queued job may be repeated. -/
theorem onceEach_iff (h : anyClock.Reachable w) (named : ∀ r ∈ deliveries, w.reportable r) :
    OnceEach w.coord deliveries ↔ ∀ id ∈ w.coord.waitingQueue, ∀ job, w.coord.allJob id = some job →
      job.Repeatable (deliveries.filter fun r => r.jobId = id) := by
  have hc := anyClock_consistent h
  have short {id : Int} {job : Job} (found : w.coord.allJob id = some job) (undone : job.done = false)
      (some_reduce : 0 < (deliveries.filter fun r => r.jobId = id).countP FinishTaskRequest.reduce) :
      job.reduceFinished < job.nReduce := by
    obtain ⟨r, hr, phase⟩ := List.countP_pos_iff.mp some_reduce
    obtain ⟨listed, is_mine⟩ := List.mem_filter.mp hr
    obtain ⟨job', found', lower, upper⟩ := hc.handed _ _ _ (named r listed).2
    rw [of_decide_eq_true is_mine] at found'
    cases found.symm.trans found'
    rw [phase] at upper
    exact reduceLacking h id job found undone (lower.trans_lt upper)
  have named_of {distinct : List FinishTaskRequest} (same : ∀ r, r ∈ distinct ↔ r ∈ deliveries) :
      ∀ r ∈ distinct, w.reportable r := fun r hr => named r ((same r).mp hr)
  constructor
  · intro once id queued job found
    have undone := hc.undone id queued job found
    have mine (list : List FinishTaskRequest) (nodup : list.Nodup)
        (same : ∀ r, r ∈ list ↔ r ∈ deliveries.filter fun r => r.jobId = id) :
        job.deliverAll (deliveries.filter fun r => r.jobId = id) = job.deliverAll list := by
      obtain ⟨distinct, nodup', same', rfl⟩ := same_of_mine nodup same
      exact (same_iff h named (named_of same')).mp (once distinct nodup' same') id job found
    constructor
    · intro complete
      by_contra some_map
      simp only [not_forall, Bool.not_eq_true] at some_map
      obtain ⟨r, hr, phase⟩ := some_map
      have some_reduce := complete.1.trans_le (countP_dedup_le _)
      exact order_matters undone (short found undone some_reduce) complete ⟨r, hr, phase⟩ mine
    · intro incomplete
      exact nodup_of_same undone (short found undone) incomplete
        (mine _ (List.nodup_dedup _) fun r => List.mem_dedup)
  · intro all distinct nodup same
    refine (same_iff h named (named_of same)).mpr fun id job found => ?_
    cases ended : job.done with
    | true => rw [deliverAll_of_done ended, deliverAll_of_done ended]
    | false =>
        have queued := (hc.queued id).mpr ⟨job, found, ended⟩
        refine deliverAll_eq_of_repeatable ended (short found ended) (all id queued job found)
          (nodup.filter _) fun r => ?_
        rw [List.mem_filter, List.mem_filter, same r]

end Deliveries

instance decidableCompletedBy (job : Job) (reports : List FinishTaskRequest) :
    Decidable (job.CompletedBy reports) :=
  inferInstanceAs (Decidable (_ ∧ _))

instance decidableRepeatable (job : Job) (reports : List FinishTaskRequest) :
    Decidable (job.Repeatable reports) :=
  inferInstanceAs (Decidable (_ ∧ _))

/-- Job 1 has had its map task and both of its reduce tasks are handed out; job 2 has its two
map tasks handed out. -/
def twoJobs : List Call :=
  [⟨1, .submitJob (wordCount ["a"] 2)⟩, ⟨1, .getTask⟩, ⟨2, .finishTask ⟨1, 0, false, true⟩⟩,
    ⟨2, .getTask⟩, ⟨2, .getTask⟩, ⟨3, .submitJob (wordCount ["b", "c"] 1)⟩, ⟨3, .getTask⟩, ⟨3, .getTask⟩]

/-- The reduce reports of job 1, twice and three times, around the map reports of job 2. -/
def repeatedReports : List FinishTaskRequest :=
  [⟨1, 1, true, true⟩, ⟨2, 1, false, true⟩, ⟨1, 1, true, true⟩, ⟨1, 0, true, true⟩, ⟨2, 0, false, true⟩,
    ⟨1, 1, true, true⟩, ⟨1, 0, true, true⟩]

/-- Both jobs are queued, the reports are of tasks handed out, and those of each job may be repeated. -/
def World.acceptsReports (w : World) : Bool :=
  w.coord.waitingQueue = [1, 2] &&
    (repeatedReports.all fun r => r.success && handedOut w.log r.jobId r.reduce r.task) &&
    w.coord.waitingQueue.all fun id => (w.coord.allJob id).all fun job =>
      decide (job.Repeatable (repeatedReports.filter fun r => r.jobId = id))

theorem onceEach_of_repeatedReports : ∃ w : World, w.coord.waitingQueue = [1, 2] ∧
    (∀ r ∈ repeatedReports, w.reportable r) ∧ OnceEach w.coord repeatedReports := by
  obtain ⟨w, hr, hp⟩ := System.exists_reachable (· = World.initial) World.serve World.acceptsReports rfl
    twoJobs (by decide)
  simp only [World.acceptsReports, Bool.and_eq_true, List.all_eq_true, Option.all_eq_true,
    decide_eq_true_eq] at hp
  exact ⟨w, hp.1.1, hp.1.2, (onceEach_iff hr hp.1.2).mpr hp.2⟩

/-- Two files; the report of map task 0 comes twice, and the map counter reaches 2. -/
theorem not_onceEach_of_repeated : ¬ ∀ w, mapReduce.Reachable w → ∀ deliveries,
    (∀ r ∈ deliveries, w.reportable r) → OnceEach w.coord deliveries := by
  intro all
  obtain ⟨w, hr, hp⟩ := System.exists_reachable (· = World.initial) World.next
    (fun w => handedOut w.log 1 false 0 && (w.coord.allJob 1).any fun job => !job.done)
    rfl [⟨1, .submitJob (wordCount ["a", "b"] 1)⟩, ⟨1, .getTask⟩] (by decide)
  simp only [Bool.and_eq_true, Option.any_eq_true, Bool.not_eq_true'] at hp
  obtain ⟨handed, job, found, undone⟩ := hp
  have report : w.reportable ⟨1, 0, false, true⟩ := ⟨rfl, handed⟩
  have once : ∀ r ∈ [(⟨1, 0, false, true⟩ : FinishTaskRequest)], w.reportable r := by
    intro r inside
    cases List.mem_singleton.mp inside
    exact report
  have twice : ∀ r ∈ [(⟨1, 0, false, true⟩ : FinishTaskRequest), ⟨1, 0, false, true⟩], w.reportable r := by
    intro r inside
    cases inside with
    | head => exact report
    | tail _ inside => exact once r inside
  have same := (same_iff (anyClock_of_mapReduce hr) twice once).mp
    (all w hr _ twice _ (List.nodup_singleton _) fun r => by simp) 1 job found
  rw [deliverAll_of_more undone (.inl rfl), deliverAll_of_more undone (.inl rfl)] at same
  have counters := congrArg Job.mapFinished same
  simp at counters

end CS162.MapReduce
