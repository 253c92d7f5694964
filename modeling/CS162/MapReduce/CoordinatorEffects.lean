import CS162.Library.Outcome
import CS162.MapReduce.Coordinator

/-!
What one request can do to the coordinator. `Effect` lists the possible changes
once, guards included; every invariant is proved against this list and never
unfolds a handler. The table and counter of the two phases are told apart by the
`reduce` flag throughout.
-/

namespace CS162.MapReduce
open CS162.Library

@[simp] theorem JobMemory.table_setTable (mem : JobMemory) (r : Bool) (t : List Task) :
    (mem.setTable r t).table r = t := by
  cases r <;> rfl

theorem JobMemory.table_setTable_of_ne (mem : JobMemory) {r r' : Bool} (t : List Task)
    (h : r' ≠ r) : (mem.setTable r t).table r' = mem.table r' := by
  cases r <;> cases r' <;> first | rfl | exact absurd rfl h

@[simp] theorem JobMemory.files_setTable (mem : JobMemory) (r : Bool) (t : List Task) :
    (mem.setTable r t).files = mem.files := by
  cases r <;> rfl

@[simp] theorem Coordinator.setJob_self (s : Coordinator) (id : Int) (job : Job) :
    (s.setJob id job).allJob id = some job := by
  simp [Coordinator.setJob]

theorem Coordinator.setJob_of_ne (s : Coordinator) {id id' : Int} (job : Job) (h : id' ≠ id) :
    (s.setJob id job).allJob id' = s.allJob id' := by
  simp [Coordinator.setJob, h]

@[simp] theorem Coordinator.setJob_nextId (s : Coordinator) (id : Int) (job : Job) :
    (s.setJob id job).nextId = s.nextId := rfl

@[simp] theorem Coordinator.setJob_waitingQueue (s : Coordinator) (id : Int) (job : Job) :
    (s.setJob id job).waitingQueue = s.waitingQueue := rfl

/-- The reply hands out this task of this job. -/
def Reply.handsOut : Reply → Int → Bool → Int → Bool
  | .task r, id, reduce, i => !r.wait && r.jobId == id && r.reduce == reduce && r.task == i
  | _, _, _, _ => false

/-- The job's arrays after one of its tasks has been handed out. -/
def JobMemory.assign (mem : JobMemory) (reduce : Bool) (i : Nat) (now : Int) : JobMemory :=
  mem.setTable reduce ((mem.table reduce).modify i fun t => { t with time := now })

def JobMemory.mark (mem : JobMemory) (reduce : Bool) (i : Nat) : JobMemory :=
  mem.setTable reduce ((mem.table reduce).modify i fun t => { t with success := true })

/-- One more success report has been counted. -/
def Job.count (job : Job) (reduce : Bool) : Job :=
  if reduce then { job with reduceFinished := job.reduceFinished + 1 }
  else { job with mapFinished := job.mapFinished + 1 }

/-- No task of the job passes the test, reduce tasks counting only once the map
counter stands at `n_map`. -/
def NoTask (test : Task → Bool) (job : Job) (mem : JobMemory) : Prop :=
  (∀ t ∈ mem.maps, test t = false) ∧
    (job.mapFinished = job.nMap → ∀ t ∈ mem.reduces, test t = false)

def newJob (s : Coordinator) (r : SubmitJobRequest) : Job where
  jobId := s.nextId + 1
  nReduce := r.nReduce
  mapFinished := 0
  reduceFinished := 0
  args := if r.args = "" then none else some r.args
  outputDir := r.outputDir
  app := r.app
  nMap := r.files.length
  done := false
  failed := false
  mem := some ⟨r.files, allocateTasks r.files.length, allocateTasks r.nReduce⟩

inductive Effect (now : Int) (s : Coordinator) : Request → Reply → Coordinator → Prop where
  | refuse (r : SubmitJobRequest) (unknown : r.app ∉ apps) :
      Effect now s (.submitJob r) (.submitted (-1)) { s with nextId := s.nextId + 1 }
  | accept (r : SubmitJobRequest) (known : r.app ∈ apps) :
      Effect now s (.submitJob r) (.submitted (s.nextId + 1))
        { s.setJob (s.nextId + 1) (newJob s r) with
          nextId := s.nextId + 1, waitingQueue := s.waitingQueue ++ [s.nextId + 1] }
  | poll (id : Int) (reply : PollJobReply)
      (known : ∀ job, s.allJob id = some job → reply = ⟨job.done, job.failed, false⟩)
      (unknown : s.allJob id = none → reply.invalidJobId = true) :
      Effect now s (.pollJob id) (.polled reply) { s with pollReply := reply }
  | wait (reply : GetTaskReply) (waits : reply.wait = true)
      (idle : ∀ id ∈ s.waitingQueue, ∃ job mem, s.allJob id = some job ∧ job.mem = some mem ∧
        NoTask (Task.expired now) job mem ∧ NoTask Task.unassigned job mem) :
      Effect now s .getTask (.task reply) { s with taskReply := reply }
  | assign (id : Int) (job : Job) (mem : JobMemory) (reduce : Bool) (i : Nat) (t : Task)
      (reply : GetTaskReply)
      (queued : id ∈ s.waitingQueue) (found : s.allJob id = some job)
      (live : job.mem = some mem) (entry : (mem.table reduce)[i]? = some t)
      (test : t.expired now = true ∨ t.unassigned = true)
      (phase : reduce = true → job.mapFinished = job.nMap)
      (hands : reply.wait = false ∧ reply.jobId = job.jobId ∧ reply.reduce = reduce ∧
        reply.task = i) :
      Effect now s .getTask (.task reply)
        { s.setJob id { job with mem := some (mem.assign reduce i now) } with taskReply := reply }
  | ignore (r : FinishTaskRequest) (gone : r.jobId ∉ s.waitingQueue) :
      Effect now s (.finishTask r) .finished s
  | fail (r : FinishTaskRequest) (job : Job) (queued : r.jobId ∈ s.waitingQueue)
      (found : s.allJob r.jobId = some job) (failure : r.success = false) :
      Effect now s (.finishTask r) .finished
        { s.setJob r.jobId { job with done := true, failed := true, mem := none } with
          waitingQueue := s.waitingQueue.erase r.jobId }
  | report (r : FinishTaskRequest) (job : Job) (mem : JobMemory) (i : Nat)
      (queued : r.jobId ∈ s.waitingQueue)
      (found : s.allJob r.jobId = some job) (live : job.mem = some mem)
      (success : r.success = true) (index : r.task = i) (inside : i < (mem.table r.reduce).length)
      (more : job.done = false ∧ (r.reduce = true → job.reduceFinished + 1 ≠ job.nReduce)) :
      Effect now s (.finishTask r) .finished
        (s.setJob r.jobId { job.count r.reduce with mem := some (mem.mark r.reduce i) })
  | complete (r : FinishTaskRequest) (job : Job) (mem : JobMemory) (i : Nat)
      (queued : r.jobId ∈ s.waitingQueue)
      (found : s.allJob r.jobId = some job) (live : job.mem = some mem)
      (success : r.success = true) (reduce : r.reduce = true) (index : r.task = i)
      (inside : i < mem.reduces.length) (last : job.reduceFinished + 1 = job.nReduce) :
      Effect now s (.finishTask r) .finished
        { s.setJob r.jobId { job.count true with done := true, failed := false, mem := none } with
          waitingQueue := s.waitingQueue.erase r.jobId }

theorem bind_ok {α β : Type} {x : Except Fault α} {f : α → Except Fault β}
    (hx : ∃ a, x = .ok a) (hf : ∀ a, x = .ok a → ∃ b, f a = .ok b) : ∃ b, x >>= f = .ok b := by
  obtain ⟨a, rfl⟩ := hx
  exact hf a rfl

theorem lookup_eq_ok {s : Coordinator} {id : Int} {job : Job} (h : s.lookup id = .ok job) :
    s.allJob id = some job := by
  cases hj : s.allJob id with
  | none => simp [Coordinator.lookup, hj] at h
  | some job' => simpa [Coordinator.lookup, hj] using h

theorem memory_eq_ok {job : Job} {mem : JobMemory} (h : job.memory = .ok mem) :
    job.mem = some mem := by
  cases hm : job.mem with
  | none => simp [Job.memory, hm] at h
  | some mem' => simpa [Job.memory, hm] using h

theorem initTaskReply_eq_ok {reply out : GetTaskReply} {job : Job} {mem : JobMemory} {i : Nat}
    {r : Bool} (h : initTaskReply reply job mem i r = .ok out) :
    out.wait = false ∧ out.jobId = job.jobId ∧ out.reduce = r ∧ out.task = i := by
  simp only [initTaskReply] at h
  repeat' split at h
  all_goals cases h
  all_goals exact ⟨rfl, rfl, rfl, rfl⟩

theorem assignTask_eq_ok {now : Int} {job job' : Job} {mem : JobMemory} {reply out : GetTaskReply}
    {r : Bool} {i : Nat} (h : assignTask now job mem reply r i = .ok (job', out)) :
    job' = { job with mem := some (mem.assign r i now) } ∧
      out.wait = false ∧ out.jobId = job.jobId ∧ out.reduce = r ∧ out.task = i := by
  obtain ⟨rep, hr, h⟩ := bind_eq_ok h
  cases h
  exact ⟨rfl, initTaskReply_eq_ok hr⟩

/-- A search that finds a task took the first matching entry of its phase. -/
theorem findTask_eq_some {test : Task → Bool} {now : Int} {job job' : Job}
    {reply out : GetTaskReply} (h : findTask test now job reply = .ok (some (job', out))) :
    ∃ mem r i t, job.mem = some mem ∧ (mem.table r)[i]? = some t ∧ test t = true ∧
      (r = true → job.mapFinished = job.nMap) ∧
      job' = { job with mem := some (mem.assign r i now) } ∧
      out.wait = false ∧ out.jobId = job.jobId ∧ out.reduce = r ∧ out.task = (i : Int) := by
  obtain ⟨mem, hm, h⟩ := bind_eq_ok h
  have found {r : Bool} {i : Nat} (hi : (mem.table r).findIdx? test = some i)
      (phase : r = true → job.mapFinished = job.nMap)
      (ha : assignTask now job mem reply r i = .ok (job', out)) :
      ∃ mem r i t, job.mem = some mem ∧ (mem.table r)[i]? = some t ∧ test t = true ∧
        (r = true → job.mapFinished = job.nMap) ∧
        job' = { job with mem := some (mem.assign r i now) } ∧
        out.wait = false ∧ out.jobId = job.jobId ∧ out.reduce = r ∧ out.task = (i : Int) := by
    obtain ⟨hlt, ht, _⟩ := List.findIdx?_eq_some_iff_getElem.mp hi
    exact ⟨mem, r, i, _, memory_eq_ok hm, List.getElem?_eq_getElem hlt, ht, phase,
      assignTask_eq_ok ha⟩
  cases hmap : mem.maps.findIdx? test with
  | some i =>
      simp only [hmap] at h
      obtain ⟨p, ha, h⟩ := bind_eq_ok h
      cases h
      exact found (r := false) hmap (fun h => nomatch h) ha
  | none =>
      simp only [hmap] at h
      split at h
      next phase =>
        cases hred : mem.reduces.findIdx? test with
        | some i =>
            simp only [hred] at h
            obtain ⟨p, ha, h⟩ := bind_eq_ok h
            cases h
            exact found (r := true) hred (fun _ => phase) ha
        | none => simp [hred, pure, Except.pure] at h
      next => simp [pure, Except.pure] at h

theorem findTask_eq_none {test : Task → Bool} {now : Int} {job : Job} {reply : GetTaskReply}
    (h : findTask test now job reply = .ok none) :
    ∃ mem, job.mem = some mem ∧ NoTask test job mem := by
  obtain ⟨mem, hm, h⟩ := bind_eq_ok h
  refine ⟨mem, memory_eq_ok hm, ?_⟩
  cases hmap : mem.maps.findIdx? test with
  | some i =>
      simp only [hmap] at h
      obtain ⟨_, _, h⟩ := bind_eq_ok h
      cases h
  | none =>
      refine ⟨List.findIdx?_eq_none_iff.mp hmap, ?_⟩
      intro phase
      simp only [hmap, phase, if_true] at h
      cases hred : mem.reduces.findIdx? test with
      | some i =>
          simp only [hred] at h
          obtain ⟨_, _, h⟩ := bind_eq_ok h
          cases h
      | none => exact List.findIdx?_eq_none_iff.mp hred

section Search
variable {find : Job → GetTaskReply → Except Fault (Option (Job × GetTaskReply))}
  {s : Coordinator} {reply : GetTaskReply}

theorem searchQueue_eq_some {s' : Coordinator} {out : GetTaskReply} {queue : List Int}
    (h : searchQueue find s reply queue = .ok (some (s', out))) :
    ∃ id ∈ queue, ∃ job job', s.allJob id = some job ∧ find job reply = .ok (some (job', out)) ∧
      s' = { s.setJob id job' with taskReply := out } := by
  induction queue with
  | nil => cases h
  | cons id queue ih =>
      obtain ⟨job, hl, h⟩ := bind_eq_ok h
      obtain ⟨found, hf, h⟩ := bind_eq_ok h
      cases found with
      | some p =>
          cases h
          exact ⟨id, List.mem_cons_self, job, p.1, lookup_eq_ok hl, hf, rfl⟩
      | none =>
          obtain ⟨id', hid, rest⟩ := ih h
          exact ⟨id', List.mem_cons_of_mem _ hid, rest⟩

theorem searchQueue_eq_none {queue : List Int} (h : searchQueue find s reply queue = .ok none) :
    ∀ id ∈ queue, ∃ job, s.allJob id = some job ∧ find job reply = .ok none := by
  induction queue with
  | nil => simp
  | cons id queue ih =>
      obtain ⟨job, hl, h⟩ := bind_eq_ok h
      obtain ⟨found, hf, h⟩ := bind_eq_ok h
      cases found with
      | some p => cases h
      | none =>
          intro id' hid
          cases hid with
          | head => exact ⟨job, lookup_eq_ok hl, hf⟩
          | tail _ hid => exact ih h id' hid

end Search

theorem getTask_effect {now : Int} {s s' : Coordinator} {out : GetTaskReply}
    (h : getTask now s = .ok (s', out)) : Effect now s .getTask (.task out) s' := by
  have assigned {test : Task → Bool} {reply : GetTaskReply}
      (weaker : ∀ t : Task, test t = true → t.expired now = true ∨ t.unassigned = true)
      (hs : searchQueue (findTask test now) s reply s.waitingQueue = .ok (some (s', out))) :
      Effect now s .getTask (.task out) s' := by
    obtain ⟨id, queued, job, job', found, hf, rfl⟩ := searchQueue_eq_some hs
    obtain ⟨mem, r, i, t, live, entry, ht, phase, rfl, hands⟩ := findTask_eq_some hf
    exact .assign id job mem r i t out queued found live entry (weaker t ht) phase hands
  obtain ⟨first, h1, h⟩ := bind_eq_ok h
  cases first with
  | some p =>
      cases h
      exact assigned (fun _ ht => .inl ht) h1
  | none =>
      obtain ⟨second, h2, h⟩ := bind_eq_ok h
      cases second with
      | some p =>
          cases h
          exact assigned (fun _ ht => .inr ht) h2
      | none =>
          cases h
          refine .wait _ rfl ?_
          intro id hid
          obtain ⟨job, hj, expired⟩ := searchQueue_eq_none h1 id hid
          obtain ⟨job', hj', unassigned⟩ := searchQueue_eq_none h2 id hid
          cases hj.symm.trans hj'
          obtain ⟨mem, hm, expired⟩ := findTask_eq_none expired
          obtain ⟨mem', hm', unassigned⟩ := findTask_eq_none unassigned
          cases hm.symm.trans hm'
          exact ⟨job, mem, hj, hm, expired, unassigned⟩

theorem markSuccess_eq_ok {table out : List Task} {task : Int}
    (h : markSuccess table task = .ok out) :
    ∃ i : Nat, task = i ∧ i < table.length ∧
      out = table.modify i fun t => { t with success := true } := by
  unfold markSuccess at h
  split at h
  next inside =>
    cases h
    exact ⟨task.toNat, by omega, by omega, rfl⟩
  next => cases h

theorem finishTask_effect {now : Int} {s s' : Coordinator} {r : FinishTaskRequest}
    (live : ∀ id ∈ s.waitingQueue, ∀ job, s.allJob id = some job → job.done = false)
    (h : finishTask s r = .ok s') : Effect now s (.finishTask r) .finished s' := by
  unfold finishTask at h
  split at h
  next gone =>
    cases h
    exact .ignore r gone
  next queued =>
    have queued : r.jobId ∈ s.waitingQueue := by simpa using queued
    obtain ⟨job, hl, h⟩ := bind_eq_ok h
    have found := lookup_eq_ok hl
    have undone := live _ queued job found
    obtain ⟨job', hu, h⟩ := bind_eq_ok h
    unfold updateJobInfo at hu
    split at hu
    next failure =>
      cases hu
      obtain ⟨job'', hf, h⟩ := bind_eq_ok h
      obtain ⟨_, _, hf⟩ := bind_eq_ok hf
      cases hf
      cases h
      exact .fail r job queued found (by simpa using failure)
    next success =>
      have success : r.success = true := by simpa using success
      obtain ⟨mem, hm, hu⟩ := bind_eq_ok hu
      have hm := memory_eq_ok hm
      split at hu
      next reduce =>
        obtain ⟨table, ht, hu⟩ := bind_eq_ok hu
        obtain ⟨i, index, inside, rfl⟩ := markSuccess_eq_ok ht
        dsimp only at hu
        split at hu
        next last =>
          cases hu
          obtain ⟨job'', hf, h⟩ := bind_eq_ok h
          obtain ⟨_, _, hf⟩ := bind_eq_ok hf
          cases hf
          cases h
          exact .complete r job mem i queued found hm success reduce index inside last
        next more =>
          cases hu
          simp only [undone, Bool.false_eq_true, if_false] at h
          cases h
          have := @Effect.report now s r job mem i queued found hm success index
            (by simpa [JobMemory.table, reduce] using inside) ⟨undone, fun _ => more⟩
          simpa [Job.count, JobMemory.mark, JobMemory.setTable, JobMemory.table, reduce, undone] using this
      next reduce =>
        have reduce : r.reduce = false := by simpa using reduce
        obtain ⟨table, ht, hu⟩ := bind_eq_ok hu
        obtain ⟨i, index, inside, rfl⟩ := markSuccess_eq_ok ht
        cases hu
        simp only [undone, Bool.false_eq_true, if_false] at h
        cases h
        have := @Effect.report now s r job mem i queued found hm success index
          (by simpa [JobMemory.table, reduce] using inside) ⟨undone, by simp [reduce]⟩
        simpa [Job.count, JobMemory.mark, JobMemory.setTable, JobMemory.table, reduce, undone] using this

/-- Every request served has one of the listed effects, while there is an id for a new job. -/
theorem handle_effect {now : Int} {s s' : Coordinator} {request : Request} {reply : Reply}
    (nonneg : 0 ≤ s.nextId) (room : ∀ r, request = .submitJob r → s.nextId < intMax)
    (live : ∀ id ∈ s.waitingQueue, ∀ job, s.allJob id = some job → job.done = false)
    (h : handle now s request = .ok (s', reply)) : Effect now s request reply s' := by
  cases request with
  | submitJob r =>
      cases h
      have next : toInt32 (s.nextId + 1) = s.nextId + 1 :=
        toInt32_of_range (by omega) (Int.add_one_le_of_lt (room r rfl))
      by_cases known : r.app ∈ apps
      · have := @Effect.accept now s r known
        simpa [submitJob, next, known, newJob, Coordinator.setJob] using this
      · have := @Effect.refuse now s r known
        simpa [submitJob, next, known] using this
  | getTask =>
      obtain ⟨p, hg, h⟩ := bind_eq_ok h
      cases h
      exact getTask_effect hg
  | finishTask r =>
      obtain ⟨t, hf, h⟩ := bind_eq_ok h
      cases h
      exact finishTask_effect live hf
  | pollJob id =>
      cases h
      refine .poll id _ ?_ ?_
      · intro job hj
        simp [pollJob, hj]
      · intro hj
        simp [pollJob, hj]

end CS162.MapReduce
