import Mathlib.Logic.Function.Basic
import CS162.Library.MachineInt
import CS162.Library.Transition

/-!
The MapReduce coordinator (hw-map-reduce: coordinator.c, job.h, rpc.x): the job
table, the waiting queue and the four RPC handlers as the code computes them.

An access the C code would make outside its memory is a `Fault`: a job that is
not in the table, an array released by `free_job_memory`, an index past an
array's end. Allocation does not fail here. The handlers read the clock as often
as they like within one second, so a request carries one reading of `time(NULL)`.
Creating the output directory and the log lines on stdout change no coordinator
state and are left out.
-/

namespace CS162.MapReduce
open CS162.Library

inductive Fault where
  | nullJob
  | freedMemory
  | outOfBounds
  deriving DecidableEq

def taskTimeoutSecs : Int := 10

structure SubmitJobRequest where
  files : List String
  outputDir : String
  app : String
  nReduce : Int
  args : String
  deriving DecidableEq

structure PollJobReply where
  done : Bool
  failed : Bool
  invalidJobId : Bool
  deriving DecidableEq

structure GetTaskReply where
  jobId : Int
  task : Int
  file : String
  outputDir : String
  app : String
  nReduce : Int
  nMap : Int
  reduce : Bool
  wait : Bool
  args : String
  deriving DecidableEq

structure FinishTaskRequest where
  jobId : Int
  task : Int
  reduce : Bool
  success : Bool
  deriving DecidableEq

/-- Entry `i` of the parallel arrays `map_time`/`map_success`, or of
`reduce_time`/`reduce_success`. Time 0 means never assigned. -/
structure Task where
  time : Int
  success : Bool
  deriving DecidableEq

/-- The arrays of a job that `free_job_memory` releases. -/
structure JobMemory where
  files : List String
  maps : List Task
  reduces : List Task

/-- `struct job`; `mem` is `none` once its arrays have been released. -/
structure Job where
  jobId : Int
  nReduce : Int
  mapFinished : Int
  reduceFinished : Int
  args : Option String
  outputDir : String
  app : String
  nMap : Int
  done : Bool
  failed : Bool
  mem : Option JobMemory

/-- The coordinator's globals, with the static result buffers of the two
handlers that do not overwrite every field of theirs. -/
structure Coordinator where
  nextId : Int
  waitingQueue : List Int
  allJob : Int → Option Job
  pollReply : PollJobReply
  taskReply : GetTaskReply

/-- The applications of app.c. -/
def apps : List String := ["wc", "grep", "vertex-degree"]

/-- `coordinator_init`; statics start zeroed. -/
def coordinatorInit : Coordinator where
  nextId := 0
  waitingQueue := []
  allJob _ := none
  pollReply := ⟨false, false, false⟩
  taskReply := ⟨0, 0, "", "", "", 0, 0, false, false, ""⟩

def Coordinator.setJob (s : Coordinator) (id : Int) (job : Job) : Coordinator :=
  { s with allJob := Function.update s.allJob id (some job) }

def Coordinator.lookup (s : Coordinator) (id : Int) : Except Fault Job :=
  match s.allJob id with
  | some job => .ok job
  | none => .error .nullJob

def Job.memory (job : Job) : Except Fault JobMemory :=
  match job.mem with
  | some mem => .ok mem
  | none => .error .freedMemory

/-- The tables and counters of a phase, so that the map and the reduce half of
a function are one text. -/
def JobMemory.table (mem : JobMemory) (reduce : Bool) : List Task :=
  if reduce then mem.reduces else mem.maps

def JobMemory.setTable (mem : JobMemory) (reduce : Bool) (table : List Task) : JobMemory :=
  if reduce then { mem with reduces := table } else { mem with maps := table }

def Job.size (job : Job) (reduce : Bool) : Int :=
  if reduce then job.nReduce else job.nMap

def Job.finished (job : Job) (reduce : Bool) : Int :=
  if reduce then job.reduceFinished else job.mapFinished

/-- `allocate_bool_array` and `allocate_time_t_array` of one phase. -/
def allocateTasks (len : Int) : List Task :=
  List.replicate len.toNat ⟨0, false⟩

/-- `init_task_reply`. A reduce task leaves `file` as the caller set it. -/
def initTaskReply (reply : GetTaskReply) (job : Job) (mem : JobMemory) (task : Nat)
    (reduce : Bool) : Except Fault GetTaskReply :=
  let fill (file : String) : GetTaskReply :=
    { jobId := job.jobId, task := task, file := file, outputDir := job.outputDir,
      app := job.app, nReduce := job.nReduce, nMap := job.nMap, reduce := reduce,
      wait := false, args := job.args.getD "" }
  if reduce then .ok (fill reply.file) else
    match mem.files[task]? with
    | some file => .ok (fill file)
    | none => .error .outOfBounds

/-- Hand out one task: fill in the reply and store the assigning time. -/
def assignTask (now : Int) (job : Job) (mem : JobMemory) (reply : GetTaskReply) (reduce : Bool)
    (i : Nat) : Except Fault (Job × GetTaskReply) := do
  let reply ← initTaskReply reply job mem i reduce
  let table := (mem.table reduce).modify i fun t => { t with time := now }
  return ({ job with mem := some (mem.setTable reduce table) }, reply)

/-- The common text of `find_expired_task` and `find_unassigned_task`: the first
map task that passes the test, and once the map counter has reached `n_map` the
first reduce task that does. -/
def findTask (test : Task → Bool) (now : Int) (job : Job) (reply : GetTaskReply) :
    Except Fault (Option (Job × GetTaskReply)) := do
  let mem ← job.memory
  match mem.maps.findIdx? test with
  | some i => return some (← assignTask now job mem reply false i)
  | none =>
      if job.mapFinished = job.nMap then
        match mem.reduces.findIdx? test with
        | some i => return some (← assignTask now job mem reply true i)
        | none => return none
      else return none

def Task.expired (now : Int) (t : Task) : Bool :=
  t.time ≠ 0 && decide (now - t.time ≥ taskTimeoutSecs) && !t.success

def Task.unassigned (t : Task) : Bool := t.time = 0

def findExpiredTask (now : Int) : Job → GetTaskReply → Except Fault (Option (Job × GetTaskReply)) :=
  findTask (Task.expired now) now

def findUnassignedTask (now : Int) :
    Job → GetTaskReply → Except Fault (Option (Job × GetTaskReply)) :=
  findTask Task.unassigned now

/-- One of the two loops of `get_task_1_svc` over the waiting queue. -/
def searchQueue (find : Job → GetTaskReply → Except Fault (Option (Job × GetTaskReply)))
    (s : Coordinator) (reply : GetTaskReply) :
    List Int → Except Fault (Option (Coordinator × GetTaskReply))
  | [] => return none
  | id :: queue => do
      let job ← s.lookup id
      match ← find job reply with
      | some (job, reply) => return some ({ s.setJob id job with taskReply := reply }, reply)
      | none => searchQueue find s reply queue

/-- `submit_job_1_svc`. An unknown application is refused with id -1 after the
id counter has moved. -/
def submitJob (s : Coordinator) (r : SubmitJobRequest) : Coordinator × Int :=
  let id := toInt32 (s.nextId + 1)
  let s := { s with nextId := id }
  if r.app ∈ apps then
    let nMap : Int := r.files.length
    let job : Job :=
      { jobId := id, nReduce := r.nReduce, mapFinished := 0, reduceFinished := 0,
        args := if r.args = "" then none else some r.args,
        outputDir := r.outputDir, app := r.app, nMap := nMap, done := false, failed := false,
        mem := some ⟨r.files, allocateTasks nMap, allocateTasks r.nReduce⟩ }
    ({ s.setJob id job with waitingQueue := s.waitingQueue ++ [id] }, id)
  else (s, -1)

/-- `poll_job_1_svc`. An unknown id leaves the other fields of the static reply
as the previous poll set them. -/
def pollJob (s : Coordinator) (id : Int) : Coordinator × PollJobReply :=
  let reply : PollJobReply := match s.allJob id with
    | none => { s.pollReply with invalidJobId := true }
    | some job => ⟨job.done, job.failed, false⟩
  ({ s with pollReply := reply }, reply)

/-- `get_task_1_svc`. -/
def getTask (now : Int) (s : Coordinator) : Except Fault (Coordinator × GetTaskReply) := do
  let reply := { s.taskReply with file := "", outputDir := "", app := "", wait := true, args := "" }
  match ← searchQueue (findExpiredTask now) s reply s.waitingQueue with
  | some result => return result
  | none =>
      match ← searchQueue (findUnassignedTask now) s reply s.waitingQueue with
      | some result => return result
      | none => return ({ s with taskReply := reply }, reply)

/-- `arr[task] = true` on a success array. -/
def markSuccess (table : List Task) (task : Int) : Except Fault (List Task) :=
  if 0 ≤ task ∧ task < table.length then
    .ok (table.modify task.toNat fun t => { t with success := true })
  else .error .outOfBounds

def updateJobInfo (job : Job) (r : FinishTaskRequest) : Except Fault Job := do
  if !r.success then return { job with done := true, failed := true }
  let mem ← job.memory
  if r.reduce then
    let table ← markSuccess mem.reduces r.task
    let job := { job with reduceFinished := job.reduceFinished + 1,
                          mem := some { mem with reduces := table } }
    if job.reduceFinished = job.nReduce then return { job with done := true, failed := false }
    else return job
  else
    let table ← markSuccess mem.maps r.task
    return { job with mapFinished := job.mapFinished + 1, mem := some { mem with maps := table } }

def freeJobMemory (job : Job) : Except Fault Job := do
  let _ ← job.memory
  return { job with mem := none }

/-- `finish_task_1_svc`. -/
def finishTask (s : Coordinator) (r : FinishTaskRequest) : Except Fault Coordinator := do
  if r.jobId ∉ s.waitingQueue then return s
  let job ← s.lookup r.jobId
  let job ← updateJobInfo job r
  if job.done then
    let job ← freeJobMemory job
    return { s.setJob r.jobId job with waitingQueue := s.waitingQueue.erase r.jobId }
  else return s.setJob r.jobId job

inductive Request where
  | submitJob (r : SubmitJobRequest)
  | getTask
  | finishTask (r : FinishTaskRequest)
  | pollJob (id : Int)
  deriving DecidableEq

inductive Reply where
  | submitted (id : Int)
  | task (r : GetTaskReply)
  | finished
  | polled (r : PollJobReply)
  deriving DecidableEq

/-- The RPC service: one request, handled at one reading of the clock. -/
def handle (now : Int) (s : Coordinator) : Request → Except Fault (Coordinator × Reply)
  | .submitJob r => .ok ((submitJob s r).1, .submitted (submitJob s r).2)
  | .getTask => do
      let (s, r) ← getTask now s
      return (s, .task r)
  | .finishTask r => do
      let s ← finishTask s r
      return (s, .finished)
  | .pollJob id => .ok ((pollJob s id).1, .polled (pollJob s id).2)

end CS162.MapReduce
