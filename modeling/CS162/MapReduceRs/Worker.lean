import Mathlib.Data.List.Lex
import Mathlib.Logic.Function.Basic
import CS162.Library.Comparator
import CS162.MapReduceRs.Codec

/-!
The Rust worker (hw-map-reduce-rs: worker/mod.rs, lib.rs) and the tasks of a job
on a cluster of workers.

A map task keeps one buffer of pairs for each reduce task in the memory of its
worker. A reduce task reads its buffers from the workers that ran the map tasks,
sorts and groups the pairs, and writes its output file. The hash of the crate
`fnv` is a parameter, and so is the sort, which is not stable. Calls between
workers arrive, files that can be created can be written, and logging is left out.
-/

namespace CS162.MapReduceRs
open CS162.Library

inductive FileName where
  | input (path : String)
  /-- `{output_dir}/mr-out-{task}` -/
  | out (outputDir : String) (task : Nat)
  deriving DecidableEq

abbrev Files := FileName → Option Bytes

/-- `MapFn`: errors of the function itself and of the items it yields -/
abbrev MapFn := KeyValue → Bytes → Except Failure (List (Except Failure KeyValue))

abbrev ReduceFn := Bytes → List Bytes → Bytes → Except Failure Bytes

/-- `ihash`; the masked hash always fits a `u32`. -/
def ihash (fnv : Bytes → UInt64) (key : Bytes) : UInt32 := (fnv key &&& 0x7fffffff).toUInt32

/-- The reduce task that gets the key's pairs. -/
def reduceIdx (fnv : Bytes → UInt64) (nReduce : Nat) (key : Bytes) : Nat :=
  (ihash fnv key).toNat % nReduce

section Order

/-- Bytes in their order as numbers, in which strings of them compare. -/
def rank (bytes : Bytes) : List Nat := bytes.map UInt8.toNat

theorem rank_injective : Function.Injective rank :=
  List.map_injective_iff.mpr fun _ _ => UInt8.toNat_inj.mp

/-- How `sort_unstable_by_key` and `group_by` compare pairs by their key. -/
def compareKey (kv1 kv2 : KeyValue) : Int :=
  if rank kv1.key < rank kv2.key then -1 else if rank kv2.key < rank kv1.key then 1 else 0

end Order

section State

structure WorkerState where
  data : Nat → Option (Nat × Nat → Option Bytes)

def WorkerState.getData (state : WorkerState) (jobId mapTask reduceTask : Nat) : Option Bytes := do
  let taskMap ← state.data jobId
  taskMap (mapTask, reduceTask)

inductive Code where
  | invalidArgument
  deriving DecidableEq

structure Status where
  code : Code
  message : String
  deriving DecidableEq

structure ReadMapRequest where
  jobId : Nat
  mapTask : Nat
  reduceTask : Nat

def readMap (state : WorkerState) (req : ReadMapRequest) : Except Status Bytes :=
  match state.getData req.jobId req.mapTask req.reduceTask with
  | none => .error ⟨.invalidArgument, "worker does not have data for the given task"⟩
  | some data => .ok data

/-- The entries of a task's writers, put in after each other. -/
def insertWriters (task : Nat) (writers : List Bytes) (entry : Nat × Nat → Option Bytes) :
    Nat × Nat → Option Bytes :=
  writers.zipIdx.foldl (fun entry writer => Function.update entry (task, writer.2) (some writer.1)) entry

/-- `state.data.entry(job_id).or_insert_with(HashMap::new)` with the writers inserted -/
def WorkerState.insert (state : WorkerState) (jobId task : Nat) (writers : List Bytes) : WorkerState where
  data := Function.update state.data jobId
    (some (insertWriters task writers ((state.data jobId).getD fun _ => none)))

end State

section Map
variable (fnv : Bytes → UInt64)

def sendItems (nReduce : Nat) : List (Except Failure KeyValue) → List Bytes →
    Except Failure (List Bytes)
  | [], writers => .ok writers
  | item :: items, writers => do
      let kv ← item
      match writers[reduceIdx fnv nReduce kv.key]? with
      | none => .error .panic
      | some writer =>
          let writer ← sendPair writer kv
          sendItems nReduce items (writers.set (reduceIdx fnv nReduce kv.key) writer)

/-- `Worker::map`, with the worker's state after it -/
def map (mapFn : MapFn) (jobId task nReduce : Nat) (file : String) (aux : Bytes) (files : Files)
    (state : WorkerState) : Except Failure WorkerState :=
  match files (.input file) with
  | none => .error (.error ("Failed to open input file " ++ file))
  | some content => do
      let items ← mapFn ⟨file.toUTF8.data.toList, content⟩ aux
      let writers ← sendItems fnv nReduce items (List.replicate nReduce [])
      return state.insert jobId task writers

end Map

section Reduce

structure MapTaskAssignment where
  task : Nat
  workerId : Nat
  deriving DecidableEq

/-- The pairs that `Worker::reduce` reads from the map tasks' workers, or the
error of the first it cannot read from. -/
def readMaps (readMapFrom : Nat → ReadMapRequest → Except Status Bytes) (jobId task : Nat) :
    List MapTaskAssignment → Except Failure (Except Status (List KeyValue))
  | [] => .ok (.ok [])
  | mapTask :: mapTasks =>
      match readMapFrom mapTask.workerId ⟨jobId, mapTask.task, task⟩ with
      | .error status => .ok (.error status)
      | .ok buf => do
          let kvs ← readPairs buf
          let others ← readMaps readMapFrom jobId task mapTasks
          return others.map (kvs ++ ·)

def reduceGroups (reduceFn : ReduceFn) (aux : Bytes) : List (List KeyValue) → Bytes →
    Except Failure Bytes
  | [], buf => .ok buf
  | [] :: groups, buf => reduceGroups reduceFn aux groups buf
  | (kv :: group) :: groups, buf => do
      let output ← reduceFn kv.key ((kv :: group).map (·.value)) aux
      let buf ← sendPair buf ⟨kv.key, output⟩
      reduceGroups reduceFn aux groups buf

/-- `Worker::reduce`, with the files after it. An error to retry after is kept as
the status whose text it is. -/
def reduce (sorter : Sorter KeyValue) (reduceFn : ReduceFn)
    (readMapFrom : Nat → ReadMapRequest → Except Status Bytes) (jobId task : Nat)
    (mapTasks : List MapTaskAssignment) (outputDir : String) (aux : Bytes) (files : Files) :
    Except Failure (Except Status Files) := do
  match ← readMaps readMapFrom jobId task mapTasks with
  | .error status => return .error status
  | .ok intermediate =>
      let groups := runs compareKey (sorter.sort compareKey intermediate)
      let buf ← reduceGroups reduceFn aux groups []
      return .ok (Function.update files (.out outputDir task) (some buf))

end Reduce

structure Job where
  id : Nat
  files : List String
  outputDir : String
  mapFn : MapFn
  reduceFn : ReduceFn
  nReduce : Nat
  args : Bytes

structure Cluster where
  workers : Nat → WorkerState
  files : Files

/-- A reduce task with the map tasks it is told of. -/
structure ReduceTask where
  task : Nat
  mapTasks : List MapTaskAssignment

section Run
variable (fnv : Bytes → UInt64) (sorter : Sorter KeyValue) (job : Job)

/-- A map task of the job, run by the worker it is assigned to. -/
def Cluster.runMap (cluster : Cluster) (assigned : MapTaskAssignment) : Except Failure Cluster := do
  let state ← map fnv job.mapFn job.id assigned.task job.nReduce (job.files[assigned.task]?.getD "")
    job.args cluster.files (cluster.workers assigned.workerId)
  return { cluster with workers := Function.update cluster.workers assigned.workerId state }

/-- A reduce task of the job. One that is to be retried leaves no output. -/
def Cluster.runReduce (cluster : Cluster) (run : ReduceTask) : Except Failure Cluster := do
  let readMapFrom := fun workerId req => readMap (cluster.workers workerId) req
  match ← reduce sorter job.reduceFn readMapFrom job.id run.task run.mapTasks job.outputDir job.args
      cluster.files with
  | .error _ => return cluster
  | .ok files => return { cluster with files := files }

/-- Map tasks and then reduce tasks, in the order of the lists. -/
def Cluster.runJob (cluster : Cluster) (maps : List MapTaskAssignment) (reduces : List ReduceTask) :
    Except Failure Cluster := do
  let cluster ← maps.foldlM (fun cluster assigned => cluster.runMap fnv job assigned) cluster
  reduces.foldlM (fun cluster run => cluster.runReduce sorter job run) cluster

end Run
end CS162.MapReduceRs
