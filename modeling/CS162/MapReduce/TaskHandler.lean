import Mathlib.Logic.Function.Basic
import CS162.Library.Comparator
import CS162.Library.MachineInt
import CS162.MapReduce.Codec

/-!
The worker's tasks (hw-map-reduce: task_handler.c, lib.c) and the order in which
a job runs them.

A task maps the files to the files it leaves behind. It ends in `reported` where
the code returns 1, and in `undefined` where C gives the code no meaning. Paths
that the format strings print from different numbers differ, so an intermediate
or an output file is named by its numbers. Opening, reading and writing a file
and allocating memory do not fail; the numbers of records are those of lists
that fit in memory and do not overflow. Releasing memory and the messages on
stdout are left out.
-/

namespace CS162.MapReduce
open CS162.Library

structure KeyValue where
  key : Buffer
  value : Buffer
  deriving DecidableEq

structure App where
  map : KeyValue → Buffer → List KeyValue
  reduce : Buffer → List KeyValue → Buffer → KeyValue

inductive Failure where
  | reported
  | undefined
  deriving DecidableEq

inductive FileName where
  | input (path : Buffer)
  /-- `TMP_FILE_FORMAT_STR` -/
  | tmp (map reduce : Nat)
  /-- `OUTPUT_FILE_FORMAT_STR` -/
  | out (reduce : Nat)
  deriving DecidableEq

abbrev Files := FileName → Option (List UInt8)

/-- The fields of `get_task_reply` that the task handlers read. -/
structure TaskReply where
  task : Nat
  file : Buffer
  app : String
  nReduce : Nat
  nMap : Nat
  args : Buffer

/-- The hash of a longer key never ends: its index is an `unsigned int`. -/
def ihash (buf : Buffer) : Option UInt32 :=
  if buf.length < 2 ^ 32 then
    some (buf.bytes.foldl (fun hash c => (hash * 0x811C9DC5) ^^^ c.toInt8.toInt32.toUInt32) 0
      &&& 0x7fffffff)
  else none

def strncmp : Nat → List UInt8 → List UInt8 → Int
  | n + 1, a :: s, b :: t =>
      if a ≠ b then a.toNat - b.toNat else if a = 0 then 0 else strncmp n s t
  | _, _, _ => 0

def byKey (kv1 kv2 : KeyValue) : Int :=
  let ret := strncmp (min kv1.key.length kv2.key.length) kv1.key.bytes kv2.key.bytes
  if ret = 0 then toInt32 (kv1.key.length - kv2.key.length) else ret

def readAll (files : Files) (path : Buffer) : Option Buffer :=
  match files (.input path) with
  | none => none
  | some bytes => if h : bytes.length < 2 ^ 63 then some ⟨bytes, h⟩ else none

/-- `ldw_write` through the writer of an open file. -/
def writeTo (files : Files) (name : FileName) (buf : Buffer) : Files :=
  Function.update files name (some (ldwWrite ((files name).getD []) buf))

section MapTask

def openMapWriters (files : Files) (reply : TaskReply) : Files :=
  (List.range reply.nReduce).foldl
    (fun files i => Function.update files (.tmp reply.task i) (some [])) files

def writeMapKvs (reply : TaskReply) : Files → List KeyValue → Except Failure Files
  | files, [] => .ok files
  | files, kv :: kva =>
      match ihash kv.key with
      | none => .error .undefined
      | some hash =>
          let name := .tmp reply.task (hash.toNat % reply.nReduce)
          writeMapKvs reply (writeTo (writeTo files name kv.key) name kv.value) kva

def handleMapTask (getApp : String → Option App) (reply : TaskReply) (files : Files) :
    Except Failure Files :=
  match getApp reply.app with
  | none => .error .reported
  | some app =>
      let files := openMapWriters files reply
      match readAll files reply.file with
      | none => .error .reported
      | some contents => writeMapKvs reply files (app.map ⟨reply.file, contents⟩ reply.args)

end MapTask

section ReduceTask

/-- The readers, each rewound to the start of its file. -/
def openReduceReaders (files : Files) (reply : TaskReply) : Option (List (List UInt8)) :=
  (List.range reply.nMap).mapM fun i => files (.tmp i reply.task)

/-- The pairs of one reader, for as many as the array has room. -/
def readPairs : Nat → List UInt8 → List KeyValue
  | 0, _ => []
  | room + 1, input =>
      match ldrNext input with
      | (none, _) => []
      | (some key, input) =>
          match ldrNext input with
          | (none, _) => []
          | (some value, input) => ⟨key, value⟩ :: readPairs room input

def readMapKvs (length : Nat) (readers : List (List UInt8)) : List KeyValue :=
  readers.foldl (fun kvs reader => kvs ++ readPairs (length - kvs.length) reader) []

/-- The loop of `reduce_kvs` from `p1` and `p2` on: the records it writes. -/
def reduceLoop (reduce : Buffer → List KeyValue → KeyValue) (kvs : List KeyValue) (p1 p2 : Nat) :
    List KeyValue :=
  if h1 : p1 < kvs.length then
    if h2 : (kvs[p2]?).all fun kv => byKey kvs[p1] kv ≠ 0 then
      (if p2 > p1 then [reduce kvs[p1].key ((kvs.drop p1).take (p2 - p1))] else []) ++
        reduceLoop reduce kvs p2 (p2 + 1)
    else reduceLoop reduce kvs p1 (p2 + 1)
  else []
termination_by if p1 < kvs.length then kvs.length - p2 + 1 else 0
decreasing_by
  · split <;> omega
  · have : p2 < kvs.length := by
      refine Nat.lt_of_not_le fun past => h2 ?_
      rw [List.getElem?_eq_none past]
      rfl
    simp only [h1, if_true]
    omega

/-- `qsort` gives no promise for a comparison that does not order the array. -/
def reduceKvs (qsort : Sorter KeyValue) (reduce : Buffer → List KeyValue → KeyValue)
    (kva : List KeyValue) (files : Files) (name : FileName) : Except Failure Files :=
  if Library.Consistent byKey kva then
    .ok ((reduceLoop reduce (qsort.sort byKey kva) 0 1).foldl
      (fun files kv => writeTo (writeTo files name kv.key) name kv.value) files)
  else .error .undefined

def handleReduceTask (getApp : String → Option App) (qsort : Sorter KeyValue) (reply : TaskReply)
    (files : Files) : Except Failure Files :=
  match openReduceReaders files reply with
  | none => .error .reported
  | some readers =>
      let entries := (readers.map ldrCount).sum
      if entries % 2 = 1 then .error .reported
      else
        let files := Function.update files (.out reply.task) (some [])
        if entries / 2 > 0 then
          match getApp reply.app with
          | none => .error .undefined
          | some app =>
              reduceKvs qsort (fun key kvs => app.reduce key kvs reply.args)
                (readMapKvs (entries / 2) readers) files (.out reply.task)
        else .ok files

end ReduceTask

/-- What the coordinator knows of a job. -/
structure TaskJob where
  files : List Buffer
  nReduce : Nat
  app : String
  args : Buffer

def TaskJob.nMap (job : TaskJob) : Nat := job.files.length

def TaskJob.mapReply (job : TaskJob) (task : Nat) : TaskReply where
  task := task
  file := job.files[task]?.getD ⟨[], fits_nil⟩
  app := job.app
  nReduce := job.nReduce
  nMap := job.nMap
  args := job.args

def TaskJob.reduceReply (job : TaskJob) (task : Nat) : TaskReply where
  task := task
  file := ⟨[], fits_nil⟩
  app := job.app
  nReduce := job.nReduce
  nMap := job.nMap
  args := job.args

section Run
variable (getApp : String → Option App) (qsort : Sorter KeyValue) (job : TaskJob)

/-- Runs map tasks in the order of the list. -/
def runMaps : List Nat → Files → Except Failure Files
  | [], files => .ok files
  | task :: order, files =>
      match handleMapTask getApp (job.mapReply task) files with
      | .error failure => .error failure
      | .ok files => runMaps order files

/-- Runs reduce tasks in the order of the list. -/
def runReduces : List Nat → Files → Except Failure Files
  | [], files => .ok files
  | task :: order, files =>
      match handleReduceTask getApp qsort (job.reduceReply task) files with
      | .error failure => .error failure
      | .ok files => runReduces order files

def runJob (maps reduces : List Nat) (files : Files) : Except Failure Files :=
  match runMaps getApp job maps files with
  | .error failure => .error failure
  | .ok files => runReduces getApp qsort job reduces files

end Run
end CS162.MapReduce
