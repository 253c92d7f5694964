import CS162.MapReduceRs.ReduceTask

/-!
The output files of a job: over all of them each emitted key has one record, in
the file of its reduce task, as long as what the reduce function answers fits a
packet.
-/

namespace CS162.MapReduceRs
open CS162.Library

/-- What the job's map tasks emit together. -/
def Job.emitted (job : Job) (emittedBy : Nat → List KeyValue) : List KeyValue :=
  (List.range job.files.length).flatMap emittedBy

/-- The records of an output file: the keys of its partition in increasing order,
each with the reduced values emitted for it. -/
structure IsOutput (fnv : Bytes → UInt64) (job : Job) (emitted : List KeyValue) (i : Nat)
    (records : List KeyValue) : Prop where
  increasing : records.Pairwise fun a b => rank a.key < rank b.key
  keys : ∀ key, key ∈ records.map (·.key) ↔
    key ∈ emitted.map (·.key) ∧ reduceIdx fnv job.nReduce key = i
  values : ∀ r ∈ records, ∃ values, values.Perm (valuesOf r.key emitted) ∧
    job.reduceFn r.key values job.args = .ok r.value

section Partition
variable {fnv : Bytes → UInt64} {nReduce i : Nat} {kvs others : List KeyValue}

theorem valuesOf_perm {key : Bytes} (h : kvs.Perm others) : (valuesOf key kvs).Perm (valuesOf key others) :=
  (h.filter _).map _

theorem valuesOf_partition {key : Bytes} (h : reduceIdx fnv nReduce key = i) :
    valuesOf key (partition fnv nReduce i kvs) = valuesOf key kvs := by
  rw [valuesOf, valuesOf, partition, List.filter_filter]
  refine congrArg _ (List.filter_congr fun kv _ => ?_)
  by_cases same : kv.key = key
  · simp [same, h]
  · simp [same]

theorem mem_keys_partition {key : Bytes} : key ∈ (partition fnv nReduce i kvs).map (·.key) ↔
    key ∈ kvs.map (·.key) ∧ reduceIdx fnv nReduce key = i := by
  simp only [List.mem_map, partition, List.mem_filter, decide_eq_true_eq]
  constructor
  · intro found
    obtain ⟨kv, inside, key⟩ := found
    exact ⟨⟨kv, inside.1, key⟩, key ▸ inside.2⟩
  · intro found
    obtain ⟨kv, inside, key⟩ := found.1
    exact ⟨kv, ⟨inside, key ▸ found.2⟩, key⟩

/-- The reduce function also answers for a partition, whatever the order of its
pairs. -/
theorem Answers.partition {reduceFn : ReduceFn} {aux : Bytes} (h : Answers reduceFn aux kvs)
    (same : others.Perm (partition fnv nReduce i kvs)) : Answers reduceFn aux others := by
  intro key inside values perm
  obtain ⟨emitted, home⟩ := mem_keys_partition.mp ((same.map _).mem_iff.mp inside)
  refine h key emitted values ?_
  rw [← valuesOf_partition home]
  exact perm.trans (valuesOf_perm same)

theorem Reduced.isOutput {job : Job} {records : List KeyValue}
    (h : Reduced job.reduceFn job.args others records)
    (same : others.Perm (MapReduceRs.partition fnv job.nReduce i kvs)) :
    IsOutput fnv job kvs i records where
  increasing := h.increasing
  keys key := by rw [h.keys, (same.map _).mem_iff, mem_keys_partition]
  values r hr := by
    obtain ⟨values, perm, result⟩ := h.values r hr
    have inside := (h.keys r.key).mp (List.mem_map_of_mem hr)
    have home := (mem_keys_partition.mp ((same.map _).mem_iff.mp inside)).2
    exact ⟨values, (perm.trans (valuesOf_perm same)).trans (.of_eq (valuesOf_partition home)), result⟩

end Partition

section Run
variable {fnv : Bytes → UInt64} {sorter : Sorter KeyValue} {job : Job} {cluster : Cluster}
variable {emittedBy : Nat → List KeyValue} {maps : List MapTaskAssignment} {reduces : List ReduceTask}

variable (fnv emittedBy) in
/-- A reduce task that is told of all map tasks finds the pairs of its partition. -/
theorem collected_perm {mapTasks : List MapTaskAssignment} (i : Nat)
    (all : (mapTasks.map (·.task)).Perm (List.range job.files.length)) :
    (mapTasks.flatMap fun assigned => partition fnv job.nReduce i (emittedBy assigned.task)).Perm
      (partition fnv job.nReduce i (job.emitted emittedBy)) := by
  have whole : partition fnv job.nReduce i (job.emitted emittedBy) =
      (List.range job.files.length).flatMap fun task => partition fnv job.nReduce i (emittedBy task) := by
    rw [partition, Job.emitted, List.filter_flatMap]
    rfl
  let part (task : Nat) := partition fnv job.nReduce i (emittedBy task)
  have by_task : (mapTasks.flatMap fun assigned => part assigned.task) =
      (mapTasks.map (·.task)).flatMap part :=
    (List.flatMap_map (·.task) part mapTasks).symm
  rw [whole]
  exact (List.Perm.of_eq by_task).trans (all.flatMap_right part)

variable (sorter) in
theorem runReduce_spec {run : ReduceTask} (inside : run.task < job.nReduce)
    (held : ∀ assigned ∈ run.mapTasks, cluster.Holds fnv job emittedBy assigned)
    (fits : ∀ assigned ∈ run.mapTasks, ∀ kv ∈ emittedBy assigned.task, kv.Fits)
    (all : (run.mapTasks.map (·.task)).Perm (List.range job.files.length))
    (answers : Answers job.reduceFn job.args (job.emitted emittedBy)) :
    ∃ records, cluster.runReduce sorter job run = .ok ⟨cluster.workers,
        Function.update cluster.files (.out job.outputDir run.task) (some (pairsBytes records))⟩ ∧
      (∀ r ∈ records, r.Fits) ∧ IsOutput fnv job (job.emitted emittedBy) run.task records := by
  have same := collected_perm fnv emittedBy run.task all
  have part_fits : ∀ assigned ∈ run.mapTasks,
      ∀ kv ∈ partition fnv job.nReduce run.task (emittedBy assigned.task), kv.Fits :=
    fun assigned hm kv hkv => fits assigned hm kv (List.mem_of_mem_filter hkv)
  have ready : ∀ assigned ∈ run.mapTasks,
      readMap (cluster.workers assigned.workerId) ⟨job.id, assigned.task, run.task⟩ =
        .ok (pairsBytes (partition fnv job.nReduce run.task (emittedBy assigned.task))) := by
    intro assigned hm
    rw [readMap, held assigned hm run.task inside]
  obtain ⟨records, done, fit, reduced⟩ :=
    reduce_spec sorter (fun workerId req => readMap (cluster.workers workerId) req)
      (fun task => partition fnv job.nReduce run.task (emittedBy task)) part_fits ready
      (answers.partition same)
  refine ⟨records, ?_, fit, reduced.isOutput same⟩
  rw [Cluster.runReduce]
  rw [done]
  rfl

variable (fnv sorter cluster) in
theorem runReduces_spec (once : (reduces.map (·.task)).Nodup)
    (inside : ∀ run ∈ reduces, run.task < job.nReduce)
    (held : ∀ run ∈ reduces, ∀ assigned ∈ run.mapTasks, cluster.Holds fnv job emittedBy assigned)
    (fits : ∀ run ∈ reduces, ∀ assigned ∈ run.mapTasks, ∀ kv ∈ emittedBy assigned.task, kv.Fits)
    (all : ∀ run ∈ reduces, (run.mapTasks.map (·.task)).Perm (List.range job.files.length))
    (answers : Answers job.reduceFn job.args (job.emitted emittedBy)) :
    ∃ final, reduces.foldlM (fun cluster run => cluster.runReduce sorter job run) cluster = .ok final ∧
      (∀ run ∈ reduces, ∃ records, final.files (.out job.outputDir run.task) = some (pairsBytes records) ∧
        (∀ r ∈ records, r.Fits) ∧ IsOutput fnv job (job.emitted emittedBy) run.task records) ∧
      ∀ task, task ∉ reduces.map (·.task) →
        final.files (.out job.outputDir task) = cluster.files (.out job.outputDir task) := by
  induction reduces generalizing cluster with
  | nil => exact ⟨cluster, rfl, fun _ h => absurd h List.not_mem_nil, fun _ _ => rfl⟩
  | cons run reduces ih =>
      rw [List.map_cons] at once ⊢
      obtain ⟨fresh, once⟩ := List.nodup_cons.mp once
      have here := List.mem_cons_self (a := run) (l := reduces)
      obtain ⟨records, done, fit, output⟩ := runReduce_spec sorter (inside run here)
        (held run here) (fits run here) (all run here) answers
      obtain ⟨final, rest, outputs, others⟩ := ih
        ⟨cluster.workers,
          Function.update cluster.files (.out job.outputDir run.task) (some (pairsBytes records))⟩ once
        (fun r hr => inside r (List.mem_cons_of_mem _ hr))
        (fun r hr => held r (List.mem_cons_of_mem _ hr))
        (fun r hr => fits r (List.mem_cons_of_mem _ hr))
        (fun r hr => all r (List.mem_cons_of_mem _ hr))
      refine ⟨final, ?_, fun r hr => ?_, fun task absent => ?_⟩
      · rw [List.foldlM_cons, done, ok_bind, rest]
      · cases hr with
        | head =>
            refine ⟨records, ?_, fit, output⟩
            rw [others run.task fresh]
            exact Function.update_self ..
        | tail _ hr => exact outputs r hr
      · have later : task ∉ reduces.map (·.task) := fun h => absent (List.mem_cons_of_mem _ h)
        have other : task ≠ run.task := fun same => absent (same ▸ List.mem_cons_self)
        rw [others task later]
        exact Function.update_of_ne (by simpa using other) ..

/-- What one of two output files has, the other has, if the order of the values does not matter. -/
theorem IsOutput.subset {emitted records others : List KeyValue} {i : Nat}
    (unordered : ∀ key vs vs', vs.Perm vs' → job.reduceFn key vs job.args = job.reduceFn key vs' job.args)
    (h : IsOutput fnv job emitted i records) (h' : IsOutput fnv job emitted i others) :
    records ⊆ others := by
  intro r hr
  have key := (h'.keys r.key).mpr ((h.keys r.key).mp (List.mem_map_of_mem hr))
  obtain ⟨r', hr', same⟩ := List.mem_map.mp key
  obtain ⟨values, perm, result⟩ := h.values r hr
  obtain ⟨values', perm', result'⟩ := h'.values r' hr'
  rw [same] at perm' result'
  rw [unordered _ _ _ (perm.trans perm'.symm), result'] at result
  cases r
  cases r'
  cases same
  cases result
  exact hr'

theorem IsOutput.unique {emitted records others : List KeyValue} {i : Nat}
    (unordered : ∀ key vs vs', vs.Perm vs' → job.reduceFn key vs job.args = job.reduceFn key vs' job.args)
    (h : IsOutput fnv job emitted i records) (h' : IsOutput fnv job emitted i others) :
    records = others := by
  have nodup {rs : List KeyValue} (increasing : rs.Pairwise fun a b => rank a.key < rank b.key) :
      rs.Nodup :=
    increasing.imp fun less => by
      rintro rfl
      exact lt_irrefl _ less
  have same : records.Perm others :=
    (List.perm_ext_iff_of_nodup (nodup h.increasing) (nodup h'.increasing)).mpr fun _ =>
      ⟨fun hr => h.subset unordered h' hr, fun hr => h'.subset unordered h hr⟩
  exact List.Perm.eq_of_pairwise (fun a b _ _ less less' => absurd (less.trans less') (lt_irrefl _))
    h.increasing h'.increasing same

/-- A job's map tasks and then its reduce tasks, each run once in any order and on
any workers, end and leave each emitted key's record in the file of its reduce task. -/
theorem runJob_groups_by_key (hn : 0 < job.nReduce)
    (emits : ∀ task < job.files.length, job.Emits cluster.files task (emittedBy task))
    (answers : Answers job.reduceFn job.args (job.emitted emittedBy))
    (all_maps : (maps.map (·.task)).Perm (List.range job.files.length))
    (all_reduces : (reduces.map (·.task)).Perm (List.range job.nReduce))
    (told : ∀ run ∈ reduces, run.mapTasks.Perm maps) :
    ∃ final, cluster.runJob fnv sorter job maps reduces = .ok final ∧
      ∀ i < job.nReduce, ∃ file records, final.files (.out job.outputDir i) = some file ∧
        readPairs file = .ok records ∧ IsOutput fnv job (job.emitted emittedBy) i records := by
  have task_lt (assigned : MapTaskAssignment) (hm : assigned ∈ maps) :
      assigned.task < job.files.length :=
    List.mem_range.mp (all_maps.mem_iff.mp (List.mem_map_of_mem hm))
  have run_lt (run : ReduceTask) (hr : run ∈ reduces) : run.task < job.nReduce :=
    List.mem_range.mp (all_reduces.mem_iff.mp (List.mem_map_of_mem hr))
  obtain ⟨middle, mapped, files, held, -⟩ := runMaps_spec fnv cluster hn
    (all_maps.nodup_iff.mpr List.nodup_range) fun assigned hm => emits assigned.task (task_lt assigned hm)
  obtain ⟨final, reduced, outputs, -⟩ := runReduces_spec fnv sorter middle
    (all_reduces.nodup_iff.mpr List.nodup_range) run_lt
    (fun run hr assigned hm => held assigned ((told run hr).mem_iff.mp hm))
    (fun run hr assigned hm => by
      obtain ⟨_, _, _, fits⟩ := emits assigned.task (task_lt assigned ((told run hr).mem_iff.mp hm))
      exact fits)
    (fun run hr => ((told run hr).map _).trans all_maps) answers
  refine ⟨final, ?_, fun i hi => ?_⟩
  · rw [Cluster.runJob, mapped, ok_bind, reduced]
  · obtain ⟨run, hr, rfl⟩ := List.mem_map.mp (all_reduces.mem_iff.mpr (List.mem_range.mpr hi))
    obtain ⟨records, written, fit, output⟩ := outputs run hr
    exact ⟨_, records, written, readPairs_pairsBytes fit, output⟩

end Run

section Example

/-- A job on one file, whose map function emits one pair. -/
def onePairJob (reduceFn : ReduceFn) : Job where
  id := 0
  files := ["f"]
  outputDir := "out"
  mapFn kv _ := .ok [.ok ⟨[0x61], kv.value⟩]
  reduceFn := reduceFn
  nReduce := 1
  args := []

def freshCluster : Cluster where
  workers _ := ⟨fun _ => none⟩
  files
    | .input _ => some [0x7a]
    | .out _ _ => none

def onePair (_ : Nat) : List KeyValue := [⟨[0x61], [0x7a]⟩]

theorem onePair_fits (task : Nat) : ∀ kv ∈ onePair task, kv.Fits := by
  intro kv hkv
  obtain rfl := List.mem_singleton.mp hkv
  exact ⟨by decide, by decide⟩

theorem onePairJob_emits {reduceFn : ReduceFn} (task : Nat) (_ : task < (onePairJob reduceFn).files.length) :
    (onePairJob reduceFn).Emits freshCluster.files task (onePair task) :=
  ⟨[0x7a], rfl, rfl, onePair_fits task⟩

/-- A job on two files, whose map function emits each byte with the size of its file, and
whose reduce function adds up. -/
def byteJob : Job where
  id := 0
  files := ["f", "g"]
  outputDir := "out"
  mapFn kv _ := .ok (kv.value.map fun b => .ok ⟨[b], [UInt8.ofNat kv.value.length]⟩)
  reduceFn _ values _ := .ok [values.foldr (fun v n => v.headD 0 + n) 0]
  nReduce := 2
  args := []

/-- "aba" and "ca" are the files. -/
def byteCluster : Cluster where
  workers _ := ⟨fun _ => none⟩
  files
    | .input path => some (if path = "f" then [0x61, 0x62, 0x61] else [0x63, 0x61])
    | .out _ _ => none

def emittedBytes (task : Nat) : List KeyValue :=
  if task = 0 then [⟨[0x61], [3]⟩, ⟨[0x62], [3]⟩, ⟨[0x61], [3]⟩] else [⟨[0x63], [2]⟩, ⟨[0x61], [2]⟩]

/-- A hash that keeps the first byte. -/
def firstByte (key : Bytes) : UInt64 := (key.headD 0).toUInt64

def byteMaps : List MapTaskAssignment := [⟨1, 5⟩, ⟨0, 3⟩]

def byteReduces : List ReduceTask := [⟨1, [⟨0, 3⟩, ⟨1, 5⟩]⟩, ⟨0, byteMaps⟩]

theorem emittedBytes_fits (task : Nat) : ∀ kv ∈ emittedBytes task, kv.Fits := by
  intro kv hkv
  have short : kv.key.length = 1 ∧ kv.value.length = 1 := by
    rw [emittedBytes] at hkv
    split at hkv <;> simp only [List.mem_cons, List.not_mem_nil, or_false] at hkv
    · rcases hkv with rfl | rfl | rfl <;> exact ⟨rfl, rfl⟩
    · rcases hkv with rfl | rfl <;> exact ⟨rfl, rfl⟩
  rw [KeyValue.Fits, short.1, short.2]
  decide

theorem byteJob_emits (task : Nat) (h : task < byteJob.files.length) :
    byteJob.Emits byteCluster.files task (emittedBytes task) := by
  match task, h with
  | 0, _ => exact ⟨[0x61, 0x62, 0x61], rfl, rfl, emittedBytes_fits 0⟩
  | 1, _ => exact ⟨[0x63, 0x61], rfl, rfl, emittedBytes_fits 1⟩

theorem byteJob_unordered (key : Bytes) (vs vs' : List Bytes) (perm : vs.Perm vs') :
    byteJob.reduceFn key vs byteJob.args = byteJob.reduceFn key vs' byteJob.args := by
  have total : vs.foldr (fun v n => v.headD 0 + n) 0 = vs'.foldr (fun v n => v.headD 0 + n) 0 := by
    induction perm with
    | nil => rfl
    | cons v _ ih => simp only [List.foldr_cons, ih]
    | swap v v' vs =>
        simp only [List.foldr_cons, ← UInt8.add_assoc]
        rw [UInt8.add_comm (v'.headD 0)]
    | trans _ _ ih ih' => exact ih.trans ih'
  simp only [byteJob, total]

theorem byteJob_keys : (byteJob.emitted emittedBytes).map (·.key) =
    [[0x61], [0x62], [0x61], [0x63], [0x61]] := rfl

theorem byteJob_output_zero :
    IsOutput firstByte byteJob (byteJob.emitted emittedBytes) 0 [⟨[0x62], [3]⟩] where
  increasing := by decide
  keys key := by
    rw [byteJob_keys]
    constructor
    · intro found
      obtain rfl := List.mem_singleton.mp found
      decide
    · rintro ⟨found, home⟩
      simp only [List.mem_cons, List.not_mem_nil, or_false] at found
      rcases found with rfl | rfl | rfl | rfl | rfl <;> first | decide | exact absurd home (by decide)
  values r hr := by
    obtain rfl := List.mem_singleton.mp hr
    exact ⟨_, .refl _, rfl⟩

theorem byteJob_output_one : IsOutput firstByte byteJob (byteJob.emitted emittedBytes) 1
    [⟨[0x61], [8]⟩, ⟨[0x63], [2]⟩] where
  increasing := by decide
  keys key := by
    rw [byteJob_keys]
    constructor
    · intro found
      simp only [List.map_cons, List.map_nil, List.mem_cons, List.not_mem_nil, or_false] at found
      rcases found with rfl | rfl <;> decide
    · rintro ⟨found, home⟩
      simp only [List.mem_cons, List.not_mem_nil, or_false] at found
      rcases found with rfl | rfl | rfl | rfl | rfl <;> first | decide | exact absurd home (by decide)
  values r hr := by
    simp only [List.mem_cons, List.not_mem_nil, or_false] at hr
    rcases hr with rfl | rfl <;> exact ⟨_, .refl _, rfl⟩

/-- Two map and two reduce tasks, in another order than that of their numbers: the key that both
map tasks emit has all its values in one record, and file 1 has its two keys in order. -/
theorem runJob_groups_by_key_twoFiles :
    ∃ final, byteCluster.runJob firstByte (Sorter.insertion KeyValue) byteJob byteMaps byteReduces =
        .ok final ∧
      (∃ file, final.files (.out "out" 0) = some file ∧ readPairs file = .ok [⟨[0x62], [3]⟩]) ∧
      ∃ file, final.files (.out "out" 1) = some file ∧
        readPairs file = .ok [⟨[0x61], [8]⟩, ⟨[0x63], [2]⟩] := by
  have grouped : ∃ final, byteCluster.runJob firstByte (Sorter.insertion KeyValue) byteJob byteMaps
      byteReduces = .ok final ∧ ∀ i < 2, ∃ file records, final.files (.out "out" i) = some file ∧
        readPairs file = .ok records ∧
        IsOutput firstByte byteJob (byteJob.emitted emittedBytes) i records := by
    refine runJob_groups_by_key ?hn ?emits ?answers ?all_maps ?all_reduces ?told
    case hn => decide
    case emits => exact byteJob_emits
    case answers => exact fun _ _ values _ => ⟨_, rfl, by simp [u32Max]⟩
    case all_maps => decide
    case all_reduces => decide
    case told => decide
  obtain ⟨final, ran, outputs⟩ := grouped
  obtain ⟨file, records, found, read, output⟩ := outputs 0 (by decide)
  obtain ⟨file', records', found', read', output'⟩ := outputs 1 (by decide)
  rw [output.unique byteJob_unordered byteJob_output_zero] at read
  rw [output'.unique byteJob_unordered byteJob_output_one] at read'
  exact ⟨final, ran, ⟨file, found, read⟩, file', found', read'⟩

theorem runJob_of_long {output : Bytes} (long : u32Max < output.length) :
    freshCluster.runJob (fun _ => 0) (Sorter.insertion KeyValue) (onePairJob fun _ _ _ => .ok output)
      [⟨0, 3⟩] [⟨0, [⟨0, 3⟩]⟩] = .error .panic := by
  have once : ([(⟨0, 3⟩ : MapTaskAssignment)].map (·.task)).Nodup := List.nodup_singleton _
  have emits : ∀ assigned ∈ [(⟨0, 3⟩ : MapTaskAssignment)],
      (onePairJob fun _ _ _ => .ok output).Emits freshCluster.files assigned.task (onePair assigned.task) :=
    fun assigned hm => onePairJob_emits assigned.task (List.mem_singleton.mp hm ▸ Nat.zero_lt_one)
  obtain ⟨cluster, mapped, -, held, -⟩ :=
    runMaps_spec (fun _ => 0) freshCluster Nat.zero_lt_one once emits
  have ready : ∀ assigned ∈ [(⟨0, 3⟩ : MapTaskAssignment)],
      readMap (cluster.workers assigned.workerId) ⟨0, assigned.task, 0⟩ =
        .ok (pairsBytes (onePair assigned.task)) := by
    intro assigned hm
    obtain rfl := List.mem_singleton.mp hm
    have found := held _ List.mem_cons_self 0 Nat.zero_lt_one
    rw [readMap]
    simp only [show (cluster.workers 3).getData 0 0 0 = some (pairsBytes (onePair 0)) from found]
  have read : readMaps (fun workerId req => readMap (cluster.workers workerId) req) 0 0 [⟨0, 3⟩] =
      .ok (.ok (onePair 0)) :=
    readMaps_spec (fun assigned _ => onePair_fits assigned.task) ready
  have panics : reduceGroups (fun _ _ _ => .ok output) []
      (runs compareKey ((Sorter.insertion KeyValue).sort compareKey (onePair 0))) [] = .error .panic :=
    reduceGroups_of_long rfl long
  have reduced : cluster.runReduce (Sorter.insertion KeyValue) (onePairJob fun _ _ _ => .ok output)
      ⟨0, [⟨0, 3⟩]⟩ = .error .panic := by
    rw [Cluster.runReduce, reduce]
    simp only [onePairJob, read, ok_bind, panics]
    rfl
  rw [Cluster.runJob, mapped, ok_bind, List.foldlM_cons, reduced]
  rfl

/-- A value of `2 ^ 32` bytes cannot be sent as a packet. -/
theorem runJob_panics_on_long_value :
    freshCluster.runJob (fun _ => 0) (Sorter.insertion KeyValue)
      (onePairJob fun _ _ _ => .ok (List.replicate (2 ^ 32) 0)) [⟨0, 3⟩] [⟨0, [⟨0, 3⟩]⟩] =
        .error .panic := by
  apply runJob_of_long
  rw [List.length_replicate]
  exact Nat.sub_lt (by decide) (by decide)

end Example
end CS162.MapReduceRs
