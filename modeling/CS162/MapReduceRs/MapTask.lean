import CS162.MapReduceRs.Worker

/-!
What the map tasks of a job leave on their workers: for each reduce task the
pairs of its partition, in the order in which they were emitted.
-/

namespace CS162.MapReduceRs
open CS162.Library

def partition (fnv : Bytes → UInt64) (nReduce i : Nat) (kvs : List KeyValue) : List KeyValue :=
  kvs.filter fun kv => reduceIdx fnv nReduce kv.key = i

section Items
variable {fnv : Bytes → UInt64} {nReduce : Nat}

theorem partition_cons_self {i : Nat} {kv : KeyValue} {kvs : List KeyValue}
    (h : reduceIdx fnv nReduce kv.key = i) :
    partition fnv nReduce i (kv :: kvs) = kv :: partition fnv nReduce i kvs :=
  List.filter_cons_of_pos (by simpa using h)

theorem partition_cons_ne {i : Nat} {kv : KeyValue} {kvs : List KeyValue}
    (h : reduceIdx fnv nReduce kv.key ≠ i) :
    partition fnv nReduce i (kv :: kvs) = partition fnv nReduce i kvs :=
  List.filter_cons_of_neg (by simpa using h)

variable (fnv) in
theorem sendItems_spec {kvs : List KeyValue} (writers : List Bytes) (hn : 0 < nReduce)
    (fits : ∀ kv ∈ kvs, kv.Fits) (length : writers.length = nReduce) :
    ∃ writers', sendItems fnv nReduce (kvs.map .ok) writers = .ok writers' ∧
      writers'.length = nReduce ∧ ∀ i b, writers[i]? = some b →
        writers'[i]? = some (b ++ pairsBytes (partition fnv nReduce i kvs)) := by
  induction kvs generalizing writers with
  | nil =>
      refine ⟨writers, rfl, length, fun i b h => ?_⟩
      rw [h, partition, List.filter_nil, pairsBytes, List.flatMap_nil, List.append_nil]
  | cons kv kvs ih =>
      have this := fits kv List.mem_cons_self
      have others : ∀ kv ∈ kvs, kv.Fits := fun kv hkv => fits kv (List.mem_cons_of_mem _ hkv)
      have target : reduceIdx fnv nReduce kv.key < writers.length := by
        rw [length]
        exact Nat.mod_lt _ hn
      obtain ⟨writer, at_target⟩ : ∃ writer, writers[reduceIdx fnv nReduce kv.key]? = some writer :=
        ⟨_, List.getElem?_eq_getElem target⟩
      obtain ⟨writers', sent, length', after⟩ :=
        ih (writers.set (reduceIdx fnv nReduce kv.key) (writer ++ pairsBytes [kv])) others
          ((List.length_set ..).trans length)
      refine ⟨writers', ?_, length', fun i b h => ?_⟩
      · rw [List.map_cons, sendItems, ok_bind]
        simp only [at_target]
        rw [sendPair_of_fits this, ok_bind, sent]
      · by_cases same : reduceIdx fnv nReduce kv.key = i
        · subst same
          obtain rfl : writer = b := Option.some.inj (at_target.symm.trans h)
          rw [after _ (writer ++ pairsBytes [kv]) (List.getElem?_set_self target),
            partition_cons_self rfl, List.append_assoc, ← pairsBytes_append, List.singleton_append]
        · rw [after i b ((List.getElem?_set_ne same).trans h), partition_cons_ne same]

end Items

section State

theorem foldl_insert (task start t i : Nat) (writers : List Bytes) (entry : Nat × Nat → Option Bytes) :
    (writers.zipIdx start).foldl
        (fun entry writer => Function.update entry (task, writer.2) (some writer.1)) entry (t, i) =
      if t = task ∧ start ≤ i ∧ i < start + writers.length then writers[i - start]?
      else entry (t, i) := by
  induction writers generalizing entry start with
  | nil =>
      rw [List.length_nil, if_neg (by omega)]
      rfl
  | cons writer writers ih =>
      rw [List.zipIdx_cons, List.foldl_cons, ih, List.length_cons]
      by_cases first : t = task ∧ i = start
      · obtain ⟨rfl, rfl⟩ := first
        rw [if_neg (by omega), if_pos (by omega), Function.update_self, Nat.sub_self,
          List.getElem?_cons_zero]
      · have other : (t, i) ≠ (task, start) := fun same => first (Prod.mk.inj same)
        rw [Function.update_of_ne other]
        by_cases inside : t = task ∧ start + 1 ≤ i ∧ i < start + 1 + writers.length
        · have shift : i - start = i - (start + 1) + 1 := by omega
          rw [if_pos inside, if_pos (by omega), shift, List.getElem?_cons_succ]
        · rw [if_neg inside, if_neg (by omega)]

theorem getData_insert {state : WorkerState} {jobId task t i : Nat} {writers : List Bytes} :
    (state.insert jobId task writers).getData jobId t i =
      if t = task ∧ i < writers.length then writers[i]? else state.getData jobId t i := by
  have entry := foldl_insert task 0 t i writers ((state.data jobId).getD fun _ => none)
  simp only [Nat.zero_le, true_and, Nat.zero_add, Nat.sub_zero] at entry
  have old : (state.data jobId).getD (fun _ => none) (t, i) = state.getData jobId t i := by
    rw [WorkerState.getData]
    cases state.data jobId <;> rfl
  rw [old] at entry
  have found : (state.insert jobId task writers).data jobId =
      some (insertWriters task writers ((state.data jobId).getD fun _ => none)) :=
    Function.update_self ..
  rw [← entry, WorkerState.getData, found]
  rfl

end State

section Task
variable {fnv : Bytes → UInt64} {mapFn : MapFn} {jobId task nReduce : Nat} {file : String}
variable {aux content : Bytes} {files : Files} {state : WorkerState} {kvs : List KeyValue}

variable (fnv jobId task state) in
/-- A map task that reads its file and emits pairs leaves them on its worker, and
changes nothing of the job's other tasks. -/
theorem map_spec (hn : 0 < nReduce) (found : files (.input file) = some content)
    (emits : mapFn ⟨file.toUTF8.data.toList, content⟩ aux = .ok (kvs.map .ok))
    (fits : ∀ kv ∈ kvs, kv.Fits) :
    ∃ state', map fnv mapFn jobId task nReduce file aux files state = .ok state' ∧
      (∀ i < nReduce, state'.getData jobId task i = some (pairsBytes (partition fnv nReduce i kvs))) ∧
      ∀ t i, t ≠ task → state'.getData jobId t i = state.getData jobId t i := by
  obtain ⟨writers, sent, length, filled⟩ :=
    sendItems_spec fnv (List.replicate nReduce []) hn fits List.length_replicate
  refine ⟨state.insert jobId task writers, ?_, fun i hi => ?_, fun t i other => ?_⟩
  · rw [map, found]
    simp only [emits, ok_bind, sent]
    rfl
  · have empty : (List.replicate nReduce ([] : Bytes))[i]? = some [] := by
      rw [List.getElem?_replicate, if_pos hi]
    rw [getData_insert, if_pos ⟨rfl, length.symm ▸ hi⟩, filled i [] empty, List.nil_append]
  · rw [getData_insert, if_neg fun same => other same.1]

end Task

section Job
variable {fnv : Bytes → UInt64} {job : Job} {cluster : Cluster} {maps : List MapTaskAssignment}

/-- The map function gives these pairs for the file of a map task. -/
def Job.Emits (job : Job) (files : Files) (task : Nat) (kvs : List KeyValue) : Prop :=
  ∃ content, files (.input (job.files[task]?.getD "")) = some content ∧
    job.mapFn ⟨(job.files[task]?.getD "").toUTF8.data.toList, content⟩ job.args = .ok (kvs.map .ok) ∧
    ∀ kv ∈ kvs, kv.Fits

/-- The worker of a map task has its pairs, for every reduce task. -/
def Cluster.Holds (fnv : Bytes → UInt64) (job : Job) (emitted : Nat → List KeyValue) (cluster : Cluster)
    (assigned : MapTaskAssignment) : Prop :=
  ∀ i < job.nReduce, (cluster.workers assigned.workerId).getData job.id assigned.task i =
    some (pairsBytes (partition fnv job.nReduce i (emitted assigned.task)))

variable (fnv) in
theorem runMap_spec {assigned : MapTaskAssignment} {emitted : Nat → List KeyValue} (hn : 0 < job.nReduce)
    (emits : job.Emits cluster.files assigned.task (emitted assigned.task)) :
    ∃ cluster', cluster.runMap fnv job assigned = .ok cluster' ∧ cluster'.files = cluster.files ∧
      cluster'.Holds fnv job emitted assigned ∧
      ∀ w t i, t ≠ assigned.task →
        (cluster'.workers w).getData job.id t i = (cluster.workers w).getData job.id t i := by
  obtain ⟨content, found, emits, fits⟩ := emits
  obtain ⟨state, done, left, others⟩ :=
    map_spec fnv job.id assigned.task (cluster.workers assigned.workerId) hn found emits fits
  refine ⟨⟨Function.update cluster.workers assigned.workerId state, cluster.files⟩, ?_, rfl,
    fun i hi => ?_, fun w t i other => ?_⟩
  · rw [Cluster.runMap, done]
    rfl
  · simp only [Function.update_self]
    exact left i hi
  · by_cases same : w = assigned.workerId
    · subst same
      simp only [Function.update_self]
      exact others t i other
    · simp only [Function.update_of_ne same]

variable (fnv cluster) in
theorem runMaps_spec {emitted : Nat → List KeyValue} (hn : 0 < job.nReduce)
    (once : (maps.map (·.task)).Nodup)
    (emits : ∀ assigned ∈ maps, job.Emits cluster.files assigned.task (emitted assigned.task)) :
    ∃ cluster', maps.foldlM (fun cluster assigned => cluster.runMap fnv job assigned) cluster =
        .ok cluster' ∧ cluster'.files = cluster.files ∧
      (∀ assigned ∈ maps, cluster'.Holds fnv job emitted assigned) ∧
      ∀ w t i, t ∉ maps.map (·.task) →
        (cluster'.workers w).getData job.id t i = (cluster.workers w).getData job.id t i := by
  induction maps generalizing cluster with
  | nil => exact ⟨cluster, rfl, rfl, fun _ h => absurd h List.not_mem_nil, fun _ _ _ _ => rfl⟩
  | cons assigned maps ih =>
      rw [List.map_cons] at once ⊢
      obtain ⟨fresh, once⟩ := List.nodup_cons.mp once
      obtain ⟨first, done, files, held, others⟩ :=
        runMap_spec fnv hn (emits assigned List.mem_cons_self)
      obtain ⟨last, rest, files', held', others'⟩ := ih first once fun m hm => by
        rw [files]
        exact emits m (List.mem_cons_of_mem _ hm)
      refine ⟨last, ?_, files'.trans files, fun m hm => ?_, fun w t i absent => ?_⟩
      · rw [List.foldlM_cons, done, ok_bind, rest]
      · cases hm with
        | head =>
            intro i hi
            rw [others' _ _ i fresh]
            exact held i hi
        | tail _ hm => exact held' m hm
      · have later : t ∉ maps.map (·.task) := fun h => absent (List.mem_cons_of_mem _ h)
        have other : t ≠ assigned.task := fun same => absent (same ▸ List.mem_cons_self)
        rw [others' w t i later, others w t i other]

end Job
end CS162.MapReduceRs
