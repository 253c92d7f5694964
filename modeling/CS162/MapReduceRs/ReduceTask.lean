import CS162.MapReduceRs.MapTask

/-!
A job of the Rust worker groups the emitted pairs by key. Each reduce task finds
the pairs of its partition on the workers of the map tasks, its sort brings the
pairs of a key together, and each run of them makes one record of its output file.
A record longer than a packet can be makes the writer panic.
-/

namespace CS162.MapReduceRs
open CS162.Library

/-- The values emitted for a key. -/
def valuesOf (key : Bytes) (kvs : List KeyValue) : List Bytes :=
  (kvs.filter fun kv => kv.key = key).map (·.value)

/-- The records that group the pairs by key and reduce them: keys in increasing
order, each with what the reduce function makes of its values in some order. -/
structure Reduced (reduceFn : ReduceFn) (aux : Bytes) (kvs records : List KeyValue) : Prop where
  increasing : records.Pairwise fun a b => rank a.key < rank b.key
  keys : ∀ key, key ∈ records.map (·.key) ↔ key ∈ kvs.map (·.key)
  values : ∀ r ∈ records, ∃ values, values.Perm (valuesOf r.key kvs) ∧
    reduceFn r.key values aux = .ok r.value

/-- The reduce function answers for the keys of the pairs, with a value that fits
a packet. -/
def Answers (reduceFn : ReduceFn) (aux : Bytes) (kvs : List KeyValue) : Prop :=
  ∀ key ∈ kvs.map (·.key), ∀ values, values.Perm (valuesOf key kvs) →
    ∃ output, reduceFn key values aux = .ok output ∧ output.length ≤ u32Max

section Order
variable {kvs : List KeyValue}

theorem compareKey_neg {a b : KeyValue} : compareKey a b < 0 ↔ rank a.key < rank b.key := by
  rw [compareKey]
  split
  · next less => exact ⟨fun _ => less, fun _ => by decide⟩
  · next less =>
      split
      · exact ⟨fun h => absurd h (by decide), fun h => absurd h less⟩
      · exact ⟨fun h => absurd h (by decide), fun h => absurd h less⟩

theorem compareKey_pos {a b : KeyValue} : 0 < compareKey a b ↔ rank b.key < rank a.key := by
  rw [compareKey]
  split
  · next less => exact ⟨fun h => absurd h (by decide), fun h => absurd h less.asymm⟩
  · split
    · next more => exact ⟨fun _ => more, fun _ => by decide⟩
    · next more => exact ⟨fun h => absurd h (by decide), fun h => absurd h more⟩

theorem compareKey_eq_zero {a b : KeyValue} : compareKey a b = 0 ↔ a.key = b.key := by
  constructor
  · intro equal
    have less : ¬ rank a.key < rank b.key := fun h => by
      have := compareKey_neg.mpr h
      omega
    have more : ¬ rank b.key < rank a.key := fun h => by
      have := compareKey_pos.mpr h
      omega
    exact rank_injective (le_antisymm (not_lt.mp more) (not_lt.mp less))
  · intro equal
    rw [compareKey, equal, if_neg (lt_irrefl _), if_neg (lt_irrefl _)]

theorem compareKey_consistent : Library.Consistent compareKey kvs :=
  .of_rank (fun kv => rank kv.key) (fun _ _ _ _ => compareKey_neg) fun _ _ _ _ => compareKey_pos

end Order

section Groups
variable {reduceFn : ReduceFn} {aux buf : Bytes}

variable (reduceFn aux buf) in
theorem reduceGroups_spec {heads : List KeyValue} {group : KeyValue → List KeyValue}
    (starts : ∀ head ∈ heads, ∃ kv rest, group head = kv :: rest ∧ kv.key = head.key)
    (fits : ∀ head ∈ heads, head.key.length ≤ u32Max)
    (answers : ∀ head ∈ heads, ∃ output,
      reduceFn head.key ((group head).map (·.value)) aux = .ok output ∧ output.length ≤ u32Max) :
    ∃ records, reduceGroups reduceFn aux (heads.map group) buf = .ok (buf ++ pairsBytes records) ∧
      records.map (·.key) = heads.map (·.key) ∧
      ∀ r ∈ records, r.Fits ∧ ∃ head ∈ heads, head.key = r.key ∧
        reduceFn r.key ((group head).map (·.value)) aux = .ok r.value := by
  induction heads generalizing buf with
  | nil => exact ⟨[], by simp [reduceGroups, pairsBytes], rfl, fun _ h => absurd h List.not_mem_nil⟩
  | cons head heads ih =>
      obtain ⟨kv, rest, made, key⟩ := starts head List.mem_cons_self
      obtain ⟨output, answer, short⟩ := answers head List.mem_cons_self
      have fit : KeyValue.Fits ⟨head.key, output⟩ := ⟨fits head List.mem_cons_self, short⟩
      obtain ⟨records, written, keys, results⟩ :=
        ih (buf ++ pairsBytes [⟨head.key, output⟩])
          (fun r hr => starts r (List.mem_cons_of_mem _ hr))
          (fun r hr => fits r (List.mem_cons_of_mem _ hr))
          (fun r hr => answers r (List.mem_cons_of_mem _ hr))
      refine ⟨⟨head.key, output⟩ :: records, ?_, ?_, fun r hr => ?_⟩
      · rw [made] at answer
        rw [List.map_cons, made, reduceGroups, key, answer, ok_bind, sendPair_of_fits fit, ok_bind,
          written, List.append_assoc, ← pairsBytes_append, List.singleton_append]
      · rw [List.map_cons, List.map_cons, keys]
      · cases hr with
        | head => exact ⟨fit, head, List.mem_cons_self, rfl, answer⟩
        | tail _ hr =>
            obtain ⟨fit, head', inside, same, result⟩ := results r hr
            exact ⟨fit, head', List.mem_cons_of_mem _ inside, same, result⟩

theorem reduceGroups_of_long {kv : KeyValue} {group : List KeyValue} {groups : List (List KeyValue)}
    {output : Bytes} (answer : reduceFn kv.key ((kv :: group).map (·.value)) aux = .ok output)
    (long : u32Max < output.length) :
    reduceGroups reduceFn aux ((kv :: group) :: groups) buf = .error .panic := by
  have send : sendPair buf ⟨kv.key, output⟩ = .error .panic := sendPair_of_long long
  rw [reduceGroups, answer, ok_bind, send]
  rfl

variable {sorter : Sorter KeyValue} {kvs : List KeyValue}

variable (sorter kvs) in
theorem classes_sort : ∃ heads : List KeyValue,
    (heads.Pairwise fun a b => rank a.key < rank b.key) ∧
      (∀ key, key ∈ heads.map (·.key) ↔ key ∈ kvs.map (·.key)) ∧
      runs compareKey (sorter.sort compareKey kvs) =
        heads.map fun head => (sorter.sort compareKey kvs).filter fun kv => compareKey head kv = 0 := by
  have sorted := sorter.sorted compareKey kvs compareKey_consistent
  have perm := sorter.perm compareKey kvs
  obtain ⟨heads, inside, distinct, cover, classes⟩ := runs_eq_classes compareKey_consistent sorted
  refine ⟨heads, ?_, fun key => ⟨fun h => ?_, fun h => ?_⟩, classes⟩
  · refine ((sorted.sublist inside).and distinct).imp ?_
    intro a b both
    apply compareKey_neg.mp
    omega
  · obtain ⟨head, hh, rfl⟩ := List.mem_map.mp h
    exact List.mem_map_of_mem (perm.mem_iff.mp (inside.mem hh))
  · obtain ⟨kv, hkv, rfl⟩ := List.mem_map.mp h
    obtain ⟨head, hh, same⟩ := cover kv (perm.mem_iff.mpr hkv)
    exact List.mem_map.mpr ⟨head, hh, compareKey_eq_zero.mp same⟩

variable (sorter) in
/-- The groups of the sorted pairs reduce to records that group them by key. -/
theorem reduceGroups_sort (fits : ∀ kv ∈ kvs, kv.Fits) (answers : Answers reduceFn aux kvs) :
    ∃ records, reduceGroups reduceFn aux (runs compareKey (sorter.sort compareKey kvs)) [] =
        .ok (pairsBytes records) ∧
      (∀ r ∈ records, r.Fits) ∧ Reduced reduceFn aux kvs records := by
  have perm := sorter.perm compareKey kvs
  obtain ⟨heads, increasing, members, classes⟩ := classes_sort sorter kvs
  let group (head : KeyValue) := (sorter.sort compareKey kvs).filter fun kv => compareKey head kv = 0
  have of_head (head : KeyValue) (hh : head ∈ heads) : ∃ kv ∈ kvs, kv.key = head.key :=
    List.mem_map.mp ((members head.key).mp (List.mem_map_of_mem hh))
  have values (head : KeyValue) : ((group head).map (·.value)).Perm (valuesOf head.key kvs) := by
    refine List.Perm.map _ ?_
    have same : group head = (sorter.sort compareKey kvs).filter fun kv => kv.key = head.key := by
      refine List.filter_congr fun kv _ => ?_
      rw [decide_eq_decide, compareKey_eq_zero]
      exact eq_comm
    rw [same]
    exact perm.filter _
  have starts : ∀ head ∈ heads, ∃ kv rest, group head = kv :: rest ∧ kv.key = head.key := by
    intro head hh
    obtain ⟨kv, hkv, key⟩ := of_head head hh
    have inside : kv ∈ group head := by
      refine List.mem_filter.mpr ⟨perm.mem_iff.mpr hkv, ?_⟩
      simpa using compareKey_eq_zero.mpr key.symm
    cases made : group head with
    | nil =>
        rw [made] at inside
        exact absurd inside List.not_mem_nil
    | cons first rest =>
        have first_in : first ∈ group head := made ▸ List.mem_cons_self
        have equal : compareKey head first = 0 := by simpa using (List.mem_filter.mp first_in).2
        exact ⟨first, rest, rfl, (compareKey_eq_zero.mp equal).symm⟩
  have key_fits : ∀ head ∈ heads, head.key.length ≤ u32Max := by
    intro head hh
    obtain ⟨kv, hkv, key⟩ := of_head head hh
    exact key ▸ (fits kv hkv).1
  obtain ⟨records, written, keys, results⟩ :=
    reduceGroups_spec reduceFn aux [] starts key_fits fun head hh =>
      answers head.key ((members _).mp (List.mem_map_of_mem hh)) _ (values head)
  refine ⟨records, ?_, fun r hr => (results r hr).1, ?_, fun key => ?_, fun r hr => ?_⟩
  · rw [classes]
    exact written
  · have ranks : (records.map (·.key)).Pairwise fun a b => rank a < rank b := by
      rw [keys]
      exact List.pairwise_map.mpr increasing
    exact (List.pairwise_map (f := KeyValue.key) (R := fun a b => rank a < rank b)).mp ranks
  · rw [keys]
    exact members key
  · obtain ⟨-, head, hh, same, result⟩ := results r hr
    exact ⟨_, same ▸ values head, result⟩

end Groups

section Task
variable {sorter : Sorter KeyValue} {reduceFn : ReduceFn} {aux : Bytes} {files : Files}
variable {readMapFrom : Nat → ReadMapRequest → Except Status Bytes} {jobId task : Nat}
variable {mapTasks : List MapTaskAssignment} {parts : Nat → List KeyValue} {outputDir : String}

theorem readMaps_spec (fits : ∀ assigned ∈ mapTasks, ∀ kv ∈ parts assigned.task, kv.Fits)
    (ready : ∀ assigned ∈ mapTasks, readMapFrom assigned.workerId ⟨jobId, assigned.task, task⟩ =
      .ok (pairsBytes (parts assigned.task))) :
    readMaps readMapFrom jobId task mapTasks =
      .ok (.ok (mapTasks.flatMap fun assigned => parts assigned.task)) := by
  induction mapTasks with
  | nil => rfl
  | cons assigned mapTasks ih =>
      have others := ih (fun m hm => fits m (List.mem_cons_of_mem _ hm))
        (fun m hm => ready m (List.mem_cons_of_mem _ hm))
      rw [readMaps, ready assigned List.mem_cons_self]
      simp only [readPairs_pairsBytes (fits assigned List.mem_cons_self), ok_bind, others]
      rfl

variable (sorter readMapFrom parts) in
/-- A reduce task that finds its pairs leaves the records that group them. -/
theorem reduce_spec (fits : ∀ assigned ∈ mapTasks, ∀ kv ∈ parts assigned.task, kv.Fits)
    (ready : ∀ assigned ∈ mapTasks, readMapFrom assigned.workerId ⟨jobId, assigned.task, task⟩ =
      .ok (pairsBytes (parts assigned.task)))
    (answers : Answers reduceFn aux (mapTasks.flatMap fun assigned => parts assigned.task)) :
    ∃ records, reduce sorter reduceFn readMapFrom jobId task mapTasks outputDir aux files =
        .ok (.ok (Function.update files (.out outputDir task) (some (pairsBytes records)))) ∧
      (∀ r ∈ records, r.Fits) ∧
      Reduced reduceFn aux (mapTasks.flatMap fun assigned => parts assigned.task) records := by
  have all : ∀ kv ∈ mapTasks.flatMap fun assigned => parts assigned.task, kv.Fits := by
    intro kv hkv
    obtain ⟨assigned, hm, hkv⟩ := List.mem_flatMap.mp hkv
    exact fits assigned hm kv hkv
  obtain ⟨records, made, fit, reduced⟩ := reduceGroups_sort sorter all answers
  refine ⟨records, ?_, fit, reduced⟩
  rw [reduce, readMaps_spec fits ready, ok_bind]
  simp only [made, ok_bind]
  rfl

end Task
end CS162.MapReduceRs
