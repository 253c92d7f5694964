import CS162.MapReduce.TaskHandler

/-!
What each task does to the files: a map task leaves the pairs of every partition
in an intermediate file of its own, a reduce task reads one partition back and
leaves a record for each run of its sorted pairs.
-/

namespace CS162.MapReduce
open CS162.Library

/-- The reduce task that gets the key's pairs. -/
def reduceTaskOf (nReduce : Nat) (key : Buffer) : Option Nat :=
  (ihash key).map fun hash => hash.toNat % nReduce

def partitionOf (nReduce r : Nat) (kvs : List KeyValue) : List KeyValue :=
  kvs.filter fun kv => reduceTaskOf nReduce kv.key = some r

/-- The file to which the pairs were written in order. -/
def pairsFile (kvs : List KeyValue) : List UInt8 :=
  written (kvs.flatMap fun kv => [kv.key, kv.value])

theorem ihash_isSome {key : Buffer} : (ihash key).isSome ↔ key.length < 2 ^ 32 := by
  unfold ihash
  split <;> simp_all

section Files
variable {files : Files} {name other : FileName} {bytes : List UInt8}

theorem writeTo_of_some (buf : Buffer) (h : files name = some bytes) :
    writeTo files name buf = Function.update files name (some (bytes ++ record buf)) := by
  rw [writeTo, h]
  rfl

@[simp] theorem writeTo_ne {buf : Buffer} (h : other ≠ name) : writeTo files name buf other = files other :=
  Function.update_of_ne h ..

@[simp] theorem pairsFile_nil : pairsFile [] = [] := rfl

theorem pairsFile_cons {kv : KeyValue} {kvs : List KeyValue} :
    pairsFile (kv :: kvs) = record kv.key ++ (record kv.value ++ pairsFile kvs) := by
  simp [pairsFile, written]

theorem foldl_writeTo (kvs : List KeyValue) (h : files name = some bytes) :
    kvs.foldl (fun files kv => writeTo (writeTo files name kv.key) name kv.value) files =
      Function.update files name (some (bytes ++ pairsFile kvs)) := by
  induction kvs generalizing files bytes with
  | nil => simp [pairsFile, written, ← h]
  | cons kv kvs ih =>
      have key := writeTo_of_some kv.key h
      have value : writeTo (writeTo files name kv.key) name kv.value =
          Function.update files name (some (bytes ++ record kv.key ++ record kv.value)) := by
        rw [key, writeTo_of_some _ (Function.update_self ..), Function.update_idem]
      rw [List.foldl_cons, ih (by rw [value, Function.update_self]), value, Function.update_idem,
        pairsFile_cons]
      simp only [List.append_assoc]

end Files

section MapTask
variable {reply : TaskReply} {files files' : Files} {kva : List KeyValue}

theorem openMapWriters_apply {name : FileName} :
    openMapWriters files reply name =
      if name ∈ (List.range reply.nReduce).map (.tmp reply.task) then some [] else files name := by
  unfold openMapWriters
  induction List.range reply.nReduce generalizing files with
  | nil => rfl
  | cons i order ih =>
      rw [List.foldl_cons, ih]
      by_cases later : name ∈ order.map (.tmp reply.task)
      · simp [later]
      · by_cases same : name = .tmp reply.task i
        · simp [same]
        · simp [same, later]

/-- `write_map_kvs` comes to an end only on keys whose hash does. -/
theorem short_of_writeMapKvs (h : writeMapKvs reply files kva = .ok files') :
    ∀ kv ∈ kva, kv.key.length < 2 ^ 32 := by
  induction kva generalizing files with
  | nil => simp
  | cons kv kva ih =>
      simp only [writeMapKvs] at h
      split at h
      · cases h
      · next hash hashed =>
          intro other hother
          cases hother with
          | head => exact ihash_isSome.mp (by rw [hashed]; rfl)
          | tail _ hother => exact ih h other hother

theorem writeMapKvs_frame (h : writeMapKvs reply files kva = .ok files') {name : FileName}
    (other : ∀ r, name ≠ .tmp reply.task r) : files' name = files name := by
  induction kva generalizing files with
  | nil =>
      cases h
      rfl
  | cons kv kva ih =>
      simp only [writeMapKvs] at h
      split at h
      · cases h
      · rw [ih h, writeTo_ne (other _), writeTo_ne (other _)]

theorem writeMapKvs_spec (short : ∀ kv ∈ kva, kv.key.length < 2 ^ 32) (hn : 0 < reply.nReduce)
    {contents : Nat → List UInt8}
    (opened : ∀ r < reply.nReduce, files (.tmp reply.task r) = some (contents r)) :
    ∃ files', writeMapKvs reply files kva = .ok files' ∧
      ∀ r < reply.nReduce, files' (.tmp reply.task r) =
        some (contents r ++ pairsFile (partitionOf reply.nReduce r kva)) := by
  induction kva generalizing files contents with
  | nil =>
      refine ⟨files, rfl, fun r hr => ?_⟩
      simp [opened r hr, partitionOf, pairsFile, written]
  | cons kv kva ih =>
      obtain ⟨hash, hashed⟩ := Option.isSome_iff_exists.mp (ihash_isSome.mpr (short kv (by simp)))
      have target := Nat.mod_lt hash.toNat hn
      let w := hash.toNat % reply.nReduce
      have home : reduceTaskOf reply.nReduce kv.key = some w := by
        rw [reduceTaskOf, hashed]
        rfl
      have both := foldl_writeTo [kv] (opened w target)
      simp only [List.foldl_cons, List.foldl_nil] at both
      have opened' : ∀ r < reply.nReduce,
          writeTo (writeTo files (.tmp reply.task w) kv.key) (.tmp reply.task w) kv.value
            (.tmp reply.task r) =
              some (if r = w then contents r ++ pairsFile [kv] else contents r) := by
        intro r hr
        rw [both]
        by_cases same : r = w
        · rw [same, Function.update_self, if_pos rfl]
        · rw [Function.update_of_ne (by simpa using same), opened r hr, if_neg same]
      obtain ⟨files', done, after⟩ := ih (fun kv hkv => short kv (List.mem_cons_of_mem _ hkv)) opened'
      refine ⟨files', by simpa only [writeMapKvs, hashed] using done, fun r hr => ?_⟩
      rw [after r hr]
      by_cases same : w = r
      · rw [if_pos same.symm, partitionOf, partitionOf, List.filter_cons_of_pos (by simp [home, same]),
          List.append_assoc]
        simp [pairsFile_cons]
      · rw [if_neg (Ne.symm same), partitionOf, partitionOf,
          List.filter_cons_of_neg (by simp [home, same])]

/-- A map task that can read its file and hash its keys leaves the pairs of
each partition in the partition's file, and changes no other. -/
theorem handleMapTask_spec {getApp : String → Option App} {app : App} {contents : Buffer}
    (known : getApp reply.app = some app) (read : readAll files reply.file = some contents)
    (short : ∀ kv ∈ app.map ⟨reply.file, contents⟩ reply.args, kv.key.length < 2 ^ 32)
    (hn : 0 < reply.nReduce) :
    ∃ files', handleMapTask getApp reply files = .ok files' ∧
      (∀ r < reply.nReduce, files' (.tmp reply.task r) = some
        (pairsFile (partitionOf reply.nReduce r (app.map ⟨reply.file, contents⟩ reply.args)))) ∧
      ∀ name, (∀ r, name ≠ .tmp reply.task r) → files' name = files name := by
  have opened (r : Nat) (hr : r < reply.nReduce) :
      openMapWriters files reply (.tmp reply.task r) = some ((fun _ => []) r) := by
    rw [openMapWriters_apply, if_pos (by simpa using hr)]
  have kept (name : FileName) (other : ∀ r, name ≠ .tmp reply.task r) :
      openMapWriters files reply name = files name := by
    rw [openMapWriters_apply, if_neg]
    simpa using fun r _ => (other r).symm
  have read' : readAll (openMapWriters files reply) reply.file = some contents := by
    rw [readAll, kept _ (by simp)]
    exact read
  obtain ⟨files', done, after⟩ := writeMapKvs_spec short hn opened
  refine ⟨files', ?_, fun r hr => by simpa using after r hr, fun name other => ?_⟩
  · simpa only [handleMapTask, known, read'] using done
  · rw [writeMapKvs_frame done other, kept name other]

theorem short_of_handleMapTask {getApp : String → Option App} {app : App} {contents : Buffer}
    (known : getApp reply.app = some app) (read : readAll files reply.file = some contents)
    (h : handleMapTask getApp reply files = .ok files') :
    ∀ kv ∈ app.map ⟨reply.file, contents⟩ reply.args, kv.key.length < 2 ^ 32 := by
  have kept : openMapWriters files reply (.input reply.file) = files (.input reply.file) := by
    rw [openMapWriters_apply, if_neg (by simp)]
  have read' : readAll (openMapWriters files reply) reply.file = some contents := by
    rw [readAll, kept]
    exact read
  simp only [handleMapTask, known, read'] at h
  exact short_of_writeMapKvs h

end MapTask

section ReduceTask
variable {reply : TaskReply} {files : Files} {kvs : List KeyValue}

theorem ldrCount_pairsFile : ldrCount (pairsFile kvs) = 2 * kvs.length := by
  rw [pairsFile, ldrCount_written]
  induction kvs with
  | nil => rfl
  | cons kv kvs ih =>
      rw [List.flatMap_cons, List.length_append, ih, List.length_cons]
      simp only [List.length_cons, List.length_nil]
      omega

theorem ldrCount_pairsFiles {lists : List (List KeyValue)} :
    ((lists.map pairsFile).map ldrCount).sum = 2 * lists.flatten.length := by
  induction lists with
  | nil => rfl
  | cons list lists ih =>
      rw [List.map_cons, List.map_cons, List.sum_cons, ih, ldrCount_pairsFile, List.flatten_cons,
        List.length_append]
      omega

theorem readPairs_pairsFile {room : Nat} : readPairs room (pairsFile kvs) = kvs.take room := by
  induction kvs generalizing room with
  | nil =>
      cases room with
      | zero => rfl
      | succ room => simp [readPairs, ldrNext_nil]
  | cons kv kvs ih =>
      cases room with
      | zero => rfl
      | succ room => simp [readPairs, pairsFile_cons, ldrNext_record, ih]

theorem readMapKvs_pairsFiles (parts : List (List KeyValue)) :
    readMapKvs parts.flatten.length (parts.map pairsFile) = parts.flatten := by
  have fill (parts : List (List KeyValue)) (length : Nat) (acc : List KeyValue)
      (room : acc.length + parts.flatten.length ≤ length) :
      (parts.map pairsFile).foldl (fun kvs reader => kvs ++ readPairs (length - kvs.length) reader)
        acc = acc ++ parts.flatten := by
    induction parts generalizing acc with
    | nil => simp
    | cons part parts ih =>
        rw [List.flatten_cons, List.length_append] at room
        have whole : part.take (length - acc.length) = part :=
          List.take_of_length_le (by omega)
        rw [List.map_cons, List.foldl_cons, readPairs_pairsFile, whole, ih, List.flatten_cons,
          List.append_assoc]
        rw [List.length_append]
        omega
  exact fill parts _ [] (by simp)

theorem openReduceReaders_spec {parts : Nat → List KeyValue}
    (ready : ∀ i < reply.nMap, files (.tmp i reply.task) = some (pairsFile (parts i))) :
    openReduceReaders files reply = some (((List.range reply.nMap).map parts).map pairsFile) := by
  have all (order : List Nat) (inside : ∀ i ∈ order, i < reply.nMap) :
      order.mapM (fun i => files (.tmp i reply.task)) = some ((order.map parts).map pairsFile) := by
    induction order with
    | nil => rfl
    | cons i order ih =>
        rw [List.mapM_cons, ready i (inside i (by simp)),
          ih fun j hj => inside j (List.mem_cons_of_mem _ hj)]
        rfl
  exact all _ fun i hi => List.mem_range.mp hi

/-- The record that `reduce` makes of a run of pairs. -/
def runRecord (reduce : Buffer → List KeyValue → KeyValue) : List KeyValue → List KeyValue
  | [] => []
  | kv :: run => [reduce kv.key (kv :: run)]

section Loop
variable {reduce : Buffer → List KeyValue → KeyValue} {first kv : KeyValue} {p1 p2 : Nat}

theorem reduceLoop_end (h : kvs.length ≤ p1) : reduceLoop reduce kvs p1 p2 = [] := by
  rw [reduceLoop, dif_neg (by omega)]

theorem reduceLoop_join (h1 : kvs[p1]? = some first) (h2 : kvs[p2]? = some kv)
    (same : byKey first kv = 0) : reduceLoop reduce kvs p1 p2 = reduceLoop reduce kvs p1 (p2 + 1) := by
  obtain ⟨inside, rfl⟩ := List.getElem?_eq_some_iff.mp h1
  rw [reduceLoop, dif_pos inside, dif_neg (by simp [h2, same])]

theorem reduceLoop_stop (h1 : kvs[p1]? = some first) (h2 : ∀ kv, kvs[p2]? = some kv → byKey first kv ≠ 0)
    (later : p1 < p2) : reduceLoop reduce kvs p1 p2 =
      reduce first.key ((kvs.drop p1).take (p2 - p1)) :: reduceLoop reduce kvs p2 (p2 + 1) := by
  obtain ⟨inside, rfl⟩ := List.getElem?_eq_some_iff.mp h1
  have ends : (kvs[p2]?).all fun kv => byKey kvs[p1] kv ≠ 0 := by
    simpa [Option.all_eq_true] using h2
  rw [reduceLoop, dif_pos inside, dif_pos ends, if_pos later]
  rfl

/-- The loop, at a run whose first pair is at `p1` and which reaches up to `p2`. -/
theorem reduceLoop_run (reduce : Buffer → List KeyValue → KeyValue) (front run rest : List KeyValue)
    (first : KeyValue) :
    reduceLoop reduce (front ++ (first :: run ++ rest)) front.length
        (front.length + (run.length + 1)) =
      (runsFrom byKey first (first :: run) rest).flatMap (runRecord reduce) := by
  induction rest generalizing front first run with
  | nil =>
      have at_first : (front ++ (first :: run ++ []))[front.length]? = some first := by simp
      rw [reduceLoop_stop at_first (by simp) (by omega), reduceLoop_end (by simp)]
      simp [runsFrom, runRecord]
  | cons kv rest ih =>
      have at_first : (front ++ (first :: run ++ kv :: rest))[front.length]? = some first := by simp
      have at_kv : (front ++ (first :: run ++ kv :: rest))[front.length + (run.length + 1)]? =
          some kv := by
        simp
      by_cases same : byKey first kv = 0
      · rw [reduceLoop_join at_first at_kv same, runsFrom, if_neg (by simpa using same)]
        have next := ih front (run ++ [kv]) first
        simpa [Nat.add_assoc] using next
      · have differ : ∀ other, (front ++ (first :: run ++ kv :: rest))[front.length + (run.length + 1)]? =
            some other → byKey first other ≠ 0 := by
          rw [at_kv]
          rintro _ ⟨⟩
          exact same
        have group : ((front ++ (first :: run ++ kv :: rest)).drop front.length).take
            (front.length + (run.length + 1) - front.length) = first :: run := by
          simp
        have next := ih (front ++ first :: run) [] kv
        rw [reduceLoop_stop at_first differ (by omega), group, runsFrom, if_pos same,
          List.flatMap_cons, runRecord, List.singleton_append]
        refine congrArg _ ?_
        simpa [Nat.add_assoc] using next

/-- `reduce_kvs` makes one record of each run of the array. -/
theorem reduceLoop_eq_runs :
    reduceLoop reduce kvs 0 1 = (runs byKey kvs).flatMap (runRecord reduce) := by
  cases kvs with
  | nil => exact reduceLoop_end (Nat.le_refl _)
  | cons first rest => simpa [runs] using reduceLoop_run reduce [] [] rest first

end Loop

/-- The records of a reduce task. -/
def reduceRecords (qsort : Sorter KeyValue) (reduce : Buffer → List KeyValue → KeyValue)
    (kvs : List KeyValue) : List KeyValue :=
  (runs byKey (qsort.sort byKey kvs)).flatMap (runRecord reduce)

/-- A reduce task that finds its intermediate files sorts and reduces their
pairs, as far as the comparison orders them. -/
theorem handleReduceTask_spec {getApp : String → Option App} {qsort : Sorter KeyValue} {app : App}
    {parts : Nat → List KeyValue} (known : getApp reply.app = some app)
    (ready : ∀ i < reply.nMap, files (.tmp i reply.task) = some (pairsFile (parts i))) :
    handleReduceTask getApp qsort reply files =
      if Library.Consistent byKey ((List.range reply.nMap).flatMap parts) then
        .ok (Function.update files (.out reply.task) (some (pairsFile (reduceRecords qsort
          (fun key kvs => app.reduce key kvs reply.args) ((List.range reply.nMap).flatMap parts)))))
      else .error .undefined := by
  have readers := openReduceReaders_spec ready
  rw [List.flatMap_def]
  generalize (List.range reply.nMap).map parts = lists at readers ⊢
  simp only [handleReduceTask, readers, ldrCount_pairsFiles]
  rw [if_neg (by omega), Nat.mul_div_cancel_left _ (by omega : 0 < 2)]
  by_cases some_pairs : lists.flatten.length > 0
  · simp only [if_pos some_pairs, known, reduceKvs, readMapKvs_pairsFiles]
    refine if_congr Iff.rfl ?_ rfl
    rw [reduceLoop_eq_runs, foldl_writeTo _ (Function.update_self ..), Function.update_idem]
    rfl
  · have none_left : lists.flatten = [] := List.eq_nil_of_length_eq_zero (by omega)
    have nothing : qsort.sort byKey [] = [] := List.Perm.eq_nil (qsort.perm byKey [])
    rw [if_neg some_pairs, none_left, if_pos ⟨by simp, by simp⟩, reduceRecords, nothing]
    rfl

end ReduceTask
end CS162.MapReduce
