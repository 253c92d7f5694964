import Mathlib.Data.List.Lex
import Mathlib.Data.Prod.Lex
import CS162.MapReduce.TaskHandler
import CS162.MapReduce.TaskHandlerSpec
import CS162.MapReduce.VertexDegree

/-!
A job's tasks, run in any order, group the emitted pairs by key exactly where
the comparison of `reduce_kvs` tells the keys of a partition apart.

What `by_key` compares are the keys up to their first zero byte, and then their
lengths. As long as the lengths differ by no more than an `int` holds this is a
linear order of these two, so `by_key` is consistent, but two keys of one
length that differ only behind a zero byte are equal for it, and where they meet
in a partition their pairs are reduced together.
-/

namespace CS162.MapReduce
open CS162.Library

/-- The bytes of a key up to its first zero byte. -/
def cString : List UInt8 → List Nat
  | [] => []
  | a :: s => a.toNat :: if a = 0 then [] else cString s

def keyRank (kv : KeyValue) : List Nat ×ₗ Nat := toLex (cString kv.key.bytes, kv.key.length)

theorem strncmp_cases (s t : List UInt8) :
    let c := strncmp (min s.length t.length) s t
    (c < 0 ∧ cString s < cString t) ∨ (0 < c ∧ cString t < cString s) ∨
      (c = 0 ∧ cString s = cString t) ∨
      (c = 0 ∧ s.length < t.length ∧ cString s < cString t) ∨
      (c = 0 ∧ t.length < s.length ∧ cString t < cString s) := by
  induction s generalizing t with
  | nil =>
      cases t with
      | nil => exact .inr (.inr (.inl ⟨rfl, rfl⟩))
      | cons b t => exact .inr (.inr (.inr (.inl ⟨by simp [strncmp], by simp, List.nil_lt_cons ..⟩)))
  | cons a s ih =>
      cases t with
      | nil => exact .inr (.inr (.inr (.inr ⟨by simp [strncmp], by simp, List.nil_lt_cons ..⟩)))
      | cons b t =>
          simp only [List.length_cons, Nat.add_min_add_right, strncmp, cString]
          by_cases differ : a ≠ b
          · have : a.toNat ≠ b.toNat := fun equal => differ (UInt8.toNat_inj.mp equal)
            rw [if_pos differ, List.cons_lt_cons_iff, List.cons_lt_cons_iff]
            omega
          · have := not_not.mp differ
            subst this
            rw [if_neg differ]
            by_cases zero : a = 0
            · simp [zero]
            · simpa [zero] using ih t

theorem byKey_of_keys_eq {kv1 kv2 kv1' kv2' : KeyValue} (h1 : kv1.key = kv1'.key)
    (h2 : kv2.key = kv2'.key) : byKey kv1 kv2 = byKey kv1' kv2' := by
  rw [byKey, byKey, h1, h2]

section Short
variable {kv1 kv2 : KeyValue}

theorem byKey_sign (h1 : kv1.key.length < 2 ^ 31) (h2 : kv2.key.length < 2 ^ 31) :
    (byKey kv1 kv2 < 0 ∧ keyRank kv1 < keyRank kv2) ∨
      (0 < byKey kv1 kv2 ∧ keyRank kv2 < keyRank kv1) ∨
      (byKey kv1 kv2 = 0 ∧ keyRank kv1 = keyRank kv2) := by
  have difference : toInt32 ((kv1.key.length : Int) - kv2.key.length) =
      (kv1.key.length : Int) - kv2.key.length :=
    toInt32_of_range (by omega) (by unfold intMax; omega)
  have cases := strncmp_cases kv1.key.bytes kv2.key.bytes
  simp only [keyRank, Prod.Lex.toLex_lt_toLex, byKey, difference, EmbeddingLike.apply_eq_iff_eq,
    Prod.mk.injEq, Buffer.length_bytes] at cases ⊢
  obtain ⟨c, less⟩ | ⟨c, more⟩ | ⟨c, same⟩ | ⟨c, shorter, less⟩ | ⟨c, longer, more⟩ := cases
  · exact .inl ⟨by rw [if_neg (by omega)]; exact c, .inl less⟩
  · exact .inr (.inl ⟨by rw [if_neg (by omega)]; exact c, .inl more⟩)
  · rw [if_pos c, same]
    simp only [true_and, lt_irrefl, false_or]
    omega
  · exact .inl ⟨by rw [if_pos c]; omega, .inl less⟩
  · exact .inr (.inl ⟨by rw [if_pos c]; omega, .inl more⟩)

theorem byKey_consistent {kvs : List KeyValue} (short : ∀ kv ∈ kvs, kv.key.length < 2 ^ 31) :
    Library.Consistent byKey kvs := by
  refine .of_rank keyRank (fun kv1 h1 kv2 h2 => ?_) fun kv1 h1 kv2 h2 => ?_
  all_goals
    obtain ⟨sign, rank⟩ | ⟨sign, rank⟩ | ⟨sign, rank⟩ := byKey_sign (short kv1 h1) (short kv2 h2)
  · exact ⟨fun _ => rank, fun _ => sign⟩
  · exact ⟨fun h => absurd h (by omega), fun h => absurd h rank.asymm⟩
  · exact ⟨fun h => absurd h (by omega), fun h => absurd rank h.ne⟩
  · exact ⟨fun h => absurd h (by omega), fun h => absurd h rank.asymm⟩
  · exact ⟨fun _ => rank, fun _ => sign⟩
  · exact ⟨fun h => absurd h (by omega), fun h => absurd rank.symm h.ne⟩

/-- The keys that `by_key` does not tell apart. -/
theorem byKey_eq_zero (h1 : kv1.key.length < 2 ^ 31) (h2 : kv2.key.length < 2 ^ 31) :
    byKey kv1 kv2 = 0 ↔
      cString kv1.key.bytes = cString kv2.key.bytes ∧ kv1.key.length = kv2.key.length := by
  have same : keyRank kv1 = keyRank kv2 ↔
      cString kv1.key.bytes = cString kv2.key.bytes ∧ kv1.key.length = kv2.key.length := by
    rw [keyRank, keyRank, EmbeddingLike.apply_eq_iff_eq, Prod.mk.injEq]
  rw [← same]
  obtain ⟨sign, rank⟩ | ⟨sign, rank⟩ | ⟨sign, rank⟩ := byKey_sign h1 h2
  · exact ⟨fun h => absurd h (by omega), fun h => absurd h rank.ne⟩
  · exact ⟨fun h => absurd h (by omega), fun h => absurd h.symm rank.ne⟩
  · exact ⟨fun _ => rank, fun _ => sign⟩

end Short
/-- What the map task emits. -/
def fileOutput (app : App) (job : TaskJob) (files : Files) (task : Nat) : List KeyValue :=
  match readAll files (job.mapReply task).file with
  | none => []
  | some contents => app.map ⟨(job.mapReply task).file, contents⟩ job.args

def emitted (app : App) (job : TaskJob) (files : Files) : List KeyValue :=
  (List.range job.nMap).flatMap (fileOutput app job files)

/-- The pairs of an output file, as the client reads them. -/
def decoded (file : List UInt8) : Option (List KeyValue) :=
  if ldrCount file % 2 = 1 then none else some (readPairs (ldrCount file / 2) file)

/-- The reference group-by: each key has one record, in the file of its
partition, made of exactly the pairs with that key. -/
def GroupsBy (reduce : Buffer → List KeyValue → KeyValue) (nReduce : Nat) (kvs : List KeyValue)
    (final : Files) : Prop :=
  ∀ r < nReduce, ∃ (file : List UInt8) (keys : List Buffer) (input : Buffer → List KeyValue),
    final (.out r) = some file ∧ keys.Nodup ∧
      (∀ key, key ∈ keys ↔ (∃ kv ∈ kvs, kv.key = key) ∧ reduceTaskOf nReduce key = some r) ∧
      (∀ key ∈ keys, (input key).Perm (kvs.filter fun kv => kv.key = key)) ∧
      decoded file = some (keys.map fun key => reduce key (input key))

/-- The keys can be hashed, and `byKey` orders those of each partition and tells
them apart. -/
structure KeysApart (nReduce : Nat) (kvs : List KeyValue) : Prop where
  hashed : ∀ kv ∈ kvs, kv.key.length < 2 ^ 32
  ordered : ∀ r < nReduce, Library.Consistent byKey (partitionOf nReduce r kvs)
  apart : ∀ kv1 ∈ kvs, ∀ kv2 ∈ kvs, reduceTaskOf nReduce kv1.key = reduceTaskOf nReduce kv2.key →
    byKey kv1 kv2 = 0 → kv1.key = kv2.key

theorem decoded_pairsFile {kvs : List KeyValue} : decoded (pairsFile kvs) = some kvs := by
  rw [decoded, ldrCount_pairsFile, if_neg (by omega), Nat.mul_div_cancel_left _ (by omega : 0 < 2),
    readPairs_pairsFile, List.take_length]

section Run
variable {getApp : String → Option App} {qsort : Sorter KeyValue} {job : TaskJob} {app : App}
variable {files files' final : Files} {order : List Nat}

theorem fileOutput_congr (app : App) (job : TaskJob)
    (same : ∀ path, files' (.input path) = files (.input path)) :
    fileOutput app job files' = fileOutput app job files := by
  funext task
  rw [fileOutput, fileOutput, readAll, readAll, same]

theorem fileOutput_of_read (app : App) {task : Nat} {contents : Buffer}
    (read : readAll files (job.mapReply task).file = some contents) :
    fileOutput app job files task =
      app.map ⟨(job.mapReply task).file, contents⟩ (job.mapReply task).args := by
  rw [fileOutput, read]
  rfl

theorem runMaps_spec (known : getApp job.app = some app) (hn : 0 < job.nReduce)
    (readable : ∀ task ∈ order, (readAll files (job.mapReply task).file).isSome)
    (short : ∀ task ∈ order, ∀ kv ∈ fileOutput app job files task, kv.key.length < 2 ^ 32) :
    ∃ files', runMaps getApp job order files = .ok files' ∧
      (∀ task ∈ order, ∀ r < job.nReduce, files' (.tmp task r) =
        some (pairsFile (partitionOf job.nReduce r (fileOutput app job files task)))) ∧
      ∀ name, (∀ task ∈ order, ∀ r, name ≠ .tmp task r) → files' name = files name := by
  induction order generalizing files with
  | nil => exact ⟨files, rfl, by simp, fun _ _ => rfl⟩
  | cons task order ih =>
      obtain ⟨contents, read⟩ := Option.isSome_iff_exists.mp (readable task (by simp))
      have output := fileOutput_of_read app read
      have short₀ := short task (by simp)
      rw [output] at short₀
      obtain ⟨files₁, done₁, wrote₁, kept₁⟩ := handleMapTask_spec known read short₀ hn
      have same : ∀ path, files₁ (.input path) = files (.input path) := fun _ => kept₁ _ (by simp)
      have outputs := fileOutput_congr app job same
      have readable₁ : ∀ task ∈ order, (readAll files₁ (job.mapReply task).file).isSome := by
        intro task' h
        rw [readAll, same]
        exact readable task' (List.mem_cons_of_mem _ h)
      obtain ⟨files₂, done₂, wrote₂, kept₂⟩ := ih readable₁ (by
        rw [outputs]
        exact fun task' h => short task' (List.mem_cons_of_mem _ h))
      refine ⟨files₂, by rw [runMaps, done₁]; exact done₂, fun task' h r hr => ?_, fun name other => ?_⟩
      · by_cases later : task' ∈ order
        · rw [wrote₂ task' later r hr, outputs]
        · have := (List.mem_cons.mp h).resolve_right later
          subst this
          rw [kept₂ _ (by rintro task'' h' r' ⟨⟩; exact later h'), output]
          exact wrote₁ r hr
      · rw [kept₂ name fun task' h => other task' (List.mem_cons_of_mem _ h),
          kept₁ name (other task (by simp))]

theorem short_of_runMaps (known : getApp job.app = some app) (hn : 0 < job.nReduce)
    (readable : ∀ task ∈ order, (readAll files (job.mapReply task).file).isSome)
    (h : runMaps getApp job order files = .ok files') :
    ∀ task ∈ order, ∀ kv ∈ fileOutput app job files task, kv.key.length < 2 ^ 32 := by
  induction order generalizing files with
  | nil => simp
  | cons task order ih =>
      obtain ⟨contents, read⟩ := Option.isSome_iff_exists.mp (readable task (by simp))
      have output := fileOutput_of_read app read
      rw [runMaps] at h
      split at h
      · cases h
      · next files₁ done₁ =>
          have short := short_of_handleMapTask known read done₁
          obtain ⟨files₂, done₂, -, kept⟩ := handleMapTask_spec known read short hn
          have : files₁ = files₂ := by
            rw [done₁] at done₂
            exact Except.ok.inj done₂
          subst this
          have same : ∀ path, files₁ (.input path) = files (.input path) := fun _ => kept _ (by simp)
          intro task' h'
          cases h' with
          | head =>
              rw [output]
              exact short
          | tail _ h' =>
              rw [← fileOutput_congr app job same]
              refine ih (fun task' h => ?_) h task' h'
              rw [readAll, same]
              exact readable task' (List.mem_cons_of_mem _ h)

/-- What reduce task `r` reads. -/
theorem partitionOf_emitted {r : Nat} :
    (List.range job.nMap).flatMap (fun i => partitionOf job.nReduce r (fileOutput app job files i)) =
      partitionOf job.nReduce r (emitted app job files) := by
  rw [partitionOf, emitted, List.filter_flatMap]
  rfl

/-- The intermediate files of reduce task `r` hold these pairs. -/
def Ready (job : TaskJob) (files : Files) (r : Nat) (pairs : List KeyValue) : Prop :=
  ∃ parts : Nat → List KeyValue, pairs = (List.range job.nMap).flatMap parts ∧
    ∀ i < job.nMap, files (.tmp i r) = some (pairsFile (parts i))

theorem Ready.congr {r : Nat} {pairs : List KeyValue} (ready : Ready job files r pairs)
    (same : ∀ i, files' (.tmp i r) = files (.tmp i r)) : Ready job files' r pairs := by
  obtain ⟨parts, rfl, held⟩ := ready
  exact ⟨parts, rfl, fun i hi => by rw [same, held i hi]⟩

/-- The output file of a reduce task on these pairs. -/
def outputOf (qsort : Sorter KeyValue) (app : App) (args : Buffer) (pairs : List KeyValue) :
    List UInt8 :=
  pairsFile (reduceRecords qsort (fun key kvs => app.reduce key kvs args) pairs)

theorem reduceTask_of_ready (qsort : Sorter KeyValue) {r : Nat} {pairs : List KeyValue}
    (known : getApp job.app = some app)
    (ready : Ready job files r pairs) :
    handleReduceTask getApp qsort (job.reduceReply r) files =
      if Library.Consistent byKey pairs then
        .ok (Function.update files (.out r) (some (outputOf qsort app job.args pairs)))
      else .error .undefined := by
  obtain ⟨parts, rfl, held⟩ := ready
  exact handleReduceTask_spec known held

theorem runReduces_spec (qsort : Sorter KeyValue) {pairs : Nat → List KeyValue}
    (known : getApp job.app = some app)
    (ready : ∀ r ∈ order, Ready job files r (pairs r))
    (ordered : ∀ r ∈ order, Library.Consistent byKey (pairs r)) :
    ∃ files', runReduces getApp qsort job order files = .ok files' ∧
      (∀ r ∈ order, files' (.out r) = some (outputOf qsort app job.args (pairs r))) ∧
      ∀ name, (∀ r ∈ order, name ≠ .out r) → files' name = files name := by
  induction order generalizing files with
  | nil => exact ⟨files, rfl, by simp, fun _ _ => rfl⟩
  | cons r order ih =>
      have step := reduceTask_of_ready qsort known (ready r (by simp))
      rw [if_pos (ordered r (by simp))] at step
      have ready' : ∀ r' ∈ order, Ready job (Function.update files (.out r)
          (some (outputOf qsort app job.args (pairs r)))) r' (pairs r') := fun r' h =>
        (ready r' (List.mem_cons_of_mem _ h)).congr fun i => Function.update_of_ne (by simp) ..
      obtain ⟨files', done, wrote, kept⟩ :=
        ih ready' fun r' h => ordered r' (List.mem_cons_of_mem _ h)
      refine ⟨files', by rw [runReduces, step]; exact done, fun r' h => ?_, fun name other => ?_⟩
      · by_cases later : r' ∈ order
        · exact wrote r' later
        · have := (List.mem_cons.mp h).resolve_right later
          subst this
          rw [kept _ (by rintro r'' h' ⟨⟩; exact later h'), Function.update_self]
      · rw [kept name fun r' h => other r' (List.mem_cons_of_mem _ h),
          Function.update_of_ne (other r (by simp))]

theorem ordered_of_runReduces {pairs : Nat → List KeyValue} (known : getApp job.app = some app)
    (ready : ∀ r ∈ order, Ready job files r (pairs r))
    (h : runReduces getApp qsort job order files = .ok files') :
    ∀ r ∈ order, Library.Consistent byKey (pairs r) := by
  induction order generalizing files with
  | nil => simp
  | cons r order ih =>
      have step := reduceTask_of_ready qsort known (ready r (by simp))
      rw [runReduces, step] at h
      split at h
      · cases h
      · next files₁ done =>
          split at done
          · next ordered =>
              cases done
              intro r' h'
              cases h' with
              | head => exact ordered
              | tail _ h' =>
                  refine ih (fun r' h' => (ready r' (List.mem_cons_of_mem _ h')).congr fun i => ?_) h r' h'
                  exact Function.update_of_ne (by simp) ..
          · cases done

/-- A job whose map tasks each ran once, in any order, is ready for its reduce tasks. -/
theorem ready_of_runMaps
    (wrote : ∀ task < job.nMap, ∀ r < job.nReduce, files' (.tmp task r) =
      some (pairsFile (partitionOf job.nReduce r (fileOutput app job files task)))) :
    ∀ r < job.nReduce, Ready job files' r (partitionOf job.nReduce r (emitted app job files)) := by
  intro r hr
  exact ⟨_, partitionOf_emitted.symm, fun task h => wrote task h r hr⟩

section Job
variable {maps reduces : List Nat}

/-- With keys that can be hashed and ordered the job runs to its end, and each
output file holds the records of its partition. -/
theorem runJob_spec (qsort : Sorter KeyValue) (known : getApp job.app = some app) (hn : 0 < job.nReduce)
    (readable : ∀ task < job.nMap, (readAll files (job.mapReply task).file).isSome)
    (all_maps : maps.Perm (List.range job.nMap)) (all_reduces : reduces.Perm (List.range job.nReduce))
    (hashed : ∀ kv ∈ emitted app job files, kv.key.length < 2 ^ 32)
    (ordered : ∀ r < job.nReduce, Library.Consistent byKey (partitionOf job.nReduce r (emitted app job files))) :
    ∃ final, runJob getApp qsort job maps reduces files = .ok final ∧
      ∀ r < job.nReduce, final (.out r) = some (outputOf qsort app job.args
        (partitionOf job.nReduce r (emitted app job files))) := by
  have mem_maps (task : Nat) : task ∈ maps ↔ task < job.nMap := by
    rw [all_maps.mem_iff, List.mem_range]
  have mem_reduces (r : Nat) : r ∈ reduces ↔ r < job.nReduce := by
    rw [all_reduces.mem_iff, List.mem_range]
  have short : ∀ task ∈ maps, ∀ kv ∈ fileOutput app job files task, kv.key.length < 2 ^ 32 :=
    fun task h kv hkv => hashed kv <|
      List.mem_flatMap.mpr ⟨task, List.mem_range.mpr ((mem_maps task).mp h), hkv⟩
  obtain ⟨between, mapped, wrote, -⟩ :=
    runMaps_spec known hn (fun task h => readable task ((mem_maps task).mp h)) short
  have ready := ready_of_runMaps fun task h => wrote task ((mem_maps task).mpr h)
  have ready' : ∀ r ∈ reduces, Ready job between r
      (partitionOf job.nReduce r (emitted app job files)) :=
    fun r h => ready r ((mem_reduces r).mp h)
  obtain ⟨final, reduced, out, -⟩ :=
    runReduces_spec qsort known ready' fun r h => ordered r ((mem_reduces r).mp h)
  refine ⟨final, by rw [runJob, mapped]; exact reduced, fun r hr => out r ((mem_reduces r).mpr hr)⟩

theorem hashed_and_ordered_of_runJob (known : getApp job.app = some app) (hn : 0 < job.nReduce)
    (readable : ∀ task < job.nMap, (readAll files (job.mapReply task).file).isSome)
    (all_maps : maps.Perm (List.range job.nMap)) (all_reduces : reduces.Perm (List.range job.nReduce))
    (h : runJob getApp qsort job maps reduces files = .ok final) :
    (∀ kv ∈ emitted app job files, kv.key.length < 2 ^ 32) ∧
      ∀ r < job.nReduce, Library.Consistent byKey (partitionOf job.nReduce r (emitted app job files)) := by
  have mem_maps (task : Nat) : task ∈ maps ↔ task < job.nMap := by
    rw [all_maps.mem_iff, List.mem_range]
  have readable' : ∀ task ∈ maps, (readAll files (job.mapReply task).file).isSome :=
    fun task h => readable task ((mem_maps task).mp h)
  rw [runJob] at h
  split at h
  · cases h
  · next between mapped =>
      have short := short_of_runMaps known hn readable' mapped
      obtain ⟨between', mapped', wrote, -⟩ := runMaps_spec known hn readable' short
      have : between' = between := by
        rw [mapped] at mapped'
        exact (Except.ok.inj mapped').symm
      subst this
      have ready := ready_of_runMaps fun task h => wrote task ((mem_maps task).mpr h)
      refine ⟨fun kv hkv => ?_, fun r hr => ?_⟩
      · obtain ⟨task, htask, hkv⟩ := List.mem_flatMap.mp hkv
        exact short task ((mem_maps task).mpr (List.mem_range.mp htask)) kv hkv
      · have mem_reduces (r : Nat) : r ∈ reduces ↔ r < job.nReduce := by
          rw [all_reduces.mem_iff, List.mem_range]
        exact ordered_of_runReduces known (fun r h => ready r ((mem_reduces r).mp h)) h r
          ((mem_reduces r).mpr hr)

end Job

end Run

section Groups
variable {qsort : Sorter KeyValue} {reduce : Buffer → List KeyValue → KeyValue}
variable {kvs : List KeyValue} {nReduce r : Nat} {kv : KeyValue}

theorem mem_partitionOf :
    kv ∈ partitionOf nReduce r kvs ↔ kv ∈ kvs ∧ reduceTaskOf nReduce kv.key = some r := by
  rw [partitionOf, List.mem_filter, decide_eq_true_iff]

theorem reduceTaskOf_of_short (hn : 0 < nReduce) (short : kv.key.length < 2 ^ 32) :
    ∃ r < nReduce, reduceTaskOf nReduce kv.key = some r := by
  obtain ⟨hash, hashed⟩ := Option.isSome_iff_exists.mp (ihash_isSome.mpr short)
  exact ⟨hash.toNat % nReduce, Nat.mod_lt _ hn, by rw [reduceTaskOf, hashed]; rfl⟩

/-- The records of ordered pairs are one for each of some pairs that `byKey` all
tells apart, made of the pairs that are equal to it. -/
theorem reduceRecords_eq (qsort : Sorter KeyValue) (reduce : Buffer → List KeyValue → KeyValue)
    (ordered : Library.Consistent byKey kvs) :
    ∃ heads : List KeyValue, (∀ h ∈ heads, h ∈ kvs) ∧ (heads.Pairwise fun a b => byKey a b ≠ 0) ∧
      (∀ kv ∈ kvs, ∃ h ∈ heads, byKey h kv = 0) ∧
      reduceRecords qsort reduce kvs = heads.flatMap fun h =>
        runRecord reduce ((qsort.sort byKey kvs).filter fun kv => byKey h kv = 0) := by
  have same := qsort.perm byKey kvs
  obtain ⟨heads, inside, distinct, cover, classes⟩ :=
    runs_eq_classes (ordered.subset fun kv h => same.mem_iff.mp h) (qsort.sorted byKey kvs ordered)
  refine ⟨heads, fun h hh => same.mem_iff.mp (inside.mem hh), distinct,
    fun kv hkv => cover kv (same.mem_iff.mpr hkv), ?_⟩
  rw [reduceRecords, classes, List.flatMap_map]

theorem length_runRecord {run : List KeyValue} (h : run ≠ []) : (runRecord reduce run).length = 1 := by
  cases run with
  | nil => exact absurd rfl h
  | cons kv run => rfl

theorem length_heads {heads : List KeyValue} (ordered : Library.Consistent byKey kvs)
    (inside : ∀ h ∈ heads, h ∈ kvs) :
    (heads.flatMap fun h =>
      runRecord reduce ((qsort.sort byKey kvs).filter fun kv => byKey h kv = 0)).length =
        heads.length := by
  induction heads with
  | nil => rfl
  | cons h heads ih =>
      have hh := inside h (by simp)
      have nonempty : ((qsort.sort byKey kvs).filter fun kv => byKey h kv = 0) ≠ [] :=
        List.ne_nil_of_mem <| List.mem_filter.mpr
          ⟨(qsort.perm byKey kvs).mem_iff.mpr hh, by simpa using ordered.self hh⟩
      rw [List.flatMap_cons, List.length_append, length_runRecord nonempty,
        ih fun h hh => inside h (List.mem_cons_of_mem _ hh), List.length_cons, Nat.add_comm]

/-- Keys that `byKey` tells apart have one record each, made of all their pairs. -/
theorem reduceRecords_of_apart (qsort : Sorter KeyValue)
    (reduce : Buffer → List KeyValue → KeyValue) (ordered : Library.Consistent byKey kvs)
    (apart : ∀ kv1 ∈ kvs, ∀ kv2 ∈ kvs, byKey kv1 kv2 = 0 → kv1.key = kv2.key) :
    ∃ keys : List Buffer, keys.Nodup ∧ (∀ key, key ∈ keys ↔ ∃ kv ∈ kvs, kv.key = key) ∧
      reduceRecords qsort reduce kvs =
        keys.map fun key => reduce key ((qsort.sort byKey kvs).filter fun kv => kv.key = key) := by
  obtain ⟨heads, inside, distinct, cover, records⟩ := reduceRecords_eq qsort reduce ordered
  have same := qsort.perm byKey kvs
  refine ⟨heads.map (·.key), ?_, fun key => ⟨fun h => ?_, fun ⟨kv, hkv, key_eq⟩ => ?_⟩, ?_⟩
  · refine List.pairwise_map.mpr (distinct.imp_of_mem fun ha hb differ equal => differ ?_)
    rw [byKey_of_keys_eq rfl equal.symm]
    exact ordered.self (inside _ ha)
  · obtain ⟨head, hh, rfl⟩ := List.mem_map.mp h
    exact ⟨head, inside head hh, rfl⟩
  · obtain ⟨h, hh, equal⟩ := cover kv hkv
    exact List.mem_map.mpr ⟨h, hh, by rw [apart h (inside h hh) kv hkv equal, key_eq]⟩
  · rw [records, List.map_map, ← List.flatMap_singleton' (heads.map _), List.flatMap_map]
    refine List.flatMap_congr fun h hh => ?_
    have class_eq : ((qsort.sort byKey kvs).filter fun kv => byKey h kv = 0) =
        (qsort.sort byKey kvs).filter fun kv => kv.key = h.key := by
      refine List.filter_congr fun kv hkv => decide_eq_decide.mpr ⟨fun equal => ?_, fun equal => ?_⟩
      · exact (apart h (inside h hh) kv (same.mem_iff.mp hkv) equal).symm
      · rw [byKey_of_keys_eq rfl equal]
        exact ordered.self (inside h hh)
    have mem : h ∈ (qsort.sort byKey kvs).filter fun kv => kv.key = h.key :=
      List.mem_filter.mpr ⟨same.mem_iff.mpr (inside h hh), by simp⟩
    rw [class_eq]
    cases shape : (qsort.sort byKey kvs).filter fun kv => kv.key = h.key with
    | nil =>
        rw [shape] at mem
        cases mem
    | cons kv run =>
        have first : kv ∈ (qsort.sort byKey kvs).filter fun kv => kv.key = h.key := by
          rw [shape]
          simp
        have key_eq : kv.key = h.key := by simpa using (List.mem_filter.mp first).2
        rw [runRecord, key_eq, Function.comp_apply, shape]

/-- Where `byKey` tells the keys of every partition apart, the output files are
the group-by. -/
theorem groupsBy_of_keysApart {final : Files} (h : KeysApart nReduce kvs)
    (out : ∀ r < nReduce, final (.out r) =
      some (pairsFile (reduceRecords qsort reduce (partitionOf nReduce r kvs)))) :
    GroupsBy reduce nReduce kvs final := by
  intro r hr
  have apart : ∀ kv1 ∈ partitionOf nReduce r kvs, ∀ kv2 ∈ partitionOf nReduce r kvs,
      byKey kv1 kv2 = 0 → kv1.key = kv2.key := by
    intro kv1 h1 kv2 h2
    obtain ⟨h1, task1⟩ := mem_partitionOf.mp h1
    obtain ⟨h2, task2⟩ := mem_partitionOf.mp h2
    exact h.apart kv1 h1 kv2 h2 (task1.trans task2.symm)
  obtain ⟨keys, nodup, members, records⟩ :=
    reduceRecords_of_apart qsort reduce (h.ordered r hr) apart
  have mem_keys (key : Buffer) :
      key ∈ keys ↔ (∃ kv ∈ kvs, kv.key = key) ∧ reduceTaskOf nReduce key = some r := by
    rw [members]
    constructor
    · rintro ⟨kv, hkv, rfl⟩
      obtain ⟨hkv, task⟩ := mem_partitionOf.mp hkv
      exact ⟨⟨kv, hkv, rfl⟩, task⟩
    · rintro ⟨⟨kv, hkv, rfl⟩, task⟩
      exact ⟨kv, mem_partitionOf.mpr ⟨hkv, task⟩, rfl⟩
  refine ⟨_, keys, _, out r hr, nodup, mem_keys, fun key hkey => ?_,
    decoded_pairsFile.trans (congrArg some records)⟩
  have task := ((mem_keys key).mp hkey).2
  -- The partition has all pairs with the key.
  have whole : (partitionOf nReduce r kvs).filter (fun kv => kv.key = key) =
      kvs.filter fun kv => kv.key = key := by
    rw [partitionOf, List.filter_filter]
    refine List.filter_congr fun kv _ => ?_
    by_cases equal : kv.key = key
    · simp [equal, task]
    · simp [equal]
  rw [← whole]
  exact (qsort.perm byKey _).filter _

/-- Output files that are the group-by have a record for each key, so `byKey`
told all keys of every partition apart. -/
theorem keysApart_of_groupsBy {final : Files} (hn : 0 < nReduce)
    (hashed : ∀ kv ∈ kvs, kv.key.length < 2 ^ 32)
    (ordered : ∀ r < nReduce, Library.Consistent byKey (partitionOf nReduce r kvs))
    (out : ∀ r < nReduce, final (.out r) =
      some (pairsFile (reduceRecords qsort reduce (partitionOf nReduce r kvs))))
    (groups : GroupsBy reduce nReduce kvs final) : KeysApart nReduce kvs := by
  refine ⟨hashed, ordered, fun kv1 h1 kv2 h2 together equal => ?_⟩
  obtain ⟨r, hr, task1⟩ := reduceTaskOf_of_short hn (hashed kv1 h1)
  have task2 := together.symm.trans task1
  obtain ⟨file, keys, input, read, -, members, -, records⟩ := groups r hr
  obtain ⟨heads, inside, distinct, -, made⟩ := reduceRecords_eq qsort reduce (ordered r hr)
  have count : heads.length = keys.length := by
    have same : file = _ := Option.some.inj (read.symm.trans (out r hr))
    rw [same, decoded_pairsFile] at records
    have lengths := congrArg List.length (Option.some.inj records)
    rwa [made, length_heads (ordered r hr) inside, List.length_map] at lengths
  have nodup : (heads.map (·.key)).Nodup := by
    refine List.pairwise_map.mpr (distinct.imp_of_mem fun ha _ differ equal => differ ?_)
    rw [byKey_of_keys_eq rfl equal.symm]
    exact (ordered r hr).self (inside _ ha)
  have within : heads.map (·.key) ⊆ keys := by
    intro key hkey
    obtain ⟨head, hh, rfl⟩ := List.mem_map.mp hkey
    obtain ⟨hmem, task⟩ := mem_partitionOf.mp (inside head hh)
    exact (members _).mpr ⟨⟨head, hmem, rfl⟩, task⟩
  have all : (heads.map (·.key)).Perm keys :=
    (List.subperm_of_subset nodup within).perm_of_length_le (by rw [List.length_map, count])
  have head_of (kv : KeyValue) (hkv : kv ∈ kvs) (task : reduceTaskOf nReduce kv.key = some r) :
      ∃ h ∈ heads, h.key = kv.key :=
    List.mem_map.mp (all.mem_iff.mpr ((members _).mpr ⟨⟨kv, hkv, rfl⟩, task⟩))
  obtain ⟨head1, hh1, key1⟩ := head_of kv1 h1 task1
  obtain ⟨head2, hh2, key2⟩ := head_of kv2 h2 task2
  by_contra differ
  have apart : head1 ≠ head2 := by
    rintro rfl
    exact differ (key1.symm.trans key2)
  have zero : byKey head1 head2 = 0 := by rw [byKey_of_keys_eq key1 key2, equal]
  exact (ordered r hr).ne_of_pairwise inside distinct hh1 hh2 apart zero

end Groups

/-- For keys of lengths an `int` holds, only zero bytes are in the way. -/
theorem keysApart_iff_of_short {nReduce : Nat} {kvs : List KeyValue}
    (short : ∀ kv ∈ kvs, kv.key.length < 2 ^ 31) :
    KeysApart nReduce kvs ↔ ∀ kv1 ∈ kvs, ∀ kv2 ∈ kvs,
      reduceTaskOf nReduce kv1.key = reduceTaskOf nReduce kv2.key →
        cString kv1.key.bytes = cString kv2.key.bytes → kv1.key.length = kv2.key.length →
          kv1.key = kv2.key := by
  constructor
  · intro h kv1 h1 kv2 h2 together same length
    exact h.apart kv1 h1 kv2 h2 together ((byKey_eq_zero (short kv1 h1) (short kv2 h2)).mpr ⟨same, length⟩)
  · intro h
    refine ⟨fun kv hkv => lt_trans (short kv hkv) (by decide), fun r _ => byKey_consistent fun kv hkv => ?_,
      fun kv1 h1 kv2 h2 together equal => ?_⟩
    · exact short kv (mem_partitionOf.mp hkv).1
    · obtain ⟨same, length⟩ := (byKey_eq_zero (short kv1 h1) (short kv2 h2)).mp equal
      exact h kv1 h1 kv2 h2 together same length

section Job
variable {getApp : String → Option App} {qsort : Sorter KeyValue} {job : TaskJob} {app : App}
variable {files : Files} {maps reduces : List Nat}

theorem keysApart_of_runJob {final : Files} (known : getApp job.app = some app)
    (hn : 0 < job.nReduce)
    (readable : ∀ task < job.nMap, (readAll files (job.mapReply task).file).isSome)
    (all_maps : maps.Perm (List.range job.nMap))
    (all_reduces : reduces.Perm (List.range job.nReduce))
    (run : runJob getApp qsort job maps reduces files = .ok final)
    (groups : GroupsBy (fun key kvs => app.reduce key kvs job.args) job.nReduce
      (emitted app job files) final) :
    KeysApart job.nReduce (emitted app job files) := by
  obtain ⟨hashed, ordered⟩ :=
    hashed_and_ordered_of_runJob known hn readable all_maps all_reduces run
  obtain ⟨final', run', out⟩ :=
    runJob_spec qsort known hn readable all_maps all_reduces hashed ordered
  have : final = final' := Except.ok.inj (run.symm.trans run')
  subst this
  exact keysApart_of_groupsBy hn hashed ordered out groups

/-- A job's map tasks and then its reduce tasks, each run once in any order, end
and leave the group-by behind exactly when the keys can be hashed and `byKey`
orders them and tells them apart. -/
theorem runJob_groupsBy_iff (known : getApp job.app = some app) (hn : 0 < job.nReduce)
    (readable : ∀ task < job.nMap, (readAll files (job.mapReply task).file).isSome)
    (all_maps : maps.Perm (List.range job.nMap))
    (all_reduces : reduces.Perm (List.range job.nReduce)) :
    (∃ final, runJob getApp qsort job maps reduces files = .ok final ∧
      GroupsBy (fun key kvs => app.reduce key kvs job.args) job.nReduce (emitted app job files)
        final) ↔
      KeysApart job.nReduce (emitted app job files) := by
  constructor
  · rintro ⟨final, run, groups⟩
    exact keysApart_of_runJob known hn readable all_maps all_reduces run groups
  · intro h
    obtain ⟨final, run, out⟩ :=
      runJob_spec qsort known hn readable all_maps all_reduces h.hashed h.ordered
    exact ⟨final, run, groupsBy_of_keysApart h out⟩

end Job

section VertexDegree

def builtinApp (name : String) : Option App :=
  if name = "vertex-degree" then some vertexDegree else none

/-- A job of the vertex-degree application on one file. -/
def degreeJob : TaskJob where
  files := [⟨[0x67], fits_singleton _⟩]
  nReduce := 1
  app := "vertex-degree"
  args := ⟨[], fits_nil⟩

def onFile (contents : List UInt8) : Files
  | .input _ => some contents
  | _ => none

theorem emitted_degreeJob {contents next : List UInt8} {a b : Int} (fits : contents.length < 2 ^ 63)
    (first : getPair contents = some ((a, b), next)) (last : getPair next = none) :
    emitted vertexDegree degreeJob (onFile contents) =
      [⟨intBuffer a, intBuffer 1⟩, ⟨intBuffer b, intBuffer 1⟩] := by
  have pairs : getPairs contents = [(a, b)] := by
    rw [getPairs_of_some first, getPairs_of_none last]
  have read : readAll (onFile contents) (degreeJob.mapReply 0).file = some ⟨contents, fits⟩ := by
    simp only [readAll, onFile, dif_pos fits]
  have one : emitted vertexDegree degreeJob (onFile contents) =
      fileOutput vertexDegree degreeJob (onFile contents) 0 :=
    List.append_nil _
  rw [one, fileOutput_of_read vertexDegree read]
  simp only [vertexDegree, vertexDegreeMap, pairs, List.flatMap_singleton]

theorem builtinApp_degreeJob : builtinApp degreeJob.app = some vertexDegree := rfl

/-- `"256 512"` -/
def bigVertices : List UInt8 := [0x32, 0x35, 0x36, 0x20, 0x35, 0x31, 0x32, 0x0a]

/-- `"1 2"` -/
def smallVertices : List UInt8 := [0x31, 0x20, 0x32, 0x0a]

/-- The vertices 256 and 512 get one record together: their keys `0 1 0 0` and
`0 2 0 0` agree up to the zero byte. -/
theorem runJob_merges_vertices :
    ¬ ∃ final, runJob builtinApp (Sorter.insertion KeyValue) degreeJob [0] [0]
        (onFile bigVertices) = .ok final ∧
      GroupsBy (fun key kvs => vertexDegree.reduce key kvs degreeJob.args) degreeJob.nReduce
        (emitted vertexDegree degreeJob (onFile bigVertices)) final := by
  rintro ⟨final, run, groups⟩
  have readable : ∀ task < degreeJob.nMap,
      (readAll (onFile bigVertices) (degreeJob.mapReply task).file).isSome := by
    decide
  have pair : getPair bigVertices = some ((256, 512), [0x0a]) := by decide
  have apart := keysApart_of_runJob builtinApp_degreeJob (by decide) readable
    (List.Perm.refl _) (List.Perm.refl _) run groups
  rw [emitted_degreeJob (by decide) pair (by decide)] at apart
  have equal := apart.apart ⟨intBuffer 256, intBuffer 1⟩ (by simp) ⟨intBuffer 512, intBuffer 1⟩
    (by simp) (by decide) (by decide)
  exact absurd equal (by decide)

theorem runJob_groupsBy_of_small_vertices :
    ∃ final, runJob builtinApp (Sorter.insertion KeyValue) degreeJob [0] [0]
        (onFile smallVertices) = .ok final ∧
      GroupsBy (fun key kvs => vertexDegree.reduce key kvs degreeJob.args) degreeJob.nReduce
        (emitted vertexDegree degreeJob (onFile smallVertices)) final := by
  have readable : ∀ task < degreeJob.nMap,
      (readAll (onFile smallVertices) (degreeJob.mapReply task).file).isSome := by
    decide
  have pair : getPair smallVertices = some ((1, 2), [0x0a]) := by decide
  refine (runJob_groupsBy_iff builtinApp_degreeJob (by decide) readable (List.Perm.refl _)
    (List.Perm.refl _)).mpr ?_
  rw [emitted_degreeJob (by decide) pair (by decide)]
  exact (keysApart_iff_of_short (by decide)).mpr (by decide)

end VertexDegree
end CS162.MapReduce
