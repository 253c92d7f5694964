import CS162.MapReduce.Grep
import CS162.MapReduce.GroupBy
import CS162.MapReduce.MalformedFiles
import CS162.MapReduce.WordMapLaw

/-!
The table of applications (hw-map-reduce: app.c, `wc_reduce` and `wc_process_output` of wc.c,
`grep_reduce` of grep.c), and what `process` of client.c prints of the files that a job has
left: for word count, each word of the input files once, with how often it occurs.

Where the code of a map function leaves its memory or a length is negative, the application is
not `inBounds`, and what it emits here means nothing.
The keys that `%.*s` prints are no longer than an `int` counts.
-/

namespace CS162.MapReduce
open CS162.Library

section Table
variable (malloc : ∀ n, Vector UInt8 n) (qsort : Sorter KeyValue)

/-- `*((int*)buf.buffer)` -/
def intOf (buf : Buffer) : Int := toInt32 (ofBytes (buf.bytes.take 4))

/-- What `%.*s` prints of a buffer. -/
def printedString (buf : Buffer) : List UInt8 := buf.bytes.takeWhile (· ≠ 0)

def wcReduce (key : Buffer) (input : List KeyValue) (_aux : Buffer) : KeyValue where
  key := key
  value := intBuffer (input.map fun kv => intOf kv.value).sum

def wc : App where
  map input aux :=
    match wcMap malloc input aux with
    | .ok kva => kva.filterMap id
    | .error _ => []
  reduce := wcReduce

def wcCompareFn (kv1 kv2 : KeyValue) : Int :=
  if intOf kv1.value = intOf kv2.value then byKey kv1 kv2
  else toInt32 (intOf kv1.value - intOf kv2.value)

def wcProcessOutput (kvs : List KeyValue) : List UInt8 :=
  (qsort.sort wcCompareFn kvs).flatMap fun kv =>
    Grep.decimal (intOf kv.value) ++ 0x09 :: printedString kv.key ++ [Grep.newline]

def atoi (s : List UInt8) : Int := toInt32 ((strtol s).elim 0 (·.1))

def grepLineNumCompareFn (kv1 kv2 : KeyValue) : Int :=
  toInt32 (atoi kv1.value.bytes - atoi kv2.value.bytes)

/-- `grep_reduce`: the values are printed behind each other, and the last newline is cut off. -/
def grepReduce (key : Buffer) (input : List KeyValue) (_aux : Buffer) : KeyValue :=
  let input := qsort.sort grepLineNumCompareFn input
  let totalLength := (input.map fun kv => kv.value.length + 1).sum
  let text := input.flatMap fun kv => printedString kv.value ++ [Grep.newline]
  let buffer := text ++ 0 :: (malloc (totalLength + 1)).toList.drop (text.length + 1)
  if fits : (buffer.take (totalLength - 1)).length < 2 ^ 63 then ⟨key, ⟨buffer.take (totalLength - 1), fits⟩⟩
  else ⟨key, ⟨[], fits_nil⟩⟩

def grep : App where
  map input aux :=
    match Grep.grepMap malloc input aux with
    | .ok kva => kva.filterMap fun slot => slot.bind fun pair => pair.value.map (⟨pair.key, ·⟩)
    | .error _ => []
  reduce := grepReduce malloc qsort

/-- The application's map function stays in its memory, and there are all the pairs that it returns. -/
def inBounds (name : String) (input : KeyValue) (aux : Buffer) : Bool :=
  if name = "wc" then
    match wcMap malloc input aux with
    | .ok kva => kva.all Option.isSome
    | .error _ => false
  else if name = "grep" then
    match Grep.grepMap malloc input aux with
    | .ok kva => kva.all fun slot => slot.any fun pair => pair.value.isSome
    | .error _ => false
  else true

def getApp (name : String) : Option App :=
  (([("wc", wc malloc), ("grep", grep malloc qsort), ("vertex-degree", vertexDegree)] : List (String × App)).find?
    fun app => app.1 = name).map (·.2)

theorem getApp_wc : getApp malloc qsort "wc" = some (wc malloc) := rfl

end Table

/-- What `process` prints of its pairs: `process_output` is not called for none. -/
def printed (processOutput : List KeyValue → List UInt8) (kvs : List KeyValue) : List UInt8 :=
  if kvs.length > 0 then processOutput kvs else []

section Words
open CS162.WordCount (Word)
open CS162.WordCount.FileWords (isLetter lower wordsOf letters_nil letters_concat wordsOf_letters
  wordsOf_append_nonletter)

/-- Words and how often each occurs, in the order in which they are printed. -/
structure CountsOf (words : List Word) (counts : List (Word × Nat)) : Prop where
  exact : ∀ word n, (word, n) ∈ counts ↔ word ∈ words ∧ n = words.count word
  sorted : counts.Pairwise fun a b => a.2 < b.2 ∨ a.2 = b.2 ∧ a.1.map UInt8.toNat < b.1.map UInt8.toNat

def countLine (count : Word × Nat) : List UInt8 := Grep.decimal count.2 ++ 0x09 :: count.1 ++ [Grep.newline]

theorem lower_ne_zero {c : UInt8} (letter : isLetter c = true) : lower c ≠ 0 := by
  intro zero
  have value := congrArg UInt8.toNat zero
  simp only [isLetter, decide_eq_true_eq, UInt8.le_iff_toNat_le, UInt8.reduceToNat] at letter
  simp only [lower, UInt8.le_iff_toNat_le, UInt8.reduceToNat] at value
  split at value
  · simp only [UInt8.toNat_add, UInt8.reduceToNat] at value
    omega
  · change c.toNat = 0 at value
    omega

theorem of_mem_wordsOf {run rest : List UInt8} (letters : ∀ c ∈ run, isLetter c = true) {word : Word}
    (member : word ∈ wordsOf (run ++ rest)) : 0 ∉ word ∧ word.length ≤ (run ++ rest).length := by
  have lowered (run : List UInt8) (letters : ∀ c ∈ run, isLetter c = true) : 0 ∉ run.map lower := by
    intro zero
    obtain ⟨c, inside, equal⟩ := List.mem_map.mp zero
    exact lower_ne_zero (letters c inside) equal
  induction rest generalizing run with
  | nil =>
      rw [List.append_nil] at member ⊢
      rw [wordsOf_letters letters] at member
      split at member
      · cases List.mem_singleton.mp member
        exact ⟨lowered run letters, by rw [List.length_map]⟩
      · cases member
  | cons c rest ih =>
      by_cases letter : isLetter c = true
      · rw [List.append_cons] at member ⊢
        exact ih (letters_concat letters letter) member
      · rw [wordsOf_append_nonletter letters (Bool.eq_false_iff.mpr letter), List.mem_append] at member
        cases member with
        | inl first =>
            split at first
            · cases List.mem_singleton.mp first
              refine ⟨lowered run letters, ?_⟩
              rw [List.length_map, List.length_append]
              exact Nat.le_add_right ..
            · cases first
        | inr later =>
            obtain ⟨solid, short⟩ := ih letters_nil later
            refine ⟨solid, short.trans ?_⟩
            rw [List.nil_append, List.length_append, List.length_cons]
            omega

theorem StandFor.flatMap {β : Type} {l : List β} {f : β → List KeyValue} {g : β → List Word}
    (same : ∀ a ∈ l, StandFor (f a) (g a)) : StandFor (l.flatMap f) (l.flatMap g) := by
  induction l with
  | nil => exact .nil
  | cons a l ih =>
      rw [List.flatMap_cons, List.flatMap_cons]
      exact (same a List.mem_cons_self).append (ih fun b inside => same b (List.mem_cons_of_mem _ inside))

theorem wc_map {malloc : ∀ n, Vector UInt8 n} {input : KeyValue} {aux : Buffer}
    (short : input.value.length ≤ intMax) : StandFor ((wc malloc).map input aux) (wordsOf input.value.bytes) := by
  obtain ⟨_, pairs, -, -, result, same⟩ := agrees_of_short malloc aux short
  have emitted : (wc malloc).map input aux = pairs := by
    simp only [wc, result, List.filterMap_map, Function.id_comp]
    exact List.filterMap_some
  rwa [emitted]

theorem inBounds_wc {malloc : ∀ n, Vector UInt8 n} {input : KeyValue} {aux : Buffer}
    (short : input.value.length ≤ intMax) : inBounds malloc "wc" input aux = true := by
  obtain ⟨_, pairs, -, -, result, -⟩ := agrees_of_short malloc aux short
  simp [inBounds, result]

/-- The words of the input files. -/
def TaskJob.words (job : TaskJob) (files : Files) : List Word :=
  job.files.flatMap fun path => (readAll files path).elim [] fun contents => wordsOf contents.bytes

theorem map_mapReply_file (job : TaskJob) : (List.range job.nMap).map (fun i => (job.mapReply i).file) = job.files := by
  refine List.ext_getElem (by rw [List.length_map, List.length_range, TaskJob.nMap]) fun i h1 h2 => ?_
  rw [List.getElem_map, List.getElem_range, TaskJob.mapReply, List.getElem?_eq_getElem h2, Option.getD_some]

theorem emitted_wc {malloc : ∀ n, Vector UInt8 n} {job : TaskJob} {files : Files}
    (short : ∀ path ∈ job.files, ∀ contents ∈ readAll files path, contents.length ≤ intMax) :
    StandFor (emitted (wc malloc) job files) (job.words files) := by
  rw [TaskJob.words, ← map_mapReply_file job, List.flatMap_map]
  refine StandFor.flatMap fun task inside => ?_
  have path : (job.mapReply task).file ∈ job.files := by
    rw [← map_mapReply_file job]
    exact List.mem_map.mpr ⟨task, inside, rfl⟩
  rw [fileOutput]
  cases read : readAll files (job.mapReply task).file with
  | none => exact .nil
  | some contents => exact wc_map (short _ path contents read)

end Words

section Counts
open CS162.WordCount (Word)
variable {kvs records : List KeyValue} {words : List Word} {qsort : Sorter KeyValue} {nReduce r : Nat} {args : Buffer}

theorem intOf_intBuffer (x : Int) : intOf (intBuffer x) = toInt32 x := by
  have bound : toUInt32 x < 256 ^ 4 := by
    have := Int.emod_lt_of_pos x (show (0 : Int) < 2 ^ 32 by decide)
    have := Int.emod_nonneg x (show (2 : Int) ^ 32 ≠ 0 by decide)
    rw [toUInt32]
    omega
  have whole : (intBuffer x).bytes.take 4 = toBytes 4 (toUInt32 x) := List.take_of_length_le (by
    rw [intBuffer, toBytes_length])
  rw [intOf, whole, ofBytes_toBytes bound, toInt32_toUInt32]

theorem StandFor.mem (same : StandFor kvs words) {kv : KeyValue} (inside : kv ∈ kvs) : kv.key.bytes ∈ words := by
  rw [← same.keys]
  exact List.mem_map_of_mem inside

theorem StandFor.count (same : StandFor kvs words) (key : Buffer) :
    (kvs.filter fun kv => kv.key = key).length = words.count key.bytes := by
  rw [← same.keys, List.count, List.countP_map, ← List.countP_eq_length_filter]
  refine List.countP_congr fun kv _ => ?_
  simp only [decide_eq_true_eq, Function.comp_apply, beq_iff_eq]
  exact ⟨fun equal => by rw [equal], Buffer.eq_of_bytes_eq⟩

theorem wcReduce_eq (same : StandFor kvs words) {input : List KeyValue} {key : Buffer} (aux : Buffer)
    (perm : input.Perm (kvs.filter fun kv => kv.key = key)) :
    wcReduce key input aux = ⟨key, intBuffer (words.count key.bytes)⟩ := by
  have ones : ∀ x ∈ input.map fun kv => intOf kv.value, x = 1 := by
    intro x inside
    obtain ⟨kv, member, rfl⟩ := List.mem_map.mp inside
    rw [same.values kv (List.mem_filter.mp (perm.mem_iff.mp member)).1, intOf_intBuffer]
    rfl
  have sum : (input.map fun kv => intOf kv.value).sum = (words.count key.bytes : Int) := by
    rw [List.eq_replicate_of_mem ones, List.sum_replicate, List.length_map, perm.length_eq, same.count, nsmul_eq_mul,
      mul_one]
  rw [wcReduce, sum]

/-- The words can be keys: they have no zero byte, and an `int` counts their letters. -/
def Plain (words : List Word) : Prop := ∀ word ∈ words, 0 ∉ word ∧ word.length < 2 ^ 31

theorem cString_eq {s : List UInt8} (solid : 0 ∉ s) : cString s = s.map UInt8.toNat := by
  induction s with
  | nil => rfl
  | cons a s ih =>
      obtain ⟨first, rest⟩ := not_or.mp (List.mem_cons.not.mp solid)
      rw [cString, if_neg (Ne.symm first), ih rest, List.map_cons]

theorem map_toNat_injective : Function.Injective (List.map UInt8.toNat) :=
  List.map_injective_iff.mpr fun _ _ => UInt8.toNat_inj.mp

theorem StandFor.keysApart (same : StandFor kvs words) (plain : Plain words) : KeysApart nReduce kvs := by
  refine (keysApart_iff_of_short fun kv inside => (plain _ (same.mem inside)).2).mpr ?_
  intro kv1 h1 kv2 h2 _ equal _
  rw [cString_eq (plain _ (same.mem h1)).1, cString_eq (plain _ (same.mem h2)).1] at equal
  exact Buffer.eq_of_bytes_eq (map_toNat_injective equal)

/-- The records are one for each of some words, with its number. -/
structure Counted (words : List Word) (records : List KeyValue) : Prop where
  nodup : (records.map (·.key)).Nodup
  word : ∀ kv ∈ records, kv.key.bytes ∈ words
  count : ∀ kv ∈ records, kv.value = intBuffer (words.count kv.key.bytes)

variable (qsort args) in
theorem counted_of_part (same : StandFor kvs words) (plain : Plain words) (hr : r < nReduce) :
    Counted words (reduceRecords qsort (fun key kvs => wcReduce key kvs args) (partitionOf nReduce r kvs)) ∧
      ∀ key, key ∈ (reduceRecords qsort (fun key kvs => wcReduce key kvs args)
          (partitionOf nReduce r kvs)).map (·.key) ↔
        (∃ kv ∈ kvs, kv.key = key) ∧ reduceTaskOf nReduce key = some r := by
  have apart : KeysApart nReduce kvs := same.keysApart plain
  obtain ⟨keys, nodup, members, made⟩ := reduceRecords_of_apart qsort (fun key kvs => wcReduce key kvs args)
    (apart.ordered r hr) fun kv1 h1 kv2 h2 => by
      obtain ⟨h1, task1⟩ := mem_partitionOf.mp h1
      obtain ⟨h2, task2⟩ := mem_partitionOf.mp h2
      exact apart.apart kv1 h1 kv2 h2 (task1.trans task2.symm)
  have mem_keys (key : Buffer) : key ∈ keys ↔ (∃ kv ∈ kvs, kv.key = key) ∧ reduceTaskOf nReduce key = some r := by
    rw [members]
    constructor
    · rintro ⟨kv, inside, rfl⟩
      obtain ⟨inside, task⟩ := mem_partitionOf.mp inside
      exact ⟨⟨kv, inside, rfl⟩, task⟩
    · rintro ⟨⟨kv, inside, rfl⟩, task⟩
      exact ⟨kv, mem_partitionOf.mpr ⟨inside, task⟩, rfl⟩
  have record (key : Buffer) (inside : key ∈ keys) :
      wcReduce key ((qsort.sort byKey (partitionOf nReduce r kvs)).filter fun kv => kv.key = key) args =
        ⟨key, intBuffer (words.count key.bytes)⟩ := by
    refine wcReduce_eq same args (((qsort.perm byKey _).filter _).trans ?_)
    rw [partitionOf, List.filter_filter]
    refine List.Perm.of_eq (List.filter_congr fun kv _ => ?_)
    by_cases equal : kv.key = key
    · simp [equal, ((mem_keys key).mp inside).2]
    · simp [equal]
  rw [made, List.map_congr_left record]
  have unmap : (keys.map fun key => (⟨key, intBuffer (words.count key.bytes)⟩ : KeyValue)).map (·.key) = keys := by
    rw [List.map_map]
    exact List.map_id keys
  refine ⟨⟨by rwa [unmap], fun kv inside => ?_, fun kv inside => ?_⟩, fun key => by rw [unmap]; exact mem_keys key⟩
  · obtain ⟨key, known, rfl⟩ := List.mem_map.mp inside
    obtain ⟨pair, member, equal⟩ := ((mem_keys key).mp known).1
    have word := same.mem member
    rwa [equal] at word
  · obtain ⟨key, known, rfl⟩ := List.mem_map.mp inside
    rfl

variable (qsort args) in
theorem counted_of_parts (same : StandFor kvs words) (plain : Plain words) (hn : 0 < nReduce) :
    Counted words ((List.range nReduce).flatMap fun r =>
        reduceRecords qsort (fun key kvs => wcReduce key kvs args) (partitionOf nReduce r kvs)) ∧
      ∀ word ∈ words, ∃ kv ∈ (List.range nReduce).flatMap fun r =>
        reduceRecords qsort (fun key kvs => wcReduce key kvs args) (partitionOf nReduce r kvs),
          kv.key.bytes = word := by
  have part (r : Nat) (inside : r ∈ List.range nReduce) :=
    counted_of_part qsort args same plain (List.mem_range.mp inside)
  refine ⟨⟨?_, fun kv inside => ?_, fun kv inside => ?_⟩, fun word inside => ?_⟩
  · rw [List.map_flatMap]
    refine List.nodup_flatMap.mpr ⟨fun r inside => (part r inside).1.nodup, ?_⟩
    refine List.nodup_range.pairwise_of_forall_ne fun r inside r' inside' differ key first second => differ ?_
    have task := (((part r inside).2 key).mp first).2
    have task' := (((part r' inside').2 key).mp second).2
    exact Option.some.inj (task.symm.trans task')
  · obtain ⟨r, inRange, inside⟩ := List.mem_flatMap.mp inside
    exact (part r inRange).1.word kv inside
  · obtain ⟨r, inRange, inside⟩ := List.mem_flatMap.mp inside
    exact (part r inRange).1.count kv inside
  · rw [← same.keys] at inside
    obtain ⟨kv, member, rfl⟩ := List.mem_map.mp inside
    obtain ⟨r, hr, task⟩ := reduceTaskOf_of_short hn
      (Nat.lt_trans (plain _ (same.mem member)).2 (by decide) : kv.key.bytes.length < 2 ^ 32)
    have inRange := List.mem_range.mpr hr
    obtain ⟨found, inside, key⟩ := List.mem_map.mp (((part r inRange).2 kv.key).mpr ⟨⟨kv, member, rfl⟩, task⟩)
    exact ⟨found, List.mem_flatMap.mpr ⟨r, inRange, inside⟩, by rw [key]⟩

/-- Where a record stands in the output. -/
def wcRank (words : List Word) (kv : KeyValue) : Nat ×ₗ (List Nat ×ₗ Nat) :=
  toLex (words.count kv.key.bytes, keyRank kv)

theorem intOf_of_count {kv : KeyValue} (few : words.length < 2 ^ 31) {word : Word}
    (count : kv.value = intBuffer (words.count word)) : intOf kv.value = words.count word := by
  have := List.count_le_length (a := word) (l := words)
  rw [count, intOf_intBuffer]
  exact toInt32_of_range (by omega) (by rw [intMax]; omega)

theorem wcCompareFn_sign (counted : Counted words records) (plain : Plain words) (few : words.length < 2 ^ 31)
    {kv1 kv2 : KeyValue} (h1 : kv1 ∈ records) (h2 : kv2 ∈ records) :
    (wcCompareFn kv1 kv2 < 0 ∧ wcRank words kv1 < wcRank words kv2) ∨
      (0 < wcCompareFn kv1 kv2 ∧ wcRank words kv2 < wcRank words kv1) ∨
      (wcCompareFn kv1 kv2 = 0 ∧ wcRank words kv1 = wcRank words kv2) := by
  have value1 := intOf_of_count few (counted.count kv1 h1)
  have value2 := intOf_of_count few (counted.count kv2 h2)
  have most1 := List.count_le_length (a := kv1.key.bytes) (l := words)
  have most2 := List.count_le_length (a := kv2.key.bytes) (l := words)
  have difference : toInt32 (intOf kv1.value - intOf kv2.value) = intOf kv1.value - intOf kv2.value :=
    toInt32_of_range (by omega) (by rw [intMax]; omega)
  have keys := byKey_sign (plain _ (counted.word kv1 h1)).2 (plain _ (counted.word kv2 h2)).2
  simp only [wcCompareFn, wcRank, Prod.Lex.toLex_lt_toLex, EmbeddingLike.apply_eq_iff_eq, Prod.mk.injEq, difference]
  by_cases equal : intOf kv1.value = intOf kv2.value
  · have counts : words.count kv1.key.bytes = words.count kv2.key.bytes := by omega
    rw [if_pos equal, counts]
    simpa using keys
  · rw [if_neg equal]
    omega

variable (qsort) in
theorem countsOf_sorted (counted : Counted words records) (plain : Plain words) (few : words.length < 2 ^ 31)
    (all : ∀ word ∈ words, ∃ kv ∈ records, kv.key.bytes = word) :
    CountsOf words ((qsort.sort wcCompareFn records).map fun kv => (kv.key.bytes, words.count kv.key.bytes)) := by
  have perm := qsort.perm wcCompareFn records
  have consistent : Library.Consistent wcCompareFn records := by
    refine .of_rank (wcRank words) (fun a ha b hb => ?_) fun a ha b hb => ?_
    all_goals
      obtain ⟨sign, rank⟩ | ⟨sign, rank⟩ | ⟨sign, rank⟩ := wcCompareFn_sign counted plain few ha hb
    · exact ⟨fun _ => rank, fun _ => sign⟩
    · exact ⟨fun h => absurd h (by omega), fun h => absurd h rank.asymm⟩
    · exact ⟨fun h => absurd h (by omega), fun h => absurd rank h.ne⟩
    · exact ⟨fun h => absurd h (by omega), fun h => absurd h rank.asymm⟩
    · exact ⟨fun _ => rank, fun _ => sign⟩
    · exact ⟨fun h => absurd h (by omega), fun h => absurd rank.symm h.ne⟩
  refine ⟨fun word n => ⟨fun inside => ?_, fun both => ?_⟩, ?_⟩
  · obtain ⟨kv, member, equal⟩ := List.mem_map.mp inside
    cases equal
    exact ⟨counted.word kv (perm.mem_iff.mp member), rfl⟩
  · obtain ⟨inside, count⟩ := both
    obtain ⟨kv, member, rfl⟩ := all word inside
    rw [count]
    exact List.mem_map.mpr ⟨kv, perm.mem_iff.mpr member, rfl⟩
  · have nodup : ((qsort.sort wcCompareFn records).map (·.key)).Nodup :=
      (perm.map _).nodup_iff.mpr counted.nodup
    have ordered := (qsort.sorted wcCompareFn records consistent).and (List.pairwise_map.mp nodup)
    refine List.pairwise_map.mpr (ordered.imp_of_mem fun {a b} ha hb both => ?_)
    obtain ⟨le, differ⟩ := both
    have ha := perm.mem_iff.mp ha
    have hb := perm.mem_iff.mp hb
    have solidA := (plain _ (counted.word a ha)).1
    have solidB := (plain _ (counted.word b hb)).1
    obtain ⟨-, rank⟩ | ⟨sign, -⟩ | ⟨-, rank⟩ := wcCompareFn_sign counted plain few ha hb
    · simp only [wcRank, keyRank, Prod.Lex.toLex_lt_toLex, cString_eq solidA, cString_eq solidB] at rank
      refine rank.imp_right (And.imp_right fun later => later.resolve_right fun same => ?_)
      obtain ⟨bytes, length⟩ := same
      have same := congrArg List.length (map_toNat_injective bytes)
      exact absurd same length.ne
    · exact absurd le (Int.not_le.mpr sign)
    · simp only [wcRank, keyRank, EmbeddingLike.apply_eq_iff_eq, Prod.mk.injEq, cString_eq solidA,
        cString_eq solidB] at rank
      exact absurd (Buffer.eq_of_bytes_eq (map_toNat_injective rank.2.1)) differ

/-- The client prints each word of the text once, with how often it occurs. -/
theorem process_wc (same : StandFor kvs words) (plain : Plain words) (few : words.length < 2 ^ 31)
    {table : String → Option App} {arguments : ProcessArguments} {app : App}
    (known : table arguments.app = some app) (hn : 0 < arguments.nReduce) {malloc : ∀ n, Vector UInt8 n} {files : Files}
    (out : ∀ r < arguments.nReduce,
      files (.out r) = some (outputOf qsort (wc malloc) args (partitionOf arguments.nReduce r kvs))) :
    ∃ kvs counts, process table arguments files = .ok kvs ∧ CountsOf words counts ∧
      printed (wcProcessOutput qsort) kvs = counts.flatMap countLine := by
  let parts (r : Nat) :=
    reduceRecords qsort (fun key kvs => wcReduce key kvs args) (partitionOf arguments.nReduce r kvs)
  obtain ⟨counted, all⟩ := counted_of_parts qsort args same plain hn
  have readers : openOutputReaders files arguments =
      some (((List.range arguments.nReduce).map parts).map pairsFile) := by
    have read (order : List Nat) (inside : ∀ i ∈ order, i < arguments.nReduce) :
        order.mapM (fun i => files (.out i)) = some ((order.map parts).map pairsFile) := by
      induction order with
      | nil => rfl
      | cons i order ih =>
          rw [List.mapM_cons, out i (inside i List.mem_cons_self),
            ih fun j member => inside j (List.mem_cons_of_mem _ member)]
          rfl
    exact read _ fun i inside => List.mem_range.mp inside
  change Counted words ((List.range arguments.nReduce).flatMap parts) at counted
  change ∀ word ∈ words, ∃ kv ∈ (List.range arguments.nReduce).flatMap parts, kv.key.bytes = word at all
  rw [List.flatMap_def] at counted all
  refine ⟨_, _, process_of_parts known readers, countsOf_sorted qsort counted plain few all, ?_⟩
  have lines : wcProcessOutput qsort ((List.range arguments.nReduce).map parts).flatten =
      (((qsort.sort wcCompareFn ((List.range arguments.nReduce).map parts).flatten).map fun kv =>
        (kv.key.bytes, words.count kv.key.bytes)).flatMap countLine) := by
    rw [wcProcessOutput, List.flatMap_map]
    refine List.flatMap_congr fun kv inside => ?_
    have inside := (qsort.perm wcCompareFn _).mem_iff.mp inside
    have solid := (plain _ (counted.word kv inside)).1
    have whole : printedString kv.key = kv.key.bytes :=
      List.takeWhile_eq_self_iff.mpr fun c member => decide_eq_true fun zero => solid (zero ▸ member)
    rw [countLine, intOf_of_count few (counted.count kv inside), whole]
  rw [printed]
  by_cases some_records : ((List.range arguments.nReduce).map parts).flatten.length > 0
  · rw [if_pos some_records, lines]
  · have none_left : ((List.range arguments.nReduce).map parts).flatten = [] := List.eq_nil_of_length_eq_zero (by omega)
    rw [if_neg some_records, ← lines, none_left, wcProcessOutput, (qsort.perm wcCompareFn []).eq_nil]
    rfl

end Counts
end CS162.MapReduce
