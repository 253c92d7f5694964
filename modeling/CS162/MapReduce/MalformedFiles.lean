import CS162.MapReduce.Codec
import CS162.MapReduce.GroupBy

/-!
Damaged files (hw-map-reduce: task_handler.c, and `process` of client.c). Both readers
count the records of all files together and only look whether the sum is odd, but they pair
records file by file. So two files with an odd number of records hide each other, and a
last record that is cut short is not counted at all.
-/

namespace CS162.MapReduce
open CS162.Library

/-- The fields of `process_arguments` that `process` reads. -/
structure ProcessArguments where
  app : String
  nReduce : Nat

def openOutputReaders (files : Files) (arguments : ProcessArguments) : Option (List (List UInt8)) :=
  (List.range arguments.nReduce).mapM fun i => files (.out i)

/-- `process`: the pairs for `process_output`, which is not called for none. -/
def process (getApp : String → Option App) (arguments : ProcessArguments) (files : Files) :
    Except Failure (List KeyValue) :=
  match getApp arguments.app with
  | none => .error .reported
  | some _ =>
      match openOutputReaders files arguments with
      | none => .error .reported
      | some readers =>
          let entries := (readers.map ldrCount).sum
          if entries % 2 = 1 then .error .reported
          else if entries / 2 > 0 then .ok (readMapKvs (entries / 2) readers)
          else .ok []

/-- What a file has behind its last whole record. -/
def ldrRest (input : List UInt8) : List UInt8 :=
  match _ : ldrNext input with
  | (none, _) => input
  | (some _, rest) => ldrRest rest
termination_by input.length
decreasing_by exact ldrNext_length_lt ‹_›

/-- How many files have a record that is in no pair. -/
def oddFiles (readers : List (List UInt8)) : Nat := readers.countP fun file => ldrCount file % 2 = 1

/-- No file is damaged. -/
def Whole (readers : List (List UInt8)) : Prop :=
  oddFiles readers = 0 ∧ ∀ file ∈ readers, ldrRest file = []

def pairsIn (file : List UInt8) : List KeyValue := readPairs (ldrCount file / 2) file

/-- The task reports an error, or its files are made of pairs and each of them is in one of the
groups that are reduced. -/
def ReducesAll (getApp : String → Option App) (qsort : Sorter KeyValue) (reply : TaskReply)
    (files : Files) : Prop :=
  handleReduceTask getApp qsort reply files = .error .reported ∨
    ∃ parts : List (List KeyValue), openReduceReaders files reply = some (parts.map pairsFile) ∧
      ∃ (files' : Files) (groups : List (List KeyValue)),
        handleReduceTask getApp qsort reply files = .ok files' ∧ groups.flatten.Perm parts.flatten ∧
          ∀ app, getApp reply.app = some app →
          files' = Function.update files (.out reply.task) (some (pairsFile
            (groups.flatMap (runRecord fun key kvs => app.reduce key kvs reply.args))))

/-- The client reports an error, or its files are made of pairs and it shows each of them once. -/
def ProcessesAll (getApp : String → Option App) (arguments : ProcessArguments) (files : Files) : Prop :=
  process getApp arguments files = .error .reported ∨
    ∃ parts : List (List KeyValue), openOutputReaders files arguments = some (parts.map pairsFile) ∧
      process getApp arguments files = .ok parts.flatten

section Files
variable {file : List UInt8} {readers : List (List UInt8)}

theorem ldrRest_of_none {input rest : List UInt8} (h : ldrNext input = (none, rest)) :
    ldrRest input = input := by
  rw [ldrRest]
  split
  · rfl
  · next read => rw [h] at read; cases read

theorem ldrRest_of_some {input rest : List UInt8} {buf : Buffer} (h : ldrNext input = (some buf, rest)) :
    ldrRest input = ldrRest rest := by
  rw [ldrRest]
  split
  · next read => rw [h] at read; cases read
  · next read => rw [h] at read; cases read; rfl

theorem ldrRest_written (bufs : List Buffer) : ldrRest (written bufs) = [] := by
  induction bufs with
  | nil => exact ldrRest_of_none ldrNext_nil
  | cons buf bufs ih =>
      rw [written, List.flatMap_cons, ldrRest_of_some ldrNext_record]
      exact ih

theorem exists_written (file : List UInt8) :
    ∃ bufs, file = written bufs ++ ldrRest file ∧ bufs.length = ldrCount file := by
  induction hn : file.length using Nat.strong_induction_on generalizing file with
  | _ n ih =>
      cases read : ldrNext file with
      | mk first rest =>
          cases first with
          | none =>
              refine ⟨[], ?_, (ldrCount_of_none read).symm⟩
              rw [ldrRest_of_none read]
              rfl
          | some buf =>
              obtain ⟨bufs, split, count⟩ := ih rest.length (hn ▸ ldrNext_length_lt read) rest rfl
              refine ⟨buf :: bufs, ?_, ?_⟩
              · rw [written, List.flatMap_cons, ldrRest_of_some read, List.append_assoc]
                exact (record_of_ldrNext read).trans (congrArg (record buf ++ ·) split)
              · rw [List.length_cons, count, ldrCount_of_some read]

/-- Records, two by two. -/
def pairUp : List Buffer → List KeyValue
  | key :: value :: bufs => ⟨key, value⟩ :: pairUp bufs
  | _ => []

theorem written_pairUp (bufs : List Buffer) (even : bufs.length % 2 = 0) :
    written bufs = pairsFile (pairUp bufs) := by
  induction bufs using pairUp.induct with
  | case1 key value bufs ih =>
      have rest : bufs.length % 2 = 0 := by
        rw [List.length_cons, List.length_cons] at even
        omega
      rw [pairUp, pairsFile_cons, ← ih rest]
      rfl
  | case2 bufs short =>
      cases bufs with
      | nil => rfl
      | cons buf bufs =>
          cases bufs with
          | nil => cases even
          | cons value bufs => exact absurd rfl (short buf value bufs)

theorem pairsIn_pairsFile (kvs : List KeyValue) : pairsIn (pairsFile kvs) = kvs := by
  rw [pairsIn, ldrCount_pairsFile, readPairs_pairsFile, Nat.mul_div_cancel_left _ (by decide),
    List.take_length]

/-- A file of pairs has no record without its other, and nothing behind them. -/
theorem exists_pairsFile_iff :
    (∃ kvs, file = pairsFile kvs) ↔ ldrCount file % 2 = 0 ∧ ldrRest file = [] := by
  constructor
  · intro paired
    obtain ⟨kvs, made⟩ := paired
    rw [made, ldrCount_pairsFile]
    exact ⟨Nat.mul_mod_right 2 _, ldrRest_written _⟩
  · intro whole
    obtain ⟨bufs, split, count⟩ := exists_written file
    rw [whole.2, List.append_nil] at split
    rw [← count] at whole
    exact ⟨pairUp bufs, split.trans (written_pairUp bufs whole.1)⟩

theorem sum_ldrCount_mod (readers : List (List UInt8)) :
    (readers.map ldrCount).sum % 2 = oddFiles readers % 2 := by
  induction readers with
  | nil => rfl
  | cons file readers ih =>
      rw [oddFiles] at ih ⊢
      rw [List.map_cons, List.sum_cons, List.countP_cons]
      by_cases odd : ldrCount file % 2 = 1
      · rw [decide_eq_true odd, if_pos rfl]
        omega
      · rw [decide_eq_false odd, if_neg Bool.false_ne_true]
        omega

theorem whole_iff : Whole readers ↔ ∃ parts : List (List KeyValue), readers = parts.map pairsFile := by
  induction readers with
  | nil => exact ⟨fun _ => ⟨[], rfl⟩, fun _ => ⟨rfl, fun file mem => absurd mem List.not_mem_nil⟩⟩
  | cons file readers ih =>
      have first : Whole (file :: readers) ↔ (∃ kvs, file = pairsFile kvs) ∧ Whole readers := by
        rw [exists_pairsFile_iff, Whole, Whole, oddFiles, oddFiles, List.countP_cons, List.forall_mem_cons]
        by_cases odd : ldrCount file % 2 = 1
        · simp [odd]
        · have even : ldrCount file % 2 = 0 := by omega
          rw [decide_eq_false odd, if_neg Bool.false_ne_true, Nat.add_zero, and_iff_right even]
          exact and_left_comm
      rw [first, ih]
      constructor
      · intro both
        obtain ⟨⟨kvs, here⟩, parts, rest⟩ := both
        exact ⟨kvs :: parts, by rw [here, rest, List.map_cons]⟩
      · intro paired
        obtain ⟨parts, split⟩ := paired
        cases parts with
        | nil => cases split
        | cons kvs parts =>
            rw [List.map_cons, List.cons.injEq] at split
            exact ⟨⟨kvs, split.1⟩, parts, split.2⟩

theorem flatMap_pairsIn (parts : List (List KeyValue)) :
    (parts.map pairsFile).flatMap pairsIn = parts.flatten := by
  induction parts with
  | nil => rfl
  | cons kvs parts ih => rw [List.map_cons, List.flatMap_cons, pairsIn_pairsFile, ih, List.flatten_cons]

end Files

section Tasks
variable {getApp : String → Option App} {qsort : Sorter KeyValue} {reply : TaskReply}
  {arguments : ProcessArguments} {files : Files} {readers : List (List UInt8)}
  {parts : List (List KeyValue)}

theorem handleReduceTask_of_odd (opened : openReduceReaders files reply = some readers)
    (odd : oddFiles readers % 2 = 1) : handleReduceTask getApp qsort reply files = .error .reported := by
  rw [← sum_ldrCount_mod] at odd
  simp only [handleReduceTask, opened, odd, if_true]

theorem handleReduceTask_of_parts (opened : openReduceReaders files reply = some (parts.map pairsFile)) :
    handleReduceTask getApp qsort reply files =
      if parts.flatten = [] then .ok (Function.update files (.out reply.task) (some []))
      else
        match getApp reply.app with
        | none => .error .undefined
        | some app =>
            if Library.Consistent byKey parts.flatten then
              .ok (Function.update files (.out reply.task) (some (pairsFile (reduceRecords qsort
                (fun key kvs => app.reduce key kvs reply.args) parts.flatten))))
            else .error .undefined := by
  have even : ¬ 2 * parts.flatten.length % 2 = 1 := by omega
  simp only [handleReduceTask, opened, ldrCount_pairsFiles]
  rw [if_neg even, Nat.mul_div_cancel_left _ (by decide : 0 < 2)]
  by_cases empty : parts.flatten = []
  · rw [if_pos empty, empty, List.length_nil, if_neg (Nat.lt_irrefl 0)]
  · rw [if_neg empty, if_pos (List.length_pos_of_ne_nil empty)]
    cases getApp reply.app with
    | none => rfl
    | some app =>
        simp only [reduceKvs, readMapKvs_pairsFiles]
        refine if_congr Iff.rfl ?_ rfl
        rw [reduceLoop_eq_runs, foldl_writeTo _ (Function.update_self ..), Function.update_idem]
        rfl

theorem reported_of_handleReduceTask
    (reported : handleReduceTask getApp qsort reply files = .error .reported) :
    openReduceReaders files reply = none ∨
      ∃ readers, openReduceReaders files reply = some readers ∧ oddFiles readers % 2 = 1 := by
  cases opened : openReduceReaders files reply with
  | none => exact .inl rfl
  | some readers =>
      refine .inr ⟨readers, rfl, ?_⟩
      simp only [handleReduceTask, opened] at reported
      split at reported
      next odd => exact (sum_ldrCount_mod readers).symm.trans odd
      next =>
        split at reported
        next =>
          split at reported
          next => cases reported
          next =>
            rw [reduceKvs] at reported
            split at reported
            next => cases reported
            next => cases reported
        next => cases reported

/-- The reduce task answers for its files if one is missing, if the number of odd ones is odd, or if
none is damaged and the comparison orders the pairs of a known application. -/
theorem reducesAll_iff : ReducesAll getApp qsort reply files ↔
    openReduceReaders files reply = none ∨
      ∃ readers, openReduceReaders files reply = some readers ∧ (oddFiles readers % 2 = 1 ∨
        Whole readers ∧ (readers.flatMap pairsIn = [] ∨
          (getApp reply.app).isSome ∧ Library.Consistent byKey (readers.flatMap pairsIn))) := by
  constructor
  · intro all
    cases all with
    | inl reported =>
        cases reported_of_handleReduceTask reported with
        | inl missing => exact .inl missing
        | inr odd =>
            obtain ⟨readers, opened, odd⟩ := odd
            exact .inr ⟨readers, opened, .inl odd⟩
    | inr reduced =>
        obtain ⟨parts, opened, files', groups, done, -, -⟩ := reduced
        refine .inr ⟨_, opened, .inr ⟨whole_iff.mpr ⟨parts, rfl⟩, ?_⟩⟩
        rw [flatMap_pairsIn]
        rw [handleReduceTask_of_parts opened] at done
        split at done
        next empty => exact .inl empty
        next =>
          split at done
          next => cases done
          next app known =>
            split at done
            next ordered => exact .inr ⟨by rw [known]; rfl, ordered⟩
            next => cases done
  · intro detected
    cases detected with
    | inl missing =>
        refine .inl ?_
        simp only [handleReduceTask, missing]
    | inr opened =>
        obtain ⟨readers, opened, odd | ⟨whole, able⟩⟩ := opened
        · exact .inl (handleReduceTask_of_odd opened odd)
        · obtain ⟨parts, split⟩ := whole_iff.mp whole
          rw [split] at opened able
          rw [flatMap_pairsIn] at able
          refine .inr ⟨parts, opened, ?_⟩
          rw [handleReduceTask_of_parts opened]
          by_cases empty : parts.flatten = []
          · refine ⟨_, [], if_pos empty, ?_, fun _ _ => rfl⟩
            rw [empty]
            exact List.Perm.refl []
          · obtain ⟨known, ordered⟩ := able.resolve_left empty
            obtain ⟨app, known⟩ := Option.isSome_iff_exists.mp known
            rw [if_neg empty, known]
            refine ⟨_, runs byKey (qsort.sort byKey parts.flatten), if_pos ordered, ?_, ?_⟩
            · rw [flatten_runs]
              exact qsort.perm byKey parts.flatten
            · intro app' same
              cases same
              rfl

theorem process_of_parts {app : App} (known : getApp arguments.app = some app)
    (opened : openOutputReaders files arguments = some (parts.map pairsFile)) :
    process getApp arguments files = .ok parts.flatten := by
  have even : ¬ 2 * parts.flatten.length % 2 = 1 := by omega
  simp only [process, known, opened, ldrCount_pairsFiles]
  rw [if_neg even, Nat.mul_div_cancel_left _ (by decide : 0 < 2)]
  by_cases empty : parts.flatten = []
  · rw [empty, List.length_nil, if_neg (Nat.lt_irrefl 0)]
  · rw [if_pos (List.length_pos_of_ne_nil empty), readMapKvs_pairsFiles]

theorem process_reported_iff : process getApp arguments files = .error .reported ↔
    getApp arguments.app = none ∨ openOutputReaders files arguments = none ∨
      ∃ readers, openOutputReaders files arguments = some readers ∧ oddFiles readers % 2 = 1 := by
  cases known : getApp arguments.app with
  | none =>
      refine ⟨fun _ => .inl rfl, fun _ => ?_⟩
      simp only [process, known]
  | some app =>
      cases opened : openOutputReaders files arguments with
      | none =>
          refine ⟨fun _ => .inr (.inl rfl), fun _ => ?_⟩
          simp only [process, known, opened]
      | some readers =>
          simp only [process, known, opened, sum_ldrCount_mod, reduceCtorEq, false_or, Option.some_inj,
            exists_eq_left']
          constructor
          · intro reported
            split at reported
            next odd => exact odd
            next => split at reported <;> cases reported
          · intro odd
            rw [if_pos odd]

/-- The client answers for its files if the application is unknown, if a file is missing, if the
number of odd ones is odd, or if none is damaged. -/
theorem processesAll_iff : ProcessesAll getApp arguments files ↔
    getApp arguments.app = none ∨ openOutputReaders files arguments = none ∨
      ∃ readers, openOutputReaders files arguments = some readers ∧
        (oddFiles readers % 2 = 1 ∨ Whole readers) := by
  rw [ProcessesAll, process_reported_iff]
  constructor
  · intro all
    rcases all with (unknown | missing | ⟨readers, opened, odd⟩) | ⟨parts, opened, -⟩
    · exact .inl unknown
    · exact .inr (.inl missing)
    · exact .inr (.inr ⟨readers, opened, .inl odd⟩)
    · exact .inr (.inr ⟨_, opened, .inr (whole_iff.mpr ⟨parts, rfl⟩)⟩)
  · intro detected
    rcases detected with unknown | missing | ⟨readers, opened, odd | whole⟩
    · exact .inl (.inl unknown)
    · exact .inl (.inr (.inl missing))
    · exact .inl (.inr (.inr ⟨readers, opened, odd⟩))
    · cases known : getApp arguments.app with
      | none => exact .inl (.inl rfl)
      | some app =>
          obtain ⟨parts, split⟩ := whole_iff.mp whole
          rw [split] at opened
          exact .inr ⟨parts, opened, process_of_parts known opened⟩

/-- Damaged files are reported, and the pairs of files that are not all reach the reduction and the
client, exactly when the damages do not hide each other. -/
theorem malformed_reported_iff (getApp : String → Option App) (qsort : Sorter KeyValue) (files : Files) :
    (∀ reply, ReducesAll getApp qsort reply files ↔
      openReduceReaders files reply = none ∨
        ∃ readers, openReduceReaders files reply = some readers ∧ (oddFiles readers % 2 = 1 ∨
          Whole readers ∧ (readers.flatMap pairsIn = [] ∨
            (getApp reply.app).isSome ∧ Library.Consistent byKey (readers.flatMap pairsIn)))) ∧
    ∀ arguments, ProcessesAll getApp arguments files ↔
      getApp arguments.app = none ∨ openOutputReaders files arguments = none ∨
        ∃ readers, openOutputReaders files arguments = some readers ∧
          (oddFiles readers % 2 = 1 ∨ Whole readers) :=
  ⟨fun _ => reducesAll_iff, fun _ => processesAll_iff⟩

end Tasks

section Halves

/-- `"a"` -/
def loneKey : Buffer := ⟨[0x61], fits_singleton _⟩

/-- Two map tasks left one record each, and so did two reduce tasks. -/
def halves : Files
  | .tmp _ 0 => some (record loneKey)
  | .out _ => some (record loneKey)
  | _ => none

def halvesReply : TaskReply := ⟨0, ⟨[], fits_nil⟩, "vertex-degree", 1, 2, ⟨[], fits_nil⟩⟩

def halvesArguments : ProcessArguments := ⟨"vertex-degree", 2⟩

theorem ldrCount_loneKey : ldrCount (record loneKey) = 1 := by
  have one : record loneKey = written [loneKey] := (List.flatMap_singleton record loneKey).symm
  rw [one, ldrCount_written]
  rfl

/-- Both records are dropped, and no error is reported. -/
theorem halves_not_reported :
    ¬ ReducesAll builtinApp (Sorter.insertion KeyValue) halvesReply halves ∧
      ¬ ProcessesAll builtinApp halvesArguments halves := by
  have odd : oddFiles [record loneKey, record loneKey] = 2 := by
    simp [oddFiles, ldrCount_loneKey]
  have inputs : openReduceReaders halves halvesReply = some [record loneKey, record loneKey] := rfl
  have outputs : openOutputReaders halves halvesArguments = some [record loneKey, record loneKey] := rfl
  rw [reducesAll_iff, processesAll_iff, inputs, outputs]
  simp [Whole, odd, builtinApp, halvesArguments]

end Halves
end CS162.MapReduce
