import CS162.MapReduceRs.JobOutput

/-!
How the client reads the output of a job (hw-map-reduce-rs: client.rs). It decodes
the files with `LengthDelimitedCodec::new()` of tokio_util, whose frames have the
header of a packet but must not be longer than 8 MiB, while the writer of the
output sends packets of up to `u32::MAX` bytes. The client gets the pairs back
exactly when none of their packets is longer than a frame.
-/

namespace CS162.MapReduceRs
open CS162.Library

/-- The default maximum of a frame: 8 MiB. -/
def maxFrame : Nat := 8 * 1024 * 1024

/-- What is documented of the frames of `LengthDelimitedCodec::new()`, as they are
taken off what is left of a file. -/
structure FrameCodec where
  next : Bytes → Option (Except Failure Bytes) × Bytes
  next_nil : next [] = (none, [])
  next_frame : ∀ b rest, b.length ≤ maxFrame → next (packet b ++ rest) = (some (.ok b), rest)
  next_long : ∀ b rest, maxFrame < b.length → b.length ≤ u32Max →
    ∃ failure, (next (packet b ++ rest)).1 = some (.error failure)
  length_lt : ∀ input b rest, next input = (some (.ok b), rest) → rest.length < input.length

section Client
variable (codec : FrameCodec)

/-- The loop of `postprocess_job` over one file. A key without a value ends it. -/
def readFrames (input : Bytes) : Except Failure (List KeyValue) :=
  match _h : codec.next input with
  | (none, _) => .ok []
  | (some (.error failure), _) => .error failure
  | (some (.ok key), rest) =>
      match _h' : codec.next rest with
      | (none, _) => .ok []
      | (some (.error failure), _) => .error failure
      | (some (.ok value), rest) => do
          let kvs ← readFrames rest
          return ⟨key, value⟩ :: kvs
termination_by input.length
decreasing_by exact (codec.length_lt _ _ _ _h').trans (codec.length_lt _ _ _ _h)

/-- The pairs of the output files, from one file number on. -/
def readOutputs (files : Files) (outputDir : String) : List Nat → Except Failure (List KeyValue)
  | [] => .ok []
  | i :: is =>
      match files (.out outputDir i) with
      | none => .error (.error "No such file or directory (os error 2)")
      | some file => do
          let kvs ← readFrames codec file
          let others ← readOutputs files outputDir is
          return kvs ++ others

abbrev ProcessOutputFn := List KeyValue → Except Failure String

/-- `postprocess_job`; `named` finds the application. -/
def postprocessJob (named : String → Except Failure ProcessOutputFn) (files : Files)
    (outputDir app : String) (nReduce : Nat) : Except Failure String := do
  let intermediate ← readOutputs codec files outputDir (List.range nReduce)
  let processOutput ← named app
  processOutput intermediate

end Client

/-- The client of a job reads exactly these pairs, whatever is made of them. -/
def ReadsBack (codec : FrameCodec) (files : Files) (outputDir : String) (nReduce : Nat)
    (kvs : List KeyValue) : Prop :=
  ∀ named app, postprocessJob codec named files outputDir app nReduce =
    (named app).bind fun processOutput => processOutput kvs

/-- Both packets of a pair are frames. -/
def KeyValue.Framed (kv : KeyValue) : Prop := kv.key.length ≤ maxFrame ∧ kv.value.length ≤ maxFrame

section Frames
variable {codec : FrameCodec} {kvs : List KeyValue}

theorem readFrames_nil : readFrames codec [] = .ok [] := by
  rw [readFrames]
  split
  · rfl
  · next read => rw [codec.next_nil] at read; cases read
  · next read => rw [codec.next_nil] at read; cases read

theorem readFrames_cons {kv : KeyValue} (framed : kv.Framed) :
    readFrames codec (pairsBytes (kv :: kvs)) = (readFrames codec (pairsBytes kvs)).map (kv :: ·) := by
  have first := codec.next_frame kv.key (packet kv.value ++ pairsBytes kvs) framed.1
  have second := codec.next_frame kv.value (pairsBytes kvs) framed.2
  rw [pairsBytes_cons, readFrames]
  split
  · next read => rw [first] at read; cases read
  · next read => rw [first] at read; cases read
  · next read =>
      rw [first] at read
      cases read
      split
      · next read => rw [second] at read; cases read
      · next read => rw [second] at read; cases read
      · next read =>
          rw [second] at read
          cases read
          rfl

theorem readFrames_long {kv : KeyValue} (fits : kv.Fits) (long : ¬ kv.Framed) :
    ∃ failure, readFrames codec (pairsBytes (kv :: kvs)) = .error failure := by
  rw [pairsBytes_cons, readFrames]
  by_cases key : kv.key.length ≤ maxFrame
  · have value : maxFrame < kv.value.length := Nat.lt_of_not_le fun value => long ⟨key, value⟩
    have first := codec.next_frame kv.key (packet kv.value ++ pairsBytes kvs) key
    obtain ⟨failure, second⟩ := codec.next_long kv.value (pairsBytes kvs) value fits.2
    refine ⟨failure, ?_⟩
    split
    · next read => rw [first] at read; cases read
    · next read => rw [first] at read; cases read
    · next read =>
        rw [first] at read
        cases read
        split
        · next read => rw [read] at second; cases second
        · next read => rw [read] at second; cases second; rfl
        · next read => rw [read] at second; cases second
  · obtain ⟨failure, first⟩ :=
      codec.next_long kv.key (packet kv.value ++ pairsBytes kvs) (Nat.lt_of_not_le key) fits.1
    refine ⟨failure, ?_⟩
    split
    · next read => rw [read] at first; cases first
    · next read => rw [read] at first; cases first; rfl
    · next read => rw [read] at first; cases first

variable (codec) in
/-- A file of pairs is read whole when all packets are frames, and else fails. -/
theorem readFrames_pairsBytes (fits : ∀ kv ∈ kvs, kv.Fits) :
    ((∀ kv ∈ kvs, kv.Framed) ∧ readFrames codec (pairsBytes kvs) = .ok kvs) ∨
      (¬ (∀ kv ∈ kvs, kv.Framed) ∧ ∃ failure, readFrames codec (pairsBytes kvs) = .error failure) := by
  induction kvs with
  | nil => exact .inl ⟨fun _ h => absurd h List.not_mem_nil, readFrames_nil⟩
  | cons kv kvs ih =>
      have tail := ih fun kv hkv => fits kv (List.mem_cons_of_mem _ hkv)
      by_cases framed : kv.Framed
      · rw [readFrames_cons framed, List.forall_mem_cons]
        cases tail with
        | inl whole => exact .inl ⟨⟨framed, whole.1⟩, by rw [whole.2]; rfl⟩
        | inr broken =>
            obtain ⟨failure, stops⟩ := broken.2
            exact .inr ⟨fun all => broken.1 all.2, failure, by rw [stops]; rfl⟩
      · exact .inr ⟨fun all => framed (all kv List.mem_cons_self),
          readFrames_long (fits kv List.mem_cons_self) framed⟩

variable (codec) in
theorem readOutputs_spec {files : Files} {outputDir : String} {outputs : Nat → List KeyValue}
    {is : List Nat} (fits : ∀ i ∈ is, ∀ kv ∈ outputs i, kv.Fits)
    (written : ∀ i ∈ is, files (.out outputDir i) = some (pairsBytes (outputs i))) :
    ((∀ i ∈ is, ∀ kv ∈ outputs i, kv.Framed) ∧
        readOutputs codec files outputDir is = .ok (is.flatMap outputs)) ∨
      (¬ (∀ i ∈ is, ∀ kv ∈ outputs i, kv.Framed) ∧
        ∃ failure, readOutputs codec files outputDir is = .error failure) := by
  induction is with
  | nil => exact .inl ⟨fun _ h => absurd h List.not_mem_nil, rfl⟩
  | cons i is ih =>
      have tail := ih (fun j hj => fits j (List.mem_cons_of_mem _ hj))
        fun j hj => written j (List.mem_cons_of_mem _ hj)
      rw [List.forall_mem_cons, readOutputs, written i List.mem_cons_self]
      cases readFrames_pairsBytes codec (fits i List.mem_cons_self) with
      | inr broken =>
          obtain ⟨failure, stops⟩ := broken.2
          exact .inr ⟨fun all => broken.1 all.1, failure, by simp only [stops]; rfl⟩
      | inl whole =>
          simp only [whole.2, ok_bind]
          cases tail with
          | inl others => exact .inl ⟨⟨whole.1, others.1⟩, by rw [others.2]; rfl⟩
          | inr broken =>
              obtain ⟨failure, stops⟩ := broken.2
              exact .inr ⟨fun all => broken.1 all.2, failure, by rw [stops]; rfl⟩

end Frames

section ReadsBack
variable {codec : FrameCodec} {files : Files} {outputDir : String} {nReduce : Nat}
variable {outputs : Nat → List KeyValue}

variable (codec files outputDir) in
theorem readsBack_iff_framed (fits : ∀ i ∈ List.range nReduce, ∀ kv ∈ outputs i, kv.Fits)
    (written : ∀ i ∈ List.range nReduce, files (.out outputDir i) = some (pairsBytes (outputs i))) :
    ReadsBack codec files outputDir nReduce ((List.range nReduce).flatMap outputs) ↔
      ∀ i ∈ List.range nReduce, ∀ kv ∈ outputs i, kv.Framed := by
  cases readOutputs_spec codec fits written with
  | inl whole =>
      refine ⟨fun _ => whole.1, fun _ named app => ?_⟩
      rw [postprocessJob, whole.2]
      rfl
  | inr broken =>
      obtain ⟨failure, stops⟩ := broken.2
      refine ⟨fun reads => ?_, fun all => absurd all broken.1⟩
      -- An application that is happy with any output does not get to see it.
      have result := reads (fun _ => .ok fun _ => .ok "") ""
      rw [postprocessJob, stops] at result
      cases result

/-- The client reads back the output files of a job exactly when no packet in them
is longer than a frame. -/
theorem readsBack_iff (fits : ∀ i < nReduce, ∀ kv ∈ outputs i, kv.Fits)
    (written : ∀ i < nReduce, files (.out outputDir i) = some (pairsBytes (outputs i))) :
    ReadsBack codec files outputDir nReduce ((List.range nReduce).flatMap outputs) ↔
      ∀ i < nReduce, ∀ kv ∈ outputs i, kv.key.length ≤ maxFrame ∧ kv.value.length ≤ maxFrame := by
  have framed := readsBack_iff_framed codec files outputDir
    (fun i hi => fits i (List.mem_range.mp hi)) fun i hi => written i (List.mem_range.mp hi)
  simp only [List.mem_range] at framed
  exact framed

end ReadsBack

section Decoder

/-- The decoder, as tokio_util describes it. -/
def nextFrame (input : Bytes) : Option (Except Failure Bytes) × Bytes :=
  if input = [] then (none, [])
  else if input.length < 4 then (some (.error (.error "bytes remaining on stream")), [])
  else
    let n := getU32 (input.take 4)
    let rest := input.drop 4
    if maxFrame < n then (some (.error (.error "frame size too big")), rest)
    else if rest.length < n then (some (.error (.error "bytes remaining on stream")), [])
    else (some (.ok (rest.take n)), rest.drop n)

theorem nextFrame_packet {b rest : Bytes} (h : b.length ≤ maxFrame) :
    nextFrame (packet b ++ rest) = (some (.ok b), rest) := by
  have fits : b.length ≤ u32Max := h.trans (by decide)
  have whole : ¬ (b ++ rest).length < b.length := by
    rw [List.length_append]
    omega
  rw [nextFrame, if_neg (packet_append_ne_nil b rest), if_neg (Nat.not_lt_of_le (four_le_packet b rest))]
  simp only [take_packet, drop_packet, getU32_putU32 fits]
  rw [if_neg (Nat.not_lt_of_le h), if_neg whole, List.take_left, List.drop_left]

theorem nextFrame_long {b rest : Bytes} (h : maxFrame < b.length) (fits : b.length ≤ u32Max) :
    nextFrame (packet b ++ rest) = (some (.error (.error "frame size too big")), b ++ rest) := by
  rw [nextFrame, if_neg (packet_append_ne_nil b rest), if_neg (Nat.not_lt_of_le (four_le_packet b rest))]
  simp only [take_packet, drop_packet, getU32_putU32 fits]
  rw [if_pos h]

theorem length_lt_of_nextFrame {input b rest : Bytes} (h : nextFrame input = (some (.ok b), rest)) :
    rest.length < input.length := by
  rw [nextFrame] at h
  split at h
  · cases h
  · split at h
    · cases h
    · simp only at h
      split at h
      · cases h
      · split at h
        · cases h
        · cases h
          rw [List.length_drop, List.length_drop]
          omega

/-- `LengthDelimitedCodec::new()` -/
def lengthDelimitedCodec : FrameCodec where
  next := nextFrame
  next_nil := rfl
  next_frame _ _ := nextFrame_packet
  next_long _ _ h fits := ⟨_, congrArg Prod.fst (nextFrame_long h fits)⟩
  length_lt _ _ _ := length_lt_of_nextFrame

/-- One output file, with one pair. -/
def oneOutput (value : Bytes) : Files
  | .input _ => none
  | .out _ _ => some (pairsBytes [⟨[0x61], value⟩])

theorem oneOutput_fits {value : Bytes} (h : value.length ≤ u32Max) :
    ∀ i < 1, ∀ kv ∈ [(⟨[0x61], value⟩ : KeyValue)], kv.Fits := by
  intro i hi kv hkv
  obtain rfl := List.mem_singleton.mp hkv
  exact ⟨Nat.le_of_ble_eq_true rfl, h⟩

/-- The pairs of two output files. -/
def twoOutputs (value : Bytes) (i : Nat) : List KeyValue :=
  if i = 0 then [⟨[0x61], [0x7a]⟩, ⟨[0x62], value⟩] else [⟨[0x63], []⟩]

def twoFiles (value : Bytes) : Files
  | .input _ => none
  | .out _ i => some (pairsBytes (twoOutputs value i))

theorem mem_twoOutputs {value : Bytes} {i : Nat} {kv : KeyValue} (h : kv ∈ twoOutputs value i) :
    kv.key.length = 1 ∧ (kv.value.length ≤ 1 ∨ kv.value = value) := by
  rw [twoOutputs] at h
  split at h <;> simp only [List.mem_cons, List.not_mem_nil, or_false] at h
  · rcases h with rfl | rfl
    · exact ⟨rfl, .inl (Nat.le_refl 1)⟩
    · exact ⟨rfl, .inr rfl⟩
  · obtain rfl := h
    exact ⟨rfl, .inl (Nat.zero_le 1)⟩

/-- Three pairs in two files come back, one of them with a value of exactly 8 MiB. -/
theorem readsBack_twoFiles : ReadsBack lengthDelimitedCodec
    (twoFiles (List.replicate (8 * 1024 * 1024) 0)) "out" 2
    [⟨[0x61], [0x7a]⟩, ⟨[0x62], List.replicate (8 * 1024 * 1024) 0⟩, ⟨[0x63], []⟩] := by
  have length : (List.replicate (8 * 1024 * 1024) (0 : UInt8)).length ≤ maxFrame :=
    Nat.le_of_eq List.length_replicate
  generalize List.replicate (8 * 1024 * 1024) (0 : UInt8) = value at *
  have framed (i : Nat) (kv : KeyValue) (hkv : kv ∈ twoOutputs value i) :
      kv.key.length ≤ maxFrame ∧ kv.value.length ≤ maxFrame := by
    obtain ⟨key, short | rfl⟩ := mem_twoOutputs hkv
    · exact ⟨key ▸ by decide, short.trans (by decide)⟩
    · exact ⟨key ▸ by decide, length⟩
  have fits : maxFrame ≤ u32Max := by decide
  exact (@readsBack_iff lengthDelimitedCodec (twoFiles value) "out" 2 (twoOutputs value)
    (fun i _ kv hkv => ⟨(framed i kv hkv).1.trans fits, (framed i kv hkv).2.trans fits⟩)
    fun _ _ => rfl).mpr fun i _ => framed i

theorem not_readsBack_of_long {value : Bytes} (long : maxFrame < value.length)
    (fits : value.length ≤ u32Max) :
    ¬ ReadsBack lengthDelimitedCodec (oneOutput value) "out" 1 [⟨[0x61], value⟩] := by
  intro reads
  have framed : ∀ i ∈ List.range 1, ∀ kv ∈ [(⟨[0x61], value⟩ : KeyValue)], kv.Framed :=
    (readsBack_iff_framed lengthDelimitedCodec (oneOutput value) "out"
      (fun i hi => oneOutput_fits fits i (List.mem_range.mp hi)) fun _ _ => rfl).mp reads
  have short := framed 0 (List.mem_range.mpr Nat.zero_lt_one) _ List.mem_cons_self
  exact absurd short.2 (Nat.not_le_of_lt long)

/-- A value of one byte more than 8 MiB does not come back. -/
theorem not_readsBack_of_long_value :
    ¬ ReadsBack lengthDelimitedCodec (oneOutput (List.replicate (8 * 1024 * 1024 + 1) 0)) "out" 1
      [⟨[0x61], List.replicate (8 * 1024 * 1024 + 1) 0⟩] := by
  apply not_readsBack_of_long
  · rw [List.length_replicate]
    exact Nat.lt_succ_self _
  · rw [List.length_replicate]
    exact Nat.le_of_ble_eq_true rfl

end Decoder
end CS162.MapReduceRs
