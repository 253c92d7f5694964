import CS162.MapReduceRs.Worker
import Mathlib.Data.List.Induction

/-!
Damaged map results (hw-map-reduce-rs: codec/mod.rs, worker/mod.rs). The reader that
`Worker::reduce` takes the packets from knows their end, but not that one is cut short:
there it panics. A key without a value is refused.
-/

namespace CS162.MapReduceRs
open CS162.Library

/-- The bytes are packets, none of them cut short. -/
def Whole (buf : Bytes) : Prop :=
  ∃ packets : List Bytes, (∀ b ∈ packets, b.length ≤ u32Max) ∧ buf = packets.flatMap packet

/-- Pairs are read that are written as the same bytes. -/
def Decodes (buf : Bytes) : Prop := ∃ kvs, readPairs buf = .ok kvs ∧ pairsBytes kvs = buf

/-- A reduce task that comes to read the bytes returns an error. -/
def Rejected (buf : Bytes) : Prop :=
  ∃ message, ∀ (sorter : Sorter KeyValue) (reduceFn : ReduceFn)
    (readMapFrom : Nat → ReadMapRequest → Except Status Bytes) (jobId task : Nat)
    (before after : List MapTaskAssignment) (mapTask : MapTaskAssignment) (outputDir : String) (aux : Bytes)
    (files : Files), (∃ kvs, readMaps readMapFrom jobId task before = .ok (.ok kvs)) →
    readMapFrom mapTask.workerId ⟨jobId, mapTask.task, task⟩ = .ok buf →
    reduce sorter reduceFn readMapFrom jobId task (before ++ mapTask :: after) outputDir aux files =
      .error (.error message)

section Packets
variable {buf rest b : Bytes}

theorem Whole.nil : Whole [] := ⟨[], nofun, rfl⟩

theorem Whole.cons (fits : b.length ≤ u32Max) (whole : Whole rest) : Whole (packet b ++ rest) := by
  obtain ⟨packets, all, rfl⟩ := whole
  refine ⟨b :: packets, ?_, rfl⟩
  rintro b (_ | ⟨_, inside⟩)
  · exact fits
  · exact all b inside

theorem nil_of_nextPacket (read : nextPacket buf = .ok (none, rest)) : buf = [] := by
  rw [nextPacket] at read
  split at read
  · assumption
  · split at read
    · cases read
    · simp only at read
      split at read <;> cases read

theorem packet_of_nextPacket (read : nextPacket buf = .ok (some b, rest)) :
    b.length ≤ u32Max ∧ buf = packet b ++ rest := by
  rw [nextPacket] at read
  split at read
  · cases read
  · split at read
    · cases read
    · next four =>
        simp only at read
        split at read
        · cases read
        · next enough =>
            cases read
            have header : (buf.take 4).length = 4 := List.length_take_of_le (Nat.le_of_not_lt four)
            have body : ((buf.drop 4).take (getU32 (buf.take 4))).length = getU32 (buf.take 4) :=
              List.length_take_of_le (Nat.le_of_not_lt enough)
            have bound := ofBytes_lt (buf.take 4).reverse
            rw [List.length_reverse, header] at bound
            constructor
            · rw [body, getU32, u32Max]
              omega
            · have length : putU32 (getU32 (buf.take 4)) = buf.take 4 := by
                rw [putU32, getU32, toBytes_ofBytes (by rw [List.length_reverse, header]), List.reverse_reverse]
              rw [packet, body, length, List.append_assoc, List.take_append_drop, List.take_append_drop]

theorem panic_of_nextPacket {failure : Failure} (read : nextPacket buf = .error failure) : failure = .panic := by
  rw [nextPacket] at read
  split at read
  · cases read
  · split at read
    · cases read
      rfl
    · simp only at read
      split at read
      · cases read
        rfl
      · cases read

end Packets

section Reader
variable {buf : Bytes}

theorem whole_of_readPairs (runs : readPairs buf ≠ .error .panic) : Whole buf := by
  fun_induction readPairs buf with
  | case1 buf failure read => exact absurd (congrArg Except.error (panic_of_nextPacket read)) runs
  | case2 buf rest read => exact nil_of_nextPacket read ▸ .nil
  | case3 buf key rest read failure stop => exact absurd (congrArg Except.error (panic_of_nextPacket stop)) runs
  | case4 buf key rest read last stop =>
      obtain ⟨fits, rfl⟩ := packet_of_nextPacket read
      exact .cons fits (nil_of_nextPacket stop ▸ .nil)
  | case5 buf key rest read value last next ih =>
      obtain ⟨fits, rfl⟩ := packet_of_nextPacket read
      obtain ⟨fits', rfl⟩ := packet_of_nextPacket next
      refine .cons fits (.cons fits' (ih fun stop => runs ?_))
      rw [stop]
      rfl

theorem readPairs_key {key : Bytes} (fits : key.length ≤ u32Max) :
    readPairs (packet key) = .error (.error "Found key without a value") := by
  have first := @nextPacket_packet key [] fits
  rw [List.append_nil] at first
  rw [readPairs]
  split
  · next read => rw [first] at read; cases read
  · next read => rw [first] at read; cases read
  · next read =>
      rw [first] at read
      cases read
      rfl

theorem readPairs_packets (packets : List Bytes) (fits : ∀ b ∈ packets, b.length ≤ u32Max) :
    Decodes (packets.flatMap packet) ∨
      readPairs (packets.flatMap packet) = .error (.error "Found key without a value") := by
  induction packets using List.twoStepInduction with
  | nil => exact .inl ⟨[], readPairs_nil, rfl⟩
  | singleton key =>
      have same : [key].flatMap packet = packet key := by simp
      rw [same]
      exact .inr (readPairs_key (fits key List.mem_cons_self))
  | cons_cons key value packets ih _ =>
      have others : ∀ b ∈ packets, b.length ≤ u32Max := fun b inside =>
        fits b (List.mem_cons_of_mem _ (List.mem_cons_of_mem _ inside))
      have step : readPairs ((key :: value :: packets).flatMap packet) =
          (readPairs (packets.flatMap packet)).map (⟨key, value⟩ :: ·) := by
        rw [List.flatMap_cons, List.flatMap_cons]
        exact @readPairs_of_next _ _ _ ⟨key, value⟩ (nextPacket_packet (fits key List.mem_cons_self))
          (nextPacket_packet (fits value (List.mem_cons_of_mem _ List.mem_cons_self)))
      rcases ih others with ⟨kvs, read, same⟩ | left
      · refine .inl ⟨⟨key, value⟩ :: kvs, ?_, ?_⟩
        · rw [step, read]
          rfl
        · rw [pairsBytes_cons, same]
          rfl
      · right
        rw [step, left]
        rfl

end Reader

section Reduce
variable {readMapFrom : Nat → ReadMapRequest → Except Status Bytes} {jobId task : Nat}
  {before after : List MapTaskAssignment} {mapTask : MapTaskAssignment} {buf : Bytes} {failure : Failure}

theorem readMaps_of_readPairs (read : ∃ kvs, readMaps readMapFrom jobId task before = .ok (.ok kvs))
    (reply : readMapFrom mapTask.workerId ⟨jobId, mapTask.task, task⟩ = .ok buf)
    (stop : readPairs buf = .error failure) :
    readMaps readMapFrom jobId task (before ++ mapTask :: after) = .error failure := by
  induction before with
  | nil =>
      rw [List.nil_append, readMaps, reply]
      dsimp only
      rw [stop]
      rfl
  | cons first before ih =>
      obtain ⟨kvs, read⟩ := read
      rw [readMaps] at read
      rw [List.cons_append, readMaps]
      split at read
      · cases read
      · obtain ⟨pairs, decoded, tail⟩ := bind_eq_ok read
        obtain ⟨others, rest, joined⟩ := bind_eq_ok tail
        cases others with
        | error status => cases joined
        | ok others =>
            rw [decoded, ok_bind, ih ⟨others, rest⟩]
            rfl

theorem reduce_of_readPairs {sorter : Sorter KeyValue} {reduceFn : ReduceFn} {outputDir : String} {aux : Bytes}
    {files : Files} (read : ∃ kvs, readMaps readMapFrom jobId task before = .ok (.ok kvs))
    (reply : readMapFrom mapTask.workerId ⟨jobId, mapTask.task, task⟩ = .ok buf)
    (stop : readPairs buf = .error failure) :
    reduce sorter reduceFn readMapFrom jobId task (before ++ mapTask :: after) outputDir aux files =
      .error failure := by
  rw [reduce, readMaps_of_readPairs read reply stop]
  rfl

theorem reduce_only (stop : readPairs buf = .error failure) :
    reduce (.insertion KeyValue) (fun _ _ _ => .ok []) (fun _ _ => .ok buf) 0 0 [⟨0, 0⟩] "" [] (fun _ => none) =
      .error failure :=
  @reduce_of_readPairs _ _ _ [] [] _ _ _ _ _ _ _ _ ⟨[], rfl⟩ rfl stop

theorem not_of_panic (stop : readPairs buf = .error .panic) : ¬ (Decodes buf ∨ Rejected buf) := by
  rintro (⟨kvs, read, -⟩ | ⟨message, rejects⟩)
  · rw [stop] at read
    cases read
  · have rejected := rejects (.insertion KeyValue) (fun _ _ _ => .ok []) (fun _ _ => .ok buf) 0 0 [] [] ⟨0, 0⟩ "" []
      (fun _ => none) ⟨[], rfl⟩ rfl
    rw [List.nil_append, reduce_only stop] at rejected
    cases rejected

end Reduce

/-- The reducer copes with a map result where that is made of packets. -/
theorem decodes_or_rejected_iff (buf : Bytes) : Decodes buf ∨ Rejected buf ↔ Whole buf := by
  constructor
  case mp =>
    intro copes
    exact whole_of_readPairs fun stop => not_of_panic stop copes
  case mpr =>
    rintro ⟨packets, fits, rfl⟩
    exact (readPairs_packets packets fits).imp_right fun stop =>
      ⟨_, fun _ _ _ _ _ _ _ _ _ _ _ read reply => reduce_of_readPairs read reply stop⟩

/-- A header that lacks three bytes, and a body that lacks four. -/
theorem not_decodes_or_rejected :
    ¬ (Decodes [0] ∨ Rejected [0]) ∧ ¬ (Decodes [0, 0, 0, 5, 1] ∨ Rejected [0, 0, 0, 5, 1]) := by
  have header : readPairs [0] = .error .panic := by
    rw [readPairs]
    rfl
  have body : readPairs [0, 0, 0, 5, 1] = .error .panic := by
    rw [readPairs]
    rfl
  exact ⟨not_of_panic header, not_of_panic body⟩

end CS162.MapReduceRs
