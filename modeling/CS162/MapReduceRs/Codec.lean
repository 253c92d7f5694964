import CS162.Library.LittleEndian
import CS162.Library.Outcome

/-!
Length-delimited packets in memory (hw-map-reduce-rs: codec/mod.rs). A packet is
its length as a big-endian `u32` and then its bytes. A writer and a reader are
the bytes of their buffer.

A function that returns an error or panics ends in a `Failure`.
-/

namespace CS162.MapReduceRs
open CS162.Library

abbrev Bytes := List UInt8

inductive Failure where
  | error (message : String)
  | panic
  deriving DecidableEq

/-- `u32::MAX` -/
def u32Max : Nat := 2 ^ 32 - 1

def putU32 (n : Nat) : Bytes := (toBytes 4 n).reverse

def getU32 (bytes : Bytes) : Nat := ofBytes bytes.reverse

theorem putU32_length (n : Nat) : (putU32 n).length = 4 := by
  rw [putU32, List.length_reverse, toBytes_length]

theorem getU32_putU32 {n : Nat} (h : n ≤ u32Max) : getU32 (putU32 n) = n := by
  rw [getU32, putU32, List.reverse_reverse]
  refine ofBytes_toBytes ?_
  rw [u32Max] at h
  omega

structure KeyValue where
  key : Bytes
  value : Bytes
  deriving DecidableEq

def packet (b : Bytes) : Bytes := putU32 b.length ++ b

section Writer

/-- `LengthDelimitedWriter::send` -/
def send (buf b : Bytes) : Except Failure Bytes :=
  if b.length ≤ u32Max then .ok (buf ++ packet b) else .error .panic

/-- Both packets of a pair. -/
def sendPair (buf : Bytes) (kv : KeyValue) : Except Failure Bytes := do
  let buf ← send buf kv.key
  send buf kv.value

/-- The packets of a pair can be written. -/
def KeyValue.Fits (kv : KeyValue) : Prop := kv.key.length ≤ u32Max ∧ kv.value.length ≤ u32Max

/-- The buffer to which the pairs were written in order. -/
def pairsBytes (kvs : List KeyValue) : Bytes :=
  kvs.flatMap fun kv => packet kv.key ++ packet kv.value

theorem pairsBytes_cons (kv : KeyValue) (kvs : List KeyValue) :
    pairsBytes (kv :: kvs) = packet kv.key ++ (packet kv.value ++ pairsBytes kvs) := by
  rw [pairsBytes, List.flatMap_cons, List.append_assoc]
  rfl

theorem pairsBytes_append (front back : List KeyValue) :
    pairsBytes (front ++ back) = pairsBytes front ++ pairsBytes back :=
  List.flatMap_append

variable {buf b : Bytes} {kv : KeyValue}

theorem send_of_le (h : b.length ≤ u32Max) : send buf b = .ok (buf ++ packet b) := if_pos h

theorem send_of_lt (h : u32Max < b.length) : send buf b = .error .panic :=
  if_neg (Nat.not_le_of_lt h)

theorem sendPair_of_fits (h : kv.Fits) : sendPair buf kv = .ok (buf ++ pairsBytes [kv]) := by
  rw [sendPair, send_of_le h.1, ok_bind, send_of_le h.2, pairsBytes_cons, List.append_assoc]
  simp [pairsBytes]

theorem sendPair_of_long (h : u32Max < kv.value.length) : sendPair buf kv = .error .panic := by
  rw [sendPair]
  by_cases short : kv.key.length ≤ u32Max
  · rw [send_of_le short, ok_bind, send_of_lt h]
  · rw [send_of_lt (Nat.lt_of_not_le short)]
    rfl

end Writer

section Reader

/-- `LengthDelimitedReader::next`, with the buffer after it -/
def nextPacket (buf : Bytes) : Except Failure (Option Bytes × Bytes) :=
  if buf = [] then .ok (none, buf)
  else if buf.length < 4 then .error .panic
  else
    let len := getU32 (buf.take 4)
    let buf := buf.drop 4
    if buf.length < len then .error .panic
    else .ok (some (buf.take len), buf.drop len)

theorem length_lt_of_nextPacket {buf rest b : Bytes} (h : nextPacket buf = .ok (some b, rest)) :
    rest.length < buf.length := by
  rw [nextPacket] at h
  split at h
  · cases h
  · split at h
    · cases h
    · simp only at h
      split at h
      · cases h
      · cases h
        rw [List.length_drop, List.length_drop]
        omega

theorem take_packet (b rest : Bytes) : (packet b ++ rest).take 4 = putU32 b.length := by
  rw [packet, List.append_assoc, List.take_left' (putU32_length _)]

theorem drop_packet (b rest : Bytes) : (packet b ++ rest).drop 4 = b ++ rest := by
  rw [packet, List.append_assoc, List.drop_left' (putU32_length _)]

theorem four_le_packet (b rest : Bytes) : 4 ≤ (packet b ++ rest).length := by
  rw [packet, List.length_append, List.length_append, putU32_length]
  omega

theorem packet_append_ne_nil (b rest : Bytes) : packet b ++ rest ≠ [] :=
  List.ne_nil_of_length_pos (Nat.lt_of_lt_of_le (by decide) (four_le_packet b rest))

theorem nextPacket_packet {b rest : Bytes} (h : b.length ≤ u32Max) :
    nextPacket (packet b ++ rest) = .ok (some b, rest) := by
  have whole : ¬ (b ++ rest).length < b.length := by
    rw [List.length_append]
    omega
  rw [nextPacket, if_neg (packet_append_ne_nil b rest), if_neg (Nat.not_lt_of_le (four_le_packet b rest))]
  simp only [take_packet, drop_packet, getU32_putU32 h]
  rw [if_neg whole, List.take_left, List.drop_left]

/-- The pairs of a buffer, in the loop that the reduce task reads them with. -/
def readPairs (buf : Bytes) : Except Failure (List KeyValue) :=
  match _ : nextPacket buf with
  | .error failure => .error failure
  | .ok (none, _) => .ok []
  | .ok (some key, rest) =>
      match _ : nextPacket rest with
      | .error failure => .error failure
      | .ok (none, _) => .error (.error "Found key without a value")
      | .ok (some value, rest) => do
          let kvs ← readPairs rest
          return ⟨key, value⟩ :: kvs
termination_by buf.length
decreasing_by
  rename_i _ first second
  exact (length_lt_of_nextPacket second).trans (length_lt_of_nextPacket first)

theorem readPairs_nil : readPairs [] = .ok [] := by
  rw [readPairs]
  rfl

theorem readPairs_of_next {buf middle rest : Bytes} {kv : KeyValue}
    (first : nextPacket buf = .ok (some kv.key, middle))
    (second : nextPacket middle = .ok (some kv.value, rest)) :
    readPairs buf = (readPairs rest).map (kv :: ·) := by
  rw [readPairs]
  split
  · next read => rw [first] at read; cases read
  · next read => rw [first] at read; cases read
  · next read =>
      rw [first] at read
      cases read
      split
      · next read => rw [second] at read; cases read
      · next read => rw [second] at read; cases read
      · next read =>
          rw [second] at read
          cases read
          rfl

theorem readPairs_pairsBytes {kvs : List KeyValue} (fits : ∀ kv ∈ kvs, kv.Fits) :
    readPairs (pairsBytes kvs) = .ok kvs := by
  induction kvs with
  | nil => exact readPairs_nil
  | cons kv kvs ih =>
      have this := fits kv List.mem_cons_self
      have others : ∀ kv ∈ kvs, kv.Fits := fun kv hkv => fits kv (List.mem_cons_of_mem _ hkv)
      rw [pairsBytes_cons, readPairs_of_next (nextPacket_packet this.1) (nextPacket_packet this.2),
        ih others]
      rfl

end Reader
end CS162.MapReduceRs
