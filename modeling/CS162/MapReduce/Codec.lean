import CS162.Library.LittleEndian
import CS162.Library.Framing

/-!
The record codec (hw-map-reduce: codec.c) and the byte buffers of lib.h.

A file is its bytes, and a reader is the bytes it has not read yet. `malloc`
gives every length an object can have, which is below `2 ^ 63`, and refuses the
others. A negative length of `sized_buffer` only says that a read failed and is
`none` here.

The records of a file are a stream of frames, so a reader returns the longest
list of records the file starts with, and from then on, where the file has no
more bytes, a negative length.
-/

namespace CS162.MapReduce
open CS162.Library

/-- `sized_buffer` -/
structure Buffer where
  bytes : List UInt8
  fits : bytes.length < 2 ^ 63
  deriving DecidableEq

theorem fits_nil : ([] : List UInt8).length < 2 ^ 63 := by decide

theorem fits_singleton (b : UInt8) : [b].length < 2 ^ 63 := by simp

def Buffer.length (buf : Buffer) : Nat := buf.bytes.length

theorem Buffer.length_bytes (buf : Buffer) : buf.bytes.length = buf.length := rfl

theorem Buffer.eq_of_bytes_eq {a b : Buffer} (h : a.bytes = b.bytes) : a = b := by
  cases a
  cases b
  cases h
  rfl

/-- What `ldw_write` adds to its file: the length as a `ssize_t`, then the bytes. -/
def record (buf : Buffer) : List UInt8 := toBytes 8 buf.length ++ buf.bytes

def ldwWrite (file : List UInt8) (buf : Buffer) : List UInt8 := file ++ record buf

def ldrNext (input : List UInt8) : Option Buffer × List UInt8 :=
  if input.length < 8 then (none, [])
  else
    let length := ofBytes (input.take 8)
    let rest := input.drop 8
    if length = 0 then (some ⟨[], fits_nil⟩, rest)
    else if h : length < 2 ^ 63 then
      if rest.length < length then (none, [])
      else
        (some ⟨rest.take length, by rw [List.length_take]; omega⟩, rest.drop length)
    else (none, rest)

theorem ldrNext_length_lt {input rest : List UInt8} {buf : Buffer}
    (h : ldrNext input = (some buf, rest)) : rest.length < input.length := by
  unfold ldrNext at h
  split at h
  · cases h
  · simp only at h
    split at h
    · cases h
      rw [List.length_drop]
      omega
    · split at h
      · split at h
        · cases h
        · cases h
          rw [List.length_drop, List.length_drop]
          omega
      · cases h

def ldrCount (input : List UInt8) : Nat :=
  match _ : ldrNext input with
  | (none, _) => 0
  | (some _, rest) => ldrCount rest + 1
termination_by input.length
decreasing_by exact ldrNext_length_lt ‹_›

/-- The file to which the buffers were written in order. -/
def written (bufs : List Buffer) : List UInt8 := bufs.flatMap record

theorem foldl_ldwWrite {bufs : List Buffer} {file : List UInt8} :
    bufs.foldl ldwWrite file = file ++ written bufs := by
  induction bufs generalizing file with
  | nil => simp [written]
  | cons buf bufs ih => simp [written, ldwWrite, ih]

@[simp] theorem written_append {front back : List Buffer} :
    written (front ++ back) = written front ++ written back :=
  List.flatMap_append

theorem ldrNext_nil : ldrNext [] = (none, []) := rfl

theorem ldrNext_record {buf : Buffer} {rest : List UInt8} :
    ldrNext (record buf ++ rest) = (some buf, rest) := by
  have fits := buf.fits
  have front : (record buf ++ rest).take 8 = toBytes 8 buf.length := by
    rw [record, List.append_assoc, List.take_left' toBytes_length]
  have back : (record buf ++ rest).drop 8 = buf.bytes ++ rest := by
    rw [record, List.append_assoc, List.drop_left' toBytes_length]
  have long : ¬ (record buf ++ rest).length < 8 := by
    simp only [record, List.length_append, toBytes_length]
    omega
  have length : ofBytes (toBytes 8 buf.length) = buf.bytes.length := by
    refine ofBytes_toBytes ?_
    rw [Buffer.length]
    omega
  unfold ldrNext
  simp only [if_neg long, front, back, length]
  by_cases empty : buf.bytes.length = 0
  · have none_left := List.length_eq_zero_iff.mp empty
    rw [if_pos empty, none_left, List.nil_append]
    exact congrArg (fun buf => (some buf, rest)) (Buffer.eq_of_bytes_eq none_left.symm)
  · have enough : ¬ (buf.bytes ++ rest).length < buf.bytes.length := by
      rw [List.length_append]
      omega
    rw [if_neg empty, dif_pos fits, if_neg enough, List.drop_left]
    exact congrArg (fun buf => (some buf, rest)) (Buffer.eq_of_bytes_eq List.take_left)

theorem ldrCount_of_none {input rest : List UInt8} (h : ldrNext input = (none, rest)) :
    ldrCount input = 0 := by
  rw [ldrCount]
  split
  · rfl
  · next read => rw [h] at read; cases read

theorem ldrCount_of_some {input rest : List UInt8} {buf : Buffer}
    (h : ldrNext input = (some buf, rest)) : ldrCount input = ldrCount rest + 1 := by
  rw [ldrCount]
  split
  · next read => rw [h] at read; cases read
  · next read => rw [h] at read; cases read; rfl

theorem ldrCount_written {bufs : List Buffer} : ldrCount (written bufs) = bufs.length := by
  induction bufs with
  | nil => exact ldrCount_of_none ldrNext_nil
  | cons buf bufs ih =>
      rw [written, List.flatMap_cons, ldrCount_of_some ldrNext_record, List.length_cons]
      exact congrArg (· + 1) ih

/-- `length_delimited_reader`: what `infile` holds and what is left of it to read. -/
structure Reader where
  infile : List UInt8
  unread : List UInt8

def ldrInit (file : List UInt8) : Reader where
  infile := file
  unread := file

namespace Reader

/-- `ldr_next`, with the reader after it -/
def next (ldr : Reader) : Option Buffer × Reader :=
  ((ldrNext ldr.unread).1, { ldr with unread := (ldrNext ldr.unread).2 })

theorem unread_next_lt {ldr ldr' : Reader} {buf : Buffer} (h : ldr.next = (some buf, ldr')) :
    ldr'.unread.length < ldr.unread.length := by
  cases h' : ldrNext ldr.unread with
  | mk read rest =>
      rw [next, h'] at h
      cases h
      exact ldrNext_length_lt h'

/-- `ldr_count`, with the reader after it -/
def count (ldr : Reader) : Nat × Reader :=
  match h : ldr.next with
  | (none, ldr') => (0, ldr')
  | (some _, ldr') => (ldr'.count.1 + 1, ldr'.count.2)
termination_by ldr.unread.length
decreasing_by all_goals exact unread_next_lt h

/-- `ldr_rewind` -/
def rewind (ldr : Reader) : Reader := { ldr with unread := ldr.infile }

/-- So many calls of `ldr_next`. -/
def nexts : Nat → Reader → List (Option Buffer) × Reader
  | 0, ldr => ([], ldr)
  | n + 1, ldr => (ldr.next.1 :: (nexts n ldr.next.2).1, (nexts n ldr.next.2).2)

inductive Call where
  | next
  | count
  | rewind

def call (ldr : Reader) : Call → Reader
  | .next => ldr.next.2
  | .count => ldr.count.2
  | .rewind => ldr.rewind

def calls (ldr : Reader) (order : List Call) : Reader := order.foldl call ldr

end Reader

section Format

theorem record_of_ldrNext {input rest : List UInt8} {buf : Buffer}
    (h : ldrNext input = (some buf, rest)) : input = record buf ++ rest := by
  rw [ldrNext] at h
  split at h
  · cases h
  · next enough =>
      have header : (input.take 8).length = 8 := by
        rw [List.length_take]
        omega
      have back : toBytes 8 (ofBytes (input.take 8)) = input.take 8 := toBytes_ofBytes header
      simp only at h
      split at h
      · next empty =>
          cases h
          rw [record, Buffer.length, List.length_nil, ← empty, back, List.append_nil,
            List.take_append_drop]
      · split at h
        · split at h
          · cases h
          · next whole =>
              cases h
              have body : ((input.drop 8).take (ofBytes (input.take 8))).length =
                  ofBytes (input.take 8) := by
                rw [List.length_take]
                omega
              rw [record, Buffer.length, body, back, List.append_assoc, List.take_append_drop,
                List.take_append_drop]
        · cases h

theorem record_ne_nil (buf : Buffer) : record buf ≠ [] := by
  intro empty
  have none_left := congrArg List.length empty
  rw [record, List.length_append, toBytes_length, List.length_nil] at none_left
  omega

/-- What `ldr_next` takes off its input, if it returns a buffer. -/
def nextRecord (input : List UInt8) : Option (Buffer × List UInt8) :=
  (ldrNext input).1.map fun buf => (buf, (ldrNext input).2)

theorem nextRecord_eq_some {input rest : List UInt8} {buf : Buffer} :
    nextRecord input = some (buf, rest) ↔ ldrNext input = (some buf, rest) := by
  cases h : ldrNext input with
  | mk read left =>
      rw [nextRecord, h]
      cases read with
      | none => simp
      | some buf' => simp

theorem nextRecord_eq_none {input : List UInt8} :
    nextRecord input = none ↔ (ldrNext input).1 = none := by
  rw [nextRecord, Option.map_eq_none_iff]

/-- The record codec as a stream of frames. -/
def records : Framing UInt8 Buffer where
  frame := record
  next := nextRecord
  next_frame _ _ := nextRecord_eq_some.mpr ldrNext_record
  of_next _ _ _ h := record_of_ldrNext (nextRecord_eq_some.mp h)
  frame_ne_nil := record_ne_nil

theorem records_frames {bufs : List Buffer} : records.frames bufs = written bufs := rfl

end Format

namespace Reader
variable {ldr : Reader} {bufs : List Buffer} {rest : List UInt8}

theorem infile_count : ldr.count.2.infile = ldr.infile := by
  induction hn : ldr.unread.length using Nat.strong_induction_on generalizing ldr with
  | _ n ih =>
      have same : ldr.next.2.infile = ldr.infile := rfl
      rw [count]
      split
      · next ldr' read =>
          rw [read] at same
          exact same
      · next buf ldr' read =>
          rw [read] at same
          exact (ih _ (hn ▸ unread_next_lt read) rfl).trans same

theorem infile_calls (order : List Call) : (ldr.calls order).infile = ldr.infile := by
  induction order generalizing ldr with
  | nil => rfl
  | cons c order ih =>
      refine ih.trans ?_
      cases c with
      | next => rfl
      | count => exact infile_count
      | rewind => rfl

theorem rewind_calls (order : List Call) : (ldr.calls order).rewind = ldr.rewind := by
  rw [rewind, rewind, infile_calls]

theorem count_fst : ldr.count.1 = (records.reads ldr.unread).length := by
  induction hn : ldr.unread.length using Nat.strong_induction_on generalizing ldr with
  | _ n ih =>
      rw [count]
      split
      · next ldr' read =>
          have stop : records.next ldr.unread = none := nextRecord_eq_none.mpr (congrArg Prod.fst read)
          rw [Framing.reads_of_none stop]
          rfl
      · next buf ldr' read =>
          have left : ldr'.unread = (ldrNext ldr.unread).2 :=
            (congrArg (fun result => result.2.unread) read).symm
          have more : records.next ldr.unread = some (buf, ldr'.unread) := by
            apply nextRecord_eq_some.mpr
            rw [left]
            have first : (ldrNext ldr.unread).1 = some buf := congrArg Prod.fst read
            exact Prod.ext first rfl
          rw [Framing.reads_of_some more, List.length_cons,
            ih _ (hn ▸ unread_next_lt read) rfl]

theorem nexts_written (n : Nat) : (nexts (bufs.length + n) { ldr with unread := written bufs ++ rest }).1 =
    bufs.map some ++ (nexts n { ldr with unread := rest }).1 := by
  induction bufs generalizing ldr with
  | nil => rw [List.length_nil, Nat.zero_add, written, List.flatMap_nil, List.nil_append]; rfl
  | cons buf bufs ih =>
      have first : ldrNext (written (buf :: bufs) ++ rest) = (some buf, written bufs ++ rest) := by
        rw [written, List.flatMap_cons, List.append_assoc]
        exact ldrNext_record
      have length : (buf :: bufs).length + n = bufs.length + n + 1 := by
        rw [List.length_cons]
        omega
      rw [length, nexts, next, first, ih]
      rfl

theorem nexts_end (n : Nat) : (nexts n { ldr with unread := [] }).1 = List.replicate n none := by
  induction n with
  | zero => rfl
  | succ n ih => exact congrArg (none :: ·) ih

end Reader

/-- What a reader at the start of its file returns from it: the records, and then
negative lengths for as often as it is asked. -/
def Reader.Returns (ldr : Reader) (bufs : List Buffer) : Prop :=
  (∀ more, (ldr.nexts (bufs.length + more)).1 = bufs.map some ++ List.replicate more none) ∧
    ldr.count.1 = bufs.length

theorem ldrInit_returns (bufs : List Buffer) : (ldrInit (written bufs)).Returns bufs := by
  have whole : ldrInit (written bufs) = { ldrInit (written bufs) with unread := written bufs ++ [] } := by
    rw [List.append_nil]
    rfl
  constructor
  · intro more
    rw [whole, Reader.nexts_written, Reader.nexts_end]
  · have read : records.reads (written bufs ++ []) = bufs := by
      rw [← records_frames, Framing.reads_frames_append, Framing.reads_of_none (by rfl), List.append_nil]
    rw [Reader.count_fst, whole, read]

/-- The records of any file: the longest list of them that the file starts with
is read before the first negative length, and counted. -/
def Reader.ReturnsLongest (ldr : Reader) (bufs : List Buffer) : Prop :=
  written bufs <+: ldr.infile ∧ (∀ more, written more <+: ldr.infile → more <+: bufs) ∧
    (ldr.nexts (bufs.length + 1)).1 = bufs.map some ++ [none] ∧ ldr.count.1 = bufs.length

theorem ldrInit_returnsLongest (file : List UInt8) :
    (ldrInit file).ReturnsLongest (records.reads file) := by
  obtain ⟨tail, split, last⟩ := Framing.frames_reads records file
  refine ⟨⟨tail, split.symm⟩, fun more => Framing.prefix_reads records, ?_,
    Reader.count_fst⟩
  have whole : ldrInit file =
      { ldrInit file with unread := written (records.reads file) ++ tail } := by
    rw [← records_frames, ← split]
    rfl
  have stop : (ldrNext tail).1 = none := nextRecord_eq_none.mp last
  rw [whole, Reader.nexts_written]
  refine congrArg (_ ++ ·) ?_
  simp only [Reader.nexts, Reader.next, stop]

/-- Records that were written are read back, and again after a rewind from
wherever the reader has got to. Of a file with any bytes the reader returns the
longest list of complete records. -/
theorem codec_round_trip :
    (∀ (bufs : List Buffer) (order : List Reader.Call),
      let opened := ldrInit (bufs.foldl ldwWrite [])
      opened.Returns bufs ∧ (opened.calls order).rewind.Returns bufs) ∧
    ∀ (file : List UInt8), ∃ bufs, (ldrInit file).ReturnsLongest bufs := by
  constructor
  · intro bufs order opened
    have file : bufs.foldl ldwWrite [] = written bufs := foldl_ldwWrite
    have start : opened.rewind = opened := rfl
    have returns : opened.Returns bufs := by
      simp only [opened, file]
      exact ldrInit_returns bufs
    refine ⟨returns, ?_⟩
    rw [Reader.rewind_calls, start]
    exact returns
  · intro file
    exact ⟨_, ldrInit_returnsLongest file⟩

end CS162.MapReduce
