import CS162.Library.CString
import CS162.Library.Numeral
import CS162.MapReduce.TaskHandler

/-!
The grep application (hw-map-reduce: `find_occurrences` and `grep_map` of grep.c,
`sized_buffer_to_str` of lib.c). The contents are cut into lines in place: the newlines are
overwritten with zeros.

Allocations succeed; their bytes are those of the parameter `malloc`. An `int` that overflows
wraps, `g_list_length` returns an `unsigned int`, and `sprintf` returns a negative number for a
text that is longer than the largest `int`.
-/

namespace CS162.MapReduce
namespace Grep
open CS162.Library

def newline : UInt8 := 0x0a

section Text

def decimal (n : Int) : List UInt8 := if n < 0 then 0x2d :: numeral 10 1 n.natAbs else numeral 10 1 n.natAbs

/-- `"\t%d: %s"` -/
def lineText (lineNum : Int) (line : List UInt8) : List UInt8 :=
  [0x09] ++ decimal lineNum ++ [0x3a, 0x20] ++ line

end Text

section Map
variable (malloc : ∀ n, Vector UInt8 n)

def sizedBufferToStr (buf : Buffer) : Except OutOfBounds CArray := do
  let str ← CArray.fill (malloc (buf.length + 1)).toList buf.bytes
  CArray.store str buf.length 0

/-- `struct occurrence`, with the index at which the line begins -/
structure Occurrence where
  lineNum : Int32
  line : Nat

/-- The loop of `find_occurrences`, with the contents after it. -/
def findOccurrencesLoop (search contents : CArray) (rest : Nat) (lineNum : Int32) (occurrences : List Occurrence) :
    Except OutOfBounds (CArray × List Occurrence) :=
  match _found : CArray.strstr contents rest [newline, 0] with
  | .error fault => .error fault
  | .ok none => .ok (contents, occurrences)
  | .ok (some stop) =>
      match cut : CArray.store contents stop 0 with
      | .error fault => .error fault
      | .ok contents => do
          let occurs ← CArray.strstr contents rest search
          let occurrences := if occurs.isSome then occurrences ++ [⟨lineNum, rest⟩] else occurrences
          findOccurrencesLoop search contents (stop + 1) (lineNum + 1) occurrences
termination_by contents.length - rest
decreasing_by
  have behind := CArray.le_of_strstr _found
  have inside := CArray.lt_of_store cut
  omega

def findOccurrences (contents search : CArray) : Except OutOfBounds (CArray × List Occurrence) :=
  findOccurrencesLoop search contents 0 1 []

/-- A pair of the result. Its value is `none` where the length is negative. -/
structure GrepPair where
  key : Buffer
  value : Option Buffer
  deriving DecidableEq

def sizedBufferDup (buf : Buffer) : Buffer := buf

theorem fits_of_le_intMax {n : Nat} (short : n ≤ intMax) : n < 2 ^ 63 := by
  rw [intMax] at short
  omega

/-- A buffer of 50 bytes and the line's, with what `sprintf` writes and returns. -/
def printLine (lineNum : Int32) (line : List UInt8) : Except OutOfBounds (Option Buffer) := do
  let text := lineText lineNum.toInt line
  let buffer ← CArray.strcpy (malloc (50 + line.length)).toList text
  if short : text.length ≤ intMax then
    return some ⟨buffer.take text.length, Nat.lt_of_le_of_lt (List.length_take_le ..) (fits_of_le_intMax short)⟩
  else return none

def storeAt (kva : List (Option GrepPair)) (index : Int32) (pair : GrepPair) :
    Except OutOfBounds (List (Option GrepPair)) :=
  if 0 ≤ index.toInt then storeSlot kva index.toInt.toNat pair else .error .write

def fillPairs (key : Buffer) (contents : CArray) : List Occurrence → Int32 → List (Option GrepPair) →
    Except OutOfBounds (List (Option GrepPair))
  | [], _, kva => .ok kva
  | occ :: elems, index, kva => do
      let line ← CArray.string (contents.drop occ.line)
      let value ← printLine malloc occ.lineNum line
      let kva ← storeAt kva index ⟨sizedBufferDup key, value⟩
      fillPairs key contents elems (index + 1) kva

/-- `grep_map`: the elements of its array. -/
def grepMap (input : KeyValue) (aux : Buffer) : Except OutOfBounds (List (Option GrepPair)) := do
  let contents ← sizedBufferToStr malloc input.value
  let search ← sizedBufferToStr malloc aux
  let (contents, occurrences) ← findOccurrences contents search
  let n := occurrences.length % 2 ^ 32
  fillPairs malloc input.key contents occurrences 0 (List.replicate n none)

end Map

section Specification

/-- The lines of a file in order, each with its number, that have the string in them. -/
def matching (content search : List UInt8) : List (List UInt8 × Nat) :=
  ((content.splitOn newline).zipIdx 1).filter fun p => search <:+: p.1

/-- There is one pair for each such line, with the file's name and the line's number and text. -/
def FindsAll (malloc : ∀ n, Vector UInt8 n) (input : KeyValue) (aux : Buffer) : Prop :=
  ∃ pairs : List GrepPair, grepMap malloc input aux = .ok (pairs.map some) ∧
    pairs.map (fun pair => (pair.key, pair.value.map (·.bytes))) =
      (matching input.value.bytes aux.bytes).map fun p => (input.key, some (lineText p.2 p.1))

/-- What follows the last newline does not have the string in it, and an `int` counts the lines
that do and what is printed of each. -/
structure Searchable (content search : List UInt8) : Prop where
  last : ∀ piece ∈ (content.splitOn newline).getLast?, ¬ search <:+: piece
  numbers : ∀ p ∈ matching content search, (p.2 : Int) ≤ intMax
  texts : ∀ p ∈ matching content search, (lineText p.2 p.1).length ≤ intMax

end Specification
end Grep
end CS162.MapReduce
