import CS162.MapReduce.VertexDegree
import CS162.WordCount.FileWords

/-!
The word-count application (hw-map-reduce: `num_words` and `wc_map` of wc.c). One scanner
counts the words for the size of the array, the other fills the array.

A `char` is signed, and an `int` that overflows wraps. Allocations succeed; their bytes are
those of the parameter `malloc`.
-/

namespace CS162.MapReduce
open CS162.Library
open CS162.WordCount.FileWords (toChar isAlpha toLower)

section NumWords

def loadAt (buffer : CArray) (i : Int32) : Except OutOfBounds UInt8 :=
  if 0 ≤ i.toInt then CArray.load buffer i.toInt.toNat else .error .read

theorem loadAt_of_neg {buffer : CArray} {i : Int32} (h : i.toInt < 0) : loadAt buffer i = .error .read :=
  if_neg (Int.not_le.mpr h)

/-- The loop of `num_words`, and what follows it. -/
def numWordsLoop (buf : Buffer) (i counter numWords : Int32) : Except OutOfBounds Int32 :=
  if i.toInt < buf.length then
    match loaded : loadAt buf.bytes i with
    | .error fault => .error fault
    | .ok c =>
        if isAlpha (toChar c) then numWordsLoop buf (i + 1) (counter + 1) numWords
        else numWordsLoop buf (i + 1) 0 (if counter > 1 then numWords + 1 else numWords)
  else .ok (if counter > 1 then numWords + 1 else numWords)
termination_by if i.toInt < 0 then 0 else (buf.length - i.toInt).toNat + 1
decreasing_by
  all_goals
    have nonneg : ¬ i.toInt < 0 := fun neg => by rw [loadAt_of_neg neg] at loaded; cases loaded
    have upper := i.toInt_lt
    rw [if_neg nonneg]
    rcases eq_or_ne i.toInt intMax with last | more
    · rw [intMax_add_one last]
      exact Nat.succ_pos _
    · have less : i.toInt < intMax := by
        rw [intMax] at more ⊢
        omega
      rw [toInt_add_one less]
      split <;> omega

def numWords (buf : Buffer) : Except OutOfBounds Int32 := numWordsLoop buf 0 0 0

end NumWords

section WcMap
variable (malloc : ∀ n, Vector UInt8 n)

/-- The loop that copies a word in lower case. -/
def copyWord (input word : CArray) (initial p1 p2 : Nat) : Except OutOfBounds CArray :=
  if p1 < p2 then do
    let c ← CArray.load input p1
    let word ← CArray.store word (p1 - initial) (UInt8.ofInt (toLower (toChar c)))
    copyWord input word initial (p1 + 1) p2
  else .ok word
termination_by p2 - p1

/-- An array as a `sized_buffer`; none is too long for that. -/
def sizedBuffer (bytes : CArray) : Except OutOfBounds Buffer :=
  if fits : bytes.length < 2 ^ 63 then .ok ⟨bytes, fits⟩ else .error .read

def runEnds (input : Buffer) (p2 : Nat) : Except OutOfBounds Bool :=
  if p2 ≥ input.length then .ok true
  else (CArray.load input.bytes p2).map fun c => !isAlpha (toChar c)

/-- The number of pairs and the array, after a run of letters. -/
def endRun (input : Buffer) (p1 p2 counter : Nat) (kva : List (Option KeyValue)) :
    Except OutOfBounds (Nat × List (Option KeyValue)) :=
  if p2 > p1 + 1 then do
    let word ← copyWord input.bytes (malloc (p2 - p1)).toList p1 p1 p2
    let key ← sizedBuffer word
    let kva ← storeSlot kva counter ⟨key, intBuffer 1⟩
    return (counter + 1, kva)
  else .ok (counter, kva)

theorem lt_of_runEnds {input : Buffer} {p2 : Nat} (h : runEnds input p2 = .ok false) : p2 < input.length := by
  refine Nat.lt_of_not_le fun behind => ?_
  rw [runEnds, if_pos behind] at h
  cases h

def wcMapLoop (input : Buffer) (p1 p2 counter : Nat) (kva : List (Option KeyValue)) :
    Except OutOfBounds (List (Option KeyValue)) :=
  if p1 < input.length then
    match ended : runEnds input p2 with
    | .error fault => .error fault
    | .ok true => do
        let (counter, kva) ← endRun malloc input p1 p2 counter kva
        wcMapLoop input (p2 + 1) (p2 + 1) counter kva
    | .ok false => wcMapLoop input p1 (p2 + 1) counter kva
  else .ok kva
termination_by input.length + 1 - p2 + if p1 < input.length then 1 else 0
decreasing_by
  · rw [if_pos ‹p1 < input.length›]
    split <;> omega
  · have inside := lt_of_runEnds ended
    omega

/-- `wc_map`: the elements of its array. -/
def wcMap (input : KeyValue) (_aux : Buffer) : Except OutOfBounds (List (Option KeyValue)) := do
  let n ← numWords input.value
  wcMapLoop malloc input.value 0 0 0 (List.replicate n.toInt.toNat none)

end WcMap
end CS162.MapReduce
