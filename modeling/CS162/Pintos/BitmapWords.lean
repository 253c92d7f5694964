import Mathlib.Algebra.Ring.Nat
import Mathlib.Data.List.Basic
import CS162.Pintos.Bitmap

/-!
Bitmaps as they are stored (proj-pregame: lib/kernel/bitmap.c): words of 32 bits, the
lowest bit first. `none` is a failing `ASSERT` or an access outside of the words. The
operations on a bitmap are those on the list of its bits, which is how the other modules
use it.
-/

namespace CS162.Pintos.BitmapWords

/-- `elem_type` -/
abbrev Elem := BitVec 32

def elemBits : Nat := 32

def elemIdx (bitIdx : Nat) : Nat := bitIdx / elemBits

def bitMask (bitIdx : Nat) : Elem := (1 : Elem) <<< (bitIdx % elemBits)

/-- An addition of `size_t`s. -/
def sizeAdd (a b : Nat) : Nat := (a + b) % 2 ^ 32

def elemCnt (bitCnt : Nat) : Nat := sizeAdd bitCnt (elemBits - 1) / elemBits

def byteCnt (bitCnt : Nat) : Nat := 4 * elemCnt bitCnt

/-- `SIZE_MAX` -/
def bitmapError : Nat := 2 ^ 32 - 1

/-- `struct bitmap`, with room for its bits. -/
structure Words where
  bitCnt : Nat
  fits : bitCnt < 2 ^ 32
  bits : List Elem
  room : bitCnt ≤ elemBits * bits.length

namespace Words
variable (b : Words)

def update (idx : Nat) (f : Elem → Elem) : Option Words :=
  match b.bits[idx]? with
  | none => none
  | some elem => some { b with
      bits := b.bits.set idx (f elem)
      room := by rw [List.length_set]; exact b.room }

def mark (bitIdx : Nat) : Option Words := b.update (elemIdx bitIdx) (· ||| bitMask bitIdx)

def reset (bitIdx : Nat) : Option Words := b.update (elemIdx bitIdx) (· &&& ~~~ bitMask bitIdx)

def flip (bitIdx : Nat) : Option Words := b.update (elemIdx bitIdx) (· ^^^ bitMask bitIdx)

def set (idx : Nat) (value : Bool) : Option Words :=
  if idx < b.bitCnt then if value then b.mark idx else b.reset idx else none

def test (idx : Nat) : Option Bool :=
  if idx < b.bitCnt then (b.bits[elemIdx idx]?).map fun elem => elem &&& bitMask idx != 0 else none

/-- The loop of `bitmap_set_multiple`. -/
def setLoop (value : Bool) : (left i : Nat) → Words → Option Words
  | 0, _, b => some b
  | left + 1, i, b => (b.set i value).bind (setLoop value left (i + 1))

def HasRange (start cnt : Nat) : Prop := start ≤ b.bitCnt ∧ sizeAdd start cnt ≤ b.bitCnt

instance (start cnt : Nat) : Decidable (b.HasRange start cnt) := inferInstanceAs (Decidable (_ ∧ _))

def setMultiple (start cnt : Nat) (value : Bool) : Option Words :=
  if b.HasRange start cnt then setLoop value cnt start b else none

/-- The loop of `bitmap_count`. -/
def countLoop (value : Bool) : (left i valueCnt : Nat) → Option Nat
  | 0, _, valueCnt => some valueCnt
  | left + 1, i, valueCnt => (b.test i).bind fun bit =>
      countLoop value left (i + 1) (if bit = value then valueCnt + 1 else valueCnt)

def count (start cnt : Nat) (value : Bool) : Option Nat :=
  if b.HasRange start cnt then b.countLoop value cnt start 0 else none

/-- The loop of `bitmap_contains`. -/
def containsLoop (value : Bool) : (left i : Nat) → Option Bool
  | 0, _ => some false
  | left + 1, i => (b.test i).bind fun bit =>
      if bit = value then some true else containsLoop value left (i + 1)

def contains (start cnt : Nat) (value : Bool) : Option Bool :=
  if b.HasRange start cnt then b.containsLoop value cnt start else none

def any (start cnt : Nat) : Option Bool := b.contains start cnt true

def none (start cnt : Nat) : Option Bool := (b.contains start cnt true).map not

def all (start cnt : Nat) : Option Bool := (b.contains start cnt false).map not

/-- The loop of `bitmap_scan`. -/
def scanLoop (cnt : Nat) (value : Bool) : (left i : Nat) → Option Nat
  | 0, _ => some bitmapError
  | left + 1, i => (b.contains i cnt (!value)).bind fun other =>
      if !other then some i else scanLoop cnt value left (i + 1)

def scan (start cnt : Nat) (value : Bool) : Option Nat :=
  if start ≤ b.bitCnt then
    if cnt ≤ b.bitCnt then b.scanLoop cnt value (b.bitCnt - cnt + 1 - start) start
    else some bitmapError
  else .none

def scanAndFlip (start cnt : Nat) (value : Bool) : Option (Nat × Words) :=
  (b.scan start cnt value).bind fun idx =>
    if idx ≠ bitmapError then (b.setMultiple idx cnt (!value)).map fun b => (idx, b)
    else some (idx, b)

end Words

/-- The words for so many bits, as they come from memory. For the last few counts of bits the
number of words wraps to zero, for which `malloc` gives no memory. -/
def storage (bitCnt : Nat) (words : Nat → Elem) (small : bitCnt + (elemBits - 1) < 2 ^ 32) : Words where
  bitCnt := bitCnt
  fits := by omega
  bits := (List.range (elemCnt bitCnt)).map words
  room := by
    simp only [List.length_map, List.length_range, elemCnt, sizeAdd, elemBits] at *
    omega

/-- `bitmap_create`, once it has memory: `bitmap_set_all` to false. -/
def bitmapCreate (bitCnt : Nat) (words : Nat → Elem) (small : bitCnt + (elemBits - 1) < 2 ^ 32) :
    Option Words := (storage bitCnt words small).setMultiple 0 bitCnt false

inductive Op where
  | set (idx : Nat) (value : Bool)
  | mark (idx : Nat)
  | reset (idx : Nat)
  | flip (idx : Nat)
  | setMultiple (start cnt : Nat) (value : Bool)

namespace Op

/-- It is a change of bits inside. -/
def Within (bitCnt : Nat) : Op → Prop
  | .set idx _ | .mark idx | .reset idx | .flip idx => idx < bitCnt
  | .setMultiple start cnt _ => start + cnt ≤ bitCnt

def run (b : Words) : Op → Option Words
  | .set idx value => b.set idx value
  | .mark idx => b.mark idx
  | .reset idx => b.reset idx
  | .flip idx => b.flip idx
  | .setMultiple start cnt value => b.setMultiple start cnt value

end Op

def runs : List Op → Words → Option Words
  | [], b => some b
  | op :: ops, b => (op.run b).bind (runs ops)

end CS162.Pintos.BitmapWords
