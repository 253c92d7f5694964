import Mathlib.Data.Nat.Digits.Lemmas
import CS162.Pintos.Conversion

/-!
`format_integer` (proj-pregame, lib/stdio.c): the digits of a number in a buffer of 64 bytes, the
last one first, with commas and the zeros of a precision, and what is put out with a sign, a
prefix and padding. A write behind the buffer is a fault. What it ought to put out is stated
apart from how it does.
-/

namespace CS162.Pintos.Stdio
open CS162.Library

/-- A base with its digits, and what the code relies on. -/
structure IntegerBase where
  base : Nat
  digits : List UInt8
  /-- the `x` character, for base 16 only, or 0 -/
  x : UInt8
  /-- number of digits to group -/
  group : Nat
  large : 8 ≤ base
  size : digits.length = base
  nodup : digits.Nodup
  zero : digits.head? = some 0x30
  no_comma : 0x2c ∉ digits
  no_space : 0x20 ∉ digits
  hex : x ≠ 0 ↔ base = 16
  grouped : 0 < group

/-- "0123456789abcdef" -/
def lowerDigits : List UInt8 :=
  [0x30, 0x31, 0x32, 0x33, 0x34, 0x35, 0x36, 0x37, 0x38, 0x39, 0x61, 0x62, 0x63, 0x64, 0x65, 0x66]

/-- "0123456789ABCDEF" -/
def upperDigits : List UInt8 :=
  [0x30, 0x31, 0x32, 0x33, 0x34, 0x35, 0x36, 0x37, 0x38, 0x39, 0x41, 0x42, 0x43, 0x44, 0x45, 0x46]

def baseD : IntegerBase :=
  ⟨10, lowerDigits.take 10, 0, 3, by decide, rfl, by decide, rfl, by decide, by decide, by decide, by decide⟩

def baseO : IntegerBase :=
  ⟨8, lowerDigits.take 8, 0, 3, by decide, rfl, by decide, rfl, by decide, by decide, by decide, by decide⟩

def baseX : IntegerBase :=
  ⟨16, lowerDigits, 0x78, 4, by decide, rfl, by decide, rfl, by decide, by decide, by decide, by decide⟩

def baseUpperX : IntegerBase :=
  ⟨16, upperDigits, 0x58, 4, by decide, rfl, by decide, rfl, by decide, by decide, by decide, by decide⟩

/-- `','` -/
def comma : UInt8 := 0x2c

section Model

/-- sizeof buf -/
def bufSize : Nat := 64

/-- `*cp++ = c`, where the buffer holds what has been written so far. -/
def putChar (buf : List UInt8) (c : UInt8) : Except OutOfBounds (List UInt8) :=
  if buf.length < bufSize then .ok (buf ++ [c]) else .error .write

def putComma (b : IntegerBase) (group : Bool) (digitCnt : Nat) (buf : List UInt8) : Except OutOfBounds (List UInt8) :=
  if group ∧ 0 < digitCnt ∧ digitCnt % b.group = 0 then putChar buf comma else .ok buf

/-- The loop over the digits of the value, which is 0 after as many passes as it has bits. -/
def putDigits (b : IntegerBase) (group : Bool) : Nat → Nat → Nat → List UInt8 → Except OutOfBounds (List UInt8)
  | 0, _, _, buf => .ok buf
  | bits + 1, value, digitCnt, buf =>
      if 0 < value then do
        let buf ← putComma b group digitCnt buf
        let buf ← putChar buf (b.digits.getD (value % b.base) 0)
        putDigits b group bits (value / b.base) (digitCnt + 1) buf
      else .ok buf

/-- The loop that appends zeros to match the precision, with room for so many. -/
def putZeros (precision : Int) : Nat → List UInt8 → Except OutOfBounds (List UInt8)
  | 0, buf => .ok buf
  | room + 1, buf =>
      if buf.length < precision then do
        let buf ← putChar buf 0x30
        putZeros precision room buf
      else .ok buf

def putNumber (value : UInt64) (b : IntegerBase) (c : PrintfConversion) : Except OutOfBounds (List UInt8) := do
  let buf ← putDigits b c.flags.group 64 value.toNat 0 []
  let precision := if c.precision < 0 then 1 else c.precision
  let buf ← putZeros precision (bufSize - 1 - buf.length) buf
  if c.flags.pound ∧ b.base = 8 ∧ buf.getLast? ≠ some 0x30 then putChar buf 0x30 else .ok buf

def signOf (isSigned negative : Bool) (flags : Flags) : UInt8 :=
  if isSigned then
    if flags.plus then if negative then 0x2d else 0x2b
    else if flags.space then if negative then 0x2d else 0x20
    else if negative then 0x2d
    else 0
  else 0

def optional (c : UInt8) : List UInt8 := if c ≠ 0 then [c] else []

def outputDup (ch : UInt8) (cnt : Int) : List UInt8 := List.replicate cnt.toNat ch

/-- `format_integer`, with all that it puts out. -/
def formatInteger (value : UInt64) (isSigned negative : Bool) (b : IntegerBase) (c : PrintfConversion) :
    Except OutOfBounds (List UInt8) := do
  let sign := signOf isSigned negative c.flags
  let x := if c.flags.pound ∧ value ≠ 0 then b.x else 0
  let buf ← putNumber value b c
  let padCnt := toInt32 (c.width - buf.length - (if x ≠ 0 then 2 else 0) - (if sign ≠ 0 then 1 else 0))
  let padCnt := if padCnt < 0 then 0 else padCnt
  return (if ¬ c.flags.minus ∧ ¬ c.flags.zero then outputDup 0x20 padCnt else []) ++
    optional sign ++
    (if x ≠ 0 then [0x30, x] else []) ++
    (if c.flags.zero then outputDup 0x30 padCnt else []) ++
    buf.reverse ++
    (if c.flags.minus then outputDup 0x20 padCnt else [])

end Model

section Specification

def valueIn (b : IntegerBase) (digits : List UInt8) : Nat :=
  digits.foldl (fun value c => value * b.base + b.digits.idxOf c) 0

def ungroup (digits : List UInt8) : List UInt8 := digits.filter (· ≠ comma)

/-- The `0x` before a number in base 16 other than zero, with the flag `#`. -/
def prefixOf (value : UInt64) (b : IntegerBase) (flags : Flags) : List UInt8 :=
  if flags.pound ∧ value ≠ 0 ∧ b.base = 16 then [0x30, b.x] else []

/-- The digits of a value as they ought to be: zeros, then the value's own digits, in groups
counted from the last one if they are grouped. -/
structure Digits (value : UInt64) (b : IntegerBase) (c : PrintfConversion) (digits : List UInt8) : Prop where
  chars : ∀ d ∈ ungroup digits, d ∈ b.digits
  reads : valueIn b (ungroup digits) = value.toNat
  empty : digits = [] → value = 0 ∧ c.precision = 0 ∧ ¬ (c.flags.pound ∧ b.base = 8)
  enough : min c.precision 63 ≤ digits.length
  groups : ∃ zeros own, digits = List.replicate zeros 0x30 ++ own ∧
    (ungroup own).length = (Nat.digits b.base value.toNat).length ∧
    ∀ i d, own.reverse[i]? = some d → (d = comma ↔ c.flags.group ∧ (i + 1) % (b.group + 1) = 0)

/-- What `format_integer` ought to put out: to the left of its padding, to the right of it, or
with zeros between its sign and its digits. -/
def Formats (value : UInt64) (isSigned negative : Bool) (b : IntegerBase) (c : PrintfConversion)
    (out : List UInt8) : Prop :=
  ∃ digits, Digits value b c digits ∧
    let front := optional (signOf isSigned negative c.flags) ++ prefixOf value b c.flags
    let pad := c.width.toNat - (front ++ digits).length
    out.length = max c.width.toNat (front ++ digits).length ∧
    out =
      if c.flags.minus then front ++ digits ++ List.replicate pad 0x20
      else if c.flags.zero then front ++ List.replicate pad 0x30 ++ digits
      else List.replicate pad 0x20 ++ front ++ digits

/-- How many digits, commas and zeros there are: as the precision asks for, and one more zero
for base 8 where `#` has to put it. -/
def numberLength (value : UInt64) (b : IntegerBase) (c : PrintfConversion) : Nat :=
  let own := (Nat.digits b.base value.toNat).length
  let own := if c.flags.group then own + (own - 1) / b.group else own
  let precision := min (if c.precision < 0 then 1 else c.precision.toNat) 63
  max own precision + if c.flags.pound ∧ b.base = 8 ∧ precision ≤ own then 1 else 0

def bodyLength (value : UInt64) (isSigned negative : Bool) (b : IntegerBase) (c : PrintfConversion) : Nat :=
  (optional (signOf isSigned negative c.flags) ++ prefixOf value b c.flags).length + numberLength value b c

end Specification
end CS162.Pintos.Stdio
