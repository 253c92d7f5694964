import CS162.Library.CString
import CS162.Library.MachineInt

/-!
Conversions of `__vprintf` (proj-pregame, lib/stdio.c) and how `parse_conversion` reads them
from a format string and its arguments. A pointer into the format is what is left of it with its
terminating zero; nothing is left behind that. The machine is the 32-bit one of Pintos.
-/

namespace CS162.Pintos.Stdio
open CS162.Library

inductive Kind where
  /-- `int`, `unsigned`, `long`, `size_t` or `ptrdiff_t` -/
  | word
  /-- `long long` or `intmax_t`, with or without a sign -/
  | wide
  | double
  | string
  | pointer
  deriving DecidableEq

/-- A `double`, as far as the code looks at it. -/
structure Double where
  /-- `(int)d` -/
  whole : Int32
  /-- `d < 0` -/
  negative : Bool
  /-- `(int)((d - (int)d) * n)` -/
  rest : Int32 → Int32

abbrev Kind.Value : Kind → Type
  | .word => UInt32
  | .wide => UInt64
  | .double => Double
  /- the bytes before the terminating zero, or a null pointer -/
  | .string => Option (List UInt8)
  | .pointer => UInt32

abbrev Arg := (kind : Kind) × kind.Value

inductive Stop where
  | outOfBounds (fault : OutOfBounds)
  /-- `va_arg` of another type than the next argument's, or behind the last one -/
  | argument
  /-- not at its end when the fuel is used up -/
  | running

def inBounds {α : Type} (x : Except OutOfBounds α) : Except Stop α := x.mapError .outOfBounds

structure Flags where
  minus : Bool
  plus : Bool
  space : Bool
  pound : Bool
  zero : Bool
  group : Bool
  deriving DecidableEq

inductive IntType where
  | char
  | short
  | int
  | intmax
  | long
  | longlong
  | ptrdifft
  | sizet
  deriving DecidableEq

structure PrintfConversion where
  flags : Flags
  /-- minimum field width -/
  width : Int
  /-- -1 if none was specified -/
  precision : Int
  type : IntType
  deriving DecidableEq

abbrev Pointer := List UInt8

/-- `*format`. -/
def deref (format : Pointer) : Except Stop UInt8 := inBounds (CArray.load format 0)

def vaArg (kind : Kind) : List Arg → Except Stop (kind.Value × List Arg)
  | [] => .error .argument
  | ⟨kind', x⟩ :: args => if same : kind' = kind then .ok (same ▸ x, args) else .error .argument

/-- `va_arg (args, int)`. -/
def argInt (args : List Arg) : Except Stop (Int × List Arg) := do
  let (x, args) ← vaArg .word args
  return (toInt32 x.toNat, args)

def flagOf (flags : Flags) (c : UInt8) : Option Flags :=
  if c = 0x2d then some { flags with minus := true }
  else if c = 0x2b then some { flags with plus := true }
  else if c = 0x20 then some { flags with space := true }
  else if c = 0x23 then some { flags with pound := true }
  else if c = 0x30 then some { flags with zero := true }
  else if c = 0x27 then some { flags with group := true }
  else none

/-- The loop over the flag characters. -/
def parseFlags : Flags → Pointer → Except Stop (Flags × Pointer)
  | _, [] => .error (.outOfBounds .read)
  | flags, c :: format =>
      match flagOf flags c with
      | some flags => parseFlags flags format
      | none => .ok (flags, c :: format)

def isDigit (c : UInt8) : Bool := 0x30 ≤ c ∧ c ≤ 0x39

/-- The loops over the digits of a width or a precision. -/
def parseDigits : Int → Pointer → Except Stop (Int × Pointer)
  | _, [] => .error (.outOfBounds .read)
  | n, c :: format =>
      if isDigit c then parseDigits (toInt32 (n * 10 + c.toNat - 0x30)) format else .ok (n, c :: format)

def parseNumber (format : Pointer) (args : List Arg) : Except Stop (Int × Pointer × List Arg) := do
  let c ← deref format
  if c = 0x2a then
    let (n, args) ← argInt args
    return (n, format.tail, args)
  else
    let (n, format) ← parseDigits 0 format
    return (n, format, args)

def parsePrecision (format : Pointer) (args : List Arg) : Except Stop (Int × Pointer × List Arg) := do
  let c ← deref format
  if c = 0x2e then
    let (precision, format, args) ← parseNumber format.tail args
    return (if precision < 0 then -1 else precision, format, args)
  else return (-1, format, args)

def parseType (format : Pointer) : Except Stop (IntType × Pointer) := do
  let c ← deref format
  if c = 0x68 then
    let c ← deref format.tail
    return if c = 0x68 then (.char, format.tail.tail) else (.short, format.tail)
  else if c = 0x6a then return (.intmax, format.tail)
  else if c = 0x6c then
    let c ← deref format.tail
    return if c = 0x6c then (.longlong, format.tail.tail) else (.long, format.tail)
  else if c = 0x74 then return (.ptrdifft, format.tail)
  else if c = 0x7a then return (.sizet, format.tail)
  else return (.int, format)

def parseConversion (format : Pointer) (args : List Arg) :
    Except Stop (PrintfConversion × Pointer × List Arg) := do
  let (flags, format) ← parseFlags ⟨false, false, false, false, false, false⟩ format
  let flags := if flags.minus then { flags with zero := false } else flags
  let flags := if flags.plus then { flags with space := false } else flags
  let (width, format, args) ← parseNumber format args
  let flags := if width < 0 then { flags with minus := true } else flags
  let width := if width < 0 then toInt32 (-width) else width
  let (precision, format, args) ← parsePrecision format args
  let flags := if 0 ≤ precision then { flags with zero := false } else flags
  let (type, format) ← parseType format
  return (⟨flags, width, precision, type⟩, format, args)

end CS162.Pintos.Stdio
