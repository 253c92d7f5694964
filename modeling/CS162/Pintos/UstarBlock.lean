import CS162.Pintos.UstarHeader

/-!
`ustar_parse_header` on a block of 512 bytes, read byte by byte (proj-pregame: lib/ustar.c,
and memcmp, strcmp and strchr of lib/string.c). A pointer into the block is an offset, and
a byte outside the block cannot be read: then, and when a loop does not end, there is no
result. Numbers are the `unsigned long` and `int` of the machine.
-/

namespace CS162.Pintos.Ustar
open CS162.Library

def byteAt (h : Library.Memory) (ofs : Nat) : Option UInt8 :=
  if ofs < ustarHeaderSize then some (h ofs) else none

/-- `!memcmp (p, text, sizeof text)` -/
def memcmpAt (h : Library.Memory) (p : Nat) : List UInt8 → Option Bool
  | [] => some true
  | b :: text => do
      let a ← byteAt h p
      if a ≠ b then some false else memcmpAt h (p + 1) text

/-- `!strcmp (p, text)`, for a text that ends with its zero. -/
def strcmpAt (h : Library.Memory) (p : Nat) : List UInt8 → Option Bool
  | [] => none
  | b :: text => do
      let a ← byteAt h p
      if a ≠ 0 ∧ a = b then strcmpAt h (p + 1) text else some (a = b)

/-- The loop of `strchr`, with a limit on its rounds. -/
def strchrFrom (h : Library.Memory) (c : UInt8) : (rounds string : Nat) → Option (Option Nat)
  | 0, _ => none
  | rounds + 1, string => do
      let a ← byteAt h string
      if a = c then some (some string)
      else if a = 0 then some none
      else strchrFrom h c rounds (string + 1)

/-- `strchr` -/
def strchrAt (h : Library.Memory) (string : Nat) (c : UInt8) : Option (Option Nat) :=
  strchrFrom h c ustarHeaderSize string

/-- The loop of `calculate_chksum`, I bytes of the header being summed. -/
def chksumFrom (h : Library.Memory) : (left i : Nat) → UInt32 → Option UInt32
  | 0, _, sum => some sum
  | left + 1, i, sum =>
      if chksum.ofs ≤ i ∧ i < chksum.ofs + chksum.width then chksumFrom h left (i + 1) (sum + 32)
      else do
        let a ← byteAt h i
        chksumFrom h left (i + 1) (sum + a.toUInt32)

/-- `calculate_chksum` -/
def chksumOfBlock (h : Library.Memory) : Option UInt32 := chksumFrom h ustarHeaderSize 0 0

def antisocialAt (h : Library.Memory) (fileName : Nat) : Option Bool := do
  let a ← byteAt h fileName
  if a = slash then some true
  else if ← memcmpAt h fileName [dot, slash] then some true
  else memcmpAt h fileName [dot, dot, slash]

/-- The loop of `strip_antisocial_prefixes`, with a limit on its rounds. Where `strchr` finds
no slash, the next pointer is no pointer into the block. -/
def stripFrom (h : Library.Memory) : (rounds fileName : Nat) → Option Nat
  | 0, _ => none
  | rounds + 1, fileName => do
      if ← antisocialAt h fileName then
        let next ← ← strchrAt h fileName slash
        stripFrom h rounds (next + 1)
      else some fileName

inductive Pointer where
  | literal
  | header (ofs : Nat)
  deriving DecidableEq

/-- `strip_antisocial_prefixes`, for a name inside the header. -/
def stripAt (h : Library.Memory) (fileName : Nat) : Option Pointer := do
  let fileName ← stripFrom h ustarHeaderSize fileName
  let a ← byteAt h fileName
  if a = 0 then some .literal
  else if ← strcmpAt h fileName [dot, dot, 0] then some .literal
  else some (.header fileName)

def ulongMax : UInt32 := 0xffffffff

def intMax : UInt32 := 0x7fffffff

/-- The loop of `parse_octal_field`, OFS bytes of which are read. -/
def octalFrom (h : Library.Memory) (s : Nat) :
    (left ofs : Nat) → UInt32 → Option (Option UInt32)
  | 0, _, _ => some none
  | left + 1, ofs, value => do
      let c ← byteAt h (s + ofs)
      if 48 ≤ c ∧ c ≤ 55 then
        if value > ulongMax / 8 then some none
        else octalFrom h s left (ofs + 1) (c.toUInt32 - 48 + value * 8)
      else if c = 32 ∨ c = 0 then some (if ofs > 0 then some value else none)
      else some none

/-- `parse_octal_field` -/
def octalAt (h : Library.Memory) (f : Field) : Option (Option UInt32) :=
  octalFrom h f.ofs f.width 0 0

def allZerosFrom (h : Library.Memory) : (block cnt : Nat) → Option Bool
  | _, 0 => some true
  | block, cnt + 1 => do
      let a ← byteAt h block
      if a ≠ 0 then some false else allZerosFrom h (block + 1) cnt

/-- What `ustar_parse_header` stores through its pointers, as values of the machine. -/
structure BlockEntry where
  fileName : Option Pointer
  type : UstarType
  size : Int32
  deriving DecidableEq

def sizeAt (h : Library.Memory) (type : UstarType) : Option (Except String UInt32) :=
  if type = .regular then do
    match ← octalAt h size with
    | none => some (.error "corrupt file size field")
    | some bytes => some (if bytes > intMax then .error "file too large" else .ok bytes)
  else some (.ok 0)

def versionAt (h : Library.Memory) : Option Bool := do
  let a ← byteAt h version.ofs
  if a ≠ 48 then some false
  else
    let b ← byteAt h (version.ofs + 1)
    some (b = 48)

def nameEndsAt (h : Library.Memory) : Option Bool := do
  let a ← byteAt h (name.ofs + name.width - 1)
  if a ≠ 0 then some false
  else
    let b ← byteAt h prefixField.ofs
    some (b = 0)

/-- `ustar_parse_header`; no result is a read outside the block or a loop without end. -/
def ustarParseBlock (h : Library.Memory) : Option (Except String BlockEntry) := do
  if ← allZerosFrom h 0 ustarHeaderSize then some (.ok ⟨none, .eof, 0⟩)
  else if !(← memcmpAt h magic.ofs (ustar ++ [0])) then some (.error "not a ustar archive")
  else if !(← versionAt h) then some (.error "invalid ustar version")
  else
    match ← octalAt h chksum with
    | none => some (.error "corrupt chksum field")
    | some sum =>
        if sum ≠ (← chksumOfBlock h) then some (.error "checksum mismatch")
        else if !(← nameEndsAt h) then some (.error "file name too long")
        else
          match typeOf (← byteAt h typeflag.ofs) with
          | none => some (.error "unimplemented file type")
          | some type =>
              match ← sizeAt h type with
              | .error message => some (.error message)
              | .ok bytes => do
                  let fileName ← stripAt h name.ofs
                  some (.ok ⟨some fileName, type, bytes.toInt32⟩)

end CS162.Pintos.Ustar
