import CS162.Library.Numeral
import CS162.Library.ByteMemory

/-!
Archive headers in ustar format (proj-pregame: lib/ustar.c). A header is the memory of
`struct ustar_header`, 512 bytes of it, and a C string is the list of its bytes before
the zero. Sizes that are not negative are numbers, what `snprintf` writes is a numeral
(`Stdio.vsnprintf_octal`), and the message that `ustar_make_header` prints is left out.
-/

namespace CS162.Pintos.Ustar
open CS162.Library

def ustarHeaderSize : Nat := 512

inductive UstarType where
  | regular
  | directory
  | eof
  deriving DecidableEq

/-- The byte of a type in the file format; the end of an archive has none. -/
def UstarType.byte : UstarType → UInt8
  | .regular => 48
  | .directory => 53
  | .eof => 255

section Fields
/-! The fields of `struct ustar_header`. -/

def name : Field := ⟨0, 100⟩
def mode : Field := ⟨100, 8⟩
def uid : Field := ⟨108, 8⟩
def gid : Field := ⟨116, 8⟩
def size : Field := ⟨124, 12⟩
def mtime : Field := ⟨136, 12⟩
def chksum : Field := ⟨148, 8⟩
def typeflag : Field := ⟨156, 1⟩
def magic : Field := ⟨257, 6⟩
def version : Field := ⟨263, 2⟩
def uname : Field := ⟨265, 32⟩
def gname : Field := ⟨297, 32⟩
def prefixField : Field := ⟨345, 155⟩

end Fields

def slash : UInt8 := 47
def dot : UInt8 := 46

/-- "ustar" -/
def ustar : List UInt8 := [117, 115, 116, 97, 114]

/-- "root" -/
def root : List UInt8 := [114, 111, 111, 116]

/-- What a byte of a header adds to the checksum. -/
def chksumByte (header : Library.Memory) (i : Nat) : Nat :=
  if chksum.ofs ≤ i ∧ i < chksum.ofs + chksum.width then 32 else (header i).toNat

def calculateChksum (header : Library.Memory) : Nat :=
  ((List.range ustarHeaderSize).map (chksumByte header)).sum

/-- The condition of the loop of `strip_antisocial_prefixes`. -/
def antisocial (fileName : List UInt8) : Bool :=
  [slash].isPrefixOf fileName || [dot, slash].isPrefixOf fileName ||
    [dot, dot, slash].isPrefixOf fileName

/-- The loop, which takes at most a round for each byte. -/
def dropPrefixes : Nat → List UInt8 → List UInt8
  | 0, fileName => fileName
  | rounds + 1, fileName =>
      if antisocial fileName then
        -- `strchr (file_name, '/') + 1`
        dropPrefixes rounds (fileName.dropWhile (· ≠ slash)).tail
      else fileName

def stripAntisocialPrefixes (fileName : List UInt8) : List UInt8 :=
  let stripped := dropPrefixes fileName.length fileName
  if stripped = [] ∨ stripped = [dot, dot] then [dot] else stripped

/-- `ustar_make_header`; `none` is a name that is too long. -/
def ustarMakeHeader (fileName : List UInt8) (type : UstarType) (bytes : Nat)
    (header : Library.Memory) : Option Library.Memory :=
  let fileName := stripAntisocialPrefixes fileName
  if fileName.length > 99 then none
  else
    let h := header.fill 0 ustarHeaderSize 0
    let h := h.putString name fileName
    let h := h.putString mode (numeral 8 7 (if type = .regular then 0o644 else 0o755))
    let h := h.putString uid (List.replicate 7 48)
    let h := h.putString gid (List.replicate 7 48)
    let h := h.putString size (numeral 8 11 bytes)
    let h := h.putString mtime (numeral 8 11 1136102400)
    let h := h.put typeflag [type.byte]
    let h := h.putString magic ustar
    let h := h.put version [48, 48]
    let h := h.putString gname root
    let h := h.putString uname root
    some (h.putString chksum (numeral 8 7 (calculateChksum h)))

/-- The loop of `parse_octal_field` over the rest of a field, `ofs` bytes of which are
read. -/
def parseOctalFrom (ofs value : Nat) : List UInt8 → Option Nat
  | [] => none
  | c :: s =>
      if 48 ≤ c ∧ c ≤ 55 then
        if value > (2 ^ 32 - 1) / 8 then none
        else parseOctalFrom (ofs + 1) (c.toNat - 48 + value * 8) s
      else if c = 32 ∨ c = 0 then if ofs > 0 then some value else none
      else none

def parseOctalField (s : List UInt8) : Option Nat := parseOctalFrom 0 0 s

def isAllZeros (block : Library.Memory) (cnt : Nat) : Bool :=
  (List.range cnt).all fun i => block i = 0

/-- What `ustar_parse_header` stores through its pointers. -/
structure Entry where
  fileName : Option (List UInt8)
  type : UstarType
  size : Nat
  deriving DecidableEq

/-- The type that a `typeflag` stands for. -/
def typeOf (flag : UInt8) : Option UstarType :=
  if flag = UstarType.regular.byte then some .regular
  else if flag = UstarType.directory.byte then some .directory
  else none

/-- The string at the start of a field. -/
def cString (field : List UInt8) : List UInt8 := field.takeWhile (· ≠ 0)

/-- The size in a header: the field counts for regular files only. -/
def parseSize (h : Library.Memory) (type : UstarType) : Except String Nat :=
  if type = .regular then
    match parseOctalField (h.field size) with
    | none => .error "corrupt file size field"
    | some bytes => if bytes > 2 ^ 31 - 1 then .error "file too large" else .ok bytes
  else .ok 0

/-- `ustar_parse_header`, with the texts of its errors. -/
def ustarParseHeader (h : Library.Memory) : Except String Entry :=
  if isAllZeros h ustarHeaderSize then .ok ⟨none, .eof, 0⟩
  else if h.field magic ≠ ustar ++ [0] then .error "not a ustar archive"
  else if h.field version ≠ [48, 48] then .error "invalid ustar version"
  else
    match parseOctalField (h.field chksum) with
    | none => .error "corrupt chksum field"
    | some sum =>
        if sum ≠ calculateChksum h then .error "checksum mismatch"
        else if h (name.ofs + name.width - 1) ≠ 0 ∨ h prefixField.ofs ≠ 0 then
          .error "file name too long"
        else
          match typeOf (h typeflag.ofs) with
          | none => .error "unimplemented file type"
          | some type =>
              match parseSize h type with
              | .error message => .error message
              | .ok bytes =>
                  .ok ⟨some (stripAntisocialPrefixes (cString (h.field name))), type, bytes⟩

end CS162.Pintos.Ustar
