import CS162.Pintos.FormatInteger

/-!
`__vprintf`, `format_string` and `vsnprintf` (proj-pregame, lib/stdio.c). The scanner goes through
the format with fuel and hands each character to a callback; that of `vsnprintf` stores it in a
buffer and counts it in an `int`.
-/

namespace CS162.Pintos.Stdio
open CS162.Library

section Values

abbrev typeKind : IntType → Kind
  | .char | .short | .int | .long | .ptrdifft | .sizet => .word
  | .intmax | .longlong => .wide

def signedValue : (type : IntType) → (typeKind type).Value → Int64
  | .char, (x : UInt32) => x.toUInt8.toInt8.toInt64
  | .short, (x : UInt32) => x.toUInt16.toInt16.toInt64
  | .int, (x : UInt32) => x.toInt32.toInt64
  | .intmax, (x : UInt64) => x.toInt64
  | .long, (x : UInt32) => x.toInt32.toInt64
  | .longlong, (x : UInt64) => x.toInt64
  | .ptrdifft, (x : UInt32) => x.toInt32.toInt64
  | .sizet, (x : UInt32) =>
      let value := x.toUInt64.toInt64
      if value > 0x7fffffff then value - 0xffffffff - 1 else value

def unsignedValue : (type : IntType) → (typeKind type).Value → UInt64
  | .char, (x : UInt32) => x.toUInt8.toUInt64
  | .short, (x : UInt32) => x.toUInt16.toUInt64
  | .int, (x : UInt32) => x.toUInt64
  | .intmax, (x : UInt64) => x
  | .long, (x : UInt32) => x.toUInt64
  | .longlong, (x : UInt64) => x
  | .ptrdifft, (x : UInt32) => x.toInt32.toInt64.toUInt64 &&& 0xffffffff
  | .sizet, (x : UInt32) => x.toUInt64

def unsignedBase (conv : UInt8) : IntegerBase :=
  if conv = 0x6f then baseO else if conv = 0x75 then baseD else if conv = 0x78 then baseX else baseUpperX

def powers : List Int32 :=
  [0, 10, 100, 1000, 10000, 100000, 1000000, 10000000, 100000000, 1000000000, 0, 0, 0, 0, 0, 0]

/-- `strnlen` of bytes with a terminating zero behind them. -/
def strnlen (string : List UInt8) (maxlen : Nat) : Nat := min (string.takeWhile (· ≠ 0)).length maxlen

/-- `format_string`, with all that it puts out. -/
def formatString (string : List UInt8) (length : Int) (c : PrintfConversion) : List UInt8 :=
  (if length < c.width ∧ ¬ c.flags.minus then outputDup 0x20 (toUInt32 (c.width - length)) else []) ++
    string.take length.toNat ++
    (if length < c.width ∧ c.flags.minus then outputDup 0x20 (toUInt32 (c.width - length)) else [])

/-- The two numbers of `%f` and the point between them. -/
def formatFloat (d : Double) (c : PrintfConversion) : Except OutOfBounds (List UInt8) := do
  let precision := if c.precision < 0 then 6 else c.precision
  let precision := if 9 < precision then 9 else precision
  let first := d.whole
  let rest := d.rest (powers.getD precision.toNat 0)
  let whole ← formatInteger (if first < 0 then -first else first).toInt64.toUInt64 true d.negative baseD
    { c with precision := -1 }
  let decimals ← formatInteger (if rest < 0 then -rest else rest).toInt64.toUInt64 false false baseD
    { c with precision := if precision = 0 then 1 else precision }
  return whole ++ [0x2e] ++ decimals

/-- "(null)" -/
def nullText : List UInt8 := [0x28, 0x6e, 0x75, 0x6c, 0x6c, 0x29]

/-- " in kernel>>" -/
def inKernel : List UInt8 := [0x20, 0x69, 0x6e, 0x20, 0x6b, 0x65, 0x72, 0x6e, 0x65, 0x6c, 0x3e, 0x3e]

/-- " conversion>>" -/
def noConversion : List UInt8 := [0x20, 0x63, 0x6f, 0x6e, 0x76, 0x65, 0x72, 0x73, 0x69, 0x6f, 0x6e, 0x3e, 0x3e]

/-- "<<no %%%c" with one of these two behind it -/
def refusal (reason : List UInt8) : Pointer := [0x3c, 0x3c, 0x6e, 0x6f, 0x20, 0x25, 0x25, 0x25, 0x63] ++ reason ++ [0]

/-- `'%'` -/
def percent : UInt8 := 0x25

end Values

section Scanner
variable {σ : Type} (output : UInt8 → σ → Except Stop σ)

def putAll (chars : List UInt8) (aux : σ) : Except Stop σ := chars.foldlM (fun aux ch => output ch aux) aux

def putText (text : Except OutOfBounds (List UInt8)) (args : List Arg) (aux : σ) : Except Stop (σ × List Arg) := do
  let chars ← inBounds text
  let aux ← putAll output chars aux
  return (aux, args)

/-- The switch over the conversion character, with `__printf` for what it does not know. -/
def convert (printf : Pointer → List Arg → σ → Except Stop σ) (conv : UInt8) (c : PrintfConversion) (args : List Arg)
    (aux : σ) : Except Stop (σ × List Arg) :=
  -- d, i
  if conv = 0x64 ∨ conv = 0x69 then do
    let (x, args) ← vaArg (typeKind c.type) args
    let value := signedValue c.type x
    putText output (formatInteger (if value < 0 then -value else value).toUInt64 true (value < 0) baseD c) args aux
  -- o, u, x, X
  else if conv = 0x6f ∨ conv = 0x75 ∨ conv = 0x78 ∨ conv = 0x58 then do
    let (x, args) ← vaArg (typeKind c.type) args
    putText output (formatInteger (unsignedValue c.type x) false false (unsignedBase conv) c) args aux
  -- c
  else if conv = 0x63 then do
    let (x, args) ← vaArg .word args
    putText output (.ok (formatString [x.toUInt8] 1 c)) args aux
  -- s
  else if conv = 0x73 then do
    let (s, args) ← vaArg .string args
    let s := s.getD nullText
    putText output (.ok (formatString s (toInt32 (strnlen s (toUInt32 c.precision))) c)) args aux
  -- p
  else if conv = 0x70 then do
    let (p, args) ← vaArg .pointer args
    let c := { c with flags := ⟨false, false, false, true, false, false⟩ }
    putText output (formatInteger p.toUInt64 false false baseX c) args aux
  -- f
  else if conv = 0x66 then do
    let (d, args) ← vaArg .double args
    putText output (formatFloat d c) args aux
  else do
    -- e, E, g, G, n
    let unsupported := conv = 0x65 ∨ conv = 0x45 ∨ conv = 0x67 ∨ conv = 0x47 ∨ conv = 0x6e
    let format := refusal (if unsupported then inKernel else noConversion)
    let aux ← printf format [⟨.word, conv.toInt8.toInt32.toUInt32⟩] aux
    return (aux, args)

/-- `__vprintf`. Its own calls of `__printf` take from the same fuel. -/
def vprintf : Nat → Pointer → List Arg → σ → Except Stop σ
  | 0, _, _, _ => .error .running
  | fuel + 1, format, args, aux => do
      let ch ← deref format
      if ch = 0 then return aux
      else if ch ≠ percent then
        let aux ← output ch aux
        vprintf fuel format.tail args aux
      else
        let format := format.tail
        let ch ← deref format
        if ch = percent then
          let aux ← output percent aux
          vprintf fuel format.tail args aux
        else
          let (c, format, args) ← parseConversion format args
          let conv ← deref format
          let (aux, args) ← convert output (vprintf fuel) conv c args aux
          vprintf fuel format.tail args aux

end Scanner

section Buffer

/-- `struct vsnprintf_aux`, with the buffer that `p` points into. -/
structure VsnprintfAux where
  buffer : CArray
  p : Nat
  length : Int
  maxLength : Int

def vsnprintfHelper (ch : UInt8) (aux : VsnprintfAux) : Except Stop VsnprintfAux :=
  let length := toInt32 (aux.length + 1)
  if aux.length < aux.maxLength then do
    let buffer ← inBounds (CArray.store aux.buffer aux.p ch)
    return { aux with buffer, p := aux.p + 1, length }
  else return { aux with length }

def vsnprintf (fuel : Nat) (buffer : CArray) (bufSize : UInt32) (format : Pointer) (args : List Arg) :
    Except Stop (Int × CArray) := do
  let maxLength := if 0 < bufSize then toInt32 (bufSize - 1).toNat else 0
  let aux ← vprintf vsnprintfHelper fuel format args ⟨buffer, 0, 0, maxLength⟩
  let buffer ← (if 0 < bufSize then inBounds (CArray.store aux.buffer aux.p 0) else .ok aux.buffer)
  return (aux.length, buffer)

def collect (ch : UInt8) (out : List UInt8) : Except Stop (List UInt8) := .ok (out ++ [ch])

/-- A buffer with the first characters of a text and a terminating zero, unless its size is zero. -/
def stored (buffer : CArray) (bufSize : Nat) (text : List UInt8) : CArray :=
  if bufSize = 0 then buffer
  else text.take (bufSize - 1) ++ 0 :: buffer.drop (min text.length (bufSize - 1) + 1)

/-- `__vprintf` comes to its end within the format, and `vsnprintf` stores as much of what it puts
out as there is space for and returns its length. -/
def Prints (fuel : Nat) (format : Pointer) (args : List Arg) (bufSize : UInt32) : Prop :=
  ∃ text, vprintf collect fuel format args [] = .ok text ∧ ∀ buffer : CArray, bufSize.toNat ≤ buffer.length →
    vsnprintf fuel buffer bufSize format args = .ok (text.length, stored buffer bufSize.toNat text)

end Buffer
end CS162.Pintos.Stdio
