import Mathlib.Algebra.Ring.Nat
import CS162.Library.CString
import CS162.Shell.Pipeline

/-!
The tokenizer of the shell (hw-shell, tokenizer.c): the loop over a line with its three modes,
the static array that a word is put together in, and the unsigned 32-bit index. The array
holds anything at first. Allocations succeed. Fuel bounds the passes through the loop, which
may not end.
-/

namespace CS162.Shell
open CS162.Library

inductive Stop where
  /-- a call of `abort` -/
  | aborted
  /-- not at its end when the fuel is used up -/
  | running
  | outOfBounds (fault : OutOfBounds)
  /-- an access through a null pointer -/
  | null
  deriving DecidableEq

/-- `'\''` -/
def quote : UInt8 := 0x27

/-- `'"'` -/
def dquote : UInt8 := 0x22

/-- `'\\'` -/
def backslash : UInt8 := 0x5c

namespace Tokenizer

inductive Mode where
  | normal
  | squote
  | dquote
  deriving DecidableEq

/-- The locals of `tokenize`, its static array, and the words so far. -/
structure Scanner where
  i : UInt32
  mode : Mode
  token : CArray
  n : Nat
  tokens : List Str

def inBounds {α : Type} (x : Except OutOfBounds α) : Except Stop α := x.mapError .outOfBounds

def charAt (line : Str) (i : Nat) : UInt8 := line.getD i 0

def nMax : Nat := 4096

section Model
variable (line : Str)

/-- `token[n++] = c`. -/
def put (s : Scanner) (c : UInt8) : Except Stop Scanner := do
  let token ← inBounds (CArray.store s.token s.n c)
  return { s with token, n := s.n + 1 }

/-- The branch of a backslash, the same in each mode. -/
def escape (s : Scanner) : Except Stop Scanner :=
  if (s.i + 1).toNat < line.length then
    put { s with i := s.i + 1 } (charAt line (s.i + 1).toNat)
  else .ok s

def copyWord (source : CArray) (n : Nat) : Except OutOfBounds (CArray × Str) := do
  let source ← CArray.store source n 0
  let word ← CArray.string source
  return (source, word)

/-- The end of a word, if there is one: `copy_word` and `vector_push`. -/
def flush (s : Scanner) : Except Stop Scanner :=
  if 0 < s.n then do
    let (token, word) ← inBounds (copyWord s.token s.n)
    return { s with token, n := 0, tokens := s.tokens ++ [word] }
  else .ok s

def scanQuoted (closing : UInt8) (s : Scanner) (c : UInt8) : Except Stop Scanner :=
  if c = closing then .ok { s with mode := .normal }
  else if c = backslash then escape line s
  else put s c

def scanChar (s : Scanner) (c : UInt8) : Except Stop Scanner :=
  match s.mode with
  | .normal =>
      if c = quote then .ok { s with mode := .squote }
      else if c = dquote then .ok { s with mode := .dquote }
      else if c = backslash then escape line s
      else if isSpace c then flush s
      else put s c
  | .squote => scanQuoted line quote s c
  | .dquote => scanQuoted line dquote s c

/-- The loop of `tokenize`. -/
def scan : Nat → Scanner → Except Stop Scanner
  | 0, _ => .error .running
  | fuel + 1, s =>
      if s.i.toNat < line.length then do
        let s ← scanChar line s (charAt line s.i.toNat)
        if nMax ≤ s.n + 1 then .error .aborted
        else scan fuel { s with i := s.i + 1 }
      else .ok s

end Model

/-- `tokenize`, with what the static array holds before. -/
def tokenize (token : Vector UInt8 nMax) (fuel : Nat) (line : Str) : Except Stop (List Str) := do
  let s ← scan line fuel ⟨0, .normal, token.toList, 0, []⟩
  let s ← flush s
  return s.tokens

section Encoding

def IsPlain (c : UInt8) : Prop := isSpace c = false ∧ c ≠ quote ∧ c ≠ dquote ∧ c ≠ backslash

instance (c : UInt8) : Decidable (IsPlain c) := inferInstanceAs (Decidable (_ ∧ _))

/-- The inside of a segment between quotes, and the characters it stands for. -/
inductive Quoted (closing : UInt8) : Str → Str → Prop where
  | nil : Quoted closing [] []
  | plain {c : UInt8} {text part : Str} : c ≠ closing → c ≠ backslash → Quoted closing text part →
      Quoted closing (c :: text) (c :: part)
  | escaped {c : UInt8} {text part : Str} : Quoted closing text part →
      Quoted closing (backslash :: c :: text) (c :: part)

inductive Encodes : Str → Str → Prop where
  | nil : Encodes [] []
  | plain {c : UInt8} {text word : Str} : IsPlain c → Encodes text word → Encodes (c :: text) (c :: word)
  | escaped {c : UInt8} {text word : Str} : Encodes text word → Encodes (backslash :: c :: text) (c :: word)
  | single {inner part text word : Str} : Quoted quote inner part → Encodes text word →
      Encodes (quote :: inner ++ quote :: text) (part ++ word)
  | double {inner part text word : Str} : Quoted dquote inner part → Encodes text word →
      Encodes (dquote :: inner ++ dquote :: text) (part ++ word)

/-- A way to write words in a line: white space in between, and perhaps around them. -/
inductive EncodesAll : Str → List Str → Prop where
  | nil : EncodesAll [] []
  | space {c : UInt8} {line : Str} {words : List Str} : isSpace c → EncodesAll line words →
      EncodesAll (c :: line) words
  | word {text word line : Str} {words : List Str} : Encodes text word → word ≠ [] →
      (∀ c, line.head? = some c → isSpace c) → EncodesAll line words → EncodesAll (text ++ line) (word :: words)

end Encoding
end Tokenizer
end CS162.Shell
