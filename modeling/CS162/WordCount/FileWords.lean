import CS162.Library.CString
import CS162.Library.MachineInt
import CS162.WordCount.WordList

/-!
Counting the words of a file (hw-intro, words: `num_words` and `count_words` of main.c with
`find_word` and `add_word` of word_count.c). Characters are read into a signed `char`, in which
the byte 0xff is the mark for the end of the file; the locale is that of C. Allocations succeed.
The word buffer has 64 bytes, and reading a string in it that has no end is a fault too.
-/

namespace CS162.WordCount
namespace FileWords
open CS162.Library

def eof : Int := -1

def toChar (c : UInt8) : Int := (c.toNat + 128) % 256 - 128

def isAlpha (ch : Int) : Bool := (65 ≤ ch ∧ ch ≤ 90) ∨ (97 ≤ ch ∧ ch ≤ 122)

def toLower (ch : Int) : Int := if 65 ≤ ch ∧ ch ≤ 90 then ch + 32 else ch

def maxWordLen : Nat := 64

section List

def findWord (wchead : List WordCountT) (word : Word) : Option WordCountT :=
  wchead.find? fun wc => wc.word = word

/-- `wc->count++` of the first node with the word. -/
def increment (word : Word) : List WordCountT → List WordCountT
  | [] => []
  | wc :: wcs => if wc.word = word then ⟨wc.word, toInt32 (wc.count + 1)⟩ :: wcs else wc :: increment word wcs

def addWord (wclist : List WordCountT) (word : Word) : List WordCountT :=
  match wclist with
  | [] => [⟨word, 1⟩]
  | _ :: _ =>
      match findWord wclist word with
      | none => wclist ++ [⟨word, 1⟩]
      | some _ => increment word wclist

end List

section Scan

def countLetter (isNewWord : Int) : Int :=
  if isNewWord = 0 then 1
  else if 0 < isNewWord then toInt32 (isNewWord + 1)
  else isNewWord

/-- `num_words` at the end of a run, if that is a word. -/
def countRun (isNewWord numWords : Int) : Int := if 1 < isNewWord then toInt32 (numWords + 1) else numWords

/-- The loop of `num_words`, and what follows at the end of the file. -/
def numWordsLoop : List UInt8 → Int → Int → Int
  | [], isNewWord, numWords => countRun isNewWord numWords
  | c :: infile, isNewWord, numWords =>
      let ch := toChar c
      if ch = eof then countRun isNewWord numWords
      else if isAlpha ch then numWordsLoop infile (countLetter isNewWord) numWords
      else numWordsLoop infile 0 (countRun isNewWord numWords)

def numWords (infile : List UInt8) : Int := numWordsLoop infile 0 0

def cleared : CArray := List.replicate maxWordLen 0

/-- `str[i] = ch`. -/
def storeChar (str : CArray) (i : Int) (ch : Int) : Except OutOfBounds CArray :=
  if 0 ≤ i then CArray.store str i.toNat (UInt8.ofInt ch) else .error .write

/-- `add_word` of what is in the buffer, if that is a word. -/
def endWord (wclist : List WordCountT) (str : CArray) (isNewWord : Int) : Except OutOfBounds (List WordCountT) :=
  if 1 < isNewWord then (CArray.string str).map (addWord wclist) else .ok wclist

/-- The loop of `count_words`, and what follows at the end of the file. -/
def countWordsLoop : List UInt8 → List WordCountT → CArray → Int → Except OutOfBounds (List WordCountT)
  | [], wclist, str, isNewWord => endWord wclist str isNewWord
  | c :: infile, wclist, str, isNewWord =>
      let ch := toChar c
      if ch = eof then endWord wclist str isNewWord
      else if isAlpha ch then do
        let isNewWord := countLetter isNewWord
        let str ← storeChar str (isNewWord - 1) (toLower ch)
        countWordsLoop infile wclist str isNewWord
      else do
        let wclist ← endWord wclist str isNewWord
        countWordsLoop infile wclist cleared 0

/-- `count_words`: its result, and the list from then on. -/
def countWords (wclist : List WordCountT) (infile : Option (List UInt8)) : Except OutOfBounds (Int × List WordCountT) :=
  match infile with
  | none => .ok (1, wclist)
  | some infile => (countWordsLoop infile wclist cleared 0).map fun wclist => (0, wclist)

end Scan

section Specification

def isLetter (c : UInt8) : Bool := (0x41 ≤ c ∧ c ≤ 0x5a) ∨ (0x61 ≤ c ∧ c ≤ 0x7a)

def lower (c : UInt8) : UInt8 := if 0x41 ≤ c ∧ c ≤ 0x5a then c + 0x20 else c

/-- The longest runs of letters, empty ones between two other characters. -/
def runs (content : List UInt8) : List (List UInt8) := content.splitOnP (!isLetter ·)

/-- The words of a file, in lower case. -/
def wordsOf (content : List UInt8) : List Word :=
  ((runs content).filter (2 ≤ ·.length)).map (·.map lower)

def countOf (wclist : List WordCountT) (word : Word) : Int :=
  ((findWord wclist word).map (·.count)).getD 0

def total (wclist : List WordCountT) : Int := (wclist.map (·.count)).sum

structure Words where
  wclist : List WordCountT
  nodup : (wclist.map (·.word)).Nodup
  int : ∀ wc ∈ wclist, -2 ^ 31 ≤ wc.count ∧ wc.count ≤ intMax

/-- The words of the file have been counted, and none else. -/
structure Counted (words : Words) (content : List UInt8) (wclist : List WordCountT) : Prop where
  nodup : (wclist.map (·.word)).Nodup
  present : ∀ word, word ∈ wclist.map (·.word) ↔ word ∈ words.wclist.map (·.word) ∨ word ∈ wordsOf content
  counts : ∀ word, countOf wclist word = countOf words.wclist word + (wordsOf content).count word
  increase : total wclist - total words.wclist = numWords content

/-- `count_words` returns 0 and has counted the words of the file, within its buffer. -/
def Exact (words : Words) (content : List UInt8) : Prop :=
  ∃ wclist, countWords words.wclist (some content) = .ok (0, wclist) ∧ Counted words content wclist

/-- A file without a run of 64 letters or more before the first byte 0xff, if there is one,
without a word behind it, and with no more words than an `int` counts. -/
structure Countable (words : Words) (content : List UInt8) : Prop where
  short : ∀ run ∈ runs (content.takeWhile (· ≠ 0xff)), run.length ≤ 63
  behind : wordsOf (content.dropWhile (· ≠ 0xff)) = []
  counts : ∀ word, countOf words.wclist word + (wordsOf content).count word ≤ intMax
  many : (wordsOf content).length ≤ intMax

end Specification
end FileWords
end CS162.WordCount
