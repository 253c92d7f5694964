import CS162.Library.MachineInt
import CS162.Library.NaturalMerge

/-!
The word list in its two versions (hw-list: word_count_l.c, word_count_p.c, with
list_sort of list.c).

A C string is its bytes up to the terminating zero. A node of the list is named by
the number of its allocation, which stands for its address, and allocations
succeed. `count` is an `int`, and adding to it wraps. A call that blocks on the
mutex, or a sort that does not come to an end in order, does not return.
-/

namespace CS162.WordCount
open CS162.Library

abbrev Word := List UInt8

/-- The fields of `word_count_t` that callers see. -/
structure WordCountT where
  word : Word
  count : Int
  deriving DecidableEq

structure Node where
  id : Nat
  wc : WordCountT
  deriving DecidableEq

/-- `struct list` with its nodes, and the number of allocations so far. -/
structure WordList where
  nodes : List Node
  allocated : Nat
  deriving DecidableEq

def Node.increment (node : Node) : Node where
  id := node.id
  wc := ⟨node.wc.word, toInt32 (node.wc.count + 1)⟩

/-- `list_init` -/
def WordList.init (list : WordList) : WordList := { list with nodes := [] }

/-- The node that the next allocation makes for a word. -/
def WordList.fresh (list : WordList) (word : Word) : Node := ⟨list.allocated, ⟨word, 1⟩⟩

/-- `list_push_back` of a new node -/
def WordList.pushBack (list : WordList) (word : Word) : WordList where
  nodes := list.nodes ++ [list.fresh word]
  allocated := list.allocated + 1

/-- The loop of `find_word`. -/
def WordList.findWord (list : WordList) (word : Word) : Option Node :=
  list.nodes.find? fun node => node.wc.word = word

/-- `wc->count++` through a pointer to the node -/
def WordList.increment (list : WordList) (id : Nat) : WordList where
  nodes := list.nodes.map fun node => if node.id = id then node.increment else node
  allocated := list.allocated

abbrev LessFunc := WordCountT → WordCountT → Bool

def lessList (less : LessFunc) (node1 node2 : Node) : Bool := less node1.wc node2.wc

/-- `wordcount_sort`, where `list_sort` makes no more than so many passes. -/
def WordList.wordcountSort (passes : Nat) (list : WordList) (less : LessFunc) : Option WordList :=
  (naturalMerge (lessList less) passes list.nodes).map fun nodes => ⟨nodes, list.allocated⟩

/-- The loop of `len_words`. -/
def countNodes : List Node → Nat → Nat
  | [], len => len
  | _ :: nodes, len => countNodes nodes (len + 1)

inductive Call where
  | initWords
  | lenWords
  | findWord (word : Word)
  | addWord (word : Word)
  | wordcountSort (less : LessFunc)

inductive Result where
  | done
  | size (n : Nat)
  | found (node : Option Node)
  deriving DecidableEq

/-! The version of word_count_l.c -/

namespace Sequential

def lenWords (list : WordList) : Nat := countNodes list.nodes 0

/-- The loop of `add_word`: the node it returns and the list with it counted up. -/
def addLoop (word : Word) : List Node → Option (Node × List Node)
  | [] => none
  | node :: nodes =>
      if node.wc.word = word then some (node.increment, node.increment :: nodes)
      else (addLoop word nodes).map fun result => (result.1, node :: result.2)

def addWord (list : WordList) (word : Word) : Node × WordList :=
  match addLoop word list.nodes with
  | some (node, nodes) => (node, { list with nodes := nodes })
  | none => (list.fresh word, list.pushBack word)

def call (passes : Nat) (list : WordList) : Call → Option (Result × WordList)
  | .initWords => some (.done, list.init)
  | .lenWords => some (.size (lenWords list), list)
  | .findWord word => some (.found (list.findWord word), list)
  | .addWord word => some (.found (some (addWord list word).1), (addWord list word).2)
  | .wordcountSort less => (list.wordcountSort passes less).map fun list => (.done, list)

end Sequential

/-! The version of word_count_p.c -/

namespace Parallel

structure WordCountList where
  lst : WordList
  locked : Bool

def initWords (wclist : WordCountList) : WordCountList where
  lst := wclist.lst.init
  locked := false

/-- The number that the loop has counted is not what is returned. -/
def lenWords (wclist : WordCountList) : Nat :=
  let _len := countNodes wclist.lst.nodes 0
  0

/-- What `add_word` does while it holds the mutex. -/
def addLocked (list : WordList) (word : Word) : Node × WordList :=
  match list.findWord word with
  | some node => (node.increment, list.increment node.id)
  | none => (list.fresh word, list.pushBack word)

def addWord (wclist : WordCountList) (word : Word) : Option (Node × WordCountList) :=
  if wclist.locked then none
  else some ((addLocked wclist.lst word).1, ⟨(addLocked wclist.lst word).2, false⟩)

def call (passes : Nat) (wclist : WordCountList) : Call → Option (Result × WordCountList)
  | .initWords => some (.done, initWords wclist)
  | .lenWords => some (.size (lenWords wclist), wclist)
  | .findWord word => some (.found (wclist.lst.findWord word), wclist)
  | .addWord word => (addWord wclist word).map fun result => (.found (some result.1), result.2)
  | .wordcountSort less =>
      (wclist.lst.wordcountSort passes less).map fun list => (.done, ⟨list, wclist.locked⟩)

end Parallel

section Runs
universe u
variable {σ : Type u} (call : σ → Call → Option (Result × σ)) (nodes : σ → List Node)

/-- What calls in a row return, each with the list after it. The last entry is
empty if that call does not return. -/
def results : List Call → σ → List (Option (Result × List Node))
  | [], _ => []
  | c :: calls, s =>
      match call s c with
      | none => [none]
      | some (result, s) => some (result, nodes s) :: results calls s

/-- The state after calls that all return. -/
def run : List Call → σ → Option σ
  | [], s => some s
  | c :: calls, s => (call s c).bind fun result => run calls result.2

end Runs

/-- The lists after `init_words`. -/
def Sequential.start : WordList := ⟨[], 0⟩

def Parallel.start : Parallel.WordCountList := ⟨Sequential.start, false⟩

/-- The words added since the last `init_words`. -/
def added (calls : List Call) : List Word :=
  calls.foldl (fun words c =>
    match c with
    | .initWords => []
    | .addWord word => words ++ [word]
    | _ => words) []

end CS162.WordCount
