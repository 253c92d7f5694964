import CS162.Library.LinkedLists

/-!
Kernel lists (proj-pregame: lib/kernel/list.c), any number of them, over the `prev`
and `next` fields of their list elements, heads and tails.

Following a null pointer and a failing `ASSERT` are faults. The loops of
`list_reverse`, `list_unique` and `list_sort` are given a number of rounds, and running
out of them is a fault too. A comparison function reads no links, and `aux` is part of
it.

`list_sort` is a natural merge sort that moves elements by `list_splice`. Beside the
links, its merging functions return the splices that they made, in their order; the code
keeps no record of them.
-/

namespace CS162.Pintos.KernelList
open CS162.Library

inductive Fault where
  | assertion
  | null
  | rounds
  deriving DecidableEq

variable {Λ ε : Type}

abbrev Elem (Λ ε : Type) := ListNode Λ ε

def assert (condition : Bool) : Except Fault Unit :=
  if condition then .ok () else .error .assertion

def follow : Option (Elem Λ ε) → Except Fault (Elem Λ ε)
  | some n => .ok n
  | none => .error .null

section Readers
variable (m : Links Λ ε)

def isHead (elem : Elem Λ ε) : Bool := (m.prev elem).isNone && (m.next elem).isSome

def isInterior (elem : Elem Λ ε) : Bool := (m.prev elem).isSome && (m.next elem).isSome

def isTail (elem : Elem Λ ε) : Bool := (m.prev elem).isSome && (m.next elem).isNone

def listBegin (list : Λ) : Option (Elem Λ ε) := m.next (.head list)

def listNext (elem : Elem Λ ε) : Except Fault (Option (Elem Λ ε)) := do
  assert (isHead m elem || isInterior m elem)
  return m.next elem

def listEnd (list : Λ) : Elem Λ ε := .tail list

def listPrev (elem : Elem Λ ε) : Except Fault (Option (Elem Λ ε)) := do
  assert (isInterior m elem || isTail m elem)
  return m.prev elem

variable [DecidableEq Λ] [DecidableEq ε]

def listEmpty (list : Λ) : Bool := listBegin m list = some (listEnd list)

def listFront (list : Λ) : Except Fault (Option (Elem Λ ε)) := do
  assert (!listEmpty m list)
  return m.next (.head list)

def listBack (list : Λ) : Except Fault (Option (Elem Λ ε)) := do
  assert (!listEmpty m list)
  return m.prev (.tail list)

end Readers

section Writers
variable [DecidableEq Λ] [DecidableEq ε] (m : Links Λ ε)

def listInit (list : Λ) : Links Λ ε :=
  (((m.setPrev (.head list) none).setNext (.head list) (some (.tail list))).setPrev (.tail list)
    (some (.head list))).setNext (.tail list) none

def listInsert (before elem : Elem Λ ε) : Except Fault (Links Λ ε) := do
  assert (isInterior m before || isTail m before)
  let m := m.setPrev elem (m.prev before)
  let m := m.setNext elem (some before)
  let m := m.setNext (← follow (m.prev before)) (some elem)
  return m.setPrev before (some elem)

def listSplice (before first last : Elem Λ ε) : Except Fault (Links Λ ε) := do
  assert (isInterior m before || isTail m before)
  if first = last then return m
  let last ← follow (← listPrev m last)
  assert (isInterior m first)
  assert (isInterior m last)
  -- Take `first` to `last` out of their list.
  let m := m.setNext (← follow (m.prev first)) (m.next last)
  let m := m.setPrev (← follow (m.next last)) (m.prev first)
  -- Put them into the new one.
  let m := m.setPrev first (m.prev before)
  let m := m.setNext last (some before)
  let m := m.setNext (← follow (m.prev before)) (some first)
  return m.setPrev before (some last)

def listPushFront (list : Λ) (elem : Elem Λ ε) : Except Fault (Links Λ ε) := do
  listInsert m (← follow (listBegin m list)) elem

def listPushBack (list : Λ) (elem : Elem Λ ε) : Except Fault (Links Λ ε) :=
  listInsert m (listEnd list) elem

def listRemove (elem : Elem Λ ε) : Except Fault (Links Λ ε × Option (Elem Λ ε)) := do
  assert (isInterior m elem)
  let m := m.setNext (← follow (m.prev elem)) (m.next elem)
  let m := m.setPrev (← follow (m.next elem)) (m.prev elem)
  return (m, m.next elem)

def listPopFront (list : Λ) : Except Fault (Links Λ ε × Option (Elem Λ ε)) := do
  let front ← follow (← listFront m list)
  let (m, _) ← listRemove m front
  return (m, some front)

def listPopBack (list : Λ) : Except Fault (Links Λ ε × Option (Elem Λ ε)) := do
  let back ← follow (← listBack m list)
  let (m, _) ← listRemove m back
  return (m, some back)

/-- The loop of `list_reverse`, from an element on. -/
def reverseLoop (list : Λ) : Nat → Links Λ ε → Option (Elem Λ ε) → Except Fault (Links Λ ε)
  | 0, _, _ => .error .rounds
  | rounds + 1, m, e =>
      if e = some (listEnd list) then .ok m
      else do
        let elem ← follow e
        let m' := (m.setPrev elem (m.next elem)).setNext elem (m.prev elem)
        reverseLoop list rounds m' (m'.prev elem)

def listReverse (rounds : Nat) (list : Λ) : Except Fault (Links Λ ε) := do
  if listEmpty m list then return m
  let m ← reverseLoop list rounds m (listBegin m list)
  let m := (m.setNext (.head list) (m.prev (.tail list))).setPrev (.tail list) (m.next (.head list))
  let front ← follow (m.next (.head list))
  let back ← follow (m.prev (.tail list))
  return (m.setPrev front (m.next back)).setNext back (m.prev front)

/-- The loop of `list_unique`. -/
def uniqueLoop (list : Λ) (duplicates : Option Λ) (less : Elem Λ ε → Elem Λ ε → Bool) :
    Nat → Links Λ ε → Elem Λ ε → Except Fault (Links Λ ε)
  | 0, _, _ => .error .rounds
  | rounds + 1, m, elem => do
      let next ← listNext m elem
      if next = some (listEnd list) then return m
      let next ← follow next
      if !less elem next && !less next elem then
        let (m, _) ← listRemove m next
        let m ← match duplicates with
          | some duplicates => listPushBack m duplicates next
          | none => pure m
        uniqueLoop list duplicates less rounds m elem
      else uniqueLoop list duplicates less rounds m next

def listUnique (rounds : Nat) (list : Λ) (duplicates : Option Λ) (less : Elem Λ ε → Elem Λ ε → Bool) :
    Except Fault (Links Λ ε) := do
  if listEmpty m list then return m
  uniqueLoop list duplicates less rounds m (← follow (listBegin m list))

end Writers

/-- The arguments of a call of `list_splice`. -/
structure Splice (Λ ε : Type) where
  before : Elem Λ ε
  first : Elem Λ ε
  last : Elem Λ ε

section MergeSort
variable [DecidableEq Λ] [DecidableEq ε] (less : Elem Λ ε → Elem Λ ε → Bool)

section Runs
variable (m : Links Λ ε) (b : Elem Λ ε)

/-- The loop of `is_sorted`. -/
def sortedLoop : Nat → Elem Λ ε → Except Fault Bool
  | 0, _ => .error .rounds
  | rounds + 1, a => do
      let a ← follow (← listNext m a)
      if a = b then return true
      if less a (← follow (← listPrev m a)) then return false
      sortedLoop rounds a

def isSorted (rounds : Nat) (a : Elem Λ ε) : Except Fault Bool :=
  if a = b then return true
  else sortedLoop less m b rounds a

/-- The loop of `find_end_of_run`. -/
def endOfRunLoop : Nat → Elem Λ ε → Except Fault (Elem Λ ε)
  | 0, _ => .error .rounds
  | rounds + 1, a => do
      let a ← follow (← listNext m a)
      if a = b then return a
      if less a (← follow (← listPrev m a)) then return a
      endOfRunLoop rounds a

def findEndOfRun (rounds : Nat) (a : Elem Λ ε) : Except Fault (Elem Λ ε) := do
  assert (a ≠ b)
  endOfRunLoop less m b rounds a

end Runs

/-- The loop of `inplace_merge`. -/
def mergeLoop (b1 : Elem Λ ε) : Nat → Links Λ ε → (a0 a1b0 : Elem Λ ε) →
    Except Fault (Links Λ ε × List (Splice Λ ε))
  | 0, _, _, _ => .error .rounds
  | rounds + 1, m, a0, a1b0 =>
      if a0 ≠ a1b0 ∧ a1b0 ≠ b1 then
        if !less a1b0 a0 then do
          mergeLoop b1 rounds m (← follow (← listNext m a0)) a1b0
        else do
          let a1b0 ← follow (← listNext m a1b0)
          let first ← follow (← listPrev m a1b0)
          let m ← listSplice m a0 first a1b0
          let (m, splices) ← mergeLoop b1 rounds m a0 a1b0
          return (m, ⟨a0, first, a1b0⟩ :: splices)
      else return (m, [])

def inplaceMerge (rounds : Nat) (m : Links Λ ε) (a0 a1b0 b1 : Elem Λ ε) :
    Except Fault (Links Λ ε × List (Splice Λ ε)) := do
  assert (← isSorted less m a1b0 rounds a0)
  assert (← isSorted less m b1 rounds a1b0)
  mergeLoop less b1 rounds m a0 a1b0

/-- A pass of `list_sort`, from `a0` on, with the number of runs that it puts out. -/
def passLoop (runRounds : Nat) (list : Λ) : Nat → Links Λ ε → Elem Λ ε → Nat →
    Except Fault (Links Λ ε × Nat × List (Splice Λ ε))
  | 0, _, _, _ => .error .rounds
  | rounds + 1, m, a0, outputRunCnt =>
      if a0 ≠ listEnd list then do
        let outputRunCnt := outputRunCnt + 1
        let a1b0 ← findEndOfRun less m (listEnd list) runRounds a0
        if a1b0 = listEnd list then return (m, outputRunCnt, [])
        let b1 ← findEndOfRun less m (listEnd list) runRounds a1b0
        let (m, splices) ← inplaceMerge less runRounds m a0 a1b0 b1
        let (m, outputRunCnt, splices') ← passLoop runRounds list rounds m b1 outputRunCnt
        return (m, outputRunCnt, splices ++ splices')
      else return (m, outputRunCnt, [])

/-- The passes of `list_sort`. -/
def sortLoop (passRounds : Nat) (list : Λ) : Nat → Links Λ ε →
    Except Fault (Links Λ ε × List (Splice Λ ε))
  | 0, _ => .error .rounds
  | rounds + 1, m => do
      let begin ← follow (listBegin m list)
      let (m, outputRunCnt, splices) ← passLoop less passRounds list passRounds m begin 0
      if outputRunCnt > 1 then
        let (m, splices') ← sortLoop passRounds list rounds m
        return (m, splices ++ splices')
      else return (m, splices)

/-- `list_sort`, with so many rounds for each of its loops. -/
def listSort (m : Links Λ ε) (rounds : Nat) (list : Λ) :
    Except Fault (Links Λ ε × List (Splice Λ ε)) := do
  let (m, splices) ← sortLoop less rounds list rounds m
  let begin ← follow (listBegin m list)
  assert (← isSorted less m (listEnd list) rounds begin)
  return (m, splices)

end MergeSort
end CS162.Pintos.KernelList
