import Mathlib.Data.List.DropRight
import CS162.Library.Outcome

/-!
Pipelines of the shell (hw-shell: execute_progs of shell.c).

A line is its bytes up to the terminating zero. What becomes of it are the calls of
`execute_single_process`, each in a process of its own, in the order of the stages;
such a call does not return. `pipe` succeeds, and `fork` may fail. Writing past the
end of `cmd`, or reading a line past its end, is a fault.
-/

namespace CS162.Shell
open CS162.Library

abbrev Str := List UInt8

/-- `'|'` -/
def bar : UInt8 := 0x7c

def isSpace (c : UInt8) : Bool := c = 0x20 || (0x09 ≤ c && c ≤ 0x0d)

/-- What a standard stream of a process is. -/
inductive Stream where
  /-- that of the shell -/
  | inherited
  | readEnd (pipe : Nat)
  | writeEnd (pipe : Nat)
  deriving DecidableEq

/-- A call of `execute_single_process`, with the streams of its process. -/
structure Invocation where
  cmd : Str
  stdin : Stream
  stdout : Stream
  deriving DecidableEq

inductive Fault where
  | overflow
  | overread
  deriving DecidableEq

/-- The loop that looks for the first `'|'`, from an index on. -/
def findBar : Str → Nat → Nat
  | [], _ => 0
  | c :: line, i => if c = bar then i else findBar line (i + 1)

/-- `execute_progs`, in the process that has already set up so many pipes. `fork`
tells of each attempt whether it succeeds. -/
def executeProgs (fork : Nat → Bool) (pipes : Nat) (stdin : Stream) (line : Str) :
    Except Fault (List Invocation) :=
  let pos := findBar line 0
  if pos = 0 then .ok [⟨line, stdin, .inherited⟩]
  else if 1024 ≤ pos then .error .overflow
  else if _h : line.length < pos + 2 then .error .overread
  else if fork pipes then do
    let remain ← executeProgs fork (pipes + 1) (.readEnd pipes) (line.drop (pos + 2))
    return ⟨line.take pos, stdin, .writeEnd pipes⟩ :: remain
  else .ok []
termination_by line.length
decreasing_by
  rw [List.length_drop]
  omega

section Trim

/-- A string without leading and trailing white space. -/
def trim (s : Str) : Str := (s.dropWhile isSpace).rdropWhile isSpace

variable {c : UInt8} {s : Str}

theorem trim_cons_of_space (h : isSpace c = true) : trim (c :: s) = trim s := by
  rw [trim, List.dropWhile_cons_of_pos h]
  rfl

theorem rdropWhile_cons (h : isSpace c = false) :
    (c :: s).rdropWhile isSpace = c :: s.rdropWhile isSpace := by
  rw [List.rdropWhile, List.rdropWhile, List.reverse_cons, List.dropWhile_append]
  cases front : s.reverse.dropWhile isSpace with
  | nil => simp [h]
  | cons d rest => simp

theorem trim_cons_of_not_space (h : isSpace c = false) : trim (c :: s) = c :: s.rdropWhile isSpace := by
  rw [trim, List.dropWhile_cons_of_neg (by simp [h]), rdropWhile_cons h]

theorem length_rdropWhile_le_cons : (s.rdropWhile isSpace).length ≤ ((c :: s).rdropWhile isSpace).length := by
  rw [List.rdropWhile, List.rdropWhile, List.reverse_cons, List.dropWhile_append, List.length_reverse,
    List.length_reverse]
  cases front : s.reverse.dropWhile isSpace with
  | nil => exact Nat.zero_le _
  | cons d rest => simp

theorem length_trim_le : (trim s).length ≤ (s.rdropWhile isSpace).length := by
  induction s with
  | nil => exact Nat.le_refl _
  | cons c s ih =>
      cases h : isSpace c with
      | true =>
          rw [trim_cons_of_space h]
          exact ih.trans length_rdropWhile_le_cons
      | false => rw [trim_cons_of_not_space h, rdropWhile_cons h]

/-- A string that does not start with white space is not itself without its first
character. -/
theorem trim_ne_trim_cons (h : isSpace c = false) : trim s ≠ trim (c :: s) := by
  intro same
  have less := length_trim_le (s := s)
  rw [same, trim_cons_of_not_space h, List.length_cons] at less
  exact Nat.not_succ_le_self _ less

end Trim

section Find
variable {line stage rest : Str}

theorem findBar_of_not_mem (h : bar ∉ line) (i : Nat) : findBar line i = 0 := by
  induction line generalizing i with
  | nil => rfl
  | cons c line ih =>
      have other : c ≠ bar := fun same => h (same ▸ List.mem_cons_self)
      rw [findBar, if_neg other]
      exact ih (fun inside => h (List.mem_cons_of_mem _ inside)) (i + 1)

theorem findBar_append (h : bar ∉ stage) (i : Nat) :
    findBar (stage ++ bar :: rest) i = i + stage.length := by
  induction stage generalizing i with
  | nil => exact if_pos rfl
  | cons c stage ih =>
      have other : c ≠ bar := fun same => h (same ▸ List.mem_cons_self)
      rw [List.cons_append, findBar, if_neg other, ih (fun inside => h (List.mem_cons_of_mem _ inside)),
        List.length_cons]
      omega

/-- A line has one stage, or a first one before a `'|'`. -/
theorem line_cases (line : Str) : bar ∉ line ∨ ∃ stage rest, bar ∉ stage ∧ line = stage ++ bar :: rest := by
  by_cases inside : bar ∈ line
  · obtain ⟨stage, rest, split, first⟩ := List.eq_append_cons_of_mem inside
    exact .inr ⟨stage, rest, first, split⟩
  · exact .inl inside

end Find

section Calls
variable {fork : Nat → Bool} {pipes : Nat} {stdin : Stream} {line stage rest : Str} {c : UInt8}

theorem executeProgs_of_not_mem (h : bar ∉ line) :
    executeProgs fork pipes stdin line = .ok [⟨line, stdin, .inherited⟩] := by
  rw [executeProgs]
  exact if_pos (findBar_of_not_mem h 0)

theorem executeProgs_bar_cons :
    executeProgs fork pipes stdin (bar :: rest) = .ok [⟨bar :: rest, stdin, .inherited⟩] := by
  rw [executeProgs]
  exact if_pos rfl

/-- What becomes of a stage and a line behind it: the character after the `'|'` is
passed over. -/
theorem executeProgs_append (first : bar ∉ stage) (some_chars : stage ≠ []) (short : stage.length < 1024) :
    executeProgs fork pipes stdin (stage ++ bar :: c :: rest) =
      if fork pipes then
        (executeProgs fork (pipes + 1) (.readEnd pipes) rest).map
          (⟨stage, stdin, .writeEnd pipes⟩ :: ·)
      else .ok [] := by
  have pos : findBar (stage ++ bar :: c :: rest) 0 = stage.length := by
    rw [findBar_append first, Nat.zero_add]
  have long : 0 < stage.length := List.length_pos_of_ne_nil some_chars
  have behind : (stage ++ bar :: c :: rest).drop (stage.length + 2) = rest := by
    rw [← List.drop_drop, List.drop_left]
    rfl
  have whole : ¬ (stage ++ bar :: c :: rest).length < stage.length + 2 := by
    rw [List.length_append, List.length_cons, List.length_cons]
    omega
  rw [executeProgs]
  simp only [pos]
  rw [if_neg (Nat.ne_of_gt long), if_neg (Nat.not_le_of_lt short), dif_neg whole, behind, List.take_left]
  rfl

theorem executeProgs_long (first : bar ∉ stage) (long : 1024 ≤ stage.length) :
    executeProgs fork pipes stdin (stage ++ bar :: rest) = .error .overflow := by
  have pos : findBar (stage ++ bar :: rest) 0 = stage.length := by
    rw [findBar_append first, Nat.zero_add]
  rw [executeProgs]
  simp only [pos]
  rw [if_neg (by omega), if_pos long]

end Calls
end CS162.Shell
