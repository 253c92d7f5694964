import CS162.Shell.Tokenizer

/-!
What the processes of a command line do with memory (hw-shell, shell.c): `execute_progs`, and
`execute_single_process` in each of them, with their arrays and the pointers they read through.
A string copied into an array has to fit it with its zero. `pipe` and `calloc` succeed, `fork`
may fail, and `execv` returns where it fails.
-/

namespace CS162.Shell
namespace Execute
open CS162.Library Tokenizer

/-- `"<"` -/
def lessThan : Str := [0x3c]

/-- `">"` -/
def greaterThan : Str := [0x3e]

def slash : UInt8 := 0x2f

def colon : UInt8 := 0x3a

/-- What a process finds around it: the static array of `tokenize`, the variable PATH, and
whether `execv` of a path with these arguments succeeds, so that it does not return. -/
structure Env where
  token : Vector UInt8 nMax
  path : Option Str
  execv : Str → List Str → Bool

/-- What a process has come to: its redirections, and the paths it has given to `execv`. -/
structure Launch where
  input : Option Str
  output : Option Str
  tried : List Str

/-- `strcpy` into an array of this size, and the string it holds from then on. -/
def strcpy (size : Nat) (s : Str) : Except Stop Str :=
  if s.length < size then .ok s else .error (.outOfBounds .write)

def isRedirection (token : Str) : Bool := token = lessThan ∨ token = greaterThan

/-- The loop that fills argv[1024], with the arguments it has stored: these and the tokens
left. -/
def storeArgs : List Str → List Str → Except Stop (List Str × List Str)
  | argv, [] => if argv.length < 1024 then .ok (argv, []) else .error (.outOfBounds .write)
  | argv, token :: tokens =>
      if argv.length < 1024 then
        if isRedirection token then .ok (argv, token :: tokens) else storeArgs (argv ++ [token]) tokens
      else .error (.outOfBounds .write)

/-- The loop over the tokens left: each by the one before it. -/
def redirect : Option Str → List Str → Launch → Except Stop Launch
  | _, [], launch => .ok launch
  | none, _ :: _, _ => .error .null
  | some lastToken, token :: tokens, launch =>
      if lastToken = lessThan then do
        let input ← strcpy 100 token
        redirect (some token) tokens { launch with input := some input }
      else if lastToken = greaterThan then do
        let output ← strcpy 100 token
        redirect (some token) tokens { launch with output := some output }
      else redirect (some token) tokens launch

def entries (path : Str) : List Str := (path.splitOn colon).filter (· ≠ [])

/-- The loop over the entries of PATH, with abs_path[1024]. -/
def tryEntries (execv : Str → List Str → Bool) (name : Str) (args : List Str) : List Str → Except Stop (List Str)
  | [] => .ok []
  | entry :: more => do
      let absPath ← strcpy 1024 entry
      let absPath ← strcpy 1024 (absPath ++ [slash])
      let absPath ← strcpy 1024 (absPath ++ name)
      if execv absPath (absPath :: args) then return [absPath]
      else
        let tried ← tryEntries execv name args more
        return absPath :: tried

def launchProgram (env : Env) (argv : List Str) (launch : Launch) : Except Stop Launch :=
  match argv with
  | [] => .error .null
  | program :: args =>
      if slash ∈ program then .ok { launch with tried := [program] }
      else
        match env.path with
        | none => .error .null
        | some path => do
            let name ← strcpy 100 program
            let tried ← tryEntries env.execv name args (entries path)
            return { launch with tried }

/-- `execute_single_process` behind its call of `tokenize`. -/
def executeTokens (env : Env) (tokens : List Str) : Except Stop Launch := do
  let (argv, rest) ← storeArgs [] tokens
  let launch ← redirect argv.getLast? rest ⟨none, none, []⟩
  launchProgram env argv launch

def executeSingleProcess (env : Env) (cmd : Str) : Except Stop Launch := do
  let tokens ← tokenize env.token (cmd.length + 1) cmd
  executeTokens env tokens

/-- `execute_progs`, in the process that has already set up so many pipes: what becomes of
each process. `fork` tells of each attempt whether it succeeds. -/
def executeProgs (env : Env) (fork : Nat → Bool) (pipes : Nat) (line : Str) : List (Except Stop Launch) :=
  let pos := findBar line 0
  if pos = 0 then [executeSingleProcess env line]
  else if 1024 ≤ pos then [.error (.outOfBounds .write)]
  else if _h : line.length < pos + 2 then [.error (.outOfBounds .read)]
  else if 4096 ≤ line.length - (pos + 2) then [.error (.outOfBounds .write)]
  else if fork pipes then
    executeSingleProcess env (line.take pos) :: executeProgs env fork (pipes + 1) (line.drop (pos + 2))
  else []
termination_by line.length
decreasing_by
  rw [List.length_drop]
  omega

def Safe (outcome : Except Stop Launch) : Prop := Ends (· = .aborted) (fun _ => True) outcome

section Conditions

/-- The entries of PATH, up to one where the program runs, leave room for its name. -/
def Fit (execv : Str → List Str → Bool) (program : Str) (args : List Str) : List Str → Prop
  | [] => True
  | entry :: more =>
      let absPath := entry ++ [slash] ++ program
      absPath.length < 1024 ∧ (execv absPath (absPath :: args) = false → Fit execv program args more)

def args (tokens : List Str) : List Str := tokens.takeWhile (!isRedirection ·)

def Found (env : Env) (argv : List Str) : Prop :=
  ∀ program rest, argv = program :: rest → slash ∉ program →
    ∃ path, env.path = some path ∧ program.length ≤ 99 ∧ Fit env.execv program rest (entries path)

def FilesFit (tokens : List Str) : Prop :=
  ∀ operator file, (operator, file) ∈ tokens.zip tokens.tail → isRedirection operator → file.length ≤ 99

/-- The tokens of a command that can be run: it does not start with a redirection and has at most
1023 arguments before one, the files have names of at most 99 characters, and so has a program
that has to be looked for. -/
structure Sound (env : Env) (tokens : List Str) : Prop where
  command : args tokens ≠ []
  few : (args tokens).length ≤ 1023
  files : FilesFit tokens
  found : Found env (args tokens)

/-- The words of a stage are such a command, where the tokenizer does not give up on it. -/
def SoundStage (env : Env) (cmd : Str) : Prop :=
  ∀ tokens, tokenize env.token (cmd.length + 1) cmd = .ok tokens → Sound env tokens

/-- A line whose stages are sound, each at most 1023 characters long before a `'|'`, and not
with that at the end of the line. -/
inductive Sane (env : Env) (fork : Nat → Bool) : Nat → Str → Prop where
  | last {pipes : Nat} {line : Str} : bar ∉ line ∨ line.head? = some bar → SoundStage env line →
      Sane env fork pipes line
  | first {pipes : Nat} {stage rest : Str} {c : UInt8} : bar ∉ stage → stage ≠ [] → stage.length ≤ 1023 →
      (fork pipes = true → SoundStage env stage) → (fork pipes = true → Sane env fork (pipes + 1) rest) →
      Sane env fork pipes (stage ++ bar :: c :: rest)

end Conditions
end Execute
end CS162.Shell
