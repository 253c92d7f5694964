import CS162.Library.LittleEndian
import CS162.Library.MachineInt
import CS162.Pintos.RandomBytes
import CS162.Pintos.StringTokens

/-!
The kernel's command line (proj-pregame: utils/Pintos.pm, which writes it into the boot
sector, and `read_command_line`, `parse_options` and `run_actions` of threads/init.c). The
memory is that of the boot sector from the number of arguments on, and a pointer is an index
into it; `argv` is the list of its pointers before the first null pointer. The kernel is built
with THREADS, USERPROG and FILESYS. What the actions do is left out, and so is what the options
print.
-/

namespace CS162.Pintos.CommandLine
open CS162.Library CArray Strings

abbrev Word := List UInt8

def literal (s : String) : Word := s.toList.map fun c => UInt8.ofNat c.toNat

/-- What stops the kernel: an access outside of an array, an assertion, an `int` that overflows,
the help message, or a panic. -/
inductive Halt where
  | outside (access : OutOfBounds)
  | assertion
  | overflow
  | usage
  | panic (message : Word)
  deriving DecidableEq

def access {α : Type} (x : Except OutOfBounds α) : Except Halt α := x.mapError .outside

/-- The string that a pointer points to. -/
def contents (mem : CArray) (p : Nat) : Except Halt Word := access (string (mem.drop p))

section Reading

def loaderArgsLen : Nat := 128

/-- `make_kernel_command_line`, which dies if the arguments are too long. -/
def makeKernelCommandLine (args : List Word) : Option CArray :=
  let bytes := args.flatMap (· ++ [0])
  if bytes.length > loaderArgsLen then none
  else some (toBytes 4 args.length ++ bytes ++ List.replicate (loaderArgsLen - bytes.length) 0)

/-- How many elements `argv` has. -/
def argvLen : Nat := loaderArgsLen / 2 + 1

/-- `strnlen`, which reads a byte before it looks at the limit. -/
def strnlen : CArray → (maxlen : Nat) → Except OutOfBounds Nat
  | [], _ => .error .read
  | _ :: _, 0 => .ok 0
  | c :: s, maxlen + 1 => if c = 0 then .ok 0 else (strnlen s maxlen).map (· + 1)

/-- The first loop of `read_command_line` for so many arguments, and the null pointer behind them. -/
def readArguments (mem : CArray) (finish : Nat) : Nat → (p : Nat) → (argv : List Nat) → Except Halt (List Nat)
  | 0, _, argv => if argv.length < argvLen then .ok argv else .error (.outside .write)
  | n + 1, p, argv =>
      if p ≥ finish then .error (.panic (literal "command line arguments overflow"))
      else if argv.length < argvLen then do
        let length ← access (strnlen (mem.drop p) (finish - p))
        readArguments mem finish n (p + length + 1) (argv ++ [p])
      else .error (.outside .write)

/-- What the second loop prints. -/
def printArguments (mem : CArray) : List Nat → Except Halt Word
  | [] => .ok (literal "\n")
  | p :: argv => do
      let blank ← access (strchr (mem.drop p) 32)
      let word ← contents mem p
      let rest ← printArguments mem argv
      if blank = none then return literal " " ++ word ++ rest
      else return literal " '" ++ word ++ literal "'" ++ rest

/-- `read_command_line`: `argv`, and what is printed. -/
def readCommandLine (mem : CArray) : Except Halt (List Nat × Word) := do
  let count ← access (slice mem 0 4)
  let argc := toInt32 (ofBytes count)
  if argc < 0 then .error (.outside .write)
  else
    let argv ← readArguments mem (4 + loaderArgsLen) argc.toNat 4 []
    let text ← printArguments mem argv
    return (argv, literal "Kernel command line:" ++ text)

end Reading

section Options

def isspace (c : UInt8) : Bool := c = 32 || (9 ≤ c && c ≤ 13)

def isdigit (c : UInt8) : Bool := 48 ≤ c && c ≤ 57

/-- The digits of `atoi`, read as a negative number. -/
def parseDigits : Int → Word → Except Halt Int
  | value, [] => .ok value
  | value, c :: s =>
      if isdigit c then
        let value := value * 10 - (c.toNat - 48)
        if value < -2 ^ 31 then .error .overflow else parseDigits value s
      else .ok value

/-- The sign, and what follows it. -/
def parseSign : Word → Bool × Word
  | [] => (false, [])
  | c :: s => if c = 43 then (false, s) else if c = 45 then (true, s) else (false, c :: s)

def atoi (s : Word) : Except Halt Int := do
  let (negative, s) := parseSign (s.dropWhile isspace)
  let value ← parseDigits 0 s
  if negative then return value
  else if -value > intMax then .error .overflow
  else return -value

/-- `enum shutdown_type` -/
inductive ShutdownType where
  | none
  | powerOff
  | reboot
  deriving DecidableEq

/-- `enum sched_policy` -/
inductive SchedPolicy where
  | fifo
  | prio
  | fair
  | mlfqs
  deriving DecidableEq

/-- The value of the constant. -/
def SchedPolicy.index : SchedPolicy → Nat
  | .fifo => 0
  | .prio => 1
  | .fair => 2
  | .mlfqs => 3

/-- What the options set; names of devices are pointers, or what these point to. -/
structure Options (ν : Type) where
  how : ShutdownType
  formatFilesys : Bool
  filesysBdevName : Option ν
  scratchBdevName : Option ν
  userPageLimit : Nat
  random : Option Random.State
  schedulerFlags : List Bool

/-- What they are before. -/
def Options.initial {ν : Type} : Options ν where
  how := .none
  formatFilesys := false
  filesysBdevName := none
  scratchBdevName := none
  userPageLimit := 2 ^ 32 - 1
  random := none
  schedulerFlags := List.replicate 8 false

variable {ν : Type}

def Options.setScheduler (o : Options ν) (policy : SchedPolicy) : Options ν :=
  { o with schedulerFlags := o.schedulerFlags.set policy.index true }

/-- The value of an option that has to have one. -/
def argument (contents : ν → Except Halt Word) (value : Option ν) : Except Halt Word :=
  value.elim (.error .assertion) contents

/-- What the body of the loop in `parse_options` does with the name and the value of an option. -/
def parseOption (contents : ν → Except Halt Word) (o : Options ν) (name : Word) (value : Option ν) :
    Except Halt (Options ν) :=
  if name = literal "-h" then .error .usage
  else if name = literal "-q" then .ok { o with how := .powerOff }
  else if name = literal "-r" then .ok { o with how := .reboot }
  else if name = literal "-f" then .ok { o with formatFilesys := true }
  else if name = literal "-filesys" then .ok { o with filesysBdevName := value }
  else if name = literal "-scratch" then .ok { o with scratchBdevName := value }
  else if name = literal "-rs" then do
    let seed ← argument contents value >>= atoi
    return { o with random := some (Random.randomInit (UInt32.ofInt seed)) }
  else if name = literal "-sched" then do
    let policy ← argument contents value
    if policy = literal "fifo" then return o.setScheduler .fifo
    else if policy = literal "prio" then return o.setScheduler .prio
    else if policy = literal "fair" then return o.setScheduler .fair
    else if policy = literal "mlfqs" then return o.setScheduler .mlfqs
    else .error (.panic (literal "unknown scheduler option `" ++ policy ++ literal "' (use -h for help)"))
  else if name = literal "-ul" then do
    let limit ← argument contents value >>= atoi
    return { o with userPageLimit := toUInt32 limit }
  else .error (.panic (literal "unknown option `" ++ name ++ literal "' (use -h for help)"))

/-- The loop of `parse_options`: the memory, the options, and the arguments that are left. -/
def optionLoop : CArray → Options Nat → List Nat → Except Halt (CArray × Options Nat × List Nat)
  | mem, o, [] => .ok (mem, o, [])
  | mem, o, p :: argv => do
      let c ← access (load mem p)
      if c = 45 then
        let (name, savePtr, mem) ← access (strtokR mem (some p) [61, 0] 0)
        let (value, _, mem) ← access (strtokR mem none [0] savePtr)
        let name ← argument (contents mem) name
        let o ← parseOption (contents mem) o name value
        optionLoop mem o argv
      else return (mem, o, p :: argv)

/-- `active_sched_policy` for these flags. -/
def activeSchedPolicy (flags : List Bool) : Except Halt SchedPolicy :=
  let schedFlagsSet := flags.count true
  if schedFlagsSet = 0 then .ok .fifo
  else if schedFlagsSet > 1 then
    .error (.panic (literal "too many scheduler flags set: set at most one of \"-sched-fifo\", \"-sched-prio\", " ++
      literal "\"-sched-fair\", \"-sched-mlfqs\""))
  else if flags.getD SchedPolicy.fifo.index false then .ok .fifo
  else if flags.getD SchedPolicy.prio.index false then .ok .prio
  else if flags.getD SchedPolicy.fair.index false then .ok .fair
  else if flags.getD SchedPolicy.mlfqs.index false then .ok .mlfqs
  else .error (.panic (literal "kernel bug in init.c: unreachable case"))

/-- What `parse_options` does behind its loop; `now` is what `rtc_get_time` returns. -/
def chooseScheduler (now : UInt32) (o : Options ν) : Except Halt (Options ν × SchedPolicy) := do
  let policy ← activeSchedPolicy o.schedulerFlags
  return ({ o with random := some (Random.randomInit now) }, policy)

end Options

section Actions

/-- The functions that carry out actions. -/
inductive Task where
  | runTask
  | runUserprogKernelTask
  | runThreadsKernelTask
  | fsutilLs
  | fsutilCat
  | fsutilRm
  | fsutilExtract
  | fsutilAppend
  deriving DecidableEq

/-- `struct action` -/
structure Action where
  name : Word
  argc : Nat
  function : Task

def actions : List Action :=
  [⟨literal "run", 2, .runTask⟩, ⟨literal "rukt", 2, .runUserprogKernelTask⟩,
    ⟨literal "rtkt", 2, .runThreadsKernelTask⟩, ⟨literal "ls", 1, .fsutilLs⟩, ⟨literal "cat", 2, .fsutilCat⟩,
    ⟨literal "rm", 2, .fsutilRm⟩, ⟨literal "extract", 1, .fsutilExtract⟩, ⟨literal "append", 2, .fsutilAppend⟩]

/-- What happens when the actions are run: one is carried out with its arguments, or the kernel stops. -/
inductive Event where
  | invoke (function : Task) (arguments : List Word)
  | halt (reason : Halt)

variable {ν : Type}

def runActions (contents : ν → Except Halt Word) : List ν → List Event
  | [] => []
  | p :: argv =>
      match contents p with
      | .error reason => [.halt reason]
      | .ok word =>
          match actions.find? (·.name = word) with
          | none => [.halt (.panic (literal "unknown action `" ++ word ++ literal "' (use -h for help)"))]
          | some a =>
              if argv.length < a.argc - 1 then
                [.halt (.panic (literal "action `" ++ word ++ literal "' requires " ++
                  [UInt8.ofNat (48 + (a.argc - 1))] ++ literal " argument(s)"))]
              else
                match (argv.take (a.argc - 1)).mapM contents with
                | .error reason => [.halt reason]
                | .ok arguments => .invoke a.function arguments :: runActions contents (argv.drop (a.argc - 1))
termination_by argv => argv.length
decreasing_by rw [List.length_drop, List.length_cons]; omega

end Actions

section Boot

/-- What the command line says: options, a scheduler and actions. -/
structure Boot where
  options : Options Word
  policy : SchedPolicy
  events : List Event

/-- The options with the names that pointers point to. -/
def Options.read {ν : Type} (contents : ν → Except Halt Word) (o : Options ν) : Except Halt (Options Word) := do
  let filesys ← o.filesysBdevName.mapM contents
  let scratch ← o.scratchBdevName.mapM contents
  return { o with filesysBdevName := filesys, scratchBdevName := scratch }

/-- The part of `main` that the command line decides about. -/
def boot (mem : CArray) (now : UInt32) : Except Halt Boot := do
  let (argv, _) ← readCommandLine mem
  let (mem, o, argv) ← optionLoop mem .initial argv
  let (o, policy) ← chooseScheduler now o
  let options ← o.read (contents mem)
  return ⟨options, policy, runActions (contents mem) argv⟩

end Boot

section Words

/-- The name of an option, and its value behind a '='. -/
def nameOf (word : Word) : Word := word.takeWhile (· ≠ 61)

def valueOf (word : Word) : Option Word :=
  let value := (word.dropWhile (· ≠ 61)).drop 1
  if value = [] then none else some value

/-- What words say, of which those in front are options that start with a '-'. -/
def parseWords : Options Word → List Word → Except Halt (Options Word × List Word)
  | o, [] => .ok (o, [])
  | o, word :: words =>
      if word.head? = some 45 then do
        let o ← parseOption .ok o (nameOf word) (valueOf word)
        parseWords o words
      else .ok (o, word :: words)

def bootWords (words : List Word) (now : UInt32) : Except Halt Boot := do
  let (o, words) ← parseWords .initial words
  let (o, policy) ← chooseScheduler now o
  return ⟨o, policy, runActions .ok words⟩

/-- How the kernel prints its command line. -/
def shown (words : List Word) : Word :=
  literal "Kernel command line:" ++ words.flatMap (fun word =>
    if 32 ∈ word then literal " '" ++ word ++ literal "'" else literal " " ++ word) ++ literal "\n"

end Words
end CS162.Pintos.CommandLine
