import CS162.Library.LittleEndian
import CS162.Library.MachineInt
import CS162.Pintos.Inode

/-!
What the system calls of hw-memory do with the memory of the process that calls them
(Pintos: syscall.c, string.c, console.c, ide.c and page_fault of exception.c): which
addresses the kernel reads and writes for it, and which locks it holds then.

The results of the calls are left out, and so is `syscall_sbrk`, which touches no
address of the process. Nothing changes the process's memory before the kernel has read
all it reads of it. A page fault of the kernel at a user address ends the process, at
another address it stops the kernel.
-/

namespace CS162.Pintos.HwMemory
open CS162.Library

/-- The memory as the kernel sees it while the process is active. -/
structure UserMemory where
  byte : Nat → Option UInt8
  writable : Nat → Bool

def UserMemory.readable (u : UserMemory) (addr : Nat) : Bool := (u.byte addr).isSome

/-- The lock of the disk's channel and the console lock. -/
inductive Lock where
  | channel
  | console
  deriving DecidableEq

/-- The addresses used for the process, the last one first, and the locks its thread
holds. -/
structure Kernel where
  accesses : List Nat
  locks : List Lock

/-- The process was ended by `syscall_exit`, or the kernel stopped. -/
inductive Stop where
  | exited
  | panicked
  deriving DecidableEq

abbrev Effect (α : Type) := Except (Stop × Kernel) α

section Memory
variable (u : UserMemory)

def access (allowed : Bool) (addr : Nat) (k : Kernel) : Effect Kernel :=
  let k := { k with accesses := addr :: k.accesses }
  if allowed then .ok k
  else if addr < physBase then .error (.exited, k)
  else .error (.panicked, k)

def touch (allowed : Nat → Bool) : (left addr : Nat) → Kernel → Effect Kernel
  | 0, _, k => .ok k
  | left + 1, addr, k => do
      let k ← access (allowed addr) addr k
      touch allowed left ((addr + 1) % 2 ^ 32) k

/-- The word at an address, as the kernel reads it if it can. -/
def word (addr : Nat) : Nat :=
  ofBytes ((List.range 4).map fun i => (u.byte ((addr + i) % 2 ^ 32)).getD 0)

def checkUserBuffer (buffer length : Nat) (k : Kernel) : Effect Kernel :=
  let delta := toUInt32 (physBase - buffer)
  if ¬ buffer < physBase ∨ length > delta then .error (.exited, k) else .ok k

/-- The loop of `strnlen`, where `left` is what `length` lacks to `maxlen`. -/
def strnlen (string : Nat) : (left length : Nat) → Kernel → Effect (Nat × Kernel)
  | left, length, k => do
      let addr := (string + length) % 2 ^ 32
      let k ← access (u.readable addr) addr k
      if u.byte addr = some 0 then .ok (length, k)
      else
        match left with
        | 0 => .ok (length, k)
        | left + 1 => strnlen string left (length + 1) k

def checkUserString (string : Nat) (k : Kernel) : Effect Kernel :=
  let delta := toUInt32 (physBase - string)
  if ¬ string < physBase then .error (.exited, k)
  else do
    let (length, k) ← strnlen u string delta 0 k
    if length = delta then .error (.exited, k) else .ok k

/-- `strcmp` of a string of the process with a name of the directory: whether they
are the same. -/
def strcmp (string : Nat) : (name : List UInt8) → Kernel → Effect (Bool × Kernel)
  | name, k => do
      let k ← access (u.readable string) string k
      match name with
      | [] => .ok (u.byte string = some 0, k)
      | b :: name =>
          if u.byte string ≠ some 0 ∧ u.byte string = some b then
            strcmp ((string + 1) % 2 ^ 32) name k
          else .ok (u.byte string = some b, k)

/-- `lookup`, over the names in use that it comes to. -/
def lookup (string : Nat) : List (List UInt8) → Kernel → Effect Kernel
  | [], k => .ok k
  | name :: names, k => do
      let (same, k) ← strcmp u string name k
      if same then .ok k else lookup string names k

end Memory

section Devices
variable (u : UserMemory)

/-- What is done between `lock_acquire` and `lock_release`. -/
def holding (lock : Lock) (body : Kernel → Effect Kernel) (k : Kernel) : Effect Kernel := do
  let k ← body { k with locks := lock :: k.locks }
  .ok { k with locks := k.locks.erase lock }

/-- `ide_read` or `ide_write` with a buffer of the kernel. -/
def ideTransfer (k : Kernel) : Effect Kernel := holding .channel .ok k

def putbuf (buffer n : Nat) (k : Kernel) : Effect Kernel :=
  holding .console (touch u.readable n buffer) k

structure OpenFile where
  inode : Inode
  pos : Nat

/-- A chunk of `inode_read_at`: a full sector is read by the driver into the process's
buffer. -/
def readUserChunk (device buffer : Nat) (c : Chunk) (k : Kernel) : Effect Kernel :=
  let addr := (buffer + c.done) % 2 ^ 32
  if c.sector ≥ device then .error (.panicked, k)
  else if c.full then holding .channel (touch u.writable c.size addr) k
  else do
    let k ← ideTransfer k
    touch u.writable c.size addr k

/-- The bounce buffer for a chunk of a write starts with the sector, if the chunk leaves
some of it. -/
def fillBounce (c : Chunk) (k : Kernel) : Effect Kernel :=
  if c.sectorOfs > 0 ∨ c.size < sectorSize - c.sectorOfs then ideTransfer k else .ok k

/-- A chunk of `inode_write_at`. -/
def writeUserChunk (device buffer : Nat) (c : Chunk) (k : Kernel) : Effect Kernel :=
  let addr := (buffer + c.done) % 2 ^ 32
  if c.sector ≥ device then .error (.panicked, k)
  else if c.full then holding .channel (touch u.readable c.size addr) k
  else do
    let k ← fillBounce c k
    let k ← touch u.readable c.size addr k
    ideTransfer k

/-- `file_read` and `file_write`, by what they do with a chunk. The size is converted
to an `off_t`. -/
def fileTransfer (chunk : Chunk → Kernel → Effect Kernel) (file : OpenFile) (alloc : Bool)
    (size : Nat) (k : Kernel) : Effect Kernel := do
  let size := (toInt32 size).toNat
  let (_, _, k) ← transfer file.inode.data chunk alloc size size file.pos 0 false k
  .ok k

end Devices

def sysExit : Nat := 1
def sysOpen : Nat := 6
def sysRead : Nat := 8
def sysWrite : Nat := 9
def sysClose : Nat := 12
def sysSbrk : Nat := 14

/-- A system call: what the process presents, and what of the kernel's state the
handlers depend on. -/
structure Call where
  user : UserMemory
  esp : Nat
  file : Option OpenFile
  /-- The names that `lookup` compares with. -/
  names : List (List UInt8)
  /-- The number of sectors of the file system device. -/
  device : Nat
  /-- Whether there is memory for a bounce buffer. -/
  alloc : Bool

def syscallOpen (c : Call) (filename : Nat) (k : Kernel) : Effect Kernel :=
  if c.file.isSome then .ok k else lookup c.user filename c.names k

def syscallWrite (c : Call) (fd buffer size : Nat) (k : Kernel) : Effect Kernel :=
  if fd = 1 then putbuf c.user buffer size k
  else
    match c.file with
    | none => .ok k
    | some file =>
        if fd ≠ 2 then .ok k
        else if file.inode.denyWriteCnt ≠ 0 then .ok k
        else fileTransfer (writeUserChunk c.user c.device buffer) file c.alloc size k

def syscallRead (c : Call) (fd buffer size : Nat) (k : Kernel) : Effect Kernel :=
  match c.file with
  | none => .ok k
  | some file =>
      if fd ≠ 2 then .ok k
      else fileTransfer (readUserChunk c.user c.device buffer) file c.alloc size k

/-- Checks that argument words are in user memory and reads them. -/
def arguments (c : Call) (addr count : Nat) (k : Kernel) : Effect Kernel := do
  let k ← checkUserBuffer addr (4 * count) k
  touch c.user.readable (4 * count) addr k

def arg (c : Call) (i : Nat) : Nat := word c.user ((c.esp + 4 * i) % 2 ^ 32)

/-- A buffer whose address and size are arguments. -/
def bufferCall (c : Call) (handler : Nat → Nat → Nat → Kernel → Effect Kernel) (k : Kernel) :
    Effect Kernel := do
  let k ← arguments c ((c.esp + 4) % 2 ^ 32) 3 k
  let k ← checkUserBuffer (arg c 2) (arg c 3) k
  handler (arg c 1) (arg c 2) (arg c 3) k

def syscallHandler (c : Call) (k : Kernel) : Effect Kernel := do
  let k ← arguments c c.esp 1 k
  if arg c 0 = sysExit then
    let k ← arguments c ((c.esp + 4) % 2 ^ 32) 1 k
    .error (.exited, k)
  else if arg c 0 = sysOpen then
    let k ← arguments c ((c.esp + 4) % 2 ^ 32) 1 k
    let k ← checkUserString c.user (arg c 1) k
    syscallOpen c (arg c 1) k
  else if arg c 0 = sysWrite then bufferCall c (syscallWrite c) k
  else if arg c 0 = sysRead then bufferCall c (syscallRead c) k
  else if arg c 0 = sysClose ∨ arg c 0 = sysSbrk then arguments c ((c.esp + 4) % 2 ^ 32) 1 k
  else .ok k

def Call.run (c : Call) : Effect Kernel := syscallHandler c ⟨[], []⟩

end CS162.Pintos.HwMemory
