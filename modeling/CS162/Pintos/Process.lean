import CS162.Pintos.FileSystemLaw
import CS162.Pintos.Loader
import CS162.Pintos.Syscall

/-!
A process of hw-memory from start_process to thread_exit, with what its system calls do
to its pages and to its open file (Pintos: process.c, syscall.c, exception.c, thread.c).

The code of the process is left open: it stores what it likes, it makes any system call
with any stack pointer, and it ends in one of the ways the kernel knows, which all come
to `thread_exit`. `Syscall` says which addresses the kernel uses for it; its records of
these are not kept here. Other threads use the file system and the pools between its
steps. An assertion that fails stops the kernel.
-/

namespace CS162.Pintos
open CS162.Library

section Heap

/-- `unallocate` after a page that could not be had. -/
def AddressSpace.rollBack (s : AddressSpace) (start : Nat) (size : Int) :
    Except Fault (Bool × AddressSpace) :=
  match unallocateFrom start size 0 s.mem with
  | .error fault => .error fault
  | .ok m => .ok (true, { s with mem := m })

/-- The loop of `allocate`, with the pages that page tables take. -/
def AddressSpace.allocateFrom (start : Nat) (size : Int) (grants : Nat → PageGrant) (i : Nat)
    (s : AddressSpace) : Except Fault (Bool × AddressSpace) :=
  if (pgsize : Int) * i > intMax then .error .intOverflow
  else if (pgsize : Int) * i ≤ size then
    let upage := (start + pgsize * i) % 2 ^ 32
    match pallocGetPage s.mem true (grants i).frameGrant with
    | none => s.rollBack start size
    | some (kpage, m) =>
        match { s with mem := m }.setPage upage kpage true (grants i) with
        | .error fault => .error fault
        | .ok (false, s) =>
            match pallocFreePage s.mem (some kpage) with
            | .error fault => .error fault
            | .ok m => { s with mem := m }.rollBack start size
        | .ok (true, s) => allocateFrom start size grants (i + 1) s
  else .ok (false, s)
termination_by (size + 1 - pgsize * i).toNat
decreasing_by
  simp only [pgsize] at *
  omega

def AddressSpace.allocate (s : AddressSpace) (start stop : Nat) (grants : Nat → PageGrant) :
    Except Fault (Bool × AddressSpace) :=
  s.allocateFrom start (toInt32 (stop - start)) grants 0

end Heap

namespace HwMemory
open ProjPregame (Pools poolsOf)
open FileSystem (FileSys File)

/-- The fields of the process's `struct thread`. -/
structure Process where
  space : AddressSpace
  heapStart : Nat
  heapBreak : Nat
  openFile : Option File

structure Running where
  process : Process
  fs : FileSys

/-- What a thread has when it calls `thread_exit`: its page directory, or the pools if
there is none, and its file. -/
structure Ending where
  memory : Pools ⊕ AddressSpace
  openFile : Option File
  fs : FileSys

/-- The thread exits, or the kernel stops. -/
inductive Halt where
  | exits (last : Ending)
  | stops

section Memory
variable (p : Process)

def Process.thread : Thread where
  mem := p.space.mem
  heapStart := p.heapStart
  heapBreak := p.heapBreak

def Process.withMem (m : Memory) : Process := { p with space := { p.space with mem := m } }

/-- The memory as the kernel sees it, with its own part above `PHYS_BASE`. -/
def Process.user (high : Nat → Option UInt8) : UserMemory where
  byte addr :=
    if addr < physBase then
      (entry p.space.mem.pagedir (pgNo addr)).map fun pte => p.space.mem.frames pte.frame (pgOfs addr)
    else high addr
  writable addr :=
    if addr < physBase then (entry p.space.mem.pagedir (pgNo addr)).any Pte.writable
    else (high addr).isSome

def Process.store (addr : Nat) (byte : UInt8) : Option Process :=
  (userStore p.thread addr byte).map fun t => p.withMem t.mem

/-- `syscall_sbrk` from its check on, with the pages that the old and the new break end in. -/
def Process.moveBreak (increment : Int) (grants : Nat → PageGrant) (new prevPage newPage : Nat) :
    Except Fault (Nat × Process) :=
  if increment = 0 then .ok (p.heapBreak, p)
  else if increment > 0 then
    if p.heapBreak = p.heapStart ∨ prevPage ≠ newPage then
      match p.space.allocate (toUInt32 (prevPage + pgsize)) newPage grants with
      | .error fault => .error fault
      | .ok (true, space) => .ok (sbrkFailed, { p with space := space })
      | .ok (false, space) => .ok (p.heapBreak, { p with space := space, heapBreak := new })
    else .ok (p.heapBreak, { p with heapBreak := new })
  else if new = p.heapStart ∨ prevPage ≠ newPage then
    match unallocate p.space.mem (toUInt32 (newPage + pgsize)) prevPage with
    | .error fault => .error fault
    | .ok m => .ok (p.heapBreak, { p.withMem m with heapBreak := new })
  else .ok (p.heapBreak, { p with heapBreak := new })

def Process.syscallSbrk (increment : Int) (grants : Nat → PageGrant) : Except Fault (Nat × Process) :=
  let new := toUInt32 (toInt32 p.heapBreak + increment)
  if toInt32 new < toInt32 p.heapStart then .ok (sbrkFailed, p)
  else
    p.moveBreak increment grants new (pgRoundDown (toUInt32 (p.heapBreak - 1)))
      (pgRoundDown (toUInt32 (new - 1)))

end Memory

section Transfers

/-- The bytes of a string, up to its end. -/
def UserMemory.string (u : UserMemory) : (left addr : Nat) → List UInt8
  | 0, _ => []
  | left + 1, addr =>
      match u.byte addr with
      | none => []
      | some b => if b = 0 then [] else b :: u.string left ((addr + 1) % 2 ^ 32)

def noAccesses : Kernel := ⟨[], []⟩

/-- Stores of bytes by the kernel. A page fault at an address of the process ends it, with
what was stored before. -/
def Process.copyOut (bytes : Library.Memory) : (left addr i : Nat) → Process →
    Except (Option Process) Process
  | 0, _, _, p => .ok p
  | left + 1, addr, i, p =>
      match p.store addr (bytes i) with
      | none => .error (if addr < physBase then some p else none)
      | some p => p.copyOut bytes left ((addr + 1) % 2 ^ 32) (i + 1)

/-- A chunk of `inode_read_at`, with the process's buffer. -/
def readToUser (d : Disk) (buffer : Nat) (c : Chunk) (p : Process) : Except (Option Process) Process :=
  match readChunk d c fun _ => 0 with
  | .error _ => .error none
  | .ok bytes => p.copyOut bytes c.size ((buffer + c.done) % 2 ^ 32) c.done

/-- A chunk of `inode_write_at`. Nothing of the chunk is written if the process's buffer
faults. -/
def writeFromUser (u : UserMemory) (buffer : Nat) (c : Chunk) (d : Disk) : Except (Option Disk) Disk :=
  if c.sector ≥ d.size then .error none
  else
    match touch u.readable c.size ((buffer + c.done) % 2 ^ 32) noAccesses with
    | .error (.exited, _) => .error (some d)
    | .error (.panicked, _) => .error none
    | .ok _ =>
        match writeChunk (fun i => (u.byte ((buffer + i) % 2 ^ 32)).getD 0) c d with
        | .error _ => .error none
        | .ok d => .ok d

end Transfers

namespace Running
variable (r : Running)

def exit : Halt := .exits ⟨.inr r.process.space, r.process.openFile, r.fs⟩

/-- `page_fault` for an access of the kernel that is not allowed. -/
def guard {α : Type} : Effect α → Except Halt α
  | .ok a => .ok a
  | .error (.exited, _) => .error r.exit
  | .error (.panicked, _) => .error .stops

def syscallOpen (name : List UInt8) : Except Halt (Int × Running) :=
  if r.process.openFile.isSome then .ok (-1, r)
  else
    match r.fs.filesysOpen name with
    | .error _ => .error .stops
    | .ok (none, fs) => .ok (-1, ⟨r.process, fs⟩)
    | .ok (some file, fs) => .ok (2, ⟨{ r.process with openFile := some file }, fs⟩)

/-- The open file behind a transfer. If the process's buffer faulted, it ends with what was
transferred before. -/
def afterTransfer {σ : Type} (file : File) (resume : σ → Running) :
    Except (Option σ) (Nat × Bool × σ) → Except Halt (Int × Running)
  | .error (some s) => .error (resume s).exit
  | .error none => .error .stops
  | .ok (n, _, s) => .ok (n, ⟨{ (resume s).process with openFile := some ⟨file.inode, file.pos + n⟩ },
      (resume s).fs⟩)

/-- `file_write` of the open file, with its size as an `off_t`. -/
def fileWrite (u : UserMemory) (file : File) (buffer size : Nat) : Except Halt (Int × Running) :=
  match r.fs.inodes file.inode with
  | none => .error .stops
  | some inode =>
      if inode.denyWriteCnt ≠ 0 then .ok (0, ⟨r.process, r.fs.malloc.2⟩)
      else
        afterTransfer file (fun d => ⟨r.process, { r.fs.malloc.2 with device := d }⟩)
          (transfer inode.data (writeFromUser u buffer) r.fs.malloc.1 size size file.pos 0 false
            r.fs.device)

def fileRead (file : File) (buffer size : Nat) : Except Halt (Int × Running) :=
  match r.fs.inodes file.inode with
  | none => .error .stops
  | some inode =>
      afterTransfer file (fun p => ⟨p, r.fs.malloc.2⟩)
        (transfer inode.data (readToUser r.fs.device buffer) r.fs.malloc.1 size size file.pos 0 false
          r.process)

def syscallWrite (u : UserMemory) (fd buffer size : Nat) : Except Halt (Int × Running) :=
  if fd = 1 then do
    let _ ← r.guard (putbuf u buffer size noAccesses)
    .ok (toInt32 size, r)
  else
    match r.process.openFile with
    | none => .ok (-1, r)
    | some file => if fd ≠ 2 then .ok (-1, r) else r.fileWrite u file buffer (toInt32 size).toNat

def syscallRead (fd buffer size : Nat) : Except Halt (Int × Running) :=
  match r.process.openFile with
  | none => .ok (-1, r)
  | some file => if fd ≠ 2 then .ok (-1, r) else r.fileRead file buffer (toInt32 size).toNat

def syscallClose (fd : Nat) : Except Halt Running :=
  match r.process.openFile with
  | none => .ok r
  | some file =>
      if fd = 2 then
        match r.fs.fileClose file with
        | .error _ => .error .stops
        | .ok fs => .ok ⟨{ r.process with openFile := none }, fs⟩
      else .ok r

def syscallSbrk (increment : Int) (grants : Nat → PageGrant) : Except Halt (Int × Running) :=
  (r.process.syscallSbrk increment grants).mapError (fun _ => .stops) |>.map fun x =>
    (x.1, ⟨x.2, r.fs⟩)

/-- Checks that argument words are in user memory and reads them. -/
def arguments (u : UserMemory) (addr count : Nat) : Except Halt Unit := do
  let k ← r.guard (checkUserBuffer addr (4 * count) noAccesses)
  let _ ← r.guard (touch u.readable (4 * count) addr k)
  return ()

/-- A buffer whose address and size are arguments. -/
def bufferCall (u : UserMemory) (esp : Nat) (handler : Nat → Nat → Nat → Except Halt (Int × Running)) :
    Except Halt (Int × Running) := do
  let arg (i : Nat) := word u ((esp + 4 * i) % 2 ^ 32)
  r.arguments u ((esp + 4) % 2 ^ 32) 3
  let _ ← r.guard (checkUserBuffer (arg 2) (arg 3) noAccesses)
  handler (arg 1) (arg 2) (arg 3)

/-- `syscall_handler`, with the result if the call has one. -/
def syscallHandler (high : Nat → Option UInt8) (esp : Nat) (grants : Nat → PageGrant) :
    Except Halt (Option Int × Running) := do
  let u := r.process.user high
  let arg (i : Nat) := word u ((esp + 4 * i) % 2 ^ 32)
  r.arguments u esp 1
  if arg 0 = sysExit then
    r.arguments u ((esp + 4) % 2 ^ 32) 1
    .error r.exit
  else if arg 0 = sysOpen then
    r.arguments u ((esp + 4) % 2 ^ 32) 1
    let _ ← r.guard (checkUserString u (arg 1) noAccesses)
    let (result, r) ← r.syscallOpen (u.string (physBase - arg 1) (arg 1))
    return (some result, r)
  else if arg 0 = sysWrite then
    let (result, r) ← r.bufferCall u esp (r.syscallWrite u)
    return (some result, r)
  else if arg 0 = sysRead then
    let (result, r) ← r.bufferCall u esp r.syscallRead
    return (some result, r)
  else if arg 0 = sysClose then
    r.arguments u ((esp + 4) % 2 ^ 32) 1
    let r ← r.syscallClose (arg 1)
    return (none, r)
  else if arg 0 = sysSbrk then
    r.arguments u ((esp + 4) % 2 ^ 32) 1
    let (result, r) ← r.syscallSbrk (toInt32 (arg 1)) grants
    return (some result, r)
  else return (none, r)

end Running

section Start

/-- The executable, as reads of its file see it. A file's length is an `off_t`. -/
def contents (fs : FileSys) (file : File) : ExecFile where
  bytes := ((fs.inodes file.inode).elim [] fun inode =>
    (List.range inode.data.length).map (fileBytes fs.device inode.data)).take (2 ^ 31 - 1)
  fits := by
    rw [List.length_take]
    omega

/-- `start_process`, which runs `load` and frees the page with the name. The executable is
opened behind `pagedir_create` and closed whatever happens. -/
def startProcess (pools : Pools) (fs : FileSys) (fileName : Nat) (name : List UInt8)
    (grants : LoadGrants) : Except Halt Running :=
  let opened :=
    if (kernelPage pools.kernel grants.directory).isSome then fs.filesysOpen name
    else .ok (none, fs)
  match opened with
  | .error _ => .error .stops
  | .ok (file, fs) =>
      match load (file.map (contents fs)) pools.used pools.frames pools.kernel grants, fs.fileClose file with
      | .ok (_, none), .ok fs =>
          match pools.freeKernelPage fileName with
          | .error _ => .error .stops
          | .ok pools => .error (.exits ⟨.inl pools, none, fs⟩)
      | .ok (start, some s), .ok fs =>
          match freeKernelPage s.space fileName with
          | .error _ => .error .stops
          | .ok space =>
              if start.isSome then .ok ⟨⟨space, s.heapStart, s.heapBreak, none⟩, fs⟩
              else .error (.exits ⟨.inr space, none, fs⟩)
      | _, _ => .error .stops

/-- `process_exit`, to which `thread_exit` comes. The open file stays as it is. -/
def processExit : Pools ⊕ AddressSpace → Except Fault Pools
  | .inl pools => .ok pools
  | .inr space =>
      match pagedirDestroy space with
      | .error fault => .error fault
      | .ok space => .ok (poolsOf space)

end Start

section Life

/-- Where the thread of the process is: about to run `start_process` with the page of its
name, in the process's code, or behind `thread_exit`. Then its `open_file` is what was in
the thread last. -/
inductive Stage where
  | created (pools : Pools) (fileName : Nat)
  | running (process : Process)
  | exited (pools : Pools) (openFile : Option File)

/-- The process, the file system and what other threads own: the inodes that they opened,
one entry for each opener, frames and pages of the kernel pool. -/
structure World where
  stage : Stage
  fs : FileSys
  openers : List Nat
  frames : Nat → Bool
  pages : Nat → Bool

inductive PoolName where
  | user
  | kernel

/-- What happens next: `start_process` runs; the process reads or stores a byte, causes
another exception or makes a system call; other threads call the file system, or take or
free a page. -/
inductive Occurrence where
  | start (name : List UInt8) (grants : LoadGrants)
  | read (addr : Nat)
  | store (addr : Nat) (byte : UInt8)
  | exception
  | syscall (high : Nat → Option UInt8) (esp : Nat) (grants : Nat → PageGrant)
  | others (c : FileSystem.Call)
  | page (pool : PoolName) (n : Nat) (taken : Bool)

namespace Stage

def pools : Stage → Pools
  | .created pools _ | .exited pools _ => pools
  | .running p => poolsOf p.space

def setPools (pools : Pools) : Stage → Stage
  | .created _ fileName => .created pools fileName
  | .running p => .running { p with space :=
      { p.space with mem := ⟨p.space.mem.pagedir, pools.used, pools.frames⟩, kernel := pools.kernel } }
  | .exited _ openFile => .exited pools openFile

def openFile : Stage → Option File
  | .created .. => none
  | .running p => p.openFile
  | .exited _ openFile => openFile

end Stage

namespace World
variable (w : World)

/-- A step in the code of the process. -/
def onProcess (f : Running → Except Halt Running) : Except Halt World :=
  match w.stage with
  | .running p => (f ⟨p, w.fs⟩).map fun r => { w with stage := .running r.process, fs := r.fs }
  | _ => .error .stops

/-- Another thread takes a page that is free, or frees one that it owns. -/
def otherPage (pool : PoolName) (n : Nat) (taken : Bool) : Option World :=
  let pools := w.stage.pools
  match pool with
  | .user =>
      if (if taken then pools.used n = false else w.frames n = true) then
        some { w with
          stage := w.stage.setPools { pools with used := Function.update pools.used n taken }
          frames := Function.update w.frames n taken }
      else none
  | .kernel =>
      if (if taken then pools.kernel n = false else w.pages n = true) then
        some { w with
          stage := w.stage.setPools { pools with kernel := Function.update pools.kernel n taken }
          pages := Function.update w.pages n taken }
      else none

def otherCall (c : FileSystem.Call) : Option World :=
  if FileSystem.Allowed ⟨w.fs, w.openers⟩ c then
    (FileSystem.next ⟨w.fs, w.openers⟩ c).map fun callers =>
      { w with fs := callers.fs, openers := callers.openers }
  else none

def step : Occurrence → Except Halt World
  | .start name grants =>
      match w.stage with
      | .created pools fileName =>
          (startProcess pools w.fs fileName name grants).map fun r =>
            { w with stage := .running r.process, fs := r.fs }
      | _ => .error .stops
  | .read addr => w.onProcess fun r =>
      if ((r.process.user fun _ => none).byte addr).isSome then .ok r else .error r.exit
  | .store addr byte => w.onProcess fun r =>
      match r.process.store addr byte with
      | some p => .ok ⟨p, r.fs⟩
      | none => .error r.exit
  | .exception => w.onProcess fun r => .error r.exit
  | .syscall high esp grants => w.onProcess fun r =>
      (r.syscallHandler high esp grants).map Prod.snd
  | .others c => (w.otherCall c).elim (.error .stops) .ok
  | .page pool n taken => (w.otherPage pool n taken).elim (.error .stops) .ok

/-- What happens next, with `thread_exit` if it comes to that. -/
def next (o : Occurrence) : Option World :=
  match w.step o with
  | .ok w => some w
  | .error .stops => none
  | .error (.exits last) =>
      match processExit last.memory with
      | .error _ => none
      | .ok pools => some { w with stage := .exited pools last.openFile, fs := last.fs }

end World

/-- A process is created while nobody has a file open; the pages in use are those of others
and the one with its name. -/
def Created (w : World) : Prop :=
  FileSystem.Starts ⟨w.fs, w.openers⟩ ∧ ∃ pools fileName, w.stage = .created pools fileName ∧
    pools.kernel fileName = true ∧ w.frames = pools.used ∧
    w.pages = Function.update pools.kernel fileName false

def life : System World Occurrence := .ofNext Created World.next

end Life

end HwMemory
end CS162.Pintos
