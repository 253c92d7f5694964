import CS162.Library.LittleEndian
import CS162.Pintos.Paging
import CS162.Library.MachineInt
import CS162.Pintos.Sbrk

/-!
The ELF loader (Pintos: process.c), from the bytes of an executable to the pages
of a process: what `load` does in hw-memory and in the group project alike, and the
`load` of each of the two. hw-memory's places the heap behind the segments; in the
group project `start_process` calls it.

A file's length is an `off_t`, and a read at a position gives the bytes there are,
or fewer.
The sums of `load` and `load_segment` do not wrap, because `validate_segment` keeps
a segment below `PHYS_BASE` and the first assertion of `load_segment` holds.

The process control block of the group project is a block of the kernel heap. It is there
or it is not; the page directory that it points to is the process's address space.
-/

namespace CS162.Pintos
open CS162.Library

structure ExecFile where
  bytes : List UInt8
  fits : bytes.length < 2 ^ 31

def ExecFile.read (file : ExecFile) (pos size : Nat) : List UInt8 := (file.bytes.drop pos).take size

/-- `file_read` at a position. A read that cannot allocate a buffer for a part of a
sector stops after `stop` bytes. -/
def fileRead (file : ExecFile) (pos size : Nat) (stop : Option Nat) : List UInt8 :=
  match stop with
  | none => file.read pos size
  | some count => (file.read pos size).take count

/-- The number in a field of a header. -/
def field (header : List UInt8) (offset width : Nat) : Nat :=
  ofBytes ((header.drop offset).take width)

/-- `struct Elf32_Ehdr` -/
structure Ehdr where
  ident : List UInt8
  type : Nat
  machine : Nat
  version : Nat
  entry : Nat
  phoff : Nat
  phentsize : Nat
  phnum : Nat

def Ehdr.size : Nat := 52

def readEhdr (header : List UInt8) : Ehdr where
  ident := header.take 16
  type := field header 16 2
  machine := field header 18 2
  version := field header 20 4
  entry := field header 24 4
  phoff := field header 28 4
  phentsize := field header 42 2
  phnum := field header 44 2

/-- `struct Elf32_Phdr` -/
structure Phdr where
  type : Nat
  offset : Nat
  vaddr : Nat
  filesz : Nat
  memsz : Nat
  flags : Nat

def Phdr.size : Nat := 32

def readPhdr (header : List UInt8) : Phdr where
  type := field header 0 4
  offset := field header 4 4
  vaddr := field header 8 4
  filesz := field header 16 4
  memsz := field header 20 4
  flags := field header 24 4

def ptLoad : Nat := 1
def ptDynamic : Nat := 2
def ptInterp : Nat := 3
def ptShlib : Nat := 5

/-- `PF_W` -/
def Phdr.writable (phdr : Phdr) : Bool := phdr.flags / 2 % 2 = 1

def validateSegment (phdr : Phdr) (file : ExecFile) : Bool :=
  if phdr.offset % pgsize ≠ phdr.vaddr % pgsize then false
  else if phdr.offset > file.bytes.length then false
  else if phdr.memsz < phdr.filesz then false
  else if phdr.memsz = 0 then false
  else if ¬ phdr.vaddr < physBase then false
  else if ¬ (phdr.vaddr + phdr.memsz) % 2 ^ 32 < physBase then false
  else if (phdr.vaddr + phdr.memsz) % 2 ^ 32 < phdr.vaddr then false
  else if phdr.vaddr < pgsize then false
  else true

def installPage (s : AddressSpace) (upage kpage : Nat) (writable : Bool) (grant : PageGrant) :
    Except Fault (Bool × AddressSpace) :=
  match pagedirGetPage s.mem.pagedir upage with
  | .error fault => .error fault
  | .ok (some _) => .ok (false, s)
  | .ok none => s.setPage upage kpage writable grant

/-- A result of false, after giving a frame back. -/
def failAfterFree (s : AddressSpace) (kpage : Nat) : Except Fault (Bool × AddressSpace) :=
  match pallocFreePage s.mem (some kpage) with
  | .error fault => .error fault
  | .ok m => .ok (false, { s with mem := m })

/-- The loop of `load_segment`, which takes as many rounds as there are pages. -/
def loadPages (file : ExecFile) (writable : Bool) (grants : Nat → PageGrant) :
    (pages pos upage readBytes i : Nat) → AddressSpace → Except Fault (Bool × AddressSpace)
  | 0, _, _, _, _, s => .ok (true, s)
  | pages + 1, pos, upage, readBytes, i, s =>
      let pageReadBytes := if readBytes < pgsize then readBytes else pgsize
      match pallocGetPage s.mem false (grants i).frameGrant with
      | none => .ok (false, s)
      | some (kpage, m) =>
          let contents := fileRead file pos pageReadBytes (grants i).read
          if contents.length ≠ pageReadBytes then failAfterFree { s with mem := m } kpage
          else
            -- The rest of the page is zeroed.
            let m := { m with
              frames := Function.update m.frames kpage fun offset => contents.getD offset 0 }
            match installPage { s with mem := m } upage kpage writable (grants i) with
            | .error fault => .error fault
            | .ok (false, s) => failAfterFree s kpage
            | .ok (true, s) =>
                loadPages file writable grants pages (pos + pageReadBytes)
                  ((upage + pgsize) % 2 ^ 32) (readBytes - pageReadBytes) (i + 1) s

def loadSegment (s : AddressSpace) (file : ExecFile) (ofs upage readBytes zeroBytes : Nat)
    (writable : Bool) (grants : Nat → PageGrant) : Except Fault (Bool × AddressSpace) :=
  if (readBytes + zeroBytes) % pgsize ≠ 0 then .error .notPageAligned
  else if pgOfs upage ≠ 0 then .error .notPageAligned
  else if ofs % pgsize ≠ 0 then .error .notPageAligned
  else if ofs ≥ 2 ^ 31 then .error .negativeOffset
  else loadPages file writable grants ((readBytes + zeroBytes) / pgsize) ofs upage readBytes 0 s

/-- The arithmetic of the case `PT_LOAD`, and its call of `load_segment`. -/
def loadPhdr (file : ExecFile) (phdr : Phdr) (grants : Nat → PageGrant) (s : AddressSpace) :
    Except Fault (Bool × AddressSpace) :=
  let filePage := phdr.offset - phdr.offset % pgsize
  let memPage := phdr.vaddr - phdr.vaddr % pgsize
  let pageOffset := phdr.vaddr % pgsize
  let (readBytes, zeroBytes) :=
    if phdr.filesz > 0 then
      (pageOffset + phdr.filesz,
        roundUp (pageOffset + phdr.memsz) pgsize - (pageOffset + phdr.filesz))
    else (0, roundUp (pageOffset + phdr.memsz) pgsize)
  loadSegment s file filePage memPage readBytes zeroBytes phdr.writable grants

def setupStack (s : AddressSpace) (grant : PageGrant) : Except Fault (Bool × AddressSpace) :=
  match pallocGetPage s.mem true grant.frameGrant with
  | none => .ok (false, s)
  | some (kpage, m) =>
      match installPage { s with mem := m } (physBase - pgsize) kpage true grant with
      | .error fault => .error fault
      | .ok (true, s) => .ok (true, s)
      | .ok (false, s) => failAfterFree s kpage

/-- The file's header, if `load` accepts it. -/
def acceptedHeader (file : ExecFile) (stop : Option Nat) : Option Ehdr :=
  let header := fileRead file 0 Ehdr.size stop
  let ehdr := readEhdr header
  if header.length ≠ Ehdr.size ∨ ehdr.ident.take 7 ≠ [0x7f, 0x45, 0x4c, 0x46, 1, 1, 1] ∨
      ehdr.type ≠ 2 ∨ ehdr.machine ≠ 3 ∨ ehdr.version ≠ 1 ∨ ehdr.phentsize ≠ Phdr.size ∨
      ehdr.phnum > 1024 then none
  else some ehdr

/-- The program header at an offset of the file, if it can be read. -/
def phdrAt (file : ExecFile) (fileOfs : Int) (stop : Option Nat) : Option Phdr :=
  if fileOfs < 0 ∨ fileOfs > file.bytes.length then none
  else
    let header := fileRead file fileOfs.toNat Phdr.size stop
    if header.length ≠ Phdr.size then none else some (readPhdr header)

/-- A header that makes `load` fail, whatever else the file holds. -/
def Phdr.refused (phdr : Phdr) : Prop :=
  phdr.type = ptDynamic ∨ phdr.type = ptInterp ∨ phdr.type = ptShlib

instance (phdr : Phdr) : Decidable phdr.refused :=
  inferInstanceAs (Decidable (_ ∨ _ ∨ _))

/-- The loop over the program headers from header `i` on, with what is done to a
valid `PT_LOAD` segment. -/
def loadPhdrs {σ : Type} (file : ExecFile) (stops : Nat → Option Nat)
    (segment : Nat → Phdr → σ → Except Fault (Bool × σ)) :
    (left i : Nat) → (fileOfs : Int) → σ → Except Fault (Bool × σ)
  | 0, _, _, state => .ok (true, state)
  | left + 1, i, fileOfs, state =>
      match phdrAt file fileOfs (stops i) with
      | none => .ok (false, state)
      | some phdr =>
          if phdr.refused then .ok (false, state)
          else if phdr.type = ptLoad then
            if validateSegment phdr file then
              match segment i phdr state with
              | .error fault => .error fault
              | .ok (false, state) => .ok (false, state)
              | .ok (true, state) =>
                  loadPhdrs file stops segment left (i + 1) (fileOfs + Phdr.size) state
            else .ok (false, state)
          else loadPhdrs file stops segment left (i + 1) (fileOfs + Phdr.size) state

/-- What the pools answer to a load: to the page directory, to page `j` of program
header `i`, and to the stack page; and how the reads of the headers end. -/
structure LoadGrants where
  directory : Option Nat
  header : Option Nat
  phdrs : Nat → Option Nat
  pages : Nat → Nat → PageGrant
  stack : PageGrant

/-- The entry point and the initial stack pointer that `load` stores. -/
structure Start where
  eip : Nat
  esp : Nat

/-- `setup_stack` and the start address, at the end of `load`. -/
def finishLoad (ehdr : Ehdr) (grants : LoadGrants) (s : AddressSpace) :
    Except Fault (Option Start × AddressSpace) :=
  match setupStack s grants.stack with
  | .error fault => .error fault
  | .ok (false, s) => .ok (none, s)
  | .ok (true, s) => .ok (some ⟨ehdr.entry, physBase - 20⟩, s)

/-- An executable with one segment, behind whose header are four bytes of code. -/
def smallProgram (offset vaddr filesz memsz : Nat) : ExecFile where
  bytes :=
    [0x7f, 0x45, 0x4c, 0x46, 1, 1, 1, 0, 0, 0, 0, 0, 0, 0, 0, 0] ++
      toBytes 2 2 ++ toBytes 2 3 ++ toBytes 4 1 ++ toBytes 4 vaddr ++ toBytes 4 52 ++ toBytes 8 0 ++
      toBytes 2 52 ++ toBytes 2 32 ++ toBytes 2 1 ++ toBytes 6 0 ++
      toBytes 4 1 ++ toBytes 4 offset ++ toBytes 4 vaddr ++ toBytes 4 vaddr ++ toBytes 4 filesz ++
      toBytes 4 memsz ++ toBytes 4 5 ++ toBytes 4 4096 ++ [0x31, 0xc0, 0xcd, 0x30]
  fits := by simp

end CS162.Pintos

namespace CS162.Pintos.ProjPregame
open CS162.Library

/-- `load`: the start addresses if it returns true, and the address space if there
is a page directory. -/
def load (file : Option ExecFile) (used : Nat → Bool) (frames : Nat → Nat → UInt8)
    (kernel : Nat → Bool) (grants : LoadGrants) :
    Except Fault (Option Start × Option AddressSpace) :=
  match pagedirCreate used frames kernel grants.directory with
  | none => .ok (none, none)
  | some space =>
      match file with
      | none => .ok (none, some space)
      | some file =>
          match acceptedHeader file grants.header with
          | none => .ok (none, some space)
          | some ehdr =>
              match loadPhdrs file grants.phdrs (fun i phdr => loadPhdr file phdr (grants.pages i))
                  ehdr.phnum 0 (toInt32 ehdr.phoff) space with
              | .error fault => .error fault
              | .ok (false, space) => .ok (none, some space)
              | .ok (true, space) =>
                  match finishLoad ehdr grants space with
                  | .error fault => .error fault
                  | .ok (start, space) => .ok (start, some space)

/-- The user pool with what its frames hold, and the kernel pool. -/
structure Pools where
  used : Nat → Bool
  frames : Nat → Nat → UInt8
  kernel : Nat → Bool

/-- What `palloc_free_page` does to a page of the kernel pool. -/
def Pools.freeKernelPage (pools : Pools) (page : Nat) : Except Fault Pools :=
  if pools.kernel page then .ok { pools with kernel := Function.update pools.kernel page false }
  else .error .notAllocated

/-- The pools as the process leaves them. -/
def poolsOf (s : AddressSpace) : Pools := ⟨s.mem.used, s.mem.frames, s.kernel⟩

/-- A process runs, or its thread exits. -/
inductive Started where
  | running (start : Start) (space : AddressSpace)
  | exited (pools : Pools)

/-- `start_process`, where `pcb` says whether `malloc` has a control block and
`fileName` is the page that holds the file's name. -/
def startProcess (pools : Pools) (fileName : Nat) (pcb : Bool) (file : Option ExecFile)
    (grants : LoadGrants) : Except Fault Started :=
  if pcb then
    match load file pools.used pools.frames pools.kernel grants with
    | .error fault => .error fault
    | .ok (some start, some space) =>
        match freeKernelPage space fileName with
        | .error fault => .error fault
        | .ok space => .ok (.running start space)
    | .ok (_, space) =>
        -- The control block goes, and with it the only pointer to the directory.
        match (space.elim pools poolsOf).freeKernelPage fileName with
        | .error fault => .error fault
        | .ok pools => .ok (.exited pools)
  else
    match pools.freeKernelPage fileName with
    | .error fault => .error fault
    | .ok pools => .ok (.exited pools)

end CS162.Pintos.ProjPregame

namespace CS162.Pintos.HwMemory
open CS162.Library

/-- The process's memory, the fields of its thread that hold the heap, and the
local `max_addr`. -/
structure HeapSpace where
  space : AddressSpace
  maxAddr : Nat
  heapStart : Nat
  heapBreak : Nat

def HeapSpace.thread (s : HeapSpace) : Thread where
  mem := s.space.mem
  heapStart := s.heapStart
  heapBreak := s.heapBreak

/-- The case `PT_LOAD` for a segment that is valid. -/
def loadHeapPhdr (file : ExecFile) (grants : LoadGrants) (i : Nat) (phdr : Phdr) (s : HeapSpace) :
    Except Fault (Bool × HeapSpace) :=
  let memPage := phdr.vaddr - phdr.vaddr % pgsize
  let segmentEnd := memPage + phdr.memsz
  let maxAddr := if segmentEnd > s.maxAddr then segmentEnd else s.maxAddr
  let heapStart := pgRoundUp maxAddr
  match loadPhdr file phdr (grants.pages i) s.space with
  | .error fault => .error fault
  | .ok (done, space) =>
      .ok (done, { space := space, maxAddr := maxAddr, heapStart := heapStart, heapBreak := heapStart })

/-- `load`: the start addresses if it returns true, and the memory if there is a
page directory. -/
def load (file : Option ExecFile) (used : Nat → Bool) (frames : Nat → Nat → UInt8)
    (kernel : Nat → Bool) (grants : LoadGrants) : Except Fault (Option Start × Option HeapSpace) :=
  match pagedirCreate used frames kernel grants.directory with
  | none => .ok (none, none)
  | some space =>
      let s := { space := space, maxAddr := 0, heapStart := 0, heapBreak := 0 }
      match file with
      | none => .ok (none, some s)
      | some file =>
          match acceptedHeader file grants.header with
          | none => .ok (none, some s)
          | some ehdr =>
              match loadPhdrs file grants.phdrs (loadHeapPhdr file grants) ehdr.phnum 0
                  (toInt32 ehdr.phoff) s with
              | .error fault => .error fault
              | .ok (false, s) => .ok (none, some s)
              | .ok (true, s) =>
                  match finishLoad ehdr grants s.space with
                  | .error fault => .error fault
                  | .ok (start, space) => .ok (start, some { s with space := space })

end CS162.Pintos.HwMemory
