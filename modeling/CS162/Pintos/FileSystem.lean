import CS162.Pintos.Bitmap
import CS162.Pintos.InodeBytes

/-!
The file system (Pintos: inode.c, file.c, free-map.c, directory.c and filesys.c; the
files are the same in hw-memory and in the group project). Pointers to inodes are
numbers, which `malloc` does not hand out twice. Each call that may allocate takes the
next of `grants`, which says whether there is memory for it. A failing `ASSERT` or
`PANIC` is a `Panic`. Nobody here denies writes, and messages are left out.
-/

namespace CS162.Pintos.FileSystem
open CS162.Library

def freeMapSector : Nat := 0
def rootDirSector : Nat := 1
def inodeMagic : Nat := 0x494e4f44
def nameMax : Nat := 14

/-- `sizeof (struct dir_entry)`: a sector number, a name and a flag. -/
def entrySize : Nat := 20

inductive Panic where
  | device (fault : Fault)
  | assertion
  | badPointer
  | freeMap
  | rootDir
  deriving DecidableEq

/-- `struct file`. -/
structure File where
  inode : Nat
  pos : Nat
  deriving DecidableEq

/-- The inode behind a pointer was marked as removed, or its sector and its data were
released. -/
inductive Event where
  | removed (p sector : Nat) (data : InodeDisk)
  | released (p sector : Nat) (data : InodeDisk)

def Event.removes (p : Nat) : Event → Bool
  | .removed q _ _ => q == p
  | .released .. => false

def Event.releases (p : Nat) : Event → Bool
  | .removed .. => false
  | .released q _ _ => q == p

/-- The device, `free_map`, `free_map_file`, `open_inodes` and the inodes behind their
pointers. `junk` is what a local variable holds before it is set. -/
structure FileSys where
  device : Disk
  freeMap : Bitmap
  freeMapFile : Option File
  inodes : Nat → Option Inode
  openInodes : List Nat
  nextInode : Nat
  grants : Nat → Bool
  junk : Library.Memory
  events : List Event

def onDevice {α : Type} : Except Fault α → Except Panic α
  | .ok a => .ok a
  | .error fault => .error (.device fault)

section Formats

/-- An inode as `calloc` and `inode_create` fill its sector. -/
def toSector (data : InodeDisk) : Sector :=
  ((Memory.store (fun _ => 0) 0 4 data.start).store 4 4 data.length).store 8 4 inodeMagic

def ofSector (contents : Sector) : InodeDisk := ⟨contents.load 0 4, contents.load 4 4⟩

def byteCnt (bitCnt : Nat) : Nat := 4 * ((bitCnt + 31) / 32)

/-- The number with the first `n` of some bits. -/
def ofBits (bit : Nat → Bool) : Nat → Nat
  | 0 => 0
  | n + 1 => ofBits bit n + if bit n then 2 ^ n else 0

/-- The words of a bitmap, byte by byte. -/
def mapBytes (map : Bitmap) : Library.Memory :=
  fun a => UInt8.ofNat (ofBits (fun i => map.test (8 * a + i)) 8)

def ofMapBytes (bytes : Library.Memory) (bitCnt : Nat) : Bitmap :=
  ⟨(List.range bitCnt).map fun i => (bytes (i / 8)).toNat.testBit (i % 8)⟩

def entrySector (e : Library.Memory) : Nat := e.load 0 4

def entryName (e : Library.Memory) : List UInt8 :=
  (e.readBytes 4 (nameMax + 1)).takeWhile fun b => b ≠ 0

def inUse (e : Library.Memory) : Bool := e 19 ≠ 0

/-- The assignments of `dir_add` to an entry. -/
def fillEntry (e : Library.Memory) (name : List UInt8) (sector : Nat) : Library.Memory :=
  ((e.fill 19 1 1).writeBytes 4 (name ++ [0])).store 0 4 sector

end Formats

namespace FileSys
variable (s : FileSys)

def inode (p : Nat) : Except Panic Inode :=
  match s.inodes p with
  | some i => .ok i
  | none => .error .badPointer

def setInode (p : Nat) (i : Option Inode) : FileSys :=
  { s with inodes := Function.update s.inodes p i }

/-- Whether `malloc` or `calloc` finds memory. -/
def malloc : Bool × FileSys := (s.grants 0, { s with grants := fun n => s.grants (n + 1) })

/-- `inode_read_at`, which returns what the buffer holds then. -/
def readAt (p : Nat) (buffer : Library.Memory) (size offset : Nat) :
    Except Panic (Nat × Library.Memory × FileSys) := do
  let i ← s.inode p
  let (granted, s) := s.malloc
  let (n, _, buffer) ← onDevice (inodeReadAt s.device i granted buffer size offset)
  return (n, buffer, s)

/-- `inode_write_at`. -/
def writeAt (p : Nat) (buffer : Library.Memory) (size offset : Nat) :
    Except Panic (Nat × FileSys) := do
  let i ← s.inode p
  let (granted, s) := s.malloc
  let (n, _, d) ← onDevice (inodeWriteAt s.device i granted buffer size offset)
  return (n, { s with device := d })

section FreeMap

/-- `bitmap_write` of the free map. -/
def bitmapWrite (file : File) : Except Panic (Bool × FileSys) := do
  let size := byteCnt s.freeMap.size
  let (n, s) ← s.writeAt file.inode (mapBytes s.freeMap) size 0
  return (n == size, s)

/-- `bitmap_read` of the free map. -/
def bitmapRead (file : File) : Except Panic (Bool × FileSys) := do
  let size := byteCnt s.freeMap.size
  let (n, bytes, s) ← s.readAt file.inode (mapBytes s.freeMap) size 0
  return (n == size, { s with freeMap := ofMapBytes bytes s.freeMap.size })

def freeMapAllocate (cnt : Nat) : Except Panic (Option Nat × FileSys) :=
  match s.freeMap.scanAndFlip cnt false with
  | none => .error .assertion
  | some (none, map) => .ok (none, { s with freeMap := map })
  | some (some sector, map) => do
      let s := { s with freeMap := map }
      match s.freeMapFile with
      | none => return (some sector, s)
      | some file =>
          let (written, s) ← s.bitmapWrite file
          if written then return (some sector, s)
          else
            match s.freeMap.setMultiple sector cnt false with
            | none => throw .assertion
            | some map => return (none, { s with freeMap := map })

def freeMapRelease (sector cnt : Nat) : Except Panic FileSys :=
  if s.freeMap.all sector cnt = some true then
    match s.freeMap.setMultiple sector cnt false, s.freeMapFile with
    | some map, some file => do
        let (_, s) ← { s with freeMap := map }.bitmapWrite file
        return s
    | none, _ => .error .assertion
    | _, none => .error .badPointer
  else .error .assertion

end FreeMap

section Inodes

/-- The loop of `inode_create` over the data sectors. -/
def zeroSectors (d : Disk) (start : Nat) : Nat → Except Fault Disk
  | 0 => .ok d
  | n + 1 => do
      let d ← zeroSectors d start n
      blockWrite d (start + n) fun _ => 0

def inodeCreate (sector length : Nat) : Except Panic (Bool × FileSys) := do
  let (granted, s) := s.malloc
  if granted then
    let sectors := bytesToSectors length
    let (start, s) ← s.freeMapAllocate sectors
    match start with
    | some start =>
        let d ← onDevice (blockWrite s.device sector (toSector ⟨start, length⟩))
        let d ← onDevice (zeroSectors d start sectors)
        return (true, { s with device := d })
    | none => return (false, s)
  else return (false, s)

/-- `inode_reopen` of an open inode. -/
def inodeReopen (p : Nat) : FileSys :=
  s.setInode p ((s.inodes p).map fun i => { i with openCnt := i.openCnt + 1 })

def inodeOpen (sector : Nat) : Except Panic (Option Nat × FileSys) :=
  match s.openInodes.find? fun p => (s.inodes p).any fun i => i.sector == sector with
  | some p => .ok (some p, s.inodeReopen p)
  | none => do
      let (granted, s) := s.malloc
      if granted then
        let contents ← onDevice (blockRead s.device sector)
        let i : Inode := ⟨sector, 1, false, 0, ofSector contents⟩
        let p := s.nextInode
        return (some p,
          { s.setInode p (some i) with openInodes := p :: s.openInodes, nextInode := p + 1 })
      else return (none, s)

def inodeClose : Option Nat → Except Panic FileSys
  | none => .ok s
  | some p => do
      let i ← s.inode p
      let i := { i with openCnt := i.openCnt - 1 }
      let s := s.setInode p (some i)
      if i.openCnt = 0 then
        let s := { s with openInodes := s.openInodes.erase p }
        if i.removed then
          let s ← s.freeMapRelease i.sector 1
          let s ← s.freeMapRelease i.data.start (bytesToSectors i.data.length)
          return { s.setInode p none with events := .released p i.sector i.data :: s.events }
        else return s.setInode p none
      else return s

def inodeRemove (p : Nat) : Except Panic FileSys := do
  let i ← s.inode p
  return { s.setInode p (some { i with removed := true }) with
    events := .removed p i.sector i.data :: s.events }

end Inodes

section Files

def fileOpen (p : Option Nat) : Except Panic (Option File × FileSys) := do
  let (granted, s) := s.malloc
  match p, granted with
  | some p, true => return (some ⟨p, 0⟩, s)
  | p, _ => return (none, ← s.inodeClose p)

def fileClose (file : Option File) : Except Panic FileSys := s.inodeClose (file.map File.inode)

/-- `free_map_init`, with the two allocations of `bitmap_create`. -/
def freeMapInit : Except Panic FileSys :=
  let (header, s) := s.malloc
  let (bits, s) := s.malloc
  if header && bits then
    let map : Bitmap := ⟨List.replicate s.device.size false⟩
    .ok { s with freeMap := (map.set freeMapSector true).set rootDirSector true }
  else .error .freeMap

/-- Opens the inode of the free map as `free_map_file`. -/
def openFreeMapFile : Except Panic (File × FileSys) := do
  let (p, s) ← s.inodeOpen freeMapSector
  let (file, s) ← s.fileOpen p
  match file with
  | some file => return (file, { s with freeMapFile := some file })
  | none => throw .freeMap

def freeMapOpen : Except Panic FileSys := do
  let (file, s) ← s.openFreeMapFile
  let (read, s) ← s.bitmapRead file
  if read then return s else throw .freeMap

def freeMapClose : Except Panic FileSys := s.fileClose s.freeMapFile

def freeMapCreate : Except Panic FileSys := do
  let (created, s) ← s.inodeCreate freeMapSector (byteCnt s.freeMap.size)
  if created then
    let (file, s) ← s.openFreeMapFile
    let (written, s) ← s.bitmapWrite file
    if written then return s else throw .freeMap
  else throw .freeMap

end Files

section Directories

def dirCreate (sector entryCnt : Nat) : Except Panic (Bool × FileSys) :=
  s.inodeCreate sector (entryCnt * entrySize)

/-- `dir_open`; a directory goes by its inode. -/
def dirOpen (p : Option Nat) : Except Panic (Option Nat × FileSys) := do
  let (granted, s) := s.malloc
  match p, granted with
  | some p, true => return (some p, s)
  | p, _ => return (none, ← s.inodeClose p)

def dirOpenRoot : Except Panic (Option Nat × FileSys) := do
  let (p, s) ← s.inodeOpen rootDirSector
  s.dirOpen p

def dirClose (dir : Option Nat) : Except Panic FileSys := s.inodeClose dir

/-- Enough rounds for a loop over the entries of a directory. -/
def entryRounds (dir : Nat) : Nat :=
  match s.inodes dir with
  | some i => i.data.length / entrySize + 1
  | none => 0

/-- The loop of `lookup`. -/
def lookupFrom (dir : Nat) (name : List UInt8) : (rounds ofs : Nat) → FileSys →
    Except Panic (Option (Library.Memory × Nat) × FileSys)
  | 0, _, s => .ok (none, s)
  | rounds + 1, ofs, s => do
      let (n, e, s) ← s.readAt dir s.junk entrySize ofs
      if n = entrySize then
        if inUse e ∧ entryName e = name then return (some (e, ofs), s)
        else lookupFrom dir name rounds (ofs + entrySize) s
      else return (none, s)

/-- `lookup`: the entry and its offset. -/
def lookup (dir : Nat) (name : List UInt8) :
    Except Panic (Option (Library.Memory × Nat) × FileSys) :=
  lookupFrom dir name (s.entryRounds dir) 0 s

def dirLookup (dir : Nat) (name : List UInt8) : Except Panic (Option Nat × FileSys) := do
  let (found, s) ← s.lookup dir name
  match found with
  | some (e, _) => s.inodeOpen (entrySector e)
  | none => return (none, s)

/-- The loop of `dir_add` for a free slot: the offset, and what is in `e` then. -/
def freeSlotFrom (dir : Nat) : (rounds ofs : Nat) → Library.Memory → FileSys →
    Except Panic (Library.Memory × Nat × FileSys)
  | 0, ofs, e, s => .ok (e, ofs, s)
  | rounds + 1, ofs, e, s => do
      let (n, e, s) ← s.readAt dir e entrySize ofs
      if n = entrySize ∧ inUse e then freeSlotFrom dir rounds (ofs + entrySize) e s
      else return (e, ofs, s)

def dirAdd (dir : Nat) (name : List UInt8) (sector : Nat) : Except Panic (Bool × FileSys) :=
  if name = [] ∨ name.length > nameMax then .ok (false, s)
  else do
    let (found, s) ← s.lookup dir name
    match found with
    | some _ => return (false, s)
    | none =>
        let (e, ofs, s) ← freeSlotFrom dir (s.entryRounds dir) 0 s.junk s
        let (n, s) ← s.writeAt dir (fillEntry e name sector) entrySize ofs
        return (n == entrySize, s)

def dirRemove (dir : Nat) (name : List UInt8) : Except Panic (Bool × FileSys) := do
  let (found, s) ← s.lookup dir name
  match found with
  | none => return (false, s)
  | some (e, ofs) =>
      let (p, s) ← s.inodeOpen (entrySector e)
      match p with
      | none => return (false, s)
      | some p =>
          let (n, s) ← s.writeAt dir (e.fill 19 1 0) entrySize ofs
          if n = entrySize then
            let s ← s.inodeRemove p
            return (true, ← s.inodeClose (some p))
          else return (false, ← s.inodeClose (some p))

end Directories

section Filesys

def filesysCreate (name : List UInt8) (initialSize : Nat) : Except Panic (Bool × FileSys) := do
  let (dir, s) ← s.dirOpenRoot
  match dir with
  | none => return (false, s)
  | some dir =>
      let (sector, s) ← s.freeMapAllocate 1
      match sector with
      | none => return (false, ← s.dirClose dir)
      | some sector =>
          let (created, s) ← s.inodeCreate sector initialSize
          let (added, s) ← if created then s.dirAdd dir name sector else pure (false, s)
          let s ← if ¬ added ∧ sector ≠ 0 then s.freeMapRelease sector 1 else pure s
          return (added, ← s.dirClose dir)

def filesysOpen (name : List UInt8) : Except Panic (Option File × FileSys) := do
  let (dir, s) ← s.dirOpenRoot
  match dir with
  | none => s.fileOpen none
  | some dir =>
      let (p, s) ← s.dirLookup dir name
      let s ← s.dirClose dir
      s.fileOpen p

def filesysRemove (name : List UInt8) : Except Panic (Bool × FileSys) := do
  let (dir, s) ← s.dirOpenRoot
  match dir with
  | none => return (false, s)
  | some dir =>
      let (success, s) ← s.dirRemove dir name
      return (success, ← s.dirClose dir)

def doFormat : Except Panic FileSys := do
  let s ← s.freeMapCreate
  let (created, s) ← s.dirCreate rootDirSector 16
  if created then s.freeMapClose else throw .rootDir

end Filesys
end FileSys

/-- `filesys_init`, on a device and with a pattern of allocations. -/
def filesysInit (format : Bool) (d : Disk) (grants : Nat → Bool) (junk : Library.Memory) :
    Except Panic FileSys := do
  let s ← FileSys.freeMapInit ⟨d, ⟨[]⟩, none, fun _ => none, [], 0, grants, junk, []⟩
  let s ← if format then s.doFormat else pure s
  s.freeMapOpen

end CS162.Pintos.FileSystem
