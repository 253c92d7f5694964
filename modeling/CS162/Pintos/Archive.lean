import CS162.Pintos.FileSystemLaw
import CS162.Pintos.FileSystemNames
import CS162.Pintos.Ustar

/-!
Archives on the scratch device (proj-pregame: filesys/fsutil.c). `fsutil_append` copies a
file of the file system behind those it copied before, and `fsutil_extract` reads what it
finds from its own position on. A `PANIC` is a `Stop`; the messages to the console are left
out, and there is a scratch device. A sector number is below the size of its device, so the
counters do not wrap.
-/

namespace CS162.Pintos.Archive
open CS162.Library CS162.Pintos.FileSystem
open CS162.Pintos.Ustar (Entry ustarMakeHeader ustarParseHeader stripAntisocialPrefixes)

inductive Stop where
  | fileSystem (panic : Panic)
  | scratch (fault : Fault)
  | noBuffer
  | createFailed (fileName : List UInt8)
  | openFailed (fileName : List UInt8)
  | readFailed (fileName : List UInt8) (unread : Nat)
  | writeFailed (fileName : List UInt8) (unwritten : Nat)
  | nameTooLong (fileName : List UInt8)
  | outOfSpace (fileName : List UInt8)
  | badHeader (sector : Nat) (error : String)

def inFileSystem {α : Type} : Except Panic α → Except Stop α
  | .ok a => .ok a
  | .error panic => .error (.fileSystem panic)

def onScratch {α : Type} : Except Fault α → Except Stop α
  | .ok a => .ok a
  | .error fault => .error (.scratch fault)

section Files
variable (s : FileSys)

/-- `file_read`; the file comes back with its new position. -/
def fileRead (file : File) (buffer : Library.Memory) (size : Nat) :
    Except Panic (Nat × Library.Memory × File × FileSys) := do
  let (n, buffer, s) ← s.readAt file.inode buffer size file.pos
  return (n, buffer, { file with pos := file.pos + n }, s)

def fileWrite (file : File) (buffer : Library.Memory) (size : Nat) :
    Except Panic (Nat × File × FileSys) := do
  let (n, s) ← s.writeAt file.inode buffer size file.pos
  return (n, { file with pos := file.pos + n }, s)

def fileLength (file : File) : Except Panic Nat := do
  let i ← s.inode file.inode
  return i.data.length

end Files

/-- The header in a sector is accepted, or the kernel stops. -/
def parsed (sector : Nat) : Except String Entry → Except Stop Entry
  | .ok entry => .ok entry
  | .error error => .error (.badHeader sector error)

section Append

/-- The file system, the scratch device and the static `sector` of `fsutil_append`. -/
structure Archiver where
  fs : FileSys
  scratch : Disk
  sector : Nat

namespace Archiver
variable (w : Archiver)

/-- `block_write (dst, sector++, buffer)` -/
def writeNext (buffer : Library.Memory) : Except Stop Archiver := do
  let scratch ← onScratch (blockWrite w.scratch w.sector buffer)
  return { w with scratch := scratch, sector := w.sector + 1 }

def writeEnd (buffer : Library.Memory) : Except Stop Archiver := do
  let buffer := buffer.fill 0 sectorSize 0
  let scratch ← onScratch (blockWrite w.scratch w.sector buffer)
  let scratch ← onScratch (blockWrite scratch (w.sector + 1) buffer)
  return { w with scratch := scratch }

end Archiver

/-- The loop of `fsutil_append`, of which each round copies a byte at least. -/
def appendData (fileName : List UInt8) : (rounds size : Nat) → File → Library.Memory → Archiver →
    Except Stop (Library.Memory × Archiver)
  | 0, _, _, buffer, w => .ok (buffer, w)
  | rounds + 1, size, src, buffer, w =>
      if size > 0 then
        let chunkSize := if size > sectorSize then sectorSize else size
        if w.sector ≥ w.scratch.size then .error (.outOfSpace fileName)
        else do
          let (n, buffer, src, fs) ← inFileSystem (fileRead w.fs src buffer chunkSize)
          if n ≠ chunkSize then .error (.readFailed fileName size)
          else
            let buffer := buffer.fill chunkSize (sectorSize - chunkSize) 0
            let w ← { w with fs := fs }.writeNext buffer
            appendData fileName rounds (size - chunkSize) src buffer w
      else .ok (buffer, w)

def fsutilAppend (w : Archiver) (fileName : List UInt8) : Except Stop Archiver := do
  let (granted, fs) := w.fs.malloc
  if granted then
    let (src, fs) ← inFileSystem (fs.filesysOpen fileName)
    match src with
    | none => throw (.openFailed fileName)
    | some src =>
        let size ← inFileSystem (fileLength fs src)
        match ustarMakeHeader fileName .regular size fs.junk with
        | none => throw (.nameTooLong fileName)
        | some buffer =>
            let w ← { w with fs := fs }.writeNext buffer
            let (buffer, w) ← appendData fileName size size src buffer w
            let w ← w.writeEnd buffer
            let fs ← inFileSystem (w.fs.fileClose (some src))
            return { w with fs := fs }
  else throw .noBuffer

end Append

section Extract

/-- Where the files of an archive go: `τ` is the state while a file is written. -/
structure Sink (σ τ : Type) where
  create : List UInt8 → Nat → σ → Except Stop τ
  write : List UInt8 → (chunkSize unwritten : Nat) → Sector → τ → Except Stop τ
  close : τ → Except Stop σ

variable {σ τ : Type} (sink : Sink σ τ) (src : Disk)

/-- The loop of `fsutil_extract` over the data of a file. -/
def extractData (fileName : List UInt8) : (rounds sector size : Nat) → τ → Except Stop (Nat × τ)
  | 0, sector, _, state => .ok (sector, state)
  | rounds + 1, sector, size, state =>
      if size > 0 then do
        let chunkSize := if size > sectorSize then sectorSize else size
        let data ← onScratch (blockRead src sector)
        let state ← sink.write fileName chunkSize size data state
        extractData fileName rounds (sector + 1) (size - chunkSize) state
      else .ok (sector, state)

/-- The loop of `fsutil_extract` over the headers. A round more than there are sectors left
reads past the end of the device. -/
def extractFrom : (rounds sector : Nat) → σ → Except Stop (Nat × σ)
  | 0, _, _ => .error (.scratch .pastEndOfDevice)
  | rounds + 1, sector, state => do
      let header ← onScratch (blockRead src sector)
      let entry ← parsed sector (ustarParseHeader header)
      match entry.type with
      | .eof => return (sector + 1, state)
      | .directory => extractFrom rounds (sector + 1) state
      | .regular =>
          let fileName := entry.fileName.getD []
          let dst ← sink.create fileName entry.size state
          let (sector, dst) ← extractData sink src fileName entry.size (sector + 1) entry.size dst
          let state ← sink.close dst
          extractFrom rounds sector state

/-- The whole loop: the sector behind the end marker, and where the files went. -/
def extract (sector : Nat) (state : σ) : Except Stop (Nat × σ) :=
  extractFrom sink src (src.size + 1) sector state

/-- The files go into the file system. -/
def intoFileSys : Sink FileSys (File × FileSys) where
  create fileName size s := do
    let (created, s) ← inFileSystem (s.filesysCreate fileName size)
    if created then
      let (dst, s) ← inFileSystem (s.filesysOpen fileName)
      match dst with
      | none => throw (.openFailed fileName)
      | some dst => return (dst, s)
    else throw (.createFailed fileName)
  write fileName chunkSize unwritten data := fun (dst, s) => do
    let (n, dst, s) ← inFileSystem (fileWrite s dst data chunkSize)
    if n ≠ chunkSize then throw (.writeFailed fileName unwritten) else return (dst, s)
  close := fun (dst, s) => inFileSystem (s.fileClose (some dst))

/-- `fsutil_extract`, with its static `sector`. -/
def fsutilExtract (fs : FileSys) (scratch : Disk) (sector : Nat) :
    Except Stop (FileSys × Disk × Nat) := do
  let (header, fs) := fs.malloc
  let (data, fs) := fs.malloc
  if header && data then
    let (sector, fs) ← extract intoFileSys scratch sector fs
    let scratch ← onScratch (blockWrite scratch 0 fun _ => 0)
    let scratch ← onScratch (blockWrite scratch 1 fun _ => 0)
    return (fs, scratch, sector)
  else throw .noBuffer

end Extract

structure Archived where
  fileName : List UInt8
  size : Nat
  bytes : List UInt8
  deriving DecidableEq

def Archived.sectors (f : Archived) : Nat := 1 + bytesToSectors f.size

def intoList : Sink (List Archived) (List Archived × Archived) where
  create fileName size files := .ok (files, ⟨fileName, size, []⟩)
  write _ chunkSize _ data := fun (files, f) =>
    .ok (files, { f with bytes := f.bytes ++ data.readBytes 0 chunkSize })
  close := fun (files, f) => .ok (files ++ [f])

/-- What the root directory has under a name, as a file of an archive. -/
def archived (d : Disk) (fileName : List UInt8) : Option Archived :=
  (fileNamed d fileName).map fun k =>
    let data := dataOf d k
    ⟨stripAntisocialPrefixes fileName, data.length, (fileBytes d data).readBytes 0 data.length⟩

section Session

/-- A file system in use and the scratch device, with the files appended so far. -/
structure Session where
  callers : Callers
  scratch : Disk
  sector : Nat
  appended : List Archived

inductive Command where
  | call (c : Call)
  | append (fileName : List UInt8)

namespace Session

/-- A name of a command line is a C string. -/
def Allowed (w : Session) : Command → Prop
  | .call c => FileSystem.Allowed w.callers c
  | .append fileName => (0 : UInt8) ∉ fileName

instance (w : Session) : (c : Command) → Decidable (w.Allowed c)
  | .call c => inferInstanceAs (Decidable (FileSystem.Allowed w.callers c))
  | .append _ => inferInstanceAs (Decidable (_ ∉ _))

def archiver (w : Session) : Archiver := ⟨w.callers.fs, w.scratch, w.sector⟩

def next (w : Session) : Command → Option Session
  | .call c => (FileSystem.next w.callers c).map fun callers => { w with callers := callers }
  | .append fileName => (fsutilAppend w.archiver fileName).toOption.map fun r =>
      { callers := { w.callers with fs := r.fs }
        scratch := r.scratch
        sector := r.sector
        appended := w.appended ++ (archived w.callers.fs.device fileName).toList }

/-- Nothing was appended; anything may be on the scratch device. -/
def Start (w : Session) : Prop := Starts w.callers ∧ w.sector = 0 ∧ w.appended = []

end Session

def session : System Session Command := (System.ofNext Session.Start Session.next).under Session.Allowed

end Session
end CS162.Pintos.Archive
