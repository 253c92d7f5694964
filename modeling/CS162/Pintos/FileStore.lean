import CS162.Library.Handles
import CS162.Pintos.CreateLeak
import CS162.Pintos.FileSystemReload

/-!
The files as their callers see them (Pintos: file.c, over filesys.c): a store of files that
have names and open handles, each handle with a position of its own. A file lives as long
as it has a name or a handle. This module has the calls on handles, the store, and what the
calls of filesys.c do to the names and the bytes while every allocation succeeds.
-/

namespace CS162.Pintos.FileSystem
open CS162.Library

namespace FileSys
variable (s : FileSys) (file : File)

def fileReopen : Except Panic (Option File × FileSys) :=
  (s.inodeReopen file.inode).fileOpen (some file.inode)

/-- `file_read`: also the file, with its new position. -/
def fileRead (buffer : Library.Memory) (size : Nat) :
    Except Panic (Nat × Library.Memory × File × FileSys) := do
  let (bytesRead, buffer, s) ← s.readAt file.inode buffer size file.pos
  return (bytesRead, buffer, { file with pos := file.pos + bytesRead }, s)

def fileWrite (buffer : Library.Memory) (size : Nat) : Except Panic (Nat × File × FileSys) := do
  let (bytesWritten, s) ← s.writeAt file.inode buffer size file.pos
  return (bytesWritten, { file with pos := file.pos + bytesWritten }, s)

def fileLength : Except Panic Nat := do
  let i ← s.inode file.inode
  return i.data.length

end FileSys

section Calls

inductive DeskCall where
  | create (name : List UInt8) (initialSize : Nat)
  | openFile (name : List UInt8)
  | reopen (h : Nat)
  | read (h : Nat) (buffer : Library.Memory) (size : Nat)
  | readAt (h : Nat) (buffer : Library.Memory) (size offset : Nat)
  | write (h : Nat) (buffer : Library.Memory) (size : Nat)
  | writeAt (h : Nat) (buffer : Library.Memory) (size offset : Nat)
  | seek (h pos : Nat)
  | tell (h : Nat)
  | length (h : Nat)
  | close (h : Nat)
  | remove (name : List UInt8)

inductive DeskAnswer where
  | done (success : Bool)
  | file (h : Option Nat)
  | read (n : Nat) (buffer : Library.Memory)
  | count (n : Nat)
  | nothing

/-- The file system and the open files, by the order in which they were opened. -/
structure Desk where
  fs : FileSys
  files : List (Option File)

namespace Desk
variable (w : Desk)

def file (h : Nat) : Except Panic File :=
  match Handles.get w.files h with
  | some f => .ok f
  | none => .error .badPointer

def setFile (h : Nat) (f : Option File) (fs : FileSys) : Desk := ⟨fs, w.files.set h f⟩

/-- A new handle for what was opened. -/
def addFile : Option File → FileSys → DeskAnswer × Desk
  | some f, fs => (.file (some w.files.length), ⟨fs, w.files ++ [some f]⟩)
  | none, fs => (.file none, ⟨fs, w.files⟩)

def run : DeskCall → Except Panic (DeskAnswer × Desk)
  | .create name initialSize => do
      let (success, fs) ← w.fs.filesysCreate name initialSize
      return (.done success, ⟨fs, w.files⟩)
  | .openFile name => do
      let (f, fs) ← w.fs.filesysOpen name
      return w.addFile f fs
  | .reopen h => do
      let f ← w.file h
      let (f', fs) ← w.fs.fileReopen f
      return w.addFile f' fs
  | .read h buffer size => do
      let f ← w.file h
      let (n, buffer, f, fs) ← w.fs.fileRead f buffer size
      return (.read n buffer, w.setFile h (some f) fs)
  | .readAt h buffer size offset => do
      let f ← w.file h
      let (n, buffer, fs) ← w.fs.readAt f.inode buffer size offset
      return (.read n buffer, ⟨fs, w.files⟩)
  | .write h buffer size => do
      let f ← w.file h
      let (n, f, fs) ← w.fs.fileWrite f buffer size
      return (.count n, w.setFile h (some f) fs)
  | .writeAt h buffer size offset => do
      let f ← w.file h
      let (n, fs) ← w.fs.writeAt f.inode buffer size offset
      return (.count n, ⟨fs, w.files⟩)
  | .seek h pos => do
      let f ← w.file h
      return (.nothing, w.setFile h (some { f with pos := pos }) w.fs)
  | .tell h => do
      let f ← w.file h
      return (.count f.pos, w)
  | .length h => do
      let f ← w.file h
      let n ← w.fs.fileLength f
      return (.count n, w)
  | .close h => do
      let f ← w.file h
      let fs ← w.fs.fileClose (some f)
      return (.nothing, w.setFile h none fs)
  | .remove name => do
      let (success, fs) ← w.fs.filesysRemove name
      return (.done success, ⟨fs, w.files⟩)

/-- A name is a string, a size is an `off_t`, and a handle is open. -/
def Allowed : DeskCall → Prop
  | .create name initialSize => (0 : UInt8) ∉ name ∧ initialSize < 2 ^ 31
  | .openFile name | .remove name => (0 : UInt8) ∉ name
  | .reopen h | .read h .. | .readAt h .. | .write h .. | .writeAt h .. | .seek h _ | .tell h | .length h
  | .close h => Handles.get w.files h ≠ none

instance : (c : DeskCall) → Decidable (w.Allowed c)
  | .create .. => inferInstanceAs (Decidable (_ ∧ _))
  | .openFile _ | .remove _ => inferInstanceAs (Decidable (_ ∉ _))
  | .reopen _ | .read .. | .readAt .. | .write .. | .writeAt .. | .seek .. | .tell _ | .length _
  | .close _ => inferInstanceAs (Decidable (_ ≠ _))

def next (c : DeskCall) : Option Desk := (w.run c).toOption.map Prod.snd

/-- A disk was formatted with memory for everything, and no file is open. -/
def Starts : Prop :=
  w.files = [] ∧ ∃ d grants junk, Registered d ∧ (∀ k, grants k = true) ∧ filesysInit true d grants junk = .ok w.fs

end Desk

def desks : System Desk DeskCall := (System.ofNext Desk.Starts Desk.next).under Desk.Allowed

end Calls

section Stores

/-- Files by their names and handles; a handle has a position. -/
abbrev Store := Handles.Objects (List UInt8) Nat Nat (List UInt8)

/-- The bytes from a position on, as far as the file goes. -/
def slice (contents : List UInt8) (pos size : Nat) : List UInt8 := (contents.drop pos).take size

/-- New bytes over those from a position on. -/
def splice (contents new : List UInt8) (pos : Nat) : List UInt8 :=
  contents.take pos ++ new ++ contents.drop (pos + new.length)

/-- What a call on the store answers, and what it makes of it. `create` may fail, and then changes
nothing. -/
def StoreAnswers (s : Store) : DeskCall → DeskAnswer → Store → Prop
  | .create name initialSize, .done success, s' =>
      if success then ValidName name ∧ s.names name = none ∧ ∃ k, s.contents k = none ∧
        s'.Is (Function.update s.names name (some k)) s.handles
          (Function.update s.contents k (some (List.replicate initialSize 0)))
      else s' = s
  | .openFile name, .file none, s' => s.names name = none ∧ s' = s
  | .openFile name, .file (some h), s' => ∃ k, s.names name = some k ∧ s.handles h = none ∧
      s'.Is s.names (Function.update s.handles h (some (k, 0))) s.contents
  | .reopen h, .file (some h'), s' => ∃ k pos, s.handles h = some (k, pos) ∧ s.handles h' = none ∧
      s'.Is s.names (Function.update s.handles h' (some (k, 0))) s.contents
  | .read h buffer size, .read n buffer', s' => ∃ k pos contents, s.handles h = some (k, pos) ∧
      s.contents k = some contents ∧ n = (slice contents pos size).length ∧
      buffer' = buffer.writeBytes 0 (slice contents pos size) ∧
      s'.Is s.names (Function.update s.handles h (some (k, pos + n))) s.contents
  | .readAt h buffer size offset, .read n buffer', s' => ∃ k pos contents, s.handles h = some (k, pos) ∧
      s.contents k = some contents ∧ n = (slice contents offset size).length ∧
      buffer' = buffer.writeBytes 0 (slice contents offset size) ∧ s' = s
  | .write h buffer size, .count n, s' => ∃ k pos contents, s.handles h = some (k, pos) ∧
      s.contents k = some contents ∧ n = (slice contents pos size).length ∧
      s'.Is s.names (Function.update s.handles h (some (k, pos + n)))
        (Function.update s.contents k (some (splice contents (buffer.readBytes 0 n) pos)))
  | .writeAt h buffer size offset, .count n, s' => ∃ k pos contents, s.handles h = some (k, pos) ∧
      s.contents k = some contents ∧ n = (slice contents offset size).length ∧
      s'.Is s.names s.handles
        (Function.update s.contents k (some (splice contents (buffer.readBytes 0 n) offset)))
  | .seek h pos, .nothing, s' => ∃ k old, s.handles h = some (k, old) ∧
      s'.Is s.names (Function.update s.handles h (some (k, pos))) s.contents
  | .tell h, .count n, s' => ∃ k, s.handles h = some (k, n) ∧ s' = s
  | .length h, .count n, s' => ∃ k pos contents, s.handles h = some (k, pos) ∧
      s.contents k = some contents ∧ n = contents.length ∧ s' = s
  | .close h, .nothing, s' => s'.Is s.names (Function.update s.handles h none) s.contents
  | .remove name, .done success, s' => (success = true ↔ s.names name ≠ none) ∧
      s'.Is (Function.update s.names name none) s.handles s.contents
  | _, _, _ => False

/-- A store, without files at first. -/
def stores : System Store (DeskCall × DeskAnswer) where
  init s := s.names = (fun _ => none) ∧ s.handles = fun _ => none
  step s a s' := StoreAnswers s a.1 a.2 s'

end Stores

section Abstraction

/-- The bytes of the inode at a sector. -/
def contentsAt (d : Disk) (k : Nat) : List UInt8 :=
  (fileBytes d (dataOf d k)).readBytes 0 (dataOf d k).length

/-- What the handles of some open files refer to. -/
def handlesOf (fs : FileSys) (files : List (Option File)) (h : Nat) : Option (Nat × Nat) :=
  (Handles.get files h).bind fun f => (fs.inodes f.inode).map fun i => (i.sector, f.pos)

/-- The store that the file system stands for. -/
noncomputable def storeOf (w : Desk) : Store :=
  .of (fileNamed w.fs.device) (handlesOf w.fs w.files) fun k => contentsAt w.fs.device k

end Abstraction

end CS162.Pintos.FileSystem
