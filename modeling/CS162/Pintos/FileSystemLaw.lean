import CS162.Library.Transition
import CS162.Pintos.FileSystemFormat

/-!
Runs of a formatted file system: its callers create, open, reopen, write, close and
remove files in any order, and a call may fail. No sector ever has two owners, owned
sectors are marked, and the sectors of a removed file are released once, when its last
opener leaves. No call stops at an assertion.
-/

namespace CS162.Pintos.FileSystem
open CS162.Library

/-- The driver ignores disks of a gigabyte or more (ide.c: `identify_ata_device`). -/
def Registered (d : Disk) : Prop := d.size < 1024 * 1024 * 1024 / sectorSize

instance (d : Disk) : Decidable (Registered d) := inferInstanceAs (Decidable (_ < _))

/-- The file system and the inodes of its callers, one entry for each opener. -/
structure Callers where
  fs : FileSys
  openers : List Nat

/-- The openers, with `free_map_file` among them. -/
def Callers.all (w : Callers) : List Nat := (w.fs.freeMapFile.map File.inode).toList ++ w.openers

inductive Call where
  | create (name : List UInt8) (initialSize : Nat)
  | openFile (name : List UInt8)
  | reopen (p : Nat)
  | writeAt (p : Nat) (buffer : Library.Memory) (size offset : Nat)
  | close (p : Nat)
  | remove (name : List UInt8)

/-- A size is an `off_t`, and who uses an inode has it open. -/
def Allowed (w : Callers) : Call → Prop
  | .create _ initialSize => initialSize < 2 ^ 31
  | .openFile _ | .remove _ => True
  | .reopen p | .writeAt p .. | .close p => p ∈ w.openers

instance (w : Callers) : (c : Call) → Decidable (Allowed w c)
  | .create .. => inferInstanceAs (Decidable (_ < _))
  | .openFile _ | .remove _ => .isTrue trivial
  | .reopen _ | .writeAt .. | .close _ => inferInstanceAs (Decidable (_ ∈ _))

/-- A call that returns; `none` is a panic. -/
def next (w : Callers) : Call → Option Callers
  | .create name initialSize =>
      (w.fs.filesysCreate name initialSize).toOption.map fun r => ⟨r.2, w.openers⟩
  | .openFile name =>
      (w.fs.filesysOpen name).toOption.map fun r => ⟨r.2, (r.1.map File.inode).toList ++ w.openers⟩
  | .reopen p => some ⟨w.fs.inodeReopen p, p :: w.openers⟩
  | .writeAt p buffer size offset =>
      (w.fs.writeAt p buffer size offset).toOption.map fun r => ⟨r.2, w.openers⟩
  | .close p => (w.fs.inodeClose (some p)).toOption.map fun fs => ⟨fs, w.openers.erase p⟩
  | .remove name => (w.fs.filesysRemove name).toOption.map fun r => ⟨r.2, w.openers⟩

/-- A disk was formatted, and no caller has a file open. -/
def Starts (w : Callers) : Prop :=
  w.openers = [] ∧ ∃ d grants junk, Registered d ∧ filesysInit true d grants junk = .ok w.fs

def system : System Callers Call := (System.ofNext Starts next).under Allowed

/-- The law of the sectors, the inodes in memory and the releases. -/
structure SectorLaw (w : Callers) : Prop where
  owned : Backed (Holds w.fs.device (Live w.fs)) (Marked w.fs.freeMap)
  cached : ∀ p i, w.fs.inodes p = some i → i.data = dataOf w.fs.device i.sector
  unique : ∀ p q i j, w.fs.inodes p = some i → w.fs.inodes q = some j → i.sector = j.sector →
    p = q
  listed : w.fs.openInodes.Nodup ∧ ∀ p, p ∈ w.fs.openInodes ↔ w.fs.inodes p ≠ none
  opened : ∀ p, p ∈ w.all ↔ w.fs.inodes p ≠ none
  counted : ∀ p i, w.fs.inodes p = some i → i.openCnt = w.all.count p
  released : ∀ p, w.fs.events.countP (Event.releases p) =
    if w.fs.events.any (Event.removes p) ∧ w.fs.inodes p = none then 1 else 0
  history : ∀ p k data, .released p k data ∈ w.fs.events → .removed p k data ∈ w.fs.events

/-- `m` is the inode of the free map, and callers have nothing but files open. -/
structure Kempt (w : Callers) (m : Nat) : Prop where
  map : ∃ i, w.fs.inodes m = some i ∧ i.sector = freeMapSector
  sound : Sound w.fs (m :: w.openers)
  files : ∀ p ∈ w.openers, FileAt w.fs p

namespace Kempt
variable {w w' : Callers} {m p : Nat}

theorem law (h : Kempt w m) : SectorLaw w := by
  obtain ⟨f, i, file, opened, sector⟩ := h.sound.mapFile
  obtain ⟨j, found, sector'⟩ := h.map
  have all : w.all = m :: w.openers := by
    rw [Callers.all, file, h.sound.unique m f.inode j i found opened (sector'.trans sector.symm)]
    rfl
  refine ⟨h.sound.layout.backed, fun p i found => (h.sound.cached p i found).1, h.sound.unique,
    ⟨h.sound.nodup, h.sound.listed⟩, ?_, ?_, h.sound.released, h.sound.history⟩
  · rw [all]
    exact h.sound.openers
  · rw [all]
    exact h.sound.counted

theorem step (h : Kempt w m) (sound : Sound w'.fs (m :: w'.openers)) (follows : Follows w.fs w'.fs)
    (files : ∀ p ∈ w'.openers, p ∈ w.openers ∨ FileAt w'.fs p) : Kempt w' m := by
  have same {q : Nat} (mine : q ∈ m :: w'.openers) {i : Inode} (found : w.fs.inodes q = some i) :
      ∃ i', w'.fs.inodes q = some i' ∧ i'.sector = i.sector := by
    obtain ⟨i', found'⟩ := Option.ne_none_iff_exists'.mp ((sound.openers q).mp mine)
    have old : q < w.fs.nextInode := by
      by_contra fresh
      cases found.symm.trans (h.sound.fresh q (Nat.not_lt.mp fresh)).1
    obtain ⟨j, was, sector⟩ := follows.sector q i' found' old
    cases found.symm.trans was
    exact ⟨i', found', sector.symm⟩
  constructor
  case map =>
    obtain ⟨i, found, sector⟩ := h.map
    obtain ⟨i', found', same⟩ := same List.mem_cons_self found
    exact ⟨i', found', same.trans sector⟩
  case sound => exact sound
  case files =>
    intro p mine
    cases files p mine with
    | inl old =>
        obtain ⟨i, found, bound⟩ := h.files p old
        obtain ⟨i', found', same⟩ := same (List.mem_cons_of_mem _ mine) found
        exact ⟨i', found', same.symm ▸ bound⟩
    | inr new => exact new

theorem perm (h : Kempt w m) {openers : List Nat} (same : w.openers.Perm openers) :
    Kempt ⟨w.fs, openers⟩ m where
  map := h.map
  sound := h.sound.perm (same.cons m)
  files p mine := h.files p (same.mem_iff.mpr mine)

theorem ne_map (h : Kempt w m) (mine : p ∈ w.openers) : m ≠ p := by
  rintro rfl
  obtain ⟨i, found, sector⟩ := h.map
  obtain ⟨j, found', bound⟩ := h.files m mine
  cases found.symm.trans found'
  rw [sector] at bound
  cases bound

theorem create (h : Kempt w m) (name : List UInt8) {initialSize : Nat}
    (bound : initialSize < 2 ^ 31) :
    ∃ w', next w (.create name initialSize) = some w' ∧ Kempt w' m ∧ Frees w.fs w'.fs := by
  obtain ⟨success, s', ran, keeps, follows, sound⟩ := filesysCreate_spec h.sound name bound
  refine ⟨⟨s', w.openers⟩, ?_, h.step sound follows fun p mine => .inl mine, keeps.frees⟩
  rw [next, ran]
  rfl

theorem openFile (h : Kempt w m) (name : List UInt8) :
    ∃ w', next w (.openFile name) = some w' ∧ Kempt w' m ∧ Frees w.fs w'.fs := by
  obtain ⟨result, s', ran, frees, follows, sound⟩ := filesysOpen_spec h.sound name
  refine ⟨⟨s', (result.map File.inode).toList ++ w.openers⟩, ?_, ?_, frees⟩
  · rw [next, ran]
    rfl
  cases result with
  | none => exact h.step sound follows fun p mine => .inl mine
  | some f =>
      obtain ⟨sound, file⟩ := sound
      refine h.step (sound.perm (.swap ..)) follows fun p mine => ?_
      cases List.mem_cons.mp mine with
      | inl new => exact .inr (new ▸ file)
      | inr old => exact .inl old

theorem reopen (h : Kempt w m) (mine : p ∈ w.openers) :
    ∃ w', next w (.reopen p) = some w' ∧ Kempt w' m ∧ Frees w.fs w'.fs := by
  obtain ⟨i, found, _⟩ := h.files p mine
  refine ⟨_, rfl, h.step ((h.sound.reopen found).perm (.swap ..)) ?_ fun q mine' => ?_,
    (Keeps.of_same rfl rfl).frees⟩
  · refine .of_update found (x := some { i with openCnt := i.openCnt + 1 }) (fun i' same => ?_) ?_ rfl
    · cases same
      rfl
    · rw [FileSys.inodeReopen, found]
      rfl
  · cases List.mem_cons.mp mine' with
    | inl same => exact .inl (same ▸ mine)
    | inr old => exact .inl old

theorem overwrite (h : Kempt w m) (mine : p ∈ w.openers) {i : Inode} (found : w.fs.inodes p = some i)
    {d : Disk} (size : d.size = w.fs.device.size)
    (others : ∀ r, ¬ i.data.Has r → d.sectors r = w.fs.device.sectors r) :
    Kempt ⟨{ w.fs.malloc.2 with device := d }, w.openers⟩ m := by
  obtain ⟨j, opened, bound⟩ := h.files p mine
  cases found.symm.trans opened
  have t : Touches (dataOf w.fs.device i.sector) w.fs { w.fs.malloc.2 with device := d } :=
    ⟨⟨rfl, rfl, rfl, rfl, rfl⟩, size, rfl, (h.sound.cached p i found).1 ▸ others⟩
  have other : i.sector ≠ rootDirSector := Nat.ne_of_gt bound
  obtain ⟨sound, _⟩ := h.sound.touch (Sound.live_of_opened found) other t fun _ _ _ marked => marked
  exact h.step sound t.toKept.follows fun p mine => .inl mine

theorem writeAt (h : Kempt w m) (mine : p ∈ w.openers) (buffer : Library.Memory)
    (size offset : Nat) :
    ∃ w', next w (.writeAt p buffer size offset) = some w' ∧ Kempt w' m ∧ Frees w.fs w'.fs := by
  obtain ⟨i, found, bound⟩ := h.files p mine
  obtain ⟨data, allowed⟩ := h.sound.cached p i found
  obtain ⟨n, d', ran, written, sizes, _⟩ :=
    writeAt_spec found (h.sound.onDisk found) allowed buffer size offset
  refine ⟨⟨{ w.fs.malloc.2 with device := d' }, w.openers⟩, ?_,
    h.overwrite mine found sizes written.others, (Keeps.of_same rfl rfl).frees⟩
  rw [next, ran]
  rfl

theorem close (h : Kempt w m) (mine : p ∈ w.openers) :
    ∃ w', next w (.close p) = some w' ∧ Kempt w' m ∧ Frees w.fs w'.fs := by
  obtain ⟨s', closed, sound, frees, follows⟩ := closeFile h.sound (h.files p mine)
  rw [List.erase_cons_tail (by simpa using h.ne_map mine)] at sound
  refine ⟨⟨s', w.openers.erase p⟩, ?_, h.step sound follows fun q mine' =>
    .inl (List.mem_of_mem_erase mine'), frees⟩
  rw [next, closed]
  rfl

theorem remove (h : Kempt w m) (name : List UInt8) :
    ∃ w', next w (.remove name) = some w' ∧ Kempt w' m ∧ Frees w.fs w'.fs := by
  obtain ⟨success, s', ran, frees, follows, sound⟩ := filesysRemove_spec h.sound name
  refine ⟨⟨s', w.openers⟩, ?_, h.step sound follows fun p mine => .inl mine, frees⟩
  rw [next, ran]
  rfl

theorem next (h : Kempt w m) (c : Call) (allowed : Allowed w c) :
    ∃ w', next w c = some w' ∧ Kempt w' m ∧ Frees w.fs w'.fs := by
  cases c with
  | create name initialSize => exact h.create name allowed
  | openFile name => exact h.openFile name
  | reopen p => exact h.reopen allowed
  | writeAt p buffer size offset => exact h.writeAt allowed buffer size offset
  | close p => exact h.close allowed
  | remove name => exact h.remove name

end Kempt

theorem kempt_of_starts {w : Callers} (h : Starts w) : ∃ m, Kempt w m := by
  obtain ⟨none, d, grants, junk, registered, init⟩ := h
  have bound : d.size ≤ 2 ^ 21 := Nat.le_of_lt registered
  obtain ⟨f, file, sound⟩ := (filesysInit_sound bound grants junk).get init
  obtain ⟨f', i, file', opened, sector⟩ := sound.mapFile
  cases file.symm.trans file'
  refine ⟨f.inode, ⟨i, opened, sector⟩, none ▸ sound, fun p mine => ?_⟩
  rw [none] at mine
  cases mine

theorem kempt_of_reachable {w : Callers} (h : system.Reachable w) : ∃ m, Kempt w m := by
  refine h.invariant (fun w => kempt_of_starts) ?_
  rintro w c w' ⟨m, kempt⟩ ⟨step, allowed⟩
  obtain ⟨w'', ran, kempt', _⟩ := kempt.next c allowed
  cases ran.symm.trans step
  exact ⟨m, kempt'⟩

end CS162.Pintos.FileSystem
