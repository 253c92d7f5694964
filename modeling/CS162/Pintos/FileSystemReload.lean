import CS162.Pintos.FileSystemCleanCalls
import CS162.Pintos.FileSystemLaw

/-!
What `filesys_init` finds on a disk that `filesys_done` left. The free map is read from its
own file, whose bits behind the last sector mean nothing; so a disk may differ there from the
one in the model, which writes zeros.
-/

namespace CS162.Pintos.FileSystem
open CS162.Library

def filesysDone (s : FileSys) : Except Panic FileSys := s.freeMapClose

/-- The length of the file of a name, and what `file_read_at` reads of it: how much, and into
which buffer. -/
def readNamed (s : FileSys) (name : List UInt8) (buffer : Library.Memory) (size offset : Nat) :
    Except Panic (Option (Nat × Nat × Library.Memory)) := do
  let (file, s) ← s.filesysOpen name
  match file with
  | none => return none
  | some f =>
      let i ← s.inode f.inode
      let (n, buffer, _) ← s.readAt f.inode buffer size offset
      return some (i.data.length, n, buffer)

/-- The same disk, but for bits of the free map's file that stand for no sector. -/
structure Padded (d d' : Disk) : Prop where
  size : d'.size = d.size
  others : ∀ r, ¬ (dataOf d freeMapSector).Has r → d'.sectors r = d.sectors r
  bits : ∀ i < d.size, (fileBytes d' (dataOf d freeMapSector) (i / 8)).toNat.testBit (i % 8) =
    (fileBytes d (dataOf d freeMapSector) (i / 8)).toNat.testBit (i % 8)

section
variable {s s' : FileSys} {openers : List Nat} {p : Nat} {d d' : Disk} {data : InodeDisk}
  {name : List UInt8}

section Reading

theorem readNamed_eq (h : Sound s openers) (granted : Granted s) (name : List UInt8)
    (buffer : Library.Memory) (size offset : Nat) :
    readNamed s name buffer size offset = .ok ((fileNamed s.device name).map fun k =>
      let data := dataOf s.device k
      (data.length, bytesLeft data size offset,
        buffer.copy 0 (fileBytes s.device data) offset (bytesLeft data size offset))) := by
  obtain ⟨result, s₁, opened, _, _, sound⟩ := filesysOpen_spec h name
  have granted₁ : Granted s₁ := (granted.filesysOpen name).get opened
  simp only [readNamed, opened, ok_bind]
  cases result with
  | none =>
      cases named : fileNamed s.device name with
      | none => rfl
      | some k =>
          obtain ⟨f, _, ran, _⟩ := filesysOpen_granted h granted (named ▸ Option.some_ne_none k)
          cases opened.symm.trans ran
  | some f =>
      obtain ⟨sound, _⟩ := sound
      obtain ⟨_, device, i, found, named⟩ := filesysOpen_named h opened
      have data := (sound.cached _ i found).1
      rw [named, Option.map_some]
      simp only [inode_eq found, ok_bind,
        readAt_granted granted₁.first found (sound.onDisk found) buffer size offset]
      rw [data, device]
      rfl

end Reading

section Booting

theorem ofMapBytes_congr {bytes bytes' : Library.Memory} {n : Nat}
    (same : ∀ i < n, (bytes (i / 8)).toNat.testBit (i % 8) = (bytes' (i / 8)).toNat.testBit (i % 8)) :
    ofMapBytes bytes n = ofMapBytes bytes' n :=
  congrArg Bitmap.mk (List.map_congr_left fun i inside => same i (List.mem_range.mp inside))

theorem Blank.table (blank : Blank s) : Table s := by
  have none (p : Nat) : s.inodes p = none := congrFun blank.inodes p
  constructor
  case unique =>
    intro p q i j found
    cases (none p).symm.trans found
  case listed =>
    intro p
    rw [blank.openInodes, none]
    simp
  case nodup => exact blank.openInodes ▸ List.nodup_nil
  case fresh => exact fun p _ => none p
  case counted =>
    intro p i found
    cases (none p).symm.trans found

/-- `free_map_open` with memory, on a disk whose free map has a file of its own size. -/
theorem freeMapOpen_granted (blank : Blank s) (granted : Granted s)
    (inside : freeMapSector < s.device.size) (onDisk : OnDisk s.device data)
    (inode : dataOf s.device freeMapSector = data) (length : data.length = byteCnt s.freeMap.size) :
    ∃ f s', s.freeMapOpen = .ok s' ∧ Granted s' ∧ s'.freeMapFile = some f ∧ s'.device = s.device ∧
      s'.freeMap = ofMapBytes (fileBytes s.device data) s.freeMap.size ∧ OnlyMap s' f.inode data := by
  obtain ⟨p, i, s₁, opened, _, granted₁, _⟩ := blank.table.openGranted granted inside
  have openFile : s.openFreeMapFile =
      .ok (⟨p, 0⟩, { s₁.malloc.2 with freeMapFile := some ⟨p, 0⟩ }) := by
    simp only [FileSys.openFreeMapFile, opened, bind, Except.bind, FileSys.fileOpen, granted₁.first]
    rfl
  obtain ⟨file, _, device, map, only⟩ := (openFreeMapFile_spec blank).get openFile
  rw [inode] at only
  have granted₂ : Granted { s₁.malloc.2 with freeMapFile := some ⟨p, 0⟩ } := granted₁.malloc
  generalize { s₁.malloc.2 with freeMapFile := some ⟨p, 0⟩ } = s₂ at openFile file device map only granted₂
  have device : s₂.device = s.device := device
  have map : s₂.freeMap = s.freeMap := map
  have read := readAt_granted granted₂.first only.found (device.symm ▸ onDisk) (mapBytes s₂.freeMap)
    (byteCnt s₂.freeMap.size) 0
  have whole : bytesLeft data (byteCnt s₂.freeMap.size) 0 = byteCnt s₂.freeMap.size := by
    rw [bytesLeft, length, map]
    exact Nat.min_self _
  simp only [whole] at read
  refine ⟨⟨p, 0⟩, { s₂.malloc.2 with freeMap := ofMapBytes ((mapBytes s₂.freeMap).copy 0
    (fileBytes s₂.device data) 0 (byteCnt s₂.freeMap.size)) s₂.freeMap.size }, ?_, granted₂.malloc, file,
    device, ?_, only.congr rfl rfl rfl rfl⟩
  · simp only [FileSys.freeMapOpen, openFile, ok_bind, FileSys.bitmapRead, read, pure, Except.pure,
      beq_self_eq_true, if_true]
    rfl
  · rw [← map, ← device]
    apply ofMapBytes_congr
    intro i below
    rw [Memory.copy, if_pos, Nat.zero_add, Nat.sub_zero]
    simp only [byteCnt]
    omega

/-- `filesys_init` with memory, on a disk that was formatted before. -/
theorem filesysInit_formatted {grants : Nat → Bool} (all : ∀ k, grants k = true)
    (junk : Library.Memory) (bound : d.size ≤ 2 ^ 21) (inside : freeMapSector < d.size)
    (onDisk : OnDisk d data) (inode : dataOf d freeMapSector = data)
    (length : data.length = byteCnt d.size) :
    ∃ f s', filesysInit false d grants junk = .ok s' ∧ Granted s' ∧ s'.freeMapFile = some f ∧
      s'.device = d ∧ s'.freeMap = ofMapBytes (fileBytes d data) d.size ∧
      OnlyMap s' f.inode data := by
  obtain ⟨s₀, ran, device, granted⟩ : ∃ s₀, FileSys.freeMapInit
      ⟨d, ⟨[]⟩, none, fun _ => none, [], 0, grants, junk, []⟩ = .ok s₀ ∧ s₀.device = d ∧
      Granted s₀ := by
    refine ⟨_, if_pos ?_, rfl, fun k => all (k + 2)⟩
    exact (Bool.and_eq_true ..).mpr ⟨all 0, all 1⟩
  have begun := (freeMapInit_spec bound grants junk).get ran
  have size : s₀.freeMap.size = d.size := begun.size.trans (congrArg Disk.size device)
  obtain ⟨f, s', opened, granted', file, device', map, only⟩ := freeMapOpen_granted begun.blank granted
    (device.symm ▸ inside) (device.symm ▸ onDisk) (device.symm ▸ inode) (length.trans (size ▸ rfl))
  refine ⟨f, s', ?_, granted', file, device'.trans device, ?_, only⟩
  · simp only [filesysInit, ran, ok_bind, Bool.false_eq_true, if_false, pure, Except.pure]
    exact opened
  · rw [map, device, size]

theorem filesysInit_clean {grants : Nat → Bool} (all : ∀ k, grants k = true) (junk : Library.Memory)
    (bound : d.size ≤ 2 ^ 21) : Yields (Clean Nothing) (filesysInit true d grants junk) := by
  apply Yields.of_ok
  intro s ran
  obtain ⟨s₀, begin, ran'⟩ := bind_eq_ok ran
  obtain ⟨s₁, format, reopen⟩ := bind_eq_ok ran'
  have begun := (freeMapInit_spec bound grants junk).get begin
  have format : s₀.doFormat = .ok s₁ := format
  have formatted := (doFormat_spec begun).get format
  obtain ⟨f, _, device, map, only⟩ := (freeMapOpen_spec formatted).get reopen
  constructor
  case granted => exact (filesysInit_granted all).get ran
  case marks =>
    intro r marked
    rw [map] at marked
    obtain ⟨o, alive, has⟩ := formatted.clean r marked
    rw [device]
    exact .inr ⟨o, alive.imp_right .inl, has⟩
  case named =>
    intro p i found file
    obtain ⟨_, rfl⟩ := only.of_found found
    have file : 2 ≤ freeMapSector := file
    exact absurd file (by decide)
  case length => rw [device, map, formatted.length]
  case saved =>
    intro pos below
    rw [map] at below ⊢
    rw [device]
    exact formatted.saved pos below

end Booting

section Law

/-- The callers of a disk that was formatted with memory for everything. -/
def StartsGranted (w : Callers) : Prop :=
  w.openers = [] ∧ ∃ d grants junk, Registered d ∧ (∀ k, grants k = true) ∧
    filesysInit true d grants junk = .ok w.fs

/-- A file is created. The other calls may fail: then they change nothing on the disk. -/
def Succeeds (w : Callers) : Call → Prop
  | .create name initialSize =>
      (w.fs.filesysCreate name initialSize).toOption.map Prod.fst = some true
  | _ => True

instance (w : Callers) : (c : Call) → Decidable (Succeeds w c)
  | .create .. => inferInstanceAs (Decidable (_ = _))
  | .openFile _ | .remove _ | .reopen _ | .writeAt .. | .close _ => .isTrue trivial

def successes : System Callers Call :=
  (System.ofNext StartsGranted next).under fun w c => Allowed w c ∧ Succeeds w c

/-- What another start finds: the same free map, which marks what is used and nothing else,
and the same files. -/
structure Reloaded (s s' : FileSys) : Prop where
  map : s'.freeMap = s.freeMap
  marked : ∀ r, Marked s'.freeMap r ↔ r = freeMapSector ∨ r = rootDirSector ∨
    (dataOf s'.device freeMapSector).Has r ∨ (dataOf s'.device rootDirSector).Has r ∨
    ∃ k, Linked s'.device k ∧ (r = k ∨ (dataOf s'.device k).Has r)
  slots : slotCount s'.device = slotCount s.device
  names : ∀ j < slotCount s.device, entry (rootBytes s'.device) j = entry (rootBytes s.device) j
  files : ∀ k, Linked s.device k → dataOf s'.device k = dataOf s.device k ∧
    ∀ pos < (dataOf s.device k).length, fileBytes s'.device (dataOf s.device k) pos =
      fileBytes s.device (dataOf s.device k) pos
  reads : ∀ name buffer size offset,
    readNamed s' name buffer size offset = readNamed s name buffer size offset

/-- `filesys_done` ends, and `filesys_init` finds what was there. -/
def Persists (s : FileSys) : Prop :=
  ∃ s₁, filesysDone s = .ok s₁ ∧ ∀ d grants junk, Padded s₁.device d → (∀ k, grants k = true) →
    ∃ s', filesysInit false d grants junk = .ok s' ∧ Reloaded s s'

theorem filesysDone_spec (h : Sound s openers) :
    ∃ s₁, filesysDone s = .ok s₁ ∧ s₁.device = s.device := by
  obtain ⟨f, i, file, found, sector⟩ := h.mapFile
  have kept : ¬ (i.removed = true ∧ i.openCnt = 1) := by
    intro gone
    have := (h.removed f.inode i found gone.1).2.1
    rw [sector] at this
    exact absurd this (by decide)
  obtain ⟨s₁, closed, _, _, device, _⟩ := h.table.closeKept found kept
  refine ⟨s₁, ?_, device⟩
  rw [filesysDone, FileSys.freeMapClose, file]
  exact closed

section Idle
variable {m : Nat} (h : Sound s [m]) (first : ∃ i, s.inodes m = some i ∧ i.sector = freeMapSector)
include h first

theorem live_of_idle (k : Nat) :
    Live s k ↔ k = freeMapSector ∨ k = rootDirSector ∨ Linked s.device k := by
  constructor
  · intro alive
    obtain map | root | link | ⟨p, i, found, sector⟩ := alive
    · exact .inl map
    · exact .inr (.inl root)
    · exact .inr (.inr link)
    · have mine := (h.openers p).mpr (by rw [found]; exact Option.some_ne_none i)
      cases List.mem_singleton.mp mine
      obtain ⟨j, found', first⟩ := first
      cases found.symm.trans found'
      exact .inl (sector.symm.trans first)
  · intro alive
    exact alive.imp_right fun rest => rest.imp_right .inl

variable (c : Clean Nothing s)
include c

/-- The marks are those of the free map, the root directory and the files that have names. -/
theorem marked_of_idle (r : Nat) : Marked s.freeMap r ↔ r = freeMapSector ∨ r = rootDirSector ∨
    (dataOf s.device freeMapSector).Has r ∨ (dataOf s.device rootDirSector).Has r ∨
    ∃ k, Linked s.device k ∧ (r = k ∨ (dataOf s.device k).Has r) := by
  constructor
  · intro marked
    obtain none | ⟨⟨part, k⟩, alive, has⟩ := c.marks r marked
    · cases none
    · obtain rfl | rfl | link := (live_of_idle h first k).mp alive
      · cases part with
        | inode => exact .inl has
        | data => exact .inr (.inr (.inl has))
      · cases part with
        | inode => exact .inr (.inl has)
        | data => exact .inr (.inr (.inr (.inl has)))
      · refine .inr (.inr (.inr (.inr ⟨k, link, ?_⟩)))
        cases part with
        | inode => exact .inl has
        | data => exact .inr has
  · intro used
    have map : Live s freeMapSector := .inl rfl
    obtain rfl | rfl | has | has | ⟨k, link, mine⟩ := used
    · exact h.layout.holds_inode map
    · exact h.layout.holds_inode h.layout.root
    · exact h.layout.holds_data map has
    · exact h.layout.holds_data h.layout.root has
    · have alive := (h.layout.linked k link).1
      cases mine with
      | inl same => exact same ▸ h.layout.holds_inode alive
      | inr has => exact h.layout.holds_data alive has

end Idle

section Reload
variable (h : Sound s openers) (pad : Padded s.device d)
include h pad

theorem padded_sectors {k : Nat} (alive : Live s k) : d.sectors k = s.device.sectors k :=
  pad.others k (h.layout.inode_apart alive (.inl rfl))

theorem padded_dataOf {k : Nat} (alive : Live s k) : dataOf d k = dataOf s.device k := by
  rw [dataOf, dataOf, padded_sectors h pad alive]

theorem padded_data {k : Nat} (alive : Live s k) (other : k ≠ freeMapSector) (r : Nat)
    (has : (dataOf s.device k).Has r) : d.sectors r = s.device.sectors r :=
  pad.others r fun has' => other (h.layout.data_apart alive (.inl rfl) has has')

theorem padded_bytes {k pos : Nat} (alive : Live s k) (other : k ≠ freeMapSector)
    (inside : pos < (dataOf s.device k).length) :
    fileBytes d (dataOf s.device k) pos = fileBytes s.device (dataOf s.device k) pos :=
  fileBytes_congr (padded_data h pad alive other) inside

theorem padded_entry {j : Nat} (inside : j < slotCount s.device) :
    entry (rootBytes d) j = entry (rootBytes s.device) j := by
  apply entry_congr
  intro x lower upper
  rw [rootBytes, padded_dataOf h pad h.layout.root]
  apply padded_bytes h pad h.layout.root (by decide)
  have := Nat.div_mul_le_self (dataOf s.device rootDirSector).length entrySize
  simp only [slotCount, entrySize] at *
  omega

theorem padded_fileNamed (name : List UInt8) : fileNamed d name = fileNamed s.device name := by
  have count : slotCount d = slotCount s.device := by
    rw [slotCount, slotCount, padded_dataOf h pad h.layout.root]
  rw [fileNamed, count]
  exact congrFun (SlotTable.toMap_congr fun j inside => padded_entry h pad inside) name

/-- The map that is read is the one that was written, whatever stands behind its last bit. -/
theorem padded_map (c : Clean Nothing s) :
    ofMapBytes (fileBytes d (dataOf s.device freeMapSector)) d.size = s.freeMap := by
  have size : d.size = s.freeMap.size := pad.size.trans h.layout.size.symm
  rw [size]
  refine (ofMapBytes_congr fun i inside => ?_).trans (ofMapBytes_mapBytes s.freeMap)
  rw [pad.bits i (h.layout.size ▸ inside), c.saved (i / 8)]
  simp only [byteCnt]
  omega

/-- The state that `filesys_init` leaves is sound. -/
theorem padded_sound {m : Nat} {f : File} (idle : openers = [m])
    (first : ∃ i, s.inodes m = some i ∧ i.sector = freeMapSector) (device : s'.device = d)
    (map : s'.freeMap = s.freeMap) (file : s'.freeMapFile = some f)
    (only : OnlyMap s' f.inode (dataOf s.device freeMapSector)) : Sound s' [f.inode] := by
  subst idle device
  have dir := padded_data h pad h.layout.root (by decide)
  obtain ⟨layout, links⟩ := h.layout.congr pad.size (congrArg Bitmap.size map)
    (fun k => padded_sectors h pad) dir fun _ _ _ marked => map.symm ▸ marked
  rw [← padded_dataOf h pad (.inl rfl)] at only
  refine OnlyMap.sound (Live.congr (fun k => ?_) layout) file only
  rw [live_of_idle h first, Live, links]
  constructor
  · intro alive
    obtain map | root | link | ⟨p, i, found, sector⟩ := alive
    · exact .inl map
    · exact .inr (.inl root)
    · exact .inr (.inr link)
    · obtain ⟨_, rfl⟩ := only.of_found found
      exact .inl sector.symm
  · exact fun alive => alive.imp_right fun rest => rest.imp_right .inl

theorem padded_reads (c : Clean Nothing s) {openers' : List Nat} (sound : Sound s' openers')
    (granted : Granted s') (device : s'.device = d) (name : List UInt8) (buffer : Library.Memory) (size offset : Nat) :
    readNamed s' name buffer size offset = readNamed s name buffer size offset := by
  rw [readNamed_eq sound granted, readNamed_eq h c.granted, device, padded_fileNamed h pad name]
  cases named : fileNamed s.device name with
  | none => rfl
  | some k =>
      obtain ⟨alive, file⟩ := live_of_named h.layout named
      have other : k ≠ freeMapSector := Nat.ne_of_gt (Nat.lt_of_lt_of_le Nat.two_pos file)
      have bytes : buffer.copy 0 (fileBytes d (dataOf s.device k)) offset
          (bytesLeft (dataOf s.device k) size offset) = buffer.copy 0
          (fileBytes s.device (dataOf s.device k)) offset
          (bytesLeft (dataOf s.device k) size offset) := by
        apply Memory.copy_congr
        intro x inside
        apply padded_bytes h pad alive other
        simp only [bytesLeft] at inside
        omega
      simp only [Option.map_some, padded_dataOf h pad alive, bytes]

end Reload

theorem reload {m : Nat} (h : Sound s [m])
    (first : ∃ i, s.inodes m = some i ∧ i.sector = freeMapSector) (c : Clean Nothing s)
    (pad : Padded s.device d) {grants : Nat → Bool} (all : ∀ k, grants k = true)
    (junk : Library.Memory) :
    ∃ s', filesysInit false d grants junk = .ok s' ∧ Reloaded s s' := by
  have map : Live s freeMapSector := .inl rfl
  have onDisk := h.layout.onDisk freeMapSector map
  obtain ⟨f, s', ran, granted, file, device, freeMap, only⟩ := filesysInit_formatted all junk
    (pad.size ▸ h.layout.device) (pad.size ▸ h.layout.lt_size map)
    (⟨pad.size ▸ onDisk.fits, pad.size ▸ onDisk.device⟩ : OnDisk d (dataOf s.device freeMapSector))
    (padded_dataOf h pad map) (by rw [c.length, pad.size, h.layout.size])
  have same := freeMap.trans (padded_map h pad c)
  have sound := padded_sound h pad rfl first device same file only
  subst device
  obtain ⟨_, _, links⟩ := linked_congr (padded_sectors h pad h.layout.root)
    (padded_data h pad h.layout.root (by decide))
  refine ⟨s', ran, ?_⟩
  constructor
  case map => exact same
  case marked =>
    intro r
    rw [same, marked_of_idle h first c, padded_dataOf h pad map, padded_dataOf h pad h.layout.root]
    refine or_congr_right (or_congr_right (or_congr_right (or_congr_right ?_)))
    refine exists_congr fun k => ?_
    rw [links]
    refine and_congr_right fun link => ?_
    rw [padded_dataOf h pad (h.layout.linked k link).1]
  case slots => rw [slotCount, slotCount, padded_dataOf h pad h.layout.root]
  case names => exact fun j => padded_entry h pad
  case files =>
    intro k link
    obtain ⟨alive, file⟩ := h.layout.linked k link
    have other : k ≠ freeMapSector := Nat.ne_of_gt (Nat.lt_of_lt_of_le Nat.two_pos file)
    exact ⟨padded_dataOf h pad alive, fun pos => padded_bytes h pad alive other⟩
  case reads => exact padded_reads h pad c sound granted rfl

theorem Kempt.clean_next {w w' : Callers} {m : Nat} (k : Kempt w m) (c : Clean Nothing w.fs)
    {call : Call} (allowed : Allowed w call) (succeeds : Succeeds w call)
    (step : FileSystem.next w call = some w') : Clean Nothing w'.fs := by
  cases call with
  | create name initialSize =>
      obtain ⟨⟨success, s⟩, ran, rfl⟩ := Option.map_eq_some_iff.mp step
      obtain ⟨⟨_, _⟩, ran', rfl⟩ := Option.map_eq_some_iff.mp succeeds
      cases ran.symm.trans ran'
      exact c.filesysCreate k.sound allowed (toOption_some.mp ran)
  | openFile name =>
      obtain ⟨r, ran, rfl⟩ := Option.map_eq_some_iff.mp step
      exact c.filesysOpen k.sound (toOption_some.mp ran)
  | reopen p =>
      cases step
      obtain ⟨i, found, _⟩ := k.files p allowed
      exact c.reopen found
  | writeAt p buffer size offset =>
      obtain ⟨r, ran, rfl⟩ := Option.map_eq_some_iff.mp step
      exact c.writeAt k.sound (k.files p allowed) buffer size offset (toOption_some.mp ran)
  | close p =>
      obtain ⟨s, ran, rfl⟩ := Option.map_eq_some_iff.mp step
      obtain ⟨i, found, bound⟩ := k.files p allowed
      have other : i.sector ≠ freeMapSector := Nat.ne_of_gt (Nat.lt_of_lt_of_le Nat.two_pos bound)
      obtain ⟨s', closed, _, clean⟩ :=
        c.closeInode (k.sound.perm (List.perm_cons_erase (List.mem_cons_of_mem m allowed))) found other
      cases closed.symm.trans (toOption_some.mp ran)
      exact clean
  | remove name =>
      obtain ⟨r, ran, rfl⟩ := Option.map_eq_some_iff.mp step
      exact c.filesysRemove k.sound (toOption_some.mp ran)

theorem kempt_of_successes {w : Callers} (h : successes.Reachable w) :
    ∃ m, Kempt w m ∧ Clean Nothing w.fs := by
  apply h.invariant (I := fun w => ∃ m, Kempt w m ∧ Clean Nothing w.fs)
  · intro w starts
    obtain ⟨none, d, grants, junk, registered, all, init⟩ := starts
    obtain ⟨m, kempt⟩ := kempt_of_starts ⟨none, d, grants, junk, registered, init⟩
    exact ⟨m, kempt, (filesysInit_clean all junk (Nat.le_of_lt registered)).get init⟩
  · intro w c w' inv step
    obtain ⟨m, kempt, clean⟩ := inv
    obtain ⟨step, allowed, succeeds⟩ := step
    obtain ⟨_, ran, kempt', _⟩ := kempt.next c allowed
    cases ran.symm.trans step
    exact ⟨m, kempt', kempt.clean_next clean allowed succeeds ran⟩

/-- Whatever was done since the disk was formatted, once all files are closed it comes back as
it was: with the same free map, which marks what the files that have names need, and with the
same files. -/
theorem persists_of_successes {w : Callers} (h : successes.Reachable w) (closed : w.openers = []) :
    Persists w.fs := by
  obtain ⟨m, kempt, clean⟩ := kempt_of_successes h
  have sound := kempt.sound
  rw [closed] at sound
  obtain ⟨s₁, done, device⟩ := filesysDone_spec sound
  refine ⟨s₁, done, fun d grants junk pad all => ?_⟩
  rw [device] at pad
  exact reload sound kempt.map clean pad all junk

/-- A file is removed while it is open, and another one is left. -/
def savedCalls : List Call :=
  [.create [97] 600, .openFile [97], .reopen 4, .remove [97], .create [98] 10, .openFile [98],
    .writeAt 8 (fun _ => 7) 10 0, .close 4, .close 8, .close 4]

theorem persists_of_savedCalls : ∃ w, successes.Reachable w ∧
    (w.openers = [] ∧ fileNamed w.fs.device [97] = none ∧ fileNamed w.fs.device [98] ≠ none) ∧
      Persists w.fs := by
  have fact : ((filesysInit true ⟨12, fun _ _ => 0⟩ (fun _ => true) (fun _ => 0)).toOption.bind
      fun s => System.exec
        (fun w c => if Allowed w c ∧ Succeeds w c then next w c else none) ⟨s, []⟩
        savedCalls).any (fun w => decide (w.openers = [] ∧ fileNamed w.fs.device [97] = none ∧
          fileNamed w.fs.device [98] ≠ none)) = true := by decide +kernel
  cases init : filesysInit true ⟨12, fun _ _ => 0⟩ (fun _ => true) (fun _ => 0) with
  | error _ =>
      rw [init] at fact
      cases fact
  | ok s =>
      rw [init] at fact
      obtain ⟨w, reach, done⟩ := System.exists_reachable_under StartsGranted next
        (fun w c => Allowed w c ∧ Succeeds w c) _ (s := ⟨s, []⟩)
        ⟨rfl, _, _, _, by decide, fun _ => rfl, init⟩ savedCalls fact
      have done := of_decide_eq_true done
      exact ⟨w, reach, done, persists_of_successes reach done.1⟩

end Law
end
end CS162.Pintos.FileSystem
