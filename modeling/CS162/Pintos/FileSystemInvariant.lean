import CS162.Library.Outcome
import CS162.Pintos.FileSystemLayout

/-!
The invariant of the file system: the layout of the disk with the inodes that are
linked or open as the live ones, and the list of open inodes. `openers` are the
inodes of the open files, one entry for each opener, `free_map_file` among them.
-/

namespace CS162.Pintos.FileSystem
open CS162.Library

def Opened (s : FileSys) (k : Nat) : Prop := ∃ p i, s.inodes p = some i ∧ i.sector = k

def Live (s : FileSys) (k : Nat) : Prop :=
  k = freeMapSector ∨ k = rootDirSector ∨ Linked s.device k ∨ Opened s k

structure Sound (s : FileSys) (openers : List Nat) : Prop where
  layout : Layout s.device s.freeMap (Live s)
  cached : ∀ p i, s.inodes p = some i →
    i.data = dataOf s.device i.sector ∧ i.denyWriteCnt = 0
  unique : ∀ p q i j, s.inodes p = some i → s.inodes q = some j → i.sector = j.sector → p = q
  counted : ∀ p i, s.inodes p = some i → i.openCnt = openers.count p
  openers : ∀ p, p ∈ openers ↔ s.inodes p ≠ none
  nodup : s.openInodes.Nodup
  listed : ∀ p, p ∈ s.openInodes ↔ s.inodes p ≠ none
  fresh : ∀ p, s.nextInode ≤ p → s.inodes p = none ∧ s.events.any (Event.removes p) = false
  removed : ∀ p i, s.inodes p = some i → i.removed = true →
    .removed p i.sector i.data ∈ s.events ∧ 2 ≤ i.sector ∧ ¬ Linked s.device i.sector
  marked : ∀ p i, s.inodes p = some i → s.events.any (Event.removes p) = true → i.removed = true
  released : ∀ p, s.events.countP (Event.releases p) =
    if s.events.any (Event.removes p) ∧ s.inodes p = none then 1 else 0
  history : ∀ p k data, .released p k data ∈ s.events → .removed p k data ∈ s.events
  mapFile : ∃ f i, s.freeMapFile = some f ∧ s.inodes f.inode = some i ∧ i.sector = freeMapSector

/-- Only the disk and the free map change. -/
structure Kept (s s' : FileSys) : Prop where
  mapFile : s'.freeMapFile = s.freeMapFile
  inodes : s'.inodes = s.inodes
  openInodes : s'.openInodes = s.openInodes
  nextInode : s'.nextInode = s.nextInode
  events : s'.events = s.events

section
variable {s s' s'' : FileSys} {openers : List Nat} {p k r : Nat} {i : Inode}

theorem Kept.refl (s : FileSys) : Kept s s := ⟨rfl, rfl, rfl, rfl, rfl⟩

theorem Kept.trans (h : Kept s s') (h' : Kept s' s'') : Kept s s'' :=
  ⟨h'.mapFile.trans h.mapFile, h'.inodes.trans h.inodes, h'.openInodes.trans h.openInodes,
    h'.nextInode.trans h.nextInode, h'.events.trans h.events⟩

theorem Kept.malloc (s : FileSys) : Kept s s.malloc.2 := ⟨rfl, rfl, rfl, rfl, rfl⟩

theorem Kept.live (h : Kept s s') (links : ∀ k, Linked s'.device k ↔ Linked s.device k) (k : Nat) :
    Live s' k ↔ Live s k := by
  rw [Live, Live, links, Opened, Opened, h.inodes]

theorem Live.congr {live live' : Nat → Prop} {d : Disk} {map : Bitmap}
    (same : ∀ k, live' k ↔ live k) (h : Layout d map live) : Layout d map live' := by
  rw [show live' = live from funext fun k => propext (same k)]
  exact h

theorem Kept.holds (h : Kept s s') (links : ∀ k, Linked s'.device k ↔ Linked s.device k)
    (inodes : ∀ k, Live s k → s'.device.sectors k = s.device.sectors k) (o : Part × Nat) (r : Nat) :
    Holds s'.device (Live s') o r ↔ Holds s.device (Live s) o r := by
  obtain ⟨part, k⟩ := o
  rw [Holds, Holds, h.live links]
  refine and_congr_right fun alive => ?_
  cases part with
  | inode => rfl
  | data => rw [Has, Has, dataOf, dataOf, inodes k alive]

theorem inode_eq (found : s.inodes p = some i) : s.inode p = .ok i := by
  rw [FileSys.inode, found]

theorem setInode_inodes (q : Nat) (i : Option Inode) :
    (s.setInode p i).inodes q = if q = p then i else s.inodes q :=
  Function.update_apply ..

namespace Sound

theorem malloc (h : Sound s openers) : Sound s.malloc.2 openers :=
  ⟨h.layout, h.cached, h.unique, h.counted, h.openers, h.nodup, h.listed, h.fresh, h.removed,
    h.marked, h.released, h.history, h.mapFile⟩

theorem live_of_opened (found : s.inodes p = some i) : Live s i.sector :=
  .inr (.inr (.inr ⟨p, i, found, rfl⟩))

theorem onDisk (h : Sound s openers) (found : s.inodes p = some i) : OnDisk s.device i.data := by
  rw [(h.cached p i found).1]
  exact h.layout.onDisk _ (live_of_opened found)

/-- The disk and the free map may change where no live inode and no entry lies. -/
theorem rewrite (h : Sound s openers) (kept : Kept s s') (size : s'.device.size = s.device.size)
    (bits : s'.freeMap.size = s.freeMap.size)
    (inodes : ∀ k, Live s k → s'.device.sectors k = s.device.sectors k)
    (dir : ∀ r, (dataOf s.device rootDirSector).Has r →
      s'.device.sectors r = s.device.sectors r)
    (marks : ∀ o r, Holds s.device (Live s) o r → Marked s.freeMap r → Marked s'.freeMap r) :
    Sound s' openers ∧ ∀ k, Linked s'.device k ↔ Linked s.device k := by
  obtain ⟨layout, links⟩ := h.layout.congr size bits inodes dir marks
  refine ⟨?_, links⟩
  have found {p : Nat} {i : Inode} (now : s'.inodes p = some i) : s.inodes p = some i := by
    rw [← kept.inodes, now]
  constructor
  case layout => exact Live.congr (kept.live links) layout
  case cached =>
    intro p i now
    obtain ⟨data, writes⟩ := h.cached p i (found now)
    rw [data, dataOf, dataOf, inodes _ (live_of_opened (found now))]
    exact ⟨rfl, writes⟩
  case unique => exact fun p q i j now now' => h.unique p q i j (found now) (found now')
  case counted => exact fun p i now => h.counted p i (found now)
  case openers => exact kept.inodes ▸ h.openers
  case nodup => exact kept.openInodes ▸ h.nodup
  case listed =>
    intro p
    rw [kept.openInodes, kept.inodes]
    exact h.listed p
  case fresh =>
    intro p
    rw [kept.nextInode, kept.inodes, kept.events]
    exact h.fresh p
  case removed =>
    intro p i now removed
    rw [kept.events, links]
    exact h.removed p i (found now) removed
  case marked =>
    intro p i now
    rw [kept.events]
    exact h.marked p i (found now)
  case released =>
    intro p
    rw [kept.events, kept.inodes]
    exact h.released p
  case history => exact kept.events ▸ h.history
  case mapFile =>
    obtain ⟨f, i, file, opened, sector⟩ := h.mapFile
    exact ⟨f, i, kept.mapFile.trans file, by rw [kept.inodes, opened], sector⟩

end Sound

/-- Of the disk, only data of one inode changes. -/
structure Touches (data : InodeDisk) (s s' : FileSys) : Prop extends Kept s s' where
  size : s'.device.size = s.device.size
  bits : s'.freeMap.size = s.freeMap.size
  others : ∀ r, ¬ data.Has r → s'.device.sectors r = s.device.sectors r

theorem Touches.trans {data : InodeDisk} (h : Touches data s s') (h' : Touches data s' s'') :
    Touches data s s'' where
  toKept := h.toKept.trans h'.toKept
  size := h'.size.trans h.size
  bits := h'.bits.trans h.bits
  others r hr := (h'.others r hr).trans (h.others r hr)

theorem Sound.touch (h : Sound s openers) (alive : Live s k) (other : k ≠ rootDirSector)
    (t : Touches (dataOf s.device k) s s')
    (marks : ∀ o r, Holds s.device (Live s) o r → Marked s.freeMap r → Marked s'.freeMap r) :
    Sound s' openers ∧ ∀ k, Linked s'.device k ↔ Linked s.device k :=
  h.rewrite t.toKept t.size t.bits (fun _ alive' => t.others _ (h.layout.inode_apart alive' alive))
    (fun r has => t.others r fun has' => other (h.layout.data_apart alive h.layout.root has' has))
    marks

section Transfers
variable {buffer : Library.Memory} {size offset : Nat}

theorem readAt_spec (found : s.inodes p = some i) (onDisk : OnDisk s.device i.data)
    (buffer : Library.Memory) (size offset : Nat) :
    ∃ n, s.readAt p buffer size offset =
        .ok (n, buffer.copy 0 (fileBytes s.device i.data) offset n, s.malloc.2) ∧
      n ≤ bytesLeft i.data size offset := by
  obtain ⟨n, failed, ran, most, _⟩ : ∃ n failed, inodeReadAt s.device i s.malloc.1 buffer size
      offset = _ ∧ n ≤ bytesLeft i.data size offset ∧ _ :=
    inodeReadAt_spec onDisk s.malloc.1 buffer
  refine ⟨n, ?_, most⟩
  have ran : inodeReadAt s.malloc.2.device i s.malloc.1 buffer size offset = _ := ran
  simp only [FileSys.readAt, inode_eq found, bind, Except.bind, ran, onDevice]
  rfl

theorem writeAt_spec (found : s.inodes p = some i) (onDisk : OnDisk s.device i.data)
    (allowed : i.denyWriteCnt = 0) (buffer : Library.Memory) (size offset : Nat) :
    ∃ n d', s.writeAt p buffer size offset = .ok (n, { s.malloc.2 with device := d' }) ∧
      Written s.device i.data buffer offset n d' ∧ d'.size = s.device.size ∧
      n ≤ bytesLeft i.data size offset := by
  obtain ⟨n, failed, d', ran, written, most, _⟩ : ∃ n failed d', inodeWriteAt s.device i s.malloc.1
      buffer size offset = _ ∧ Written s.device i.data buffer offset n d' ∧
      n ≤ bytesLeft i.data size offset ∧ _ :=
    inodeWriteAt_spec onDisk allowed s.malloc.1 buffer
  refine ⟨n, d', ?_, written, size_of_inodeWriteAt ran, most⟩
  have ran : inodeWriteAt s.malloc.2.device i s.malloc.1 buffer size offset = _ := ran
  simp only [FileSys.writeAt, inode_eq found, bind, Except.bind, ran, onDevice]
  rfl

end Transfers

section FreeMap

/-- `free_map_file` can be written. -/
structure MapReady (s : FileSys) (i : Inode) : Prop where
  opened : ∃ f, s.freeMapFile = some f ∧ s.inodes f.inode = some i
  onDisk : OnDisk s.device i.data
  allowed : i.denyWriteCnt = 0

theorem MapReady.congr (h : MapReady s i) (kept : Kept s s')
    (size : s'.device.size = s.device.size) : MapReady s' i where
  opened := by
    obtain ⟨f, file, opened⟩ := h.opened
    exact ⟨f, kept.mapFile.trans file, by rw [kept.inodes, opened]⟩
  onDisk := ⟨size ▸ h.onDisk.fits, size ▸ h.onDisk.device⟩
  allowed := h.allowed

theorem Sound.mapReady (h : Sound s openers) :
    ∃ i, MapReady s i ∧ i.data = dataOf s.device freeMapSector := by
  obtain ⟨f, i, file, opened, sector⟩ := h.mapFile
  refine ⟨i, ⟨⟨f, file, opened⟩, h.onDisk opened, (h.cached _ i opened).2⟩, ?_⟩
  rw [(h.cached _ i opened).1, sector]

/-- The free map in a file is the one in memory. -/
def Saved (s : FileSys) (data : InodeDisk) : Prop :=
  ∀ pos < byteCnt s.freeMap.size, fileBytes s.device data pos = mapBytes s.freeMap pos

theorem bitmapWrite_spec {f : File} (opened : s.inodes f.inode = some i)
    (onDisk : OnDisk s.device i.data) (allowed : i.denyWriteCnt = 0) :
    ∃ done s', s.bitmapWrite f = .ok (done, s') ∧ Touches i.data s s' ∧
      s'.freeMap = s.freeMap ∧ (done = true → Saved s' i.data) := by
  obtain ⟨n, d', ran, written, size, _⟩ := writeAt_spec opened onDisk allowed (mapBytes s.freeMap)
    (byteCnt s.freeMap.size) 0
  refine ⟨n == byteCnt s.freeMap.size, { s.malloc.2 with device := d' }, ?_,
    ⟨⟨rfl, rfl, rfl, rfl, rfl⟩, size, rfl, written.others⟩, rfl, fun all pos inside => ?_⟩
  · simp only [FileSys.bitmapWrite, ran, bind, Except.bind]
    rfl
  · rw [beq_iff_eq] at all
    have inside : pos < n := all ▸ inside
    have byte : fileBytes d' i.data pos = _ := congrFun written.bytes pos
    rw [Memory.copy, if_pos (by omega), Nat.zero_add] at byte
    exact byte

/-- The sectors of a run. -/
def InRun (start cnt r : Nat) : Prop := start ≤ r ∧ r < start + cnt

instance (start cnt r : Nat) : Decidable (InRun start cnt r) := inferInstanceAs (Decidable (_ ∧ _))

/-- A run of free sectors is marked. -/
structure Taken (map map' : Bitmap) (start cnt : Nat) : Prop where
  inside : start + cnt ≤ map.size
  free : ∀ r, InRun start cnt r → ¬ Marked map r
  marks : ∀ r, Marked map' r ↔ InRun start cnt r ∨ Marked map r

theorem Taken.of_test {map map' : Bitmap} {start cnt : Nat} (inside : start + cnt ≤ map.size)
    (free : ∀ i, start ≤ i → i < start + cnt → map.test i = false)
    (test : ∀ i, map'.test i = if start ≤ i ∧ i < start + cnt then true else map.test i) :
    Taken map map' start cnt := by
  refine ⟨inside, fun r run => ?_, fun r => ?_⟩
  · rw [Marked, free r run.1 run.2]
    exact Bool.false_ne_true
  · rw [Marked, Marked, test]
    split
    next run => simp [InRun, run]
    next run => simp [InRun, run]

/-- What `free_map_allocate` does, whether it succeeds or not. -/
def Allocated (map map' : Bitmap) (cnt : Nat) : Option Nat → Prop
  | none => ∀ r, Marked map' r ↔ Marked map r
  | some start => Taken map map' start cnt

theorem Touches.map (data : InodeDisk) {map : Bitmap} (size : map.size = s.freeMap.size) :
    Touches data s { s with freeMap := map } :=
  ⟨⟨rfl, rfl, rfl, rfl, rfl⟩, rfl, size, fun _ _ => rfl⟩

theorem freeMapAllocate_spec (cnt : Nat) (ready : s.freeMapFile = none ∨ MapReady s i) :
    ∃ result s', s.freeMapAllocate cnt = .ok (result, s') ∧ Touches i.data s s' ∧
      Allocated s.freeMap s'.freeMap cnt result ∧
      (result ≠ none → s.freeMapFile ≠ none → Saved s' i.data) := by
  obtain none | ⟨start, map, done, inside, size, free, test⟩ :=
    s.freeMap.scanAndFlip_spec cnt false
  · refine ⟨.none, s, ?_, ⟨Kept.refl s, rfl, rfl, fun _ _ => rfl⟩, fun _ => Iff.rfl,
      fun some => absurd rfl some⟩
    rw [FileSys.freeMapAllocate, none]
  · have taken : Taken s.freeMap map start cnt := .of_test inside free test
    have marking := Touches.map i.data size
    cases ready with
    | inl none =>
        refine ⟨some start, { s with freeMap := map }, ?_, marking, taken,
          fun _ some => absurd none some⟩
        simp only [FileSys.freeMapAllocate, done, none]
        rfl
    | inr ready =>
        obtain ⟨f, file, opened⟩ := ready.opened
        obtain ⟨written, s', ran, touches, same, saved⟩ := bitmapWrite_spec
          (s := { s with freeMap := map }) opened ready.onDisk ready.allowed
        have both := marking.trans touches
        rw [file] at ran
        cases written with
        | true =>
            refine ⟨some start, s', ?_, both, by rw [same]; exact taken, fun _ _ => saved rfl⟩
            simp only [FileSys.freeMapAllocate, done, file, bind, Except.bind, ran]
            rfl
        | false =>
            -- The run is given back, and the map is as it was.
            obtain ⟨map', cleared, size', test'⟩ := Bitmap.setMultiple_spec (b := s'.freeMap) false
              (show start + cnt ≤ s'.freeMap.size by rw [same, size]; exact inside)
            refine ⟨none, { s' with freeMap := map' }, ?_, both.trans (Touches.map _ size'),
              fun r => ?_, fun some => absurd rfl some⟩
            · simp only [FileSys.freeMapAllocate, done, file, bind, Except.bind, ran, cleared]
              rfl
            · rw [Marked, test', same]
              split
              next run => exact iff_of_false Bool.false_ne_true (taken.free r run)
              next run => exact (taken.marks r).trans (or_iff_right run)

theorem freeMapRelease_spec (ready : MapReady s i) (start cnt : Nat)
    (inside : start + cnt ≤ s.freeMap.size) (marked : ∀ r, InRun start cnt r → Marked s.freeMap r) :
    ∃ s', s.freeMapRelease start cnt = .ok s' ∧ Touches i.data s s' ∧
      ∀ r, Marked s'.freeMap r ↔ Marked s.freeMap r ∧ ¬ InRun start cnt r := by
  obtain ⟨f, file, opened⟩ := ready.opened
  obtain ⟨map, set, size, test⟩ := Bitmap.setMultiple_spec (b := s.freeMap) false inside
  obtain ⟨done, s', ran, touches, same, _⟩ := bitmapWrite_spec (s := { s with freeMap := map })
    opened ready.onDisk ready.allowed
  refine ⟨s', ?_, (Touches.map i.data size).trans touches, fun r => ?_⟩
  · rw [file] at ran
    have all := Bitmap.all_eq_true inside fun r lower upper => marked r ⟨lower, upper⟩
    simp only [FileSys.freeMapRelease, all, if_true, set, file, bind, Except.bind, ran]
    rfl
  · rw [Marked, same, test]
    split
    next run => exact iff_of_false Bool.false_ne_true fun left => left.2 run
    next run => exact (and_iff_left run).symm

end FreeMap

end
end CS162.Pintos.FileSystem
