import CS162.Pintos.FileSystemNames

/-!
With memory nothing leaks. A marked sector is held by a live inode, or set aside by the call
that runs; an open file that was not removed has a name; and the free map in its file is the
one in memory.
-/

namespace CS162.Pintos.FileSystem
open CS162.Library

/-- A clean file system, up to sectors that were set aside. -/
structure Clean (extra : Nat → Prop) (s : FileSys) : Prop where
  granted : Granted s
  marks : ∀ r, Marked s.freeMap r → extra r ∨ ∃ o, Holds s.device (Live s) o r
  named : ∀ p i, s.inodes p = some i → 2 ≤ i.sector → i.removed = false → Linked s.device i.sector
  length : (dataOf s.device freeMapSector).length = byteCnt s.freeMap.size
  saved : Saved s (dataOf s.device freeMapSector)

def Nothing (_ : Nat) : Prop := False

section
variable {s s' : FileSys} {openers : List Nat} {p q k j : Nat} {i : Inode}
  {extra extra' : Nat → Prop} {name : List UInt8}

theorem Saved.congr {data : InodeDisk} (h : Saved s data)
    (room : byteCnt s.freeMap.size ≤ data.length) (map : s'.freeMap = s.freeMap)
    (same : ∀ r, data.Has r → s'.device.sectors r = s.device.sectors r) : Saved s' data := by
  intro pos inside
  rw [map] at inside ⊢
  rw [fileBytes_congr same (Nat.lt_of_lt_of_le inside room)]
  exact h pos inside

theorem Holds.mono {d d' : Disk} {live live' : Nat → Prop} {o : Part × Nat} {r : Nat}
    (held : Holds d live o r) (alive : live' o.2) (data : dataOf d' o.2 = dataOf d o.2) :
    Holds d' live' o r := by
  obtain ⟨part, k⟩ := o
  refine ⟨alive, ?_⟩
  cases part with
  | inode => exact held.2
  | data =>
      rw [Has, data]
      exact held.2

namespace Clean

theorem mapFits (c : Clean extra s) (h : Sound s openers) :
    ∃ f, MapFits s f ∧ f.data = dataOf s.device freeMapSector := by
  obtain ⟨f, ready, data⟩ := h.mapReady
  exact ⟨f, ⟨ready, by rw [data, c.length]⟩, data⟩

/-- The free map stays, and the disk changes outside the inodes and the file of the free map. -/
theorem next (c : Clean extra s) (granted : Granted s') (map : s'.freeMap = s.freeMap)
    (inodes : ∀ k, Live s k → Live s' k ∧ s'.device.sectors k = s.device.sectors k)
    (file : ∀ r, (dataOf s.device freeMapSector).Has r → s'.device.sectors r = s.device.sectors r)
    (named : ∀ p i, s'.inodes p = some i → 2 ≤ i.sector → i.removed = false →
      Linked s'.device i.sector) : Clean extra s' := by
  have data (k : Nat) (alive : Live s k) : dataOf s'.device k = dataOf s.device k := by
    rw [dataOf, dataOf, (inodes k alive).2]
  have mapData := data freeMapSector (.inl rfl)
  constructor
  case granted => exact granted
  case marks =>
    intro r marked
    refine (c.marks r (map ▸ marked)).imp_right fun used => ?_
    obtain ⟨o, held⟩ := used
    exact ⟨o, held.mono (inodes o.2 held.1).1 (data o.2 held.1)⟩
  case named => exact named
  case length => rw [mapData, map, c.length]
  case saved =>
    rw [mapData]
    exact c.saved.congr (Nat.le_of_eq c.length.symm) map file

theorem same (c : Clean extra s) (granted : Granted s') (map : s'.freeMap = s.freeMap)
    (device : s'.device = s.device) (live : ∀ k, Live s k → Live s' k)
    (named : ∀ p i, s'.inodes p = some i → 2 ≤ i.sector → i.removed = false →
      Linked s.device i.sector) : Clean extra s' := by
  apply c.next granted map
  · exact fun k alive => ⟨live k alive, by rw [device]⟩
  · exact fun r _ => by rw [device]
  · rw [device]
    exact named

theorem asked (c : Clean extra s) (asked : Asked s s') (granted : Granted s') : Clean extra s' := by
  apply c.same granted asked.freeMap asked.device
  · exact fun k => (asked.live k).mpr
  · rw [asked.inodes]
    exact c.named

theorem malloc (c : Clean extra s) : Clean extra s.malloc.2 := c.asked (Asked.malloc s) c.granted.malloc

/-- `inode_open` of a live inode that has a name, or of the free map or the root directory. -/
theorem openInode (c : Clean extra s) (h : Sound s openers) (alive : Live s k)
    (linked : 2 ≤ k → Linked s.device k) :
    ∃ p s', s.inodeOpen k = .ok (some p, s') ∧ Sound s' (p :: openers) ∧ Clean extra s' ∧
      s'.device = s.device ∧ s'.freeMap = s.freeMap ∧ StayOpen s s' ∧
      ∃ i, s'.inodes p = some i ∧ i.sector = k := by
  obtain ⟨p, i, s', ran, _, granted, opened⟩ := h.table.openGranted c.granted (h.layout.lt_size alive)
  obtain ⟨_, _, ran', device, map, _, _, stay, sound⟩ := inodeOpen_spec h alive
  cases ran.symm.trans ran'
  refine ⟨p, s', ran, sound.1, ?_, device, map, stay, sound.2⟩
  apply c.same granted map device
  · intro k alive
    refine alive.imp_right fun rest => rest.imp_right fun rest => ?_
    rw [device]
    refine rest.imp_right fun opened => ?_
    obtain ⟨q, j, found, sector⟩ := opened
    obtain ⟨j', found', same⟩ := stay q j found
    exact ⟨q, j', found', same.trans sector⟩
  · intro q j found file flag
    rw [opened.inodes, Function.update_apply] at found
    split at found
    next =>
      cases found
      obtain ⟨_, rfl, _⟩ | ⟨j, was, rfl⟩ := opened.origin
      · exact linked file
      · exact c.named p j was file flag
    next => exact c.named q j found file flag

theorem reopen (c : Clean extra s) (found : s.inodes p = some i) : Clean extra (s.inodeReopen p) := by
  rw [FileSys.inodeReopen, found, Option.map_some]
  have granted : Granted (s.setInode p (some { i with openCnt := i.openCnt + 1 })) := c.granted
  apply c.same granted rfl rfl
  · intro k alive
    refine alive.imp_right fun rest => rest.imp_right fun rest => rest.imp_right fun opened => ?_
    exact (setInode_opened { i with openCnt := i.openCnt + 1 } found rfl k).mpr opened
  · intro q j now file flag
    rw [setInode_inodes] at now
    split at now
    next =>
      cases now
      exact c.named p i found file flag
    next => exact c.named q j now file flag

theorem live_of_closed {f : Inode} (closed : Closed s s' p i f) (found : s.inodes p = some i)
    (links : ∀ k, Linked s'.device k ↔ Linked s.device k) (alive : Live s k)
    (kept : ¬ (i.removed = true ∧ i.openCnt = 1) → i.openCnt = 1 → Live s' i.sector)
    (other : i.removed = true → i.openCnt = 1 → k ≠ i.sector) : Live s' k := by
  obtain map | root | link | ⟨q, j, was, sector⟩ := alive
  · exact .inl map
  · exact .inr (.inl root)
  · exact .inr (.inr (.inl ((links k).mpr link)))
  · by_cases same : q = p
    · subst same
      cases found.symm.trans was
      by_cases last : i.openCnt = 1
      · by_cases flag : i.removed = true
        · exact absurd sector.symm (other flag last)
        · exact sector ▸ kept (fun gone => flag gone.1) last
      · refine .inr (.inr (.inr ⟨q, { i with openCnt := i.openCnt - 1 }, ?_, sector⟩))
        rw [closed.inodes, Function.update_self, if_neg last]
    · refine .inr (.inr (.inr ⟨q, j, ?_, sector⟩))
      rw [closed.inodes, Function.update_of_ne same, was]

/-- `inode_close`. The last close of a removed inode gives back what it held, and nothing else. -/
theorem closeInode (c : Clean extra s) (h : Sound s (p :: openers)) (found : s.inodes p = some i)
    (other : i.sector ≠ freeMapSector) :
    ∃ s', s.inodeClose (some p) = .ok s' ∧ Sound s' openers ∧ Clean extra s' := by
  obtain ⟨f, ready, data⟩ := c.mapFits h
  have alive := Sound.live_of_opened found
  have mine : i.data = dataOf s.device i.sector := (h.cached p i found).1
  have apart (file : File) (opens : s.freeMapFile = some file) : file.inode ≠ p := by
    obtain ⟨file', j, opens', opened, sector⟩ := h.mapFile
    cases opens.symm.trans opens'
    intro same
    rw [same, found] at opened
    cases opened
    exact other sector
  obtain ⟨s', ran, _, granted, closed⟩ := h.table.closeInode c.granted ready found apart <| by
    intro _ _
    refine ⟨h.layout.holds_inode alive, h.layout.size ▸ (h.onDisk found).fits, fun r has => ?_⟩
    rw [mine] at has
    refine ⟨h.layout.holds_data alive has, ?_⟩
    rintro rfl
    exact h.layout.inode_apart alive alive has
  obtain ⟨_, ran', sound, _⟩ := inodeClose_spec h found (h.stays found other)
  cases ran.symm.trans ran'
  rw [List.erase_cons_head] at sound
  refine ⟨s', ran, sound, ?_⟩
  have first : Live s freeMapSector := .inl rfl
  have sectors (k : Nat) (alive : Live s k) : s'.device.sectors k = s.device.sectors k := by
    apply closed.others
    rw [data]
    exact h.layout.inode_apart alive first
  have datas (k : Nat) (alive : Live s k) : dataOf s'.device k = dataOf s.device k := by
    rw [dataOf, dataOf, sectors k alive]
  obtain ⟨_, _, links⟩ := linked_congr (sectors _ h.layout.root) fun r has => by
    apply closed.others
    rw [data]
    intro has'
    cases h.layout.data_apart first h.layout.root has' has
  have kept (stays : ¬ (i.removed = true ∧ i.openCnt = 1)) (last : i.openCnt = 1) :
      Live s' i.sector := by
    by_cases file : 2 ≤ i.sector
    · refine .inr (.inr (.inl ((links _).mpr (c.named p i found file ?_))))
      simpa [last] using stays
    · simp only [Live, freeMapSector, rootDirSector]
      omega
  have named (q : Nat) (j : Inode) (now : s'.inodes q = some j) (file : 2 ≤ j.sector)
      (flag : j.removed = false) : Linked s'.device j.sector := by
    rw [links]
    rw [closed.inodes, Function.update_apply] at now
    split at now
    next =>
      split at now
      next => cases now
      next =>
        cases now
        exact c.named p i found file flag
    next => exact c.named q j now file flag
  by_cases released : i.removed = true ∧ i.openCnt = 1
  · obtain ⟨flag, last⟩ := released
    obtain ⟨marks, saved⟩ := closed.freed flag last
    constructor
    case granted => exact granted
    case marks =>
      intro r marked
      obtain ⟨before, sector, data⟩ := (marks r).mp marked
      refine (c.marks r before).imp_right fun used => ?_
      obtain ⟨⟨part, k⟩, held⟩ := used
      -- The owner of what is still marked is not the inode that died.
      have survives : k ≠ i.sector := by
        rintro rfl
        cases part with
        | inode => exact sector held.2
        | data => exact data (mine ▸ held.2)
      exact ⟨(part, k), held.mono
        (live_of_closed closed found links held.1 kept fun _ _ => survives) (datas k held.1)⟩
    case named => exact named
    case length => rw [datas _ first, closed.bits, c.length]
    case saved => rw [datas _ first, ← data]; exact saved
  · obtain ⟨map, device⟩ := closed.same released
    apply c.same granted map device
    · intro k alive
      exact live_of_closed closed found links alive kept fun flag last => absurd ⟨flag, last⟩ released
    · rw [← device]
      exact named

end Clean
end
end CS162.Pintos.FileSystem
