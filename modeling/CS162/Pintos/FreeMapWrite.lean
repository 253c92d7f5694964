import CS162.Pintos.FileSystemFormat
import CS162.Pintos.InodesGranted

/-!
`free_map_allocate` when its write of the free map comes up short. Without a bounce buffer
the whole sectors of the file are written and the rest is not. The map in memory is put back
then, and the sectors on the disk stay as they were written.
-/

namespace CS162.Pintos.FileSystem
open CS162.Library

/-- The bytes of the free map that its file holds in whole sectors. -/
def wholeBytes (map : Bitmap) : Nat := sectorSize * (byteCnt map.size / sectorSize)

/-- Free sectors are marked in memory and on the disk, or both maps are as before. -/
def InStep (data : InodeDisk) (cnt : Nat) (s s' : FileSys) : Option Nat → Prop
  | some start => Taken s.freeMap s'.freeMap start cnt ∧ Saved s' data
  | none => s'.freeMap = s.freeMap ∧
      ∀ pos < byteCnt s.freeMap.size, fileBytes s'.device data pos = fileBytes s.device data pos

/-- The first free run does not begin in a whole sector of the map. -/
def RunBehind (map : Bitmap) (cnt : Nat) : Prop :=
  ∀ start, map.scan cnt false = some start → wholeBytes map ≤ start / 8

/-- Where a write of the map cannot leave a part of it. -/
def WriteSafe (s : FileSys) (cnt : Nat) : Prop :=
  s.grants 0 = true ∨ byteCnt s.freeMap.size % sectorSize = 0 ∨ cnt = 0 ∨ RunBehind s.freeMap cnt

section
variable {s : FileSys} {f : Inode} {file : File} {map map' : Bitmap} {start cnt pos : Nat}

theorem wholeBytes_le (map : Bitmap) : wholeBytes map ≤ byteCnt map.size := Nat.mul_div_le ..

theorem bitmapWrite_exact (opened : s.inodes file.inode = some f) (onDisk : OnDisk s.device f.data)
    (allowed : f.denyWriteCnt = 0) (room : byteCnt s.freeMap.size ≤ f.data.length) :
    ∃ n s', s.bitmapWrite file = .ok (n == byteCnt s.freeMap.size, s') ∧ s'.freeMap = s.freeMap ∧
      s'.grants = s.malloc.2.grants ∧ Written s.device f.data (mapBytes s.freeMap) 0 n s'.device ∧
      n = if s.grants 0 = true then byteCnt s.freeMap.size else wholeBytes s.freeMap := by
  obtain ⟨n, failed, d', ran, written, _, all⟩ : ∃ n failed d', inodeWriteAt s.device f s.malloc.1
      (mapBytes s.freeMap) (byteCnt s.freeMap.size) 0 = .ok (n, failed, d') ∧
      Written s.device f.data (mapBytes s.freeMap) 0 n d' ∧
      n ≤ bytesLeft f.data (byteCnt s.freeMap.size) 0 ∧
      (n = bytesLeft f.data (byteCnt s.freeMap.size) 0 ↔ failed = false) :=
    inodeWriteAt_spec onDisk allowed s.malloc.1 (mapBytes s.freeMap)
  refine ⟨n, { s.malloc.2 with device := d' }, ?_, rfl, rfl, written, ?_⟩
  · have ran : inodeWriteAt s.malloc.2.device f s.malloc.1 (mapBytes s.freeMap)
        (byteCnt s.freeMap.size) 0 = _ := ran
    simp only [FileSys.bitmapWrite, FileSys.writeAt, inode_eq opened, bind, Except.bind, ran, onDevice]
    rfl
  · have moved := ran
    rw [inodeWriteAt, if_neg (by rw [allowed]; exact not_not_intro rfl)] at moved
    split
    next granted =>
      rw [show s.malloc.1 = true from granted] at moved
      rw [all.mpr (transfer_granted moved)]
      exact Nat.min_eq_left room
    next denied =>
      rw [show s.malloc.1 = false from Bool.eq_false_of_not_eq_true denied] at moved
      have all : bytesLeft f.data (byteCnt s.freeMap.size) 0 = byteCnt s.freeMap.size :=
        Nat.min_eq_left room
      rw [transfer_wholes rfl (Nat.le_refl _) moved, Nat.zero_add, all]
      rfl

theorem mapBytes_taken (taken : Taken map map' start cnt) (away : ∀ i, InRun start cnt i → i / 8 ≠ pos) :
    mapBytes map' pos = mapBytes map pos := by
  apply mapBytes_congr
  intro i here
  have same := (taken.marks i).trans (or_iff_right fun run => away i run here)
  rwa [Marked, Marked, Bool.coe_iff_coe] at same

theorem mapBytes_taken_ne (taken : Taken map map' start cnt) (some : 0 < cnt) :
    mapBytes map' (start / 8) ≠ mapBytes map (start / 8) := by
  intro same
  have first : InRun start cnt start := ⟨Nat.le_refl _, Nat.lt_add_of_pos_right some⟩
  have bit := testBit_mapBytes map' start
  rw [same, testBit_mapBytes] at bit
  exact taken.free start first (bit.trans ((taken.marks start).mpr (.inl first)))

theorem written_same_iff {d d' : Disk} {data : InodeDisk} {n : Nat} (taken : Taken map map' start cnt)
    (saved : ∀ pos < byteCnt map.size, fileBytes d data pos = mapBytes map pos)
    (within : n ≤ byteCnt map.size) (written : Written d data (mapBytes map') 0 n d') :
    (∀ pos < byteCnt map.size, fileBytes d' data pos = fileBytes d data pos) ↔
      cnt = 0 ∨ n ≤ start / 8 := by
  have byte (pos : Nat) (inside : pos < n) : fileBytes d' data pos = mapBytes map' pos := by
    rw [written.bytes, Memory.copy, if_pos (by omega), Nat.zero_add, Nat.sub_zero]
  constructor
  · intro same
    by_contra other
    obtain ⟨some, early⟩ := not_or.mp other
    have early := Nat.lt_of_not_le early
    apply mapBytes_taken_ne taken (Nat.pos_of_ne_zero some)
    rw [← byte _ early, ← saved _ (by omega)]
    exact same _ (by omega)
  · intro late pos inside
    by_cases reached : pos < n
    · rw [byte pos reached, saved pos inside]
      apply mapBytes_taken taken
      intro i run here
      have lower := run.1
      have upper := run.2
      omega
    · rw [written.bytes]
      exact if_neg (by omega)

/-- The free map is in step behind `free_map_allocate` exactly if its write could not leave a part
of the new map behind. -/
theorem freeMapAllocate_inStep_iff (s : FileSys) (f : Inode) (ready : MapFits s f)
    (saved : Saved s f.data) (cnt : Nat) :
    ∃ result s', s.freeMapAllocate cnt = .ok (result, s') ∧
      (InStep f.data cnt s s' result ↔ WriteSafe s cnt) := by
  rw [FileSys.freeMapAllocate, Bitmap.scanAndFlip]
  cases found : s.freeMap.scan cnt false with
  | none =>
      refine ⟨none, s, rfl, iff_of_true ⟨rfl, fun _ _ => rfl⟩ (.inr (.inr (.inr fun start some => ?_)))⟩
      cases found.symm.trans some
  | some start =>
      obtain ⟨inside, free⟩ := Bitmap.scan_eq_some found
      obtain ⟨map, set, size, test⟩ := Bitmap.setMultiple_spec (b := s.freeMap) true inside
      have taken : Taken s.freeMap map start cnt := .of_test inside free test
      obtain ⟨file, opens, opened⟩ := ready.opened
      obtain ⟨n, s', ran, same, _, written, exact⟩ := bitmapWrite_exact (s := { s with freeMap := map })
        opened ready.onDisk ready.allowed (by rw [size]; exact ready.room)
      have total : byteCnt map.size = byteCnt s.freeMap.size := congrArg byteCnt size
      have whole : wholeBytes map = wholeBytes s.freeMap := by rw [wholeBytes, total, wholeBytes]
      have some_eq (last : Nat) (same : s.freeMap.scan cnt false = some last) : last = start := by
        cases found.symm.trans same
        rfl
      rw [opens] at ran
      simp only [total, whole] at ran exact
      simp only [set, opens, Option.map_some, bind, Except.bind, Bool.not_false, ran]
      by_cases all : n = byteCnt s.freeMap.size
      · rw [all, beq_self_eq_true]
        refine ⟨some start, s', rfl, iff_of_true ⟨same ▸ taken, fun pos bound => ?_⟩ ?_⟩
        · rw [same, total, ← all] at bound
          have byte : fileBytes s'.device f.data pos = _ := congrFun written.bytes pos
          rw [Memory.copy, if_pos (by omega), Nat.zero_add] at byte
          rw [same]
          exact byte
        · by_cases granted : s.grants 0 = true
          · exact .inl granted
          · have same := all.symm.trans (exact.trans (if_neg granted))
            refine .inr (.inl ?_)
            rw [same]
            exact Nat.mul_mod_right ..
      · have denied : ¬ s.grants 0 = true := fun granted => all (exact.trans (if_pos granted))
        have part : n = wholeBytes s.freeMap := exact.trans (if_neg denied)
        have room : start + cnt ≤ s'.freeMap.size := by
          rw [same, size]
          exact inside
        obtain ⟨map', cleared, size', test'⟩ := Bitmap.setMultiple_spec false room
        have back : map' = s.freeMap := by
          apply Bitmap.eq_of_test (size'.trans ((congrArg Bitmap.size same).trans size))
          intro i
          rw [test', same, test]
          split
          next run => exact (free i run.1 run.2).symm
          next => rfl
        rw [beq_false_of_ne all]
        refine ⟨none, { s' with freeMap := map' }, ?_, ?_⟩
        · simp only [Bool.false_eq_true, if_false, cleared]
          rfl
        · have disk := written_same_iff taken saved (part ▸ wholeBytes_le s.freeMap) written
          rw [part] at disk
          constructor
          · intro same
            cases disk.mp same.2 with
            | inl none => exact .inr (.inr (.inl none))
            | inr late =>
                exact .inr (.inr (.inr fun last same => some_eq last same ▸ late))
          · intro safe
            refine ⟨back, disk.mpr ?_⟩
            obtain granted | aligned | none | late := safe
            · exact absurd granted denied
            · refine absurd (part.trans ?_) all
              exact Nat.mul_div_cancel' (Nat.dvd_of_mod_eq_zero aligned)
            · exact .inl none
            · exact .inr (late start found)

/-- The free map of a disk of 4128 sectors, of which the first five are in use. Its file takes
four bytes more than a sector. -/
def largeMap : Bitmap := ⟨List.replicate 5 true ++ List.replicate 4123 false⟩

def largeInode : Inode := ⟨freeMapSector, 1, false, 0, ⟨2, 516⟩⟩

/-- The same disk, mounted. -/
def largeDisk (granted : Bool) : FileSys where
  device := ⟨4128, fun sector x => if sector = 2 ∧ x = 0 then 31 else 0⟩
  freeMap := largeMap
  freeMapFile := some ⟨0, 0⟩
  inodes p := if p = 0 then some largeInode else none
  openInodes := [0]
  nextInode := 1
  grants _ := granted
  junk _ := 0
  events := []

theorem byteCnt_largeDisk (granted : Bool) : byteCnt (largeDisk granted).freeMap.size = 516 := by
  have size : largeMap.size = 4128 := by
    rw [largeMap, Bitmap.size, List.length_append, List.length_replicate, List.length_replicate]
  rw [show (largeDisk granted).freeMap = largeMap from rfl, size]
  rfl

theorem largeDisk_fits (granted : Bool) : MapFits (largeDisk granted) largeInode where
  opened := ⟨⟨0, 0⟩, rfl, rfl⟩
  onDisk :=
    have fits : 2 + bytesToSectors 516 ≤ 4128 := by decide
    have device : 4128 ≤ 2 ^ 32 := by decide
    ⟨fits, device⟩
  allowed := rfl
  room := Nat.le_of_eq (byteCnt_largeDisk granted)

theorem largeDisk_saved (granted : Bool) : Saved (largeDisk granted) largeInode.data := by
  have test (i : Nat) : largeMap.test i = decide (i < 5) := by
    rw [largeMap, Bitmap.test, List.getD_eq_getElem?_getD, List.getElem?_append, List.length_replicate]
    split
    next low =>
      rw [List.getElem?_replicate, if_pos low, decide_eq_true low]
      rfl
    next high =>
      rw [List.getElem?_replicate, decide_eq_false high]
      split
      next => rfl
      next => rfl
  intro pos inside
  rw [byteCnt_largeDisk] at inside
  by_cases first : pos = 0
  · subst first
    have bits : mapBytes largeMap 0 = 31 := by
      simp only [mapBytes, test]
      decide
    exact bits.symm
  · have bits : mapBytes largeMap pos = 0 := by
      have clear (i : Nat) : largeMap.test (8 * pos + i) = false := by
        rw [test]
        exact decide_eq_false (by omega)
      simp only [mapBytes, clear]
      decide
    show (if 2 + pos / 512 = 2 ∧ pos % 512 = 0 then (31 : UInt8) else 0) = _
    rw [show mapBytes (largeDisk granted).freeMap pos = 0 from bits]
    exact if_neg (by omega)

theorem freeMapAllocate_inStep_of_largeDisk :
    ∃ result s', (largeDisk true).freeMapAllocate 1 = .ok (result, s') ∧
      InStep largeInode.data 1 (largeDisk true) s' result := by
  obtain ⟨result, s', ran, inStep⟩ :=
    freeMapAllocate_inStep_iff _ _ (largeDisk_fits true) (largeDisk_saved true) 1
  exact ⟨result, s', ran, inStep.mpr (.inl rfl)⟩

/-- The bounce buffer for the last four bytes is missing. `free_map_allocate` fails, and the first
sector of the file has the bit of the sector that it gave back. -/
theorem not_inStep_of_largeDisk : ∃ s f cnt, MapFits s f ∧ Saved s f.data ∧
    ∃ s', s.freeMapAllocate cnt = .ok (none, s') ∧ ¬ InStep f.data cnt s s' none := by
  have fact : ((largeDisk false).freeMapAllocate 1).toOption.any (fun r => r.1.isNone &&
      decide (fileBytes r.2.device largeInode.data 0 = 63)) = true := by decide +kernel
  obtain ⟨r, ran, checks⟩ := (Option.any_eq_true ..).mp fact
  obtain ⟨result, s'⟩ := r
  rw [Bool.and_eq_true, Option.isNone_iff_eq_none, decide_eq_true_eq] at checks
  obtain ⟨failed, byte⟩ := checks
  simp only at failed byte
  subst failed
  refine ⟨_, _, 1, largeDisk_fits false, largeDisk_saved false, s', toOption_some.mp ran, fun same => ?_⟩
  have kept : fileBytes s'.device largeInode.data 0 = 31 := same.2 0 (by rw [byteCnt_largeDisk]; decide)
  rw [byte] at kept
  cases kept

end
end CS162.Pintos.FileSystem
