import CS162.Pintos.FileSystemCalls

/-!
What formatting leaves on the disk: two inodes and their data, a free map that marks
all of it, the same map in the file of the free map, and a directory without entries.
The map that `free_map_open` reads back is the one that was written.
-/

namespace CS162.Pintos.FileSystem
open CS162.Library

section RoundTrip

theorem ofBits_lt (bit : Nat → Bool) (n : Nat) : ofBits bit n < 2 ^ n := by
  induction n with
  | zero => exact Nat.one_pos
  | succ n ih =>
      rw [ofBits, Nat.pow_succ]
      split
      next => omega
      next => omega

theorem testBit_ofBits (bit : Nat → Bool) {n i : Nat} (inside : i < n) :
    (ofBits bit n).testBit i = bit i := by
  induction n with
  | zero => cases inside
  | succ n ih =>
      have split : ofBits bit (n + 1) = 2 ^ n * (bit n).toNat + ofBits bit n := by
        rw [ofBits, Nat.add_comm]
        cases bit n with
        | true => simp
        | false => simp
      rw [split, Nat.testBit_two_pow_mul_add _ (ofBits_lt bit n)]
      by_cases low : i < n
      · rw [if_pos low, ih low]
      · have last : i = n := by omega
        subst last
        rw [if_neg low, Nat.sub_self, Nat.testBit_zero]
        cases bit i with
        | true => rfl
        | false => rfl

theorem testBit_mapBytes (map : Bitmap) (i : Nat) :
    (mapBytes map (i / 8)).toNat.testBit (i % 8) = map.test i := by
  have byte : (mapBytes map (i / 8)).toNat = ofBits (fun j => map.test (8 * (i / 8) + j)) 8 :=
    UInt8.toNat_ofNat_of_lt (ofBits_lt _ 8)
  rw [byte, testBit_ofBits _ (Nat.mod_lt i (by decide)), Nat.div_add_mod]

theorem ofMapBytes_mapBytes (map : Bitmap) : ofMapBytes (mapBytes map) map.size = map := by
  refine congrArg Bitmap.mk (List.ext_getElem ?_ fun i _ inside => ?_)
  · rw [List.length_map, List.length_range, Bitmap.size]
  · rw [List.getElem_map, List.getElem_range, testBit_mapBytes, Bitmap.test,
      List.getD_eq_getElem?_getD, List.getElem?_eq_getElem inside, Option.getD_some]

theorem mapBytes_congr {map map' : Bitmap} {pos : Nat}
    (same : ∀ i, i / 8 = pos → map'.test i = map.test i) : mapBytes map' pos = mapBytes map pos := by
  have bits (n : Nat) (few : n ≤ 8) : ofBits (fun i => map'.test (8 * pos + i)) n =
      ofBits (fun i => map.test (8 * pos + i)) n := by
    induction n with
    | zero => rfl
    | succ n ih => rw [ofBits, ofBits, ih (by omega), same (8 * pos + n) (by omega)]
  rw [mapBytes, mapBytes, bits 8 (Nat.le_refl 8)]

end RoundTrip

section Creation
variable {s s' : FileSys} {i : Inode} {map : InodeDisk} {k start length : Nat}

/-- An inode and its data sectors are new on the disk. -/
structure Created (s s' : FileSys) (map : InodeDisk) (k start length : Nat) : Prop
    extends Kept s s' where
  inside : k < s.device.size
  size : s'.device.size = s.device.size
  bits : s'.freeMap.size = s.freeMap.size
  taken : Taken s.freeMap s'.freeMap start (bytesToSectors length)
  data : dataOf s'.device k = ⟨start, length⟩
  zeros : ∀ r, InRun start (bytesToSectors length) r → s'.device.sectors r = fun _ => 0
  others : ∀ r, r ≠ k → ¬ InRun start (bytesToSectors length) r → ¬ map.Has r →
    s'.device.sectors r = s.device.sectors r
  saved : s.freeMapFile ≠ none → (∀ r, map.Has r → r ≠ k ∧ Marked s.freeMap r) →
    byteCnt s.freeMap.size ≤ map.length → Saved s' map

theorem inodeCreate_created (ready : s.freeMapFile = none ∨ MapReady s i)
    (size : s.freeMap.size = s.device.size) (device : s.device.size ≤ 2 ^ 21)
    (marked : k < s.device.size → Marked s.freeMap k) (bound : length < 2 ^ 31) :
    Yields (fun p => p.1 = true → ∃ start, Created s p.2 i.data k start length)
      (s.inodeCreate k length) := by
  rw [FileSys.inodeCreate]
  cases granted : s.malloc.1 with
  | false =>
      simp only [granted]
      exact .ok fun no => by cases no
  | true =>
      have ready : s.malloc.2.freeMapFile = none ∨ MapReady s.malloc.2 i :=
        ready.imp_right fun ready => ready.congr (Kept.malloc s) rfl
      obtain ⟨result, s₁, ran, touches, allocated, saved⟩ :=
        freeMapAllocate_spec (bytesToSectors length) ready
      simp only [granted, ran, if_true, bind, Except.bind]
      cases result with
      | none => exact .ok fun no => by cases no
      | some start =>
          have taken : Taken s.freeMap s₁.freeMap start (bytesToSectors length) := allocated
          have room := taken.inside
          have size₁ : s₁.device.size = s.device.size := touches.size
          by_cases inside : k < s.device.size
          · obtain ⟨d₁, wrote, sizeD, here, elsewhere⟩ := blockWrite_spec (d := s₁.device) (k := k)
              (toSector ⟨start, length⟩) (by omega)
            obtain ⟨d₂, zeroed, size₂, zeros, others⟩ := zeroSectors_spec (d := d₁) start
              (bytesToSectors length) (by omega)
            simp only [wrote, onDevice, zeroed]
            have outside : ¬ InRun start (bytesToSectors length) k :=
              fun run => taken.free k run (marked inside)
            refine .ok fun _ => ⟨start, ⟨touches.mapFile, touches.inodes, touches.openInodes,
              touches.nextInode, touches.events⟩, inside, size₂.trans (sizeD.trans size₁),
              touches.bits, taken, ?_, zeros, fun r other free apart => ?_, ?_⟩
            · rw [dataOf, others k outside, here]
              exact ofSector_toSector (show start < 2 ^ 32 by omega) (show length < 2 ^ 32 by omega)
            · rw [others r free, elsewhere r other, touches.others r apart]
              rfl
            · intro file apart whole pos below
              have bits : s₁.freeMap.size = s.freeMap.size := touches.bits
              rw [← saved (Option.some_ne_none start) file pos below]
              refine fileBytes_congr (fun r has => ?_) (Nat.lt_of_lt_of_le (bits ▸ below) whole)
              rw [others r fun run => taken.free r run (apart r has).2, elsewhere r (apart r has).1]
          · have fails : blockWrite s₁.device k (toSector ⟨start, length⟩) =
                .error .pastEndOfDevice := if_pos (by omega)
            simp only [fails, onDevice]
            exact .error trivial

end Creation

section Opening
variable {s s' : FileSys} {p a : Nat} {data : InodeDisk}

/-- Nothing is open. -/
structure Blank (s : FileSys) : Prop where
  inodes : s.inodes = fun _ => none
  openInodes : s.openInodes = []
  events : s.events = []

/-- Only the inode of the free map is open. -/
structure OnlyMap (s : FileSys) (p : Nat) (data : InodeDisk) : Prop where
  inodes : s.inodes = Function.update (fun _ => none) p (some ⟨freeMapSector, 1, false, 0, data⟩)
  openInodes : s.openInodes = [p]
  events : s.events = []
  next : p < s.nextInode

theorem OnlyMap.congr (h : OnlyMap s p data) (inodes : s'.inodes = s.inodes)
    (openInodes : s'.openInodes = s.openInodes) (events : s'.events = s.events)
    (next : s'.nextInode = s.nextInode) : OnlyMap s' p data where
  inodes := inodes.trans h.inodes
  openInodes := openInodes.trans h.openInodes
  events := events.trans h.events
  next := next ▸ h.next

theorem OnlyMap.kept (h : OnlyMap s p data) (kept : Kept s s') : OnlyMap s' p data :=
  h.congr kept.inodes kept.openInodes kept.events kept.nextInode

theorem OnlyMap.found (h : OnlyMap s p data) :
    s.inodes p = some ⟨freeMapSector, 1, false, 0, data⟩ := by
  rw [h.inodes, Function.update_self]

theorem OnlyMap.of_found (h : OnlyMap s p data) {q : Nat} {i : Inode} (found : s.inodes q = some i) :
    q = p ∧ i = ⟨freeMapSector, 1, false, 0, data⟩ := by
  rw [h.inodes, Function.update_apply] at found
  split at found
  next same => exact ⟨same, (Option.some.inj found).symm⟩
  next => cases found

theorem OnlyMap.ready (h : OnlyMap s p data) (file : s.freeMapFile = some ⟨p, 0⟩)
    (onDisk : OnDisk s.device data) : MapReady s ⟨freeMapSector, 1, false, 0, data⟩ :=
  ⟨⟨⟨p, 0⟩, file, h.found⟩, onDisk, rfl⟩

theorem inodeOpen_blank (blank : Blank s) :
    Yields (fun q => ∀ p, q.1 = some p → q.2.device = s.device ∧ q.2.freeMap = s.freeMap ∧
      OnlyMap q.2 p (dataOf s.device freeMapSector)) (s.inodeOpen freeMapSector) := by
  have search : (s.openInodes.find? fun p => (s.inodes p).any fun i => i.sector == freeMapSector) =
      none := by rw [blank.openInodes, List.find?_nil]
  simp only [FileSys.inodeOpen, search]
  cases granted : s.malloc.1 with
  | false => exact .ok fun _ none => by cases none
  | true =>
      by_cases inside : freeMapSector < s.device.size
      · have read : blockRead s.malloc.2.device freeMapSector =
            .ok (s.device.sectors freeMapSector) := if_neg (Nat.not_le.mpr inside)
        simp only [if_true, read, onDevice, bind, Except.bind]
        refine .ok fun p same => ?_
        cases same
        refine ⟨rfl, rfl, ?_, ?_, blank.events, Nat.lt_succ_self _⟩
        · exact congrArg (Function.update · s.nextInode _) blank.inodes
        · exact congrArg (List.cons _) blank.openInodes
      · have fails : blockRead s.malloc.2.device freeMapSector = .error .pastEndOfDevice :=
          if_pos (Nat.not_lt.mp inside)
        simp only [if_true, fails, onDevice]
        exact .error trivial

theorem fileOpen_yields (p : Option Nat) :
    Yields (fun q => ∀ f, q.1 = some f → p = some f.inode ∧ f.pos = 0 ∧ q.2 = s.malloc.2)
      (s.fileOpen p) := by
  rw [FileSys.fileOpen]
  split
  next granted s' memory =>
    split
    next =>
      refine Ends.ok ?_
      intro f same
      cases same
      exact ⟨rfl, rfl, by rw [memory]⟩
    next =>
      refine Ends.bind (Yields.any _) fun s'' _ => Ends.ok ?_
      intro f none
      cases none

theorem openFreeMapFile_spec (blank : Blank s) :
    Yields (fun q => q.2.freeMapFile = some q.1 ∧ q.1.pos = 0 ∧ q.2.device = s.device ∧
      q.2.freeMap = s.freeMap ∧ OnlyMap q.2 q.1.inode (dataOf s.device freeMapSector))
      s.openFreeMapFile := by
  refine Ends.bind (inodeOpen_blank blank) ?_
  rintro ⟨p, s₁⟩ opened
  refine Ends.bind (fileOpen_yields p) ?_
  rintro ⟨file, s₂⟩ result
  cases file with
  | none => exact .error trivial
  | some f =>
      obtain ⟨rfl, start, rfl⟩ := result f rfl
      obtain ⟨device, map, only⟩ := opened f.inode rfl
      exact .ok ⟨rfl, start, device, map, only.congr rfl rfl rfl rfl⟩

end Opening

section Format
variable {s : FileSys} {p : Nat} {data : InodeDisk}

/-- What `free_map_init` leaves. -/
structure Begun (s : FileSys) : Prop where
  blank : Blank s
  mapFile : s.freeMapFile = none
  device : s.device.size ≤ 2 ^ 21
  size : s.freeMap.size = s.device.size
  marked : ∀ k, k = freeMapSector ∨ k = rootDirSector → k < s.device.size → Marked s.freeMap k
  clean : ∀ k, Marked s.freeMap k → k = freeMapSector ∨ k = rootDirSector

/-- The free map is on the disk, and open. -/
structure MapMade (s : FileSys) (p : Nat) (data : InodeDisk) : Prop where
  mapFile : s.freeMapFile = some ⟨p, 0⟩
  only : OnlyMap s p data
  inode : dataOf s.device freeMapSector = data
  length : data.length = byteCnt s.freeMap.size
  onDisk : OnDisk s.device data
  run : ∀ r, data.Has r → Marked s.freeMap r ∧ r ≠ freeMapSector ∧ r ≠ rootDirSector
  first : Marked s.freeMap freeMapSector
  device : s.device.size ≤ 2 ^ 21
  size : s.freeMap.size = s.device.size
  marked : rootDirSector < s.device.size → Marked s.freeMap rootDirSector
  clean : ∀ r, Marked s.freeMap r → r = freeMapSector ∨ r = rootDirSector ∨ data.Has r

theorem Bitmap.test_set_set {b : Bitmap} {k : Nat} (which : k = freeMapSector ∨ k = rootDirSector)
    (inside : k < b.size) : ((b.set freeMapSector true).set rootDirSector true).test k = true := by
  rw [Bitmap.size] at inside
  cases which with
  | inl first =>
      have inside : 0 < b.bits.length := Nat.zero_lt_of_lt inside
      simp [Bitmap.test, Bitmap.set, first, inside, freeMapSector, rootDirSector]
  | inr second =>
      have inside : rootDirSector < b.bits.length := second ▸ inside
      simp [Bitmap.test, Bitmap.set, second, inside]

theorem Bitmap.of_test_set {b : Bitmap} {k i : Nat} (h : (b.set k true).test i = true) :
    i = k ∨ b.test i = true := by
  by_cases same : i = k
  · exact .inl same
  · rw [Bitmap.test, Bitmap.set, List.getD_eq_getElem?_getD, List.getElem?_set_ne (Ne.symm same),
      ← List.getD_eq_getElem?_getD] at h
    exact .inr h

theorem freeMapInit_spec {d : Disk} (bound : d.size ≤ 2 ^ 21) (grants : Nat → Bool)
    (junk : Library.Memory) : Yields Begun
      (FileSys.freeMapInit ⟨d, ⟨[]⟩, none, fun _ => none, [], 0, grants, junk, []⟩) := by
  have clear : (Bitmap.mk (List.replicate d.size false)).size = d.size := List.length_replicate
  have none (k : Nat) : (Bitmap.mk (List.replicate d.size false)).test k = false := by
    rw [Bitmap.test, List.getD_eq_getElem?_getD, List.getElem?_replicate]
    split
    next => rfl
    next => rfl
  rw [FileSys.freeMapInit]
  refine Ends.ite (fun _ => .ok ?_) fun _ => .error trivial
  refine ⟨⟨rfl, rfl, rfl⟩, rfl, bound, ?_, fun k which inside => ?_, fun k marked => ?_⟩
  · exact Bitmap.size_set.trans (Bitmap.size_set.trans clear)
  · exact Bitmap.test_set_set which (clear.symm ▸ inside)
  · cases Bitmap.of_test_set marked with
    | inl root => exact .inr root
    | inr marked =>
        refine .inl ((Bitmap.of_test_set marked).resolve_right fun marked => ?_)
        rw [none] at marked
        cases marked

theorem freeMapCreate_spec (h : Begun s) :
    Yields (fun s' => ∃ p data, MapMade s' p data) s.freeMapCreate := by
  have device := h.device
  have size := h.size
  have bound : byteCnt s.freeMap.size < 2 ^ 31 := by
    rw [byteCnt]
    omega
  refine Ends.bind (inodeCreate_created (i := ⟨0, 0, false, 0, ⟨0, 0⟩⟩) (.inl h.mapFile) h.size
    h.device (h.marked freeMapSector (.inl rfl)) bound) ?_
  rintro ⟨created, s₁⟩ made
  cases created with
  | false => exact .error trivial
  | true =>
      obtain ⟨a, made⟩ := made rfl
      have blank : Blank s₁ := ⟨made.inodes.trans h.blank.inodes,
        made.openInodes.trans h.blank.openInodes, made.events.trans h.blank.events⟩
      refine Ends.bind (openFreeMapFile_spec blank) ?_
      rintro ⟨⟨p, pos⟩, s₂⟩ ⟨file, rfl, device₂, map₂, only⟩
      simp only at file device₂ map₂ only
      rw [made.data] at only
      have room := made.taken.inside
      have sizes : s₁.freeMap.size = s.freeMap.size := made.bits
      have size₁ : s₁.device.size = s.device.size := made.size
      have onDisk : OnDisk s₂.device ⟨a, byteCnt s.freeMap.size⟩ := by
        rw [device₂]
        exact ⟨show a + bytesToSectors (byteCnt s.freeMap.size) ≤ s₁.device.size by omega, by omega⟩
      obtain ⟨done, s₃, ran, touches, same, _⟩ := bitmapWrite_spec (f := ⟨p, 0⟩) only.found onDisk rfl
      simp only [ran]
      cases done with
      | false => exact .error trivial
      | true =>
          have map₃ : s₃.freeMap = s₁.freeMap := same.trans map₂
          have size₃ : s₃.device.size = s.device.size :=
            touches.size.trans ((congrArg Disk.size device₂).trans size₁)
          have only₃ := only.kept touches.toKept
          have apart (k : Nat) (marked : Marked s.freeMap k) :
              ¬ InRun a (bytesToSectors (byteCnt s.freeMap.size)) k :=
            fun run => made.taken.free k run marked
          have first := h.marked freeMapSector (.inl rfl) made.inside
          refine .ok ⟨p, ⟨a, byteCnt s.freeMap.size⟩, ⟨touches.mapFile.trans file, only₃, ?_, ?_, ?_,
            fun r has => ⟨?_, ?_, ?_⟩, ?_, ?_, ?_, fun inside => ?_, fun r marked => ?_⟩⟩
          · rw [dataOf, touches.others _ (apart _ first), device₂]
            exact made.data
          · rw [map₃, sizes]
          · exact ⟨touches.size ▸ onDisk.fits, touches.size ▸ onDisk.device⟩
          · rw [map₃]
            exact (made.taken.marks r).mpr (.inl has)
          · rintro rfl
            exact apart _ first has
          · rintro rfl
            exact apart _ (h.marked _ (.inr rfl) (size ▸ Nat.lt_of_lt_of_le has.2 room)) has
          · rw [map₃]
            exact (made.taken.marks _).mpr (.inr first)
          · rw [size₃]
            exact device
          · rw [map₃, sizes, size₃, size]
          · rw [map₃]
            exact (made.taken.marks _).mpr (.inr (h.marked _ (.inr rfl) (size₃ ▸ inside)))
          · rw [map₃] at marked
            cases (made.taken.marks r).mp marked with
            | inl run => exact .inr (.inr run)
            | inr old => exact (h.clean r old).imp_right .inl

/-- The inodes that every disk has. -/
def Basic (k : Nat) : Prop := k = freeMapSector ∨ k = rootDirSector

/-- What `do_format` leaves. -/
structure Formatted (s : FileSys) : Prop where
  blank : Blank s
  layout : Layout s.device s.freeMap Basic
  empty : ∀ j < slotCount s.device, slot (rootBytes s.device) j = none
  length : (dataOf s.device freeMapSector).length = byteCnt s.freeMap.size
  saved : Saved s (dataOf s.device freeMapSector)
  clean : ∀ r, Marked s.freeMap r → ∃ o, Holds s.device Basic o r

theorem not_linked {d : Disk} (empty : ∀ j < slotCount d, slot (rootBytes d) j = none) (k : Nat) :
    ¬ Linked d k := by
  rintro ⟨j, inside, named⟩
  rw [empty j inside] at named
  cases named

theorem created_empty {s' : FileSys} {b : Nat}
    (c : Created s s' data rootDirSector b (16 * entrySize)) :
    ∀ j < slotCount s'.device, slot (rootBytes s'.device) j = none := by
  intro j inside
  rw [slotCount, c.data, Nat.mul_div_cancel _ (by decide)] at inside
  have pos : entrySize * j + 19 < 16 * entrySize := by
    simp only [entrySize]
    omega
  have has : InRun b (bytesToSectors (16 * entrySize)) (b + (entrySize * j + 19) / sectorSize) :=
    @has_pos ⟨b, 16 * entrySize⟩ _ pos
  rw [slot, if_pos]
  rw [rootBytes, c.data, fileBytes, c.zeros _ has]

section Root
variable {s' : FileSys} {b : Nat} (h : MapMade s p data)
  (c : Created s s' data rootDirSector b (16 * entrySize))
include h c

theorem created_map : dataOf s'.device freeMapSector = data := by
  rw [dataOf, c.others freeMapSector (by decide) fun run => c.taken.free _ run h.first]
  · exact h.inode
  · exact fun has => (h.run _ has).2.1 rfl

theorem created_layout : Layout s'.device s'.freeMap Basic := by
  have mapInode := created_map h c
  have marks {r : Nat} (marked : Marked s.freeMap r) : Marked s'.freeMap r :=
    (c.taken.marks r).mpr (.inr marked)
  have has_run {r : Nat} (has : (dataOf s'.device rootDirSector).Has r) :
      InRun b (bytesToSectors (16 * entrySize)) r := by
    rw [c.data] at has
    exact has
  have root := h.marked c.inside
  have map_run {r : Nat} (has : (dataOf s'.device freeMapSector).Has r) := h.run r (mapInode ▸ has)
  -- What the free map owns was marked before, what the root directory owns was not.
  have old {o : Part × Nat} {r : Nat} (held : Holds s'.device (· = freeMapSector) o r) :
      Marked s.freeMap r ∧ r ≠ rootDirSector := by
    obtain ⟨part, _⟩ := o
    obtain ⟨rfl, has⟩ := held
    cases part with
    | inode => exact has ▸ ⟨h.first, by decide⟩
    | data => exact ⟨(map_run has).1, (map_run has).2.2⟩
  have first : Backed (Holds s'.device (· = freeMapSector)) (Marked s'.freeMap) :=
    backed_one (marks h.first) (fun r has => marks (map_run has).1) fun has => (map_run has).2.1 rfl
  have second : Backed (Holds s'.device (· = rootDirSector)) (Marked s'.freeMap) :=
    backed_one (marks root) (fun r has => (c.taken.marks r).mpr (.inl (has_run has)))
      fun has => c.taken.free _ (has_run has) root
  have none := not_linked (created_empty c)
  constructor
  case device => exact c.size ▸ h.device
  case size => rw [c.bits, h.size, c.size]
  case freeMap => exact .inl rfl
  case root => exact .inr rfl
  case whole => rw [c.data, Nat.mul_mod_left]
  case onDisk =>
    rintro k (rfl | rfl)
    · rw [mapInode]
      exact ⟨c.size ▸ h.onDisk.fits, c.size ▸ h.onDisk.device⟩
    · rw [c.data]
      have device := h.device
      have size := h.size
      have size' := c.size
      have room := c.taken.inside
      exact ⟨show b + bytesToSectors (16 * entrySize) ≤ s'.device.size by omega, by omega⟩
  case backed =>
    refine first.add second (fun o o' r held held' => ?_) fun o r held =>
      held.1.imp (fun same => ⟨same, held.2⟩) fun same => ⟨same, held.2⟩
    obtain ⟨marked, other⟩ := old held
    obtain ⟨part, _⟩ := o'
    obtain ⟨rfl, has⟩ := held'
    cases part with
    | inode => exact other has
    | data => exact c.taken.free r (has_run has) marked
  case linked => exact fun k link => absurd link (none k)
  case once => exact fun i j k inside _ named => absurd ⟨i, inside, named⟩ (none k)

theorem created_clean {r : Nat} (marked : Marked s'.freeMap r) : ∃ o, Holds s'.device Basic o r := by
  cases (c.taken.marks r).mp marked with
  | inl run =>
      refine ⟨(.data, rootDirSector), .inr rfl, ?_⟩
      rw [Has, c.data]
      exact run
  | inr old =>
      obtain first | second | has := h.clean r old
      · exact ⟨(.inode, freeMapSector), .inl rfl, first⟩
      · exact ⟨(.inode, rootDirSector), .inr rfl, second⟩
      · refine ⟨(.data, freeMapSector), .inl rfl, ?_⟩
        rw [Has, created_map h c]
        exact has

end Root

theorem freeMapClose_spec (mapFile : s.freeMapFile = some ⟨p, 0⟩) (only : OnlyMap s p data) :
    ∃ s', s.freeMapClose = .ok s' ∧ Blank s' ∧ s'.device = s.device ∧ s'.freeMap = s.freeMap := by
  refine ⟨{ s.setInode p none with openInodes := s.openInodes.erase p }, ?_, ⟨?_, ?_, only.events⟩,
    rfl, rfl⟩
  · simp only [FileSys.freeMapClose, mapFile, FileSys.fileClose, Option.map_some, FileSys.inodeClose,
      inode_eq only.found, bind, Except.bind, Nat.sub_self, if_true, FileSys.setInode,
      Function.update_idem]
    rfl
  · funext q
    simp only [FileSys.setInode, only.inodes, Function.update_idem, Function.update_apply, ite_self]
  · show s.openInodes.erase p = []
    rw [only.openInodes, List.erase_cons_head]

theorem doFormat_spec (h : Begun s) : Yields Formatted s.doFormat := by
  refine Ends.bind (freeMapCreate_spec h) ?_
  rintro s₁ ⟨p, data, made⟩
  refine Ends.bind (inodeCreate_created (.inr (made.only.ready made.mapFile made.onDisk)) made.size
    made.device made.marked (by decide)) ?_
  rintro ⟨created, s₂⟩ root
  cases created with
  | false => exact .error trivial
  | true =>
      obtain ⟨b, root⟩ := root rfl
      simp only at root
      have mapInode := created_map made root
      obtain ⟨s₃, closed, blank, device, map⟩ :=
        freeMapClose_spec (root.mapFile.trans made.mapFile) (made.only.kept root.toKept)
      simp only [if_true, closed]
      refine .ok ⟨blank, ?_, ?_, ?_, ?_, fun r marked => ?_⟩
      · rw [device, map]
        exact created_layout made root
      · rw [device]
        exact created_empty root
      · rw [device, map, mapInode, root.bits, made.length]
      · rw [Saved, device, map, mapInode]
        refine root.saved ?_ (fun r has => ?_) (Nat.le_of_eq made.length.symm)
        · rw [made.mapFile]
          exact Option.some_ne_none _
        · exact ⟨(made.run r has).2.2, (made.run r has).1⟩
      · rw [device]
        exact created_clean made root (map ▸ marked)

theorem freeMapOpen_spec (h : Formatted s) :
    Yields (fun s' => ∃ f, s'.freeMapFile = some f ∧ s'.device = s.device ∧ s'.freeMap = s.freeMap ∧
      OnlyMap s' f.inode (dataOf s.device freeMapSector)) s.freeMapOpen := by
  refine Ends.bind (openFreeMapFile_spec h.blank) ?_
  rintro ⟨f, s₁⟩ ⟨file, _, device, map, only⟩
  simp only at file device map only
  have onDisk := h.layout.onDisk freeMapSector (.inl rfl)
  obtain ⟨n, ran, most⟩ := readAt_spec only.found (device.symm ▸ onDisk) (mapBytes s₁.freeMap)
    (byteCnt s₁.freeMap.size) 0
  have bytes : (mapBytes s₁.freeMap).copy 0 (fileBytes s₁.device (dataOf s.device freeMapSector)) 0 n =
      mapBytes s₁.freeMap := by
    funext pos
    rw [Memory.copy]
    split
    next inside =>
      rw [Nat.zero_add, Nat.sub_zero, device, map]
      refine h.saved pos (Nat.lt_of_lt_of_le inside.2 ?_)
      rw [map, bytesLeft] at most
      omega
    next => rfl
  simp only [FileSys.bitmapRead, ran, bind, Except.bind, bytes]
  refine Ends.ite (fun _ => .ok ⟨f, file, device, ?_, only.congr rfl rfl rfl rfl⟩) fun _ =>
    .error trivial
  exact (ofMapBytes_mapBytes s₁.freeMap).trans map

theorem OnlyMap.sound {s' : FileSys} {f : File} (layout : Layout s'.device s'.freeMap (Live s'))
    (file : s'.freeMapFile = some f)
    (only : OnlyMap s' f.inode (dataOf s'.device freeMapSector)) : Sound s' [f.inode] := by
  have none_iff (q : Nat) : s'.inodes q ≠ none ↔ q = f.inode := by
    rw [only.inodes, Function.update_apply]
    split
    next same => simp [same]
    next other => simp [other]
  have released (e : Event → Bool) : s'.events.any e = false := by rw [only.events, List.any_nil]
  constructor
  case layout => exact layout
  case cached =>
    intro q i found
    obtain ⟨_, rfl⟩ := only.of_found found
    exact ⟨rfl, rfl⟩
  case unique =>
    intro q q' i i' found found' _
    rw [(only.of_found found).1, (only.of_found found').1]
  case counted =>
    intro q i found
    obtain ⟨rfl, rfl⟩ := only.of_found found
    exact List.count_singleton_self.symm
  case openers => exact fun q => List.mem_singleton.trans (none_iff q).symm
  case nodup =>
    rw [only.openInodes]
    exact List.nodup_cons.mpr ⟨List.not_mem_nil, List.nodup_nil⟩
  case listed =>
    intro q
    rw [only.openInodes, none_iff, List.mem_singleton]
  case fresh =>
    intro q bound
    refine ⟨?_, released _⟩
    by_contra some
    have := only.next
    rw [(none_iff q).mp some] at bound
    omega
  case removed =>
    intro q i found flag
    obtain ⟨_, rfl⟩ := only.of_found found
    cases flag
  case marked =>
    intro q i _ some
    rw [released] at some
    cases some
  case released =>
    intro q
    rw [released, only.events, if_neg (by simp), List.countP_nil]
  case history =>
    intro q k data inside
    rw [only.events] at inside
    cases inside
  case mapFile => exact ⟨f, _, file, only.found, rfl⟩

theorem Formatted.sound {s' : FileSys} {f : File} (h : Formatted s) (file : s'.freeMapFile = some f)
    (device : s'.device = s.device) (map : s'.freeMap = s.freeMap)
    (only : OnlyMap s' f.inode (dataOf s.device freeMapSector)) : Sound s' [f.inode] := by
  refine OnlyMap.sound ?_ file (device.symm ▸ only)
  rw [device, map]
  refine Live.congr (fun k => ?_) h.layout
  constructor
  · rintro (map | root | link | ⟨q, i, found, sector⟩)
    · exact .inl map
    · exact .inr root
    · rw [device] at link
      exact absurd link (not_linked h.empty k)
    · obtain ⟨_, rfl⟩ := only.of_found found
      exact .inl sector.symm
  · rintro (map | root)
    · exact .inl map
    · exact .inr (.inl root)

theorem filesysInit_sound {d : Disk} (bound : d.size ≤ 2 ^ 21) (grants : Nat → Bool)
    (junk : Library.Memory) :
    Yields (fun s => ∃ f, s.freeMapFile = some f ∧ Sound s [f.inode])
      (filesysInit true d grants junk) := by
  refine Ends.bind (freeMapInit_spec bound grants junk) fun s begun => ?_
  refine Ends.bind (doFormat_spec begun) fun s formatted => ?_
  refine (freeMapOpen_spec formatted).imp (fun _ _ => trivial) ?_
  rintro s' ⟨f, file, device, map, only⟩
  exact ⟨f, file, formatted.sound file device map only⟩

end Format
end CS162.Pintos.FileSystem
