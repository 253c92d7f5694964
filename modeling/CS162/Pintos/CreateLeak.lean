import CS162.Pintos.DirectoryLowMemory
import CS162.Pintos.FreeMapWrite

/-!
What a failed `filesys_create` leaves. Its clean-up gives the sector of the inode back. If it is
`dir_add` that fails, the data sectors that `inode_create` has taken stay marked for ever.
-/

namespace CS162.Pintos.FileSystem
open CS162.Library

/-- Files with an entry, the free map and the root directory. -/
def Existing (d : Disk) (k : Nat) : Prop := k = freeMapSector ∨ k = rootDirSector ∨ Linked d k

/-- The free map, the entries of the directory and the sectors of the files are as before. -/
structure Unchanged (s s' : FileSys) : Prop where
  map : ∀ r, Marked s'.freeMap r ↔ Marked s.freeMap r
  count : slotCount s'.device = slotCount s.device
  entries : ∀ j < slotCount s.device, entry (rootBytes s'.device) j = entry (rootBytes s.device) j
  owned : ∀ o r, Holds s'.device (Existing s'.device) o r ↔ Holds s.device (Existing s.device) o r

section Conditions
variable (s : FileSys)

def rootIsOpen : Bool :=
  (s.openInodes.find? fun p => (s.inodes p).any fun i => i.sector == rootDirSector).isSome

/-- The allocations of `dir_open_root`. -/
def rootAllocations : Nat := if rootIsOpen s then 1 else 2

def RootOpens : Prop := (rootIsOpen s = true ∨ s.grants 0 = true) ∧ s.grants (rootAllocations s - 1) = true

/-- The file of the free map has room for it, and its write needs no bounce buffer that is
missing. -/
def MapWrites (granted : Bool) : Prop :=
  byteCnt s.freeMap.size ≤ (dataOf s.device freeMapSector).length ∧
    (granted = true ∨ byteCnt s.freeMap.size % sectorSize = 0)

/-- `inode_create` has memory, and sectors for the data. -/
def DataFits (initialSize : Nat) : Prop :=
  s.grants 0 = true ∧ s.freeMap.scan (bytesToSectors initialSize) false ≠ none ∧ MapWrites s (s.grants 1)

/-- There is memory and there are sectors for an inode and the data of its file. -/
structure Reserves (initialSize : Nat) : Prop where
  root : RootOpens s
  first : MapWrites s (s.grants (rootAllocations s))
  inode : s.grants (rootAllocations s + 1) = true
  second : MapWrites s (s.grants (rootAllocations s + 2))
  sectors : ∃ k map, s.freeMap.scanAndFlip 1 false = some (some k, map) ∧
    map.scan (bytesToSectors initialSize) false ≠ none

/-- `dir_add` succeeds under a pattern of allocations. -/
def AddsTo (d : Disk) (grants : Nat → Bool) (name : List UInt8) : Prop := ValidName name ∧
  ¬ Finds grants (entry (rootBytes d)) (slotCount d) name ∧
  Writes grants (entry (rootBytes d)) (slotCount d) name

/-- It succeeds behind the other steps. -/
def Adds (name : List UInt8) : Prop := AddsTo s.device (s.after (rootAllocations s + 3)).grants name

end Conditions

section Steps
variable {s s' s'' : FileSys} {openers : List Nat} {p k : Nat} {i f : Inode} {name : List UInt8}
variable {initialSize : Nat} {created : Bool}

/-- The steps of `filesys_create`, and where it ends. -/
theorem filesysCreate_cases (ran : s.filesysCreate name initialSize = .ok (created, s')) :
    (s.dirOpenRoot = .ok (none, s') ∧ created = false) ∨
    (∃ p s₁ s₂, s.dirOpenRoot = .ok (some p, s₁) ∧ s₁.freeMapAllocate 1 = .ok (none, s₂) ∧
      s₂.dirClose (some p) = .ok s' ∧ created = false) ∨
    ∃ p s₁ k s₂ made s₃ s₄ s₅, s.dirOpenRoot = .ok (some p, s₁) ∧
      s₁.freeMapAllocate 1 = .ok (some k, s₂) ∧ s₂.inodeCreate k initialSize = .ok (made, s₃) ∧
      (if made then s₃.dirAdd p name k else pure (false, s₃)) = .ok (created, s₄) ∧
      (if ¬ created ∧ k ≠ 0 then s₄.freeMapRelease k 1 else pure s₄) = .ok s₅ ∧
      s₅.dirClose (some p) = .ok s' := by
  rw [FileSys.filesysCreate] at ran
  obtain ⟨⟨dir, s₁⟩, opened, ran⟩ := bind_eq_ok ran
  cases dir with
  | none =>
      cases ran
      exact .inl ⟨opened, rfl⟩
  | some p =>
      obtain ⟨⟨sector, s₂⟩, allocated, ran⟩ := bind_eq_ok ran
      cases sector with
      | none =>
          obtain ⟨s₃, closed, ran⟩ := bind_eq_ok ran
          cases ran
          exact .inr (.inl ⟨p, s₁, s₂, opened, allocated, closed, rfl⟩)
      | some k =>
          obtain ⟨⟨made, s₃⟩, inode, ran⟩ := bind_eq_ok ran
          have finish (added : Bool) (s₄ : FileSys)
              (rest : (if ¬ added = true ∧ k ≠ 0 then do
                  let s₅ ← s₄.freeMapRelease k 1
                  return (added, ← s₅.dirClose (some p))
                else do
                  let s₅ ← pure s₄
                  return (added, ← s₅.dirClose (some p))) = .ok (created, s')) :
              added = created ∧ ∃ s₅,
                (if ¬ added ∧ k ≠ 0 then s₄.freeMapRelease k 1 else pure s₄) = .ok s₅ ∧
                s₅.dirClose (some p) = .ok s' := by
            split at rest
            next failed =>
              obtain ⟨s₅, released, rest⟩ := bind_eq_ok rest
              obtain ⟨s₆, closed, rest⟩ := bind_eq_ok rest
              cases rest
              exact ⟨rfl, s₅, (if_pos failed).trans released, closed⟩
            next kept =>
              obtain ⟨s₅, same, rest⟩ := bind_eq_ok rest
              obtain ⟨s₆, closed, rest⟩ := bind_eq_ok rest
              cases rest
              exact ⟨rfl, s₅, (if_neg kept).trans same, closed⟩
          cases made with
          | false =>
              obtain ⟨rfl, s₅, left, closed⟩ := finish false s₃ ran
              exact .inr (.inr ⟨p, s₁, k, s₂, false, s₃, s₃, s₅, opened, allocated, inode, rfl, left, closed⟩)
          | true =>
              obtain ⟨⟨added, s₄⟩, add, ran⟩ := bind_eq_ok ran
              obtain ⟨rfl, s₅, left, closed⟩ := finish added s₄ ran
              exact .inr (.inr ⟨p, s₁, k, s₂, true, s₃, s₄, s₅, opened, allocated, inode, add, left, closed⟩)

theorem dirOpen_exact {dir : Option Nat} (ran : s.dirOpen (some p) = .ok (dir, s')) :
    (dir ≠ none ↔ s.grants 0 = true) ∧ (dir ≠ none → s'.grants = (s.after 1).grants) := by
  rw [FileSys.dirOpen] at ran
  cases granted : s.malloc.1 with
  | true =>
      simp only [granted] at ran
      cases ran
      exact ⟨iff_of_true (Option.some_ne_none p) granted, fun _ => rfl⟩
  | false =>
      simp only [granted] at ran
      obtain ⟨s₁, closed, ran⟩ := bind_eq_ok ran
      cases ran
      have denied : s.grants 0 = false := granted
      refine ⟨iff_of_false (fun no => no rfl) ?_, fun no => absurd rfl no⟩
      rw [denied]
      exact Bool.false_ne_true

theorem dirOpenRoot_exact (h : Sound s openers) : ∃ dir s', s.dirOpenRoot = .ok (dir, s') ∧
    (dir ≠ none ↔ RootOpens s) ∧ (dir ≠ none → s'.grants = (s.after (rootAllocations s)).grants) := by
  have inside : ¬ rootDirSector ≥ s.device.size := Nat.not_le.mpr (h.layout.lt_size h.layout.root)
  obtain ⟨dir, s', ran, _⟩ := dirOpenRoot_spec h
  refine ⟨dir, s', ran, ?_⟩
  rw [FileSys.dirOpenRoot, FileSys.inodeOpen] at ran
  rw [RootOpens, rootAllocations, rootIsOpen]
  cases search : s.openInodes.find? fun p => (s.inodes p).any fun i => i.sector == rootDirSector with
  | some q =>
      simp only [search, bind, Except.bind] at ran
      obtain ⟨opens, grants⟩ := dirOpen_exact ran
      exact ⟨opens.trans (and_iff_right (.inl rfl)).symm, grants⟩
  | none =>
      simp only [search, bind, Except.bind] at ran
      cases first : s.malloc.1 with
      | false =>
          have denied : s.grants 0 = false := first
          simp only [first, pure, Except.pure, FileSys.dirOpen] at ran
          cases ran
          refine ⟨iff_of_false (fun no => no rfl) fun opens => ?_, fun no => absurd rfl no⟩
          cases opens.1 with
          | inl isOpen => cases isOpen
          | inr granted => exact Bool.false_ne_true (denied.symm.trans granted)
      | true =>
          have read : blockRead s.malloc.2.device rootDirSector = .ok (s.device.sectors rootDirSector) :=
            if_neg inside
          simp only [first, if_true, read, onDevice, pure, Except.pure] at ran
          obtain ⟨opens, grants⟩ := dirOpen_exact ran
          refine ⟨opens.trans (and_iff_right (.inr first)).symm, fun some => (grants some).trans ?_⟩
          exact (congrArg FileSys.grants (after_after s 1 1) : (s.malloc.2.after 1).grants = _)

theorem bitmapWrite_done {file : File} (opened : s.inodes file.inode = some f)
    (onDisk : OnDisk s.device f.data) (allowed : f.denyWriteCnt = 0) :
    ∃ done s', s.bitmapWrite file = .ok (done, s') ∧ s'.freeMap = s.freeMap ∧
      s'.grants = (s.after 1).grants ∧ (done = true ↔ byteCnt s.freeMap.size ≤ f.data.length ∧
        (s.grants 0 = true ∨ byteCnt s.freeMap.size % sectorSize = 0)) := by
  by_cases room : byteCnt s.freeMap.size ≤ f.data.length
  · obtain ⟨n, s', ran, map, grants, _, exact⟩ := bitmapWrite_exact opened onDisk allowed room
    refine ⟨_, s', ran, map, grants, ?_⟩
    rw [beq_iff_eq, exact, and_iff_right room]
    split
    next granted => exact iff_of_true rfl (.inl granted)
    next denied =>
      rw [or_iff_right denied, wholeBytes, ← Nat.dvd_iff_mod_eq_zero]
      constructor
      · intro whole
        exact ⟨_, whole.symm⟩
      · exact Nat.mul_div_cancel'
  · obtain ⟨n, d', ran, _, _, most⟩ := writeAt_spec opened onDisk allowed (mapBytes s.freeMap)
      (byteCnt s.freeMap.size) 0
    refine ⟨n == byteCnt s.freeMap.size, { s.malloc.2 with device := d' }, ?_, rfl, rfl, ?_⟩
    · simp only [FileSys.bitmapWrite, ran, bind, Except.bind]
      rfl
    · rw [beq_iff_eq]
      refine iff_of_false (fun all => ?_) fun both => room both.1
      simp only [bytesLeft] at most
      omega

theorem freeMapAllocate_exact (h : Sound s openers) (cnt : Nat) :
    ∃ result s', s.freeMapAllocate cnt = .ok (result, s') ∧
      (result ≠ none ↔ s.freeMap.scan cnt false ≠ none ∧ MapWrites s (s.grants 0)) ∧
      ∀ start, result = some start → s.freeMap.scanAndFlip cnt false = some (some start, s'.freeMap) ∧
        s'.grants = (s.after 1).grants := by
  obtain ⟨f, ready, data⟩ := h.mapReady
  obtain ⟨file, opens, opened⟩ := ready.opened
  obtain ⟨result, s', ran, _⟩ := freeMapAllocate_spec cnt (.inr ready)
  refine ⟨result, s', ran, ?_⟩
  rw [FileSys.freeMapAllocate] at ran
  cases found : s.freeMap.scan cnt false with
  | none =>
      have flip : s.freeMap.scanAndFlip cnt false = some (none, s.freeMap) := by
        rw [Bitmap.scanAndFlip, found]
      rw [flip] at ran
      cases ran
      exact ⟨iff_of_false (fun no => no rfl) fun both => both.1 rfl, fun _ no => by cases no⟩
  | some start =>
      obtain ⟨inside, _⟩ := Bitmap.scan_eq_some found
      obtain ⟨map, set, size, _⟩ := Bitmap.setMultiple_spec (b := s.freeMap) true inside
      have flip : s.freeMap.scanAndFlip cnt false = some (some start, map) := by
        rw [Bitmap.scanAndFlip, found]
        exact congrArg (Option.map _) set
      obtain ⟨done, s₁, wrote, same, grants, complete⟩ := bitmapWrite_done
        (s := { s with freeMap := map }) opened ready.onDisk ready.allowed
      have complete : done = true ↔ MapWrites s (s.grants 0) := by
        rw [MapWrites, ← data, ← size]
        exact complete
      rw [opens] at wrote
      simp only [flip, opens, wrote, bind, Except.bind] at ran
      rw [and_iff_right (Option.some_ne_none start), ← complete]
      cases done with
      | true =>
          cases ran
          refine ⟨iff_of_true (Option.some_ne_none start) rfl, fun first same' => ?_⟩
          cases same'
          exact ⟨flip.trans (by rw [same]), grants⟩
      | false =>
          simp only [Bool.false_eq_true, if_false] at ran
          split at ran
          next => cases ran
          next =>
            cases ran
            exact ⟨iff_of_false (fun no => no rfl) Bool.false_ne_true, fun _ no => by cases no⟩

theorem inodeCreate_exact (h : Sound s openers) (reserved : Reserved s k) (bound : initialSize < 2 ^ 31) :
    ∃ made s', s.inodeCreate k initialSize = .ok (made, s') ∧
      (made = true ↔ DataFits s initialSize) ∧ (made = true → s'.grants = (s.after 2).grants) := by
  obtain ⟨made, s', ran, _⟩ := inodeCreate_spec h reserved bound
  refine ⟨made, s', ran, ?_⟩
  rw [FileSys.inodeCreate] at ran
  cases granted : s.malloc.1 with
  | false =>
      have denied : s.grants 0 = false := granted
      simp only [granted] at ran
      cases ran
      rw [DataFits, denied]
      exact ⟨iff_of_false Bool.false_ne_true fun all => Bool.false_ne_true all.1, fun no => by cases no⟩
  | true =>
      have first : s.grants 0 = true := granted
      obtain ⟨result, s₁, allocated, some, rest⟩ :=
        freeMapAllocate_exact h.malloc (bytesToSectors initialSize)
      have some : result ≠ none ↔ s.freeMap.scan (bytesToSectors initialSize) false ≠ none ∧
        MapWrites s (s.grants 1) := some
      simp only [granted, if_true, allocated, bind, Except.bind] at ran
      rw [DataFits, and_iff_right first, ← some]
      cases result with
      | none =>
          cases ran
          exact ⟨iff_of_false Bool.false_ne_true fun no => no rfl, fun no => by cases no⟩
      | some start =>
          obtain ⟨d₁, _, ran⟩ := bind_eq_ok ran
          obtain ⟨d₂, _, ran⟩ := bind_eq_ok ran
          cases ran
          refine ⟨iff_of_true rfl (Option.some_ne_none start), fun _ => (rest start rfl).2.trans ?_⟩
          exact congrArg FileSys.grants (after_after s 1 1)

theorem inodeCreate_failed (h : Sound s openers) (ran : s.inodeCreate k initialSize = .ok (false, s')) :
    Touches (dataOf s.device freeMapSector) s s' ∧ ∀ r, Marked s'.freeMap r ↔ Marked s.freeMap r := by
  obtain ⟨f, ready, data⟩ := h.mapReady
  have ready : MapReady s.malloc.2 f := ready.congr (Kept.malloc s) rfl
  have asked : Touches (dataOf s.device freeMapSector) s s.malloc.2 :=
    ⟨Kept.malloc s, rfl, rfl, fun _ _ => rfl⟩
  obtain ⟨result, s₁, allocated, touches, marks, _⟩ :=
    freeMapAllocate_spec (bytesToSectors initialSize) (.inr ready)
  rw [data] at touches
  rw [FileSys.inodeCreate] at ran
  simp only [allocated, bind, Except.bind] at ran
  split at ran
  next =>
    cases result with
    | none =>
        cases ran
        exact ⟨asked.trans touches, marks⟩
    | some start =>
        obtain ⟨d₁, _, ran⟩ := bind_eq_ok ran
        obtain ⟨d₂, _, ran⟩ := bind_eq_ok ran
        cases ran
  next =>
    cases ran
    exact ⟨asked, fun _ => Iff.rfl⟩

/-- Sectors that were in use are as before, but for the contents of the free map. -/
def SameUsed (s s' : FileSys) : Prop := ∀ r, Marked s.freeMap r →
  ¬ (dataOf s.device freeMapSector).Has r → s'.device.sectors r = s.device.sectors r

namespace SameUsed

theorem of_device (same : s'.device = s.device) : SameUsed s s' := by
  intro r _ _
  rw [same]

theorem inode (same : SameUsed s s') (h : Sound s openers) (alive : Live s k) :
    s'.device.sectors k = s.device.sectors k :=
  same k (h.layout.holds_inode alive) (h.layout.inode_apart alive h.layout.freeMap)

theorem dataOf_eq (same : SameUsed s s') (h : Sound s openers) (alive : Live s k) :
    dataOf s'.device k = dataOf s.device k := by
  rw [dataOf, dataOf, same.inode h alive]

theorem touch (same : SameUsed s s') (h : Sound s openers)
    (t : Touches (dataOf s'.device freeMapSector) s' s'') : SameUsed s s'' := by
  intro r marked outside
  rw [← same.dataOf_eq h h.layout.freeMap] at outside
  rw [t.others r outside]
  rw [same.dataOf_eq h h.layout.freeMap] at outside
  exact same r marked outside

theorem directory (same : SameUsed s s') (h : Sound s openers) :
    slotCount s'.device = slotCount s.device ∧
      (∀ j < slotCount s.device, entry (rootBytes s'.device) j = entry (rootBytes s.device) j) ∧
      ∀ k, Linked s'.device k ↔ Linked s.device k := by
  have layout := h.layout
  have dir (r : Nat) (has : (dataOf s.device rootDirSector).Has r) :
      s'.device.sectors r = s.device.sectors r :=
    same r (layout.holds_data layout.root has) fun has' =>
      absurd (layout.data_apart layout.root layout.freeMap has has') (by decide)
  obtain ⟨count, _, links⟩ := linked_congr (same.inode h layout.root) dir
  refine ⟨count, fun j inside => ?_, links⟩
  have whole := layout.whole
  rw [rootBytes, same.dataOf_eq h layout.root]
  apply entry_congr
  intro x lower upper
  apply fileBytes_congr dir
  simp only [slotCount, entrySize] at *
  omega

theorem holds_iff (same : SameUsed s s') (h : Sound s openers) (o : Part × Nat) (r : Nat) :
    Holds s'.device (Existing s'.device) o r ↔ Holds s.device (Existing s.device) o r := by
  have existing (k : Nat) : Existing s'.device k ↔ Existing s.device k := by
    rw [Existing, Existing, (same.directory h).2.2]
  have alive {k : Nat} (exists_ : Existing s.device k) : Live s k :=
    exists_.imp_right fun rest => rest.imp_right .inl
  obtain ⟨part, k⟩ := o
  rw [Holds, Holds, existing]
  refine and_congr_right fun exists_ => ?_
  cases part with
  | inode => rfl
  | data => rw [Has, Has, same.dataOf_eq h (alive exists_)]

theorem unchanged_iff (same : SameUsed s s') (h : Sound s openers) :
    Unchanged s s' ↔ ∀ r, Marked s'.freeMap r ↔ Marked s.freeMap r := by
  obtain ⟨count, entries, _⟩ := same.directory h
  exact ⟨Unchanged.map, fun map => ⟨map, count, entries, same.holds_iff h⟩⟩

end SameUsed

theorem AddsTo.congr {d d' : Disk} (count : slotCount d' = slotCount d)
    (entries : ∀ j < slotCount d, entry (rootBytes d') j = entry (rootBytes d) j)
    (grants : Nat → Bool) (name : List UInt8) : AddsTo d' grants name ↔ AddsTo d grants name := by
  have named : nameStop grants (entry (rootBytes d')) (slotCount d) name =
      nameStop grants (entry (rootBytes d)) (slotCount d) name :=
    SlotTable.stop_congr fun l _ inside => by rw [entries l (by omega)]
  have free : slotStop grants (entry (rootBytes d')) (slotCount d) name =
      slotStop grants (entry (rootBytes d)) (slotCount d) name := by
    rw [slotStop, slotStop, named]
    exact SlotTable.stop_congr fun l _ inside => by rw [entries l (by omega)]
  rw [AddsTo, AddsTo, count, Finds, Finds, Writes, Writes, free, named]

theorem MapWrites.congr (bits : s'.freeMap.size = s.freeMap.size)
    (data : dataOf s'.device freeMapSector = dataOf s.device freeMapSector) (granted : Bool) :
    MapWrites s' granted ↔ MapWrites s granted := by
  rw [MapWrites, MapWrites, bits, data]

theorem SameUsed.create {t t' : FileSys} {start : Nat} (same : SameUsed s t) (h : Sound s openers)
    (taken : Taken s.freeMap t.freeMap k 1)
    (c : Created t t' (dataOf t.device freeMapSector) k start initialSize) : SameUsed s t' := by
  intro r marked outside
  have first : r ≠ k := by
    intro here
    exact taken.free r ⟨Nat.le_of_eq here.symm, by omega⟩ marked
  have run : ¬ InRun start (bytesToSectors initialSize) r :=
    fun run => c.taken.free r run ((taken.marks r).mpr (.inr marked))
  rw [c.others r first run, same r marked outside]
  rw [same.dataOf_eq h h.layout.freeMap]
  exact outside

theorem Taken.giveBack {map₀ map₁ map₂ map₃ : Bitmap} {start cnt : Nat} (first : Taken map₀ map₁ k 1)
    (second : Taken map₁ map₂ start cnt) (size : map₁.size = map₀.size)
    (back : ∀ r, Marked map₃ r ↔ Marked map₂ r ∧ r ≠ k) : Taken map₀ map₃ start cnt where
  inside := size ▸ second.inside
  free r run marked := second.free r run ((first.marks r).mpr (.inr marked))
  marks r := by
    have one : InRun k 1 r ↔ r = k := by
      rw [InRun]
      omega
    have apart (here : r = k) : ¬ InRun start cnt r ∧ ¬ Marked map₀ r := by
      have run := one.mpr here
      exact ⟨fun both => second.free r both ((first.marks r).mpr (.inl run)), first.free r run⟩
    rw [back, second.marks, first.marks, one]
    constructor
    · intro both
      exact both.1.imp_right fun rest => rest.resolve_left both.2
    · intro marked
      refine ⟨marked.imp_right .inr, fun here => ?_⟩
      exact marked.elim (apart here).1 (apart here).2

theorem Taken.nothing {map map' : Bitmap} (marks : ∀ r, Marked map' r ↔ Marked map r) : Taken map map' 0 0 where
  inside := Nat.zero_le _
  free r run := absurd run.2 (Nat.not_lt_zero r)
  marks r := (marks r).trans (or_iff_right fun run => absurd run.2 (Nat.not_lt_zero r)).symm

/-- Behind the reservation of a sector: the entry is added, or the sectors of the data stay taken. -/
theorem createAt_exact {s₀ s₁ s₂ s₃ : FileSys} {openers₀ : List Nat} {made added : Bool}
    (h₀ : Sound s₀ openers₀) (same : SameUsed s₀ s) (taken : Taken s₀.freeMap s.freeMap k 1)
    (size : s.freeMap.size = s₀.freeMap.size) (h : Sound s openers) (root : RootAt s p) (reserved : Reserved s k)
    (file : 2 ≤ k) (bound : initialSize < 2 ^ 31) (inode : s.inodeCreate k initialSize = .ok (made, s₁))
    (add : (if made then s₁.dirAdd p name k else pure (false, s₁)) = .ok (added, s₂))
    (left : (if ¬ added ∧ k ≠ 0 then s₂.freeMapRelease k 1 else pure s₂) = .ok s₃) :
    (added = true ↔ DataFits s initialSize ∧ AddsTo s₀.device (s.after 2).grants name) ∧
    (added = false → SameUsed s₀ s₃ ∧ ∃ start cnt, Taken s₀.freeMap s₃.freeMap start cnt ∧
      (0 < cnt ↔ 0 < initialSize ∧ DataFits s initialSize)) := by
  obtain ⟨made', s₁', inode', kept, sound₁, _, reserved₁, spare⟩ := inodeCreate_spec h reserved bound
  cases inode.symm.trans inode'
  obtain ⟨made', s₁', inode', fits, grants⟩ := inodeCreate_exact h reserved bound
  cases inode.symm.trans inode'
  have positive : k ≠ 0 := Nat.ne_of_gt (Nat.lt_of_lt_of_le Nat.two_pos file)
  -- The clean-up writes the free map and clears the mark of the sector.
  have cleanUp (failed : added = false) (sound₂ : Sound s₂ openers) (reserved₂ : Reserved s₂ k)
      (same₂ : SameUsed s₀ s₂) :
      SameUsed s₀ s₃ ∧ ∀ r, Marked s₃.freeMap r ↔ Marked s₂.freeMap r ∧ r ≠ k := by
    rw [failed, if_pos ⟨Bool.false_ne_true, positive⟩] at left
    obtain ⟨s', released, _, _, marks⟩ := releaseReserved sound₂ reserved₂
    cases left.symm.trans released
    obtain ⟨f, ready, data⟩ := sound₂.mapReady
    have touches := freeMapRelease_touches ready left
    rw [data] at touches
    exact ⟨same₂.touch h₀ touches, marks⟩
  cases made with
  | false =>
      cases add
      have misses : ¬ DataFits s initialSize := fun all => Bool.false_ne_true (fits.mpr all)
      refine ⟨iff_of_false Bool.false_ne_true fun all => misses all.1, fun _ => ?_⟩
      obtain ⟨touches, marks₁⟩ := inodeCreate_failed h inode
      obtain ⟨same₃, marks₃⟩ := cleanUp rfl sound₁ reserved₁ (same.touch h₀ touches)
      refine ⟨same₃, 0, 0, taken.giveBack (.nothing marks₁) size marks₃, ?_⟩
      exact iff_of_false (Nat.lt_irrefl 0) fun all => misses all.2
  | true =>
      have add : s₁.dirAdd p name k = .ok (added, s₂) := add
      have below : k < s.freeMap.size := Bitmap.lt_of_test reserved.marked
      have sizes := h.layout.size
      have device := h.layout.device
      obtain ⟨f, ready, data⟩ := h.mapReady
      obtain ⟨start, c⟩ := (inodeCreate_created (.inr ready) sizes device
        (fun _ => reserved.marked) bound).get inode rfl
      rw [data] at c
      have same₁ := same.create h₀ taken c
      obtain ⟨count, entries, _⟩ := same₁.directory h₀
      obtain ⟨added', s', add', _, sound₂, map₂, reserved₂⟩ :=
        dirAdd_spec sound₁ (kept.rootAt root) reserved₁ (spare rfl) file name
      cases add.symm.trans add'
      obtain ⟨i, dir, slots⟩ := sound₁.dirAt (kept.rootAt root)
      obtain ⟨added', s', add', success, _, unwritten, _⟩ :=
        dir.dirAdd_exact (show k < 2 ^ 32 by omega)
      cases add.symm.trans add'
      rw [slots, grants rfl] at success
      have success : added = true ↔ AddsTo s₁.device (s.after 2).grants name := success
      rw [success, AddsTo.congr count entries, and_iff_right (fits.mp rfl)]
      refine ⟨Iff.rfl, fun failed => ?_⟩
      have same₂ : SameUsed s₀ s₂ := by
        rw [SameUsed, unwritten failed]
        exact same₁
      obtain ⟨same₃, marks₃⟩ := cleanUp failed sound₂ (reserved₂ failed) same₂
      rw [map₂] at marks₃
      refine ⟨same₃, start, _, taken.giveBack c.taken size marks₃, ?_⟩
      rw [and_iff_left (fits.mp rfl), bytesToSectors, sectorSize]
      omega

/-- Behind the opening of the root: the sector for the inode is found and the map written, or not. -/
theorem reserve_exact {s₁ : FileSys} {openers₁ : List Nat} (h : Sound s openers) (sound₁ : Sound s₁ openers₁)
    (map₁ : s₁.freeMap = s.freeMap) (device₁ : s₁.device = s.device)
    (grants₁ : s₁.grants = (s.after (rootAllocations s)).grants) :
    ∃ sector s₂, s₁.freeMapAllocate 1 = .ok (sector, s₂) ∧ SameUsed s s₂ ∧
      s₂.freeMap.size = s.freeMap.size ∧ Allocated s.freeMap s₂.freeMap 1 sector ∧
      (sector ≠ none ↔ s.freeMap.scan 1 false ≠ none ∧ MapWrites s (s.grants (rootAllocations s))) ∧
      ∀ k, sector = some k → s.freeMap.scanAndFlip 1 false = some (some k, s₂.freeMap) ∧
        ∀ j, s₂.grants j = s.grants (rootAllocations s + (j + 1)) := by
  have data₁ : dataOf s₁.device freeMapSector = dataOf s.device freeMapSector := by rw [device₁]
  have writes (granted : Bool) : MapWrites s₁ granted ↔ MapWrites s granted :=
    MapWrites.congr (congrArg Bitmap.size map₁) data₁ granted
  have first : s₁.grants 0 = s.grants (rootAllocations s) := by
    rw [grants₁]
    exact congrArg s.grants (Nat.zero_add _)
  obtain ⟨sector, s₂, allocated, found, flips⟩ := freeMapAllocate_exact sound₁ 1
  obtain ⟨f, ready, data⟩ := sound₁.mapReady
  obtain ⟨sector', s₂', allocated', touches, marks, _⟩ := freeMapAllocate_spec 1 (.inr ready)
  cases allocated.symm.trans allocated'
  rw [data] at touches
  rw [map₁] at marks
  rw [map₁, writes, first] at found
  refine ⟨sector, s₂, allocated, (SameUsed.of_device device₁).touch h touches,
    touches.bits.trans (congrArg Bitmap.size map₁), marks, found, fun k same => ?_⟩
  obtain ⟨flip, grants₂⟩ := flips k same
  rw [map₁] at flip
  refine ⟨flip, fun j => ?_⟩
  rw [grants₂]
  show s₁.grants (j + 1) = _
  rw [grants₁]
  exact congrArg s.grants (Nat.add_comm ..)

section Reserve
variable {s₂ : FileSys} (shift : ∀ j, s₂.grants j = s.grants (rootAllocations s + (j + 1)))
include shift

theorem dataFits_iff (h : Sound s openers) (same : SameUsed s s₂) (size : s₂.freeMap.size = s.freeMap.size)
    (opens : RootOpens s) (first : MapWrites s (s.grants (rootAllocations s)))
    (flip : s.freeMap.scanAndFlip 1 false = some (some k, s₂.freeMap)) :
    DataFits s₂ initialSize ↔ Reserves s initialSize := by
  rw [DataFits, shift, shift, MapWrites.congr size (same.dataOf_eq h h.layout.freeMap)]
  constructor
  · intro fits
    obtain ⟨inode, sectors, second⟩ := fits
    exact ⟨opens, first, inode, second, k, s₂.freeMap, flip, sectors⟩
  · intro all
    obtain ⟨k', map, flip', sectors⟩ := all.sectors
    cases flip.symm.trans flip'
    exact ⟨all.inode, sectors, all.second⟩

theorem addsTo_iff (name : List UInt8) : AddsTo s.device (s₂.after 2).grants name ↔ Adds s name := by
  have same : (s₂.after 2).grants = (s.after (rootAllocations s + 3)).grants := by
    funext j
    exact (shift (j + 2)).trans (congrArg s.grants (by omega))
  rw [Adds, same]

end Reserve

/-- When `filesys_create` succeeds, and what it leaves when it fails. -/
theorem filesysCreate_exact (h : Sound s openers) (name : List UInt8) (bound : initialSize < 2 ^ 31) :
    ∃ created s', s.filesysCreate name initialSize = .ok (created, s') ∧
      (created = true ↔ Reserves s initialSize ∧ Adds s name) ∧
      (created = false → SameUsed s s' ∧ ∃ start cnt, Taken s.freeMap s'.freeMap start cnt ∧
        (0 < cnt ↔ 0 < initialSize ∧ Reserves s initialSize)) := by
  obtain ⟨created, s', ran, _⟩ := filesysCreate_spec h name bound
  refine ⟨created, s', ran, ?_⟩
  have fails (same : SameUsed s s') (marks : ∀ r, Marked s'.freeMap r ↔ Marked s.freeMap r)
      (failed : created = false) (misses : ¬ Reserves s initialSize) :
      (created = true ↔ Reserves s initialSize ∧ Adds s name) ∧
      (created = false → SameUsed s s' ∧ ∃ start cnt, Taken s.freeMap s'.freeMap start cnt ∧
        (0 < cnt ↔ 0 < initialSize ∧ Reserves s initialSize)) := by
    refine ⟨iff_of_false (by simp [failed]) fun all => misses all.1, fun _ => ⟨same, 0, 0, .nothing marks, ?_⟩⟩
    exact iff_of_false (Nat.lt_irrefl 0) fun all => misses all.2
  obtain ⟨dir, s₁, opened, _, map₁, device₁, _, sound₁⟩ := dirOpenRoot_spec h
  obtain ⟨dir', s₁', opened', opens, grants₁⟩ := dirOpenRoot_exact h
  cases opened.symm.trans opened'
  cases dir with
  | none =>
      obtain ⟨same, failed⟩ | ⟨_, _, _, no, _⟩ | ⟨_, _, _, _, _, _, _, _, no, _⟩ := filesysCreate_cases ran
      · cases opened.symm.trans same
        refine fails (.of_device device₁) (fun r => by rw [map₁]) failed fun all => opens.mpr all.root rfl
      · cases opened.symm.trans no
      · cases opened.symm.trans no
  | some p =>
      obtain ⟨sound₁, root₁⟩ := sound₁
      obtain ⟨sector, s₂, allocated, kept₂, sound₂, _, reserved⟩ := reserve sound₁
      obtain ⟨sector', s₂', allocated', same₂, size₂, marks₂, found, flips⟩ :=
        reserve_exact h sound₁ map₁ device₁ (grants₁ (Option.some_ne_none p))
      cases allocated.symm.trans allocated'
      have root₂ := kept₂.rootAt root₁
      cases sector with
      | none =>
          have misses (all : Reserves s initialSize) : False := by
            obtain ⟨k, map, flip, _⟩ := all.sectors
            refine found.mpr ⟨fun none => ?_, all.first⟩ rfl
            rw [Bitmap.scanAndFlip, none] at flip
            cases flip
          obtain ⟨no, _⟩ | ⟨q, t, t', again, taken, closed, failed⟩ | ⟨q, t, k, t', _, _, _, _, again, taken, _⟩ :=
            filesysCreate_cases ran
          · cases opened.symm.trans no
          · cases opened.symm.trans again
            cases allocated.symm.trans taken
            obtain ⟨s₃, closed', _, _, map₃, device₃, _⟩ := dirClose_spec sound₂ root₂
            cases closed.symm.trans closed'
            have same₃ : SameUsed s s' := by
              rw [SameUsed, device₃]
              exact same₂
            refine fails same₃ (fun r => ?_) failed misses
            rw [map₃]
            exact marks₂ r
          · cases opened.symm.trans again
            cases allocated.symm.trans taken
      | some k =>
          obtain ⟨reserved, _, file⟩ := reserved k rfl
          obtain ⟨flip, shift⟩ := flips k rfl
          have first := (found.mp (Option.some_ne_none k)).2
          have fits : DataFits s₂ initialSize ↔ Reserves s initialSize :=
            dataFits_iff shift h same₂ size₂ (opens.mp (Option.some_ne_none p)) first flip
          obtain ⟨no, _⟩ | ⟨q, t, t', again, none, _⟩ | ⟨q, t, k', t', made, s₃, s₄, s₅, again, some,
            inode, add, left, closed⟩ := filesysCreate_cases ran
          · cases opened.symm.trans no
          · cases opened.symm.trans again
            cases allocated.symm.trans none
          · cases opened.symm.trans again
            cases allocated.symm.trans some
            obtain ⟨success, failure⟩ := createAt_exact h same₂ marks₂ size₂ sound₂ root₂ reserved file bound
              inode add left
            obtain ⟨_, _, _, _, _, inode', add', left', kept₅, sound₅, _⟩ :=
              createAt_spec sound₂ root₂ reserved file name bound
            cases inode.symm.trans inode'
            cases add.symm.trans add'
            cases left.symm.trans left'
            obtain ⟨s₆, closed', _, _, map₆, device₆, _⟩ := dirClose_spec sound₅ (kept₅.rootAt root₂)
            cases closed.symm.trans closed'
            rw [fits, addsTo_iff shift] at success
            refine ⟨success, fun failed => ?_⟩
            have failure := failure failed
            rw [fits, ← map₆] at failure
            refine ⟨?_, failure.2⟩
            rw [SameUsed, device₆]
            exact failure.1

end Steps

/-- A failed `filesys_create` leaves all as it was exactly if there are no data, or there is no
memory or sector for the file, so that it does not come to `dir_add`. -/
theorem filesysCreate_unchanged_iff {w : Callers} (reach : system.Reachable w) (name : List UInt8)
    {initialSize : Nat} (bound : initialSize < 2 ^ 31) :
    ∃ created s', w.fs.filesysCreate name initialSize = .ok (created, s') ∧
      ((created = false → Unchanged w.fs s') ↔
        initialSize = 0 ∨ ¬ Reserves w.fs initialSize ∨ Adds w.fs name) := by
  obtain ⟨m, kempt⟩ := kempt_of_reachable reach
  obtain ⟨created, s', ran, success, failure⟩ := filesysCreate_exact kempt.sound name bound
  refine ⟨created, s', ran, ?_⟩
  cases created with
  | true =>
      refine iff_of_true (fun no => by cases no) (.inr (.inr (success.mp rfl).2))
  | false =>
      obtain ⟨same, start, cnt, taken, leaks⟩ := failure rfl
      rw [imp_iff_right rfl, same.unchanged_iff kempt.sound]
      have none_iff : (∀ r, Marked s'.freeMap r ↔ Marked w.fs.freeMap r) ↔ cnt = 0 := by
        constructor
        · intro marks
          by_contra some
          have run : InRun start cnt start := ⟨Nat.le_refl start, by omega⟩
          exact taken.free start run ((marks start).mp ((taken.marks start).mpr (.inl run)))
        · intro none r
          rw [taken.marks, InRun]
          exact or_iff_right (by omega)
      rw [none_iff]
      constructor
      · intro none
        by_contra other
        obtain ⟨data, other⟩ := not_or.mp other
        obtain ⟨fits, _⟩ := not_or.mp other
        have := leaks.mpr ⟨Nat.pos_of_ne_zero data, not_not.mp fits⟩
        omega
      · intro safe
        by_contra some
        obtain ⟨data, fits⟩ := leaks.mp (Nat.pos_of_ne_zero some)
        obtain empty | short | adds := safe
        · exact Nat.ne_of_gt data empty
        · exact short fits
        · exact Bool.false_ne_true (success.mpr ⟨fits, adds⟩)

theorem exists_oneFile (check : Callers → Bool)
    (fact : (filesysInit true ⟨12, fun _ _ => 0⟩ (fun _ => true) fun _ => 0).toOption.any (fun s =>
      (System.exec (fun w c => if Allowed w c then next w c else none) ⟨s, []⟩ [.create [97] 10]).any
        check) = true) : ∃ w, system.Reachable w ∧ check w = true := by
  obtain ⟨s, init, ran⟩ := (Option.any_eq_true ..).mp fact
  exact System.exists_reachable_under Starts next Allowed check (s := ⟨s, []⟩)
    ⟨rfl, _, _, _, by decide, toOption_some.mp init⟩ [.create [97] 10] ran

/-- There are too few sectors for the file, and nothing changes. -/
theorem filesysCreate_unchanged_of_oneFile : ∃ w, system.Reachable w ∧ ∃ s',
    w.fs.filesysCreate [98] 100000 = .ok (false, s') ∧ Unchanged w.fs s' := by
  obtain ⟨w, reach, checks⟩ := exists_oneFile (fun w =>
    (w.fs.filesysCreate [98] 100000).toOption.any (fun r : Bool × FileSys => !r.1) &&
      (w.fs.freeMap.scanAndFlip 1 false).all fun r : Option Nat × Bitmap =>
        decide (r.2.scan (bytesToSectors 100000) false = none)) (by decide +kernel)
  rw [Bool.and_eq_true] at checks
  obtain ⟨fails, full⟩ := checks
  obtain ⟨created, s', ran, unchanged⟩ := filesysCreate_unchanged_iff reach [98] (show 100000 < 2 ^ 31 by decide)
  rw [ran] at fails
  have failed : created = false := (Bool.not_eq_true' _).mp fails
  subst failed
  refine ⟨w, reach, s', ran, unchanged.mpr (.inr (.inl fun reserves => ?_)) rfl⟩
  obtain ⟨k, map, scanned, fits⟩ := reserves.sectors
  rw [scanned] at full
  exact fits (of_decide_eq_true full)

/-- The name is there already. The clean-up gives sector 6 back, and the data sectors 7 and 8 stay
marked. -/
theorem not_unchanged_of_oneFile : ∃ w, system.Reachable w ∧ ∃ name initialSize, initialSize < 2 ^ 31 ∧
    ∃ s', w.fs.filesysCreate name initialSize = .ok (false, s') ∧ ¬ Unchanged w.fs s' := by
  obtain ⟨w, reach, leaks⟩ := exists_oneFile (fun w => (w.fs.filesysCreate [97] 600).toOption.any
    fun r => !r.1 && (r.2.freeMap.test 7 && !w.fs.freeMap.test 7)) (by decide +kernel)
  obtain ⟨⟨created, s'⟩, ran, checks⟩ := (Option.any_eq_true ..).mp leaks
  rw [Bool.and_eq_true, Bool.and_eq_true, Bool.not_eq_true', Bool.not_eq_true'] at checks
  obtain ⟨failed, marked, free⟩ := checks
  cases failed
  refine ⟨w, reach, [97], 600, by decide, s', toOption_some.mp ran, fun same => ?_⟩
  exact Bool.false_ne_true (free.symm.trans ((same.map 7).mp marked))

end CS162.Pintos.FileSystem
