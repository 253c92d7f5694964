import CS162.Library.Ownership
import CS162.Pintos.FileSystem

/-!
Which sectors belong to what. An inode that is live owns its sector and the data
sectors that its contents on the disk give it. Every owned sector is marked in the
free map and has one owner; marked sectors without an owner do no harm.
-/

namespace CS162.Pintos.FileSystem
open CS162.Library

/-- What `inode_open` finds at a sector. -/
def dataOf (d : Disk) (sector : Nat) : InodeDisk := ofSector (d.sectors sector)

def rootBytes (d : Disk) : Library.Memory := fileBytes d (dataOf d rootDirSector)

/-- The entries of the root directory. -/
def slotCount (d : Disk) : Nat := (dataOf d rootDirSector).length / entrySize

/-- The inode of an entry that is in use. -/
def slot (m : Library.Memory) (i : Nat) : Option Nat :=
  if m (entrySize * i + 19) = 0 then none else some (m.load (entrySize * i) 4)

def Linked (d : Disk) (k : Nat) : Prop := ∃ i < slotCount d, slot (rootBytes d) i = some k

inductive Part where
  | inode
  | data

/-- The sectors of the two parts of an inode. -/
def Has (d : Disk) : Part × Nat → Nat → Prop
  | (.inode, k), r => r = k
  | (.data, k), r => (dataOf d k).Has r

def Holds (d : Disk) (live : Nat → Prop) (o : Part × Nat) (r : Nat) : Prop := live o.2 ∧ Has d o r

def Marked (map : Bitmap) (r : Nat) : Prop := map.test r = true

structure Layout (d : Disk) (map : Bitmap) (live : Nat → Prop) : Prop where
  device : d.size ≤ 2 ^ 21
  size : map.size = d.size
  freeMap : live freeMapSector
  root : live rootDirSector
  whole : (dataOf d rootDirSector).length % entrySize = 0
  onDisk : ∀ k, live k → OnDisk d (dataOf d k)
  backed : Backed (Holds d live) (Marked map)
  linked : ∀ k, Linked d k → live k ∧ 2 ≤ k
  once : ∀ i j k, i < slotCount d → j < slotCount d → slot (rootBytes d) i = some k →
    slot (rootBytes d) j = some k → i = j

/-- An inode on the disk that belongs to nobody. -/
structure Spare (d : Disk) (map : Bitmap) (live : Nat → Prop) (k : Nat) : Prop where
  onDisk : OnDisk d (dataOf d k)
  backed : Backed (Holds d (· = k)) (Marked map)
  apart : ∀ o o' r, Holds d live o r → ¬ Holds d (· = k) o' r

section
variable {d d' : Disk} {map map' : Bitmap} {live live' : Nat → Prop} {k r i : Nat}

theorem slot_congr {m m' : Library.Memory} (same : m.SameOn (entrySize * i) entrySize m') :
    slot m' i = slot m i := by
  have flag := same (entrySize * i + 19) (by omega) (by simp only [entrySize]; omega)
  have load : m'.load (entrySize * i) 4 = m.load (entrySize * i) 4 :=
    Memory.load_congr (same.mono (Nat.le_refl _) (by simp only [entrySize]; omega))
  rw [slot, slot, flag, load]

theorem ofSector_toSector {data : InodeDisk} (start : data.start < 2 ^ 32)
    (length : data.length < 2 ^ 32) : ofSector (toSector data) = data := by
  rw [ofSector, toSector, Memory.load_store_apart (by omega), Memory.load_store_apart (by omega),
    Memory.load_store_self start, Memory.load_store_apart (by omega),
    Memory.load_store_self length]

theorem has_pos {data : InodeDisk} {pos : Nat} (inside : pos < data.length) :
    data.Has (data.start + pos / sectorSize) := by
  simp only [InodeDisk.Has, bytesToSectors, sectorSize]
  omega

theorem fileBytes_congr {data : InodeDisk}
    (same : ∀ r, data.Has r → d'.sectors r = d.sectors r) {pos : Nat} (inside : pos < data.length) :
    fileBytes d' data pos = fileBytes d data pos := by
  rw [fileBytes, fileBytes, same _ (has_pos inside)]

theorem linked_congr (root : d'.sectors rootDirSector = d.sectors rootDirSector)
    (dir : ∀ r, (dataOf d rootDirSector).Has r → d'.sectors r = d.sectors r) :
    slotCount d' = slotCount d ∧
      (∀ i < slotCount d, slot (rootBytes d') i = slot (rootBytes d) i) ∧
      ∀ k, Linked d' k ↔ Linked d k := by
  have data : dataOf d' rootDirSector = dataOf d rootDirSector := by rw [dataOf, dataOf, root]
  have count : slotCount d' = slotCount d := by rw [slotCount, slotCount, data]
  have same (i : Nat) (inside : i < slotCount d) :
      slot (rootBytes d') i = slot (rootBytes d) i := by
    refine slot_congr fun x lower upper => ?_
    rw [rootBytes, data]
    refine fileBytes_congr dir ?_
    have := Nat.div_mul_le_self (dataOf d rootDirSector).length entrySize
    simp only [slotCount, entrySize] at *
    omega
  refine ⟨count, same, fun k => ?_⟩
  rw [Linked, Linked, count]
  refine exists_congr fun i => and_congr_right fun inside => ?_
  rw [same i inside]

theorem backed_one (marked : Marked map k) (data : ∀ r, (dataOf d k).Has r → Marked map r)
    (outside : ¬ (dataOf d k).Has k) : Backed (Holds d (· = k)) (Marked map) := by
  constructor
  case used_of_held =>
    rintro ⟨part, _⟩ r ⟨rfl, has⟩
    cases part with
    | inode => exact has ▸ marked
    | data => exact data r has
  case injective =>
    rintro ⟨part, _⟩ ⟨part', _⟩ r ⟨rfl, has⟩ ⟨same, has'⟩
    subst same
    cases part with
    | inode =>
        cases part' with
        | inode => rfl
        | data => exact absurd has' (has ▸ outside)
    | data =>
        cases part' with
        | inode => exact absurd has (has' ▸ outside)
        | data => rfl

namespace Layout

theorem holds_inode (h : Layout d map live) (alive : live k) : Marked map k :=
  h.backed.used_of_held (.inode, k) k ⟨alive, rfl⟩

theorem holds_data (h : Layout d map live) (alive : live k) (has : (dataOf d k).Has r) :
    Marked map r :=
  h.backed.used_of_held (.data, k) r ⟨alive, has⟩

theorem inode_apart (h : Layout d map live) {k' : Nat} (alive : live k) (alive' : live k') :
    ¬ (dataOf d k').Has k := by
  intro has
  cases h.backed.injective (.inode, k) (.data, k') k ⟨alive, rfl⟩ ⟨alive', has⟩

theorem data_apart (h : Layout d map live) {k' : Nat} (alive : live k) (alive' : live k')
    (has : (dataOf d k).Has r) (has' : (dataOf d k').Has r) : k = k' := by
  have same := h.backed.injective (.data, k) (.data, k') r ⟨alive, has⟩ ⟨alive', has'⟩
  exact (Prod.mk.inj same).2

theorem lt_size (h : Layout d map live) (alive : live k) : k < d.size :=
  h.size ▸ Bitmap.lt_of_test (h.holds_inode alive)

/-- Sectors that belong to no live inode and to no entry may change, and bits that
nobody needs. -/
theorem congr (h : Layout d map live) (size : d'.size = d.size) (bits : map'.size = map.size)
    (inodes : ∀ k, live k → d'.sectors k = d.sectors k)
    (dir : ∀ r, (dataOf d rootDirSector).Has r → d'.sectors r = d.sectors r)
    (marks : ∀ o r, Holds d live o r → Marked map r → Marked map' r) :
    Layout d' map' live ∧ (∀ k, Linked d' k ↔ Linked d k) := by
  have data {k : Nat} (alive : live k) : dataOf d' k = dataOf d k := by
    rw [dataOf, dataOf, inodes k alive]
  obtain ⟨count, same, links⟩ := linked_congr (inodes _ h.root) dir
  have holds {o : Part × Nat} {r : Nat} (held : Holds d' live o r) : Holds d live o r := by
    obtain ⟨part, k⟩ := o
    cases part with
    | inode => exact held
    | data => exact ⟨held.1, by rw [Has, ← data held.1]; exact held.2⟩
  constructor
  · constructor
    case device => exact size ▸ h.device
    case size => rw [bits, h.size, size]
    case freeMap => exact h.freeMap
    case root => exact h.root
    case whole => exact data h.root ▸ h.whole
    case onDisk =>
      intro k alive
      have old := h.onDisk k alive
      rw [data alive]
      exact ⟨size ▸ old.fits, size ▸ old.device⟩
    case backed =>
      exact h.backed.mono (fun o r => holds) fun o r held => marks o r (holds held)
    case linked => exact fun k link => h.linked k ((links k).mp link)
    case once =>
      intro i j k hi hj first second
      rw [count] at hi hj
      rw [same i hi] at first
      rw [same j hj] at second
      exact h.once i j k hi hj first second
  · exact links

theorem mono (h : Layout d map live) (less : ∀ k, live' k → live k) (freeMap : live' freeMapSector)
    (root : live' rootDirSector) (linked : ∀ k, Linked d k → live' k) : Layout d map live' where
  device := h.device
  size := h.size
  freeMap := freeMap
  root := root
  whole := h.whole
  onDisk k alive := h.onDisk k (less k alive)
  backed := h.backed.mono (fun o _ held => ⟨less o.2 held.1, held.2⟩) fun _ _ _ used => used
  linked k link := ⟨linked k link, (h.linked k link).2⟩
  once := h.once

section Slots
variable {e : Library.Memory} (w : Written d (dataOf d rootDirSector) e (entrySize * i) entrySize d')
include w

theorem written_data (outside : ¬ (dataOf d rootDirSector).Has k) : dataOf d' k = dataOf d k := by
  rw [dataOf, dataOf, w.others k outside]

variable (h : Layout d map live)
include h

theorem written_root : dataOf d' rootDirSector = dataOf d rootDirSector :=
  written_data w (h.inode_apart h.root h.root)

theorem written_slot (j : Nat) :
    slot (rootBytes d') j = if j = i then slot e 0 else slot (rootBytes d) j := by
  have bytes : rootBytes d' = (rootBytes d).copy (entrySize * i) e 0 entrySize := by
    rw [rootBytes, h.written_root w, w.bytes, rootBytes]
  split
  next same =>
    subst same
    have at_slot {x : Nat} (inside : x < entrySize) :
        rootBytes d' (entrySize * j + x) = e x := by
      rw [bytes, Memory.copy, if_pos (by omega), Nat.zero_add, Nat.add_sub_cancel_left]
    have load (x n : Nat) (inside : x + n ≤ entrySize) :
        (rootBytes d').load (entrySize * j + x) n = e.load x n := by
      induction n generalizing x with
      | zero => rfl
      | succ n ih =>
          rw [Memory.load, Memory.load, at_slot (by omega), Nat.add_assoc, ih (x + 1) (by omega)]
    have word := load 0 4 (by decide)
    rw [Nat.add_zero] at word
    rw [slot, slot, at_slot (by decide), word, Nat.mul_zero, Nat.zero_add]
  next other =>
    refine slot_congr fun x lower upper => ?_
    rw [bytes, Memory.copy, if_neg]
    intro inside
    refine other ?_
    simp only [entrySize] at *
    omega

theorem written_linked (inside : i < slotCount d) (k : Nat) :
    Linked d' k ↔ slot e 0 = some k ∨
      ∃ j < slotCount d, j ≠ i ∧ slot (rootBytes d) j = some k := by
  have count : slotCount d' = slotCount d := by rw [slotCount, slotCount, h.written_root w]
  rw [Linked, count]
  constructor
  · rintro ⟨j, hj, link⟩
    rw [h.written_slot w] at link
    split at link
    next => exact .inl link
    next other => exact .inr ⟨j, hj, other, link⟩
  · rintro (new | ⟨j, hj, other, link⟩)
    · exact ⟨i, inside, by rw [h.written_slot w, if_pos rfl, new]⟩
    · exact ⟨j, hj, by rw [h.written_slot w, if_neg other, link]⟩

/-- An entry is written: it names no inode, or one that belonged to nobody. -/
theorem write (size : d'.size = d.size) (inside : i < slotCount d)
    (new : ∀ k, slot e 0 = some k → 2 ≤ k ∧ Spare d map live k) :
    Layout d' map fun k => live k ∨ slot e 0 = some k := by
  have links := h.written_linked w inside
  have data {k : Nat} (alive : live k ∨ slot e 0 = some k) : dataOf d' k = dataOf d k := by
    refine written_data w fun has => ?_
    cases alive with
    | inl old => exact h.inode_apart old h.root has
    | inr named => exact (new k named).2.apart (.data, rootDirSector) (.inode, k) k ⟨h.root, has⟩ ⟨rfl, rfl⟩
  constructor
  case device => exact size ▸ h.device
  case size => rw [h.size, size]
  case freeMap => exact .inl h.freeMap
  case root => exact .inl h.root
  case whole => exact h.written_root w ▸ h.whole
  case onDisk =>
    intro k alive
    rw [data alive]
    have old : OnDisk d (dataOf d k) := alive.elim (h.onDisk k) fun named => (new k named).2.onDisk
    exact ⟨size ▸ old.fits, size ▸ old.device⟩
  case backed =>
    have before {o : Part × Nat} {r : Nat}
        (held : Holds d' (fun k => live k ∨ slot e 0 = some k) o r) : Has d o r := by
      obtain ⟨part, k⟩ := o
      cases part with
      | inode => exact held.2
      | data => rw [Has, ← data held.1]; exact held.2
    cases named : slot e 0 with
    | none =>
        refine h.backed.mono (fun o r held => ⟨?_, before ?_⟩) fun _ _ _ used => used
        · exact held.1.resolve_right fun other => by cases other
        · exact ⟨held.1.imp_right fun other => by rw [named]; exact other, held.2⟩
    | some k =>
        obtain ⟨_, spare⟩ := new k named
        refine h.backed.add spare.backed spare.apart fun o r held => ?_
        have has := before ⟨held.1.imp_right fun other => by rw [named]; exact other, held.2⟩
        exact held.1.imp (fun old => ⟨old, has⟩) fun other => ⟨(Option.some.inj other).symm, has⟩
  case linked =>
    intro k link
    cases (links k).mp link with
    | inl named => exact ⟨.inr named, (new k named).1⟩
    | inr old =>
        obtain ⟨j, hj, _, link⟩ := old
        have := h.linked k ⟨j, hj, link⟩
        exact ⟨.inl this.1, this.2⟩
  case once =>
    have fresh {j k : Nat} (hj : j < slotCount d) (link : slot (rootBytes d) j = some k) :
        slot e 0 ≠ some k := by
      intro named
      have alive := (h.linked k ⟨j, hj, link⟩).1
      exact (new k named).2.apart (.inode, k) (.inode, k) k ⟨alive, rfl⟩ ⟨rfl, rfl⟩
    have count : slotCount d' = slotCount d := by rw [slotCount, slotCount, h.written_root w]
    intro i' j k hi hj first second
    rw [count] at hi hj
    rw [h.written_slot w] at first second
    split at first
    next here =>
      split at second
      next here' => rw [here, here']
      next => exact absurd first (fresh hj second)
    next =>
      split at second
      next => exact absurd second (fresh hi first)
      next => exact h.once i' j k hi hj first second

end Slots
end Layout
end
end CS162.Pintos.FileSystem
