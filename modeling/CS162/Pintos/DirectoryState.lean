import CS162.Pintos.DirectorySlots

/-!
The state of a directory of `n` entries and of the file system around it, in three parts:
the directory and the free map are open and apart, the entries in use have distinct names
and sectors, and the sectors that they name hold inodes whose sectors are marked.
-/

namespace CS162.Pintos.FileSystem
open CS162.Library

/-- A name of 1 to `NAME_MAX` characters. -/
def ValidName (name : List UInt8) : Prop := name ≠ [] ∧ name.length ≤ nameMax

instance (name : List UInt8) : Decidable (ValidName name) := inferInstanceAs (Decidable (_ ∧ _))

/-- The inode of the directory, or that of the free map. -/
def Own (s : FileSys) (p q : Nat) : Prop := q = p ∨ ∃ file, s.freeMapFile = some file ∧ file.inode = q

/-- An open inode stays open, with its data. -/
def SameInode (s s' : FileSys) (q : Nat) : Prop :=
  ∀ i, s.inodes q = some i → ∃ i', s'.inodes q = some i' ∧ i'.data = i.data ∧
    i'.denyWriteCnt = i.denyWriteCnt

/-- The directory is open for reading and writing, and so is the free map. -/
structure Base (s : FileSys) (p n : Nat) (data map : InodeDisk) : Prop where
  granted : Granted s
  table : Table s
  sizes : s.freeMap.size = s.device.size
  dir : ∃ i, DirAt s p n i ∧ i.data = data
  ready : ∃ f, MapFits s f ∧ f.data = map
  other : ∀ file, s.freeMapFile = some file → file.inode ≠ p
  apart : ∀ r, data.Has r → ¬ map.Has r

structure Entries (t : Nat → Option (List UInt8 × Nat)) (n : Nat) : Prop where
  distinct : SlotTable.Distinct t n
  valid : ∀ j < n, ∀ name k, t j = some (name, k) → ValidName name
  once : ∀ i < n, ∀ j < n, ∀ name name' k, t i = some (name, k) → t j = some (name', k) → i = j

/-- Inodes lie in some sectors. Their sectors and those of their data are marked, and each
belongs to one of them; whichever is open is neither the directory nor the free map. -/
structure Files (s : FileSys) (p : Nat) (data map : InodeDisk) (bound : Nat → Prop) : Prop where
  onDisk : ∀ k, bound k → OnDisk s.device (dataOf s.device k)
  backed : Backed (Holds s.device bound) (Marked s.freeMap)
  off : ∀ k, bound k → ¬ data.Has k ∧ ¬ map.Has k
  cached : ∀ q j, s.inodes q = some j → bound j.sector →
    j.data = dataOf s.device j.sector ∧ ¬ Own s p q

/-- The entries of the directory with these data. -/
def slots (s : FileSys) (data : InodeDisk) : Nat → Option (List UInt8 × Nat) :=
  entry (fileBytes s.device data)

/-- Some entry names the sector. -/
def Bound (s : FileSys) (data : InodeDisk) (n k : Nat) : Prop :=
  ∃ j < n, ∃ name, slots s data j = some (name, k)

structure Directory (s : FileSys) (p n : Nat) (data map : InodeDisk) : Prop
    extends Base s p n data map where
  entries : Entries (slots s data) n
  files : Files s p data map (Bound s data n)

section
variable {s s' : FileSys} {p q n j k : Nat} {data map : InodeDisk} {i : Inode}
  {bound bound' : Nat → Prop} {t : Nat → Option (List UInt8 × Nat)} {name : List UInt8}

theorem SameInode.of_eq (same : s'.inodes q = s.inodes q) : SameInode s s' q :=
  fun i found => ⟨i, same.trans found, rfl, rfl⟩

theorem Own.congr (mapFile : s'.freeMapFile = s.freeMapFile) : Own s' p q ↔ Own s p q := by
  rw [Own, Own, mapFile]

theorem Base.found (h : Base s p n data map) (own : Own s p q) : s.inodes q ≠ none := by
  cases own with
  | inl same =>
      obtain ⟨i, dir, _⟩ := h.dir
      rw [same, dir.found]
      exact Option.some_ne_none i
  | inr file =>
      obtain ⟨file, opens, same⟩ := file
      obtain ⟨f, ready, _⟩ := h.ready
      obtain ⟨file', opens', opened⟩ := ready.opened
      cases opens.symm.trans opens'
      rw [← same, opened]
      exact Option.some_ne_none f

theorem Base.next (h : Base s p n data map) (granted : Granted s') (table : Table s')
    (size : s'.device.size = s.device.size) (bits : s'.freeMap.size = s.freeMap.size)
    (mapFile : s'.freeMapFile = s.freeMapFile) (own : ∀ q, Own s p q → SameInode s s' q) :
    Base s' p n data map := by
  have onDisk {data : InodeDisk} (old : OnDisk s.device data) : OnDisk s'.device data :=
    ⟨size ▸ old.fits, size ▸ old.device⟩
  constructor
  case granted => exact granted
  case table => exact table
  case sizes => rw [bits, h.sizes, size]
  case dir =>
    obtain ⟨i, dir, rfl⟩ := h.dir
    obtain ⟨i', found, same, allowed⟩ := own p (.inl rfl) i dir.found
    exact ⟨i', ⟨found, onDisk (same ▸ dir.onDisk), allowed.trans dir.allowed,
      (congrArg InodeDisk.length same).trans dir.length⟩, same⟩
  case ready =>
    obtain ⟨f, ready, rfl⟩ := h.ready
    obtain ⟨file, opens, opened⟩ := ready.opened
    obtain ⟨f', found, same, allowed⟩ := own file.inode (.inr ⟨file, opens, rfl⟩) f opened
    exact ⟨f', ⟨⟨⟨file, mapFile.trans opens, found⟩, onDisk (same ▸ ready.onDisk),
      allowed.trans ready.allowed⟩, bits ▸ same ▸ ready.room⟩, same⟩
  case other => exact mapFile ▸ h.other
  case apart => exact h.apart

theorem Base.asked (h : Base s p n data map) (asked : Asked s s') (granted : Granted s') :
    Base s' p n data map :=
  h.next granted (h.table.congr asked.toKept) (congrArg Disk.size asked.device)
    (congrArg Bitmap.size asked.freeMap) asked.mapFile fun q _ =>
      .of_eq (congrFun asked.inodes q)

theorem Files.marked (h : Files s p data map bound) (named : bound k) : Marked s.freeMap k :=
  h.backed.used_of_held (.inode, k) k ⟨named, rfl⟩

theorem Files.next (h : Files s p data map bound) (less : ∀ k, bound' k → bound k)
    (size : s'.device.size = s.device.size) (mapFile : s'.freeMapFile = s.freeMapFile)
    (sectors : ∀ k, bound' k → s'.device.sectors k = s.device.sectors k)
    (marks : ∀ o r, Holds s.device bound' o r → Marked s.freeMap r → Marked s'.freeMap r)
    (inodes : ∀ q j', s'.inodes q = some j' → bound' j'.sector →
      (∃ j, s.inodes q = some j ∧ j.sector = j'.sector ∧ j.data = j'.data) ∨
        j'.data = dataOf s.device j'.sector ∧ ¬ Own s p q) : Files s' p data map bound' := by
  have same {k : Nat} (named : bound' k) : dataOf s'.device k = dataOf s.device k := by
    rw [dataOf, dataOf, sectors k named]
  have holds {o : Part × Nat} {r : Nat} (held : Holds s'.device bound' o r) :
      Holds s.device bound' o r := by
    obtain ⟨part, k⟩ := o
    cases part with
    | inode => exact held
    | data => exact ⟨held.1, by rw [Has, ← same held.1]; exact held.2⟩
  constructor
  case onDisk =>
    intro k named
    have old := h.onDisk k (less k named)
    rw [same named]
    exact ⟨size ▸ old.fits, size ▸ old.device⟩
  case backed =>
    exact h.backed.mono (fun o r held => ⟨less _ held.1, (holds held).2⟩)
      fun o r held => marks o r (holds held)
  case off => exact fun k named => h.off k (less k named)
  case cached =>
    intro q j' now named
    rw [same named, Own.congr mapFile]
    cases inodes q j' now named with
    | inl old =>
        obtain ⟨j, was, sector, data⟩ := old
        rw [← sector, ← data]
        exact h.cached q j was (less _ (sector ▸ named))
    | inr new => exact new

theorem Files.asked (h : Files s p data map bound) (asked : Asked s s') :
    Files s' p data map bound := by
  apply h.next (fun _ named => named) (congrArg Disk.size asked.device) asked.mapFile
  case sectors => exact fun _ _ => by rw [asked.device]
  case marks => exact fun _ _ _ marked => asked.freeMap ▸ marked
  case inodes => exact fun q j now _ => .inl ⟨j, asked.inodes ▸ now, rfl, rfl⟩

theorem Asked.slots (h : Asked s s') : slots s' data = slots s data := by
  rw [FileSystem.slots, FileSystem.slots, h.device]

theorem slots_congr (length : data.length = n * entrySize)
    (same : ∀ r, data.Has r → s'.device.sectors r = s.device.sectors r) :
    ∀ j < n, slots s' data j = slots s data j := by
  intro j inside
  apply entry_congr
  intro x lower upper
  apply fileBytes_congr same
  simp only [entrySize] at *
  omega

theorem Bound.congr (same : ∀ j < n, slots s' data j = slots s data j) :
    Bound s' data n = Bound s data n := by
  funext k
  apply propext
  constructor
  · intro ⟨j, inside, name, here⟩
    exact ⟨j, inside, name, same j inside ▸ here⟩
  · intro ⟨j, inside, name, here⟩
    exact ⟨j, inside, name, (same j inside).trans here⟩

theorem Directory.asked (h : Directory s p n data map) (asked : Asked s s')
    (granted : Granted s') : Directory s' p n data map where
  toBase := h.toBase.asked asked granted
  entries := asked.slots ▸ h.entries
  files := by
    rw [Bound.congr fun j _ => congrFun asked.slots j]
    exact h.files.asked asked

theorem Entries.congr {t' : Nat → Option (List UInt8 × Nat)} (h : Entries t n)
    (same : ∀ j < n, t' j = t j) : Entries t' n where
  distinct := h.distinct.congr same
  valid j inside name k here := h.valid j inside name k (same j inside ▸ here)
  once i hi j hj a b k here there :=
    h.once i hi j hj a b k (same i hi ▸ here) (same j hj ▸ there)

theorem Entries.bind (h : Entries t n) (inside : j < n) (free : t j = none)
    (valid : ValidName name) (absent : SlotTable.toMap t n name = none)
    (new : ∀ l < n, ∀ other, t l ≠ some (other, k)) :
    Entries (Function.update t j (some (name, k))) n := by
  constructor
  case distinct => exact (h.distinct.bind inside free absent).1
  case valid =>
    intro l hl other x here
    rw [Function.update_apply] at here
    split at here
    next =>
      cases here
      exact valid
    next => exact h.valid l hl other x here
  case once =>
    intro l hl l' hl' a b x here there
    rw [Function.update_apply] at here there
    split at here
    next first =>
      cases here
      split at there
      next second => rw [first, second]
      next => exact absurd there (new l' hl' b)
    next =>
      split at there
      next =>
        cases there
        exact absurd here (new l hl a)
      next => exact h.once l hl l' hl' a b x here there

theorem Entries.unbind (h : Entries t n) (inside : j < n) (here : t j = some (name, k)) :
    Entries (Function.update t j none) n := by
  have kept {l : Nat} {b : List UInt8 × Nat} (now : Function.update t j none l = some b) :
      t l = some b := by
    rw [Function.update_apply] at now
    split at now
    next => cases now
    next => exact now
  constructor
  case distinct => exact (h.distinct.unbind inside here).1
  case valid => exact fun l hl other x now => h.valid l hl other x (kept now)
  case once =>
    exact fun l hl l' hl' a b x first second =>
      h.once l hl l' hl' a b x (kept first) (kept second)

end
end CS162.Pintos.FileSystem
