import CS162.Library.Transition
import CS162.Pintos.DirectoryCalls
import CS162.Pintos.FileSystemFormat

/-!
A directory of `n` entries is a map from names to sectors that has room for `n` names.
Its calls are made in any order, and between them others use the rest of the file system
as they like, while every allocation succeeds.
-/

namespace CS162.Pintos.FileSystem
open CS162.Library

inductive DirCall where
  | add (name : List UInt8) (sector : Nat)
  | remove (name : List UInt8)
  | lookup (name : List UInt8)
  | scan (calls : Nat)

/-- What a call returns: of an inode, its sector. -/
inductive DirAnswer where
  | done (success : Bool)
  | sector (found : Option Nat)
  | names (list : List (Option (List UInt8)))

section Maps

abbrev Names := List UInt8 → Option Nat

/-- What the calls on a map with room for `n` names answer, and what they make of it. -/
def Answers (n : Nat) (m : Names) : DirCall → DirAnswer → Names → Prop
  | .add name sector, .done success, m' =>
      (success = true ↔ ValidName name ∧ m name = none ∧ {x | m x ≠ none}.ncard < n) ∧
        m' = if success then Function.update m name (some sector) else m
  | .remove name, .done success, m' =>
      (success = true ↔ m name ≠ none) ∧ m' = if success then Function.update m name none else m
  | .lookup name, .sector found, m' => found = m name ∧ m' = m
  | .scan calls, .names list, m' =>
      (∃ names : List (List UInt8), names.Nodup ∧ (∀ name, name ∈ names ↔ m name ≠ none) ∧
        list = (names.map some ++ List.replicate calls none).take calls) ∧ m' = m
  | _, _, _ => False

/-- A map that has room for `n` names, empty at first. -/
def boundedMap (n : Nat) : System Names (DirCall × DirAnswer) where
  init m := m = fun _ => none
  step m a m' := Answers n m a.1 a.2 m'

/-- A call that fails, or one that only looks. -/
def DirAnswer.Idle : DirAnswer → Prop
  | .done success => success = false
  | .sector found => found = none
  | .names _ => True

end Maps

section Runs

/-- A call on the open directory `p`; a scan starts at the first entry. -/
def runCall (p : Nat) (s : FileSys) : DirCall → Except Panic (DirAnswer × FileSys)
  | .add name sector => do
      let (added, s) ← s.dirAdd p name sector
      return (.done added, s)
  | .remove name => do
      let (removed, s) ← s.dirRemove p name
      return (.done removed, s)
  | .lookup name => do
      let (found, s) ← s.dirLookup p name
      return (.sector (found.bind fun q => (s.inodes q).map Inode.sector), s)
  | .scan calls => do
      let (names, s) ← FileSys.readdirs p calls 0 s
      return (.names names, s)

/-- A name is a string, and a sector that is added is that of an inode without an entry. -/
def DirAllowed (p n : Nat) (data map : InodeDisk) (s : FileSys) : DirCall → Prop
  | .add name sector => (0 : UInt8) ∉ name ∧ ¬ Bound s data n sector ∧
      Files s p data map fun x => Bound s data n x ∨ x = sector
  | _ => True

/-- Others leave alone the directory, the file of the free map and what the entries name. -/
structure Leaves (p n : Nat) (data map : InodeDisk) (s s' : FileSys) : Prop where
  granted : Granted s'
  table : Table s'
  size : s'.device.size = s.device.size
  bits : s'.freeMap.size = s.freeMap.size
  mapFile : s'.freeMapFile = s.freeMapFile
  own : ∀ q, Own s p q → SameInode s s' q
  entries : ∀ r, data.Has r → s'.device.sectors r = s.device.sectors r
  inodes : ∀ k, Bound s data n k → s'.device.sectors k = s.device.sectors k
  marks : ∀ o r, Holds s.device (Bound s data n) o r → Marked s'.freeMap r
  cached : ∀ q j, s'.inodes q = some j → Bound s data n j.sector →
    j.data = dataOf s.device j.sector ∧ ¬ Own s p q

/-- A sector is set aside for a directory. -/
structure Prepared (s : FileSys) (sector n : Nat) (map : InodeDisk) : Prop where
  granted : Granted s
  table : Table s
  device : s.device.size ≤ 2 ^ 21
  sizes : s.freeMap.size = s.device.size
  ready : ∃ f, MapFits s f ∧ f.data = map
  reserved : Marked s.freeMap sector
  closed : ¬ Opened s sector
  apart : ∀ r, map.Has r → Marked s.freeMap r ∧ r ≠ sector
  length : n * entrySize < 2 ^ 31

/-- The directory was just made and opened. -/
def Made (p n : Nat) (data map : InodeDisk) (s : FileSys) : Prop :=
  ∃ s₀ s₁ s₂ sector, Prepared s₀ sector n map ∧ s₀.dirCreate sector n = .ok (true, s₁) ∧
    s₁.inodeOpen sector = .ok (some p, s₂) ∧ s₂.dirOpen (some p) = .ok (some p, s) ∧
    data = dataOf s.device sector

inductive DirStep where
  | call (c : DirCall) (answer : DirAnswer)
  | others

def directories (p n : Nat) (data map : InodeDisk) : System FileSys DirStep where
  init := Made p n data map
  step s a s' := match a with
    | .call c answer => DirAllowed p n data map s c ∧ runCall p s c = .ok (answer, s')
    | .others => Leaves p n data map s s'

end Runs

section
variable {s s' : FileSys} {p n : Nat} {data map : InodeDisk}

theorem Entries.of_empty {t : Nat → Option (List UInt8 × Nat)} (empty : ∀ j < n, t j = none) :
    Entries t n where
  distinct i hi _ _ _ _ _ here := by
    rw [empty i hi] at here
    cases here
  valid j hj _ _ here := by
    rw [empty j hj] at here
    cases here
  once i hi _ _ _ _ _ here := by
    rw [empty i hi] at here
    cases here

/-- A directory without entries asks for nothing but its inode and that of the free map. -/
theorem Base.directory (h : Base s p n data map) (empty : ∀ j < n, slots s data j = none) :
    Directory s p n data map ∧ namesOf s data n = fun _ => none := by
  have unbound (k : Nat) : ¬ Bound s data n k := by
    intro ⟨j, inside, name, here⟩
    rw [empty j inside] at here
    cases here
  refine ⟨⟨h, .of_empty empty, ?_⟩, ?_⟩
  · constructor
    case onDisk => exact fun k named => absurd named (unbound k)
    case backed => exact ⟨fun o _ held => absurd held.1 (unbound o.2),
      fun o _ _ held _ => absurd held.1 (unbound o.2)⟩
    case off => exact fun k named => absurd named (unbound k)
    case cached => exact fun _ j _ named => absurd named (unbound j.sector)
  · funext name
    apply SlotTable.toMap_eq_none.mpr
    intro j inside k
    rw [empty j inside]
    exact (Option.some_ne_none _).symm

/-- `dir_create` leaves a file of zeros. -/
theorem created_slots {sector start : Nat} (c : Created s s' map sector start (n * entrySize)) :
    ∀ j < n, slots s' (dataOf s'.device sector) j = none := by
  intro j inside
  have pos : entrySize * j + 19 < n * entrySize := by
    simp only [entrySize]
    omega
  have has : InRun start (bytesToSectors (n * entrySize)) (start + (entrySize * j + 19) / sectorSize) :=
    @has_pos ⟨start, n * entrySize⟩ _ pos
  have zero : fileBytes s'.device (dataOf s'.device sector) (entrySize * j + 19) = 0 := by
    rw [c.data, fileBytes, c.zeros _ has]
  rw [slots, entry, entryOf, inUse, zero]
  rfl

theorem Made.directory (h : Made p n data map s) :
    Directory s p n data map ∧ namesOf s data n = fun _ => none := by
  obtain ⟨s₀, s₁, s₂, sector, prepared, create, opened, openDir, rfl⟩ := h
  obtain ⟨f, ready, rfl⟩ := prepared.ready
  have below : sector < s₀.device.size := prepared.sizes ▸ Bitmap.lt_of_test prepared.reserved
  obtain ⟨created, s₁', ran, granted₁, _⟩ := inodeCreate_granted prepared.granted ready
    prepared.sizes below (n * entrySize)
  cases ran.symm.trans create
  obtain ⟨start, c⟩ := (inodeCreate_created (.inr ready.toMapReady) prepared.sizes prepared.device
    (fun _ => prepared.reserved) prepared.length).get create rfl
  have c : Created s₀ s₁ f.data sector start (n * entrySize) := c
  have closed₁ : ¬ Opened s₁ sector := by
    rw [Opened, c.inodes]
    exact prepared.closed
  obtain ⟨p', i, s₂', ran₂, table₂, granted₂, device₂, map₂, file₂, inodes₂, _, origin⟩ :=
    (prepared.table.congr c.toKept).openGranted granted₁ (c.size.symm ▸ below)
  cases ran₂.symm.trans opened
  obtain ⟨new, rfl, _⟩ | ⟨j, old, rfl⟩ := origin
  case inr sector => exact absurd ⟨p, j, old, sector⟩ closed₁
  have found : s₂.inodes p = some ⟨sector, 1, false, 0, dataOf s₁.device sector⟩ := by
    rw [inodes₂, Function.update_self]
  have same : s = s₂.malloc.2 := by
    simp only [FileSys.dirOpen, granted₂.first] at openDir
    cases openDir
    rfl
  subst same
  have room := c.taken.inside
  have sizes := prepared.sizes
  have device := prepared.device
  have size₁ := c.size
  have ready₁ := ready.congr c.toKept c.size c.bits
  obtain ⟨file, opens, mapOpen⟩ := ready₁.opened
  have other : file.inode ≠ p := by
    intro same
    rw [same, new] at mapOpen
    cases mapOpen
  have base : Base s₂.malloc.2 p n (dataOf s₂.device sector) f.data := by
    constructor
    case granted => exact granted₂.malloc
    case table => exact table₂.congr (Kept.malloc s₂)
    case sizes =>
      show s₂.freeMap.size = s₂.device.size
      rw [map₂, device₂, c.bits, sizes, c.size]
    case dir =>
      refine ⟨_, ⟨found, ?_, rfl, ?_⟩, by rw [device₂]⟩
      · show OnDisk s₂.device (dataOf s₁.device sector)
        rw [device₂, c.data]
        exact ⟨show start + bytesToSectors (n * entrySize) ≤ s₁.device.size by omega, by omega⟩
      · show (dataOf s₁.device sector).length = n * entrySize
        rw [c.data]
    case ready =>
      refine ⟨f, ⟨⟨⟨file, file₂.trans opens, ?_⟩, ?_, ready.allowed⟩, ?_⟩, rfl⟩
      · show s₂.inodes file.inode = some f
        rw [inodes₂, Function.update_of_ne other, mapOpen]
      · show OnDisk s₂.device f.data
        rw [device₂]
        exact ready₁.onDisk
      · show byteCnt s₂.freeMap.size ≤ f.data.length
        rw [map₂]
        exact ready₁.room
    case other =>
      intro file' opens'
      cases opens.symm.trans (file₂.symm.trans opens')
      exact other
    case apart =>
      intro r has has'
      rw [device₂, c.data] at has
      exact c.taken.free r has (prepared.apart r has').1
  have empty := created_slots c
  rw [← device₂] at empty
  have slots₂ : slots s₂.malloc.2 (dataOf s₂.device sector) = slots s₁ (dataOf s₂.device sector) := by
    rw [slots, slots, ← device₂]
    rfl
  exact base.directory (slots₂ ▸ empty)

theorem Leaves.directory (h : Leaves p n data map s s') (old : Directory s p n data map) :
    Directory s' p n data map ∧ namesOf s' data n = namesOf s data n := by
  have length : data.length = n * entrySize := by
    obtain ⟨i, dir, rfl⟩ := old.dir
    exact dir.length
  have same := slots_congr length h.entries
  refine ⟨⟨?_, old.entries.congr same, ?_⟩, SlotTable.toMap_congr same⟩
  · exact old.toBase.next h.granted h.table h.size h.bits h.mapFile h.own
  · rw [Bound.congr same]
    apply old.files.next (fun _ named => named) h.size h.mapFile h.inodes
    case marks => exact fun o r held _ => h.marks o r held
    case inodes => exact fun q j now named => .inr (h.cached q j now named)

theorem Directory.call (h : Directory s p n data map) (c : DirCall)
    (allowed : DirAllowed p n data map s c) :
    ∃ answer s', runCall p s c = .ok (answer, s') ∧ Directory s' p n data map ∧
      Answers n (namesOf s data n) c answer (namesOf s' data n) ∧ (answer.Idle → Asked s s') := by
  cases c with
  | add name sector =>
      obtain ⟨text, unbound, new⟩ := allowed
      obtain ⟨added, s', ran, h', when, binds, idle⟩ := h.add text new unbound
      refine ⟨.done added, s', ?_, h', ⟨when, ?_⟩, idle⟩
      · simp only [runCall, ran, bind, Except.bind]
        rfl
      · cases added with
        | true => exact binds rfl
        | false => rw [namesOf, (idle rfl).slots]; rfl
  | remove name =>
      obtain ⟨removed, s', ran, h', when, unbinds, idle⟩ := h.remove name
      refine ⟨.done removed, s', ?_, h', ⟨when, ?_⟩, idle⟩
      · simp only [runCall, ran, bind, Except.bind]
        rfl
      · cases removed with
        | true => exact unbinds rfl
        | false => rw [namesOf, (idle rfl).slots]; rfl
  | lookup name =>
      obtain ⟨found, s', ran, h', same, answer, idle, opened⟩ := h.find name
      refine ⟨.sector (found.bind fun q => (s'.inodes q).map Inode.sector), s', ?_, h',
        ⟨answer, same⟩, ?_⟩
      · simp only [runCall, ran, bind, Except.bind]
        rfl
      · intro none
        cases found with
        | none => exact idle rfl
        | some q =>
            obtain ⟨i, here⟩ := Option.ne_none_iff_exists'.mp (opened q rfl)
            simp only [DirAnswer.Idle, Option.bind_some, here, Option.map_some] at none
            cases none
  | scan calls =>
      obtain ⟨i, dir, rfl⟩ := h.dir
      obtain ⟨s', ran, asked, granted⟩ := dir.readdirs h.granted calls 0 (Nat.zero_le n)
      have ran : FileSys.readdirs p calls 0 s = _ := ran
      refine ⟨.names (((listed (fileBytes s.device i.data) n 0).map some ++
        List.replicate calls none).take calls), s', ?_, h.asked asked granted, ⟨?_, ?_⟩,
        fun _ => asked⟩
      · simp only [runCall, ran, bind, Except.bind]
        rfl
      · refine ⟨SlotTable.keys (slots s i.data) n, SlotTable.nodup_keys h.entries.distinct,
          fun name => SlotTable.mem_keys, ?_⟩
        have whole : listed (fileBytes s.device i.data) n 0 = SlotTable.keys (slots s i.data) n := by
          rw [listed, SlotTable.rest_zero]
          apply List.map_congr_left
          intro b mem
          obtain ⟨j, inside, here⟩ := SlotTable.mem_bindings.mp mem
          exact List.take_of_length_le (h.entries.valid j inside b.1 b.2 here).2
        rw [whole]
      · rw [namesOf, asked.slots]
        rfl

theorem directory_of_reachable (h : (directories p n data map).Reachable s) :
    Directory s p n data map ∧ (boundedMap n).Reachable (namesOf s data n) := by
  refine h.invariant (I := fun s => Directory s p n data map ∧
    (boundedMap n).Reachable (namesOf s data n)) (fun s made => ?_) ?_
  · obtain ⟨directory, empty⟩ := Made.directory made
    exact ⟨directory, .init empty⟩
  · intro s a s' ⟨directory, reach⟩ step
    cases a with
    | call c answer =>
        obtain ⟨allowed, ran⟩ := step
        obtain ⟨answer', s'', ran', directory', answers, _⟩ := directory.call c allowed
        cases ran'.symm.trans ran
        exact ⟨directory', reach.step (a := (c, answer)) answers⟩
    | others =>
        obtain ⟨directory', same⟩ := Leaves.directory step directory
        exact ⟨directory', same.symm ▸ reach⟩

/-- A directory refines a map with room for `n` names. Its entries in use have names of 1 to
`NAME_MAX` characters, each its own; every call returns what the map answers; and one that
fails changes nothing. -/
theorem directory_refines_boundedMap (h : (directories p n data map).Reachable s) :
    (boundedMap n).Reachable (namesOf s data n) ∧ Entries (slots s data) n ∧
      ∀ c, DirAllowed p n data map s c → ∃ answer s', runCall p s c = .ok (answer, s') ∧
        Answers n (namesOf s data n) c answer (namesOf s' data n) ∧
        (answer.Idle → Asked s s') := by
  obtain ⟨directory, reach⟩ := directory_of_reachable h
  refine ⟨reach, directory.entries, fun c allowed => ?_⟩
  obtain ⟨answer, s', ran, _, answers, idle⟩ := directory.call c allowed
  exact ⟨answer, s', ran, answers, idle⟩

theorem sampleHost_prepared : Prepared sampleHost 6 3 ⟨2, 4⟩ := by
  constructor
  case granted => exact fun _ => rfl
  case table => exact sampleHost_table
  case device => decide
  case sizes => rfl
  case ready =>
    exact ⟨_, ⟨⟨⟨⟨0, 0⟩, rfl, rfl⟩, ⟨by decide, by decide⟩, rfl⟩, by decide⟩, rfl⟩
  case reserved => rfl
  case closed =>
    intro ⟨p, i, found, sector⟩
    rw [(sampleHost_inodes found).2] at sector
    cases sector
  case apart =>
    intro r has
    have last : r = 2 := by
      have lower : 2 ≤ r := has.1
      have upper : r < 3 := has.2
      omega
    subst last
    exact ⟨rfl, by decide⟩
  case length => decide

theorem Directory.unbound {k : Nat} (h : Directory s p n data map)
    (empty : namesOf s data n = fun _ => none) : ¬ Bound s data n k := by
  intro ⟨j, inside, name, here⟩
  have named := (SlotTable.toMap_eq_some h.entries.distinct).mpr ⟨j, inside, here⟩
  rw [← namesOf, empty] at named
  cases named

theorem sampleHost_files (h : Directory s 1 3 (dataOf s.device 6) ⟨2, 4⟩)
    (empty : namesOf s (dataOf s.device 6) 3 = fun _ => none) (list : s.openInodes = [1, 0])
    (root : (s.inodes 0).map Inode.sector = some 0) (dir : (s.inodes 1).map Inode.sector = some 6)
    (start : (dataOf s.device 4).start = 5) (length : (dataOf s.device 4).length = 100)
    (dirStart : (dataOf s.device 6).start = 3) (dirLength : (dataOf s.device 6).length = 60)
    (size : s.device.size = 8) (bit : s.freeMap.test 4 = true) (bit' : s.freeMap.test 5 = true) :
    Files s 1 (dataOf s.device 6) ⟨2, 4⟩ fun x => Bound s (dataOf s.device 6) 3 x ∨ x = 4 := by
  have only : (fun x => Bound s (dataOf s.device 6) 3 x ∨ x = 4) = (· = 4) := by
    funext x
    exact propext (or_iff_right fun named => h.unbound empty named)
  have has (r : Nat) : (dataOf s.device 4).Has r ↔ r = 5 := by
    simp only [InodeDisk.Has, start, length, bytesToSectors, sectorSize]
    omega
  rw [only]
  constructor
  case onDisk =>
    intro k same
    subst same
    refine ⟨?_, ?_⟩
    · rw [start, length, size]
      decide
    · rw [size]
      decide
  case backed =>
    apply backed_one bit
    · intro r data
      exact (has r).mp data ▸ bit'
    · rw [has]
      decide
  case off =>
    intro k same
    subst same
    refine ⟨?_, by simp [InodeDisk.Has, bytesToSectors, sectorSize]⟩
    simp [InodeDisk.Has, bytesToSectors, sectorSize, dirStart, dirLength]
  case cached =>
    intro q j found same
    have listed := (h.table.listed q).mpr (by rw [found]; exact Option.some_ne_none j)
    rw [list] at listed
    obtain rfl | rfl : q = 1 ∨ q = 0 := by simpa using listed
    · rw [found, Option.map_some, same] at dir
      cases dir
    · rw [found, Option.map_some, same] at root
      cases root

/-- A directory of 3 entries is made at sector 6 of the sample disk, and the inode at sector 4 is
added to it. -/
theorem directory_refines_of_sampleHost : ∃ s p data,
    (directories p 3 data ⟨2, 4⟩).Reachable s ∧ namesOf s data 3 [97] = some 4 ∧
    (boundedMap 3).Reachable (namesOf s data 3) ∧ Entries (slots s data) 3 ∧
      ∀ c, DirAllowed p 3 data ⟨2, 4⟩ s c → ∃ answer s', runCall p s c = .ok (answer, s') ∧
        Answers 3 (namesOf s data 3) c answer (namesOf s' data 3) ∧
        (answer.Idle → Asked s s') := by
  have fact : ((sampleHost.dirCreate 6 3).toOption.any fun r => r.1 &&
      (r.2.inodeOpen 6).toOption.any fun r => r.1 == some 1 &&
        (r.2.dirOpen (some 1)).toOption.any fun r => r.1 == some 1 &&
          decide (r.2.openInodes = [1, 0] ∧ (r.2.inodes 0).map Inode.sector = some 0 ∧
            (r.2.inodes 1).map Inode.sector = some 6 ∧ (dataOf r.2.device 4).start = 5 ∧
            (dataOf r.2.device 4).length = 100 ∧ (dataOf r.2.device 6).start = 3 ∧
            (dataOf r.2.device 6).length = 60 ∧ r.2.device.size = 8 ∧
            r.2.freeMap.test 4 = true ∧ r.2.freeMap.test 5 = true)) = true := by decide +kernel
  cases create : sampleHost.dirCreate 6 3 with
  | error => rw [create] at fact; cases fact
  | ok r₁ =>
      obtain ⟨created, s₁⟩ := r₁
      rw [create] at fact
      obtain ⟨rfl, fact⟩ := (Bool.and_eq_true ..).mp fact
      cases opened : s₁.inodeOpen 6 with
      | error => rw [opened] at fact; cases fact
      | ok r₂ =>
          obtain ⟨p, s₂⟩ := r₂
          rw [opened] at fact
          obtain ⟨same, fact⟩ := (Bool.and_eq_true ..).mp fact
          cases eq_of_beq same
          cases openDir : s₂.dirOpen (some 1) with
          | error => rw [openDir] at fact; cases fact
          | ok r₃ =>
              obtain ⟨p, s⟩ := r₃
              rw [openDir] at fact
              obtain ⟨same, fact⟩ := (Bool.and_eq_true ..).mp fact
              cases eq_of_beq same
              obtain ⟨list, map, dir, start, length, dirStart, dirLength, size, bit, bit'⟩ :=
                of_decide_eq_true fact
              have made : Made 1 3 (dataOf s.device 6) ⟨2, 4⟩ s :=
                ⟨_, _, _, _, sampleHost_prepared, create, opened, openDir, rfl⟩
              obtain ⟨directory, empty⟩ := made.directory
              have new := sampleHost_files directory empty list map dir start length dirStart
                dirLength size bit bit'
              have unbound : ¬ Bound s (dataOf s.device 6) 3 4 :=
                fun named => directory.unbound empty named
              obtain ⟨added, s', ran, _, when, binds, _⟩ :=
                directory.add (show (0 : UInt8) ∉ [97] by decide) new unbound
              have success : added = true := by
                apply when.mpr
                rw [empty]
                exact ⟨by decide, rfl, by simp⟩
              have reach : (directories 1 3 (dataOf s.device 6) ⟨2, 4⟩).Reachable s' := by
                apply System.Reachable.step (a := .call (.add [97] 4) (.done added)) (.init made)
                refine ⟨⟨by decide, unbound, new⟩, ?_⟩
                simp only [runCall, ran, bind, Except.bind]
                rfl
              refine ⟨s', 1, dataOf s.device 6, reach, ?_, directory_refines_boundedMap reach⟩
              rw [binds success, Function.update_self]

end
end CS162.Pintos.FileSystem
