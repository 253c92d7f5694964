import CS162.Pintos.DirectoryState
import CS162.Pintos.FileSystemLaw
import CS162.Pintos.FileSystemNames

/-!
The root directory while bounce buffers may be missing. A scan of the entries takes one that
it cannot read for the end. So `dir_add` may miss a name that is bound, and may take a slot
in use for a free one; it is right exactly where neither happens. `dir_lookup` and
`dir_remove` are always right.
-/

namespace CS162.Pintos.FileSystem
open CS162.Library SlotTable

/-- The same state behind a number of allocations. -/
def FileSys.after (s : FileSys) (count : Nat) : FileSys :=
  { s with grants := fun k => s.grants (k + count) }

def isNamed (name : List UInt8) (b : Option (List UInt8 × Nat)) : Bool :=
  b.any fun b => decide (b.1 = name)

section Scans
variable (grants : Nat → Bool) (t : Nat → Option (List UInt8 × Nat)) (n : Nat) (name : List UInt8)

/-- Where `lookup` ends. -/
def nameStop : Nat := SlotTable.stop grants (fun l => isNamed name (t l)) n 0

/-- Where the scan of `dir_add` for a free slot ends, behind its `lookup`. -/
def slotStop : Nat :=
  SlotTable.stop (fun l => grants (l + (nameStop grants t n name + 1))) (fun l => (t l).isNone) n 0

/-- `lookup` comes to the name. -/
def Finds : Prop := nameStop grants t n name < n ∧ grants (nameStop grants t n name) = true

/-- `dir_add` comes to write a slot, and there is a bounce buffer for that. -/
def Writes : Prop := slotStop grants t n name < n ∧
  grants (slotStop grants t n name + 1 + (nameStop grants t n name + 1)) = true

/-- `dir_add` fails before it writes, or the name is not bound and the slot is free. -/
def AddSafe : Prop := ¬ ValidName name ∨ Finds grants t n name ∨ ¬ Writes grants t n name ∨
  (t (slotStop grants t n name) = none ∧ toMap t n name = none)

end Scans

section Scanning
variable {s : FileSys} {p n j : Nat} {i : Inode} {e : Library.Memory} {name : List UInt8}

theorem malloc_after (s : FileSys) (count : Nat) :
    (s.after count).malloc = (s.grants count, s.after (count + 1)) := by
  refine Prod.ext (congrArg s.grants (Nat.zero_add count)) ?_
  show { s with grants := _ } = { s with grants := _ }
  congr 1
  funext k
  exact congrArg s.grants (by omega)

theorem after_after (s : FileSys) (first second : Nat) :
    (s.after first).after second = s.after (second + first) := by
  show { s with grants := _ } = { s with grants := _ }
  congr 1
  funext k
  exact congrArg s.grants (Nat.add_assoc ..)

theorem DirAt.after (h : DirAt s p n i) (count : Nat) : DirAt (s.after count) p n i := h.congr rfl rfl

theorem isNamed_entryOf : isNamed name (entryOf e) = true ↔ inUse e = true ∧ entryName e = name := by
  rw [entryOf]
  split
  next used => simp [isNamed, used]
  next unused => simp [isNamed, unused]

theorem DirAt.lookupFrom_stop (h : DirAt s p n i) (name : List UInt8) (rounds j : Nat)
    (enough : n < j + rounds) (start : j ≤ n) :
    ∃ found, FileSys.lookupFrom p name rounds (entrySize * j) (s.after j) = .ok (found,
        s.after (SlotTable.stop s.grants (fun l => isNamed name (entry (fileBytes s.device i.data) l)) (n - j) j + 1)) ∧
      (found ≠ none ↔
        SlotTable.stop s.grants (fun l => isNamed name (entry (fileBytes s.device i.data) l)) (n - j) j < n ∧
        s.grants (SlotTable.stop s.grants (fun l => isNamed name (entry (fileBytes s.device i.data) l)) (n - j) j) =
          true) := by
  induction rounds generalizing j with
  | zero => omega
  | succ rounds ih =>
      obtain ⟨size, e, ran, full, bytes⟩ := (h.after j).read s.junk j
      rw [malloc_after] at ran full
      have ran : (s.after j).readAt p (s.after j).junk entrySize (entrySize * j) = _ := ran
      simp only [FileSys.lookupFrom, ran, bind, Except.bind]
      by_cases whole : size = entrySize
      · obtain ⟨inside, granted⟩ := full.mp whole
        have granted : s.grants j = true := granted
        have here := bytes whole
        have left : n - j = n - (j + 1) + 1 := by omega
        rw [if_pos whole, left, SlotTable.stop]
        by_cases hit : inUse e = true ∧ entryName e = name
        · have named := isNamed_entryOf.mpr hit
          rw [here] at named
          have named : isNamed name (entry (fileBytes s.device i.data) j) = true := named
          rw [if_pos hit, granted, named]
          exact ⟨_, rfl, iff_of_true (Option.some_ne_none _) ⟨inside, granted⟩⟩
        · have other : isNamed name (entry (fileBytes s.device i.data) j) = false := by
            by_contra named
            rw [Bool.not_eq_false] at named
            exact hit (isNamed_entryOf.mp (here ▸ named))
          rw [if_neg hit, granted, other]
          exact ih (j + 1) (by omega) inside
      · rw [if_neg whole]
        have ends : SlotTable.stop s.grants (fun l => isNamed name (entry (fileBytes s.device i.data) l)) (n - j) j =
            j ∧ ¬ (j < n ∧ s.grants j = true) := by
          have unread : ¬ (j < n ∧ s.grants j = true) := fun read => whole (full.mpr read)
          refine ⟨?_, unread⟩
          by_cases inside : j < n
          · have denied : s.grants j = false := Bool.eq_false_of_not_eq_true fun read =>
              unread ⟨inside, read⟩
            rw [show n - j = n - (j + 1) + 1 by omega, SlotTable.stop, denied]
            rfl
          · rw [show n - j = 0 by omega, SlotTable.stop]
        rw [ends.1]
        exact ⟨none, rfl, iff_of_false (fun some => some rfl) ends.2⟩

theorem DirAt.freeSlotFrom_stop (h : DirAt s p n i) (rounds j : Nat) (e : Library.Memory)
    (enough : n < j + rounds) (start : j ≤ n) :
    ∃ e', FileSys.freeSlotFrom p rounds (entrySize * j) e (s.after j) = .ok (e',
        entrySize * SlotTable.stop s.grants (fun l => (entry (fileBytes s.device i.data) l).isNone) (n - j) j,
        s.after (SlotTable.stop s.grants (fun l => (entry (fileBytes s.device i.data) l).isNone) (n - j) j + 1)) := by
  induction rounds generalizing j e with
  | zero => omega
  | succ rounds ih =>
      obtain ⟨size, e', ran, full, bytes⟩ := (h.after j).read e j
      rw [malloc_after] at ran full
      simp only [FileSys.freeSlotFrom, ran, bind, Except.bind]
      by_cases used : size = entrySize ∧ inUse e' = true
      · obtain ⟨inside, granted⟩ := full.mp used.1
        have granted : s.grants j = true := granted
        have here : entryOf e' = entry (fileBytes s.device i.data) j := bytes used.1
        have some : (entry (fileBytes s.device i.data) j).isNone = false := by
          rw [← here, entryOf, if_pos used.2]
          rfl
        rw [if_pos used, show n - j = n - (j + 1) + 1 by omega, SlotTable.stop, granted, some]
        exact ih (j + 1) e' (by omega) inside
      · rw [if_neg used]
        have ends : SlotTable.stop s.grants (fun l => (entry (fileBytes s.device i.data) l).isNone) (n - j) j = j := by
          by_cases inside : j < n
          · rw [show n - j = n - (j + 1) + 1 by omega, SlotTable.stop]
            by_cases granted : s.grants j = true
            · have whole := full.mpr ⟨inside, granted⟩
              have here : entryOf e' = entry (fileBytes s.device i.data) j := bytes whole
              rw [← here, entryOf, if_neg fun some => used ⟨whole, some⟩]
              simp
            · rw [Bool.eq_false_of_not_eq_true granted]
              rfl
          · rw [show n - j = 0 by omega, SlotTable.stop]
        rw [ends]
        exact ⟨e', rfl⟩

/-- What `dir_add` answers, and the entries behind it. -/
theorem DirAt.dirAdd_exact (h : DirAt s p n i) {sector : Nat} (bound : sector < 2 ^ 32) :
    ∃ added s', s.dirAdd p name sector = .ok (added, s') ∧
      (added = true ↔ ValidName name ∧ ¬ Finds s.grants (slots s i.data) n name ∧
        Writes s.grants (slots s i.data) n name) ∧
      (added = true → (0 : UInt8) ∉ name → slots s' i.data = Function.update (slots s i.data)
        (slotStop s.grants (slots s i.data) n name) (some (name, sector))) ∧
      (added = false → s'.device = s.device) ∧
      ∀ r, ¬ i.data.Has r → s'.device.sectors r = s.device.sectors r := by
  rw [FileSys.dirAdd]
  split
  next bad =>
    refine ⟨false, s, rfl, iff_of_false Bool.false_ne_true fun good => ?_, fun no => (by cases no),
      fun _ => rfl, fun _ _ => rfl⟩
    cases bad with
    | inl empty => exact good.1.1 empty
    | inr long => exact Nat.not_le_of_lt long good.1.2
  next good =>
    have valid : ValidName name :=
      ⟨fun empty => good (.inl empty), Nat.le_of_not_lt fun long => good (.inr long)⟩
    obtain ⟨found, looked, finds⟩ := h.lookupFrom_stop name (s.entryRounds p) 0
      (by rw [h.rounds]; omega) (Nat.zero_le n)
    have looked : s.lookup p name = .ok (found,
      s.after (nameStop s.grants (slots s i.data) n name + 1)) := looked
    simp only [looked, bind, Except.bind]
    cases found with
    | some place =>
        have found : Finds s.grants (slots s i.data) n name := finds.mp (Option.some_ne_none place)
        exact ⟨false, _, rfl, iff_of_false Bool.false_ne_true fun all => all.2.1 found,
          fun no => (by cases no), fun _ => rfl, fun _ _ => rfl⟩
    | none =>
        have missed : ¬ Finds s.grants (slots s i.data) n name := fun found => finds.mpr found rfl
        obtain ⟨e, ran⟩ := (h.after (nameStop s.grants (slots s i.data) n name + 1)).freeSlotFrom_stop
          (s.entryRounds p) 0 s.junk (by rw [h.rounds]; omega) (Nat.zero_le n)
        rw [after_after, after_after, Nat.zero_add] at ran
        have ran : FileSys.freeSlotFrom p (s.entryRounds p) 0
            (s.after (nameStop s.grants (slots s i.data) n name + 1)).junk
            (s.after (nameStop s.grants (slots s i.data) n name + 1)) = .ok (e,
              entrySize * slotStop s.grants (slots s i.data) n name,
              s.after (slotStop s.grants (slots s i.data) n name + 1 +
                (nameStop s.grants (slots s i.data) n name + 1))) := ran
        obtain ⟨size, s', wrote, _, _, _, _, others, full, entries, nothing⟩ :=
          (h.after (slotStop s.grants (slots s i.data) n name + 1 +
            (nameStop s.grants (slots s i.data) n name + 1))).write (fillEntry e name sector)
            (slotStop s.grants (slots s i.data) n name)
        rw [malloc_after] at full
        have same : (s.after (nameStop s.grants (slots s i.data) n name + 1)).entryRounds p =
          s.entryRounds p := rfl
        simp only [same, ran, wrote]
        refine ⟨size == entrySize, s', rfl, ?_, fun all text => ?_, fun short => ?_, others⟩
        · rw [beq_iff_eq]
          exact full.trans ⟨fun writes => ⟨valid, missed, writes⟩, fun all => all.2.2⟩
        · rw [beq_iff_eq] at all
          rw [slots, entries all, entryOf_fillEntry text valid.2 bound]
          rfl
        · exact nothing (by simpa using short)

end Scanning

section Closing
variable {s s' : FileSys} {f i i' : Inode} {q : Nat}

theorem MapReady.setInode (i' : Inode) (ready : MapReady s f) (found : s.inodes q = some i)
    (data : i'.data = i.data) (denied : i'.denyWriteCnt = i.denyWriteCnt) :
    ∃ f', MapReady (s.setInode q (some i')) f' ∧ f'.data = f.data := by
  obtain ⟨file, opens, opened⟩ := ready.opened
  by_cases same : file.inode = q
  · rw [same, found] at opened
    cases opened
    refine ⟨i', ⟨⟨file, opens, ?_⟩, data ▸ ready.onDisk, denied.trans ready.allowed⟩, data⟩
    rw [same]
    exact Function.update_self ..
  · exact ⟨f, ⟨⟨file, opens, (Function.update_of_ne same ..).trans opened⟩, ready.onDisk, ready.allowed⟩,
      rfl⟩

theorem freeMapRelease_touches (ready : MapReady s f) {start cnt : Nat}
    (ran : s.freeMapRelease start cnt = .ok s') : Touches f.data s s' := by
  obtain ⟨file, opens, opened⟩ := ready.opened
  rw [FileSys.freeMapRelease, opens] at ran
  split at ran
  next =>
    split at ran
    next map file' set same =>
      cases same
      have size : map.size = s.freeMap.size := by
        rw [Bitmap.setMultiple] at set
        split at set
        next =>
          cases set
          exact Bitmap.size_setFrom
        next => cases set
      obtain ⟨done, s₁, wrote, touches, _⟩ := bitmapWrite_spec (s := { s with freeMap := map }) opened
        ready.onDisk ready.allowed
      rw [opens] at wrote
      simp only [wrote, bind, Except.bind] at ran
      cases ran
      exact (Touches.map f.data size).trans touches
    next => cases ran
    next => cases ran
  next => cases ran

theorem inodeClose_others (ready : MapReady s f) (closed : s.inodeClose (some q) = .ok s') :
    ∀ r, ¬ f.data.Has r → s'.device.sectors r = s.device.sectors r := by
  rw [FileSys.inodeClose] at closed
  obtain ⟨i, found, closed⟩ := bind_eq_ok closed
  have found : s.inodes q = some i := by
    rw [FileSys.inode] at found
    split at found
    next here =>
      cases found
      exact here
    next => cases found
  obtain ⟨f', ready', data⟩ := ready.setInode { i with openCnt := i.openCnt - 1 } found rfl rfl
  simp only at closed
  split at closed
  next =>
    split at closed
    next =>
      obtain ⟨s₁, first, closed⟩ := bind_eq_ok closed
      obtain ⟨s₂, second, closed⟩ := bind_eq_ok closed
      cases closed
      have ready₀ : MapReady { s.setInode q (some { i with openCnt := i.openCnt - 1 }) with
          openInodes := s.openInodes.erase q } f' := ⟨ready'.opened, ready'.onDisk, ready'.allowed⟩
      have touches := freeMapRelease_touches ready₀ first
      have touches' := freeMapRelease_touches (ready₀.congr touches.toKept touches.size) second
      intro r outside
      rw [← data] at outside
      exact (touches.trans touches').others r outside
    next =>
      cases closed
      exact fun _ _ => rfl
  next =>
    cases closed
    exact fun _ _ => rfl

end Closing

section Root
variable {s s' : FileSys} {openers : List Nat} {p : Nat} {name : List UInt8} {d d₁ d' : Disk}
variable {success : Bool}

theorem rootTable_congr {map : Bitmap} {live : Nat → Prop} (h : Layout d map live)
    (dir : ∀ r, ¬ (dataOf d rootDirSector).Has r → d₁.sectors r = d.sectors r)
    (rest : ∀ r, ¬ (dataOf d freeMapSector).Has r → d'.sectors r = d₁.sectors r) :
    slotCount d' = slotCount d ∧ ∀ l < slotCount d,
      entry (rootBytes d') l = entry (fileBytes d₁ (dataOf d rootDirSector)) l := by
  have same : dataOf d' rootDirSector = dataOf d rootDirSector := by
    rw [dataOf, dataOf, rest _ (h.inode_apart h.root h.freeMap), dir _ (h.inode_apart h.root h.root)]
  have whole := h.whole
  refine ⟨by rw [slotCount, slotCount, same], fun l inside => ?_⟩
  rw [rootBytes, same]
  apply entry_congr
  intro x lower upper
  apply fileBytes_congr
  · intro r has
    apply rest
    intro has'
    exact absurd (h.data_apart h.root h.freeMap has has') (by decide)
  · simp only [slotCount, entrySize] at *
    omega

/-- `dir_remove` clears a slot of the name, or leaves the directory alone. -/
theorem dirRemove_exact (h : Sound s openers) (root : RootAt s p) (name : List UInt8) :
    ∃ removed s' d₁, s.dirRemove p name = .ok (removed, s') ∧
      (∀ r, ¬ (dataOf s.device rootDirSector).Has r → d₁.sectors r = s.device.sectors r) ∧
      (∀ r, ¬ (dataOf s.device freeMapSector).Has r → s'.device.sectors r = d₁.sectors r) ∧
      (removed = false → d₁ = s.device) ∧
      (removed = true → ∃ j < slotCount s.device, ∃ k, entry (rootBytes s.device) j = some (name, k) ∧
        entry (fileBytes d₁ (dataOf s.device rootDirSector)) =
          Function.update (entry (rootBytes s.device)) j none) := by
  obtain ⟨removed, s', ran, _⟩ := dirRemove_spec h root name
  obtain ⟨i, dir, data⟩ := h.dirAt root
  obtain ⟨found, s₁, looked, asked, _, hit, _⟩ := dir.lookupFrom name (s.entryRounds p) 0
  have looked : s.lookup p name = .ok (found, s₁) := looked
  have unchanged {s' : FileSys} (same : s'.device = s.device) :
      (∀ r, ¬ (dataOf s.device rootDirSector).Has r → s.device.sectors r = s.device.sectors r) ∧
        ∀ r, ¬ (dataOf s.device freeMapSector).Has r → s'.device.sectors r = s.device.sectors r :=
    ⟨fun _ _ => rfl, fun _ _ => by rw [same]⟩
  refine ⟨removed, s', ?_⟩
  have computed := ran
  simp only [FileSys.dirRemove, looked, bind, Except.bind] at computed
  cases found with
  | none =>
      cases computed
      obtain ⟨dir, rest⟩ := unchanged asked.device
      exact ⟨s.device, ran, dir, rest, fun _ => rfl, fun no => by cases no⟩
  | some place =>
      obtain ⟨e, ofs⟩ := place
      obtain ⟨j, inside, rfl, named, here, _⟩ := hit e ofs rfl
      rw [data] at here
      have here : entry (rootBytes s.device) j = some (name, entrySector e) := here.trans named
      have alive := (h.layout.linked _ ⟨j, inside, slot_of_entry here⟩).1
      obtain ⟨result, s₂, opened, device, _, _, _, stay, sound₂⟩ :=
        inodeOpen_spec (asked.sound h) ((asked.live _).mpr alive)
      have device : s₂.device = s.device := device.trans asked.device
      simp only [opened] at computed
      cases result with
      | none =>
          cases computed
          obtain ⟨dir, rest⟩ := unchanged device
          exact ⟨s.device, ran, dir, rest, fun _ => rfl, fun no => by cases no⟩
      | some q =>
          obtain ⟨sound₂, i₂, found, _⟩ := sound₂
          obtain ⟨i', dir₂, data₂⟩ := sound₂.dirAt (stay.rootAt (asked.toKept.rootAt root))
          rw [device] at dir₂ data₂
          obtain ⟨n, s₃, wrote, kept, _, _, size, others, _, entries, nothing⟩ :=
            dir₂.write (e.fill 19 1 0) j
          rw [device, data₂] at others
          rw [device, data₂] at entries
          simp only [wrote] at computed
          obtain ⟨f, ready, map⟩ := sound₂.mapReady
          rw [device] at map
          have ready₃ := ready.congr kept size
          have found₃ : s₃.inodes q = some i₂ := by rw [kept.inodes, found]
          by_cases whole : n = entrySize
          · simp only [if_pos whole, FileSys.inodeRemove, inode_eq found₃, bind, Except.bind] at computed
            obtain ⟨s₄, closed, computed⟩ := bind_eq_ok computed
            cases computed
            obtain ⟨f', ready', same⟩ := ready₃.setInode { i₂ with removed := true } found₃ rfl rfl
            have ready₄ (events : List Event) : MapReady
                { s₃.setInode q (some { i₂ with removed := true }) with events := events } f' :=
              ⟨ready'.opened, ready'.onDisk, ready'.allowed⟩
            have rest := inodeClose_others (ready₄ _) closed
            rw [same, map] at rest
            refine ⟨s₃.device, ran, others, rest, fun no => (by cases no), fun _ =>
              ⟨j, inside, entrySector e, here, ?_⟩⟩
            have blank : entryOf (e.fill 19 1 0) = none := by
              rw [entryOf, inUse, Memory.fill_apply (by omega) (by omega)]
              rfl
            rw [entries whole, blank]
            rfl
          · simp only [if_neg whole] at computed
            obtain ⟨s₄, closed, computed⟩ := bind_eq_ok computed
            cases computed
            have rest := inodeClose_others ready₃ closed
            rw [map, nothing whole, device] at rest
            exact ⟨s.device, ran, fun _ _ => rfl, rest, fun _ => rfl, fun no => by cases no⟩

/-- A call on the directory. -/
inductive EntryCall where
  | lookup (name : List UInt8)
  | add (name : List UInt8) (sector : Nat)
  | remove (name : List UInt8)

namespace EntryCall

/-- Names are strings, and a sector is a `block_sector_t`. -/
def Proper : EntryCall → Prop
  | .lookup name | .remove name => (0 : UInt8) ∉ name
  | .add name sector => (0 : UInt8) ∉ name ∧ sector < 2 ^ 32

def run (s : FileSys) (dir : Nat) : EntryCall → Except Panic (Bool × FileSys)
  | .lookup name => (s.dirLookup dir name).map fun r => (r.1.isSome, r.2)
  | .add name sector => s.dirAdd dir name sector
  | .remove name => s.dirRemove dir name

/-- What the call asks for. -/
def change : EntryCall → Change (List UInt8) Nat
  | .lookup _ => .keep
  | .add name sector => .bind name sector
  | .remove name => .unbind name

/-- What the call asks for was done if it says so, and nothing otherwise; no name stands in two
entries. -/
def Survives (c : EntryCall) (d d' : Disk) (success : Bool) : Prop :=
  Distinct (entry (rootBytes d')) (slotCount d') ∧
    (if success then c.change else .keep).Made (fileNamed d) (fileNamed d')

def Safe (s : FileSys) : EntryCall → Prop
  | .add name _ => AddSafe s.grants (entry (rootBytes s.device)) (slotCount s.device) name
  | .lookup _ | .remove _ => True

theorem survives_of_same {c : EntryCall} (distinct : Distinct (entry (rootBytes d)) (slotCount d))
    (same : slotCount d' = slotCount d ∧ ∀ l < slotCount d, entry (rootBytes d') l = entry (rootBytes d) l)
    (keeps : c.change = .keep ∨ success = false) : c.Survives d d' success := by
  have change : (if success then c.change else .keep) = Change.keep := by
    cases keeps with
    | inl keep => simp [keep]
    | inr failed => simp [failed]
  rw [Survives, change, same.1]
  refine ⟨distinct.congr same.2, ?_⟩
  show fileNamed d' = fileNamed d
  funext name
  rw [fileNamed, same.1, toMap_congr same.2, fileNamed]

end EntryCall

theorem dirLookup_device (h : Sound s openers) (root : RootAt s p) (name : List UInt8) :
    ∃ found s', s.dirLookup p name = .ok (found, s') ∧ s'.device = s.device := by
  obtain ⟨i, dir, data⟩ := h.dirAt root
  obtain ⟨found, s₁, looked, asked, _, hit, _⟩ := dir.lookupFrom name (s.entryRounds p) 0
  have looked : s.lookup p name = .ok (found, s₁) := looked
  simp only [FileSys.dirLookup, looked, bind, Except.bind]
  cases found with
  | none => exact ⟨none, s₁, rfl, asked.device⟩
  | some place =>
      obtain ⟨e, ofs⟩ := place
      obtain ⟨j, inside, _, named, here, _⟩ := hit e ofs rfl
      rw [data] at here
      have here : entry (rootBytes s.device) j = some (name, entrySector e) := here.trans named
      have alive := (h.layout.linked _ ⟨j, inside, slot_of_entry here⟩).1
      obtain ⟨result, s₂, opened, device, _⟩ := inodeOpen_spec (asked.sound h) ((asked.live _).mpr alive)
      exact ⟨result, s₂, opened, device.trans asked.device⟩

theorem lookup_survives (h : Sound s openers) (root : RootAt s p)
    (distinct : Distinct (entry (rootBytes s.device)) (slotCount s.device)) (name : List UInt8) :
    ∃ found s', (EntryCall.lookup name).run s p = .ok (found, s') ∧
      (EntryCall.lookup name).Survives s.device s'.device found := by
  obtain ⟨found, s', ran, device⟩ := dirLookup_device h root name
  refine ⟨found.isSome, s', ?_, ?_⟩
  · rw [EntryCall.run, ran]
    rfl
  · rw [device]
    exact EntryCall.survives_of_same distinct ⟨rfl, fun _ _ => rfl⟩ (.inl rfl)

theorem remove_survives (h : Sound s openers) (root : RootAt s p)
    (distinct : Distinct (entry (rootBytes s.device)) (slotCount s.device)) (name : List UInt8) :
    ∃ removed s', s.dirRemove p name = .ok (removed, s') ∧
      (EntryCall.remove name).Survives s.device s'.device removed := by
  have layout := h.layout
  obtain ⟨removed, s', d₁, ran, dir, rest, failed, done⟩ := dirRemove_exact h root name
  have table := rootTable_congr layout dir rest
  refine ⟨removed, s', ran, ?_⟩
  cases removed with
  | false =>
      rw [failed rfl] at table
      exact EntryCall.survives_of_same distinct table (.inr rfl)
  | true =>
      obtain ⟨j, inside, k, here, cleared⟩ := done rfl
      rw [cleared] at table
      obtain ⟨unbound, made⟩ := distinct.unbind inside here
      refine ⟨by rw [table.1]; exact unbound.congr table.2, ?_⟩
      have names : fileNamed s'.device = Function.update (fileNamed s.device) name none := by
        funext other
        rw [fileNamed, table.1, toMap_congr table.2, made]
        rfl
      refine ⟨fun none => ?_, names⟩
      exact toMap_eq_none.mp none j inside k here

/-- The entry survives if the slot that `dir_add` takes is free and its `lookup` sees the name. -/
theorem add_survives_iff (h : Sound s openers) (root : RootAt s p)
    (distinct : Distinct (entry (rootBytes s.device)) (slotCount s.device)) {name : List UInt8} {sector : Nat}
    (proper : (EntryCall.add name sector).Proper) : ∃ added s', s.dirAdd p name sector = .ok (added, s') ∧
      ((EntryCall.add name sector).Survives s.device s'.device added ↔ (EntryCall.add name sector).Safe s) := by
  have layout := h.layout
  obtain ⟨i, dir, data⟩ := h.dirAt root
  obtain ⟨added, s', ran, success, entries, failed, others⟩ := dir.dirAdd_exact proper.2
  rw [data] at success entries others
  have table := rootTable_congr layout others fun _ _ => rfl
  refine ⟨added, s', ran, ?_⟩
  have table₀ : slots s (dataOf s.device rootDirSector) = entry (rootBytes s.device) := rfl
  rw [table₀] at success entries
  cases added with
  | false =>
      rw [failed rfl]
      refine iff_of_true (EntryCall.survives_of_same distinct ⟨rfl, fun _ _ => rfl⟩ (.inr rfl)) ?_
      by_contra unsafe_
      simp only [EntryCall.Safe, AddSafe, not_or, not_not] at unsafe_
      exact Bool.false_ne_true (success.mpr ⟨unsafe_.1, unsafe_.2.1, unsafe_.2.2.1⟩)
  | true =>
      obtain ⟨valid, missed, writes⟩ := success.mp rfl
      have filled : ∀ l < slotCount s.device, entry (rootBytes s'.device) l =
          Function.update (entry (rootBytes s.device)) (slotStop s.grants (entry (rootBytes s.device))
            (slotCount s.device) name) (some (name, sector)) l := by
        intro l inside
        rw [table.2 l inside, ← entries rfl proper.1]
        rfl
      have names : fileNamed s'.device = toMap (Function.update (entry (rootBytes s.device))
          (slotStop s.grants (entry (rootBytes s.device)) (slotCount s.device) name)
            (some (name, sector))) (slotCount s.device) := by
        funext other
        rw [fileNamed, table.1, toMap_congr filled]
      have fill := distinct.fill_iff writes.1 name sector
      rw [EntryCall.Survives, table.1, names]
      constructor
      · intro survives
        refine .inr (.inr (.inr (fill.mp ⟨survives.1.congr fun l inside => (filled l inside).symm, ?_⟩)))
        exact survives.2
      · intro safe
        obtain bad | found | unwritten | free := safe
        · exact absurd valid bad
        · exact absurd found missed
        · exact absurd writes unwritten
        · obtain ⟨apart, made⟩ := fill.mpr free
          exact ⟨apart.congr filled, made⟩

/-- A call on the directory under any failures of bounce buffers survives them exactly if it is
not a `dir_add` that misses its name or takes a slot in use. -/
theorem survives_iff (h : Sound s openers) (root : RootAt s p)
    (distinct : Distinct (entry (rootBytes s.device)) (slotCount s.device)) (c : EntryCall)
    (proper : c.Proper) : ∃ success s', c.run s p = .ok (success, s') ∧
      (c.Survives s.device s'.device success ↔ c.Safe s) := by
  cases c with
  | lookup name =>
      obtain ⟨found, s', ran, survives⟩ := lookup_survives h root distinct name
      exact ⟨found, s', ran, iff_of_true survives trivial⟩
  | remove name =>
      obtain ⟨removed, s', ran, survives⟩ := remove_survives h root distinct name
      exact ⟨removed, s', ran, iff_of_true survives trivial⟩
  | add name sector => exact add_survives_iff h root distinct proper

/-- A formatted disk with one file, and its root directory open, while the allocation with this
number fails. -/
def rootOpen (denied : Nat) : Option (Option Nat × FileSys) :=
  (filesysInit true ⟨12, fun _ _ => 0⟩ (fun k => decide (k ≠ denied)) fun _ => 0).toOption.bind fun s =>
    (System.exec (fun w c => if Allowed w c then next w c else none) ⟨s, []⟩ [.create [97] 10]).bind
      fun w => w.fs.dirOpenRoot.toOption

/-- The file has the first entry, and it is the only one. -/
def oneEntry (d : Disk) : Bool := decide (entry (rootBytes d) 0 = some ([97], 4) ∧
  ∀ j < slotCount d, j = 0 ∨ entry (rootBytes d) j = none)

theorem exists_rootOpen (denied : Nat) (check : Nat → FileSys → Bool)
    (fact : (rootOpen denied).any (fun r => oneEntry r.2.device && r.1.any fun p => check p r.2) = true) :
    ∃ s openers p, Sound s openers ∧ RootAt s p ∧
      Distinct (entry (rootBytes s.device)) (slotCount s.device) ∧ check p s = true := by
  rw [rootOpen] at fact
  cases init : filesysInit true ⟨12, fun _ _ => 0⟩ (fun k => decide (k ≠ denied)) fun _ => 0 with
  | error _ =>
      rw [init] at fact
      cases fact
  | ok s =>
      rw [init] at fact
      have fact : ((System.exec (fun w c => if Allowed w c then next w c else none) ⟨s, []⟩
          [.create [97] 10]).bind fun w => w.fs.dirOpenRoot.toOption).any (fun r =>
            oneEntry r.2.device && r.1.any fun p => check p r.2) = true := fact
      obtain ⟨r, opened, checks⟩ := (Option.any_eq_true ..).mp fact
      obtain ⟨w, ran, opened⟩ := Option.bind_eq_some_iff.mp opened
      have more : (System.exec (fun w c => if Allowed w c then next w c else none) ⟨s, []⟩
          [.create [97] 10]).any (fun w => w.fs.dirOpenRoot.toOption.any fun r =>
            oneEntry r.2.device && r.1.any fun p => check p r.2) = true := by
        rw [ran, Option.any_some, opened, Option.any_some]
        exact checks
      obtain ⟨w, reach, opened⟩ := System.exists_reachable_under Starts next Allowed _
        (s := ⟨s, []⟩) ⟨rfl, _, _, _, by decide, init⟩ [.create [97] 10] more
      obtain ⟨m, kempt⟩ := kempt_of_reachable reach
      obtain ⟨⟨dir, s'⟩, ran, checks⟩ := (Option.any_eq_true ..).mp opened
      obtain ⟨dir', s'', ran', _, _, _, _, sound⟩ := dirOpenRoot_spec kempt.sound
      cases ran'.symm.trans (toOption_some.mp ran)
      rw [Bool.and_eq_true] at checks
      obtain ⟨one, checked⟩ := checks
      cases dir with
      | none => cases checked
      | some p =>
          obtain ⟨first, others⟩ := of_decide_eq_true one
          refine ⟨s', _, p, sound.1, sound.2, ?_, checked⟩
          intro i hi j hj key v v' here there
          obtain rfl | free := others i hi
          · obtain rfl | free := others j hj
            · rfl
            · cases free.symm.trans there
          · cases free.symm.trans here

theorem survives_of_rootOpen : ∃ s openers p, Sound s openers ∧ RootAt s p ∧
    ∃ s', (EntryCall.add [98] 9).run s p = .ok (true, s') ∧
      (EntryCall.add [98] 9).Survives s.device s'.device true := by
  obtain ⟨s, openers, p, sound, root, distinct, checks⟩ := exists_rootOpen 99
    (fun p s => ((EntryCall.add [98] 9).run s p).toOption.any (fun r : Bool × FileSys => r.1) && decide
      (entry (rootBytes s.device)
        (slotStop s.grants (entry (rootBytes s.device)) (slotCount s.device) [98]) = none ∧
      ∀ j < slotCount s.device, (entry (rootBytes s.device) j).map Prod.fst ≠ some [98]))
    (by decide +kernel)
  rw [Bool.and_eq_true, decide_eq_true_eq] at checks
  obtain ⟨added, free, absent⟩ := checks
  obtain ⟨success, s', ran, survives⟩ := survives_iff sound root distinct (.add [98] 9) ⟨by decide, by decide⟩
  rw [ran] at added
  cases added
  refine ⟨s, openers, p, sound, root, s', ran, survives.mpr (.inr (.inr (.inr ⟨free, ?_⟩)))⟩
  refine toMap_eq_none.mpr fun j inside v here => absent j inside ?_
  rw [here]
  rfl

/-- The first bounce buffer of `dir_add` is missing, so its `lookup` ends before the entry of the
name. The name is bound again, in the next slot. -/
theorem not_survives_of_rootOpen : ∃ s openers p, Sound s openers ∧ RootAt s p ∧
    Distinct (entry (rootBytes s.device)) (slotCount s.device) ∧ ∃ c : EntryCall, c.Proper ∧
      ∃ s', c.run s p = .ok (true, s') ∧ ¬ c.Survives s.device s'.device true := by
  obtain ⟨s, openers, p, sound, root, distinct, twice⟩ := exists_rootOpen 37
    (fun p s => ((EntryCall.add [97] 9).run s p).toOption.any fun r => r.1 && decide
      (1 < slotCount r.2.device ∧ entry (rootBytes r.2.device) 0 = some ([97], 4) ∧
        entry (rootBytes r.2.device) 1 = some ([97], 9))) (by decide +kernel)
  obtain ⟨⟨success, s'⟩, ran, checks⟩ := (Option.any_eq_true ..).mp twice
  rw [Bool.and_eq_true, decide_eq_true_eq] at checks
  obtain ⟨done, room, first, second⟩ := checks
  cases done
  refine ⟨s, openers, p, sound, root, distinct, .add [97] 9, ⟨by decide, by decide⟩, s',
    toOption_some.mp ran, ?_⟩
  intro survives
  have same := survives.1 0 (Nat.lt_trans Nat.zero_lt_one room) 1 room [97] 4 9 first second
  cases same

end Root
end CS162.Pintos.FileSystem
