import CS162.Pintos.FileSystemInodes

/-!
The root directory: what its loops find, and what writing an entry does.
-/

namespace CS162.Pintos.FileSystem
open CS162.Library

/-- Only memory was asked for. -/
structure Asked (s s' : FileSys) : Prop extends Kept s s' where
  device : s'.device = s.device
  freeMap : s'.freeMap = s.freeMap

/-- The root directory is open. -/
def RootAt (s : FileSys) (p : Nat) : Prop := ∃ i, s.inodes p = some i ∧ i.sector = rootDirSector

section
variable {s s' s'' : FileSys} {openers : List Nat} {p k j : Nat} {e : Library.Memory}

theorem Asked.refl (s : FileSys) : Asked s s := ⟨Kept.refl s, rfl, rfl⟩

theorem Asked.malloc (s : FileSys) : Asked s s.malloc.2 := ⟨Kept.malloc s, rfl, rfl⟩

theorem Asked.trans (h : Asked s s') (h' : Asked s' s'') : Asked s s'' :=
  ⟨h.toKept.trans h'.toKept, h'.device.trans h.device, h'.freeMap.trans h.freeMap⟩

theorem Asked.sound (h : Asked s s') (sound : Sound s openers) : Sound s' openers :=
  (sound.rewrite h.toKept (by rw [h.device]) (by rw [h.freeMap]) (fun _ _ => by rw [h.device])
    (fun _ _ => by rw [h.device]) fun _ _ _ marked => by rw [h.freeMap]; exact marked).1

theorem Asked.live (h : Asked s s') (k : Nat) : Live s' k ↔ Live s k :=
  h.toKept.live (fun _ => by rw [h.device]) k

theorem Asked.reserved (h : Asked s s') (reserved : Reserved s k) : Reserved s' k where
  marked := by
    rw [h.freeMap]
    exact reserved.marked
  unheld o held := by
    rw [h.device] at held
    exact reserved.unheld o ⟨(h.live _).mp held.1, held.2⟩

theorem Asked.spare (h : Asked s s') (spare : Spare s.device s.freeMap (Live s) k) :
    Spare s'.device s'.freeMap (Live s') k := by
  rw [h.device, h.freeMap, show Live s' = Live s from funext fun k => propext (h.live k)]
  exact spare

theorem Kept.rootAt (h : Kept s s') (root : RootAt s p) : RootAt s' p := by
  rw [RootAt, h.inodes]
  exact root

theorem readEntry (h : Sound s openers) (root : RootAt s p) (buffer : Library.Memory) (j : Nat) :
    ∃ n e s', s.readAt p buffer entrySize (entrySize * j) = .ok (n, e, s') ∧ Asked s s' ∧
      (n = entrySize → j < slotCount s.device ∧
        slot (rootBytes s.device) j = if inUse e then some (entrySector e) else none) := by
  obtain ⟨i, found, sector⟩ := root
  have data := (h.cached p i found).1
  rw [sector] at data
  obtain ⟨n, ran, most⟩ := readAt_spec found (h.onDisk found) buffer entrySize (entrySize * j)
  refine ⟨n, _, _, ran, Asked.malloc s, ?_⟩
  rintro rfl
  have room : j < slotCount s.device := by
    rw [slotCount, ← data, Nat.lt_div_iff_mul_lt (by decide)]
    simp only [bytesLeft, entrySize] at *
    omega
  refine ⟨room, ?_⟩
  rw [data]
  have copied {x : Nat} (inside : x < entrySize) : (buffer.copy 0
      (fileBytes s.device (dataOf s.device rootDirSector)) (entrySize * j) entrySize) x =
      rootBytes s.device (entrySize * j + x) := by
    rw [Memory.copy, if_pos (by omega), Nat.sub_zero, rootBytes]
  have word (x n : Nat) (inside : x + n ≤ entrySize) : (buffer.copy 0
      (fileBytes s.device (dataOf s.device rootDirSector)) (entrySize * j) entrySize).load x n =
      (rootBytes s.device).load (entrySize * j + x) n := by
    induction n generalizing x with
    | zero => rfl
    | succ n ih => rw [Memory.load, Memory.load, copied (by omega), ih (x + 1) (by omega)]; rfl
  rw [slot, inUse, entrySector, copied (by decide), word 0 4 (by decide), Nat.add_zero]
  simp only [ne_eq, decide_not, Bool.not_eq_true', decide_eq_false_iff_not, ite_not]
  rfl

/-- What `lookup` finds is an entry in use. -/
theorem lookupFrom_spec (h : Sound s openers) (root : RootAt s p) (name : List UInt8)
    (rounds j : Nat) :
    ∃ found s', FileSys.lookupFrom p name rounds (entrySize * j) s = .ok (found, s') ∧
      Asked s s' ∧ ∀ e ofs, found = some (e, ofs) → ∃ j < slotCount s.device,
        ofs = entrySize * j ∧ slot (rootBytes s.device) j = some (entrySector e) := by
  induction rounds generalizing s j with
  | zero => exact ⟨none, s, rfl, Asked.refl s, fun _ _ none => by cases none⟩
  | succ rounds ih =>
      obtain ⟨n, e, s', ran, asked, entry⟩ := readEntry h root s.junk j
      simp only [FileSys.lookupFrom, ran, bind, Except.bind]
      split
      next whole =>
        obtain ⟨room, named⟩ := entry whole
        split
        next hit =>
          refine ⟨_, _, rfl, asked, fun e' ofs eq => ?_⟩
          cases eq
          exact ⟨j, room, rfl, named.trans (if_pos hit.1)⟩
        next =>
          obtain ⟨found, s'', rest, asked', all⟩ := ih (asked.sound h) (asked.toKept.rootAt root) (j + 1)
          refine ⟨found, s'', rest, asked.trans asked', ?_⟩
          rw [asked.device] at all
          exact all
      next => exact ⟨none, s', rfl, asked, fun _ _ none => by cases none⟩

theorem freeSlotFrom_spec (h : Sound s openers) (root : RootAt s p) (rounds j : Nat)
    (e : Library.Memory) :
    ∃ e' j' s', FileSys.freeSlotFrom p rounds (entrySize * j) e s = .ok (e', entrySize * j', s') ∧
      Asked s s' := by
  induction rounds generalizing s j e with
  | zero => exact ⟨e, j, s, rfl, Asked.refl s⟩
  | succ rounds ih =>
      obtain ⟨n, e', s', ran, asked, _⟩ := readEntry h root e j
      simp only [FileSys.freeSlotFrom, ran, bind, Except.bind]
      split
      next =>
        obtain ⟨e'', j', s'', rest, asked'⟩ := ih (asked.sound h) (asked.toKept.rootAt root) (j + 1) e'
        exact ⟨e'', j', s'', rest, asked.trans asked'⟩
      next => exact ⟨e', j, s', rfl, asked⟩

theorem writeEntry (h : Sound s openers) (root : RootAt s p) (e : Library.Memory) (j : Nat) :
    ∃ n s', s.writeAt p e entrySize (entrySize * j) = .ok (n, s') ∧ Kept s s' ∧
      s'.freeMap = s.freeMap ∧ s'.device.size = s.device.size ∧
      (n = entrySize → j < slotCount s.device ∧ Written s.device (dataOf s.device rootDirSector) e
        (entrySize * j) entrySize s'.device) ∧
      (n ≠ entrySize → s'.device = s.device) := by
  obtain ⟨i, found, sector⟩ := root
  obtain ⟨data, allowed⟩ := h.cached p i found
  rw [sector] at data
  obtain ⟨n, failed, d', ran, written, most, all⟩ : ∃ n failed d', inodeWriteAt s.device i s.malloc.1
      e entrySize (entrySize * j) = _ ∧ Written s.device i.data e (entrySize * j) n d' ∧
      n ≤ bytesLeft i.data entrySize (entrySize * j) ∧ _ :=
    inodeWriteAt_spec (h.onDisk found) allowed s.malloc.1 e
  obtain ⟨fails, nothing⟩ := inodeWriteAt_small (by decide) ran
  have whole := h.layout.whole
  rw [← data] at whole
  refine ⟨n, { s.malloc.2 with device := d' }, ?_, ⟨rfl, rfl, rfl, rfl, rfl⟩, rfl,
    size_of_inodeWriteAt ran, ?_, ?_⟩
  · have ran : inodeWriteAt s.malloc.2.device i s.malloc.1 e entrySize (entrySize * j) = _ := ran
    simp only [FileSys.writeAt, inode_eq found, bind, Except.bind, ran, onDevice]
    rfl
  · rintro rfl
    refine ⟨?_, data ▸ written⟩
    rw [slotCount, ← data, Nat.lt_div_iff_mul_lt (by decide)]
    simp only [bytesLeft, entrySize] at *
    omega
  · intro short
    refine nothing ?_
    by_cases done : n = bytesLeft i.data entrySize (entrySize * j)
    · simp only [bytesLeft, entrySize] at *
      omega
    · exact fails (by simpa [done] using all)

theorem Sound.writeSlot (h : Sound s openers) (kept : Kept s s') (map : s'.freeMap = s.freeMap)
    (size : s'.device.size = s.device.size) (room : j < slotCount s.device)
    (w : Written s.device (dataOf s.device rootDirSector) e (entrySize * j) entrySize s'.device)
    (new : ∀ k, slot e 0 = some k → 2 ≤ k ∧ Spare s.device s.freeMap (Live s) k) :
    Sound s' openers ∧ (∀ k, Linked s'.device k ↔ slot e 0 = some k ∨
      ∃ i < slotCount s.device, i ≠ j ∧ slot (rootBytes s.device) i = some k) := by
  have links := h.layout.written_linked w room
  have layout := h.layout.write w size room new
  have found {p : Nat} {i : Inode} (now : s'.inodes p = some i) : s.inodes p = some i := by
    rw [← kept.inodes, now]
  have opened (k : Nat) : Opened s' k ↔ Opened s k := by rw [Opened, Opened, kept.inodes]
  have data {k : Nat} (alive : Live s k) : dataOf s'.device k = dataOf s.device k :=
    Layout.written_data w (h.layout.inode_apart alive h.layout.root)
  refine ⟨?_, links⟩
  constructor
  case layout =>
    rw [map]
    refine layout.mono (fun k alive => ?_) (.inl rfl) (.inr (.inl rfl)) fun k link =>
      .inr (.inr (.inl link))
    obtain map | root | link | opens := alive
    · exact .inl (.inl map)
    · exact .inl (.inr (.inl root))
    · obtain named | ⟨i, hi, _, link⟩ := (links k).mp link
      · exact .inr named
      · exact .inl (.inr (.inr (.inl ⟨i, hi, link⟩)))
    · exact .inl (.inr (.inr (.inr ((opened k).mp opens))))
  case cached =>
    intro p i now
    rw [data (live_of_opened (found now))]
    exact h.cached p i (found now)
  case unique => exact fun p q i j now now' => h.unique p q i j (found now) (found now')
  case counted => exact fun p i now => h.counted p i (found now)
  case openers => exact kept.inodes ▸ h.openers
  case nodup => exact kept.openInodes ▸ h.nodup
  case listed =>
    intro p
    rw [kept.openInodes, kept.inodes]
    exact h.listed p
  case fresh =>
    intro p
    rw [kept.nextInode, kept.inodes, kept.events]
    exact h.fresh p
  case removed =>
    intro p i now flag
    obtain ⟨event, file, unlinked⟩ := h.removed p i (found now) flag
    refine ⟨kept.events ▸ event, file, fun link => ?_⟩
    obtain named | ⟨i', hi, _, link⟩ := (links _).mp link
    · have alive : Live s i.sector := live_of_opened (found now)
      exact (new _ named).2.apart (.inode, _) (.inode, _) _ ⟨alive, rfl⟩ ⟨rfl, rfl⟩
    · exact unlinked ⟨i', hi, link⟩
  case marked =>
    intro p i now
    rw [kept.events]
    exact h.marked p i (found now)
  case released =>
    intro p
    rw [kept.events, kept.inodes]
    exact h.released p
  case history => exact kept.events ▸ h.history
  case mapFile =>
    obtain ⟨f, i, file, opens, sector⟩ := h.mapFile
    exact ⟨f, i, kept.mapFile.trans file, by rw [kept.inodes, opens], sector⟩

theorem slot_fillEntry {name : List UInt8} (short : name.length ≤ nameMax) (bound : k < 2 ^ 32) :
    slot (fillEntry e name k) 0 = some k := by
  have flag : fillEntry e name k 19 = 1 := by
    rw [fillEntry, Memory.store_sameOff 19 (by omega), Memory.writeBytes_sameOff 19,
      Memory.fill_apply (by omega) (by omega)]
    simp only [List.length_append, List.length_singleton, nameMax] at *
    omega
  rw [slot, show entrySize * 0 + 19 = 19 from rfl, flag, if_neg (by decide)]
  exact congrArg some (Memory.load_store_self bound)

/-- `dir_add` links an inode that belonged to nobody, or changes nothing. -/
theorem dirAdd_spec (h : Sound s openers) (root : RootAt s p) (reserved : Reserved s k)
    (spare : Spare s.device s.freeMap (Live s) k) (file : 2 ≤ k) (name : List UInt8) :
    ∃ added s', s.dirAdd p name k = .ok (added, s') ∧ Kept s s' ∧ Sound s' openers ∧
      s'.freeMap = s.freeMap ∧ (added = false → Reserved s' k) := by
  rw [FileSys.dirAdd]
  split
  next => exact ⟨false, s, rfl, Kept.refl s, h, rfl, fun _ => reserved⟩
  next valid =>
    have short : name.length ≤ nameMax := Nat.le_of_not_lt fun long => valid (.inr long)
    obtain ⟨found, s₁, looked, asked, _⟩ := lookupFrom_spec h root name (s.entryRounds p) 0
    have looked : s.lookup p name = .ok (found, s₁) := looked
    simp only [looked, bind, Except.bind]
    cases found with
    | some hit =>
        exact ⟨false, s₁, rfl, asked.toKept, asked.sound h, asked.freeMap, fun _ =>
          asked.reserved reserved⟩
    | none =>
        have root₁ := asked.toKept.rootAt root
        obtain ⟨e, j, s₂, ran, asked'⟩ := freeSlotFrom_spec (asked.sound h) root₁ (s₁.entryRounds p)
          0 s₁.junk
        have ran : FileSys.freeSlotFrom p (s₁.entryRounds p) 0 s₁.junk s₁ = _ := ran
        have both := asked.trans asked'
        have sound := both.sound h
        obtain ⟨n, s₃, wrote, kept, map, size, whole, none⟩ :=
          writeEntry sound (both.toKept.rootAt root) (fillEntry e name k) j
        simp only [ran, wrote]
        refine ⟨n == entrySize, s₃, rfl, both.toKept.trans kept, ?_, map.trans both.freeMap, ?_⟩
        all_goals
          by_cases all : n = entrySize
        · obtain ⟨room, written⟩ := whole all
          refine (sound.writeSlot kept map size room written fun k' named => ?_).1
          have bound : k < 2 ^ 32 := by
            have := Bitmap.lt_of_test reserved.marked
            have := h.layout.size
            have := h.layout.device
            omega
          cases (slot_fillEntry short bound).symm.trans named
          exact ⟨file, both.spare spare⟩
        · exact (Asked.mk kept (none all) map).sound sound
        · simp [all]
        · intro _
          exact (Asked.mk kept (none all) map).reserved (both.reserved reserved)

theorem StayOpen.rootAt (h : StayOpen s s') (root : RootAt s p) : RootAt s' p := by
  obtain ⟨i, found, sector⟩ := root
  obtain ⟨i', found', same⟩ := h p i found
  exact ⟨i', found', same.trans sector⟩

/-- `dir_lookup` opens a linked inode. -/
theorem dirLookup_spec (h : Sound s openers) (root : RootAt s p) (name : List UInt8) :
    ∃ found s', s.dirLookup p name = .ok (found, s') ∧ s'.events = s.events ∧
      s'.freeMap = s.freeMap ∧ Follows s s' ∧ RootAt s' p ∧
      match found with
      | none => Sound s' openers
      | some q => Sound s' (q :: openers) ∧ ∃ i, s'.inodes q = some i ∧ 2 ≤ i.sector := by
  obtain ⟨found, s₁, looked, asked, entry⟩ := lookupFrom_spec h root name (s.entryRounds p) 0
  have looked : s.lookup p name = .ok (found, s₁) := looked
  have root₁ := asked.toKept.rootAt root
  simp only [FileSys.dirLookup, looked, bind, Except.bind]
  cases found with
  | none =>
      exact ⟨none, s₁, rfl, asked.events, asked.freeMap, asked.toKept.follows, root₁, asked.sound h⟩
  | some hit =>
      obtain ⟨e, ofs⟩ := hit
      obtain ⟨j, room, _, named⟩ := entry e ofs rfl
      obtain ⟨alive, file⟩ := h.layout.linked _ ⟨j, room, named⟩
      obtain ⟨result, s₂, opened, _, map, events, follows, stay, sound⟩ :=
        inodeOpen_spec (asked.sound h) ((asked.live _).mpr alive)
      refine ⟨result, s₂, opened, events.trans asked.events, map.trans asked.freeMap,
        asked.toKept.follows.trans follows, stay.rootAt root₁, ?_⟩
      cases result with
      | none => exact sound
      | some q =>
          obtain ⟨sound, i, found, sector⟩ := sound
          exact ⟨sound, i, found, sector ▸ file⟩

theorem Sound.stays (h : Sound s openers) {i : Inode} (found : s.inodes p = some i)
    (other : i.sector ≠ freeMapSector) :
    ∀ f, s.freeMapFile = some f → f.inode ∈ openers.erase p := by
  intro f file
  obtain ⟨f', j, file', opened, sector⟩ := h.mapFile
  cases file.symm.trans file'
  refine (List.mem_erase_of_ne ?_).mpr ((h.openers _).mpr (by rw [opened]; exact Option.some_ne_none j))
  rintro rfl
  cases found.symm.trans opened
  exact other sector

theorem dirClose_spec (h : Sound s (p :: openers)) (root : RootAt s p) :
    ∃ s', s.dirClose (some p) = .ok s' ∧ Sound s' openers ∧ s'.events = s.events ∧
      s'.freeMap = s.freeMap ∧ s'.device = s.device ∧ Follows s s' ∧
      ∀ q, q ≠ p → s'.inodes q = s.inodes q := by
  obtain ⟨i, found, sector⟩ := root
  have stays := h.stays found (by rw [sector]; decide)
  obtain ⟨s', closed, sound, _, follows, others, same⟩ := inodeClose_spec h found stays
  rw [List.erase_cons_head] at sound
  have kept : i.removed = false := by
    by_contra flag
    have := (h.removed p i found (by simpa using flag)).2.1
    rw [sector] at this
    exact absurd this (by decide)
  obtain ⟨events, map, device⟩ := same kept
  exact ⟨s', closed, sound, events, map, device, follows, others⟩

/-- `dir_open_root`. -/
theorem dirOpenRoot_spec (h : Sound s openers) :
    ∃ dir s', s.dirOpenRoot = .ok (dir, s') ∧ s'.events = s.events ∧ s'.freeMap = s.freeMap ∧
      s'.device = s.device ∧ Follows s s' ∧
      match dir with
      | none => Sound s' openers
      | some p => Sound s' (p :: openers) ∧ RootAt s' p := by
  obtain ⟨result, s₁, opened, device, map, events, follows, _, sound⟩ :=
    inodeOpen_spec h (.inr (.inl rfl) : Live s rootDirSector)
  have follows := follows.trans (Kept.malloc s₁).follows
  simp only [FileSys.dirOpenRoot, opened, bind, Except.bind, FileSys.dirOpen]
  cases result with
  | none => exact ⟨none, s₁.malloc.2, rfl, events, map, device, follows, Sound.malloc sound⟩
  | some p =>
      obtain ⟨sound, root⟩ := sound
      cases granted : s₁.malloc.1 with
      | true => exact ⟨some p, s₁.malloc.2, rfl, events, map, device, follows, sound.malloc, root⟩
      | false =>
          obtain ⟨s₂, closed, sound', events', map', device', follows', _⟩ :=
            dirClose_spec sound.malloc (root : RootAt s₁.malloc.2 p)
          refine ⟨none, s₂, ?_, events'.trans events, map'.trans map, device'.trans device,
            follows.trans follows', sound'⟩
          have closed : s₁.malloc.2.inodeClose (some p) = .ok s₂ := closed
          simp only [closed]
          rfl

/-- `dir_remove` erases the only entry of an inode and leaves the rest to its openers. -/
theorem dirRemove_spec (h : Sound s openers) (root : RootAt s p) (name : List UInt8) :
    ∃ success s', s.dirRemove p name = .ok (success, s') ∧ Sound s' openers ∧ Frees s s' ∧
      Follows s s' ∧ RootAt s' p := by
  obtain ⟨found, s₁, looked, asked, entry⟩ := lookupFrom_spec h root name (s.entryRounds p) 0
  have looked : s.lookup p name = .ok (found, s₁) := looked
  have root₁ := asked.toKept.rootAt root
  have keeps₁ : Keeps s s₁ := .of_same asked.events asked.freeMap
  simp only [FileSys.dirRemove, looked, bind, Except.bind]
  cases found with
  | none => exact ⟨false, s₁, rfl, asked.sound h, keeps₁.frees, asked.toKept.follows, root₁⟩
  | some hit =>
      obtain ⟨e, ofs⟩ := hit
      obtain ⟨j, here, rfl, named⟩ := entry e ofs rfl
      obtain ⟨alive, file⟩ := h.layout.linked _ ⟨j, here, named⟩
      obtain ⟨result, s₂, opened, device, map, events, follows, stay, sound₂⟩ :=
        inodeOpen_spec (asked.sound h) ((asked.live _).mpr alive)
      have root₂ := stay.rootAt root₁
      have keeps₂ := keeps₁.trans (.of_same events map)
      have follows₂ := asked.toKept.follows.trans follows
      simp only [opened]
      cases result with
      | none => exact ⟨false, s₂, rfl, sound₂, keeps₂.frees, follows₂, root₂⟩
      | some q =>
          obtain ⟨sound₂, i, found, sector⟩ := sound₂
          obtain ⟨n, s₃, wrote, kept, map₃, size, whole, nothing⟩ :=
            writeEntry sound₂ root₂ (e.fill 19 1 0) j
          have found₃ : s₃.inodes q = some i := by rw [kept.inodes, found]
          have root₃ := kept.rootAt root₂
          have keeps₃ := keeps₂.trans (.of_same kept.events map₃)
          have follows₃ := follows₂.trans kept.follows
          have other : i.sector ≠ freeMapSector := by
            rw [sector]
            exact Nat.ne_of_gt (Nat.lt_of_lt_of_le Nat.two_pos file)
          have apart : p ≠ q := by
            rintro rfl
            obtain ⟨i', found', root⟩ := root₂
            cases found'.symm.trans found
            rw [← sector, root] at file
            exact absurd file (by decide)
          simp only [wrote]
          by_cases all : n = entrySize
          · obtain ⟨room, written⟩ := whole all
            have blank : slot (e.fill 19 1 0) 0 = none := by
              rw [slot, show entrySize * 0 + 19 = 19 from rfl, Memory.fill_apply (by omega) (by omega)]
              rfl
            obtain ⟨sound₃, links⟩ := sound₂.writeSlot kept map₃ size room written fun k' named => by
              rw [blank] at named
              cases named
            have unlinked : ¬ Linked s₃.device i.sector := by
              intro link
              rw [sector, links, device, asked.device] at link
              obtain none | ⟨j', room', differ, named'⟩ := link
              · rw [blank] at none
                cases none
              · exact differ (h.layout.once j' j _ room' here named' named)
            obtain ⟨s₄, removed, sound₄, map₄, events₄, follows₄, found₄, inodes₄⟩ :=
              inodeRemove_spec sound₃ found₃ (sector ▸ file) unlinked
            obtain ⟨s₅, closed, sound₅, frees, follows₅, inodes₅, _⟩ :=
              inodeClose_spec sound₄ found₄ (sound₄.stays found₄ other)
            rw [List.erase_cons_head] at sound₅
            refine ⟨true, s₅, ?_, sound₅, keeps₃.trans_frees (frees.of_removed events₄ map₄),
              (follows₃.trans follows₄).trans follows₅, ?_⟩
            · simp only [if_pos all, removed, closed]
              rfl
            · rw [RootAt, inodes₅ p apart, inodes₄ p apart]
              exact root₃
          · have sound₃ := (Asked.mk kept (nothing all) map₃).sound sound₂
            obtain ⟨s₄, closed, sound₄, frees, follows₄, inodes₄, _⟩ :=
              inodeClose_spec sound₃ found₃ (sound₃.stays found₃ other)
            rw [List.erase_cons_head] at sound₄
            refine ⟨false, s₄, ?_, sound₄, keeps₃.trans_frees frees, follows₃.trans follows₄, ?_⟩
            · simp only [if_neg all, closed]
              rfl
            · rw [RootAt, inodes₄ p apart]
              exact root₃

end
end CS162.Pintos.FileSystem
