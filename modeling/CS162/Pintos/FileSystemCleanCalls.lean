import CS162.Pintos.FileSystemClean

/-!
The calls of filesys.c leave a clean file system clean: what they allocate ends up behind a
name, and what loses its name is given back with its last opener.
-/

namespace CS162.Pintos.FileSystem
open CS162.Library

section
variable {s s' : FileSys} {openers : List Nat} {p q k j : Nat} {i : Inode}
  {extra extra' : Nat → Prop} {name : List UInt8}

namespace Clean

/-- `dir_open_root`. -/
theorem openRoot (c : Clean extra s) (h : Sound s openers) :
    ∃ p s', s.dirOpenRoot = .ok (some p, s') ∧ Sound s' (p :: openers) ∧ RootAt s' p ∧
      Clean extra s' ∧ s'.device = s.device ∧ s'.freeMap = s.freeMap := by
  obtain ⟨p, s₁, opened, sound, clean, device, map, _, root⟩ :=
    c.openInode h h.layout.root fun file => absurd file (by decide)
  refine ⟨p, s₁.malloc.2, ?_, sound.malloc, root, clean.malloc, device, map⟩
  simp only [FileSys.dirOpenRoot, opened, bind, Except.bind, FileSys.dirOpen, clean.granted.first]
  rfl

/-- `dir_close`, of the root directory. -/
theorem closeRoot (c : Clean extra s) (h : Sound s (p :: openers)) (root : RootAt s p) :
    ∃ s', s.dirClose (some p) = .ok s' ∧ Sound s' openers ∧ Clean extra s' := by
  obtain ⟨i, found, sector⟩ := root
  exact c.closeInode h found (sector ▸ by decide)

theorem filesysOpen (c : Clean extra s) (h : Sound s openers) {result : Option File}
    (ran : s.filesysOpen name = .ok (result, s')) : Clean extra s' := by
  obtain ⟨p, s₁, opened, sound₁, root₁, clean₁, device₁, _⟩ := c.openRoot h
  obtain ⟨found, s₂, looked, asked, hit, memory⟩ := lookup_named sound₁ root₁ name
  have clean₂ := clean₁.asked asked (memory clean₁.granted).1
  have sound₂ := asked.sound sound₁
  have root₂ := asked.toKept.rootAt root₁
  simp only [FileSys.filesysOpen, opened, bind, Except.bind, FileSys.dirLookup, looked] at ran
  cases found with
  | none =>
      obtain ⟨s₃, closed, _, clean₃⟩ := clean₂.closeRoot sound₂ root₂
      simp only [pure, Except.pure, closed, FileSys.fileOpen, bind, Except.bind] at ran
      cases ran
      exact clean₃.malloc
  | some hit' =>
      obtain ⟨e, ofs⟩ := hit'
      have linked : Linked s₂.device (entrySector e) := by
        rw [asked.device]
        exact linked_of_named (hit e ofs rfl)
      obtain ⟨q, s₃, opened₃, sound₃, clean₃, _, _, stay, _⟩ :=
        clean₂.openInode sound₂ (sound₂.layout.linked _ linked).1 fun _ => linked
      obtain ⟨s₄, closed, _, clean₄⟩ :=
        clean₃.closeRoot (sound₃.perm (.swap ..)) (stay.rootAt root₂)
      simp only [opened₃, closed, FileSys.fileOpen, clean₄.granted.first] at ran
      cases ran
      exact clean₄.malloc

theorem touch (c : Clean extra s) (h : Sound s openers) (alive : Live s k) (file : 2 ≤ k)
    (t : Touches (dataOf s.device k) s s') (map : s'.freeMap = s.freeMap) (granted : Granted s') :
    Clean extra s' := by
  have sectors (k' : Nat) (alive' : Live s k') : s'.device.sectors k' = s.device.sectors k' :=
    t.others k' (h.layout.inode_apart alive' alive)
  have others {k' : Nat} (alive' : Live s k') (small : k' < 2) (r : Nat)
      (has : (dataOf s.device k').Has r) : s'.device.sectors r = s.device.sectors r := by
    apply t.others r
    intro has'
    have same := h.layout.data_apart alive' alive has has'
    omega
  obtain ⟨_, _, links⟩ := linked_congr (sectors _ h.layout.root) (others h.layout.root (by decide))
  apply c.next granted map
  · exact fun k' alive' => ⟨(t.toKept.live links k').mpr alive', sectors k' alive'⟩
  · exact others (.inl rfl) (by decide)
  · intro q j found file flag
    rw [t.inodes] at found
    exact (links _).mpr (c.named q j found file flag)

/-- `inode_write_at`. -/
theorem writeAt (c : Clean extra s) (h : Sound s openers) (file : FileAt s p)
    (buffer : Library.Memory) (size offset : Nat) {n : Nat}
    (ran : s.writeAt p buffer size offset = .ok (n, s')) : Clean extra s' := by
  obtain ⟨i, found, bound⟩ := file
  obtain ⟨data, allowed⟩ := h.cached p i found
  obtain ⟨n, d', ran', written, sizes, _⟩ :=
    writeAt_spec found (h.onDisk found) allowed buffer size offset
  have granted := (c.granted.writeAt p buffer size offset).get ran
  cases ran.symm.trans ran'
  have t : Touches (dataOf s.device i.sector) s { s.malloc.2 with device := d' } :=
    ⟨⟨rfl, rfl, rfl, rfl, rfl⟩, sizes, rfl, data ▸ written.others⟩
  exact c.touch h (Sound.live_of_opened found) bound t rfl granted

section Remove

theorem entry_blank (e : Library.Memory) : slot (e.fill 19 1 0) 0 = none := by
  rw [slot, show entrySize * 0 + 19 = 19 from rfl, Memory.fill_apply (by omega) (by omega)]
  rfl

/-- The only entry of an open inode is erased, and the inode is marked as removed. -/
theorem unlink (c : Clean extra s) (h : Sound s openers) {e : Library.Memory}
    (found : s.inodes q = some i) (here : slot (rootBytes s.device) j = some i.sector)
    (kept : Kept s s') (map : s'.freeMap = s.freeMap) (size : s'.device.size = s.device.size)
    (granted : Granted s') (room : j < slotCount s.device)
    (written : Written s.device (dataOf s.device rootDirSector) (e.fill 19 1 0) (entrySize * j)
      entrySize s'.device) :
    ∃ s'', s'.inodeRemove q = .ok s'' ∧ Sound s'' openers ∧ Clean extra s'' ∧
      s''.inodes q = some { i with removed := true } ∧ ∀ x, x ≠ q → s''.inodes x = s'.inodes x := by
  obtain ⟨sound, links⟩ := h.writeSlot kept map size room written fun k' named => by
    rw [entry_blank] at named
    cases named
  have found' : s'.inodes q = some i := by rw [kept.inodes, found]
  have file := (h.layout.linked _ ⟨j, room, here⟩).2
  have unlinked : ¬ Linked s'.device i.sector := by
    intro link
    obtain none | ⟨j', room', differ, named⟩ := (links _).mp link
    · rw [entry_blank] at none
      cases none
    · exact differ (h.layout.once j' j _ room' room named here)
  have left (k : Nat) (link : Linked s.device k) (other : k ≠ i.sector) : Linked s'.device k := by
    obtain ⟨j', room', named⟩ := link
    refine (links k).mpr (.inr ⟨j', room', ?_, named⟩)
    rintro rfl
    exact other (Option.some.inj (named.symm.trans here))
  obtain ⟨s'', removed, sound', _, _, _, found'', others⟩ := inodeRemove_spec sound found' file unlinked
  refine ⟨s'', removed, sound', ?_, found'', others⟩
  have ran : s'.inodeRemove q = .ok { s'.setInode q (some { i with removed := true }) with
      events := .removed q i.sector i.data :: s'.events } := by
    simp only [FileSys.inodeRemove, inode_eq found', bind, Except.bind]
    rfl
  obtain ⟨device, same, grants⟩ : s''.device = s'.device ∧ s''.freeMap = s'.freeMap ∧
      s''.grants = s'.grants := by
    cases removed.symm.trans ran
    exact ⟨rfl, rfl, rfl⟩
  apply c.next (fun k => grants ▸ granted k) (same.trans map)
  · intro k alive
    rw [device]
    refine ⟨?_, written.others k (h.layout.inode_apart alive h.layout.root)⟩
    by_cases mine : k = i.sector
    · exact .inr (.inr (.inr ⟨q, _, found'', mine.symm⟩))
    · obtain map | root | link | ⟨x, j, was, sector⟩ := alive
      · exact .inl map
      · exact .inr (.inl root)
      · exact .inr (.inr (.inl (device ▸ left k link mine)))
      · refine .inr (.inr (.inr ⟨x, j, ?_, sector⟩))
        rw [others x, kept.inodes, was]
        rintro rfl
        cases was.symm.trans found
        exact mine sector.symm
  · intro r has
    rw [device]
    apply written.others r
    intro has'
    cases h.layout.data_apart (.inl rfl) h.layout.root has has'
  · intro x j now file flag
    by_cases same : x = q
    · subst same
      cases now.symm.trans found''
      cases flag
    · rw [others x same, kept.inodes] at now
      rw [device]
      refine left _ (c.named x j now file flag) fun sector => ?_
      exact same (h.unique x q j i now found sector)

theorem dirRemove (c : Clean extra s) (h : Sound s openers) (root : RootAt s p) {success : Bool}
    (ran : s.dirRemove p name = .ok (success, s')) : Clean extra s' := by
  obtain ⟨found, s₁, looked, asked, entry⟩ := lookupFrom_spec h root name (s.entryRounds p) 0
  have looked : s.lookup p name = .ok (found, s₁) := looked
  obtain ⟨_, _, looked', _, _, memory⟩ := lookup_named h root name
  cases looked.symm.trans looked'
  have clean₁ := c.asked asked (memory c.granted).1
  have sound₁ := asked.sound h
  simp only [FileSys.dirRemove, looked, bind, Except.bind] at ran
  cases found with
  | none =>
      cases ran
      exact clean₁
  | some hit =>
      obtain ⟨e, ofs⟩ := hit
      obtain ⟨j, here, rfl, named⟩ := entry e ofs rfl
      have linked : Linked s₁.device (entrySector e) := by
        rw [asked.device]
        exact ⟨j, here, named⟩
      have file := (sound₁.layout.linked _ linked).2
      obtain ⟨q, s₂, opened, sound₂, clean₂, device, _, stay, i, found, sector⟩ :=
        clean₁.openInode sound₁ (sound₁.layout.linked _ linked).1 fun _ => linked
      have root₂ := stay.rootAt (asked.toKept.rootAt root)
      obtain ⟨n, s₃, wrote, kept, map₃, size, whole, nothing⟩ :=
        writeEntry sound₂ root₂ (e.fill 19 1 0) j
      have granted₃ := (clean₂.granted.writeAt _ _ _ _).get wrote
      have other : i.sector ≠ freeMapSector := by
        rw [sector]
        exact Nat.ne_of_gt (Nat.lt_of_lt_of_le Nat.two_pos file)
      simp only [opened, wrote] at ran
      by_cases all : n = entrySize
      · obtain ⟨room, written⟩ := whole all
        have entry : slot (rootBytes s₂.device) j = some i.sector := by
          rw [device, asked.device, sector, named]
        obtain ⟨s₄, removed, sound₄, clean₄, found₄, _⟩ :=
          clean₂.unlink sound₂ found entry kept map₃ size granted₃ room written
        obtain ⟨s₅, closed, _, clean₅⟩ := clean₄.closeInode sound₄ found₄ other
        simp only [if_pos all, removed, closed] at ran
        cases ran
        exact clean₅
      · have asked₃ : Asked s₂ s₃ := ⟨kept, nothing all, map₃⟩
        have found₃ : s₃.inodes q = some i := by rw [kept.inodes, found]
        obtain ⟨s₄, closed, _, clean₄⟩ :=
          (clean₂.asked asked₃ granted₃).closeInode (asked₃.sound sound₂) found₃ other
        simp only [if_neg all, closed] at ran
        cases ran
        exact clean₄

theorem filesysRemove (c : Clean extra s) (h : Sound s openers) {success : Bool}
    (ran : s.filesysRemove name = .ok (success, s')) : Clean extra s' := by
  obtain ⟨p, s₁, opened, sound₁, root₁, clean₁, _⟩ := c.openRoot h
  obtain ⟨success', s₂, removed, sound₂, _, _, root₂⟩ := dirRemove_spec sound₁ root₁ name
  have clean₂ := clean₁.dirRemove sound₁ root₁ removed
  obtain ⟨s₃, closed, _, clean₃⟩ := clean₂.closeRoot sound₂ root₂
  simp only [FileSys.filesysRemove, opened, removed, closed, bind, Except.bind] at ran
  cases ran
  exact clean₃

end Remove

section Create
variable {length : Nat}

theorem settle (c : Clean extra s)
    (held : ∀ r, extra r → extra' r ∨ ∃ o, Holds s.device (Live s) o r) : Clean extra' s := by
  refine ⟨c.granted, fun r marked => ?_, c.named, c.length, c.saved⟩
  cases c.marks r marked with
  | inl aside => exact held r aside
  | inr used => exact .inr used

/-- `free_map_allocate` of a single sector sets it aside. -/
theorem reserve (c : Clean extra s) (h : Sound s openers) :
    ∃ sector s', s.freeMapAllocate 1 = .ok (sector, s') ∧ Kept s s' ∧ Sound s' openers ∧
      ∀ k, sector = some k → Reserved s' k ∧ 2 ≤ k ∧ Clean (fun r => r = k ∨ extra r) s' := by
  obtain ⟨f, ready, data⟩ := c.mapFits h
  obtain ⟨sector, s', ran, granted, effect⟩ := freeMapAllocate_granted c.granted ready 1
  obtain ⟨_, _, ran', kept, sound, _, reserved⟩ := FileSystem.reserve h
  cases ran.symm.trans ran'
  refine ⟨sector, s', ran, kept, sound, fun k same => ?_⟩
  cases same
  obtain ⟨reserved, _, file⟩ := reserved k rfl
  refine ⟨reserved, file, ?_⟩
  obtain ⟨touches, taken, saved⟩ := effect
  rw [data] at touches saved
  obtain ⟨_, links, holds⟩ := h.touchMap touches fun r marked => (taken.marks r).mpr (.inr marked)
  have first : Live s freeMapSector := .inl rfl
  have mapData : dataOf s'.device freeMapSector = dataOf s.device freeMapSector := by
    rw [dataOf, dataOf, touches.others _ (h.layout.inode_apart first first)]
  constructor
  case granted => exact granted
  case marks =>
    intro r marked
    cases (taken.marks r).mp marked with
    | inl run =>
        refine .inl (.inl ?_)
        have := run.1
        have := run.2
        omega
    | inr old =>
        refine (c.marks r old).imp .inr fun used => ?_
        obtain ⟨o, held⟩ := used
        exact ⟨o, (holds o r).mpr held⟩
  case named =>
    rw [kept.inodes]
    exact fun q j found file flag => (links _).mpr (c.named q j found file flag)
  case length => rw [mapData, touches.bits, c.length]
  case saved => rw [mapData]; exact saved

/-- `inode_create` sets the data of the new inode aside. -/
theorem inodeCreate (c : Clean (fun r => r = k ∨ extra r) s) (h : Sound s openers)
    (reserved : Reserved s k) (bound : length < 2 ^ 31)
    (ran : s.inodeCreate k length = .ok (true, s')) :
    Clean (fun r => (r = k ∨ (dataOf s'.device k).Has r) ∨ extra r) s' := by
  obtain ⟨f, ready, data⟩ := c.mapFits h
  obtain ⟨start, made⟩ := (inodeCreate_created (.inr ready.toMapReady) h.layout.size h.layout.device
    (fun _ => reserved.marked) bound).get ran rfl
  have made : Created s s' f.data k start length := made
  have first : Live s freeMapSector := .inl rfl
  have sectors (x : Nat) (alive : Live s x) : s'.device.sectors x = s.device.sectors x := by
    apply made.others x
    · rintro rfl
      exact reserved.unheld (.inode, x) ⟨alive, rfl⟩
    · exact fun run => made.taken.free x run (h.layout.holds_inode alive)
    · rw [data]
      exact h.layout.inode_apart alive first
  obtain ⟨_, _, links⟩ := linked_congr (sectors _ h.layout.root) fun r has => by
    apply made.others r
    · rintro rfl
      exact reserved.unheld (.data, rootDirSector) ⟨h.layout.root, has⟩
    · exact fun run => made.taken.free r run (h.layout.holds_data h.layout.root has)
    · rw [data]
      intro has'
      cases h.layout.data_apart first h.layout.root has' has
  have datas (x : Nat) (alive : Live s x) : dataOf s'.device x = dataOf s.device x := by
    rw [dataOf, dataOf, sectors x alive]
  constructor
  case granted => exact (c.granted.inodeCreate k length).get ran
  case marks =>
    intro r marked
    cases (made.taken.marks r).mp marked with
    | inl run =>
        refine .inl (.inl (.inr ?_))
        rw [made.data]
        exact run
    | inr old =>
        obtain (mine | aside) | ⟨o, held⟩ := c.marks r old
        · exact .inl (.inl (.inl mine))
        · exact .inl (.inr aside)
        · exact .inr ⟨o, held.mono ((made.toKept.live links _).mpr held.1) (datas _ held.1)⟩
  case named =>
    rw [made.inodes]
    exact fun q j found file flag => (links _).mpr (c.named q j found file flag)
  case length => rw [datas _ first, made.bits, c.length]
  case saved =>
    rw [datas _ first, ← data]
    obtain ⟨file, _, opens, _⟩ := h.mapFile
    apply made.saved
    · rw [opens]
      exact Option.some_ne_none file
    · intro r has
      rw [data] at has
      refine ⟨?_, h.layout.holds_data first has⟩
      rintro rfl
      exact reserved.unheld (.data, freeMapSector) ⟨first, has⟩
    · rw [data, c.length]

/-- `dir_add` puts the new inode behind a name. -/
theorem dirAdd (c : Clean (fun r => (r = k ∨ (dataOf s.device k).Has r) ∨ extra r) s)
    (h : Sound s openers) (root : RootAt s p) (reserved : Reserved s k)
    (spare : Spare s.device s.freeMap (Live s) k) (file : 2 ≤ k)
    (ran : s.dirAdd p name k = .ok (true, s')) : Clean extra s' := by
  rw [FileSys.dirAdd] at ran
  split at ran
  next => cases ran
  next valid =>
    have short : name.length ≤ nameMax := Nat.le_of_not_lt fun long => valid (.inr long)
    obtain ⟨i, dir, data⟩ := h.dirAt root
    obtain ⟨found, s₁, looked, asked, _, memory⟩ := lookup_named h root name
    simp only [looked, bind, Except.bind] at ran
    cases found with
    | some hit => cases ran
    | none =>
        have dir₁ := dir.asked asked
        obtain ⟨e, j, s₂, search, asked₂, granted₂, _, free, _⟩ := dir₁.freeSlotFrom
          (memory c.granted).1 (s₁.entryRounds p) 0 s₁.junk (by rw [dir₁.rounds]; omega) (Nat.zero_le _)
        have search : FileSys.freeSlotFrom p (s₁.entryRounds p) 0 s₁.junk s₁ = _ := search
        have both := asked.trans asked₂
        have sound := both.sound h
        have clean := c.asked both granted₂
        have spare := both.spare spare
        obtain ⟨n, s₃, wrote, kept, map, size, whole, _⟩ :=
          writeEntry sound (both.toKept.rootAt root) (fillEntry e name k) j
        have granted := (granted₂.writeAt _ _ _ _).get wrote
        simp only [search, wrote, pure, Except.pure] at ran
        obtain ⟨all, rfl⟩ := Prod.mk.inj (Except.ok.inj ran)
        obtain ⟨room, written⟩ := whole (eq_of_beq all)
        have bound : k < 2 ^ 32 := by
          have := Bitmap.lt_of_test reserved.marked
          have := h.layout.size
          have := h.layout.device
          omega
        have entry := @slot_fillEntry k e name short bound
        obtain ⟨_, links⟩ := sound.writeSlot kept map size room written fun k' named => by
          cases entry.symm.trans named
          exact ⟨file, spare⟩
        -- The slot was free, so no name is lost.
        have empty : slot (rootBytes s₂.device) j = none := by
          apply slot_of_free
          rw [rootBytes, both.device, ← data, ← asked.device]
          exact free (both.device ▸ room)
        have stays (x : Nat) (link : Linked s₂.device x) : Linked s₃.device x := by
          obtain ⟨j', room', named⟩ := link
          refine (links x).mpr (.inr ⟨j', room', ?_, named⟩)
          rintro rfl
          cases empty.symm.trans named
        have sectors (x : Nat) (alive : Live s₂ x) : s₃.device.sectors x = s₂.device.sectors x :=
          written.others x (sound.layout.inode_apart alive sound.layout.root)
        have clean₃ : Clean (fun r => (r = k ∨ (dataOf s.device k).Has r) ∨ extra r) s₃ := by
          apply clean.next granted map
          · intro x alive
            refine ⟨alive.imp_right fun rest => rest.imp_right fun rest => ?_, sectors x alive⟩
            refine rest.imp (stays x) fun opened => ?_
            rw [Opened, kept.inodes]
            exact opened
          · intro r has
            apply written.others r
            intro has'
            cases sound.layout.data_apart (.inl rfl) sound.layout.root has has'
          · rw [kept.inodes]
            exact fun q j found file flag => stays _ (clean.named q j found file flag)
        have alive : Live s₃ k := .inr (.inr (.inl ((links k).mpr (.inl entry))))
        have mine : dataOf s₃.device k = dataOf s.device k := by
          rw [dataOf, dataOf, ← both.device, written.others k]
          exact fun has => (both.reserved reserved).unheld (.data, rootDirSector)
            ⟨sound.layout.root, has⟩
        apply clean₃.settle
        intro r aside
        obtain (inode | has) | aside := aside
        · exact .inr ⟨(.inode, k), alive, inode⟩
        · refine .inr ⟨(.data, k), alive, ?_⟩
          rw [Has, mine]
          exact has
        · exact .inl aside

/-- `filesys_create`, if it succeeds. -/
theorem filesysCreate (c : Clean extra s) (h : Sound s openers) (bound : length < 2 ^ 31)
    (ran : s.filesysCreate name length = .ok (true, s')) : Clean extra s' := by
  obtain ⟨p, s₁, opened, sound₁, root₁, clean₁, _⟩ := c.openRoot h
  obtain ⟨sector, s₂, allocated, kept₂, sound₂, taken⟩ := clean₁.reserve sound₁
  have root₂ := kept₂.rootAt root₁
  simp only [FileSys.filesysCreate, opened, allocated, ok_bind] at ran
  cases sector with
  | none =>
      obtain ⟨s₃, _, ran⟩ := bind_eq_ok ran
      cases ran
  | some k =>
      obtain ⟨reserved, file, clean₂⟩ := taken k rfl
      obtain ⟨created, s₃, made, kept₃, sound₃, _, reserved₃, spare⟩ :=
        inodeCreate_spec sound₂ reserved bound
      have root₃ := kept₃.rootAt root₂
      simp only [made, ok_bind] at ran
      cases created with
      | false =>
          simp only [Bool.false_eq_true, if_false, pure, Except.pure, ok_bind] at ran
          split at ran
          next =>
            obtain ⟨_, _, ran⟩ := bind_eq_ok ran
            obtain ⟨_, _, ran⟩ := bind_eq_ok ran
            cases ran
          next =>
            obtain ⟨_, _, ran⟩ := bind_eq_ok ran
            cases ran
      | true =>
          obtain ⟨added, s₄, add, kept₄, sound₄, _⟩ :=
            dirAdd_spec sound₃ root₃ reserved₃ (spare rfl) file name
          have clean₃ := clean₂.inodeCreate sound₂ reserved bound made
          simp only [if_true, add, pure, Except.pure, ok_bind] at ran
          split at ran
          next failed =>
            obtain ⟨_, _, ran⟩ := bind_eq_ok ran
            obtain ⟨_, _, ran⟩ := bind_eq_ok ran
            cases ran
            exact absurd rfl failed.1
          next =>
            obtain ⟨s₅, closed, ran⟩ := bind_eq_ok ran
            cases ran
            have clean₄ := clean₃.dirAdd sound₃ root₃ reserved₃ (spare rfl) file add
            obtain ⟨s₅', closed', _, clean₅⟩ := clean₄.closeRoot sound₄ (kept₄.rootAt root₃)
            cases closed.symm.trans closed'
            exact clean₅

end Create
end Clean
end
end CS162.Pintos.FileSystem
