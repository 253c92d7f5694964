import CS162.Pintos.FileStore

/-!
What the calls of filesys.c do to the names and to the bytes of the files, while every
allocation succeeds: only the free map, the root directory and sectors that were free are
written, so that every file that lives keeps its bytes.
-/

namespace CS162.Pintos.FileSystem
open CS162.Library

section Memory
variable {s : FileSys}

theorem Granted.freeSlotFrom (h : Granted s) (dir : Nat) (rounds ofs : Nat) (e : Library.Memory) :
    Yields (fun r => Granted r.2.2) (FileSys.freeSlotFrom dir rounds ofs e s) := by
  induction rounds generalizing s ofs e with
  | zero => exact .ok h
  | succ rounds ih =>
      refine Ends.bind (h.readAt _ _ _ _) fun r h => ?_
      exact Ends.ite (fun _ => ih h _ _) fun _ => .ok h

theorem Granted.dirAdd (h : Granted s) (dir : Nat) (name : List UInt8) (sector : Nat) :
    Yields (fun r => Granted r.2) (s.dirAdd dir name sector) := by
  rw [FileSys.dirAdd]
  refine Ends.ite (fun _ => .ok h) fun _ => Ends.bind (h.lookupFrom _ _ _ _) fun r h => ?_
  obtain ⟨found, s⟩ := r
  cases found with
  | some hit => exact .ok h
  | none =>
      refine Ends.bind (h.freeSlotFrom _ _ _ _) fun r h => ?_
      exact Ends.bind (h.writeAt _ _ _ _) fun r h => .ok h

theorem Granted.dirRemove (h : Granted s) (dir : Nat) (name : List UInt8) :
    Yields (fun r => Granted r.2) (s.dirRemove dir name) := by
  refine Ends.bind (h.lookupFrom _ _ _ _) fun r h => ?_
  obtain ⟨found, s⟩ := r
  cases found with
  | none => exact .ok h
  | some hit =>
      refine Ends.bind (h.inodeOpen _) fun r h => ?_
      obtain ⟨p, s⟩ := r
      cases p with
      | none => exact .ok h
      | some p =>
          refine Ends.bind (h.writeAt _ _ _ _) fun r h => Ends.ite (fun _ => ?_) fun _ => ?_
          · apply Ends.bind (Q := Granted)
            · exact Ends.bind (h.inode p) fun i _ => .ok h
            · exact fun s h => Ends.bind (h.inodeClose _) fun s h => .ok h
          · exact Ends.bind (h.inodeClose _) fun s h => .ok h

theorem Granted.filesysCreate (h : Granted s) (name : List UInt8) (initialSize : Nat) :
    Yields (fun r => Granted r.2) (s.filesysCreate name initialSize) := by
  apply Yields.of_ok
  rintro ⟨created, s'⟩ ran
  obtain ⟨opened, _⟩ | ⟨p, s₁, s₂, opened, allocated, closed, _⟩ |
    ⟨p, s₁, k, s₂, made, s₃, s₄, s₅, opened, allocated, inode, add, left, closed⟩ := filesysCreate_cases ran
  · exact h.dirOpenRoot.get opened
  · have h₁ := h.dirOpenRoot.get opened
    have h₂ := (h₁.freeMapAllocate 1).get allocated
    exact (h₂.inodeClose _).get closed
  · have h₁ := h.dirOpenRoot.get opened
    have h₂ := (h₁.freeMapAllocate 1).get allocated
    have h₃ := (h₂.inodeCreate _ _).get inode
    have h₄ : Granted s₄ := by
      split at add
      next => exact (h₃.dirAdd _ _ _).get add
      next =>
        cases add
        exact h₃
    have h₅ : Granted s₅ := by
      split at left
      next => exact (h₄.freeMapRelease _ _).get left
      next =>
        cases left
        exact h₄
    exact (h₅.inodeClose _).get closed

theorem Granted.filesysRemove (h : Granted s) (name : List UInt8) :
    Yields (fun r => Granted r.2) (s.filesysRemove name) := by
  refine Ends.bind h.dirOpenRoot fun r h => ?_
  obtain ⟨dir, s⟩ := r
  cases dir with
  | none => exact .ok h
  | some dir =>
      refine Ends.bind (h.dirRemove dir name) fun r h => ?_
      exact Ends.bind (h.inodeClose _) fun s h => .ok h

end Memory

section Bytes
variable {s s' : FileSys} {openers : List Nat} {k pos size : Nat} {d d' : Disk} {data : InodeDisk}
  {buffer : Library.Memory}

theorem length_contentsAt (d : Disk) (k : Nat) : (contentsAt d k).length = (dataOf d k).length :=
  Memory.readBytes_length

theorem contentsAt_congr (inode : d'.sectors k = d.sectors k)
    (data : ∀ r, (dataOf d k).Has r → d'.sectors r = d.sectors r) : contentsAt d' k = contentsAt d k := by
  have same : dataOf d' k = dataOf d k := by rw [dataOf, dataOf, inode]
  rw [contentsAt, contentsAt, same]
  refine Memory.readBytes_congr fun x _ inside => ?_
  exact fileBytes_congr data (by omega)

/-- Of the sectors in use, only those of `X` may change. -/
def Spared (X : Nat → Prop) (s s' : FileSys) : Prop :=
  ∀ r, Marked s.freeMap r → ¬ X r → s'.device.sectors r = s.device.sectors r

/-- The sectors of the file of the free map and of the root directory. -/
def Meta (d : Disk) (r : Nat) : Prop := (dataOf d freeMapSector).Has r ∨ (dataOf d rootDirSector).Has r

theorem Spared.of_device (X : Nat → Prop) (same : s'.device = s.device) : Spared X s s' :=
  fun _ _ _ => by rw [same]

theorem Spared.inode {X : Nat → Prop} (h : Spared X s s') (sound : Sound s openers) (alive : Live s k)
    (apart : ¬ X k) : s'.device.sectors k = s.device.sectors k :=
  h k (sound.layout.holds_inode alive) apart

theorem Spared.contents {X : Nat → Prop} (h : Spared X s s') (sound : Sound s openers) (alive : Live s k)
    (apart : ¬ X k) (others : ∀ r, (dataOf s.device k).Has r → ¬ X r) :
    contentsAt s'.device k = contentsAt s.device k :=
  contentsAt_congr (h.inode sound alive apart) fun r has => h r (sound.layout.holds_data alive has) (others r has)

theorem meta_inode (sound : Sound s openers) (alive : Live s k) : ¬ Meta s.device k := by
  rintro (map | root)
  · exact sound.layout.inode_apart alive sound.layout.freeMap map
  · exact sound.layout.inode_apart alive sound.layout.root root

theorem meta_data (sound : Sound s openers) (alive : Live s k) (file : 2 ≤ k) {r : Nat}
    (has : (dataOf s.device k).Has r) : ¬ Meta s.device r := by
  rintro (map | root)
  · have same := sound.layout.data_apart alive sound.layout.freeMap has map
    rw [same] at file
    exact absurd file (by decide)
  · have same := sound.layout.data_apart alive sound.layout.root has root
    rw [same] at file
    exact absurd file (by decide)

theorem Spared.file (h : Spared (Meta s.device) s s') (sound : Sound s openers) (alive : Live s k)
    (file : 2 ≤ k) : contentsAt s'.device k = contentsAt s.device k :=
  h.contents sound alive (meta_inode sound alive) fun _ => meta_data sound alive file

theorem SameUsed.spared (h : SameUsed s s') : Spared (Meta s.device) s s' :=
  fun r marked outside => h r marked fun map => outside (.inl map)

theorem Spared.directory {X : Nat → Prop} (h : Spared X s s') (sound : Sound s openers) (root : ¬ X rootDirSector)
    (apart : ∀ r, (dataOf s.device rootDirSector).Has r → ¬ X r) :
    fileNamed s'.device = fileNamed s.device ∧
      (SlotTable.Distinct (entry (rootBytes s.device)) (slotCount s.device) →
        SlotTable.Distinct (entry (rootBytes s'.device)) (slotCount s'.device)) := by
  have layout := sound.layout
  have inode := h.inode sound layout.root root
  have dir (r : Nat) (has : (dataOf s.device rootDirSector).Has r) : s'.device.sectors r = s.device.sectors r :=
    h r (layout.holds_data layout.root has) (apart r has)
  obtain ⟨count, _⟩ := linked_congr inode dir
  have entries (j : Nat) (inside : j < slotCount s.device) :
      entry (rootBytes s'.device) j = entry (rootBytes s.device) j := by
    have whole := layout.whole
    have same : dataOf s'.device rootDirSector = dataOf s.device rootDirSector := by rw [dataOf, dataOf, inode]
    rw [rootBytes, same]
    apply entry_congr
    intro x lower upper
    apply fileBytes_congr dir
    simp only [slotCount, entrySize] at *
    omega
  rw [count]
  refine ⟨?_, fun distinct => distinct.congr entries⟩
  funext name
  rw [fileNamed, count, SlotTable.toMap_congr entries, fileNamed]

theorem SameUsed.directory_spared (h : SameUsed s s') (sound : Sound s openers) :
    fileNamed s'.device = fileNamed s.device ∧
      (SlotTable.Distinct (entry (rootBytes s.device)) (slotCount s.device) →
        SlotTable.Distinct (entry (rootBytes s'.device)) (slotCount s'.device)) := by
  have layout := sound.layout
  refine Spared.directory (X := (dataOf s.device freeMapSector).Has) h sound
    (layout.inode_apart layout.root layout.freeMap) fun r root map => ?_
  exact absurd (layout.data_apart layout.root layout.freeMap root map) (by decide)

theorem slice_readBytes (m : Library.Memory) (n pos size : Nat) :
    slice (m.readBytes 0 n) pos size = m.readBytes pos (min size (n - pos)) := by
  apply List.ext_getElem
  · simp only [slice, List.length_take, List.length_drop, Memory.readBytes_length]
  · intro i inside _
    simp only [slice, List.getElem_take, List.getElem_drop, Memory.getElem_readBytes, Nat.zero_add]

theorem splice_readBytes (m buffer : Library.Memory) {n pos size : Nat} (fits : size = 0 ∨ pos + size ≤ n) :
    (m.copy pos buffer 0 size).readBytes 0 n = splice (m.readBytes 0 n) (buffer.readBytes 0 size) pos := by
  apply List.ext_getElem
  · simp only [splice, List.length_append, List.length_take, List.length_drop, Memory.readBytes_length]
    omega
  · intro i inside _
    rw [Memory.readBytes_length] at inside
    simp only [splice, Memory.getElem_readBytes, List.getElem_append, List.length_append, List.length_take,
      List.getElem_take, List.getElem_drop, Memory.readBytes_length, Nat.zero_add, Memory.copy]
    split
    next here =>
      rw [dif_pos (by omega), dif_neg (by omega)]
      congr 1
      omega
    next outside =>
      split
      next below =>
        split
        next first => rfl
        next second => omega
      next above =>
        congr 1
        omega

theorem writeBytes_slice (m : Library.Memory) (n pos size : Nat) :
    buffer.writeBytes 0 (slice (m.readBytes 0 n) pos size) = buffer.copy 0 m pos (min size (n - pos)) := by
  rw [slice_readBytes]
  funext x
  rw [Memory.writeBytes, if_pos (Nat.zero_le x), Nat.sub_zero, Memory.copy]
  split
  next inside =>
    rw [List.getD_eq_getElem?_getD, Memory.getElem?_readBytes (by omega), Option.getD_some, Nat.sub_zero]
  next outside =>
    have behind : (m.readBytes pos (min size (n - pos))).length ≤ x := by
      rw [Memory.readBytes_length]
      omega
    rw [List.getD_eq_getElem?_getD, List.getElem?_eq_none behind, Option.getD_none]

theorem contentsAt_written {offset : Nat} (sound : Sound s openers) (alive : Live s k)
    (written : Written s.device (dataOf s.device k) buffer offset (bytesLeft (dataOf s.device k) size offset) d') :
    contentsAt d' k = splice (contentsAt s.device k)
      (buffer.readBytes 0 (bytesLeft (dataOf s.device k) size offset)) offset := by
  have same : dataOf d' k = dataOf s.device k := by
    rw [dataOf, dataOf, written.others k (sound.layout.inode_apart alive alive)]
  rw [contentsAt, same, written.bytes, splice_readBytes, contentsAt]
  rw [bytesLeft]
  omega

theorem Spared.of_written {data : InodeDisk} {offset n : Nat} (written : Written s.device data buffer offset n d')
    (device : s'.device = d') : Spared data.Has s s' := by
  intro r _ outside
  rw [device, written.others r outside]

end Bytes

section Directory
variable {s s' : FileSys} {openers : List Nat} {p : Nat} {name : List UInt8} {initialSize : Nat}
  {grants : Nat → Bool} {t : Nat → Option (List UInt8 × Nat)} {n : Nat} {d : Disk}

theorem finds_granted (all : ∀ k, grants k = true) :
    Finds grants t n name ↔ SlotTable.toMap t n name ≠ none := by
  obtain ⟨hit, reach⟩ := @SlotTable.stop_of_readable _ (fun l => isNamed name (t l)) n 0 all
  rw [Nat.zero_add] at hit reach
  rw [Finds, and_iff_left (all _), ne_eq, SlotTable.toMap_eq_none]
  constructor
  · intro inside none
    have here := hit inside
    obtain ⟨b, same, named⟩ := (Option.any_eq_true ..).mp here
    exact none _ inside b.2 (same.trans (by rw [← of_decide_eq_true named]))
  · intro some
    by_contra outside
    refine some fun j inside v here => outside (reach j (Nat.zero_le j) inside ?_)
    simp [isNamed, here]

theorem writes_granted (all : ∀ k, grants k = true) :
    (Writes grants t n name ↔ ∃ j < n, t j = none) ∧
      (Writes grants t n name → t (slotStop grants t n name) = none) := by
  obtain ⟨hit, reach⟩ := @SlotTable.stop_of_readable _ (fun l => (t l).isNone) n 0
    fun l => all (l + (nameStop grants t n name + 1))
  rw [Nat.zero_add] at hit reach
  have free (writes : Writes grants t n name) : t (slotStop grants t n name) = none :=
    Option.isNone_iff_eq_none.mp (hit writes.1)
  refine ⟨⟨fun writes => ⟨_, writes.1, free writes⟩, fun some => ?_⟩, free⟩
  obtain ⟨j, inside, none⟩ := some
  exact ⟨reach j (Nat.zero_le j) inside (Option.isNone_iff_eq_none.mpr none), all _⟩

theorem addSafe_granted (all : ∀ k, grants k = true) : AddSafe grants t n name := by
  by_cases bound : SlotTable.toMap t n name = none
  · by_cases writes : Writes grants t n name
    · exact .inr (.inr (.inr ⟨(writes_granted all).2 writes, bound⟩))
    · exact .inr (.inr (.inl writes))
  · exact .inr (.inl ((finds_granted all).mpr bound))

theorem contentsAt_created {map : InodeDisk} {k start : Nat} (c : Created s s' map k start initialSize) :
    contentsAt s'.device k = List.replicate initialSize 0 := by
  rw [contentsAt, c.data]
  apply List.ext_getElem
  · rw [Memory.readBytes_length, List.length_replicate]
  · intro i inside _
    rw [Memory.readBytes_length] at inside
    have has : InRun start (bytesToSectors initialSize) (start + i / sectorSize) :=
      @has_pos ⟨start, initialSize⟩ _ inside
    rw [Memory.getElem_readBytes, List.getElem_replicate, Nat.zero_add, fileBytes, c.zeros _ has]

/-- What a `filesys_create` that succeeds has done: the name was free, and now it stands for an
inode at a sector that was free. -/
structure Creates (s s' : FileSys) (name : List UInt8) (initialSize k : Nat) : Prop where
  valid : ValidName name
  unbound : fileNamed s.device name = none
  free : ¬ Marked s.freeMap k
  file : 2 ≤ k
  distinct : SlotTable.Distinct (entry (rootBytes s'.device)) (slotCount s'.device)
  names : fileNamed s'.device = Function.update (fileNamed s.device) name (some k)
  zeros : contentsAt s'.device k = List.replicate initialSize 0
  spared : Spared (Meta s.device) s s'

theorem filesysCreate_creates (h : Sound s openers) (granted : Granted s)
    (distinct : SlotTable.Distinct (entry (rootBytes s.device)) (slotCount s.device))
    (text : (0 : UInt8) ∉ name) (bound : initialSize < 2 ^ 31)
    (ran : s.filesysCreate name initialSize = .ok (true, s')) : ∃ k, Creates s s' name initialSize k := by
  obtain ⟨dir, s₁, opened, _, map₁, device₁, _, sound₁⟩ := dirOpenRoot_spec h
  obtain ⟨dir', s₁', opened', _, grants₁⟩ := dirOpenRoot_exact h
  cases opened.symm.trans opened'
  obtain ⟨_, no⟩ | ⟨_, _, _, _, _, _, no⟩ | ⟨p, t, k, s₂, made, s₃, s₄, s₅, again, allocated, inode, add,
    left, closed⟩ := filesysCreate_cases ran
  · cases no
  · cases no
  cases opened.symm.trans again
  obtain ⟨sound₁, root₁⟩ := sound₁
  obtain ⟨sector, s₂', allocated', kept₂, sound₂, _, reserved⟩ := reserve sound₁
  cases allocated.symm.trans allocated'
  obtain ⟨sector, s₂', allocated', same₂, size₂, taken, _⟩ :=
    reserve_exact h sound₁ map₁ device₁ (grants₁ (Option.some_ne_none p))
  cases allocated.symm.trans allocated'
  obtain ⟨reserved, _, file⟩ := reserved k rfl
  have taken : Taken s.freeMap s₂.freeMap k 1 := taken
  cases made with
  | false => cases add
  | true =>
      have add : s₃.dirAdd p name k = .ok (true, s₄) := add
      obtain ⟨_, s₃', inode', kept₃, sound₃, _, reserved₃, spare⟩ := inodeCreate_spec sound₂ reserved bound
      cases inode.symm.trans inode'
      obtain ⟨f, ready, data⟩ := sound₂.mapReady
      obtain ⟨start, c⟩ := (inodeCreate_created (.inr ready) sound₂.layout.size sound₂.layout.device
        (fun _ => reserved.marked) bound).get inode rfl
      rw [data] at c
      have same₃ := same₂.create h taken c
      have root₃ := kept₃.rootAt (kept₂.rootAt root₁)
      have granted₃ : Granted s₃ := by
        have granted₁ := granted.dirOpenRoot.get opened
        have granted₂ := (granted₁.freeMapAllocate 1).get allocated
        exact (granted₂.inodeCreate _ _).get inode
      have below : k < 2 ^ 32 := by
        have := Bitmap.lt_of_test reserved.marked
        have := sound₂.layout.size
        have := sound₂.layout.device
        omega
      -- The entry is the only change to the directory.
      obtain ⟨added, s₄', add', survives⟩ :=
        add_survives_iff sound₃ root₃ ((same₃.directory_spared h).2 distinct) ⟨text, below⟩
      cases add.symm.trans add'
      obtain ⟨distinct₄, unbound, names⟩ := survives.mpr (addSafe_granted granted₃)
      obtain ⟨i, dir, slots⟩ := sound₃.dirAt root₃
      obtain ⟨added, s₄', add', success, _, _, others⟩ := dir.dirAdd_exact below
      cases add.symm.trans add'
      rw [slots, same₃.dataOf_eq h h.layout.root] at others
      obtain ⟨_, s₄', add', kept₄, sound₄, _⟩ := dirAdd_spec sound₃ root₃ reserved₃ (spare rfl) file name
      cases add.symm.trans add'
      have same₅ : s₅ = s₄ := by
        rw [if_neg (by simp)] at left
        exact (Except.ok.inj left).symm
      subst same₅
      obtain ⟨s₆, closed', _, _, _, device₆, _⟩ := dirClose_spec sound₄ (kept₄.rootAt root₃)
      cases closed.symm.trans closed'
      rw [(same₃.directory_spared h).1] at unbound names
      have free : ¬ Marked s.freeMap k := taken.free k ⟨Nat.le_refl k, Nat.lt_succ_self k⟩
      have apart {r : Nat} (here : (dataOf s.device rootDirSector).Has r) : Marked s.freeMap r :=
        h.layout.holds_data h.layout.root here
      refine ⟨k, (success.mp rfl).1, unbound, free, file, by rwa [device₆], by rwa [device₆], ?_, ?_⟩
      · rw [device₆, ← contentsAt_created c]
        refine contentsAt_congr (others k fun here => free (apart here)) fun r has => others r fun here => ?_
        rw [c.data] at has
        exact c.taken.free r has ((taken.marks r).mpr (.inr (apart here)))
      · intro r marked outside
        rw [device₆, others r fun root => outside (.inr root)]
        exact same₃ r marked fun map => outside (.inl map)

theorem dirOpenRoot_granted (h : Sound s openers) (granted : Granted s) :
    ∃ p s', s.dirOpenRoot = .ok (some p, s') ∧ s'.device = s.device ∧ Sound s' (p :: openers) ∧ RootAt s' p ∧
      Granted s' := by
  obtain ⟨dir, s', opened, _, _, device, _, sound⟩ := dirOpenRoot_spec h
  obtain ⟨dir', s'', opened', opens, _⟩ := dirOpenRoot_exact h
  cases opened.symm.trans opened'
  cases dir with
  | none => exact absurd rfl (opens.mpr ⟨.inr (granted _), granted _⟩)
  | some p => exact ⟨p, s', opened, device, sound.1, sound.2, granted.dirOpenRoot.get opened⟩

/-- `filesys_open` of a name that is not bound leaves the disk. -/
theorem filesysOpen_unbound (h : Sound s openers) (granted : Granted s)
    (unbound : fileNamed s.device name = none) :
    ∃ s', s.filesysOpen name = .ok (none, s') ∧ s'.device = s.device := by
  obtain ⟨p, s₁, opened, device₁, sound₁, root₁, _⟩ := dirOpenRoot_granted h granted
  obtain ⟨found, s₂, looked, asked, hit, _⟩ := lookup_named sound₁ root₁ name
  rw [device₁, unbound] at hit
  cases found with
  | some place => cases hit place.1 place.2 rfl
  | none =>
      obtain ⟨s₃, closed, _, _, _, device₃, _⟩ := dirClose_spec (asked.sound sound₁) (asked.toKept.rootAt root₁)
      refine ⟨s₃.malloc.2, ?_, device₃.trans (asked.device.trans device₁)⟩
      simp only [FileSys.filesysOpen, opened, bind, Except.bind, FileSys.dirLookup, looked, pure, Except.pure,
        closed, FileSys.fileOpen]
      rfl

/-- With memory `dir_remove` removes whatever has a name. -/
theorem dirRemove_granted (h : Sound s openers) (root : RootAt s p) (granted : Granted s)
    (named : fileNamed s.device name ≠ none) : ∃ s', s.dirRemove p name = .ok (true, s') := by
  obtain ⟨removed, s', ran, _⟩ := dirRemove_spec h root name
  obtain ⟨i, dir, data⟩ := h.dirAt root
  obtain ⟨found, s₁, looked, asked, memory, hit, miss⟩ := dir.lookupFrom name (s.entryRounds p) 0
  have looked : s.lookup p name = .ok (found, s₁) := looked
  have granted₁ := memory granted
  have computed := ran
  simp only [FileSys.dirRemove, looked, bind, Except.bind] at computed
  cases found with
  | none =>
      refine absurd (SlotTable.toMap_eq_none.mpr fun j inside => ?_) named
      rw [data] at miss
      exact miss granted (by rw [dir.rounds]; omega) rfl j (Nat.zero_le j) inside
  | some place =>
      obtain ⟨e, ofs⟩ := place
      obtain ⟨j, inside, rfl, named, here, _⟩ := hit e ofs rfl
      rw [data] at here
      have here : entry (rootBytes s.device) j = some (name, entrySector e) := here.trans named
      have alive := (asked.live _).mpr (h.layout.linked _ ⟨j, inside, slot_of_entry here⟩).1
      have sound₁ := asked.sound h
      obtain ⟨q, _, s₂, opened, _, granted₂, _⟩ :=
        sound₁.table.openGranted granted₁ (sound₁.layout.lt_size alive)
      obtain ⟨_, s₂', opened', device, _, _, _, stay, sound₂⟩ := inodeOpen_spec sound₁ alive
      cases opened.symm.trans opened'
      obtain ⟨sound₂, i₂, found, _⟩ := sound₂
      obtain ⟨i', dir₂, data₂⟩ := sound₂.dirAt (stay.rootAt (asked.toKept.rootAt root))
      rw [device, asked.device] at dir₂
      obtain ⟨n, s₃, wrote, kept, _, _, _, _, full, _⟩ := dir₂.write (e.fill 19 1 0) j
      have whole : n = entrySize := full.mpr ⟨inside, granted₂ 0⟩
      have found₃ : s₃.inodes q = some i₂ := by rw [kept.inodes, found]
      simp only [opened, wrote, if_pos whole, FileSys.inodeRemove, inode_eq found₃, bind, Except.bind] at computed
      obtain ⟨s₄, closed, computed⟩ := bind_eq_ok computed
      cases computed
      exact ⟨_, ran⟩

/-- With memory `filesys_remove` unbinds a name that is bound, and leaves the files. -/
theorem filesysRemove_granted (h : Sound s openers) (granted : Granted s)
    (distinct : SlotTable.Distinct (entry (rootBytes s.device)) (slotCount s.device)) :
    ∃ removed s', s.filesysRemove name = .ok (removed, s') ∧
      (removed = true ↔ fileNamed s.device name ≠ none) ∧
      SlotTable.Distinct (entry (rootBytes s'.device)) (slotCount s'.device) ∧
      fileNamed s'.device = Function.update (fileNamed s.device) name none ∧ Spared (Meta s.device) s s' := by
  obtain ⟨p, s₁, opened, device₁, sound₁, root₁, granted₁⟩ := dirOpenRoot_granted h granted
  rw [← device₁] at distinct
  obtain ⟨removed, s₂, ran, distinct₂, names⟩ := remove_survives sound₁ root₁ distinct name
  obtain ⟨removed', s₂', d, ran', dir, rest, _⟩ := dirRemove_exact sound₁ root₁ name
  cases ran.symm.trans ran'
  obtain ⟨removed', s₂', ran', sound₂, _, _, root₂⟩ := dirRemove_spec sound₁ root₁ name
  cases ran.symm.trans ran'
  obtain ⟨s₃, closed, _, _, _, device₃, _⟩ := dirClose_spec sound₂ root₂
  rw [device₁] at names dir rest
  refine ⟨removed, s₃, ?_, ?_, device₃ ▸ distinct₂, ?_, fun r _ outside => ?_⟩
  · simp only [FileSys.filesysRemove, opened, bind, Except.bind, ran, closed]
    rfl
  · constructor
    · intro done
      rw [done] at names
      exact names.1
    · intro named
      obtain ⟨_, ran'⟩ := dirRemove_granted sound₁ root₁ granted₁ (device₁ ▸ named)
      cases ran.symm.trans ran'
      rfl
  · rw [device₃]
    cases removed with
    | true => exact names.2
    | false =>
        have same : fileNamed s₂.device = fileNamed s.device := names
        have unbound : fileNamed s.device name = none := by
          by_contra named
          obtain ⟨_, ran'⟩ := dirRemove_granted sound₁ root₁ granted₁ (device₁ ▸ named)
          cases ran.symm.trans ran'
        rw [same, ← unbound, Function.update_eq_self]
  · rw [device₃, rest r fun map => outside (.inl map), dir r fun root => outside (.inr root)]

end Directory

end CS162.Pintos.FileSystem
