import CS162.Pintos.DirectorySlots
import CS162.Pintos.FileSystemFormat
import CS162.Pintos.InodesGranted

/-!
The files of the root directory by their names, while memory is granted. The calls leave a state
in which the next allocations succeed too, from `filesys_init` on. `filesys_open` opens the inode
that the first entry of the name stands for; with memory it fails for no name that has one.
-/

namespace CS162.Pintos.FileSystem
open CS162.Library

section Memory
variable {s : FileSys} {α : Type}

theorem Granted.malloc_eq (h : Granted s) : s.malloc = (true, s.malloc.2) := Prod.ext h.first rfl

theorem Granted.onDevice (h : Granted s) (x : Except Fault α) :
    Yields (fun _ => Granted s) (onDevice x) := .of_ok fun _ _ => h

theorem Granted.inode (h : Granted s) (p : Nat) : Yields (fun _ => Granted s) (s.inode p) :=
  .of_ok fun _ _ => h

theorem Granted.writeAt (h : Granted s) (p : Nat) (buffer : Library.Memory) (size offset : Nat) :
    Yields (fun r => Granted r.2) (s.writeAt p buffer size offset) := by
  refine Ends.bind (h.inode p) fun i _ => Ends.bind (h.malloc.onDevice _) fun r _ => ?_
  exact .ok h.malloc

theorem Granted.readAt (h : Granted s) (p : Nat) (buffer : Library.Memory) (size offset : Nat) :
    Yields (fun r => Granted r.2.2) (s.readAt p buffer size offset) := by
  refine Ends.bind (h.inode p) fun i _ => Ends.bind (h.malloc.onDevice _) fun r _ => ?_
  exact .ok h.malloc

theorem Granted.bitmapWrite (h : Granted s) (file : File) :
    Yields (fun r => Granted r.2) (s.bitmapWrite file) :=
  Ends.bind (h.writeAt _ _ _ _) fun _ h => .ok h

theorem Granted.bitmapRead (h : Granted s) (file : File) :
    Yields (fun r => Granted r.2) (s.bitmapRead file) :=
  Ends.bind (h.readAt _ _ _ _) fun _ h => .ok h

theorem Granted.freeMapAllocate (h : Granted s) (cnt : Nat) :
    Yields (fun r => Granted r.2) (s.freeMapAllocate cnt) := by
  rw [FileSys.freeMapAllocate]
  split
  next => exact .error trivial
  next => exact .ok h
  next sector map _ =>
    have h : Granted { s with freeMap := map } := h
    dsimp only
    split
    next => exact .ok h
    next file _ =>
      refine Ends.bind (h.bitmapWrite file) fun r h => ?_
      refine Ends.ite (fun _ => .ok h) fun _ => ?_
      split
      next => exact .error trivial
      next => exact .ok h

theorem Granted.freeMapRelease (h : Granted s) (sector cnt : Nat) :
    Yields Granted (s.freeMapRelease sector cnt) := by
  rw [FileSys.freeMapRelease]
  refine Ends.ite (fun _ => ?_) fun _ => .error trivial
  split
  next map file _ _ =>
    have h : Granted { s with freeMap := map } := h
    exact Ends.bind (h.bitmapWrite file) fun _ h => .ok h
  next => exact .error trivial
  next => exact .error trivial

theorem Granted.inodeCreate (h : Granted s) (sector length : Nat) :
    Yields (fun r => Granted r.2) (s.inodeCreate sector length) := by
  rw [FileSys.inodeCreate, h.malloc_eq]
  refine Ends.bind (h.malloc.freeMapAllocate _) fun r h => ?_
  obtain ⟨start, s⟩ := r
  cases start with
  | none => exact .ok h
  | some start =>
      refine Ends.bind (h.onDevice _) fun d _ => Ends.bind (h.onDevice _) fun d _ => ?_
      exact .ok h

theorem Granted.inodeOpen (h : Granted s) (sector : Nat) :
    Yields (fun r => Granted r.2) (s.inodeOpen sector) := by
  rw [FileSys.inodeOpen]
  split
  next => exact .ok h
  next =>
    rw [h.malloc_eq]
    exact Ends.bind (h.malloc.onDevice _) fun _ _ => .ok h.malloc

theorem Granted.inodeClose (h : Granted s) (p : Option Nat) :
    Yields Granted (s.inodeClose p) := by
  cases p with
  | none => exact .ok h
  | some p =>
      refine Ends.bind (h.inode p) fun i _ => ?_
      refine Ends.ite (fun _ => Ends.ite (fun _ => ?_) fun _ => .ok h) fun _ => .ok h
      apply Ends.bind (Q := Granted)
      · apply Granted.freeMapRelease
        exact h
      · intro s h
        exact Ends.bind (h.freeMapRelease _ _) fun s h => .ok h

theorem Granted.fileOpen (h : Granted s) (p : Option Nat) :
    Yields (fun r => Granted r.2) (s.fileOpen p) := by
  rw [FileSys.fileOpen, h.malloc_eq]
  cases p with
  | none => exact .ok h.malloc
  | some p => exact .ok h.malloc

theorem Granted.openFreeMapFile (h : Granted s) :
    Yields (fun r => Granted r.2) s.openFreeMapFile := by
  refine Ends.bind (h.inodeOpen _) fun r h => Ends.bind (h.fileOpen _) fun r h => ?_
  obtain ⟨file, s⟩ := r
  cases file with
  | none => exact .error trivial
  | some file => exact .ok h

theorem Granted.freeMapOpen (h : Granted s) : Yields Granted s.freeMapOpen :=
  Ends.bind h.openFreeMapFile fun r h => Ends.bind (h.bitmapRead r.1) fun _ h =>
    Ends.ite (fun _ => .ok h) fun _ => .error trivial

theorem Granted.freeMapCreate (h : Granted s) : Yields Granted s.freeMapCreate := by
  refine Ends.bind (h.inodeCreate _ _) fun r h => Ends.ite (fun _ => ?_) fun _ => .error trivial
  exact Ends.bind h.openFreeMapFile fun r h => Ends.bind (h.bitmapWrite r.1) fun _ h =>
    Ends.ite (fun _ => .ok h) fun _ => .error trivial

theorem Granted.doFormat (h : Granted s) : Yields Granted s.doFormat :=
  Ends.bind h.freeMapCreate fun _ h => Ends.bind (h.inodeCreate _ _) fun _ h =>
    Ends.ite (fun _ => h.inodeClose _) fun _ => .error trivial

theorem Granted.dirOpenRoot (h : Granted s) : Yields (fun r => Granted r.2) s.dirOpenRoot := by
  refine Ends.bind (h.inodeOpen _) fun r h => ?_
  obtain ⟨p, s⟩ := r
  show Yields _ (s.dirOpen p)
  rw [FileSys.dirOpen, h.malloc_eq]
  cases p with
  | none => exact .ok h.malloc
  | some p => exact .ok h.malloc

theorem Granted.lookupFrom (h : Granted s) (dir : Nat) (name : List UInt8) (rounds ofs : Nat) :
    Yields (fun r => Granted r.2) (FileSys.lookupFrom dir name rounds ofs s) := by
  induction rounds generalizing s ofs with
  | zero => exact .ok h
  | succ rounds ih =>
      refine Ends.bind (h.readAt _ _ _ _) fun r h => ?_
      refine Ends.ite (fun _ => Ends.ite (fun _ => .ok h) fun _ => ih h _) fun _ => .ok h

theorem Granted.filesysOpen (h : Granted s) (name : List UInt8) :
    Yields (fun r => Granted r.2) (s.filesysOpen name) := by
  refine Ends.bind h.dirOpenRoot fun r h => ?_
  obtain ⟨dir, s⟩ := r
  cases dir with
  | none => exact h.fileOpen none
  | some dir =>
      apply Ends.bind (Q := fun r => Granted r.2)
      · refine Ends.bind (h.lookupFrom dir name _ 0) fun r h => ?_
        obtain ⟨found, s⟩ := r
        cases found with
        | none => exact .ok h
        | some hit => exact h.inodeOpen _
      · intro r h
        exact Ends.bind (h.inodeClose _) fun s h => h.fileOpen _

theorem filesysInit_granted {format : Bool} {d : Disk} {grants : Nat → Bool}
    {junk : Library.Memory} (all : ∀ k, grants k = true) :
    Yields Granted (filesysInit format d grants junk) := by
  rw [filesysInit]
  have init : Yields Granted
      (FileSys.freeMapInit ⟨d, ⟨[]⟩, none, fun _ => none, [], 0, grants, junk, []⟩) :=
    Ends.ite (fun _ => .ok fun k => all (k + 2)) fun _ => .error trivial
  refine Ends.bind init fun s h => ?_
  cases format with
  | false => exact h.freeMapOpen
  | true => exact Ends.bind h.doFormat fun _ h => h.freeMapOpen

end Memory

/-- The sector that the root directory gives for a name. -/
def fileNamed (d : Disk) (name : List UInt8) : Option Nat :=
  SlotTable.toMap (entry (rootBytes d)) (slotCount d) name

section
variable {s s' : FileSys} {openers : List Nat} {p k j : Nat} {name : List UInt8}

theorem slot_of_entry {m : Library.Memory} (here : entry m j = some (name, k)) : slot m j = some k := by
  rw [entry, entryOf] at here
  split at here
  next used =>
    have flag : m (entrySize * j + 19) ≠ 0 := by simpa [inUse] using used
    cases here
    rw [slot, if_neg flag]
    rfl
  next => cases here

theorem slot_of_free {m : Library.Memory} (free : entry m j = none) : slot m j = none := by
  rw [entry, entryOf] at free
  split at free
  next => cases free
  next unused =>
    have flag : m (entrySize * j + 19) = 0 := by simpa [inUse] using unused
    rw [slot, if_pos flag]

theorem linked_of_named {d : Disk} (named : fileNamed d name = some k) : Linked d k := by
  obtain ⟨b, first, rfl⟩ := Option.map_eq_some_iff.mp named
  obtain ⟨j, inside, here⟩ := SlotTable.mem_bindings.mp (List.mem_of_find?_eq_some first)
  exact ⟨j, inside, slot_of_entry here⟩

theorem live_of_named (h : Layout s.device s.freeMap (Live s)) (named : fileNamed s.device name = some k) :
    Live s k ∧ 2 ≤ k := h.linked k (linked_of_named named)

theorem Sound.dirAt (h : Sound s openers) (root : RootAt s p) :
    ∃ i, DirAt s p (slotCount s.device) i ∧ i.data = dataOf s.device rootDirSector := by
  obtain ⟨i, found, sector⟩ := root
  obtain ⟨data, allowed⟩ := h.cached p i found
  rw [sector] at data
  refine ⟨i, ⟨found, h.onDisk found, allowed, ?_⟩, data⟩
  rw [slotCount, data, Nat.div_mul_cancel (Nat.dvd_of_mod_eq_zero h.layout.whole)]

theorem lookup_named (h : Sound s openers) (root : RootAt s p) (name : List UInt8) :
    ∃ found s', s.lookup p name = .ok (found, s') ∧ Asked s s' ∧
      (∀ e ofs, found = some (e, ofs) → fileNamed s.device name = some (entrySector e)) ∧
      (Granted s → Granted s' ∧ (fileNamed s.device name ≠ none → found ≠ none)) := by
  obtain ⟨i, dir, data⟩ := h.dirAt root
  obtain ⟨found, s', ran, asked, memory, hit, miss⟩ := dir.lookupFrom name (s.entryRounds p) 0
  rw [data] at hit miss
  refine ⟨found, s', ran, asked, ?_, fun granted => ⟨memory granted, ?_⟩⟩
  · intro e ofs some
    obtain ⟨j, inside, _, named, here, before⟩ := hit e ofs some
    apply SlotTable.toMap_first inside (here.trans named)
    intro l below
    exact before l (Nat.zero_le l) below
  · intro some none
    apply some
    apply SlotTable.toMap_eq_none.mpr
    intro j inside
    exact miss granted (by rw [dir.rounds]; omega) none j (Nat.zero_le j) inside

/-- What `filesys_open` opens, if it succeeds. -/
theorem filesysOpen_named (h : Sound s openers) {f : File} (ran : s.filesysOpen name = .ok (some f, s')) :
    f.pos = 0 ∧ s'.device = s.device ∧
      ∃ i, s'.inodes f.inode = some i ∧ fileNamed s.device name = some i.sector := by
  obtain ⟨dir, s₁, opened, _, _, device₁, _, sound₁⟩ := dirOpenRoot_spec h
  simp only [FileSys.filesysOpen, opened, bind, Except.bind] at ran
  cases dir with
  | none => cases ran
  | some p =>
      obtain ⟨sound₁, root₁⟩ := sound₁
      obtain ⟨found, s₂, looked, asked, hit, _⟩ := lookup_named sound₁ root₁ name
      have root₂ := asked.toKept.rootAt root₁
      have sound₂ := asked.sound sound₁
      simp only [FileSys.dirLookup, looked, bind, Except.bind] at ran
      cases found with
      | none =>
          obtain ⟨s₃, closed, _⟩ := dirClose_spec sound₂ root₂
          simp only [pure, Except.pure, closed] at ran
          cases ran
      | some hit' =>
          obtain ⟨e, ofs⟩ := hit'
          have named := hit e ofs rfl
          obtain ⟨alive, file⟩ := live_of_named sound₁.layout named
          obtain ⟨result, s₃, opened₃, device₃, _, _, _, stay, sound₃⟩ :=
            inodeOpen_spec sound₂ ((asked.live _).mpr alive)
          have root₃ := stay.rootAt root₂
          simp only [opened₃] at ran
          cases result with
          | none =>
              obtain ⟨s₄, closed, _⟩ := dirClose_spec sound₃ root₃
              simp only [closed] at ran
              cases ran
          | some q =>
              obtain ⟨sound₃, i, found, sector⟩ := sound₃
              have other : q ≠ p := FileAt.ne_root ⟨i, found, sector ▸ file⟩ root₃
              obtain ⟨s₄, closed, _, _, _, device₄, _, others⟩ :=
                dirClose_spec (sound₃.perm (.swap ..)) root₃
              simp only [closed, FileSys.fileOpen, bind, Except.bind] at ran
              cases memory : s₄.malloc.1 with
              | true =>
                  simp only [memory] at ran
                  cases ran
                  refine ⟨rfl, ?_, i, (others q other).trans found, ?_⟩
                  · exact device₄.trans (device₃.trans (asked.device.trans device₁))
                  · rw [← device₁, named, sector]
              | false =>
                  simp only [memory] at ran
                  split at ran
                  next => cases ran
                  next => cases ran

/-- With memory `filesys_open` opens whatever has a name. -/
theorem filesysOpen_granted (h : Sound s openers) (granted : Granted s)
    (named : fileNamed s.device name ≠ none) :
    ∃ f s', s.filesysOpen name = .ok (some f, s') ∧ Granted s' := by
  have inside : rootDirSector < s.device.size := h.layout.lt_size (.inr (.inl rfl))
  obtain ⟨p, i, s₁, opened, _, granted₁, _⟩ := h.table.openGranted granted inside
  have open₁ : s.dirOpenRoot = .ok (some p, s₁.malloc.2) := by
    simp only [FileSys.dirOpenRoot, opened, bind, Except.bind, FileSys.dirOpen, granted₁.first]
    rfl
  obtain ⟨dir, s₁', ran₁, _, _, device₁, _, sound₁⟩ := dirOpenRoot_spec h
  cases open₁.symm.trans ran₁
  obtain ⟨sound₁, root₁⟩ := sound₁
  obtain ⟨found, s₂, looked, asked, hit, all⟩ := lookup_named sound₁ root₁ name
  obtain ⟨granted₂, some⟩ := all granted₁.malloc
  obtain ⟨⟨e, ofs⟩, rfl⟩ := Option.ne_none_iff_exists'.mp (some (device₁ ▸ named))
  obtain ⟨alive, _⟩ := live_of_named sound₁.layout (hit e ofs rfl)
  have root₂ := asked.toKept.rootAt root₁
  have sound₂ := asked.sound sound₁
  have alive₂ := (asked.live _).mpr alive
  obtain ⟨q, j, s₃, opened₃, _, granted₃, _⟩ :=
    sound₂.table.openGranted granted₂ (sound₂.layout.lt_size alive₂)
  obtain ⟨_, s₃', ran₃, _, _, _, _, stay, sound₃⟩ := inodeOpen_spec sound₂ alive₂
  cases opened₃.symm.trans ran₃
  obtain ⟨s₄, closed, _⟩ := dirClose_spec (sound₃.1.perm (.swap ..)) (stay.rootAt root₂)
  have granted₄ : Granted s₄ := (granted₃.inodeClose (.some p)).get closed
  refine ⟨⟨q, 0⟩, s₄.malloc.2, ?_, granted₄.malloc⟩
  simp only [FileSys.filesysOpen, open₁, bind, Except.bind, FileSys.dirLookup, looked, opened₃, closed,
    FileSys.fileOpen, granted₄.first]
  rfl

end
end CS162.Pintos.FileSystem
