import CS162.Pintos.FileStoreLaw

/-!
The file system refines the store of files. While every allocation succeeds no call panics,
and every call answers as one on the store does; a file is there as long as it has a name or
an open handle, and nothing but writes to it changes its bytes.
-/

namespace CS162.Pintos.FileSystem
open CS162.Library

/-- The inodes of the open files, one entry for each. -/
def openersOf (files : List (Option File)) : List Nat := files.reduceOption.map File.inode

/-- `m` is the inode of the free map. There is memory, and no name stands in two entries. -/
structure Tidy (w : Desk) (m : Nat) : Prop where
  kempt : Kempt ⟨w.fs, openersOf w.files⟩ m
  granted : Granted w.fs
  distinct : SlotTable.Distinct (entry (rootBytes w.fs.device)) (slotCount w.fs.device)

/-- A call returns, and answers as the store does. -/
def Served (w : Desk) (m : Nat) (c : DeskCall) : Prop :=
  ∃ answer w', w.run c = .ok (answer, w') ∧ Tidy w' m ∧ StoreAnswers (storeOf w) c answer (storeOf w')

section Handles
variable {s s' : FileSys} {openers openers' : List Nat} {files : List (Option File)} {f : File} {h k p : Nat}

theorem mem_openersOf : p ∈ openersOf files ↔ ∃ h f, Handles.get files h = some f ∧ f.inode = p := by
  simp only [openersOf, List.mem_map, Handles.mem_reduceOption]
  constructor
  · intro ⟨f, ⟨h, here⟩, same⟩
    exact ⟨h, f, here, same⟩
  · intro ⟨h, f, here, same⟩
    exact ⟨f, ⟨h, here⟩, same⟩

theorem openersOf_append (f : File) : (f.inode :: openersOf files).Perm (openersOf (files ++ [some f])) := by
  rw [openersOf, openersOf, List.reduceOption_append, List.map_append]
  exact (List.perm_append_singleton f.inode (openersOf files)).symm

theorem openersOf_set (open_ : Handles.get files h = some f) (pos : Nat) :
    (openersOf files).Perm (openersOf (files.set h (some { f with pos := pos }))) := by
  have moved := (Handles.perm_set open_ (some { f with pos := pos })).map File.inode
  exact (List.perm_cons f.inode).mp moved.symm

theorem openersOf_close (open_ : Handles.get files h = some f) :
    ((openersOf files).erase f.inode).Perm (openersOf (files.set h none)) := by
  have moved := ((Handles.perm_set open_ none).map File.inode).symm
  have erased := moved.erase f.inode
  rwa [List.map_cons, List.erase_cons_head] at erased

theorem handlesOf_of (open_ : Handles.get files h = some f) {i : Inode} (found : s.inodes f.inode = some i) :
    handlesOf s files h = some (i.sector, f.pos) := by
  rw [handlesOf, open_, Option.bind_some, found]
  rfl

theorem handlesOf_set (open_ : Handles.get files h = some f) (x : Option File) :
    handlesOf s (files.set h x) = Function.update (handlesOf s files) h
      (x.bind fun f => (s.inodes f.inode).map fun i => (i.sector, f.pos)) := by
  funext k
  rw [handlesOf, Handles.get_set open_, Function.update_apply]
  split
  next => rfl
  next => rfl

theorem handlesOf_append (f : File) :
    handlesOf s (files ++ [some f]) = Function.update (handlesOf s files) files.length
      ((s.inodes f.inode).map fun i => (i.sector, f.pos)) := by
  funext k
  rw [handlesOf, Handles.get_append, Function.update_apply]
  split
  next => rfl
  next => rfl

theorem handlesOf_length : handlesOf s files files.length = none := by
  rw [handlesOf, Handles.get, List.getElem?_eq_none (Nat.le_refl _)]
  rfl

theorem sector_of_follows (sound : Sound s openers) (sound' : Sound s' openers') (follows : Follows s s')
    {i : Inode} (found : s.inodes p = some i) (mine : p ∈ openers') :
    ∃ i', s'.inodes p = some i' ∧ i'.sector = i.sector := by
  obtain ⟨i', found'⟩ := Option.ne_none_iff_exists'.mp ((sound'.openers p).mp mine)
  have old : p < s.nextInode := by
    by_contra fresh
    cases found.symm.trans (sound.fresh p (Nat.not_lt.mp fresh)).1
  obtain ⟨j, was, sector⟩ := follows.sector p i' found' old
  cases found.symm.trans was
  exact ⟨i', found', sector.symm⟩

theorem handlesOf_follows (sound : Sound s openers) (sound' : Sound s' openers') (follows : Follows s s')
    (mine : ∀ p ∈ openersOf files, p ∈ openers ∧ p ∈ openers') : handlesOf s' files = handlesOf s files := by
  funext h
  cases here : Handles.get files h with
  | none => rw [handlesOf, here, handlesOf, here]; rfl
  | some f =>
      obtain ⟨before, after⟩ := mine f.inode (mem_openersOf.mpr ⟨h, f, here, rfl⟩)
      obtain ⟨i, found⟩ := Option.ne_none_iff_exists'.mp ((sound.openers f.inode).mp before)
      obtain ⟨i', found', sector⟩ := sector_of_follows sound sound' follows found after
      rw [handlesOf_of here found, handlesOf_of here found', sector]

end Handles

section Objects
variable {w w' v : Desk} {s' : FileSys} {m h k : Nat} {f : File} {N : List UInt8 → Option Nat}
  {H : Nat → Option (Nat × Nat)} {E : Nat → Option (List UInt8)}

theorem storeOf_is (names : fileNamed v.fs.device = N) (handles : handlesOf v.fs v.files = H)
    (bytes : ∀ k, Handles.Referred N H k → E k = some (contentsAt v.fs.device k)) : (storeOf v).Is N H E := by
  subst names handles
  exact Handles.Objects.is_of bytes

namespace Tidy

theorem opened (t : Tidy w m) (open_ : Handles.get w.files h = some f) :
    f.inode ∈ openersOf w.files ∧ ∃ i, w.fs.inodes f.inode = some i ∧ 2 ≤ i.sector := by
  have mine := mem_openersOf.mpr ⟨h, f, open_, rfl⟩
  exact ⟨mine, t.kempt.files f.inode mine⟩

theorem live (t : Tidy w m)
    (referred : Handles.Referred (fileNamed w.fs.device) (handlesOf w.fs w.files) k) :
    Live w.fs k ∧ 2 ≤ k := by
  cases referred with
  | inl named =>
      obtain ⟨name, named⟩ := named
      exact live_of_named t.kempt.sound.layout named
  | inr opened =>
      obtain ⟨h, pos, here⟩ := opened
      obtain ⟨f, open_, here⟩ := Option.bind_eq_some_iff.mp here
      obtain ⟨i, found, same⟩ := Option.map_eq_some_iff.mp here
      obtain ⟨_, i', found', file⟩ := t.opened open_
      cases found.symm.trans found'
      cases same
      exact ⟨Sound.live_of_opened found, file⟩

theorem contents (referred : Handles.Referred (fileNamed w.fs.device) (handlesOf w.fs w.files) k) :
    (storeOf w).contents k = some (contentsAt w.fs.device k) :=
  Handles.Objects.contents_of referred

theorem spared (t : Tidy w m) (spared : Spared (Meta w.fs.device) w.fs s')
    (referred : Handles.Referred (fileNamed w.fs.device) (handlesOf w.fs w.files) k) :
    (storeOf w).contents k = some (contentsAt s'.device k) := by
  obtain ⟨alive, file⟩ := t.live referred
  rw [contents referred, spared.file t.kempt.sound alive file]

theorem same_store (t : Tidy w m) (spared : Spared (Meta w.fs.device) w.fs w'.fs)
    (names : fileNamed w'.fs.device = fileNamed w.fs.device)
    (handles : handlesOf w'.fs w'.files = handlesOf w.fs w.files) : storeOf w' = storeOf w :=
  (storeOf_is names handles fun _ => t.spared spared).unique (.refl (storeOf w))

end Tidy
end Objects

section Calls
variable {w : Desk} {m h : Nat} {f : File}

namespace Tidy

theorem create (t : Tidy w m) {name : List UInt8} {initialSize : Nat}
    (allowed : w.Allowed (.create name initialSize)) : Served w m (.create name initialSize) := by
  obtain ⟨text, bound⟩ := allowed
  have sound := t.kempt.sound
  obtain ⟨created, s', ran, _, follows, sound'⟩ := filesysCreate_spec sound name bound
  have kempt : Kempt ⟨s', openersOf w.files⟩ m := t.kempt.step sound' follows fun p mine => .inl mine
  have granted := (t.granted.filesysCreate name initialSize).get ran
  have handles : handlesOf s' w.files = handlesOf w.fs w.files :=
    handlesOf_follows sound sound' follows fun p mine =>
      ⟨List.mem_cons_of_mem m mine, List.mem_cons_of_mem m mine⟩
  refine ⟨.done created, ⟨s', w.files⟩, ?_, ?_⟩
  · rw [Desk.run, ran]
    rfl
  cases created with
  | false =>
      obtain ⟨created, s'', ran', _, failed⟩ := filesysCreate_exact sound name bound
      cases ran.symm.trans ran'
      obtain ⟨same, _⟩ := failed rfl
      exact ⟨⟨kempt, granted, (same.directory_spared sound).2 t.distinct⟩,
        t.same_store same.spared (same.directory_spared sound).1 handles⟩
  | true =>
      obtain ⟨k, c⟩ := filesysCreate_creates sound t.granted t.distinct text bound ran
      refine ⟨⟨kempt, granted, c.distinct⟩, c.valid, c.unbound, k, ?_, ?_⟩
      · apply Handles.Objects.contents_eq_none.mpr
        intro referred
        exact c.free (sound.layout.holds_inode (t.live referred).1)
      · refine storeOf_is c.names handles fun l referred => ?_
        rw [Function.update_apply]
        split
        next same => rw [same, c.zeros]
        next other =>
          obtain new | referred := referred.of_name
          · cases new
            exact absurd rfl other
          · exact t.spared c.spared referred

theorem openFile (t : Tidy w m) {name : List UInt8} : Served w m (.openFile name) := by
  have sound := t.kempt.sound
  obtain ⟨result, s', ran, _, follows, sound'⟩ := filesysOpen_spec sound name
  have granted := (t.granted.filesysOpen name).get ran
  cases result with
  | none =>
      have unbound : fileNamed w.fs.device name = none := by
        by_contra named
        obtain ⟨f, _, ran', _⟩ := filesysOpen_granted sound t.granted named
        cases ran.symm.trans ran'
      obtain ⟨s'', ran', device⟩ := filesysOpen_unbound sound t.granted unbound
      cases ran.symm.trans ran'
      have handles : handlesOf s' w.files = handlesOf w.fs w.files :=
        handlesOf_follows sound sound' follows fun p mine =>
          ⟨List.mem_cons_of_mem m mine, List.mem_cons_of_mem m mine⟩
      refine ⟨.file none, ⟨s', w.files⟩, ?_, ⟨?_, granted, ?_⟩, unbound, ?_⟩
      · rw [Desk.run, ran]
        rfl
      · exact t.kempt.step sound' follows fun p mine => .inl mine
      · rw [device]
        exact t.distinct
      · exact t.same_store (.of_device _ device) (by rw [device]) handles
  | some f =>
      obtain ⟨sound', file⟩ := sound'
      obtain ⟨start, device, i, found, named⟩ := filesysOpen_named sound ran
      have kempt : Kempt ⟨s', f.inode :: openersOf w.files⟩ m := by
        refine t.kempt.step (sound'.perm (.swap ..)) follows fun p mine => ?_
        cases List.mem_cons.mp mine with
        | inl new => exact .inr (new ▸ file)
        | inr old => exact .inl old
      have handles : handlesOf s' (w.files ++ [some f]) =
          Function.update (handlesOf w.fs w.files) w.files.length (some (i.sector, 0)) := by
        rw [handlesOf_append, found, handlesOf_follows sound sound' follows fun p mine =>
          ⟨List.mem_cons_of_mem m mine, List.mem_cons_of_mem _ (List.mem_cons_of_mem m mine)⟩, ← start]
        rfl
      refine ⟨.file (some w.files.length), ⟨s', w.files ++ [some f]⟩, ?_,
        ⟨kempt.perm (openersOf_append f), granted, ?_⟩, i.sector, named, handlesOf_length, ?_⟩
      · rw [Desk.run, ran]
        rfl
      · rw [device]
        exact t.distinct
      · refine storeOf_is (by rw [device]; rfl) handles fun k referred => ?_
        obtain ⟨pos, new⟩ | referred := referred.of_handle
        · cases new
          exact t.spared (.of_device _ device) (.inl ⟨name, named⟩)
        · exact t.spared (.of_device _ device) referred

theorem reopen (t : Tidy w m) (open_ : Handles.get w.files h ≠ none) : Served w m (.reopen h) := by
  obtain ⟨f, here⟩ := Option.ne_none_iff_exists'.mp open_
  obtain ⟨mine, i, found, _⟩ := t.opened here
  let s' : FileSys := (w.fs.inodeReopen f.inode).malloc.2
  have again : s'.inodes = Function.update w.fs.inodes f.inode (some { i with openCnt := i.openCnt + 1 }) := by
    show (w.fs.inodeReopen f.inode).inodes = _
    rw [FileSys.inodeReopen, found]
    rfl
  have handles (files : List (Option File)) : handlesOf s' files = handlesOf w.fs files := by
    funext k
    have sectors (g : File) : (s'.inodes g.inode).map (fun i => (i.sector, g.pos)) =
        (w.fs.inodes g.inode).map fun i => (i.sector, g.pos) := by
      rw [again, Function.update_apply]
      split
      next same =>
        rw [same, found]
        rfl
      next => rfl
    simp only [handlesOf, sectors]
  obtain ⟨_, ran, kempt, _⟩ := t.kempt.reopen mine
  cases ran
  have device : s'.device = w.fs.device := rfl
  refine ⟨.file (some w.files.length), ⟨s', w.files ++ [some ⟨f.inode, 0⟩]⟩, ?_, ⟨?_, t.granted.malloc, ?_⟩,
    i.sector, f.pos, handlesOf_of here found, handlesOf_length, ?_⟩
  · simp only [Desk.run, Desk.file, here, FileSys.fileReopen, FileSys.fileOpen, bind, Except.bind]
    have memory : (w.fs.inodeReopen f.inode).malloc.1 = true := t.granted 0
    simp only [memory]
    rfl
  · have kempt : Kempt ⟨s', f.inode :: openersOf w.files⟩ m :=
      kempt.step kempt.sound.malloc (Kept.malloc _).follows fun p mine => .inl mine
    exact kempt.perm (openersOf_append ⟨f.inode, 0⟩)
  · exact t.distinct
  · refine storeOf_is (v := ⟨s', _⟩) rfl ?_ fun k referred => ?_
    · rw [handlesOf_append, again, Function.update_self, handles]
      rfl
    · obtain ⟨pos, new⟩ | referred := referred.of_handle
      · cases new
        exact contents (.inr ⟨h, f.pos, handlesOf_of here found⟩)
      · exact contents referred

theorem asked (t : Tidy w m) : Tidy ⟨w.fs.malloc.2, w.files⟩ m where
  kempt := t.kempt.step t.kempt.sound.malloc (Kept.malloc _).follows fun _ mine => .inl mine
  granted := t.granted.malloc
  distinct := t.distinct

theorem seekTo (t : Tidy w m) (here : Handles.get w.files h = some f) {i : Inode}
    (found : w.fs.inodes f.inode = some i) (pos : Nat) :
    Tidy (w.setFile h (some { f with pos := pos }) w.fs) m ∧
      (storeOf (w.setFile h (some { f with pos := pos }) w.fs)).Is (storeOf w).names
        (Function.update (storeOf w).handles h (some (i.sector, pos))) (storeOf w).contents := by
  refine ⟨⟨t.kempt.perm (openersOf_set here pos), t.granted, t.distinct⟩, storeOf_is rfl ?_ fun k referred => ?_⟩
  · rw [Desk.setFile, handlesOf_set here, Option.bind_some, found]
    rfl
  · obtain ⟨pos, new⟩ | referred := referred.of_handle
    · cases new
      exact contents (.inr ⟨h, f.pos, handlesOf_of here found⟩)
    · exact contents referred

theorem seek (t : Tidy w m) (open_ : Handles.get w.files h ≠ none) (pos : Nat) : Served w m (.seek h pos) := by
  obtain ⟨f, here⟩ := Option.ne_none_iff_exists'.mp open_
  obtain ⟨_, i, found, _⟩ := t.opened here
  obtain ⟨tidy, is⟩ := t.seekTo here found pos
  refine ⟨.nothing, _, ?_, tidy, i.sector, f.pos, handlesOf_of here found, is⟩
  simp only [Desk.run, Desk.file, here]
  rfl

theorem tell (t : Tidy w m) (open_ : Handles.get w.files h ≠ none) : Served w m (.tell h) := by
  obtain ⟨f, here⟩ := Option.ne_none_iff_exists'.mp open_
  obtain ⟨_, i, found, _⟩ := t.opened here
  refine ⟨.count f.pos, w, ?_, t, i.sector, handlesOf_of here found, rfl⟩
  simp only [Desk.run, Desk.file, here]
  rfl

theorem length (t : Tidy w m) (open_ : Handles.get w.files h ≠ none) : Served w m (.length h) := by
  obtain ⟨f, here⟩ := Option.ne_none_iff_exists'.mp open_
  obtain ⟨_, i, found, _⟩ := t.opened here
  have handle := handlesOf_of here found
  refine ⟨.count i.data.length, w, ?_, t, i.sector, f.pos, _, handle, contents (.inr ⟨h, f.pos, handle⟩), ?_, rfl⟩
  · simp only [Desk.run, Desk.file, here, FileSys.fileLength, bind, Except.bind, inode_eq found]
    rfl
  · rw [length_contentsAt, (t.kempt.sound.cached _ i found).1]

section Transfers
variable (t : Tidy w m) {i : Inode} (found : w.fs.inodes f.inode = some i)
include t found

theorem reads (buffer : Library.Memory) (size offset : Nat) :
    w.fs.readAt f.inode buffer size offset =
      .ok ((slice (contentsAt w.fs.device i.sector) offset size).length,
        buffer.writeBytes 0 (slice (contentsAt w.fs.device i.sector) offset size), w.fs.malloc.2) := by
  rw [readAt_granted (t.granted 0) found (t.kempt.sound.onDisk found), contentsAt,
    ← (t.kempt.sound.cached _ i found).1, writeBytes_slice, slice_readBytes, Memory.readBytes_length]
  rfl

theorem writes (here : Handles.get w.files h = some f) (buffer : Library.Memory) (size offset : Nat) :
    ∃ s', w.fs.writeAt f.inode buffer size offset =
        .ok ((slice (contentsAt w.fs.device i.sector) offset size).length, s') ∧ s'.inodes = w.fs.inodes ∧
      Tidy ⟨s', w.files⟩ m ∧ (storeOf ⟨s', w.files⟩).Is (storeOf w).names (storeOf w).handles
        (Function.update (storeOf w).contents i.sector (some (splice (contentsAt w.fs.device i.sector)
          (buffer.readBytes 0 (slice (contentsAt w.fs.device i.sector) offset size).length) offset))) := by
  have sound := t.kempt.sound
  have layout := sound.layout
  obtain ⟨mine, i', found', file⟩ := t.opened here
  cases found.symm.trans found'
  obtain ⟨data, allowed⟩ := sound.cached _ i found
  have alive := Sound.live_of_opened found
  have length : (slice (contentsAt w.fs.device i.sector) offset size).length = bytesLeft i.data size offset := by
    rw [contentsAt, ← data, slice_readBytes, Memory.readBytes_length]
    rfl
  obtain ⟨d', ran, written, size', _⟩ :=
    writeAt_granted (t.granted 0) found (sound.onDisk found) allowed buffer size offset
  have kempt := t.kempt.overwrite mine found size' written.others
  have other : i.sector ≠ rootDirSector := Nat.ne_of_gt file
  let s' : FileSys := { w.fs.malloc.2 with device := d' }
  have spared : Spared i.data.Has w.fs s' := .of_written written rfl
  rw [data] at spared written
  obtain ⟨names, distinct⟩ := spared.directory sound (layout.inode_apart layout.root alive)
    fun r root has => other (layout.data_apart alive layout.root has root)
  refine ⟨s', length ▸ ran, rfl, ⟨kempt, t.granted.malloc, distinct t.distinct⟩,
    storeOf_is (v := ⟨s', w.files⟩) names rfl fun k referred => ?_⟩
  rw [Function.update_apply]
  split
  next same => rw [same, length, data, contentsAt_written sound alive written]
  next differ =>
    obtain ⟨alive', _⟩ := t.live referred
    rw [contents referred, spared.contents sound alive' (layout.inode_apart alive' alive)
      fun r has has' => differ (layout.data_apart alive' alive has has')]

end Transfers

theorem read (t : Tidy w m) (open_ : Handles.get w.files h ≠ none) (buffer : Library.Memory) (size : Nat) :
    Served w m (.read h buffer size) := by
  obtain ⟨f, here⟩ := Option.ne_none_iff_exists'.mp open_
  obtain ⟨_, i, found, _⟩ := t.opened here
  have handle := handlesOf_of here found
  have ran := t.reads found buffer size f.pos
  obtain ⟨tidy, is⟩ := t.asked.seekTo here found
    (f.pos + (slice (contentsAt w.fs.device i.sector) f.pos size).length)
  refine ⟨.read _ _, _, ?_, tidy, i.sector, f.pos, _, handle, contents (.inr ⟨h, f.pos, handle⟩), rfl, rfl, is⟩
  simp only [Desk.run, Desk.file, here, FileSys.fileRead, bind, Except.bind, ran]
  rfl

theorem readAt (t : Tidy w m) (open_ : Handles.get w.files h ≠ none) (buffer : Library.Memory) (size offset : Nat) :
    Served w m (.readAt h buffer size offset) := by
  obtain ⟨f, here⟩ := Option.ne_none_iff_exists'.mp open_
  obtain ⟨_, i, found, _⟩ := t.opened here
  have handle := handlesOf_of here found
  have ran := t.reads found buffer size offset
  refine ⟨.read _ _, ⟨w.fs.malloc.2, w.files⟩, ?_, t.asked, i.sector, f.pos, _, handle,
    contents (.inr ⟨h, f.pos, handle⟩), rfl, rfl, rfl⟩
  simp only [Desk.run, Desk.file, here, bind, Except.bind, ran]
  rfl

theorem write (t : Tidy w m) (open_ : Handles.get w.files h ≠ none) (buffer : Library.Memory) (size : Nat) :
    Served w m (.write h buffer size) := by
  obtain ⟨f, here⟩ := Option.ne_none_iff_exists'.mp open_
  obtain ⟨_, i, found, _⟩ := t.opened here
  have handle := handlesOf_of here found
  obtain ⟨s', ran, inodes, tidy, is⟩ := t.writes found here buffer size f.pos
  obtain ⟨tidy', is'⟩ := tidy.seekTo here (by rw [inodes, found])
    (f.pos + (slice (contentsAt w.fs.device i.sector) f.pos size).length)
  refine ⟨.count _, _, ?_, tidy', i.sector, f.pos, _, handle, contents (.inr ⟨h, f.pos, handle⟩), rfl, ?_⟩
  · simp only [Desk.run, Desk.file, here, FileSys.fileWrite, bind, Except.bind, ran]
    rfl
  · rw [is.handles] at is'
    refine is.trans is' fun k referred => ?_
    obtain ⟨pos, new⟩ | referred := referred.of_handle
    · cases new
      exact .inr ⟨h, f.pos, handle⟩
    · exact referred

theorem writeAt (t : Tidy w m) (open_ : Handles.get w.files h ≠ none) (buffer : Library.Memory)
    (size offset : Nat) : Served w m (.writeAt h buffer size offset) := by
  obtain ⟨f, here⟩ := Option.ne_none_iff_exists'.mp open_
  obtain ⟨_, i, found, _⟩ := t.opened here
  have handle := handlesOf_of here found
  obtain ⟨s', ran, _, tidy, is⟩ := t.writes found here buffer size offset
  refine ⟨.count _, ⟨s', w.files⟩, ?_, tidy, i.sector, f.pos, _, handle, contents (.inr ⟨h, f.pos, handle⟩), rfl, is⟩
  simp only [Desk.run, Desk.file, here, bind, Except.bind, ran]
  rfl

theorem close (t : Tidy w m) (open_ : Handles.get w.files h ≠ none) : Served w m (.close h) := by
  obtain ⟨f, here⟩ := Option.ne_none_iff_exists'.mp open_
  obtain ⟨mine, i, found, file⟩ := t.opened here
  have sound := t.kempt.sound
  have layout := sound.layout
  obtain ⟨s', closed, sound', _, follows⟩ := closeFile sound ⟨i, found, file⟩
  have kept := openersOf_close here
  rw [List.erase_cons_tail (by simpa using t.kempt.ne_map mine)] at sound'
  have kempt : Kempt ⟨s', (openersOf w.files).erase f.inode⟩ m :=
    t.kempt.step sound' follows fun p mine => .inl (List.mem_of_mem_erase mine)
  have kempt : Kempt ⟨s', openersOf (w.files.set h none)⟩ m := kempt.perm kept
  obtain ⟨g, ready, map⟩ := sound.mapReady
  have same : SameUsed w.fs s' := by
    intro r _ outside
    exact inodeClose_others ready closed r (map ▸ outside)
  obtain ⟨names, distinct⟩ := same.directory_spared sound
  refine ⟨.nothing, ⟨s', w.files.set h none⟩, ?_,
    ⟨kempt, (t.granted.inodeClose _).get closed, distinct t.distinct⟩, ?_⟩
  · have closed : w.fs.fileClose (some f) = .ok s' := closed
    simp only [Desk.run, Desk.file, here, bind, Except.bind, closed]
    rfl
  · refine storeOf_is (v := ⟨s', w.files.set h none⟩) names ?_ fun k referred => ?_
    · rw [handlesOf_follows sound kempt.sound follows fun p left => ⟨?_, List.mem_cons_of_mem m left⟩,
        handlesOf_set here]
      · rfl
      · exact List.mem_cons_of_mem m (List.mem_of_mem_erase (kept.mem_iff.mpr left))
    · obtain ⟨pos, new⟩ | referred := referred.of_handle
      · cases new
      · exact t.spared same.spared referred

theorem remove (t : Tidy w m) {name : List UInt8} : Served w m (.remove name) := by
  have sound := t.kempt.sound
  obtain ⟨removed, s', ran, _, follows, sound'⟩ := filesysRemove_spec sound name
  obtain ⟨removed', s'', ran', success, distinct, names, spared⟩ :=
    filesysRemove_granted sound t.granted t.distinct
  cases ran.symm.trans ran'
  have handles : handlesOf s' w.files = handlesOf w.fs w.files :=
    handlesOf_follows sound sound' follows fun p mine =>
      ⟨List.mem_cons_of_mem m mine, List.mem_cons_of_mem m mine⟩
  refine ⟨.done removed, ⟨s', w.files⟩, ?_, ⟨?_, (t.granted.filesysRemove name).get ran, distinct⟩, success, ?_⟩
  · rw [Desk.run, ran]
    rfl
  · exact t.kempt.step sound' follows fun p mine => .inl mine
  · refine storeOf_is (v := ⟨s', w.files⟩) names handles fun k referred => ?_
    obtain none | referred := referred.of_name
    · cases none
    · exact t.spared spared referred

theorem served (t : Tidy w m) (c : DeskCall) (allowed : w.Allowed c) : Served w m c := by
  cases c with
  | create name initialSize => exact t.create allowed
  | openFile name => exact t.openFile
  | reopen h => exact t.reopen allowed
  | read h buffer size => exact t.read allowed buffer size
  | readAt h buffer size offset => exact t.readAt allowed buffer size offset
  | write h buffer size => exact t.write allowed buffer size
  | writeAt h buffer size offset => exact t.writeAt allowed buffer size offset
  | seek h pos => exact t.seek allowed pos
  | tell h => exact t.tell allowed
  | length h => exact t.length allowed
  | close h => exact t.close allowed
  | remove name => exact t.remove

end Tidy
end Calls

section Runs
variable {w w' w₁ w₂ : Desk} {c : DeskCall} {h n size offset : Nat}

theorem filesysInit_empty {d : Disk} (bound : d.size ≤ 2 ^ 21) (grants : Nat → Bool) (junk : Library.Memory) :
    Yields (fun s => ∀ j < slotCount s.device, entry (rootBytes s.device) j = none)
      (filesysInit true d grants junk) := by
  refine Ends.bind (freeMapInit_spec bound grants junk) fun s begun => ?_
  refine Ends.bind (doFormat_spec begun) fun s formatted => ?_
  refine (freeMapOpen_spec formatted).imp (fun _ _ => trivial) ?_
  intro s' ended j inside
  obtain ⟨f, _, device, _⟩ := ended
  rw [device] at inside ⊢
  cases here : entry (rootBytes s.device) j with
  | none => rfl
  | some b =>
      obtain ⟨name, k⟩ := b
      cases (slot_of_entry here).symm.trans (formatted.empty j inside)

theorem tidy_of_starts (starts : w.Starts) : (∃ m, Tidy w m) ∧ stores.init (storeOf w) := by
  obtain ⟨fs, files⟩ := w
  obtain ⟨rfl, d, grants, junk, registered, all, ran⟩ := starts
  have bound : d.size ≤ 2 ^ 21 := Nat.le_of_lt registered
  have empty := (filesysInit_empty bound grants junk).get ran
  obtain ⟨m, kempt⟩ := kempt_of_starts (w := ⟨fs, []⟩) ⟨rfl, d, grants, junk, registered, ran⟩
  refine ⟨⟨m, kempt, (filesysInit_granted all).get ran, ?_⟩, ?_, ?_⟩
  · intro i hi j hj name v v' here
    cases (empty i hi).symm.trans here
  · funext name
    apply SlotTable.toMap_eq_none.mpr
    intro j inside v here
    cases (empty j inside).symm.trans here
  · funext h
    rfl

theorem next_eq_some : w.next c = some w' ↔ ∃ answer, w.run c = .ok (answer, w') := by
  rw [Desk.next, Option.map_eq_some_iff]
  constructor
  · intro ⟨r, ran, same⟩
    exact ⟨r.1, by rw [toOption_some.mp ran, ← same]⟩
  · intro ⟨answer, ran⟩
    exact ⟨(answer, w'), toOption_some.mpr ran, rfl⟩

theorem tidy_of_reachable (reach : desks.Reachable w) : (∃ m, Tidy w m) ∧ stores.Reachable (storeOf w) := by
  refine reach.invariant (I := fun w => (∃ m, Tidy w m) ∧ stores.Reachable (storeOf w)) ?_ ?_
  · intro w starts
    obtain ⟨tidy, start⟩ := tidy_of_starts starts
    exact ⟨tidy, .init start⟩
  · rintro w c w' ⟨⟨m, tidy⟩, reached⟩ ⟨step, allowed⟩
    obtain ⟨answer, w'', ran, tidy', answers⟩ := tidy.served c allowed
    obtain ⟨answer', ran'⟩ := next_eq_some.mp step
    cases ran.symm.trans ran'
    exact ⟨⟨m, tidy'⟩, reached.step (a := (c, answer)) answers⟩

/-- In every run the calls answer as the store of files does, and none panics. -/
theorem files_refine_store (reach : desks.Reachable w) : stores.Reachable (storeOf w) ∧
    ∀ c, w.Allowed c → ∃ answer w', w.run c = .ok (answer, w') ∧ StoreAnswers (storeOf w) c answer (storeOf w') := by
  obtain ⟨⟨m, tidy⟩, reached⟩ := tidy_of_reachable reach
  refine ⟨reached, fun c allowed => ?_⟩
  obtain ⟨answer, w', ran, _, answers⟩ := tidy.served c allowed
  exact ⟨answer, w', ran, answers⟩

/-- A file is removed and its name used again while it is open. -/
def nameUsedAgain : List DeskCall :=
  [.create [97] 600, .openFile [97], .write 0 (fun _ => 7) 5, .remove [97], .create [97] 10, .openFile [97],
    .writeAt 1 (fun _ => 9) 20 0, .reopen 0, .close 0]

theorem files_refine_store_of_nameUsedAgain : ∃ w, desks.Reachable w ∧ (w.files.length = 3 ∧
    handlesOf w.fs w.files 1 ≠ none ∧ handlesOf w.fs w.files 1 ≠ handlesOf w.fs w.files 2) ∧
    stores.Reachable (storeOf w) ∧
    ∀ c, w.Allowed c → ∃ answer w', w.run c = .ok (answer, w') ∧ StoreAnswers (storeOf w) c answer (storeOf w') := by
  have fact : ((filesysInit true ⟨12, fun _ _ => 0⟩ (fun _ => true) (fun _ => 0)).toOption.bind
      fun s => System.exec (fun (w : Desk) c => if w.Allowed c then w.next c else none) ⟨s, []⟩
        nameUsedAgain).any (fun w => decide (w.files.length = 3 ∧ handlesOf w.fs w.files 1 ≠ none ∧
          handlesOf w.fs w.files 1 ≠ handlesOf w.fs w.files 2)) = true := by decide +kernel
  cases init : filesysInit true ⟨12, fun _ _ => 0⟩ (fun _ => true) (fun _ => 0) with
  | error _ =>
      rw [init] at fact
      cases fact
  | ok s =>
      rw [init] at fact
      obtain ⟨w, reach, checked⟩ := System.exists_reachable_under Desk.Starts Desk.next Desk.Allowed _
        (s := ⟨s, []⟩) ⟨rfl, _, _, _, by decide, fun _ => rfl, init⟩ nameUsedAgain fact
      exact ⟨w, reach, of_decide_eq_true checked, files_refine_store reach⟩

end Runs

section Later
variable {s s' : Store} {w w₁ w₂ : Desk} {c : DeskCall} {answer : DeskAnswer} {h k n pos size offset : Nat}
  {N : List UInt8 → Option Nat} {H : Nat → Option (Nat × Nat)} {E : Nat → Option (List UInt8)}

/-- A call neither closes a handle nor writes to its file, under whatever handle. -/
def Spares (handles : Nat → Option (Nat × Nat)) (h : Nat) : DeskCall → Prop
  | .close h' => h' ≠ h
  | .write h' .. | .writeAt h' .. => (handles h').map Prod.fst ≠ (handles h).map Prod.fst
  | _ => True

instance (handles : Nat → Option (Nat × Nat)) (h : Nat) : (c : DeskCall) → Decidable (Spares handles h c)
  | .close _ | .write .. | .writeAt .. => inferInstanceAs (Decidable (_ ≠ _))
  | .create .. | .openFile _ | .reopen _ | .read .. | .readAt .. | .seek .. | .tell _ | .length _
  | .remove _ => .isTrue trivial

/-- The runs from a state on that spare the file of a handle. -/
def Desk.sparing (w : Desk) (h : Nat) : System Desk DeskCall :=
  (System.ofNext (· = w) Desk.next).under fun w c => w.Allowed c ∧ Spares (handlesOf w.fs w.files) h c

theorem kept_of_is (is : s'.Is N H E) (handle : H h = some (k, pos)) (same : E k = s.contents k) :
    (∃ pos, s'.handles h = some (k, pos)) ∧ s'.contents k = s.contents k :=
  ⟨⟨pos, is.handles ▸ handle⟩, (is.contents k (.inr ⟨h, pos, handle⟩)).trans same⟩

theorem update_new {x : Option (Nat × Nat)} (handle : s.handles h = some (k, pos)) {new : Nat}
    (unused : s.handles new = none) : Function.update s.handles new x h = some (k, pos) := by
  rw [Function.update_of_ne, handle]
  rintro rfl
  cases unused.symm.trans handle

theorem update_moved (handle : s.handles h = some (k, pos)) {moved l old new : Nat}
    (was : s.handles moved = some (l, old)) :
    ∃ pos, Function.update s.handles moved (some (l, new)) h = some (k, pos) := by
  rw [Function.update_apply]
  split
  next same =>
    subst same
    cases was.symm.trans handle
    exact ⟨new, rfl⟩
  next => exact ⟨pos, handle⟩

theorem StoreAnswers.kept (answers : StoreAnswers s c answer s') (handle : s.handles h = some (k, pos))
    (spares : Spares s.handles h c) :
    (∃ pos, s'.handles h = some (k, pos)) ∧ s'.contents k = s.contents k := by
  have same_store (same : s' = s) : (∃ pos, s'.handles h = some (k, pos)) ∧ s'.contents k = s.contents k := by
    rw [same]
    exact ⟨⟨pos, handle⟩, rfl⟩
  have apart {h' l old : Nat} (other : (s.handles h').map Prod.fst ≠ (s.handles h).map Prod.fst)
      (here : s.handles h' = some (l, old)) : k ≠ l := by
    rintro rfl
    rw [here, handle] at other
    exact other rfl
  rw [StoreAnswers.eq_def] at answers
  split at answers
  next =>
    split at answers
    next =>
      obtain ⟨_, _, l, fresh, is⟩ := answers
      refine kept_of_is is handle (Function.update_of_ne ?_ ..)
      rintro rfl
      exact (s.present k).mpr (.inr ⟨h, pos, handle⟩) fresh
    next => exact same_store answers
  next => exact same_store answers.2
  next =>
    obtain ⟨l, _, unused, is⟩ := answers
    exact kept_of_is is (update_new handle unused) rfl
  next =>
    obtain ⟨l, old, _, unused, is⟩ := answers
    exact kept_of_is is (update_new handle unused) rfl
  next =>
    obtain ⟨l, old, bytes, here, _, _, _, is⟩ := answers
    obtain ⟨pos, moved⟩ := update_moved handle here
    exact kept_of_is is moved rfl
  next =>
    obtain ⟨l, old, bytes, _, _, _, _, same⟩ := answers
    exact same_store same
  next =>
    obtain ⟨l, old, bytes, here, _, _, is⟩ := answers
    obtain ⟨pos, moved⟩ := update_moved handle here
    exact kept_of_is is moved (Function.update_of_ne (apart spares here) ..)
  next =>
    obtain ⟨l, old, bytes, here, _, _, is⟩ := answers
    exact kept_of_is is handle (Function.update_of_ne (apart spares here) ..)
  next =>
    obtain ⟨l, old, here, is⟩ := answers
    obtain ⟨pos, moved⟩ := update_moved handle here
    exact kept_of_is is moved rfl
  next =>
    obtain ⟨l, _, same⟩ := answers
    exact same_store same
  next =>
    obtain ⟨l, old, bytes, _, _, _, same⟩ := answers
    exact same_store same
  next => exact kept_of_is answers ((Function.update_of_ne (Ne.symm spares) ..).trans handle) rfl
  next => exact kept_of_is answers.2 handle rfl
  next => exact answers.elim

theorem kept_of_sparing (reach : desks.Reachable w₁) (handle : (storeOf w₁).handles h = some (k, pos))
    (later : (w₁.sparing h).Reachable w₂) : desks.Reachable w₂ ∧
      (∃ pos, (storeOf w₂).handles h = some (k, pos)) ∧ (storeOf w₂).contents k = (storeOf w₁).contents k := by
  refine later.invariant (I := fun w => desks.Reachable w ∧
    (∃ pos, (storeOf w).handles h = some (k, pos)) ∧ (storeOf w).contents k = (storeOf w₁).contents k) ?_ ?_
  · rintro w rfl
    exact ⟨reach, ⟨pos, handle⟩, rfl⟩
  · rintro w c w' ⟨reach, ⟨pos, handle⟩, same⟩ ⟨step, allowed, spares⟩
    obtain ⟨⟨m, tidy⟩, _⟩ := tidy_of_reachable reach
    obtain ⟨answer, w'', ran, _, answers⟩ := tidy.served c allowed
    obtain ⟨_, ran'⟩ := next_eq_some.mp step
    cases ran.symm.trans ran'
    obtain ⟨handle', same'⟩ := answers.kept handle spares
    exact ⟨reach.step ⟨step, allowed⟩, handle', same'.trans same⟩

theorem slice_splice {contents new : List UInt8} (fits : new = [] ∨ pos + new.length ≤ contents.length) :
    slice (splice contents new pos) pos new.length = new := by
  cases fits with
  | inl empty =>
      rw [empty]
      rfl
  | inr fits =>
      have before : (contents.take pos).length = pos := List.length_take_of_le (by omega)
      rw [slice, splice, List.append_assoc, List.drop_append_of_le_length (Nat.le_of_eq before.symm),
        List.drop_of_length_le (Nat.le_of_eq before), List.nil_append, List.take_left]

theorem readBytes_fits (data : Library.Memory) (contents : List UInt8) (pos size : Nat) :
    data.readBytes 0 (slice contents pos size).length = [] ∨
      pos + (data.readBytes 0 (slice contents pos size).length).length ≤ contents.length := by
  rw [Memory.readBytes_length, ← List.length_eq_zero_iff, Memory.readBytes_length, slice, List.length_take,
    List.length_drop]
  omega

/-- What was written is read back, whatever the calls between have done to other files and to the
name of this one. -/
theorem read_after_write (reach : desks.Reachable w) {data : Library.Memory}
    (wrote : w.run (.writeAt h data size offset) = .ok (.count n, w₁)) (later : (w₁.sparing h).Reachable w₂)
    (buffer : Library.Memory) :
    ∃ w₃, w₂.run (.readAt h buffer n offset) = .ok (.read n (buffer.writeBytes 0 (data.readBytes 0 n)), w₃) := by
  obtain ⟨⟨m, tidy⟩, _⟩ := tidy_of_reachable reach
  have allowed : w.Allowed (.writeAt h data size offset) := by
    intro closed
    simp only [Desk.run, Desk.file, closed] at wrote
    cases wrote
  obtain ⟨answer, w', ran, _, answers⟩ := tidy.served _ allowed
  cases ran.symm.trans wrote
  obtain ⟨k, pos, contents, handle, was, rfl, is⟩ := answers
  have reach₁ : desks.Reachable w₁ := reach.step ⟨next_eq_some.mpr ⟨_, wrote⟩, allowed⟩
  have handle₁ : (storeOf w₁).handles h = some (k, pos) := is.handles ▸ handle
  have now := is.contents k (.inr ⟨h, pos, handle⟩)
  rw [Function.update_self] at now
  obtain ⟨reach₂, ⟨pos₂, handle₂⟩, same⟩ := kept_of_sparing reach₁ handle₁ later
  obtain ⟨⟨m, tidy₂⟩, _⟩ := tidy_of_reachable reach₂
  have open₂ : w₂.Allowed (.readAt h buffer (slice contents offset size).length offset) := by
    intro closed
    have handle₂ : handlesOf w₂.fs w₂.files h = some (k, pos₂) := handle₂
    rw [handlesOf, closed] at handle₂
    cases handle₂
  obtain ⟨answer, w₃, ran₂, _, answers⟩ := tidy₂.served _ open₂
  cases answer with
  | read n' buffer' =>
      obtain ⟨k', pos', contents', handle', here, rfl, rfl, _⟩ := answers
      cases handle'.symm.trans handle₂
      cases here.symm.trans (same.trans now)
      have back := slice_splice (readBytes_fits data contents offset size)
      rw [Memory.readBytes_length] at back
      rw [back, Memory.readBytes_length] at ran₂
      exact ⟨w₃, ran₂⟩
  | done success => exact answers.elim
  | file h => exact answers.elim
  | count n => exact answers.elim
  | nothing => exact answers.elim

def DeskAnswer.number : DeskAnswer → Option Nat
  | .count n => some n
  | _ => none

theorem number_eq_some : answer.number = some n ↔ answer = .count n := by
  cases answer with
  | count m => simp [DeskAnswer.number]
  | done success => simp [DeskAnswer.number]
  | file h => simp [DeskAnswer.number]
  | read m buffer => simp [DeskAnswer.number]
  | nothing => simp [DeskAnswer.number]

/-- A write at the end of a file is cut off, and the file is removed before it is read. -/
theorem read_after_write_of_removed : ∃ w w₁ w₂ : Desk, desks.Reachable w ∧
    w.run (.writeAt 0 (fun _ => 7) 20 590) = .ok (.count 10, w₁) ∧ w₁.next (.remove [97]) = some w₂ ∧
    ∀ buffer, ∃ w₃, w₂.run (.readAt 0 buffer 10 590) =
      .ok (.read 10 (buffer.writeBytes 0 (Memory.readBytes (fun _ => 7) 0 10)), w₃) := by
  have fact : ((filesysInit true ⟨12, fun _ _ => 0⟩ (fun _ => true) (fun _ => 0)).toOption.bind
      fun s => System.exec (fun (w : Desk) c => if w.Allowed c then w.next c else none) ⟨s, []⟩
        [.create [97] 600, .openFile [97]]).any (fun w =>
          (w.run (.writeAt 0 (fun _ => 7) 20 590)).toOption.any fun r =>
            decide (r.1.number = some 10) && (r.2.next (.remove [97])).isSome) = true := by decide +kernel
  cases init : filesysInit true ⟨12, fun _ _ => 0⟩ (fun _ => true) (fun _ => 0) with
  | error _ =>
      rw [init] at fact
      cases fact
  | ok s =>
      rw [init] at fact
      obtain ⟨w, reach, checked⟩ := System.exists_reachable_under Desk.Starts Desk.next Desk.Allowed _
        (s := ⟨s, []⟩) ⟨rfl, _, _, _, by decide, fun _ => rfl, init⟩ _ fact
      obtain ⟨⟨answer, w₁⟩, ran, checked⟩ := (Option.any_eq_true ..).mp checked
      rw [Bool.and_eq_true, decide_eq_true_eq] at checked
      obtain ⟨count, removed⟩ := checked
      cases number_eq_some.mp count
      obtain ⟨w₂, removed⟩ := Option.isSome_iff_exists.mp removed
      have wrote := toOption_some.mp ran
      have text : (0 : UInt8) ∉ [97] := by decide
      have later : (w₁.sparing 0).Reachable w₂ :=
        (System.Reachable.init rfl).step (a := .remove [97]) ⟨removed, text, trivial⟩
      exact ⟨w, w₁, w₂, reach, wrote, removed, fun buffer => read_after_write reach wrote later buffer⟩

end Later
end CS162.Pintos.FileSystem
