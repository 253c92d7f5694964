import CS162.Pintos.ProcessPages

/-!
What a process of hw-memory keeps in order while it lives, and what it leaves when it
calls `thread_exit`: its pages belong to its address space, and its open file is one
opener of its inode.
-/

namespace CS162.Pintos.HwMemory
open CS162.Library ProjPregame
open FileSystem (FileSys File Kempt Callers)

def inodesOf (file : Option File) : List Nat := (file.map File.inode).toList

/-- A process in order, beside other threads that own `frames`, `pages` and `openers`. -/
structure Running.Sound (frames pages : Nat → Prop) (openers : List Nat) (m : Nat) (r : Running) :
    Prop where
  pages : r.process.Owned frames pages
  files : Kempt ⟨r.fs, openers ++ inodesOf r.process.openFile⟩ m

/-- Pools with nothing in use but what others own. -/
structure PoolsOf (frames pages : Nat → Prop) (pools : Pools) : Prop where
  frames : ∀ frame, pools.used frame = true ↔ frames frame
  pages : ∀ page, pools.kernel page = true ↔ pages page

/-- The same for a thread that exits. -/
structure Ending.Sound (frames pages : Nat → Prop) (openers : List Nat) (m : Nat) (last : Ending) :
    Prop where
  pages : match last.memory with
    | .inl pools => PoolsOf frames pages pools
    | .inr space => SpaceOwned frames pages space
  files : Kempt ⟨last.fs, openers ++ inodesOf last.openFile⟩ m

/-- A thread that exits with this file open. -/
def Halt.Sound (frames pages : Nat → Prop) (openers : List Nat) (m : Nat) (openFile : Option File) :
    Halt → Prop
  | .exits last => last.Sound frames pages openers m ∧ last.openFile = openFile
  | .stops => True

/-- A step of the process leaves it in order, or it exits with the file it had open. -/
abbrev Running.Keeps (frames pages : Nat → Prop) (openers : List Nat) (m : Nat) (r : Running)
    (x : Except Halt Running) : Prop :=
  Ends (Halt.Sound frames pages openers m r.process.openFile) (Running.Sound frames pages openers m) x

section Calls
variable {F K : Nat → Prop} {openers : List Nat} {m : Nat} {r : Running} {p : Process} {file : File}

theorem Running.Sound.exit (h : r.Sound F K openers m) :
    r.exit.Sound F K openers m r.process.openFile := ⟨⟨h.pages, h.files⟩, rfl⟩

theorem Running.Sound.guard (h : r.Sound F K openers m) {α : Type} (e : Effect α) :
    Ends (Halt.Sound F K openers m r.process.openFile) (fun _ => True) (r.guard e) := by
  cases e with
  | ok a => exact .ok trivial
  | error stop =>
      obtain ⟨how, k⟩ := stop
      cases how with
      | exited => exact .error h.exit
      | panicked => exact .error trivial

theorem Running.Sound.arguments (h : r.Sound F K openers m) (u : UserMemory) (addr count : Nat) :
    Ends (Halt.Sound F K openers m r.process.openFile) (fun _ => True) (r.arguments u addr count) := by
  rw [Running.arguments]
  refine (h.guard _).bind fun k _ => (h.guard _).bind fun _ _ => .ok trivial

theorem kempt_closed {fs : FileSys} : Kempt ⟨fs, openers ++ inodesOf none⟩ m ↔ Kempt ⟨fs, openers⟩ m := by
  rw [show openers ++ inodesOf none = openers from List.append_nil openers]

theorem filesysOpen_kempt {fs : FileSys} (files : Kempt ⟨fs, openers⟩ m) (name : List UInt8) :
    Yields (fun x => Kempt ⟨x.2, openers ++ inodesOf x.1⟩ m) (fs.filesysOpen name) := by
  apply Yields.of_ok
  intro x opened
  obtain ⟨w, ran, kempt, -⟩ := files.openFile name
  rw [FileSystem.next, opened] at ran
  cases ran
  exact kempt.perm List.perm_append_comm

theorem fileClose_kempt {fs : FileSys} {file : Option File}
    (files : Kempt ⟨fs, openers ++ inodesOf file⟩ m) :
    Yields (fun fs => Kempt ⟨fs, openers⟩ m) (fs.fileClose file) := by
  apply Yields.of_ok
  intro fs' closed
  cases file with
  | none =>
      cases closed
      exact kempt_closed.mp files
  | some file =>
      have mine : file.inode ∈ openers ++ inodesOf (some file) :=
        List.mem_append_right _ (List.mem_singleton_self _)
      obtain ⟨w, ran, kempt, -⟩ := files.close mine
      rw [FileSystem.next, show fs.inodeClose (some file.inode) = .ok fs' from closed] at ran
      cases ran
      have left : (openers ++ [file.inode]).Perm (file.inode :: openers) := List.perm_append_comm
      have erased := left.erase file.inode
      rw [List.erase_cons_head] at erased
      exact kempt.perm erased

theorem Running.Sound.syscallOpen (h : r.Sound F K openers m) (name : List UInt8) :
    Ends (Halt.Sound F K openers m r.process.openFile) (fun x => x.2.Sound F K openers m)
      (r.syscallOpen name) := by
  rw [Running.syscallOpen]
  refine .ite (fun _ => .ok h) fun closed => ?_
  have absent : r.process.openFile = none := by simpa using closed
  have files := h.files
  rw [absent] at files
  have opens := filesysOpen_kempt (kempt_closed.mp files) name
  split
  next => exact .error trivial
  next opened =>
    have after := opens.get opened
    rw [← absent] at after
    exact .ok ⟨h.pages, after⟩
  next opened => exact .ok ⟨h.pages, opens.get opened⟩

theorem Running.Sound.syscallClose (h : r.Sound F K openers m) (fd : Nat) :
    r.Keeps F K openers m (r.syscallClose fd) := by
  rw [Running.syscallClose]
  split
  next => exact .ok h
  next file found =>
    refine .ite (fun _ => ?_) fun _ => .ok h
    have files := h.files
    rw [found] at files
    split
    next => exact .error trivial
    next closed => exact .ok ⟨h.pages, kempt_closed.mpr ((fileClose_kempt files).get closed)⟩

theorem Running.Sound.syscallSbrk (h : r.Sound F K openers m) (increment : Int)
    (grants : Nat → PageGrant) :
    Ends (Halt.Sound F K openers m r.process.openFile) (fun x => x.2.Sound F K openers m)
      (r.syscallSbrk increment grants) := by
  delta Running.syscallSbrk
  generalize done : r.process.syscallSbrk increment grants = x
  cases x with
  | error => exact .error trivial
  | ok x =>
      obtain ⟨result, p⟩ := x
      obtain ⟨owned, same⟩ := h.pages.syscallSbrk done
      have files := h.files
      rw [← same] at files
      exact .ok ⟨owned, files⟩

/-- Of the disk, only data of this inode was changed. -/
structure Overwritten (data : InodeDisk) (d d' : Disk) : Prop where
  size : d'.size = d.size
  others : ∀ sector, ¬ data.Has sector → d'.sectors sector = d.sectors sector

theorem writeFromUser_overwrites {data : InodeDisk} {d d' : Disk} {pos : Nat} {c : Chunk}
    (onDisk : OnDisk d data) (chunk : ChunkAt data pos c) (u : UserMemory) (buffer : Nat)
    (before : Overwritten data d d') :
    Ends (fun stop => ∀ last, stop = some last → Overwritten data d last) (Overwritten data d)
      (writeFromUser u buffer c d') := by
  rw [writeFromUser]
  refine .ite (fun _ => .error fun last none => by cases none) fun _ => ?_
  split
  next =>
    refine .error fun last same => ?_
    cases same
    exact before
  next => exact .error fun last none => by cases none
  next =>
    have fits : OnDisk d' data := ⟨before.size ▸ onDisk.fits, before.size ▸ onDisk.device⟩
    split
    next => exact .error fun last none => by cases none
    next written =>
      obtain ⟨_, ran, -, -, others⟩ := writeChunk_spec
        (fun i => (u.byte ((buffer + i) % 2 ^ 32)).getD 0) fits chunk
      cases ran.symm.trans written
      exact .ok ⟨(size_of_writeChunk written).trans before.size,
        fun sector outside => (others sector outside).trans (before.others sector outside)⟩

theorem afterTransfer_sound {σ : Type} {P : σ → Prop} {resume : σ → Running}
    {x : Except (Option σ) (Nat × Bool × σ)} (found : r.process.openFile = some file)
    (ends : Ends (fun stop => ∀ s, stop = some s → P s) (fun y => P y.2.2) x)
    (resumed : ∀ s, P s → (resume s).Sound F K openers m ∧ (resume s).process.openFile = some file) :
    Ends (Halt.Sound F K openers m r.process.openFile) (fun x => x.2.Sound F K openers m)
      (Running.afterTransfer file resume x) := by
  rw [found]
  cases ends with
  | ok last =>
      obtain ⟨sound, same⟩ := resumed _ last
      have files := sound.files
      rw [same] at files
      exact .ok ⟨sound.pages, files⟩
  | error last =>
      rename_i stop
      cases stop with
      | none => exact .error trivial
      | some s =>
          obtain ⟨sound, same⟩ := resumed s (last s rfl)
          have exit := sound.exit
          rw [same] at exit
          exact .error exit

theorem Running.Sound.fileWrite (h : r.Sound F K openers m) (found : r.process.openFile = some file)
    (u : UserMemory) (buffer size : Nat) :
    Ends (Halt.Sound F K openers m r.process.openFile) (fun x => x.2.Sound F K openers m)
      (r.fileWrite u file buffer size) := by
  have files := h.files
  rw [found] at files
  have mine : file.inode ∈ openers ++ inodesOf (some file) :=
    List.mem_append_right _ (List.mem_singleton_self _)
  rw [Running.fileWrite]
  split
  next => exact .error trivial
  next inode opened =>
    have after {d : Disk} (written : Overwritten inode.data r.fs.device d) :
        Running.Sound F K openers m ⟨r.process, { r.fs.malloc.2 with device := d }⟩ := by
      refine ⟨h.pages, ?_⟩
      rw [found]
      exact files.overwrite mine opened written.size written.others
    refine .ite (fun _ => .ok (after ⟨rfl, fun _ _ => rfl⟩)) fun _ => ?_
    have onDisk := files.sound.onDisk opened
    refine afterTransfer_sound found ?_ fun d written => ⟨after written, found⟩
    apply transfer_ends _ _ (onDisk.fits.trans onDisk.device)
    · exact fun pos c d chunk before => writeFromUser_overwrites onDisk chunk u buffer before
    · exact ⟨rfl, fun _ _ => rfl⟩

theorem Running.Sound.fileRead (h : r.Sound F K openers m) (found : r.process.openFile = some file)
    (buffer size : Nat) :
    Ends (Halt.Sound F K openers m r.process.openFile) (fun x => x.2.Sound F K openers m)
      (r.fileRead file buffer size) := by
  have files := h.files
  rw [found] at files
  have mine : file.inode ∈ openers ++ inodesOf (some file) :=
    List.mem_append_right _ (List.mem_singleton_self _)
  rw [Running.fileRead]
  split
  next => exact .error trivial
  next inode opened =>
    have onDisk := files.sound.onDisk opened
    let Keeps (p : Process) := p.Owned F K ∧ p.openFile = some file
    have chunks (pos : Nat) (c : Chunk) (p : Process) (_ : ChunkAt inode.data pos c) (before : Keeps p) :
        Ends (fun stop => ∀ q, stop = some q → Keeps q) Keeps (readToUser r.fs.device buffer c p) := by
      obtain ⟨owned, same⟩ := before
      refine (owned.readToUser r.fs.device buffer c).imp (fun stop last q is => ?_) fun q after => ?_
      · exact ⟨(last q is).1, (last q is).2.trans same⟩
      · exact ⟨after.1, after.2.trans same⟩
    have kept (p : Process) (keeps : Keeps p) : Running.Sound F K openers m ⟨p, r.fs.malloc.2⟩ := by
      refine ⟨keeps.1, ?_⟩
      rw [keeps.2]
      exact files.overwrite mine opened rfl fun _ _ => rfl
    refine afterTransfer_sound found ?_ fun p keeps => ⟨kept p keeps, keeps.2⟩
    apply transfer_ends _ _ (onDisk.fits.trans onDisk.device) chunks
    exact ⟨h.pages, found⟩

theorem Running.Sound.syscallWrite (h : r.Sound F K openers m) (u : UserMemory) (fd buffer size : Nat) :
    Ends (Halt.Sound F K openers m r.process.openFile) (fun x => x.2.Sound F K openers m)
      (r.syscallWrite u fd buffer size) := by
  rw [Running.syscallWrite]
  refine .ite (fun _ => (h.guard _).bind fun _ _ => .ok h) fun _ => ?_
  split
  next => exact .ok h
  next file found => exact .ite (fun _ => .ok h) fun _ => h.fileWrite found u buffer _

theorem Running.Sound.syscallRead (h : r.Sound F K openers m) (fd buffer size : Nat) :
    Ends (Halt.Sound F K openers m r.process.openFile) (fun x => x.2.Sound F K openers m)
      (r.syscallRead fd buffer size) := by
  rw [Running.syscallRead]
  split
  next => exact .ok h
  next file found => exact .ite (fun _ => .ok h) fun _ => h.fileRead found buffer _

theorem Running.Sound.bufferCall (h : r.Sound F K openers m) (u : UserMemory) (esp : Nat)
    {handler : Nat → Nat → Nat → Except Halt (Int × Running)}
    (handles : ∀ fd buffer size, Ends (Halt.Sound F K openers m r.process.openFile) (fun x => x.2.Sound F K openers m)
      (handler fd buffer size)) :
    Ends (Halt.Sound F K openers m r.process.openFile) (fun x => x.2.Sound F K openers m)
      (r.bufferCall u esp handler) := by
  rw [Running.bufferCall]
  exact (h.arguments _ _ _).bind fun _ _ => (h.guard _).bind fun _ _ => handles ..

theorem Running.Sound.syscallHandler (h : r.Sound F K openers m) (high : Nat → Option UInt8) (esp : Nat)
    (grants : Nat → PageGrant) :
    Ends (Halt.Sound F K openers m r.process.openFile) (fun x => x.2.Sound F K openers m)
      (r.syscallHandler high esp grants) := by
  rw [Running.syscallHandler]
  refine (h.arguments _ _ _).bind fun _ _ => ?_
  refine .ite (fun _ => (h.arguments _ _ _).bind fun _ _ => .error h.exit) fun _ => ?_
  refine .ite (fun _ => (h.arguments _ _ _).bind fun _ _ => (h.guard _).bind fun _ _ =>
    (h.syscallOpen _).bind fun x sound => .ok sound) fun _ => ?_
  refine .ite (fun _ => (h.bufferCall _ _ (h.syscallWrite _)).bind fun x sound => .ok sound) fun _ => ?_
  refine .ite (fun _ => (h.bufferCall _ _ h.syscallRead).bind fun x sound => .ok sound) fun _ => ?_
  refine .ite (fun _ => (h.arguments _ _ _).bind fun _ _ =>
    (h.syscallClose _).bind fun x sound => .ok sound) fun _ => ?_
  exact .ite (fun _ => (h.arguments _ _ _).bind fun _ _ =>
    (h.syscallSbrk _ _).bind fun x sound => .ok sound) fun _ => .ok h

end Calls
end CS162.Pintos.HwMemory
