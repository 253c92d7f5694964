import CS162.Pintos.ProcessCalls

/-!
What is left of a process of hw-memory behind `thread_exit`. Its pages are always given
back, each once. `process_exit` does not close `open_file`, so a process that ends while it
has a file open leaves the inode with an opener that is gone, and the sectors of the file
are never released if it is removed.
-/

namespace CS162.Pintos.HwMemory
open CS162.Library ProjPregame
open FileSystem (FileSys File Kempt Callers SectorLaw Event)

section Start
variable {F K : Nat → Prop} {openers : List Nat} {m : Nat} {pools pools' : Pools} {fileName : Nat}
variable {s s' : AddressSpace}

/-- The pages of a process that was created: the one with its name. -/
structure NamePage (frames pages : Nat → Prop) (pools : Pools) (fileName : Nat) : Prop where
  pools : PoolsOf frames (fun page => page = fileName ∨ pages page) pools
  new : ¬ pages fileName

theorem NamePage.freePools (h : NamePage F K pools fileName)
    (freed : pools.freeKernelPage fileName = .ok pools') : PoolsOf F K pools' := by
  rw [Pools.freeKernelPage] at freed
  split at freed
  next =>
    cases freed
    refine ⟨h.pools.frames, fun page => ?_⟩
    by_cases same : page = fileName
    · simp [same, h.new]
    · simp [h.pools.pages, same]
  next => cases freed

theorem NamePage.freeSpace (h : NamePage F K pools fileName)
    (owned : SpaceOwned (fun frame => pools.used frame = true) (fun page => pools.kernel page = true) s)
    (freed : freeKernelPage s fileName = .ok s') : SpaceOwned F K s' := by
  have frames : (fun frame => pools.used frame = true) = F :=
    funext fun frame => propext (h.pools.frames frame)
  have pages : (fun page => pools.kernel page = true) = fun page => page = fileName ∨ K page :=
    funext fun page => propext (h.pools.pages page)
  rw [frames, pages] at owned
  rw [freeKernelPage] at freed
  split at freed
  next =>
    cases freed
    refine ⟨owned.frames, ?_, owned.user⟩
    refine owned.kernel.shrink h.new fun page => ?_
    by_cases same : page = fileName
    · simp [same]
    · simp [same]
  next => cases freed

/-- `start_process`, wherever `load` fails. -/
theorem startProcess_sound {fs : FileSys} (named : NamePage F K pools fileName)
    (files : Kempt ⟨fs, openers⟩ m) (name : List UInt8) (grants : LoadGrants) :
    Ends (Halt.Sound F K openers m none) (Running.Sound F K openers m)
      (startProcess pools fs fileName name grants) := by
  have opens : Yields (fun x => Kempt ⟨x.2, openers ++ inodesOf x.1⟩ m)
      (if (kernelPage pools.kernel grants.directory).isSome then fs.filesysOpen name
        else .ok (none, fs)) :=
    .ite (fun _ => filesysOpen_kempt files name) fun _ => .ok (kempt_closed.mpr files)
  rw [startProcess]
  split
  next => exact .error trivial
  next file fs opened =>
    have closes := fileClose_kempt (opens.get opened)
    split
    next loaded closed =>
      split
      next => exact .error trivial
      next freed => exact .error ⟨⟨named.freePools freed, kempt_closed.mpr (closes.get closed)⟩, rfl⟩
    next loaded closed =>
      split
      next => exact .error trivial
      next freed =>
        have owned := named.freeSpace (load_owned loaded) freed
        refine .ite (fun _ => .ok ⟨owned, kempt_closed.mpr (closes.get closed)⟩) fun _ => ?_
        exact .error ⟨⟨owned, kempt_closed.mpr (closes.get closed)⟩, rfl⟩
    next => exact .error trivial

end Start

section Life
variable {w w' : World} {F K : Nat → Prop} {openers : List Nat} {m : Nat} {pools : Pools}

/-- The pages that the thread holds where it is. -/
def Stage.Owned (frames pages : Nat → Prop) : Stage → Prop
  | .created pools fileName => NamePage frames pages pools fileName
  | .running p => p.Owned frames pages
  | .exited pools _ => PoolsOf frames pages pools

/-- What other threads do not own is the process's, and it is one opener of its file. -/
structure World.Sound (w : World) (m : Nat) : Prop where
  pages : w.stage.Owned (fun frame => w.frames frame = true) fun page => w.pages page = true
  files : Kempt ⟨w.fs, w.openers ++ inodesOf w.stage.openFile⟩ m

/-- A thread of this world that exits. -/
abbrev World.Exits (w : World) (m : Nat) : Halt → Prop :=
  Halt.Sound (fun frame => w.frames frame = true) (fun page => w.pages page = true) w.openers m
    w.stage.openFile

theorem World.Sound.onProcess (h : w.Sound m) {f : Running → Except Halt Running}
    (keeps : ∀ F K (r : Running), r.Sound F K w.openers m → r.Keeps F K w.openers m (f r)) :
    Ends (w.Exits m) (World.Sound · m) (w.onProcess f) := by
  obtain ⟨stage, fs, openers, frames, pages⟩ := w
  cases stage with
  | created | exited => exact .error trivial
  | running p => exact (keeps _ _ ⟨p, fs⟩ ⟨h.pages, h.files⟩).map fun r sound => ⟨sound.pages, sound.files⟩

theorem next_append {fs : FileSys} {openers own : List Nat} {c : FileSystem.Call}
    (allowed : FileSystem.Allowed ⟨fs, openers⟩ c) :
    FileSystem.next ⟨fs, openers ++ own⟩ c =
      (FileSystem.next ⟨fs, openers⟩ c).map fun w => ⟨w.fs, w.openers ++ own⟩ := by
  cases c with
  | create | writeAt | remove =>
      simp only [FileSystem.next, Option.map_map]
      rfl
  | openFile name =>
      simp only [FileSystem.next, Option.map_map, ← List.append_assoc]
      rfl
  | reopen p => rfl
  | close p =>
      simp only [FileSystem.next, Option.map_map, List.erase_append_left own allowed]
      rfl

theorem allowed_append {fs : FileSys} {openers own : List Nat} {c : FileSystem.Call}
    (allowed : FileSystem.Allowed ⟨fs, openers⟩ c) : FileSystem.Allowed ⟨fs, openers ++ own⟩ c := by
  cases c with
  | create | openFile | remove => exact allowed
  | reopen | writeAt | close => exact List.mem_append_left _ allowed

theorem World.Sound.otherCall (h : w.Sound m) {c : FileSystem.Call} (done : w.otherCall c = some w') :
    w'.Sound m := by
  rw [World.otherCall] at done
  split at done
  next allowed =>
    obtain ⟨callers, ran, rfl⟩ := Option.map_eq_some_iff.mp done
    obtain ⟨after, step, kempt, -⟩ := h.files.next c (allowed_append allowed)
    rw [next_append allowed, ran] at step
    cases step
    exact ⟨h.pages, kempt⟩
  next => cases done

theorem Stage.Owned.setUsed {frames : Nat → Bool} {stage : Stage} {n : Nat} {taken : Bool}
    (h : stage.Owned (fun frame => frames frame = true) K)
    (able : if taken then stage.pools.used n = false else frames n = true) :
    (stage.setPools { stage.pools with used := Function.update stage.pools.used n taken }).Owned
      (fun frame => Function.update frames n taken frame = true) K := by
  have iff {used : Nat → Bool} (same : ∀ frame, used frame = true ↔ frames frame = true) (frame : Nat) :
      Function.update used n taken frame = true ↔ Function.update frames n taken frame = true := by
    by_cases equal : frame = n
    · simp [equal]
    · simp [equal, same]
  cases stage with
  | created pools fileName => exact ⟨⟨iff h.pools.frames, h.pools.pages⟩, h.new⟩
  | running p => exact ⟨h.frames.set able, h.kernel, h.user⟩
  | exited pools openFile => exact ⟨iff h.frames, h.pages⟩

theorem Stage.Owned.setKernel {pages : Nat → Bool} {stage : Stage} {n : Nat} {taken : Bool}
    (h : stage.Owned F fun page => pages page = true)
    (able : if taken then stage.pools.kernel n = false else pages n = true) :
    (stage.setPools { stage.pools with kernel := Function.update stage.pools.kernel n taken }).Owned
      F fun page => Function.update pages n taken page = true := by
  cases stage with
  | created pools fileName =>
      have other : fileName ≠ n := by
        intro same
        subst same
        cases taken with
        | true =>
            have free : pools.kernel fileName = false := able
            rw [(h.pools.pages fileName).mpr (.inl rfl)] at free
            cases free
        | false => exact h.new able
      refine ⟨⟨h.pools.frames, fun page => ?_⟩, ?_⟩
      · by_cases equal : page = n
        · simp [Stage.pools, equal, other.symm]
        · simp [Stage.pools, equal, h.pools.pages]
      · rw [Function.update_of_ne other]
        exact h.new
  | running p => exact ⟨h.frames, h.kernel.set able, h.user⟩
  | exited pools openFile =>
      refine ⟨h.frames, fun page => ?_⟩
      by_cases equal : page = n
      · simp [Stage.pools, equal]
      · simp [Stage.pools, equal, h.pages]

theorem openFile_setPools (stage : Stage) : (stage.setPools pools).openFile = stage.openFile := by
  cases stage <;> rfl

theorem World.Sound.otherPage (h : w.Sound m) {pool : PoolName} {n : Nat} {taken : Bool}
    (done : w.otherPage pool n taken = some w') : w'.Sound m := by
  cases pool with
  | user =>
      rw [World.otherPage] at done
      obtain ⟨able, same⟩ := Option.ite_none_right_eq_some.mp done
      cases same
      refine ⟨h.pages.setUsed able, ?_⟩
      rw [openFile_setPools]
      exact h.files
  | kernel =>
      rw [World.otherPage] at done
      obtain ⟨able, same⟩ := Option.ite_none_right_eq_some.mp done
      cases same
      refine ⟨h.pages.setKernel able, ?_⟩
      rw [openFile_setPools]
      exact h.files

theorem World.Sound.step (h : w.Sound m) (o : Occurrence) :
    Ends (w.Exits m) (World.Sound · m) (w.step o) := by
  have other {x : Option World} (sound : ∀ w', x = some w' → w'.Sound m) :
      Ends (w.Exits m) (World.Sound · m) (x.elim (.error .stops) .ok) := by
    cases x with
    | none => exact .error trivial
    | some w' => exact .ok (sound w' rfl)
  cases o with
  | start name grants =>
      obtain ⟨stage, fs, openers, frames, pages⟩ := w
      cases stage with
      | created pools fileName =>
          have started := startProcess_sound h.pages (kempt_closed.mp h.files) name grants
          exact started.map fun r sound => ⟨sound.pages, sound.files⟩
      | running | exited => exact .error trivial
  | read addr =>
      rw [World.step]
      apply h.onProcess
      exact fun F K r sound => .ite (fun _ => .ok sound) fun _ => .error sound.exit
  | store addr byte =>
      rw [World.step]
      apply h.onProcess
      intro F K r sound
      split
      next p stored =>
        obtain ⟨owned, same⟩ := sound.pages.store stored
        have files := sound.files
        rw [← same] at files
        exact .ok ⟨owned, files⟩
      next => exact .error sound.exit
  | exception =>
      rw [World.step]
      apply h.onProcess
      exact fun F K r sound => .error sound.exit
  | syscall high esp grants =>
      rw [World.step]
      apply h.onProcess
      exact fun F K r sound => (sound.syscallHandler high esp grants).map fun x after => after
  | others c => exact other fun w' => h.otherCall
  | page pool n taken => exact other fun w' => h.otherPage

/-- Behind `process_exit` all pages of the process are free. -/
theorem processExit_spec {last : Ending} (h : last.Sound F K openers m) :
    ∃ pools, processExit last.memory = .ok pools ∧ PoolsOf F K pools := by
  obtain ⟨memory, openFile, fs⟩ := last
  cases memory with
  | inl pools => exact ⟨pools, rfl, h.pages⟩
  | inr space =>
      obtain ⟨space', destroyed, frames, pages⟩ := pagedirDestroy_spec h.pages
      refine ⟨poolsOf space', ?_, frames, pages⟩
      rw [processExit, destroyed]

theorem World.Sound.exit (h : w.Sound m) {o : Occurrence} {last : Ending}
    (exits : w.step o = .error (.exits last)) : ∃ pools w', w.next o = some w' ∧ w'.Sound m ∧
      w'.stage = .exited pools w.stage.openFile := by
  obtain ⟨sound, same⟩ := (h.step o).stop exits
  obtain ⟨pools, freed, owned⟩ := processExit_spec sound
  refine ⟨pools, { w with stage := .exited pools last.openFile, fs := last.fs }, ?_, ⟨owned, sound.files⟩,
    same ▸ rfl⟩
  rw [World.next, exits]
  simp only [freed]

theorem World.Sound.next (h : w.Sound m) {o : Occurrence} (done : w.next o = some w') : w'.Sound m := by
  generalize ran : w.step o = x
  cases x with
  | ok after =>
      rw [World.next, ran] at done
      cases done
      exact (h.step o).get ran
  | error halt =>
      cases halt with
      | exits last =>
          obtain ⟨pools, after, exits, sound, -⟩ := h.exit ran
          cases exits.symm.trans done
          exact sound
      | stops =>
          rw [World.next, ran] at done
          cases done

theorem sound_of_created (h : Created w) : ∃ m, w.Sound m := by
  obtain ⟨starts, pools, fileName, stage, inUse, frames, pages⟩ := h
  obtain ⟨m, kempt⟩ := FileSystem.kempt_of_starts starts
  refine ⟨m, ?_, ?_⟩
  · rw [stage, frames, pages]
    refine ⟨⟨fun frame => Iff.rfl, fun page => ?_⟩, by simp⟩
    by_cases same : page = fileName
    · simp [same, inUse]
    · simp [same]
  · rw [stage]
    exact kempt_closed.mpr kempt

theorem sound_of_reachable (h : life.Reachable w) : ∃ m, w.Sound m := by
  refine h.invariant (fun w => sound_of_created) ?_
  intro w o w' sound step
  obtain ⟨m, sound⟩ := sound
  exact ⟨m, sound.next step⟩

/-- The process has left nothing behind: the pages in use and the openers of inodes are those
of other threads. -/
structure Released (w : World) : Prop where
  pages : PoolsOf (fun frame => w.frames frame = true) (fun page => w.pages page = true) w.stage.pools
  files : SectorLaw ⟨w.fs, w.openers⟩

theorem World.Sound.freed_iff (h : w.Sound m) {openFile : Option File}
    (exited : w.stage = .exited pools openFile) : Released w ↔ openFile = none := by
  have pages := h.pages
  have files := h.files
  rw [exited] at pages files
  constructor
  · intro released
    by_contra left
    obtain ⟨file, rfl⟩ := Option.ne_none_iff_exists'.mp left
    have law := files.law
    have more : Callers.all ⟨w.fs, w.openers ++ [file.inode]⟩ =
        Callers.all ⟨w.fs, w.openers⟩ ++ [file.inode] := (List.append_assoc ..).symm
    have mine : file.inode ∈ Callers.all ⟨w.fs, w.openers ++ [file.inode]⟩ := by simp [more]
    obtain ⟨i, found⟩ := Option.ne_none_iff_exists'.mp ((law.opened file.inode).mp mine)
    have count := (law.counted file.inode i found).symm.trans (released.files.counted file.inode i found)
    simp only [Stage.openFile, inodesOf, Option.map_some, Option.toList_some, more,
      List.count_append, List.count_cons_self, List.count_nil] at count
    omega
  · intro closed
    subst closed
    refine ⟨?_, (kempt_closed.mp files).law⟩
    rw [exited]
    exact pages

/-- Whatever the process did before: when it ends, every page of it is freed, and nothing else is
left of it exactly if it has no file open. -/
theorem released_iff (run : life.Reachable w) :
    (∀ o last, w.step o = .error (.exits last) →
      ∃ w', w.next o = some w' ∧ (Released w' ↔ w.stage.openFile = none)) ∧
    ∀ pools openFile, w.stage = .exited pools openFile →
      PoolsOf (fun frame => w.frames frame = true) (fun page => w.pages page = true) pools ∧
        (Released w ↔ openFile = none) := by
  obtain ⟨m, sound⟩ := sound_of_reachable run
  constructor
  · intro o last exits
    obtain ⟨pools, w', step, sound', exited⟩ := sound.exit exits
    exact ⟨w', step, sound'.freed_iff exited⟩
  · intro pools openFile exited
    have pages := sound.pages
    rw [exited] at pages
    exact ⟨pages, sound.freed_iff exited⟩

section Sample

/-- The page with the name is the first of the kernel pool. -/
def created (fs : FileSys) : World where
  stage := .created ⟨fun _ => false, fun _ _ => 0, fun page => page = 0⟩ 0
  fs := fs
  openers := []
  frames _ := false
  pages _ := false

/-- The executable is written, and a process is started from it. -/
def starting : List Occurrence :=
  [.others (.create [97] 88), .others (.openFile [97]),
    .others (.writeAt 4 (fun i => (smallProgram 84 0x8048054 4 4).bytes.getD i 0) 88 0),
    .others (.close 4),
    .start [97] ⟨some 1, none, fun _ => none, fun _ j => ⟨some j, some 2, none⟩, ⟨some 9, some 3, none⟩⟩]

/-- The word that a system call finds at an address of the stack. -/
def storing (addr word : Nat) : List Occurrence :=
  (List.range 4).map fun i => .store (addr + i) (UInt8.ofNat (word / 256 ^ i))

def calling : Occurrence := .syscall (fun _ => none) 0xbffffff0 fun _ => ⟨none, none, none⟩

/-- The process opens its own executable. -/
def opening : List Occurrence :=
  storing 0xbffffff0 sysOpen ++ storing 0xbffffff4 0xbffffff8 ++ storing 0xbffffff8 97 ++ [calling]

def closing : List Occurrence := storing 0xbffffff0 sysClose ++ storing 0xbffffff4 2 ++ [calling]

theorem reachable_of_run (p : World → Bool) (as : List Occurrence)
    (run : ((FileSystem.filesysInit true ⟨12, fun _ _ => 0⟩ (fun _ => true) fun _ => 0).toOption.bind
      fun fs => System.exec World.next (created fs) as).any p = true) :
    ∃ w, life.Reachable w ∧ p w = true := by
  cases init : FileSystem.filesysInit true ⟨12, fun _ _ => 0⟩ (fun _ => true) fun _ => 0 with
  | error =>
      rw [init] at run
      cases run
  | ok fs =>
      rw [init] at run
      apply System.exists_reachable Created World.next p _ as run
      refine ⟨⟨rfl, _, _, _, by decide, init⟩, _, 0, rfl, by decide, rfl, ?_⟩
      funext page
      by_cases same : page = 0
      · simp [created, same]
      · simp [created, same]

/-- The process closes its file and then stops at an exception. -/
theorem released_of_closing : ∃ w, life.Reachable w ∧ w.stage.openFile = none ∧
    ((∀ o last, w.step o = .error (.exits last) →
        ∃ w', w.next o = some w' ∧ (Released w' ↔ w.stage.openFile = none)) ∧
      ∀ pools openFile, w.stage = .exited pools openFile →
        PoolsOf (fun frame => w.frames frame = true) (fun page => w.pages page = true) pools ∧
          (Released w ↔ openFile = none)) := by
  obtain ⟨w, run, closed⟩ := reachable_of_run (fun w => w.stage.openFile.isNone)
    (starting ++ opening ++ closing ++ [.exception]) (by decide +kernel)
  exact ⟨w, run, Option.isNone_iff_eq_none.mp closed, released_iff run⟩

def Stage.hasExited : Stage → Bool
  | .exited .. => true
  | _ => false

/-- An exception ends the process while its file is open, and the file is removed. Nobody has it
open, and its sectors are not released. -/
theorem not_released : ∃ w, life.Reachable w ∧ ∃ pools openFile, w.stage = .exited pools openFile ∧
    (w.openers = [] ∧ w.fs.events.any (Event.removes 8) = true ∧
      w.fs.events.countP (Event.releases 8) = 0) ∧ ¬ SectorLaw ⟨w.fs, w.openers⟩ := by
  obtain ⟨w, run, checks⟩ := reachable_of_run
    (fun w => w.stage.hasExited && decide (w.openers = [] ∧ w.fs.events.any (Event.removes 8) = true ∧
      w.fs.events.countP (Event.releases 8) = 0) && (w.fs.inodes 8).any fun i =>
        decide (i.openCnt ≠ (Callers.all ⟨w.fs, w.openers⟩).count 8))
    (starting ++ opening ++ [.exception, .others (.remove [97])]) (by decide +kernel)
  simp only [Bool.and_eq_true, decide_eq_true_eq] at checks
  obtain ⟨⟨ended, leaked⟩, counted⟩ := checks
  refine ⟨w, run, ?_⟩
  cases exited : w.stage with
  | created | running =>
      rw [exited] at ended
      cases ended
  | exited pools openFile =>
      refine ⟨pools, openFile, rfl, leaked, fun law => ?_⟩
      obtain ⟨i, found, differ⟩ := (Option.any_eq_true ..).mp counted
      exact of_decide_eq_true differ (law.counted 8 i found)

end Sample
end Life
end CS162.Pintos.HwMemory
