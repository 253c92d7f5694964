import CS162.Library.Handles
import CS162.Library.Transition
import CS162.Pintos.InodesGranted

/-!
Open files that deny writes (Pintos: file.c and inode.c). Every open file has a flag of its
own, and the inode that they share a count, which is to be the number of flags that are set.
-/

namespace CS162.Pintos.FileSystem
open CS162.Library

/-- `struct file`. -/
structure OpenFile where
  inode : Nat
  pos : Nat
  denyWrite : Bool

/-- The file system and the open files. The number of a closed file is not used again. -/
structure FileTable where
  fs : FileSys
  files : List (Option OpenFile)

namespace FileSys
variable (s : FileSys)

def inodeDenyWrite (p : Nat) : Except Panic FileSys := do
  let i ← s.inode p
  let i := { i with denyWriteCnt := i.denyWriteCnt + 1 }
  if i.denyWriteCnt ≤ i.openCnt then return s.setInode p (some i) else throw .assertion

def inodeAllowWrite (p : Nat) : Except Panic FileSys := do
  let i ← s.inode p
  if 0 < i.denyWriteCnt ∧ i.denyWriteCnt ≤ i.openCnt then
    return s.setInode p (some { i with denyWriteCnt := i.denyWriteCnt - 1 })
  else throw .assertion

end FileSys

namespace FileTable
variable (w : FileTable)

def file (h : Nat) : Except Panic OpenFile :=
  match Handles.get w.files h with
  | some f => .ok f
  | none => .error .badPointer

def setFile (h : Nat) (f : Option OpenFile) (fs : FileSys) : FileTable := ⟨fs, w.files.set h f⟩

def fileOpen (p : Option Nat) : Except Panic (Option Nat × FileTable) := do
  let (file, fs) ← w.fs.fileOpen p
  match file with
  | some f => return (some w.files.length, ⟨fs, w.files ++ [some ⟨f.inode, f.pos, false⟩]⟩)
  | none => return (none, ⟨fs, w.files⟩)

def fileReopen (h : Nat) : Except Panic (Option Nat × FileTable) := do
  let f ← w.file h
  { w with fs := w.fs.inodeReopen f.inode }.fileOpen (some f.inode)

def fileDenyWrite (h : Nat) : Except Panic FileTable := do
  let f ← w.file h
  if f.denyWrite then return w
  else
    let fs ← w.fs.inodeDenyWrite f.inode
    return w.setFile h (some { f with denyWrite := true }) fs

def fileAllowWrite (h : Nat) : Except Panic FileTable := do
  let f ← w.file h
  if f.denyWrite then
    let fs ← w.fs.inodeAllowWrite f.inode
    return w.setFile h (some { f with denyWrite := false }) fs
  else return w

def fileWrite (h : Nat) (buffer : Library.Memory) (size : Nat) : Except Panic (Nat × FileTable) := do
  let f ← w.file h
  let (n, fs) ← w.fs.writeAt f.inode buffer size f.pos
  return (n, w.setFile h (some { f with pos := f.pos + n }) fs)

def fileSeek (h pos : Nat) : Except Panic FileTable := do
  let f ← w.file h
  return w.setFile h (some { f with pos := pos }) w.fs

def fileClose (h : Nat) : Except Panic FileTable := do
  let w ← w.fileAllowWrite h
  let f ← w.file h
  let fs ← w.fs.inodeClose (some f.inode)
  return w.setFile h none fs

end FileTable

section Runs

inductive FileCall where
  | openFile (sector : Nat)
  | reopen (h : Nat)
  | denyWrite (h : Nat)
  | allowWrite (h : Nat)
  | write (h : Nat) (buffer : Library.Memory) (size : Nat)
  | seek (h pos : Nat)
  | close (h : Nat)

/-- A call, and what it makes of the open files. -/
def FileTable.call (w : FileTable) : FileCall → Except Panic FileTable
  | .openFile sector => do
      let (p, fs) ← w.fs.inodeOpen sector
      let (_, w) ← { w with fs := fs }.fileOpen p
      return w
  | .reopen h => do
      let (_, w) ← w.fileReopen h
      return w
  | .denyWrite h => w.fileDenyWrite h
  | .allowWrite h => w.fileAllowWrite h
  | .write h buffer size => do
      let (_, w) ← w.fileWrite h buffer size
      return w
  | .seek h pos => w.fileSeek h pos
  | .close h => w.fileClose h

/-- A sector that is opened holds an inode with its data on the disk, and only an open file is
used. -/
def FileAllowed (w : FileTable) : FileCall → Prop
  | .openFile sector =>
      sector < w.fs.device.size ∧ OnDisk w.fs.device (dataOf w.fs.device sector)
  | .reopen h | .denyWrite h | .allowWrite h | .write h .. | .seek h _ | .close h =>
      Handles.get w.files h ≠ none

instance (d : Disk) (data : InodeDisk) : Decidable (OnDisk d data) :=
  decidable_of_iff (data.start + bytesToSectors data.length ≤ d.size ∧ d.size ≤ 2 ^ 32)
    ⟨fun both => ⟨both.1, both.2⟩, fun h => ⟨h.fits, h.device⟩⟩

instance (w : FileTable) : (c : FileCall) → Decidable (FileAllowed w c)
  | .openFile _ => inferInstanceAs (Decidable (_ ∧ _))
  | .reopen h | .denyWrite h | .allowWrite h | .write h .. | .seek h _ | .close h =>
      decidable_of_iff ((Handles.get w.files h).isSome = true) (by
        rw [Option.isSome_iff_ne_none]; rfl)

end Runs

/-- The open files of an inode, and those of them that deny writes. -/
def FileTable.openers (w : FileTable) (p : Nat) : Nat :=
  Handles.count w.files fun f => f.inode == p

def FileTable.deniers (w : FileTable) (p : Nat) : Nat :=
  Handles.count w.files fun f => f.inode == p && f.denyWrite

/-- The counts of the open inodes. An opener that has no file yet is `pending`. -/
structure Denials (w : FileTable) (pending : Option Nat) : Prop where
  table : Table w.fs
  kept : ∀ p i, w.fs.inodes p = some i → i.removed = false ∧ OnDisk w.fs.device i.data
  denied : ∀ p i, w.fs.inodes p = some i → i.denyWriteCnt = w.deniers p
  opened : ∀ p i, w.fs.inodes p = some i →
    w.openers p + (if pending = some p then 1 else 0) ≤ i.openCnt
  files : ∀ h f, Handles.get w.files h = some f → w.fs.inodes f.inode ≠ none
  waits : ∀ p, pending = some p → w.fs.inodes p ≠ none

section
variable {w w' : FileTable} {fs : FileSys} {pending : Option Nat} {p h n : Nat} {f f' : OpenFile}
  {i i' : Inode}

theorem file_eq (found : Handles.get w.files h = some f) : w.file h = .ok f := by
  rw [FileTable.file, found]

theorem deniers_le (w : FileTable) (p : Nat) : w.deniers p ≤ w.openers p :=
  Handles.count_mono fun _ both => (Bool.and_eq_true_iff.mp both).1

theorem Denials.le (h : Denials w pending) (found : w.fs.inodes p = some i) :
    i.denyWriteCnt ≤ i.openCnt := by
  have least := deniers_le w p
  have most := h.opened p i found
  rw [h.denied p i found]
  omega

theorem Denials.set (d : Denials w pending) (file : Handles.get w.files h = some f)
    (found : w.fs.inodes f.inode = some i) (inode : f'.inode = f.inode) (table : Table fs)
    (inodes : fs.inodes = Function.update w.fs.inodes f.inode (some i'))
    (size : fs.device.size = w.fs.device.size) (removed : i'.removed = i.removed)
    (data : i'.data = i.data) (openCnt : i'.openCnt = i.openCnt)
    (count : i'.denyWriteCnt + f.denyWrite.toNat = i.denyWriteCnt + f'.denyWrite.toNat) :
    Denials (w.setFile h (some f') fs) pending := by
  have get (q : Nat) : fs.inodes q = if q = f.inode then some i' else w.fs.inodes q := by
    rw [inodes, Function.update_apply]
  have openers (q : Nat) : (w.setFile h (some f') fs).openers q = w.openers q := by
    have change := Handles.count_set file (some f') fun f => f.inode == q
    rw [Option.any_some, inode] at change
    exact Nat.add_right_cancel change
  have deniers (q : Nat) : (w.setFile h (some f') fs).deniers q +
      (if f.inode = q then f.denyWrite.toNat else 0) =
        w.deniers q + if f.inode = q then f'.denyWrite.toNat else 0 := by
    have change := Handles.count_set file (some f') fun f => f.inode == q && f.denyWrite
    rw [Option.any_some, inode] at change
    simp only [FileTable.deniers, FileTable.setFile]
    by_cases same : f.inode = q
    · have bit (b : Bool) : b.toNat = if b = true then 1 else 0 := by
        cases b with
        | true => rfl
        | false => rfl
      rw [if_pos same, if_pos same]
      simpa [same, bit] using change
    · rw [if_neg same, if_neg same]
      simpa [same] using change
  constructor
  case table => exact table
  case kept =>
    intro q j now
    have now : fs.inodes q = some j := now
    have old : ∀ j, w.fs.inodes q = some j → j.removed = false ∧ OnDisk fs.device j.data := by
      intro j was
      have kept := d.kept q j was
      exact ⟨kept.1, size ▸ kept.2.fits, size ▸ kept.2.device⟩
    rw [get] at now
    split at now
    next same =>
      cases now
      have kept := old i (same ▸ found)
      exact ⟨removed ▸ kept.1, data ▸ kept.2⟩
    next => exact old j now
  case denied =>
    intro q j now
    have now : fs.inodes q = some j := now
    have change := deniers q
    rw [get] at now
    split at now
    next same =>
      cases now
      have was := d.denied _ i found
      rw [if_pos same.symm, if_pos same.symm] at change
      rw [same] at change ⊢
      omega
    next other =>
      rw [if_neg (Ne.symm other), if_neg (Ne.symm other)] at change
      rw [d.denied q j now]
      exact change.symm
  case opened =>
    intro q j now
    have now : fs.inodes q = some j := now
    rw [openers]
    rw [get] at now
    split at now
    next same =>
      cases now
      rw [openCnt, same]
      exact d.opened _ i found
    next => exact d.opened q j now
  case files =>
    intro k g here
    have here : Handles.get (w.files.set h (some f')) k = some g := here
    show fs.inodes g.inode ≠ none
    rw [get]
    split
    next => exact Option.some_ne_none i'
    next other =>
      rw [Handles.get_set file] at here
      split at here
      next =>
        cases here
        exact absurd inode other
      next => exact d.files k g here
  case waits =>
    intro q waiting
    show fs.inodes q ≠ none
    rw [get]
    split
    next => exact Option.some_ne_none i'
    next => exact d.waits q waiting

theorem Denials.setSame (d : Denials w pending) (file : Handles.get w.files h = some f)
    (inode : f'.inode = f.inode) (flag : f'.denyWrite = f.denyWrite) (table : Table fs)
    (inodes : fs.inodes = w.fs.inodes) (size : fs.device.size = w.fs.device.size) :
    Denials (w.setFile h (some f') fs) pending := by
  obtain ⟨i, found⟩ := Option.ne_none_iff_exists'.mp (d.files h f file)
  refine d.set file found inode table ?_ size rfl rfl rfl (by rw [flag])
  rw [inodes, ← found, Function.update_eq_self]

/-- The first `file_deny_write` of a file sets its flag and counts it. -/
theorem Denials.denyFirst (d : Denials w none) (file : Handles.get w.files h = some f) (clear : f.denyWrite = false)
    (found : w.fs.inodes f.inode = some i) :
    let w' := w.setFile h (some { f with denyWrite := true })
      (w.fs.setInode f.inode (some { i with denyWriteCnt := i.denyWriteCnt + 1 }))
    w.fileDenyWrite h = .ok w' ∧ Denials w' none := by
  let i' : Inode := { i with denyWriteCnt := i.denyWriteCnt + 1 }
  have d' : Denials (w.setFile h (some { f with denyWrite := true })
      (w.fs.setInode f.inode (some i'))) none := by
    have table : Table (w.fs.setInode f.inode (some i')) :=
      d.table.set found rfl (d.table.counted _ i found)
    refine d.set file found rfl table rfl rfl rfl rfl rfl ?_
    rw [clear]
    rfl
  have most : i.denyWriteCnt + 1 ≤ i.openCnt :=
    d'.le (p := f.inode) (i := i') (Function.update_self ..)
  refine ⟨?_, d'⟩
  simp only [FileTable.fileDenyWrite, file_eq file, clear, FileSys.inodeDenyWrite, inode_eq found, bind, Except.bind,
    if_pos most]
  rfl

/-- `file_allow_write` of a file that denies writes clears its flag and takes it off the count. -/
theorem Denials.allowFirst (d : Denials w none) (file : Handles.get w.files h = some f) (set : f.denyWrite = true)
    (found : w.fs.inodes f.inode = some i) :
    let w' := w.setFile h (some { f with denyWrite := false })
      (w.fs.setInode f.inode (some { i with denyWriteCnt := i.denyWriteCnt - 1 }))
    w.fileAllowWrite h = .ok w' ∧ Denials w' none := by
  have some : 0 < i.denyWriteCnt := by
    rw [d.denied _ i found]
    apply Handles.count_pos.mpr
    exact ⟨h, f, file, by simp [set]⟩
  let i' : Inode := { i with denyWriteCnt := i.denyWriteCnt - 1 }
  have d' : Denials (w.setFile h (.some { f with denyWrite := false })
      (w.fs.setInode f.inode (.some i'))) none := by
    have table : Table (w.fs.setInode f.inode (.some i')) :=
      d.table.set found rfl (d.table.counted _ i found)
    refine d.set file found rfl table rfl rfl rfl rfl rfl ?_
    simp only [i', set, Bool.toNat_true, Bool.toNat_false]
    omega
  refine ⟨?_, d'⟩
  simp only [FileTable.fileAllowWrite, file_eq file, set, FileSys.inodeAllowWrite, inode_eq found, bind, Except.bind,
    if_pos (And.intro some (d.le found))]
  rfl

theorem fileDenyWrite_again (file : Handles.get w.files h = some f) (set : f.denyWrite = true) :
    w.fileDenyWrite h = .ok w := by
  simp only [FileTable.fileDenyWrite, file_eq file, bind, Except.bind, if_pos set]
  rfl

theorem fileAllowWrite_again (file : Handles.get w.files h = some f) (clear : f.denyWrite = false) :
    w.fileAllowWrite h = .ok w := by
  simp only [FileTable.fileAllowWrite, file_eq file, clear, bind, Except.bind, if_neg Bool.false_ne_true]
  rfl

theorem Denials.deny (d : Denials w none) (file : Handles.get w.files h = some f) :
    ∃ w', w.fileDenyWrite h = .ok w' ∧ Denials w' none := by
  cases flag : f.denyWrite with
  | true => exact ⟨w, fileDenyWrite_again file flag, d⟩
  | false =>
      obtain ⟨i, found⟩ := Option.ne_none_iff_exists'.mp (d.files h f file)
      exact ⟨_, d.denyFirst file flag found⟩

theorem Denials.allow (d : Denials w none) (file : Handles.get w.files h = some f) :
    ∃ w', w.fileAllowWrite h = .ok w' ∧ Denials w' none ∧
      Handles.get w'.files h = some { f with denyWrite := false } ∧ ∀ i, w.fs.inodes f.inode = some i →
        w'.fs.inodes f.inode = some { i with denyWriteCnt := i.denyWriteCnt - f.denyWrite.toNat } := by
  cases flag : f.denyWrite with
  | true =>
      obtain ⟨i, found⟩ := Option.ne_none_iff_exists'.mp (d.files h f file)
      obtain ⟨ran, d'⟩ := d.allowFirst file flag found
      refine ⟨_, ran, d', (Handles.get_set file _).trans (if_pos rfl), fun j same => ?_⟩
      cases found.symm.trans same
      exact Function.update_self ..
  | false =>
      refine ⟨w, fileAllowWrite_again file flag, d, ?_, fun j same => same⟩
      rw [file, ← flag]

theorem Denials.closeWaiting (d : Denials w (some p)) (found : w.fs.inodes p = some i)
    (table : Table fs) (inodes : fs.inodes = Function.update w.fs.inodes p
      (if i.openCnt = 1 then none else some { i with openCnt := i.openCnt - 1 }))
    (device : fs.device = w.fs.device) : Denials ⟨fs, w.files⟩ none := by
  have room := d.opened p i found
  rw [if_pos rfl] at room
  have get (q : Nat) : fs.inodes q = if q = p then
      if i.openCnt = 1 then none else some { i with openCnt := i.openCnt - 1 }
      else w.fs.inodes q := by
    rw [inodes, Function.update_apply]
  have old {q : Nat} {j : Inode} (now : fs.inodes q = some j) :
      ∃ j', w.fs.inodes q = some j' ∧ j.removed = j'.removed ∧ j.data = j'.data ∧
        j.denyWriteCnt = j'.denyWriteCnt ∧ w.openers q ≤ j.openCnt := by
    rw [get] at now
    split at now
    next same =>
      split at now
      next => cases now
      next =>
        cases now
        refine ⟨i, same ▸ found, rfl, rfl, rfl, ?_⟩
        rw [same]
        show w.openers p ≤ i.openCnt - 1
        omega
    next other =>
      have most := d.opened q j now
      exact ⟨j, now, rfl, rfl, rfl, by omega⟩
  constructor
  case table => exact table
  case kept =>
    intro q j now
    obtain ⟨j', was, removed, data, _⟩ := old now
    rw [removed, data]
    exact device ▸ d.kept q j' was
  case denied =>
    intro q j now
    obtain ⟨j', was, _, _, count, _⟩ := old now
    rw [count]
    exact d.denied q j' was
  case opened =>
    intro q j now
    obtain ⟨_, _, _, _, _, most⟩ := old now
    exact most
  case files =>
    intro k g here
    show fs.inodes g.inode ≠ none
    rw [get]
    split
    next same =>
      -- The file is an opener of its own.
      have some : 0 < w.openers p := Handles.count_pos.mpr ⟨k, g, here, by simp [same]⟩
      rw [if_neg (by omega)]
      exact Option.some_ne_none _
    next => exact d.files k g here
  case waits => exact fun _ no => (by cases no)

theorem Denials.fileOpen (d : Denials w (some p)) :
    ∃ result w', w.fileOpen (some p) = .ok (result, w') ∧ Denials w' none := by
  obtain ⟨i, found⟩ := Option.ne_none_iff_exists'.mp (d.waits p rfl)
  have room := d.opened p i found
  rw [if_pos rfl] at room
  simp only [FileTable.fileOpen, FileSys.fileOpen]
  cases memory : w.fs.malloc.1 with
  | true =>
      refine ⟨some w.files.length, ⟨w.fs.malloc.2, w.files ++ [some ⟨p, 0, false⟩]⟩, rfl, ?_⟩
      have openers (q : Nat) : FileTable.openers ⟨w.fs.malloc.2, w.files ++ [some ⟨p, 0, false⟩]⟩ q =
          w.openers q + if p = q then 1 else 0 := by
        refine (Handles.count_append ..).trans ?_
        simp [FileTable.openers]
      have deniers (q : Nat) :
          FileTable.deniers ⟨w.fs.malloc.2, w.files ++ [some ⟨p, 0, false⟩]⟩ q = w.deniers q := by
        refine (Handles.count_append ..).trans ?_
        simp [FileTable.deniers]
      constructor
      case table => exact d.table.congr (Kept.malloc w.fs)
      case kept => exact d.kept
      case denied =>
        intro q j now
        rw [deniers]
        exact d.denied q j now
      case opened =>
        intro q j now
        have most := d.opened q j now
        rw [openers]
        simpa only [Option.some.injEq, reduceCtorEq, if_false, Nat.add_zero] using most
      case files =>
        intro k g here
        rw [Handles.get_append] at here
        split at here
        next =>
          cases here
          exact d.waits p rfl
        next => exact d.files k g here
      case waits => exact fun _ no => (by cases no)
  | false =>
      have kept := d.kept p i found
      obtain ⟨s', closed, table, inodes, device, _⟩ := (d.table.congr (Kept.malloc w.fs)).closeKept
        (p := p) (i := i) found fun both => Bool.noConfusion (kept.1.symm.trans both.1)
      refine ⟨none, ⟨s', w.files⟩, ?_, d.closeWaiting found table inodes device⟩
      simp only [bind, Except.bind, closed]
      rfl

theorem Denials.dropFile (d : Denials w none) (file : Handles.get w.files h = some f)
    (clear : f.denyWrite = false) : Denials (w.setFile h none w.fs) (some f.inode) := by
  have openers (q : Nat) : (w.setFile h none w.fs).openers q + (if some f.inode = some q then 1 else 0) =
      w.openers q := by
    have change := Handles.count_set file none fun f => f.inode == q
    simpa [FileTable.openers, FileTable.setFile] using change
  have deniers (q : Nat) : (w.setFile h none w.fs).deniers q = w.deniers q := by
    have change := Handles.count_set file none fun f => f.inode == q && f.denyWrite
    simpa [FileTable.deniers, FileTable.setFile, clear] using change
  constructor
  case table => exact d.table
  case kept => exact d.kept
  case denied =>
    intro q j now
    rw [deniers]
    exact d.denied q j now
  case opened =>
    intro q j now
    rw [openers]
    exact d.opened q j now
  case files =>
    intro k g here
    have here : Handles.get (w.files.set h none) k = some g := here
    rw [Handles.get_set file] at here
    split at here
    next => cases here
    next => exact d.files k g here
  case waits =>
    intro q same
    cases same
    exact d.files h f file

theorem Denials.openInode (d : Denials w none) {k : Nat} (table : Table fs)
    (onDisk : w.fs.inodes p = none → OnDisk w.fs.device (dataOf w.fs.device k))
    (o : OpenedAs w.fs fs k p i) : Denials ⟨fs, w.files⟩ (some p) := by
  have get (q : Nat) : fs.inodes q = if q = p then some i else w.fs.inodes q := by
    rw [o.inodes, Function.update_apply]
  have unused (new : w.fs.inodes p = none) : w.openers p = 0 := by
    by_contra some
    obtain ⟨k, g, here, same⟩ := Handles.count_pos.mp (Nat.pos_of_ne_zero some)
    exact d.files k g here (eq_of_beq same ▸ new)
  constructor
  case table => exact table
  case kept =>
    intro q j now
    have now : fs.inodes q = some j := now
    show j.removed = false ∧ OnDisk fs.device j.data
    rw [o.device]
    rw [get] at now
    split at now
    next same =>
      cases now
      obtain ⟨new, rfl, _⟩ | ⟨j', was, rfl⟩ := o.origin
      · exact ⟨rfl, onDisk new⟩
      · exact d.kept p j' was
    next => exact d.kept q j now
  case denied =>
    intro q j now
    have now : fs.inodes q = some j := now
    show j.denyWriteCnt = w.deniers q
    rw [get] at now
    split at now
    next same =>
      cases now
      rw [same]
      obtain ⟨new, rfl, _⟩ | ⟨j', was, rfl⟩ := o.origin
      · have least := deniers_le w p
        rw [unused new] at least
        exact (Nat.le_zero.mp least).symm
      · exact d.denied p j' was
    next => exact d.denied q j now
  case opened =>
    intro q j now
    have now : fs.inodes q = some j := now
    show w.openers q + _ ≤ j.openCnt
    rw [get] at now
    split at now
    next same =>
      cases now
      rw [same, if_pos rfl]
      obtain ⟨new, rfl, _⟩ | ⟨j', was, rfl⟩ := o.origin
      · rw [unused new]
      · exact Nat.succ_le_succ (d.opened p j' was)
    next other =>
      rw [if_neg fun same => other (Option.some.inj same).symm]
      exact d.opened q j now
  case files =>
    intro k g here
    show fs.inodes g.inode ≠ none
    rw [get]
    split
    next => exact Option.some_ne_none i
    next => exact d.files k g here
  case waits =>
    intro q same
    cases same
    show fs.inodes p ≠ none
    rw [get, if_pos rfl]
    exact Option.some_ne_none i

theorem Denials.openCall (d : Denials w none) {sector : Nat} (inside : sector < w.fs.device.size)
    (onDisk : OnDisk w.fs.device (dataOf w.fs.device sector)) :
    ∃ w', w.call (.openFile sector) = .ok w' ∧ Denials w' none := by
  obtain ⟨result, fs, ran, table, _, none, some⟩ := d.table.openInode inside
  simp only [FileTable.call, ran, bind, Except.bind]
  cases result with
  | none =>
      have asked := (none rfl).trans (Asked.malloc fs)
      refine ⟨⟨fs.malloc.2, w.files⟩, ?_, ?_⟩
      · simp only [FileTable.fileOpen, FileSys.fileOpen]
        rfl
      · have inodes : fs.malloc.2.inodes = w.fs.inodes := asked.inodes
        constructor
        case table => exact d.table.congr asked.toKept
        case kept =>
          intro q j now
          show j.removed = false ∧ OnDisk fs.malloc.2.device j.data
          rw [asked.device]
          exact d.kept q j (inodes ▸ now)
        case denied => exact fun q j now => d.denied q j (inodes ▸ now)
        case opened => exact fun q j now => d.opened q j (inodes ▸ now)
        case files =>
          intro k g here
          show fs.malloc.2.inodes g.inode ≠ .none
          rw [inodes]
          exact d.files k g here
        case waits => exact fun _ no => (by cases no)
  | some p =>
      obtain ⟨i, opened⟩ := some p rfl
      obtain ⟨result, w', ran', d'⟩ := (d.openInode table (fun _ => onDisk) opened).fileOpen
      refine ⟨w', ?_, d'⟩
      simp only [ran']
      rfl

theorem Denials.reopenCall (d : Denials w none) (file : Handles.get w.files h = some f) :
    ∃ w', w.call (.reopen h) = .ok w' ∧ Denials w' none := by
  obtain ⟨i, found⟩ := Option.ne_none_iff_exists'.mp (d.files h f file)
  have reopened : w.fs.inodeReopen f.inode =
      w.fs.setInode f.inode (some { i with openCnt := i.openCnt + 1 }) := by
    rw [FileSys.inodeReopen, found]
    rfl
  have table : Table (w.fs.inodeReopen f.inode) := by
    rw [reopened]
    exact d.table.set found rfl (Nat.succ_pos _)
  have opened : OpenedAs w.fs (w.fs.inodeReopen f.inode) i.sector f.inode
      { i with openCnt := i.openCnt + 1 } := by
    refine ⟨rfl, rfl, rfl, ?_, rfl, .inr ⟨i, found, rfl⟩⟩
    rw [reopened]
    rfl
  have waits := d.openInode table (fun none => absurd none (d.files h f file)) opened
  obtain ⟨result, w', ran, d'⟩ := waits.fileOpen
  refine ⟨w', ?_, d'⟩
  have ran : { w with fs := w.fs.inodeReopen f.inode }.fileOpen (some f.inode) = _ := ran
  simp only [FileTable.call, FileTable.fileReopen, file_eq file, bind, Except.bind, ran]
  rfl

theorem Denials.closeCall (d : Denials w none) (file : Handles.get w.files h = some f) :
    ∃ w', w.call (.close h) = .ok w' ∧ Denials w' none ∧ Handles.get w'.files h = none ∧
      ∀ i i', w.fs.inodes f.inode = some i → w'.fs.inodes f.inode = some i' →
        i'.denyWriteCnt = i.denyWriteCnt - f.denyWrite.toNat := by
  obtain ⟨w₁, allowed, d₁, file₁, count₁⟩ := d.allow file
  obtain ⟨i, found⟩ := Option.ne_none_iff_exists'.mp (d.files h f file)
  have found₁ := count₁ i found
  have waits := d₁.dropFile file₁ rfl
  obtain ⟨fs, closed, table, inodes, device, _⟩ := d₁.table.closeKept found₁
    fun both => Bool.noConfusion ((d₁.kept _ _ found₁).1.symm.trans both.1)
  refine ⟨w₁.setFile h none fs, ?_, waits.closeWaiting found₁ table inodes device, ?_, ?_⟩
  · simp only [FileTable.call, FileTable.fileClose, allowed, file_eq file₁, bind, Except.bind, closed]
    rfl
  · exact (Handles.get_set file₁ _).trans (if_pos rfl)
  · intro j j' was now
    cases found.symm.trans was
    have now : fs.inodes f.inode = some j' := now
    rw [inodes, Function.update_self] at now
    split at now
    next => cases now
    next =>
      cases now
      rfl

theorem Denials.write (d : Denials w none) (file : Handles.get w.files h = some f)
    (found : w.fs.inodes f.inode = some i) (buffer : Library.Memory) (size : Nat) :
    ∃ n w', w.fileWrite h buffer size = .ok (n, w') ∧ Denials w' none ∧
      (0 < size → f.pos < i.data.length → w.fs.malloc.1 = true →
        (n = 0 ↔ ∃ k g, Handles.get w.files k = some g ∧ g.inode = f.inode ∧
          g.denyWrite = true)) := by
  have onDisk := (d.kept _ i found).2
  have denied : 0 < i.denyWriteCnt ↔ ∃ k g, Handles.get w.files k = some g ∧ g.inode = f.inode ∧
      g.denyWrite = true := by
    rw [d.denied _ i found, FileTable.deniers, Handles.count_pos]
    simp only [Bool.and_eq_true, beq_iff_eq]
  have done {n : Nat} {device : Disk} (size' : device.size = w.fs.device.size) :
      Denials (w.setFile h (some { f with pos := f.pos + n })
        { w.fs.malloc.2 with device := device }) none :=
    d.setSame file rfl rfl ((d.table.congr (Kept.malloc w.fs)).congr ⟨rfl, rfl, rfl, rfl, rfl⟩) rfl size'
  simp only [FileTable.fileWrite, file_eq file, bind, Except.bind]
  by_cases allowed : i.denyWriteCnt = 0
  · cases memory : w.fs.malloc.1 with
    | true =>
        obtain ⟨device, ran, _, size', _⟩ :=
          writeAt_granted memory found onDisk allowed buffer size f.pos
        simp only [ran]
        refine ⟨_, _, rfl, done size', fun some inside _ => ?_⟩
        refine iff_of_false ?_ fun denies => ?_
        · simp only [bytesLeft]
          omega
        · rw [← denied, allowed] at denies
          exact Nat.lt_irrefl 0 denies
    | false =>
        obtain ⟨n, device, ran, _, size', _⟩ := writeAt_spec found onDisk allowed buffer size f.pos
        simp only [ran]
        exact ⟨n, _, rfl, done size', fun _ _ no => (by cases no)⟩
  · have ran : w.fs.writeAt f.inode buffer size f.pos = .ok (0, { w.fs.malloc.2 with
        device := w.fs.device }) := by
      simp only [FileSys.writeAt, inode_eq found, bind, Except.bind, inodeWriteAt, if_pos allowed]
      rfl
    simp only [ran]
    exact ⟨0, _, rfl, done rfl, fun _ _ _ => iff_of_true rfl
      (denied.mp (Nat.pos_of_ne_zero allowed))⟩

theorem Denials.call (d : Denials w none) (c : FileCall) (allowed : FileAllowed w c) :
    ∃ w', w.call c = .ok w' ∧ Denials w' none := by
  cases c with
  | openFile sector => exact d.openCall allowed.1 allowed.2
  | reopen h =>
      obtain ⟨f, file⟩ := Option.ne_none_iff_exists'.mp allowed
      exact d.reopenCall file
  | denyWrite h =>
      obtain ⟨f, file⟩ := Option.ne_none_iff_exists'.mp allowed
      exact d.deny file
  | allowWrite h =>
      obtain ⟨f, file⟩ := Option.ne_none_iff_exists'.mp allowed
      obtain ⟨w', ran, d', _⟩ := d.allow file
      exact ⟨w', ran, d'⟩
  | write h buffer size =>
      obtain ⟨f, file⟩ := Option.ne_none_iff_exists'.mp allowed
      obtain ⟨i, found⟩ := Option.ne_none_iff_exists'.mp (d.files h f file)
      obtain ⟨n, w', ran, d', _⟩ := d.write file found buffer size
      refine ⟨w', ?_, d'⟩
      simp only [FileTable.call, ran, bind, Except.bind]
      rfl
  | seek h pos =>
      obtain ⟨f, file⟩ := Option.ne_none_iff_exists'.mp allowed
      refine ⟨w.setFile h (some { f with pos := pos }) w.fs, ?_, ?_⟩
      · simp only [FileTable.call, FileTable.fileSeek, file_eq file, bind, Except.bind]
        rfl
      · exact d.setSame file rfl rfl d.table rfl rfl
  | close h =>
      obtain ⟨f, file⟩ := Option.ne_none_iff_exists'.mp allowed
      obtain ⟨w', ran, d', _⟩ := d.closeCall file
      exact ⟨w', ran, d'⟩

end
end CS162.Pintos.FileSystem
