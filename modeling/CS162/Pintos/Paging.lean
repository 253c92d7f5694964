import Mathlib.Logic.Function.Basic
import Mathlib.Tactic.Ring
import CS162.Library.Ownership

/-!
Virtual addresses, page directories, the pool of user frames, and the address space of a
process with the pages of the kernel pool behind it (Pintos: vaddr.h, round.h, pte.h,
pagedir.c, palloc.c). The files are the same in hw-memory and in the group project.

Addresses are 32-bit numbers. A page directory is its 1024 user entries, each
the page table it points to; a page table entry is its flags and the frame in its
address bits. Frames are numbered within the user pool, so every frame is page
aligned and inside physical memory. The pool may answer a request with any free
frame, or with none; which it does, and whether the kernel pool has a page for a
page table, is a `Grant`. An assertion that fails stops the kernel and is a
`Fault`.

`lookup_page` takes a page for a table exactly where the directory has none, so
the operations on the directory say which table is made, and the address space
records the page it takes. `dirPage` and `tablePage` are the addresses that
the directory's pointer and entries hold.
-/

namespace CS162.Pintos

def pgsize : Nat := 4096

def physBase : Nat := 0xc0000000

def pgOfs (va : Nat) : Nat := va % pgsize

def pgNo (va : Nat) : Nat := va / pgsize

def pgRoundDown (va : Nat) : Nat := va - va % pgsize

def pgRoundUp (va : Nat) : Nat := pgRoundDown ((va + pgsize - 1) % 2 ^ 32)

def roundUp (x step : Nat) : Nat := (x + step - 1) / step * step

/-- The number of the first page at or above an address: `DIV_ROUND_UP` by `PGSIZE`. -/
def pagesTo (addr : Nat) : Nat := (addr + pgsize - 1) / pgsize

def ptNo (va : Nat) : Nat := va / pgsize % 1024

def pdNo (va : Nat) : Nat := va / 2 ^ 22

inductive Fault where
  | notPageAligned
  | notUserAddress
  | alreadyMapped
  | notAllocated
  | negativeOffset
  | intOverflow
  | pastEndOfDevice
  deriving DecidableEq

structure Pte where
  present : Bool
  writable : Bool
  user : Bool
  accessed : Bool
  dirty : Bool
  frame : Nat
  deriving DecidableEq

/-- An entry of a page table filled with zeros. -/
def Pte.zero : Pte := ⟨false, false, false, false, false, 0⟩

def pteCreateUser (frame : Nat) (writable : Bool) : Pte := ⟨true, writable, true, false, false, frame⟩

abbrev PageDir := Nat → Option (Nat → Pte)

structure Grant where
  frame : Option Nat
  table : Bool

section PageDir

/-- `lookup_page` without `create`. -/
def lookupPage (pd : PageDir) (va : Nat) : Option Pte :=
  (pd (pdNo va)).map fun pt => pt (ptNo va)

/-- What `lookup_page` with `create` leaves of the directory, if it finds or makes
a page table. -/
def lookupPageCreate (pd : PageDir) (va : Nat) (grant : Grant) : Option PageDir :=
  match pd (pdNo va) with
  | some _ => some pd
  | none => if grant.table then some (Function.update pd (pdNo va) (some fun _ => .zero)) else none

/-- Assigns through the pointer that `lookup_page` returned. -/
def setPte (pd : PageDir) (va : Nat) (pte : Pte) : PageDir :=
  Function.update pd (pdNo va) ((pd (pdNo va)).map fun pt => Function.update pt (ptNo va) pte)

def pagedirSetPage (pd : PageDir) (upage kpage : Nat) (writable : Bool) (grant : Grant) :
    Except Fault (Bool × PageDir) :=
  if pgOfs upage ≠ 0 then .error .notPageAligned
  else if ¬ upage < physBase then .error .notUserAddress
  else
    match lookupPageCreate pd upage grant with
    | none => .ok (false, pd)
    | some pd =>
        if (lookupPage pd upage).any Pte.present then .error .alreadyMapped
        else .ok (true, setPte pd upage (pteCreateUser kpage writable))

/-- The frame of the page `uaddr` lies in. -/
def pagedirGetPage (pd : PageDir) (uaddr : Nat) : Except Fault (Option Nat) :=
  if ¬ uaddr < physBase then .error .notUserAddress
  else
    match lookupPage pd uaddr with
    | none => .ok none
    | some pte => .ok (if pte.present then some pte.frame else none)

def pagedirClearPage (pd : PageDir) (upage : Nat) : Except Fault PageDir :=
  if pgOfs upage ≠ 0 then .error .notPageAligned
  else if ¬ upage < physBase then .error .notUserAddress
  else
    match lookupPage pd upage with
    | none => .ok pd
    | some pte =>
        if pte.present then .ok (setPte pd upage { pte with present := false }) else .ok pd

end PageDir

/-- A process's page directory, the user pool's `used_map` and what its frames hold. -/
structure Memory where
  pagedir : PageDir
  used : Nat → Bool
  frames : Nat → Nat → UInt8

section Palloc

/-- `palloc_get_page` with `PAL_USER`, and with `PAL_ZERO` if `zero` is set. -/
def pallocGetPage (m : Memory) (zero : Bool) (grant : Grant) : Option (Nat × Memory) :=
  match grant.frame with
  | none => none
  | some frame =>
      if m.used frame then none
      else some (frame,
        { m with
          used := Function.update m.used frame true
          frames := if zero then Function.update m.frames frame fun _ => 0 else m.frames })

def pallocFreePage (m : Memory) : Option Nat → Except Fault Memory
  | none => .ok m
  | some frame =>
      if m.used frame then
        .ok { m with
          used := Function.update m.used frame false
          frames := Function.update m.frames frame fun _ => 0xcc }
      else .error .notAllocated

theorem pallocGetPage_eq_some {m m' : Memory} {zero : Bool} {grant : Grant} {frame : Nat}
    (h : pallocGetPage m zero grant = some (frame, m')) : m.used frame = false ∧
      m' = { m with
        used := Function.update m.used frame true
        frames := if zero then Function.update m.frames frame fun _ => 0 else m.frames } := by
  unfold pallocGetPage at h
  split at h
  · cases h
  · split at h
    · cases h
    · next free =>
        cases h
        exact ⟨Bool.eq_false_iff.mpr free, rfl⟩

end Palloc

section Entries
variable {pd pd' : PageDir} {va n : Nat} {grant : Grant} {pte : Pte}

/-- The entry of page number `n`, if there is a page table for it. -/
def pageAt (pd : PageDir) (n : Nat) : Option Pte := (pd (n / 1024)).map fun pt => pt (n % 1024)

/-- The entry of a mapped page. -/
def entry (pd : PageDir) (n : Nat) : Option Pte := (pageAt pd n).filter Pte.present

theorem pdNo_eq : pdNo va = pgNo va / 1024 := by
  rw [pdNo, pgNo, Nat.div_div_eq_div_mul]
  rfl

theorem lookupPage_eq : lookupPage pd va = pageAt pd (pgNo va) := by
  rw [lookupPage, pageAt, pdNo_eq]
  rfl

theorem entry_lookupPageCreate (h : lookupPageCreate pd va grant = some pd') :
    entry pd' = entry pd ∧ (pd' (pdNo va)).isSome := by
  unfold lookupPageCreate at h
  split at h
  · next found =>
      cases h
      exact ⟨rfl, by rw [found]; rfl⟩
  · next missing =>
      split at h
      · cases h
        refine ⟨funext fun n => ?_, by rw [Function.update_self]; rfl⟩
        by_cases same : n / 1024 = pdNo va
        · simp [entry, pageAt, same, missing, Pte.zero]
        · simp [entry, pageAt, Function.update_of_ne same]
      · cases h

theorem entry_setPte (table : (pd (pdNo va)).isSome) (pte : Pte) :
    entry (setPte pd va pte) =
      Function.update (entry pd) (pgNo va) (if pte.present then some pte else none) := by
  obtain ⟨pt, found⟩ := Option.isSome_iff_exists.mp table
  funext n
  have index : n = pgNo va ↔ n / 1024 = pdNo va ∧ n % 1024 = ptNo va := by
    rw [pdNo_eq, ptNo, ← pgNo]
    omega
  by_cases same : n = pgNo va
  · obtain ⟨dir, tab⟩ := index.mp same
    rw [entry, pageAt, setPte, dir, tab, found, same, Function.update_self, Function.update_self]
    simp only [Option.map_some, Function.update_self, Option.filter_some]
  · rw [Function.update_of_ne same]
    by_cases dir : n / 1024 = pdNo va
    · have tab : n % 1024 ≠ ptNo va := fun tab => same (index.mpr ⟨dir, tab⟩)
      rw [entry, entry, pageAt, pageAt, setPte, dir, found, Function.update_self]
      simp only [Option.map_some, Function.update_of_ne tab]
    · rw [entry, entry, pageAt, pageAt, setPte, Function.update_of_ne dir]

theorem pagedirGetPage_spec (user : va < physBase) :
    pagedirGetPage pd va = .ok ((entry pd (pgNo va)).map Pte.frame) := by
  rw [pagedirGetPage, if_neg (not_not.mpr user), lookupPage_eq, entry]
  cases pageAt pd (pgNo va) with
  | none => rfl
  | some pte => by_cases present : pte.present <;> simp [present]

theorem pagedirSetPage_spec (kpage : Nat) (writable : Bool) (grant : Grant)
    (aligned : pgOfs va = 0) (user : va < physBase) (unmapped : entry pd (pgNo va) = none) :
    (pagedirSetPage pd va kpage writable grant = .ok (false, pd)) ∨
      ∃ pd', pagedirSetPage pd va kpage writable grant = .ok (true, pd') ∧
        entry pd' = Function.update (entry pd) (pgNo va) (some (pteCreateUser kpage writable)) := by
  simp only [pagedirSetPage, aligned, user, ne_eq, not_true_eq_false, if_false]
  split
  · exact .inl rfl
  · next pd' made =>
      obtain ⟨same, table⟩ := entry_lookupPageCreate made
      have absent : (lookupPage pd' va).any Pte.present = false := by
        rw [← same, entry, Option.filter_eq_none_iff] at unmapped
        rw [lookupPage_eq, Option.any_eq_false]
        exact fun pte h => by simpa using unmapped pte h
      refine .inr ⟨_, by rw [absent]; rfl, ?_⟩
      rw [entry_setPte table, same]
      rfl

theorem pagedirSetPage_mapped (kpage : Nat) (writable : Bool) (grant : Grant)
    (aligned : pgOfs va = 0) (user : va < physBase) (mapped : entry pd (pgNo va) = some pte) :
    pagedirSetPage pd va kpage writable grant = .error .alreadyMapped := by
  simp only [pagedirSetPage, aligned, user, ne_eq, not_true_eq_false, if_false]
  rw [entry, Option.filter_eq_some_iff, ← lookupPage_eq] at mapped
  obtain ⟨found, present⟩ := mapped
  have table : ∃ pt, pd (pdNo va) = some pt := by
    rw [lookupPage, Option.map_eq_some_iff] at found
    obtain ⟨pt, h, -⟩ := found
    exact ⟨pt, h⟩
  obtain ⟨pt, table⟩ := table
  simp [lookupPageCreate, table, found, present]

theorem pagedirClearPage_spec (pd : PageDir) (aligned : pgOfs va = 0) (user : va < physBase) :
    ∃ pd', pagedirClearPage pd va = .ok pd' ∧
      entry pd' = Function.update (entry pd) (pgNo va) none := by
  simp only [pagedirClearPage, aligned, user, ne_eq, not_true_eq_false, if_false]
  split
  · next missing =>
      refine ⟨pd, rfl, (Function.update_eq_self_iff.mpr ?_).symm⟩
      rw [entry, ← lookupPage_eq, missing]
      rfl
  · next pte found =>
      split
      · have table : (pd (pdNo va)).isSome := by
          rw [lookupPage, Option.map_eq_some_iff] at found
          obtain ⟨pt, h, -⟩ := found
          rw [h]
          rfl
        exact ⟨_, rfl, entry_setPte table _⟩
      · next absent =>
          refine ⟨pd, rfl, (Function.update_eq_self_iff.mpr ?_).symm⟩
          rw [entry, ← lookupPage_eq, found, Option.filter_some, if_neg absent]

end Entries
open CS162.Library

structure AddressSpace where
  mem : Memory
  /-- The kernel pool's `used_map`. -/
  kernel : Nat → Bool
  dirPage : Nat
  tablePage : Nat → Nat

/-- What the pools answer: a frame, and a page for a table if one is needed. A read
into the frame stops early if `read` says so. -/
structure PageGrant where
  frame : Option Nat
  table : Option Nat
  read : Option Nat

def PageGrant.frameGrant (grant : PageGrant) : Grant := ⟨grant.frame, false⟩

/-- A page of the kernel pool, if the pool's answer is free. -/
def kernelPage (kernel : Nat → Bool) (page : Option Nat) : Option Nat :=
  page.filter fun page => !kernel page

/-- `palloc_get_page` and `memcpy` in `pagedir_create`: the kernel's entries are
not those of the process. -/
def pagedirCreate (used : Nat → Bool) (frames : Nat → Nat → UInt8) (kernel : Nat → Bool)
    (page : Option Nat) : Option AddressSpace :=
  match kernelPage kernel page with
  | none => none
  | some page => some
      { mem := ⟨fun _ => none, used, frames⟩
        kernel := Function.update kernel page true
        dirPage := page
        tablePage := fun _ => 0 }

/-- The directory after an operation on the entry of `upage`, with the page that
a new table was given. -/
def AddressSpace.withTable (s : AddressSpace) (pd : PageDir) (upage : Nat) (page : Option Nat) :
    AddressSpace :=
  let s' := { s with mem := { s.mem with pagedir := pd } }
  match page with
  | none => s'
  | some page =>
      if (s.mem.pagedir (pdNo upage)).isNone ∧ (pd (pdNo upage)).isSome then
        { s' with
          kernel := Function.update s.kernel page true
          tablePage := Function.update s.tablePage (pdNo upage) page }
      else s'

def AddressSpace.setPage (s : AddressSpace) (upage kpage : Nat) (writable : Bool)
    (grant : PageGrant) : Except Fault (Bool × AddressSpace) :=
  let page := kernelPage s.kernel grant.table
  match pagedirSetPage s.mem.pagedir upage kpage writable ⟨none, page.isSome⟩ with
  | .error fault => .error fault
  | .ok (done, pd) => .ok (done, s.withTable pd upage page)

section Destroy

/-- The loop over a page table's entries from entry `j` on. -/
def freeFrames (pt : Nat → Pte) : (left j : Nat) → Memory → Except Fault Memory
  | 0, _, m => .ok m
  | left + 1, j, m =>
      if (pt j).present then
        match pallocFreePage m (some (pt j).frame) with
        | .error fault => .error fault
        | .ok m => freeFrames pt left (j + 1) m
      else freeFrames pt left (j + 1) m

/-- `palloc_free_page` of a page of the kernel pool. -/
def freeKernelPage (s : AddressSpace) (page : Nat) : Except Fault AddressSpace :=
  if s.kernel page then .ok { s with kernel := Function.update s.kernel page false }
  else .error .notAllocated

/-- The loop over the directory's entries from entry `i` on. The directory itself
is left as it is; nothing reads it afterwards. -/
def destroyTables : (left i : Nat) → AddressSpace → Except Fault AddressSpace
  | 0, _, s => .ok s
  | left + 1, i, s =>
      match s.mem.pagedir i with
      | none => destroyTables left (i + 1) s
      | some pt =>
          match freeFrames pt 1024 0 s.mem with
          | .error fault => .error fault
          | .ok m =>
              match freeKernelPage { s with mem := m } (s.tablePage i) with
              | .error fault => .error fault
              | .ok s => destroyTables left (i + 1) s

def pagedirDestroy (s : AddressSpace) : Except Fault AddressSpace :=
  match destroyTables (pdNo physBase) 0 s with
  | .error fault => .error fault
  | .ok s => freeKernelPage s s.dirPage

end Destroy
end CS162.Pintos
