import CS162.Library.Outcome
import CS162.Pintos.Process
import CS162.Pintos.SpaceOwnership

/-!
The pages of a process of hw-memory while it lives. Whatever it stores and whatever
`syscall_sbrk` makes of its heap, its address space owns what it took from the pools, so
`pagedir_destroy` gives back all of that and nothing else.
-/

namespace CS162.Pintos
open CS162.Library

section Directory
variable {pd pd' : PageDir} {va : Nat}

theorem pagedirClearPage_of_ok (h : pagedirClearPage pd va = .ok pd') :
    entry pd' = Function.update (entry pd) (pgNo va) none ∧ ∀ i, (pd' i).isSome ↔ (pd i).isSome := by
  have aligned : pgOfs va = 0 := by
    by_contra off
    rw [pagedirClearPage, if_pos off] at h
    cases h
  have user : va < physBase := by
    by_contra outside
    rw [pagedirClearPage, if_neg (not_not.mpr aligned), if_pos outside] at h
    cases h
  constructor
  · obtain ⟨pd₁, cleared, entries⟩ := pagedirClearPage_spec pd aligned user
    cases cleared.symm.trans h
    exact entries
  · rw [pagedirClearPage, if_neg (not_not.mpr aligned), if_neg (not_not.mpr user)] at h
    split at h
    next =>
      cases h
      exact fun _ => Iff.rfl
    next =>
      split at h
      next =>
        cases h
        exact isSome_setPte _
      next =>
        cases h
        exact fun _ => Iff.rfl

end Directory

section Heap
variable {F K : Nat → Prop} {s s' : AddressSpace} {m m' : Memory} {start i : Nat} {size : Int}
variable {grants : Nat → PageGrant} {failed : Bool}

/-- One round of `unallocate`: the frame of the page goes back. -/
theorem SpaceOwned.unmap {upage : Nat} {kpage : Option Nat} {pd : PageDir}
    (h : SpaceOwned F K { s with mem := m }) (got : pagedirGetPage m.pagedir upage = .ok kpage)
    (freed : pallocFreePage m kpage = .ok m') (cleared : pagedirClearPage m'.pagedir upage = .ok pd) :
    SpaceOwned F K { s with mem := { m' with pagedir := pd } } := by
  have user : upage < physBase := by
    by_contra outside
    rw [pagedirGetPage, if_pos outside] at got
    cases got
  have here : kpage = frameOf m (pgNo upage) := by
    rw [pagedirGetPage_spec user] at got
    cases got
    rfl
  have same : m'.pagedir = m.pagedir := by
    cases kpage with
    | none =>
        cases freed
        rfl
    | some frame =>
        rw [pallocFreePage] at freed
        split at freed
        next =>
          cases freed
          rfl
        next => cases freed
  rw [same] at cleared
  obtain ⟨entries, tables⟩ := pagedirClearPage_of_ok cleared
  have slots (n : Nat) : frameOf { m' with pagedir := pd } n =
      Function.update (frameOf m) (pgNo upage) none n := by
    rw [frameOf, entries]
    by_cases equal : n = pgNo upage
    · rw [equal, Function.update_self, Function.update_self]
      rfl
    · rw [Function.update_of_ne equal, Function.update_of_ne equal]
      rfl
  constructor
  case frames =>
    cases kpage with
    | none =>
        cases freed
        refine h.frames.congr (fun n => ?_) fun _ => Iff.rfl
        rw [slots, Function.update_eq_self_iff.mpr here]
    | some frame =>
        rw [pallocFreePage] at freed
        split at freed
        next =>
          cases freed
          refine (h.frames.release here.symm fun other => ?_).congr slots fun _ => Iff.rfl
          by_cases equal : other = frame
          · simp [equal]
          · simp [equal]
        next => cases freed
  case kernel => exact h.kernel.congr (congrFun (kernelHeld_congr rfl rfl tables)) fun _ => Iff.rfl
  case user =>
    intro k outside
    have absent := h.user k outside
    rw [← Option.not_isSome_iff_eq_none] at absent ⊢
    exact fun made => absent ((tables k).mp made)

theorem SpaceOwned.unallocateFrom (h : SpaceOwned F K { s with mem := m })
    (done : unallocateFrom start size i m = .ok m') : SpaceOwned F K { s with mem := m' } := by
  fun_induction Pintos.unallocateFrom start size i m with
  | case1 | case2 | case3 | case4 => cases done
  | case5 i m _ _ upage kpage got m₁ freed pd cleared ih => exact ih (h.unmap got freed cleared) done
  | case6 =>
      cases done
      exact h

theorem SpaceOwned.rollBack (h : SpaceOwned F K s) (done : s.rollBack start size = .ok (failed, s')) :
    SpaceOwned F K s' := by
  rw [AddressSpace.rollBack] at done
  split at done
  next => cases done
  next m unmapped =>
    cases done
    exact SpaceOwned.unallocateFrom (s := s) h unmapped

theorem SpaceOwned.giveBack {kpage : Nat} (h : SpaceOwned (fun frame => frame = kpage ∨ F frame) K s)
    (new : ¬ F kpage) (freed : pallocFreePage s.mem (some kpage) = .ok m) :
    SpaceOwned F K { s with mem := m } := by
  have failed : Pintos.failAfterFree s kpage = .ok (false, { s with mem := m }) := by
    rw [Pintos.failAfterFree, freed]
  exact h.failAfterFree new failed

theorem SpaceOwned.allocateFrom (h : SpaceOwned F K s)
    (done : s.allocateFrom start size grants i = .ok (failed, s')) : SpaceOwned F K s' := by
  fun_induction AddressSpace.allocateFrom start size grants i s with
  | case1 => cases done
  | case2 i s _ _ none => exact h.rollBack done
  | case3 i s _ _ upage kpage m granted fault set => cases done
  | case4 i s _ _ upage kpage m granted s₁ set fault freed => cases done
  | case5 i s _ _ upage kpage m granted s₁ set m₁ freed =>
      obtain ⟨taken, new⟩ := h.palloc granted
      have held := taken.setPage new set
      exact (held.giveBack new freed).rollBack done
  | case6 i s _ _ upage kpage m granted s₁ set ih =>
      obtain ⟨taken, new⟩ := h.palloc granted
      exact ih (taken.setPage new set) done
  | case7 =>
      cases done
      exact h

end Heap

namespace HwMemory
variable {F K : Nat → Prop} {p p' : Process}

/-- The pages of the process belong to its address space, all others in use to others. -/
abbrev Process.Owned (F K : Nat → Prop) (p : Process) : Prop := SpaceOwned F K p.space

theorem Process.Owned.store (h : p.Owned F K) {addr : Nat} {byte : UInt8}
    (stored : p.store addr byte = some p') : p'.Owned F K ∧ p'.openFile = p.openFile := by
  obtain ⟨t, done, rfl⟩ := Option.map_eq_some_iff.mp stored
  obtain ⟨-, -, used, frames, tables⟩ := userStore_of_some done
  refine ⟨⟨?_, ?_, fun k outside => ?_⟩, rfl⟩
  · refine h.frames.congr frames fun frame => ?_
    rw [show (p.withMem t.mem).space.mem.used = p.space.mem.used from used]
  · exact h.kernel.congr (congrFun (kernelHeld_congr rfl rfl tables)) fun _ => Iff.rfl
  · have absent := h.user k outside
    rw [← Option.not_isSome_iff_eq_none] at absent ⊢
    exact fun made => absent ((tables k).mp made)

theorem Process.Owned.copyOut (h : p.Owned F K) (bytes : Library.Memory) (left addr i : Nat) :
    Ends (fun stop => ∀ q, stop = some q → q.Owned F K ∧ q.openFile = p.openFile)
      (fun q => q.Owned F K ∧ q.openFile = p.openFile) (p.copyOut bytes left addr i) := by
  induction left generalizing p addr i with
  | zero => exact .ok ⟨h, rfl⟩
  | succ left ih =>
      rw [Process.copyOut]
      split
      next =>
        refine .error fun q last => ?_
        split at last
        next =>
          cases last
          exact ⟨h, rfl⟩
        next => cases last
      next q stored =>
        obtain ⟨owned, same⟩ := h.store stored
        rw [← same]
        exact ih owned _ _

theorem Process.Owned.readToUser (h : p.Owned F K) (d : Disk) (buffer : Nat) (c : Chunk) :
    Ends (fun stop => ∀ q, stop = some q → q.Owned F K ∧ q.openFile = p.openFile)
      (fun q => q.Owned F K ∧ q.openFile = p.openFile) (readToUser d buffer c p) := by
  rw [HwMemory.readToUser]
  split
  next => exact .error fun q none => by cases none
  next => exact h.copyOut ..

theorem Process.Owned.moveBreak (h : p.Owned F K) {increment : Int} {grants : Nat → PageGrant}
    {new prevPage newPage result : Nat}
    (done : p.moveBreak increment grants new prevPage newPage = .ok (result, p')) :
    p'.Owned F K ∧ p'.openFile = p.openFile := by
  rw [Process.moveBreak] at done
  split at done
  next =>
    cases done
    exact ⟨h, rfl⟩
  next =>
    split at done
    next =>
      split at done
      next =>
        split at done
        next => cases done
        next allocated =>
          cases done
          exact ⟨h.allocateFrom allocated, rfl⟩
        next allocated =>
          cases done
          exact ⟨h.allocateFrom allocated, rfl⟩
      next =>
        cases done
        exact ⟨h, rfl⟩
    next =>
      split at done
      next =>
        split at done
        next => cases done
        next unmapped =>
          cases done
          rw [unallocate] at unmapped
          exact ⟨SpaceOwned.unallocateFrom h unmapped, rfl⟩
      next =>
        cases done
        exact ⟨h, rfl⟩

theorem Process.Owned.syscallSbrk (h : p.Owned F K) {increment : Int} {grants : Nat → PageGrant}
    {result : Nat} (done : p.syscallSbrk increment grants = .ok (result, p')) :
    p'.Owned F K ∧ p'.openFile = p.openFile := by
  rw [Process.syscallSbrk] at done
  split at done
  next =>
    cases done
    exact ⟨h, rfl⟩
  next => exact h.moveBreak done

/-- Whether it returns true or not, `load` leaves an address space that owns what was taken
from the pools. -/
theorem load_owned {used : Nat → Bool} {frames : Nat → Nat → UInt8} {kernel : Nat → Bool}
    {file : Option ExecFile} {grants : LoadGrants} {start : Option Start} {s : HeapSpace}
    (h : load file used frames kernel grants = .ok (start, some s)) :
    SpaceOwned (fun frame => used frame = true) (fun page => kernel page = true) s.space := by
  rw [load] at h
  split at h
  next => cases h
  next first created =>
    have base := SpaceOwned.create created
    simp only at h
    split at h
    next =>
      cases h
      exact base
    next file =>
      split at h
      next =>
        cases h
        exact base
      next ehdr accepted =>
        have keep {done : Bool} {last : HeapSpace}
            (loaded : loadPhdrs file grants.phdrs (loadHeapPhdr file grants) ehdr.phnum 0
              (toInt32 ehdr.phoff) ⟨first, 0, 0, 0⟩ = .ok (done, last)) :
            SpaceOwned (fun frame => used frame = true) (fun page => kernel page = true) last.space := by
          refine loadPhdrs_keep (fun s => SpaceOwned _ _ s.space) ?_ base loaded
          intro i phdr state done state' owned segment
          rw [loadHeapPhdr] at segment
          split at segment
          next => cases segment
          next part =>
            cases segment
            exact owned.loadPhdr part
        split at h
        next => cases h
        next loaded =>
          cases h
          exact keep loaded
        next loaded =>
          split at h
          next => cases h
          next finished =>
            cases h
            exact (keep loaded).finishLoad finished

end HwMemory
end CS162.Pintos
