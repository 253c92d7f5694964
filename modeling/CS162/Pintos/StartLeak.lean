import CS162.Pintos.Loader
import CS162.Pintos.SpaceOwnership

/-!
What a failed start of a process leaves in the pools. `start_process` drops the
control block, and with it the page directory: whatever the directory owns by then
stays in use for ever.
-/

namespace CS162.Pintos.ProjPregame
open CS162.Library

/-- Every page but the one with the file's name, which the caller took, is in use
exactly if it was before. -/
structure GivenBack (before : Pools) (fileName : Nat) (after : Pools) : Prop where
  frames : ∀ frame, after.used frame = before.used frame
  kernel : ∀ page, after.kernel page = if page = fileName then false else before.kernel page

section
variable {pools after : Pools} {fileName : Nat} {pcb : Bool} {file : Option ExecFile}
variable {grants : LoadGrants} {start : Option Start} {space : AddressSpace}
variable {used : Nat → Bool} {frames : Nat → Nat → UInt8} {kernel : Nat → Bool}

/-- Whether it returns true or not, `load` leaves an address space that owns what
was taken from the pools. -/
theorem load_owned (h : load file used frames kernel grants = .ok (start, some space)) :
    SpaceOwned (fun frame => used frame = true) (fun page => kernel page = true) space := by
  unfold load at h
  split at h
  · cases h
  · next first created =>
      have base := SpaceOwned.create created
      split at h
      · cases h
        exact base
      · next file =>
          split at h
          · cases h
            exact base
          · next ehdr accepted =>
              have keep {done : Bool} {last : AddressSpace}
                  (loaded : loadPhdrs file grants.phdrs
                    (fun i phdr => loadPhdr file phdr (grants.pages i)) ehdr.phnum 0
                    (toInt32 ehdr.phoff) first = .ok (done, last)) :
                  SpaceOwned (fun frame => used frame = true) (fun page => kernel page = true) last :=
                loadPhdrs_keep _ (fun _ _ _ _ _ owned done => owned.loadPhdr done) base loaded
              split at h
              · cases h
              · next loaded =>
                  cases h
                  exact keep loaded
              · next loaded =>
                  split at h
                  · cases h
                  · next finished =>
                      cases h
                      exact (keep loaded).finishLoad finished

theorem load_without_directory (h : load file used frames kernel grants = .ok (start, none)) :
    start = none ∧ kernelPage kernel grants.directory = none := by
  unfold load at h
  split at h
  · next none_created =>
      cases h
      refine ⟨rfl, ?_⟩
      unfold pagedirCreate at none_created
      split at none_created
      · assumption
      · cases none_created
  · exfalso
    repeat' split at h
    all_goals cases h

theorem freeKernelPage_of_ok {before : Pools} (h : before.freeKernelPage fileName = .ok after) :
    after.used = before.used ∧ after.kernel = Function.update before.kernel fileName false := by
  unfold Pools.freeKernelPage at h
  split at h
  · cases h
    exact ⟨rfl, rfl⟩
  · cases h

theorem givenBack_of_freeKernelPage (h : pools.freeKernelPage fileName = .ok after) :
    GivenBack pools fileName after := by
  obtain ⟨same, freed⟩ := freeKernelPage_of_ok h
  refine ⟨congrFun same, fun page => ?_⟩
  rw [freed, Function.update_apply]

theorem not_givenBack (name : pools.kernel fileName = true)
    (owned : SpaceOwned (fun frame => pools.used frame = true) (fun page => pools.kernel page = true)
      space) (h : (poolsOf space).freeKernelPage fileName = .ok after) :
    ¬ GivenBack pools fileName after := by
  intro back
  obtain ⟨-, freed⟩ := freeKernelPage_of_ok h
  have held : kernelHeld space none = some space.dirPage := rfl
  have taken := owned.kernel.apart _ _ held
  have inUse := owned.kernel.used_of_held held
  have differ : space.dirPage ≠ fileName := fun equal => taken (by rw [equal]; exact name)
  have same := back.kernel space.dirPage
  rw [freed, Function.update_of_ne differ, if_neg differ] at same
  exact taken (same.symm.trans inUse)

/-- For every executable and whatever fails: a failed start gives every page back
exactly if it failed before there was a page directory. -/
theorem startProcess_givesBack_iff (name : pools.kernel fileName = true)
    (failed : startProcess pools fileName pcb file grants = .ok (.exited after)) :
    GivenBack pools fileName after ↔
      pcb = false ∨ kernelPage pools.kernel grants.directory = none := by
  unfold startProcess at failed
  cases pcb with
  | false =>
      simp only [Bool.false_eq_true, if_false] at failed
      split at failed
      · cases failed
      · next freed =>
          cases failed
          exact iff_of_true (givenBack_of_freeKernelPage freed) (.inl rfl)
  | true =>
      simp only [if_true] at failed
      split at failed
      · cases failed
      · split at failed <;> cases failed
      · next start space _ loaded =>
          split at failed
          · cases failed
          · next freed =>
              cases failed
              cases space with
              | none =>
                  have missing := (load_without_directory loaded).2
                  exact iff_of_true (givenBack_of_freeKernelPage freed) (.inr missing)
              | some space =>
                  refine iff_of_false (not_givenBack name (load_owned loaded) freed) ?_
                  rintro (no_pcb | missing)
                  · cases no_pcb
                  · simp [load, pagedirCreate, missing] at loaded

/-- The user pool is free, and the kernel pool but for the page with the name. -/
def namePage : Pools where
  used _ := false
  frames _ _ := 0
  kernel page := page = 0

/-- What a start succeeded with, or left, has a property that is checked by
evaluation. -/
theorem exists_of_exited (result : Except Fault Started) (p : Pools → Bool)
    (h : (match result with | .ok (.exited pools) => p pools | _ => false) = true) :
    ∃ after, result = .ok (.exited after) ∧ p after = true := by
  split at h
  · next after => exact ⟨after, rfl, h⟩
  · cases h

theorem startProcess_givesBack_of_no_directory :
    ∃ after, startProcess namePage 0 true (some (smallProgram 84 0x8048054 4 4096))
      ⟨none, none, fun _ => none, fun _ j => ⟨some j, some 2, none⟩, ⟨some 9, some 3, none⟩⟩ =
        .ok (.exited after) ∧ GivenBack namePage 0 after := by
  obtain ⟨after, failed, -⟩ := exists_of_exited (startProcess namePage 0 true
    (some (smallProgram 84 0x8048054 4 4096))
    ⟨none, none, fun _ => none, fun _ j => ⟨some j, some 2, none⟩, ⟨some 9, some 3, none⟩⟩)
    (fun _ => true) (by decide +kernel)
  exact ⟨after, failed, (startProcess_givesBack_iff rfl failed).mpr (.inr rfl)⟩

/-- The pool has no frame for the second page of the segment: the directory, the
table and the first page's frame are lost. -/
theorem startProcess_loses_pages :
    ∃ after, startProcess namePage 0 true (some (smallProgram 84 0x8048054 4 4096))
      ⟨some 1, none, fun _ => none, fun _ j => ⟨if j = 0 then some 7 else none, some 2, none⟩,
        ⟨some 9, some 3, none⟩⟩ = .ok (.exited after) ∧
      after.used 7 = true ∧ after.kernel 1 = true ∧ after.kernel 2 = true ∧
      ¬ GivenBack namePage 0 after := by
  obtain ⟨after, failed, checks⟩ := exists_of_exited (startProcess namePage 0 true
    (some (smallProgram 84 0x8048054 4 4096))
    ⟨some 1, none, fun _ => none, fun _ j => ⟨if j = 0 then some 7 else none, some 2, none⟩,
      ⟨some 9, some 3, none⟩⟩)
    (fun pools => pools.used 7 && pools.kernel 1 && pools.kernel 2) (by decide +kernel)
  simp only [Bool.and_eq_true] at checks
  obtain ⟨⟨frame, directory⟩, table⟩ := checks
  refine ⟨after, failed, frame, directory, table, fun back => ?_⟩
  have same := back.frames 7
  rw [frame] at same
  cases same

end
end CS162.Pintos.ProjPregame
