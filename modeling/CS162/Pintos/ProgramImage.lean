import CS162.Pintos.LoaderSpec
import CS162.Pintos.Loader

/-!
A program in memory: after a successful `load`, the process sees the bytes of the
executable at the addresses its segments give, and zeros behind them.
-/

namespace CS162.Pintos.ProjPregame
open CS162.Library

/-- The byte that the process reads at an address. -/
def userByte (m : Memory) (va : Nat) : Option UInt8 :=
  (entry m.pagedir (pgNo va)).map fun pte => m.frames pte.frame (pgOfs va)

/-- A page that holds a byte of a segment. -/
def OnPage (s : Phdr) (n : Nat) : Prop := ∃ k, k < s.memsz ∧ pgNo (s.vaddr + k) = n

/-- A process's memory is the image of an executable. -/
structure FaithfulImage (file : ExecFile) (m : Memory) : Prop where
  initialized : ∀ s ∈ file.segments, ∀ k, k < s.filesz →
    (file.bytes[s.offset + k]?).isSome ∧ userByte m (s.vaddr + k) = file.bytes[s.offset + k]?
  zeroed : ∀ s ∈ file.segments, ∀ k, s.filesz ≤ k → k < s.memsz → userByte m (s.vaddr + k) = some 0
  padding : ∀ s ∈ file.segments, ∀ va, s.vaddr + s.memsz ≤ va →
    pgNo va = pgNo (s.vaddr + s.memsz - 1) → userByte m va = some 0
  writable : ∀ s ∈ file.segments, ∀ n, OnPage s n →
    ∃ pte, entry m.pagedir n = some pte ∧ pte.user = true ∧ (pte.writable = true ↔ s.flags / 2 % 2 = 1)
  apart : file.segments.Pairwise fun s s' => ∀ n, OnPage s n → ¬ OnPage s' n
  offStack : ∀ s ∈ file.segments, ¬ OnPage s (pgNo (physBase - pgsize))
  stack : ∃ pte, entry m.pagedir (pgNo (physBase - pgsize)) = some pte ∧ pte.user = true ∧
    pte.writable = true ∧ ∀ offset, m.frames pte.frame offset = 0
  only : ∀ n, (entry m.pagedir n).isSome →
    n = pgNo (physBase - pgsize) ∨ ∃ s ∈ file.segments, OnPage s n

section
variable {file : ExecFile} {segs : List Phdr} {s : Phdr} {m : Memory} {k n va : Nat}

theorem covers_iff (valid : s.Valid) : s.Covers n ↔ OnPage s n := by
  have nonempty := valid.nonempty
  unfold Phdr.Covers OnPage Phdr.firstPage Phdr.pages pagesTo pgOfs pgNo pgsize
  constructor
  · rintro ⟨lower, upper⟩
    refine ⟨n * 4096 - s.vaddr, ?_, ?_⟩ <;> omega
  · rintro ⟨k, inside, rfl⟩
    omega

theorem userByte_of_image (image : ImageAt file s m) (lower : s.vaddr ≤ va)
    (covers : s.Covers (pgNo va)) :
    userByte m va = some (if pgOfs s.vaddr + (va - s.vaddr) < s.readBytes then
      file.bytes.getD (s.filePage + (pgOfs s.vaddr + (va - s.vaddr))) 0 else 0) := by
  have place : pgsize * (pgNo va - s.firstPage) + pgOfs va = pgOfs s.vaddr + (va - s.vaddr) := by
    have := covers.1
    unfold Phdr.firstPage pgOfs pgNo pgsize at *
    omega
  have inside : pgNo va - s.firstPage < s.pages := by
    have := covers.1
    have := covers.2
    omega
  obtain ⟨frame, mapped, -, contents⟩ := image.pages _ inside
  rw [Nat.add_sub_cancel' covers.1] at mapped
  rw [userByte, mapped, Option.map_some]
  have here := contents (pgOfs va) (Nat.mod_lt _ (by decide))
  rw [place] at here
  exact congrArg some here

theorem lt_readBytes_iff : pgOfs s.vaddr + k < s.readBytes ↔ k < s.filesz := by
  unfold Phdr.readBytes
  split <;> omega

theorem initialized_of_image (image : ImageAt file s m) (valid : s.Valid) (inside : k < s.filesz) :
    (file.bytes[s.offset + k]?).isSome ∧ userByte m (s.vaddr + k) = file.bytes[s.offset + k]? := by
  have fits := valid.file
  have within : s.offset + k < file.bytes.length := by
    have same := valid.same
    have enough := image.enough
    unfold Phdr.readBytes Phdr.filePage pgOfs at enough
    rw [if_pos (by omega)] at enough
    unfold pgsize at *
    omega
  have place : s.filePage + (pgOfs s.vaddr + k) = s.offset + k := by
    have same := valid.same
    unfold Phdr.filePage pgOfs pgsize at *
    omega
  rw [userByte_of_image image (Nat.le_add_right ..) ((covers_iff valid).mpr ⟨k, by omega, rfl⟩),
    Nat.add_sub_cancel_left, if_pos (lt_readBytes_iff.mpr inside), place,
    List.getElem?_eq_getElem within]
  exact ⟨rfl, by simp [within]⟩

theorem zero_of_image (image : ImageAt file s m)
    (covers : s.Covers (pgNo (s.vaddr + k))) (behind : s.filesz ≤ k) :
    userByte m (s.vaddr + k) = some 0 := by
  rw [userByte_of_image image (Nat.le_add_right ..) covers, Nat.add_sub_cancel_left, if_neg]
  rw [lt_readBytes_iff]
  omega

theorem faithful_of_finished (h : Finished file file.segments m) : FaithfulImage file m where
  initialized s hs k inside := initialized_of_image (h.images s hs) (h.valid s hs) inside
  zeroed s hs k lower upper := by
    have valid := h.valid s hs
    exact zero_of_image (h.images s hs) ((covers_iff valid).mpr ⟨k, upper, rfl⟩) lower
  padding s hs va behind last := by
    have valid := h.valid s hs
    have nonempty := valid.nonempty
    have covers : s.Covers (pgNo va) :=
      (covers_iff valid).mpr ⟨s.memsz - 1, by omega, by rw [last]; congr 1; omega⟩
    obtain ⟨k, rfl⟩ := Nat.exists_eq_add_of_le (by omega : s.vaddr ≤ va)
    have := valid.file
    exact zero_of_image (h.images s hs) covers (by omega)
  writable s hs n on := by
    obtain ⟨frame, mapped⟩ := (h.images s hs).mapped ((covers_iff (h.valid s hs)).mpr on)
    exact ⟨_, mapped, rfl, by simp [pteCreateUser, Phdr.writable]⟩
  apart := by
    refine h.apart.imp_of_mem fun hs hs' apart n on on' => ?_
    exact apart n ((covers_iff (h.valid _ hs)).mpr on) ((covers_iff (h.valid _ hs')).mpr on')
  offStack s hs on := h.offStack s hs ((covers_iff (h.valid s hs)).mpr on)
  stack := by
    obtain ⟨frame, mapped, zeroed⟩ := h.stack
    exact ⟨_, mapped, rfl, rfl, congrFun zeroed⟩
  only n mapped := by
    obtain rfl | ⟨s, hs, covers⟩ := h.only n mapped
    · exact .inl rfl
    · exact .inr ⟨s, hs, (covers_iff (h.valid s hs)).mp covers⟩

end

section
variable {file : ExecFile} {used : Nat → Bool} {frames : Nat → Nat → UInt8} {kernel : Nat → Bool}
variable {grants : LoadGrants} {start : Start} {space : AddressSpace}

theorem finished_of_load
    (h : load (some file) used frames kernel grants = .ok (some start, some space)) :
    Finished file file.segments space.mem := by
  unfold load at h
  split at h
  · cases h
  · next first created =>
      simp only at h
      split at h
      · cases h
      · next ehdr accepted =>
          split at h
          · cases h
          · cases h
          · next s₁ loaded =>
              split at h
              · cases h
              · next finished =>
                  cases h
                  have base : Placed file [] first.mem := by
                    unfold pagedirCreate at created
                    split at created
                    · cases created
                    · cases created
                      exact .nil
                  have all := segments_induction (fun segs s => Placed file segs s.mem)
                    (fun _ _ _ _ _ h valid done => h.add valid (loadPhdr_of_ok valid done))
                    accepted base loaded
                  exact all.finish (finishLoad_of_ok finished).2

/-- For every executable and whatever the pools answer: a load that returns true
leaves the executable's image in memory. -/
theorem load_faithful
    (h : load (some file) used frames kernel grants = .ok (some start, some space)) :
    FaithfulImage file space.mem := faithful_of_finished (finished_of_load h)

theorem exists_of_loaded (result : Except Fault (Option Start × Option AddressSpace))
    (p : AddressSpace → Bool)
    (h : (match result with | .ok (some _, some s) => p s | _ => false) = true) :
    ∃ start s, result = .ok (some start, some s) ∧ p s = true := by
  split at h
  · next start s => exact ⟨start, s, rfl, h⟩
  · cases h

theorem load_faithful_of_small_program :
    ∃ start space, load (some (smallProgram 84 0x8048054 4 4096)) (fun _ => false) (fun _ _ => 0)
      (fun _ => false) ⟨some 0, none, fun _ => none, fun _ j => ⟨some j, some 1, none⟩,
        ⟨some 9, some 2, none⟩⟩ = .ok (some start, some space) ∧
      FaithfulImage (smallProgram 84 0x8048054 4 4096) space.mem := by
  obtain ⟨start, space, loaded, -⟩ := exists_of_loaded
    (load (some (smallProgram 84 0x8048054 4 4096)) (fun _ => false) (fun _ _ => 0)
      (fun _ => false) ⟨some 0, none, fun _ => none, fun _ j => ⟨some j, some 1, none⟩,
        ⟨some 9, some 2, none⟩⟩) (fun _ => true) (by decide +kernel)
  exact ⟨start, space, loaded, load_faithful loaded⟩

end
end CS162.Pintos.ProjPregame
