import CS162.Pintos.Loader
import CS162.Pintos.HeapPages
import CS162.Pintos.LoaderSpec
import Mathlib.Data.List.MinMax
import Mathlib.Data.List.Pairwise

/-!
Where hw-memory's `load` puts the start of the heap. It rounds up the highest
`mem_page + p_memsz`, which leaves out the offset of the segment within its first
page; the highest segment may have one page more than that.
-/

namespace CS162.Pintos.HwMemory
open CS162.Library

/-- The heap starts at a page boundary, at or above the end of every page that a
segment mapped. -/
def HeapAbove (t : Thread) : Prop :=
  pgOfs t.heapStart = 0 ∧ ∀ n, (entry t.mem.pagedir n).isSome → pgsize * n ≠ stackBottom →
    pgsize * (n + 1) ≤ t.heapStart

/-- No heap call of any run stops the kernel. -/
def HeapSafe (t : Thread) : Prop :=
  ∀ t', (calls t).Reachable t' → ∀ increment grants, Admissible t' increment →
    ∀ fault, syscallSbrk t' increment grants ≠ .error fault

/-- The page offset of the segments with the highest address does not cost them a
page more than `p_memsz` alone takes. -/
def TopFits (segs : List Phdr) : Prop :=
  ∀ s ∈ segs, (∀ s' ∈ segs, s'.vaddr ≤ s.vaddr) →
    pagesTo (pgOfs s.vaddr + s.memsz) = pagesTo s.memsz

/-- `segment_end` -/
def memEnd (s : Phdr) : Nat := pgsize * s.firstPage + s.memsz

/-- What holds after some segments were loaded. -/
structure HeapPlaced (file : ExecFile) (segs : List Phdr) (s : HeapSpace) : Prop where
  placed : Placed file segs s.space.mem
  bound : ∀ seg ∈ segs, memEnd seg ≤ s.maxAddr
  reached : (∃ seg ∈ segs, memEnd seg = s.maxAddr) ∨ segs = [] ∧ s.maxAddr = 0
  start : segs ≠ [] → s.heapStart = pgRoundUp s.maxAddr
  fresh : s.heapBreak = s.heapStart

section
variable {file : ExecFile} {segs : List Phdr} {s s' : HeapSpace} {phdr : Phdr} {grants : LoadGrants}

theorem HeapPlaced.add (h : HeapPlaced file segs s) {i : Nat} (valid : phdr.Valid)
    (done : loadHeapPhdr file grants i phdr s = .ok (true, s')) :
    HeapPlaced file (segs ++ [phdr]) s' := by
  unfold loadHeapPhdr at done
  split at done
  · cases done
  · next finished space loaded =>
      cases done
      have page : phdr.vaddr - phdr.vaddr % pgsize = pgsize * phdr.firstPage := by
        unfold Phdr.firstPage pgNo pgsize
        omega
      have highest : (if phdr.vaddr - phdr.vaddr % pgsize + phdr.memsz > s.maxAddr then
          phdr.vaddr - phdr.vaddr % pgsize + phdr.memsz else s.maxAddr) =
            max s.maxAddr (memEnd phdr) := by
        rw [memEnd, page]
        split <;> omega
      refine ⟨h.placed.add valid (loadPhdr_of_ok valid loaded), ?_, ?_, fun _ => rfl, rfl⟩
      · simp only [highest, List.mem_append, List.mem_singleton]
        rintro seg (hseg | rfl)
        · exact (h.bound seg hseg).trans (le_max_left ..)
        · exact le_max_right ..
      · simp only [highest]
        refine .inl ?_
        rcases le_total (memEnd phdr) s.maxAddr with low | high
        · obtain ⟨seg, hseg, equal⟩ | ⟨-, zero⟩ := h.reached
          · exact ⟨seg, List.mem_append_left _ hseg, by rw [max_eq_left low, equal]⟩
          · have := valid.nonempty
            unfold memEnd at low
            omega
        · exact ⟨phdr, by simp, (max_eq_right high).symm⟩

/-- What an accepted executable leaves behind. -/
structure Accepted (file : ExecFile) (s : HeapSpace) : Prop where
  valid : ∀ seg ∈ file.segments, seg.Valid
  apart : file.segments.Pairwise fun seg seg' => ∀ n, seg.Covers n → ¬ seg'.Covers n
  mapped : ∀ n, (entry s.space.mem.pagedir n).isSome ↔
    pgsize * n = stackBottom ∨ ∃ seg ∈ file.segments, seg.Covers n
  stack : ∀ seg ∈ file.segments, ∀ n, seg.Covers n → pgsize * n ≠ stackBottom
  bound : ∀ seg ∈ file.segments, memEnd seg ≤ s.maxAddr
  reached : file.segments ≠ [] → ∃ seg ∈ file.segments, memEnd seg = s.maxAddr
  start : file.segments ≠ [] → s.heapStart = pgRoundUp s.maxAddr
  fresh : s.heapBreak = s.heapStart

theorem accepted_of_load {used : Nat → Bool} {frames : Nat → Nat → UInt8} {kernel : Nat → Bool}
    {start : Start}
    (h : load (some file) used frames kernel grants = .ok (some start, some s)) :
    Accepted file s := by
  unfold load at h
  split at h
  · cases h
  · next space created =>
      simp only at h
      split at h
      · cases h
      · next ehdr accepted =>
          split at h
          · cases h
          · cases h
          · next s₁ loaded =>
              split at h
              · cases h
              · next finished =>
                  cases h
                  have base : HeapPlaced file [] ⟨space, 0, 0, 0⟩ := by
                    unfold pagedirCreate at created
                    split at created
                    · cases created
                    · cases created
                      exact ⟨.nil, by simp, .inr ⟨rfl, rfl⟩, by simp, rfl⟩
                  have all := segments_induction (HeapPlaced file)
                    (fun _ _ _ _ _ h valid done => h.add valid done) accepted base loaded
                  obtain ⟨-, stack⟩ := finishLoad_of_ok finished
                  have image := all.placed.finish stack
                  have place (n : Nat) : pgsize * n = stackBottom ↔ n = stackPage := by
                    unfold pgsize stackBottom physBase stackPage pgsize
                    omega
                  refine ⟨image.valid, image.apart, fun n => ?_, fun seg hseg n covers => ?_,
                    all.bound, fun some => ?_, all.start, all.fresh⟩
                  · rw [place]
                    exact image.mapped_iff
                  · rw [ne_eq, place]
                    rintro rfl
                    exact image.offStack seg hseg covers
                  · obtain reached | ⟨none_left, -⟩ := all.reached
                    · exact reached
                    · exact absurd none_left some

end

section
variable {file : ExecFile} {s : HeapSpace} {top seg : Phdr}

/-- The pages of every other segment end before those of the highest begin. -/
theorem Accepted.ends_before (h : Accepted file s) (mem : top ∈ file.segments)
    (highest : ∀ seg ∈ file.segments, seg.vaddr ≤ top.vaddr) (hseg : seg ∈ file.segments)
    (differ : seg ≠ top) : seg.firstPage + seg.pages ≤ top.firstPage := by
  have symmetric : Std.Symm fun seg seg' : Phdr => ∀ n, seg.Covers n → ¬ seg'.Covers n :=
    ⟨fun _ _ apart n covers covers' => apart n covers' covers⟩
  have apart := h.apart.forall hseg mem differ top.firstPage
  have lower : seg.firstPage ≤ top.firstPage := Nat.div_le_div_right (highest seg hseg)
  have nonempty : 0 < top.pages := by
    have := (h.valid top mem).nonempty
    unfold Phdr.pages pagesTo pgsize
    omega
  by_contra overlap
  exact apart ⟨lower, by omega⟩ ⟨le_rfl, by omega⟩

/-- The heap starts where the highest segment would end without its page offset. -/
theorem Accepted.heapStart_eq (h : Accepted file s) (mem : top ∈ file.segments)
    (highest : ∀ seg ∈ file.segments, seg.vaddr ≤ top.vaddr) :
    s.heapStart = pgsize * (top.firstPage + pagesTo top.memsz) := by
  have some : file.segments ≠ [] := List.ne_nil_of_mem mem
  obtain ⟨seg, hseg, reached⟩ := h.reached some
  have valid := h.valid top mem
  have nonempty := valid.nonempty
  have below := valid.below
  have least := h.bound top mem
  have same : seg = top := by
    by_contra differ
    have ends := h.ends_before mem highest hseg differ
    have inside : memEnd seg ≤ pgsize * (seg.firstPage + seg.pages) := by
      unfold memEnd Phdr.pages pagesTo pgsize
      omega
    have := Nat.mul_le_mul_left pgsize ends
    unfold memEnd at *
    omega
  subst same
  rw [h.start some, ← reached]
  unfold pgRoundUp pgRoundDown memEnd pagesTo Phdr.firstPage pgNo
  unfold physBase at below
  unfold pgsize
  omega

theorem pagesTo_le_pages (seg : Phdr) : pagesTo seg.memsz ≤ seg.pages := by
  unfold Phdr.pages pagesTo pgsize
  omega

theorem Accepted.heapAbove_iff (h : Accepted file s) (mem : top ∈ file.segments)
    (highest : ∀ seg ∈ file.segments, seg.vaddr ≤ top.vaddr) :
    HeapAbove s.thread ↔ top.pages = pagesTo top.memsz := by
  have start : s.thread.heapStart = pgsize * (top.firstPage + pagesTo top.memsz) :=
    h.heapStart_eq mem highest
  have less := pagesTo_le_pages top
  have nonempty : 0 < pagesTo top.memsz := by
    have := (h.valid top mem).nonempty
    unfold pagesTo pgsize
    omega
  rw [HeapAbove, start]
  constructor
  · rintro ⟨-, above⟩
    have covers : top.Covers (top.firstPage + top.pages - 1) := ⟨by omega, by omega⟩
    have last := above _ ((h.mapped _).mpr (.inr ⟨top, mem, covers⟩)) (h.stack top mem _ covers)
    have := Nat.le_of_mul_le_mul_left last (by decide)
    omega
  · intro fits
    refine ⟨pgOfs_pageAddr _, fun n mapped off_stack => Nat.mul_le_mul_left _ ?_⟩
    obtain stack | ⟨seg, hseg, lower, upper⟩ := (h.mapped n).mp mapped
    · exact absurd stack off_stack
    · by_cases same : seg = top
      · subst same
        omega
      · have := h.ends_before mem highest hseg same
        omega

theorem Accepted.initial (h : Accepted file s) (some : file.segments ≠ [])
    (above : HeapAbove s.thread) : Initial s.thread := by
  obtain ⟨aligned, ends⟩ := above
  obtain ⟨top, mem⟩ := List.exists_mem_of_ne_nil _ some
  have valid := h.valid top mem
  have covers : top.Covers top.firstPage := by
    have := valid.nonempty
    refine ⟨le_rfl, ?_⟩
    unfold Phdr.pages pagesTo pgsize
    omega
  have first := ends _ ((h.mapped _).mpr (.inr ⟨top, mem, covers⟩)) (h.stack top mem _ covers)
  refine ⟨aligned, le_trans ?_ first, ?_, h.fresh, fun n inside => ?_⟩
  · unfold pgsize
    omega
  · obtain ⟨seg, hseg, reached⟩ := h.reached some
    have valid := h.valid seg hseg
    have last : seg.Covers (seg.firstPage + seg.pages - 1) := by
      have := valid.nonempty
      unfold Phdr.Covers Phdr.pages pagesTo pgsize
      omega
    have off_stack := h.stack seg hseg _ last
    have upper := valid.pages_lt
    have start : s.thread.heapStart = pgRoundUp (memEnd seg) := (h.start some).trans (by rw [reached])
    have nonempty := valid.nonempty
    have below := valid.below
    rw [start]
    unfold pgRoundUp pgRoundDown memEnd
    unfold Phdr.Covers at last
    unfold Phdr.pages pagesTo at *
    unfold stackBottom physBase pgsize at *
    omega
  · rw [frameOf, Option.map_eq_none_iff, ← Option.not_isSome_iff_eq_none]
    intro mapped
    have := ends n mapped inside.2.ne
    have := inside.1
    unfold pgsize at *
    omega

theorem heapSafe_of_initial {t : Thread} (h : Initial t) : HeapSafe t := by
  intro t' run increment grants allowed fault stops
  obtain ⟨result, t'', done, -⟩ := syscallSbrk_spec (reachable_tracked h run) allowed grants
  rw [done] at stops
  cases stops

/-- For every executable that is loaded: the heap is above the program, and no
heap call stops the kernel, exactly if the highest segment fits. -/
theorem heap_placed_iff {used : Nat → Bool} {frames : Nat → Nat → UInt8} {kernel : Nat → Bool}
    {grants : LoadGrants} {start : Start}
    (h : load (some file) used frames kernel grants = .ok (some start, some s))
    (some : file.segments ≠ []) :
    HeapAbove s.thread ∧ HeapSafe s.thread ↔ TopFits file.segments := by
  have accepted := accepted_of_load h
  constructor
  · rintro ⟨above, -⟩ top mem highest
    exact (accepted.heapAbove_iff mem highest).mp above
  · intro fits
    have found : file.segments.argmax Phdr.vaddr ≠ none := mt List.argmax_eq_none.mp some
    obtain ⟨top, argmax⟩ := Option.ne_none_iff_exists'.mp found
    have mem := List.argmax_mem argmax
    have highest (seg : Phdr) (hseg : seg ∈ file.segments) : seg.vaddr ≤ top.vaddr :=
      List.le_of_mem_argmax hseg argmax
    have above := (accepted.heapAbove_iff mem highest).mpr (fits top mem highest)
    exact ⟨above, heapSafe_of_initial (accepted.initial some above)⟩

theorem exists_of_loaded (result : Except Fault (Option Start × Option HeapSpace))
    (p : HeapSpace → Bool)
    (h : (match result with | .ok (some _, some s) => p s | _ => false) = true) :
    ∃ start s, result = .ok (some start, some s) ∧ p s = true := by
  split at h
  · next start s => exact ⟨start, s, rfl, h⟩
  · cases h

/-- The pools answer with frame `j` for page `j`, and with kernel pages. -/
def plainGrants : LoadGrants where
  directory := some 0
  header := none
  phdrs _ := none
  pages _ j := ⟨some j, some 1, none⟩
  stack := ⟨some 100, some 2, none⟩

theorem heap_placed_of_aligned_program :
    ∃ start s, load (some (smallProgram 0 0x8048000 88 5000)) (fun _ => false) (fun _ _ => 0)
      (fun _ => false) plainGrants = .ok (some start, some s) ∧
      HeapAbove s.thread ∧ HeapSafe s.thread := by
  obtain ⟨start, s, loaded, -⟩ := exists_of_loaded
    (load (some (smallProgram 0 0x8048000 88 5000)) (fun _ => false) (fun _ _ => 0) (fun _ => false)
    plainGrants) (fun _ => true) (by decide +kernel)
  exact ⟨start, s, loaded, (heap_placed_iff loaded (by decide +kernel)).mpr (by
    unfold TopFits
    decide +kernel)⟩

theorem sbrk_stops {t : Thread} {pte : Pte} {n : Nat} {grants : Nat → Grant} {frame : Nat}
    (start : t.heapStart = pgsize * n) (fresh : t.heapBreak = pgsize * n) (above : 0 < n)
    (low : n < 0x80000 - 1) (mapped : entry t.mem.pagedir n = some pte)
    (grant : (grants 0).frame = some frame) (free : t.mem.used frame = false) :
    syscallSbrk t 1 grants = .error .alreadyMapped := by
  have mapped' : entry t.mem.pagedir (pgNo (pgsize * n)) = some pte := by
    rw [pgNo_pageAddr]
    exact mapped
  have stops := pagedirSetPage_mapped frame true (grants 0) (pgOfs_pageAddr n)
    (pageAddr_lt (by omega)) mapped'
  have round : allocate t.mem (pgsize * n) (pgsize * n) grants = .error .alreadyMapped := by
    rw [allocate, allocateFrom, if_neg (by simp [intMax, pgsize]), if_pos (by simp [pgsize, toInt32])]
    have page : (pgsize * n + pgsize * 0) % 2 ^ 32 = pgsize * n := by
      unfold pgsize
      omega
    simp only [page, pallocGetPage, grant, free, Bool.false_eq_true, if_false, stops]
  have value : toUInt32 (toInt32 (pgsize * n : Nat) + 1) = pgsize * n + 1 := by
    unfold toUInt32 toInt32 pgsize
    omega
  have not_less : ¬ toInt32 ((pgsize * n + 1 : Nat) : Int) < toInt32 ((pgsize * n : Nat) : Int) := by
    unfold toInt32 pgsize
    omega
  have last : toUInt32 (pgRoundDown (toUInt32 ((pgsize * n : Nat) - 1)) + pgsize) = pgsize * n := by
    unfold toUInt32 pgRoundDown pgsize
    omega
  have next : pgRoundDown (toUInt32 ((pgsize * n + 1 : Nat) - 1)) = pgsize * n := by
    unfold toUInt32 pgRoundDown pgsize
    omega
  unfold syscallSbrk
  rw [start, fresh, value, if_neg not_less]
  simp only [next, last, round, if_true, true_or, if_neg (by decide : ¬ (1 : Int) = 0),
    if_pos (by decide : (1 : Int) > 0)]

/-- A program whose second page only holds what its page offset pushes over. -/
theorem heap_overlaps_offset_program :
    ∃ start s, load (some (smallProgram 84 0x8048054 4 4096)) (fun _ => false) (fun _ _ => 0)
      (fun _ => false) plainGrants = .ok (some start, some s) ∧
      (smallProgram 84 0x8048054 4 4096).segments ≠ [] ∧ ¬ HeapAbove s.thread ∧
      syscallSbrk s.thread 1 (fun _ => ⟨some 7, true⟩) = .error .alreadyMapped ∧
      ¬ HeapSafe s.thread := by
  obtain ⟨start, s, loaded, checks⟩ := exists_of_loaded
    (load (some (smallProgram 84 0x8048054 4 4096)) (fun _ => false) (fun _ _ => 0) (fun _ => false)
    plainGrants) (fun s => s.heapStart = pgsize * 0x8049 ∧ s.heapBreak = pgsize * 0x8049 ∧
      (entry s.space.mem.pagedir 0x8049).isSome ∧ s.space.mem.used 7 = false) (by decide +kernel)
  obtain ⟨heap, fresh, mapped, free⟩ := of_decide_eq_true checks
  obtain ⟨pte, found⟩ := Option.isSome_iff_exists.mp mapped
  have stops : syscallSbrk s.thread 1 (fun _ => ⟨some 7, true⟩) = .error .alreadyMapped :=
    sbrk_stops heap fresh (by decide) (by decide) found rfl free
  refine ⟨start, s, loaded, by decide +kernel, fun above => ?_, stops, fun safe => ?_⟩
  · have := above.2 0x8049 mapped (by decide)
    rw [show s.thread.heapStart = pgsize * 0x8049 from heap] at this
    exact absurd this (by decide)
  · refine safe s.thread (.init rfl) 1 _ ⟨by decide, by decide, .inl ?_⟩ _ stops
    rw [show s.thread.heapStart = pgsize * 0x8049 from heap,
      show s.thread.heapBreak = pgsize * 0x8049 from fresh]
    decide

end
end CS162.Pintos.HwMemory
