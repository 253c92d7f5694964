import CS162.Pintos.LoaderSpec

/-!
The `uint32_t` arithmetic of the loader (proj-pregame: userprog/process.c): how `load`
rounds a segment to pages, and the loop of `load_segment` on its two counters. Here every
sum and difference wraps. For a segment that `validate_segment` accepts none does, so the
loop takes as many rounds as the loader elsewhere, which counts pages.
-/

namespace CS162.Pintos
open CS162.Library

/-- What `load` passes to `load_segment`. -/
structure SegmentCall where
  filePage : Nat
  memPage : Nat
  readBytes : Nat
  zeroBytes : Nat

def roundUp32 (x : Nat) : Nat := (x + pgsize - 1) % 2 ^ 32 / pgsize * pgsize

/-- The case `PT_LOAD` of `load`. -/
def Phdr.segmentCall (phdr : Phdr) : SegmentCall :=
  let pageOffset := phdr.vaddr % pgsize
  let rounded := roundUp32 ((pageOffset + phdr.memsz) % 2 ^ 32)
  let readBytes := if phdr.filesz > 0 then (pageOffset + phdr.filesz) % 2 ^ 32 else 0
  { filePage := phdr.offset - phdr.offset % pgsize
    memPage := phdr.vaddr - phdr.vaddr % pgsize
    readBytes := readBytes
    zeroBytes := if phdr.filesz > 0 then (rounded + 2 ^ 32 - readBytes) % 2 ^ 32 else rounded }

/-- The variables of the loop of `load_segment`. -/
structure LoadCounters where
  readBytes : Nat
  zeroBytes : Nat
  upage : Nat

namespace LoadCounters
variable (c : LoadCounters)

def running : Bool := c.readBytes > 0 || c.zeroBytes > 0

def pageReadBytes : Nat := if c.readBytes < pgsize then c.readBytes else pgsize

def pageZeroBytes : Nat := pgsize - c.pageReadBytes

def advance : LoadCounters where
  readBytes := (c.readBytes + 2 ^ 32 - c.pageReadBytes) % 2 ^ 32
  zeroBytes := (c.zeroBytes + 2 ^ 32 - c.pageZeroBytes) % 2 ^ 32
  upage := (c.upage + pgsize) % 2 ^ 32

def after : Nat → LoadCounters
  | 0 => c
  | i + 1 => (after i).advance

end LoadCounters

/-- The loop of `load_segment`, with the counters at its end. A round without a frame, without
all the bytes or without a page-table entry ends it; `none` is a loop of more rounds. -/
def segmentLoop (loaded : Nat → Bool) : (rounds i : Nat) → LoadCounters → Option (Bool × LoadCounters)
  | 0, _, c => if c.running then none else some (true, c)
  | rounds + 1, i, c =>
      if c.running then
        if loaded i then segmentLoop loaded rounds (i + 1) c.advance else some (false, c)
      else some (true, c)

def SegmentCall.counters (call : SegmentCall) : LoadCounters :=
  ⟨call.readBytes, call.zeroBytes, call.memPage⟩

def SegmentCall.pages (call : SegmentCall) : Nat := (call.readBytes + call.zeroBytes) / pgsize

/-- What the loader relies on from the numbers in a program header. -/
structure LoadsSafely (phdr : Phdr) : Prop where
  /-- No sum of the rounding reaches 2^32, and the subtraction does not go below zero. -/
  rounding : phdr.vaddr % pgsize + phdr.filesz < 2 ^ 32 ∧
    phdr.vaddr % pgsize + phdr.memsz + pgsize < 2 ^ 32 ∧
    phdr.segmentCall.readBytes ≤ roundUp (phdr.vaddr % pgsize + phdr.memsz) pgsize
  /-- The bytes are those of whole pages, at least of one. -/
  total : phdr.segmentCall.readBytes + phdr.segmentCall.zeroBytes =
    roundUp (phdr.vaddr % pgsize + phdr.memsz) pgsize ∧
    phdr.segmentCall.readBytes + phdr.segmentCall.zeroBytes = pgsize * phdr.segmentCall.pages ∧
    0 < phdr.segmentCall.pages
  /-- The assertions of `load_segment`. -/
  asserts : (phdr.segmentCall.readBytes + phdr.segmentCall.zeroBytes) % 2 ^ 32 % pgsize = 0 ∧
    pgOfs phdr.segmentCall.memPage = 0 ∧ toInt32 phdr.segmentCall.filePage % pgsize = 0
  /-- The assertion of `file_seek`. -/
  seek : 0 ≤ toInt32 phdr.segmentCall.filePage
  /-- Each round takes what is there from the counters, for a page of the user's. -/
  rounds : ∀ i < phdr.segmentCall.pages, ∀ c, c = phdr.segmentCall.counters.after i →
    c.running = true ∧ c.pageReadBytes ≤ c.readBytes ∧ c.pageZeroBytes ≤ c.zeroBytes ∧
    c.upage = phdr.segmentCall.memPage + pgsize * i ∧ pgsize ≤ c.upage ∧
    c.upage + pgsize ≤ physBase
  /-- The loop ends at the first round that fails, or with nothing left. -/
  ends : ∀ loaded, ∃ i ≤ phdr.segmentCall.pages, (∀ j < i, loaded j = true) ∧
    (i < phdr.segmentCall.pages → loaded i = false) ∧
    segmentLoop loaded phdr.segmentCall.pages 0 phdr.segmentCall.counters =
      some (decide (i = phdr.segmentCall.pages), phdr.segmentCall.counters.after i)
  done : (phdr.segmentCall.counters.after phdr.segmentCall.pages).readBytes = 0 ∧
    (phdr.segmentCall.counters.after phdr.segmentCall.pages).zeroBytes = 0

section Loop
variable {c : LoadCounters} {pages i : Nat} {loaded : Nat → Bool}

theorem pageReadBytes_eq (c : LoadCounters) : c.pageReadBytes = min c.readBytes pgsize := by
  rw [LoadCounters.pageReadBytes]
  split <;> omega

theorem after_eq (total : c.readBytes + c.zeroBytes = pgsize * pages)
    (small : pgsize * pages < 2 ^ 32) (above : c.upage + pgsize * pages < 2 ^ 32) (le : i ≤ pages) :
    c.after i = ⟨c.readBytes - pgsize * i,
      c.zeroBytes - (pgsize * i - min c.readBytes (pgsize * i)), c.upage + pgsize * i⟩ := by
  have page : pgsize = 4096 := rfl
  induction i with
  | zero => simp [LoadCounters.after]
  | succ i ih =>
      rw [LoadCounters.after, ih (by omega)]
      simp only [LoadCounters.advance, LoadCounters.pageZeroBytes, pageReadBytes_eq, page] at *
      rw [LoadCounters.mk.injEq]
      refine ⟨?_, ?_, ?_⟩ <;> omega

theorem segmentLoop_eq (run : ∀ j < pages, (c.after j).running = true)
    (stop : (c.after pages).running = false) (le : i ≤ pages) (before : ∀ j < i, loaded j = true) :
    ∃ e ≤ pages, (∀ j < e, loaded j = true) ∧ (e < pages → loaded e = false) ∧
      segmentLoop loaded (pages - i) i (c.after i) = some (decide (e = pages), c.after e) := by
  obtain ⟨left, total⟩ := Nat.exists_eq_add_of_le le
  subst total
  rw [Nat.add_sub_cancel_left]
  induction left generalizing i with
  | zero =>
      refine ⟨i, Nat.le_refl i, before, fun less => absurd less (Nat.lt_irrefl i), ?_⟩
      rw [Nat.add_zero] at stop ⊢
      rw [segmentLoop, stop, decide_eq_true rfl]
      rfl
  | succ left ih =>
      rw [segmentLoop, run i (by omega), if_pos rfl]
      cases round : loaded i with
      | false =>
          refine ⟨i, le, before, fun _ => round, ?_⟩
          rw [decide_eq_false (by omega)]
          rfl
      | true =>
          have sum : i + (left + 1) = i + 1 + left := by omega
          rw [sum] at run stop ⊢
          refine ih (fun j less => ?_) run stop (by omega)
          cases Nat.lt_succ_iff_lt_or_eq.mp less with
          | inl earlier => exact before j earlier
          | inr last => exact last ▸ round

end Loop

section Accepted
variable {file : ExecFile} {phdr : Phdr}

theorem offset_le_of_validateSegment (h : validateSegment phdr file = true) :
    phdr.offset ≤ file.bytes.length := by
  rw [validateSegment] at h
  split at h
  next => cases h
  next =>
    split at h
    next => cases h
    next inside => exact Nat.le_of_not_lt inside

/-- The numbers that `load` computes, for a segment below `PHYS_BASE`. -/
theorem Phdr.Valid.segmentCall_eq (valid : phdr.Valid) : phdr.segmentCall =
    ⟨phdr.filePage, pgsize * phdr.firstPage, phdr.readBytes, pgsize * phdr.pages - phdr.readBytes⟩ := by
  obtain ⟨_, file, above, nonempty, below⟩ := valid
  simp only [Phdr.segmentCall, roundUp32, Phdr.filePage, Phdr.firstPage, Phdr.pages, Phdr.readBytes,
    pagesTo, pgOfs, pgNo, pgsize, physBase, SegmentCall.mk.injEq] at *
  refine ⟨trivial, by omega, ?_, ?_⟩
  · split <;> omega
  · split <;> omega

namespace Phdr.Valid
variable (valid : phdr.Valid)
include valid

theorem total_eq : phdr.readBytes + (pgsize * phdr.pages - phdr.readBytes) = pgsize * phdr.pages :=
  Nat.add_sub_cancel' valid.readBytes_le

theorem segmentPages_eq : phdr.segmentCall.pages = phdr.pages := by
  rw [SegmentCall.pages, valid.segmentCall_eq, valid.total_eq, Nat.mul_div_cancel_left _ (by decide)]

theorem pages_pos : 0 < phdr.firstPage ∧ 0 < phdr.pages := by
  have above := valid.above
  have nonempty := valid.nonempty
  simp only [Phdr.firstPage, Phdr.pages, pagesTo, pgNo, pgOfs, pgsize] at *
  omega

theorem pages_below : pgsize * phdr.firstPage + pgsize * phdr.pages ≤ physBase := by
  have last := valid.pages_lt
  simp only [pgsize, physBase]
  omega

theorem counters_after {i : Nat} (le : i ≤ phdr.pages) : phdr.segmentCall.counters.after i =
    ⟨phdr.readBytes - pgsize * i, pgsize * phdr.pages - phdr.readBytes -
      (pgsize * i - min phdr.readBytes (pgsize * i)), pgsize * phdr.firstPage + pgsize * i⟩ := by
  have below := valid.pages_below
  have small : physBase < 2 ^ 32 := by decide
  rw [SegmentCall.counters, valid.segmentCall_eq]
  exact after_eq valid.total_eq (by omega) (by simp only; omega) le

theorem running_after {i : Nat} (inside : i < phdr.pages) :
    (phdr.segmentCall.counters.after i).running = true := by
  have total := valid.total_eq
  rw [valid.counters_after (Nat.le_of_lt inside)]
  simp only [LoadCounters.running, gt_iff_lt, Bool.or_eq_true, decide_eq_true_eq, pgsize] at *
  omega

theorem stopped_after : (phdr.segmentCall.counters.after phdr.pages).running = false := by
  have total := valid.total_eq
  rw [valid.counters_after (Nat.le_refl _)]
  simp only [LoadCounters.running, gt_iff_lt, Bool.or_eq_false_iff, decide_eq_false_iff_not]
  omega

end Phdr.Valid
end Accepted

/-- A program header that `validate_segment` accepts is loaded without a wrap, a failing assertion or
a page outside of the user's. -/
theorem loadsSafely_of_validateSegment (file : ExecFile) (header : List UInt8)
    (accepted : validateSegment (readPhdr header) file = true) : LoadsSafely (readPhdr header) := by
  have narrow : (readPhdr header).memsz < 2 ^ 32 := field_lt header 20 4
  have valid := valid_of_validateSegment accepted narrow
  have inside := offset_le_of_validateSegment accepted
  have fits := file.fits
  generalize readPhdr header = phdr at *
  have call := valid.segmentCall_eq
  have total := valid.total_eq
  have bound := valid.pages_below
  have small : physBase < 2 ^ 32 := by decide
  have aligned := phdr.filePage_aligned
  have seek : toInt32 phdr.filePage = phdr.filePage :=
    toInt32_of_range (by omega) (by rw [intMax]; omega)
  constructor
  case rounding =>
    have below := valid.below
    have file := valid.file
    rw [call, phdr.roundUp_eq]
    refine ⟨?_, ?_, valid.readBytes_le⟩
    · simp only [pgsize, physBase] at *
      omega
    · simp only [pgsize, physBase] at *
      omega
  case total =>
    rw [valid.segmentPages_eq, phdr.roundUp_eq, call]
    exact ⟨total, total, valid.pages_pos.2⟩
  case asserts =>
    rw [call]
    refine ⟨?_, Nat.mul_mod_right .., ?_⟩
    · show (phdr.readBytes + (pgsize * phdr.pages - phdr.readBytes)) % 2 ^ 32 % pgsize = 0
      have wrapless : pgsize * phdr.pages < 2 ^ 32 := by omega
      rw [total, Nat.mod_eq_of_lt wrapless, Nat.mul_mod_right]
    · show toInt32 phdr.filePage % pgsize = 0
      rw [seek]
      exact_mod_cast aligned.1
  case seek =>
    rw [call]
    show 0 ≤ toInt32 phdr.filePage
    rw [seek]
    exact Int.natCast_nonneg _
  case rounds =>
    intro i inside c same
    rw [valid.segmentPages_eq] at inside
    subst same
    have first := valid.pages_pos
    refine ⟨valid.running_after inside, ?_⟩
    rw [valid.counters_after (Nat.le_of_lt inside), call]
    simp only [LoadCounters.pageZeroBytes, pageReadBytes_eq, pgsize, physBase] at *
    refine ⟨Nat.min_le_left _ _, ?_, trivial, ?_, ?_⟩ <;> omega
  case ends =>
    intro loaded
    rw [valid.segmentPages_eq]
    exact segmentLoop_eq (fun j => valid.running_after) valid.stopped_after (Nat.zero_le _)
      fun j none => absurd none (Nat.not_lt_zero j)
  case done =>
    rw [valid.segmentPages_eq, valid.counters_after (Nat.le_refl _)]
    simp only
    omega

/-- A segment of 4 bytes in the file and 4096 in memory, behind a header of 84 bytes. -/
theorem loadsSafely_of_smallProgram :
    LoadsSafely (readPhdr ((smallProgram 84 0x8048054 4 4096).read 52 Phdr.size)) :=
  loadsSafely_of_validateSegment (smallProgram 84 0x8048054 4 4096) _ (by decide)

/-- The loader that counts pages is called with the same numbers, and its assertions hold. -/
theorem loadPhdr_eq_loadPages {file : ExecFile} {phdr : Phdr} (valid : phdr.Valid)
    (inside : phdr.offset ≤ file.bytes.length) (grants : Nat → PageGrant) (s : AddressSpace) :
    loadPhdr file phdr grants s = loadPages file phdr.writable grants phdr.segmentCall.pages
      phdr.segmentCall.filePage phdr.segmentCall.memPage phdr.segmentCall.readBytes 0 s := by
  have fits := file.fits
  have aligned := phdr.filePage_aligned
  rw [loadPhdr_eq, valid.segmentPages_eq, valid.segmentCall_eq, loadSegment, valid.total_eq,
    if_neg (by simp), if_neg (by simp [pgOfs_pageAddr]), if_neg (not_not.mpr aligned.1),
    if_neg (by omega), Nat.mul_div_cancel_left _ (by decide)]

end CS162.Pintos
