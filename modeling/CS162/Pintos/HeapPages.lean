import CS162.Library.Transition
import CS162.Pintos.Sbrk

/-!
The heap over a run of system calls: its pages are exactly those below the
break, each with a zeroed frame of its own, and the pool has every other frame
that the calls took back.
-/

namespace CS162.Pintos
open CS162.Library

/-- The address of the stack page. -/
def stackBottom : Nat := physBase - pgsize

/-- The pages from the start of the heap up to the stack. -/
def InHeap (heapStart n : Nat) : Prop := heapStart ≤ pgsize * n ∧ pgsize * n < stackBottom

instance (heapStart : Nat) : DecidablePred (InHeap heapStart) :=
  fun n => inferInstanceAs (Decidable (heapStart ≤ pgsize * n ∧ pgsize * n < stackBottom))

/-- A process before its first call, with nothing mapped between the start of
its heap and the stack. -/
structure Initial (t : Thread) : Prop where
  aligned : pgOfs t.heapStart = 0
  above : pgsize ≤ t.heapStart
  below : t.heapStart ≤ stackBottom
  empty : t.heapBreak = t.heapStart
  unmapped : ∀ n, InHeap t.heapStart n → frameOf t.mem n = none

/-- The increment keeps the break between the start of the heap and the stack,
or the call refuses the new break for being below the start. -/
def Admissible (t : Thread) (increment : Int) : Prop :=
  -2 ^ 31 ≤ increment ∧ increment < 2 ^ 31 ∧
    ((t.heapStart ≤ t.heapBreak + increment ∧ t.heapBreak + increment < stackBottom) ∨
      toInt32 (toUInt32 (toInt32 t.heapBreak + increment)) < toInt32 t.heapStart)

/-- The call refuses the new break for being below the start of the heap, as signed numbers. -/
def Refused (t : Thread) (increment : Int) : Prop :=
  toInt32 (toUInt32 (toInt32 t.heapBreak + increment)) < toInt32 t.heapStart

/-- How many pages are new below the break. -/
def pagesNeeded (t : Thread) (increment : Int) : Nat :=
  pagesTo (t.heapBreak + increment).toNat - pagesTo t.heapBreak

/-- What holds after every call of a run from `t₀`. -/
structure HeapTracked (t₀ t : Thread) : Prop where
  start : t.heapStart = t₀.heapStart
  lower : t.heapStart ≤ t.heapBreak
  upper : t.heapBreak ≤ stackBottom
  mapped : ∀ n, InHeap t.heapStart n → ((frameOf t.mem n).isSome ↔
    ∃ addr, t.heapStart ≤ addr ∧ addr < t.heapBreak ∧ pgNo addr = n)
  distinct : ∀ n k frame, InHeap t.heapStart n → InHeap t.heapStart k →
    frameOf t.mem n = some frame → frameOf t.mem k = some frame → n = k
  pool : ∀ frame, t.mem.used frame = true ↔ t₀.mem.used frame = true ∨
    ∃ n, InHeap t.heapStart n ∧ frameOf t.mem n = some frame
  taken : ∀ n frame, InHeap t.heapStart n → frameOf t.mem n = some frame →
    t₀.mem.used frame = false

/-- What one call does. -/
structure SbrkResult (t : Thread) (increment : Int) (result : Nat) (t' : Thread) : Prop where
  moved : (result = t.heapBreak ∧ (t'.heapBreak : Int) = t.heapBreak + increment) ∨
    (result = sbrkFailed ∧ t'.heapBreak = t.heapBreak)
  zeroed : ∀ n frame, InHeap t.heapStart n → frameOf t.mem n = none →
    frameOf t'.mem n = some frame → ∀ offset, t'.mem.frames frame offset = 0
  kept : ∀ n frame, InHeap t.heapStart n → frameOf t.mem n = some frame →
    (frameOf t'.mem n).isSome → frameOf t'.mem n = some frame ∧
      t'.mem.frames frame = t.mem.frames frame

/-- The invariant of the run. The break is on the same side of `2 ^ 31` as the
start, because the call compares them as signed numbers. -/
structure Tracked (t₀ t : Thread) : Prop where
  start : t.heapStart = t₀.heapStart
  aligned : pgOfs t.heapStart = 0
  above : pgsize ≤ t.heapStart
  lower : t.heapStart ≤ t.heapBreak
  upper : t.heapBreak ≤ stackBottom
  side : t.heapStart < 2 ^ 31 → t.heapBreak < 2 ^ 31
  mapped : ∀ n, InHeap t.heapStart n → ((frameOf t.mem n).isSome ↔ n < pagesTo t.heapBreak)
  accounts : Accounts (fun frame => t₀.mem.used frame = true) (InHeap t.heapStart) t.mem

theorem Initial.tracked {t : Thread} (h : Initial t) : Tracked t t where
  start := rfl
  aligned := h.aligned
  above := h.above
  lower := h.empty.ge
  upper := h.empty.le.trans h.below
  side low := by rw [h.empty]; exact low
  mapped n hn := by
    rw [h.unmapped n hn, h.empty]
    have aligned := h.aligned
    simp only [InHeap, pagesTo, pgOfs, pgsize, Option.isSome_none, Bool.false_eq_true,
      false_iff] at *
    omega
  accounts := by
    refine (Owns.empty _).congr (fun n => ?_) fun _ => Iff.rfl
    by_cases hn : InHeap t.heapStart n
    · rw [heldBy_of_mem hn, h.unmapped n hn]
    · exact if_neg hn

theorem Tracked.heapTracked {t₀ t : Thread} (h : Tracked t₀ t) : HeapTracked t₀ t where
  start := h.start
  lower := h.lower
  upper := h.upper
  mapped n hn := by
    rw [h.mapped n hn]
    have aligned := h.aligned
    simp only [InHeap, pagesTo, pgOfs, pgNo, pgsize] at *
    constructor
    · intro below
      exact ⟨4096 * n, by omega, by omega, by omega⟩
    · rintro ⟨addr, lower, upper, rfl⟩
      omega
  distinct n k frame hn hk hf hg :=
    h.accounts.injective n k frame (by rw [heldBy_of_mem hn, hf]) (by rw [heldBy_of_mem hk, hg])
  pool frame := by
    rw [h.accounts.used_iff]
    refine or_congr Iff.rfl (exists_congr fun n => ?_)
    by_cases hn : InHeap t.heapStart n
    · simp [heldBy_of_mem hn, hn]
    · simp [heldBy, hn]
  taken n frame hn hf :=
    Bool.eq_false_iff.mpr (h.accounts.apart n frame (by rw [heldBy_of_mem hn, hf]))

section Rounding
variable {x a b : Nat}

theorem pgRoundDown_pred (pos : 0 < x) (fits : x < 2 ^ 32) :
    pgRoundDown (toUInt32 (x - 1)) = pgsize * (pagesTo x - 1) := by
  unfold pgRoundDown toUInt32 pagesTo pgsize
  omega

theorem next_page (pos : 0 < a) (fits : a ≤ 0xc0000) :
    toUInt32 ((pgsize * (a - 1) : Nat) + pgsize) = pgsize * a := by
  unfold toUInt32 pgsize
  omega

/-- The `ptrdiff_t` between the last page of a run of pages and the first. -/
theorem page_difference (pos : 0 < b) (order : a ≤ b) (fits : (pgsize : Int) * (b - a) ≤ intMax) :
    toInt32 ((pgsize * (b - 1) : Nat) - (pgsize * a : Nat)) = (pgsize : Int) * (b - a) - pgsize := by
  unfold intMax at fits
  unfold toInt32 pgsize at *
  omega

theorem pagesTo_pos (above : pgsize ≤ x) : 0 < pagesTo x := by
  unfold pagesTo
  unfold pgsize at *
  omega

end Rounding

section Call
variable {t₀ t : Thread} {increment : Int} {a b : Nat}

theorem newBreak_eq (inside : 0 ≤ t.heapBreak + increment ∧ t.heapBreak + increment < 2 ^ 32) :
    (toUInt32 (toInt32 t.heapBreak + increment) : Int) = t.heapBreak + increment := by
  unfold toUInt32 toInt32
  omega

/-- Pages that the loops can count, between the start of the heap and the stack. -/
structure PageRun (t : Thread) (a b : Nat) : Prop where
  pos : 0 < a
  order : a ≤ b
  first : t.heapStart ≤ pgsize * a
  last : b ≤ 0xbffff
  fits : (pgsize : Int) * (b - a) ≤ intMax

theorem PageRun.inHeap (run : PageRun t a b) {n : Nat} (lower : a ≤ n) (upper : n < b) :
    InHeap t.heapStart n := by
  obtain ⟨pos, order, first, last, fits⟩ := run
  unfold InHeap stackBottom physBase
  unfold pgsize at *
  omega

theorem unallocate_spec {base : Nat → Prop} (run : PageRun t a b)
    (accounts : Accounts base (InHeap t.heapStart) t.mem) :
    ∃ m', unallocate t.mem (pgsize * a) (pgsize * (b - 1)) = .ok m' ∧
      entry m'.pagedir = clearPages a b (entry t.mem.pagedir) ∧
      Accounts base (InHeap t.heapStart) m' ∧ KeepsContents t.mem m' := by
  have count : a + (b - a) = b := Nat.add_sub_cancel' run.order
  have size := page_difference (Nat.lt_of_lt_of_le run.pos run.order) run.order run.fits
  have width : ((b - a : Nat) : Int) = b - a := Nat.cast_sub run.order
  have last := run.last
  obtain ⟨m', done, entries, accounts', kept, -⟩ := unallocateFrom_spec (i := 0) accounts
    (fun n lower upper => run.inHeap lower (by omega)) (by omega) (by rw [width]; exact run.fits)
    (by rw [width]) (Nat.zero_le (b - a))
  rw [Nat.add_zero, count] at entries
  exact ⟨m', by rw [unallocate, size]; exact done, entries, accounts', kept⟩

theorem allocate_spec {base : Nat → Prop} (run : PageRun t a b) (grants : Nat → Grant)
    (accounts : Accounts base (InHeap t.heapStart) t.mem)
    (unmapped : ∀ n, a ≤ n → n < b → entry t.mem.pagedir n = none) :
    ∃ failed m', allocate t.mem (pgsize * a) (pgsize * (b - 1)) grants = .ok (failed, m') ∧
      Accounts base (InHeap t.heapStart) m' ∧ KeepsContents t.mem m' ∧
      (failed = true → entry m'.pagedir = clearPages a b (entry t.mem.pagedir)) ∧
      (failed = false → Allocated a b t.mem m') ∧ (PagesGranted t.mem.used grants (b - a) → failed = false) := by
  have count : a + (b - a) = b := Nat.add_sub_cancel' run.order
  have size := page_difference (Nat.lt_of_lt_of_le run.pos run.order) run.order run.fits
  have width : ((b - a : Nat) : Int) = b - a := Nat.cast_sub run.order
  have last := run.last
  obtain ⟨failed, m', done, accounts', kept, rolled, mapped⟩ := allocateFrom_spec (i := 0) grants
    accounts (fun n lower upper => run.inHeap lower (by omega)) (by omega)
    (by rw [width]; exact run.fits) (by rw [width]) (Nat.zero_le (b - a))
    (fun n lower upper => unmapped n lower (by omega))
  rw [Nat.add_zero, count] at mapped
  rw [count] at rolled
  refine ⟨failed, m', by rw [allocate, size]; exact done, accounts', kept, rolled, mapped, fun granted => ?_⟩
  obtain ⟨m'', succeeds⟩ := allocateFrom_granted (i := 0) (by omega) (by rw [width]; exact run.fits) (by rw [width])
    (Nat.zero_le (b - a)) (fun n lower upper => unmapped n lower (by omega)) (fun k _ inside => granted.free k inside)
    granted.apart
  rw [done] at succeeds
  cases succeeds
  rfl

/-- A call that leaves the frames of kept pages where they are keeps their contents. -/
theorem sbrkResult_of {base : Nat → Prop} {t' : Thread} {result : Nat}
    (moved : (result = t.heapBreak ∧ (t'.heapBreak : Int) = t.heapBreak + increment) ∨
      (result = sbrkFailed ∧ t'.heapBreak = t.heapBreak))
    (accounts : Accounts base (InHeap t.heapStart) t.mem)
    (accounts' : Accounts base (InHeap t.heapStart) t'.mem) (contents : KeepsContents t.mem t'.mem)
    (same : ∀ n frame, InHeap t.heapStart n → frameOf t.mem n = some frame →
      (frameOf t'.mem n).isSome → frameOf t'.mem n = some frame)
    (zeroed : ∀ n frame, InHeap t.heapStart n → frameOf t.mem n = none →
      frameOf t'.mem n = some frame → ∀ offset, t'.mem.frames frame offset = 0) :
    SbrkResult t increment result t' where
  moved := moved
  zeroed := zeroed
  kept n frame hn hf still := by
    have hf' := same n frame hn hf still
    exact ⟨hf', contents frame (accounts.used_of_frameOf hn hf) (accounts'.used_of_frameOf hn hf')⟩

theorem shrink_spec (h : Tracked t₀ t) {new : Nat} (moved : (new : Int) = t.heapBreak + increment)
    (lower : t.heapStart ≤ new) (down : new ≤ t.heapBreak)
    (run : PageRun t (pagesTo new) (pagesTo t.heapBreak)) :
    ∃ m', unallocate t.mem (pgsize * pagesTo new) (pgsize * (pagesTo t.heapBreak - 1)) = .ok m' ∧
      Tracked t₀ { t with mem := m', heapBreak := new } ∧
      SbrkResult t increment t.heapBreak { t with mem := m', heapBreak := new } := by
  obtain ⟨m', done, entries, accounts', kept⟩ := unallocate_spec run h.accounts
  have frames (n : Nat) : frameOf m' n =
      if pagesTo new ≤ n ∧ n < pagesTo t.heapBreak then none else frameOf t.mem n := by
    rw [frameOf, entries, clearPages]
    split <;> rfl
  have order := run.order
  refine ⟨m', done, ?_, sbrkResult_of (.inl ⟨rfl, moved⟩) h.accounts accounts' kept ?_ ?_⟩
  · refine { h with
      lower := lower
      upper := down.trans h.upper
      side := fun low => down.trans_lt (h.side low)
      mapped := fun n hn => ?_
      accounts := accounts' }
    simp only [frames]
    split
    · simp only [Option.isSome_none, Bool.false_eq_true, false_iff]
      omega
    · rw [h.mapped n hn]
      omega
  · intro n frame hn hf still
    rw [frames] at still ⊢
    split at still
    · cases still
    · next kept => rw [if_neg kept, hf]
  · intro n frame hn hf hf'
    rw [frames, hf, ite_self] at hf'
    cases hf'

/-- Growing: the pages between the old and the new break are mapped, or the call
reports that it could not and changes none. -/
theorem grow_spec (h : Tracked t₀ t) (grants : Nat → Grant) {new : Nat}
    (moved : (new : Int) = t.heapBreak + increment) (up : t.heapBreak ≤ new)
    (limit : new ≤ stackBottom) (side : t.heapStart < 2 ^ 31 → new < 2 ^ 31)
    (run : PageRun t (pagesTo t.heapBreak) (pagesTo new)) :
    ∃ failed m', allocate t.mem (pgsize * pagesTo t.heapBreak) (pgsize * (pagesTo new - 1)) grants =
        .ok (failed, m') ∧
      (failed = true → Tracked t₀ { t with mem := m' } ∧
        SbrkResult t increment sbrkFailed { t with mem := m' }) ∧
      (failed = false → Tracked t₀ { t with mem := m', heapBreak := new } ∧
        SbrkResult t increment t.heapBreak { t with mem := m', heapBreak := new }) ∧
      (PagesGranted t.mem.used grants (pagesTo new - pagesTo t.heapBreak) → failed = false) := by
  have order := run.order
  have unmapped : ∀ n, pagesTo t.heapBreak ≤ n → n < pagesTo new →
      entry t.mem.pagedir n = none := by
    intro n lower upper
    have absent := h.mapped n (run.inHeap lower upper)
    rw [frameOf, Option.isSome_map] at absent
    exact Option.not_isSome_iff_eq_none.mp fun some => by have := absent.mp some; omega
  obtain ⟨failed, m', done, accounts', kept, rolled, mapped, granted⟩ :=
    allocate_spec run grants h.accounts unmapped
  refine ⟨failed, m', done, fun hf => ?_, fun hf => ?_, granted⟩
  · have frames (n : Nat) : frameOf m' n = frameOf t.mem n := by
      rw [frameOf, frameOf, rolled hf, clearPages]
      split
      · next inside => rw [unmapped n inside.1 inside.2]
      · rfl
    refine ⟨{ h with mapped := fun n hn => ?_, accounts := accounts' },
      sbrkResult_of (.inr ⟨rfl, rfl⟩) h.accounts accounts' kept (fun n frame hn hf still => ?_)
        fun n frame hn hf hf' => ?_⟩
    · rw [frames]
      exact h.mapped n hn
    · rw [frames, hf]
    · rw [frames, hf] at hf'
      cases hf'
  · obtain ⟨others, fresh⟩ := mapped hf
    have outside {n : Nat} (hn : ¬(pagesTo t.heapBreak ≤ n ∧ n < pagesTo new)) :
        frameOf m' n = frameOf t.mem n := by rw [frameOf, frameOf, others n hn]
    refine ⟨?_, sbrkResult_of (.inl ⟨rfl, moved⟩) h.accounts accounts' kept
      (fun n frame hn hf still => ?_) fun n frame hn hf hf' => ?_⟩
    · refine { h with
        lower := h.lower.trans up
        upper := limit
        side := side
        mapped := fun n hn => ?_
        accounts := accounts' }
      by_cases inside : pagesTo t.heapBreak ≤ n ∧ n < pagesTo new
      · obtain ⟨frame, here, -⟩ := fresh n inside.1 inside.2
        simp [frameOf, here, inside.2]
      · simp only [outside inside]
        rw [h.mapped n hn]
        omega
    · have below := (h.mapped n hn).mp (by rw [hf]; rfl)
      rw [outside (by omega), hf]
    · by_cases inside : pagesTo t.heapBreak ≤ n ∧ n < pagesTo new
      · obtain ⟨other, here, zero⟩ := fresh n inside.1 inside.2
        rw [frameOf, here] at hf'
        cases hf'
        exact congrFun zero
      · rw [outside inside, hf] at hf'
        cases hf'

theorem stay_spec (h : Tracked t₀ t) {new : Nat} (moved : (new : Int) = t.heapBreak + increment)
    (lower : t.heapStart ≤ new) (limit : new ≤ stackBottom)
    (side : t.heapStart < 2 ^ 31 → new < 2 ^ 31) (same : pagesTo t.heapBreak = pagesTo new) :
    Tracked t₀ { t with heapBreak := new } ∧
      SbrkResult t increment t.heapBreak { t with heapBreak := new } := by
  refine ⟨{ h with lower := lower, upper := limit, side := side, mapped := fun n hn => ?_ },
    sbrkResult_of (.inl ⟨rfl, moved⟩) h.accounts h.accounts (fun _ _ _ => rfl)
      (fun n frame hn hf _ => hf) fun n frame hn hf hf' => ?_⟩
  · simp only [← same]
    exact h.mapped n hn
  · rw [hf] at hf'
    cases hf'

theorem pageRun_of {low high : Nat} (above : pgsize ≤ t.heapStart)
    (lower : t.heapStart ≤ low) (order : low ≤ high) (limit : high ≤ stackBottom)
    (side : t.heapStart < 2 ^ 31 → high < 2 ^ 31) : PageRun t (pagesTo low) (pagesTo high) := by
  unfold stackBottom physBase at limit
  refine ⟨?_, ?_, ?_, ?_, ?_⟩
  all_goals
    unfold pagesTo
    try unfold intMax
    unfold pgsize at *
    omega

/-- One call of a run: it stops the kernel in no case, keeps track of the pages
and does what it says. -/
theorem syscallSbrk_spec (h : Tracked t₀ t) (allowed : Admissible t increment)
    (grants : Nat → Grant) :
    ∃ result t', syscallSbrk t increment grants = .ok (result, t') ∧ Tracked t₀ t' ∧
      SbrkResult t increment result t' ∧
      (¬ Refused t increment → PagesGranted t.mem.used grants (pagesNeeded t increment) → result = t.heapBreak) := by
  have above := h.above
  have upper := h.upper
  have lower := h.lower
  unfold syscallSbrk
  by_cases refused : toInt32 (toUInt32 (toInt32 t.heapBreak + increment)) < toInt32 t.heapStart
  · refine ⟨sbrkFailed, t, if_pos refused, h, sbrkResult_of (.inr ⟨rfl, rfl⟩) h.accounts h.accounts
      (fun _ _ _ => rfl) (fun n frame hn hf _ => hf) fun n frame hn hf hf' => ?_, fun served => absurd refused served⟩
    rw [hf] at hf'
    cases hf'
  · obtain ⟨from_start, limit⟩ := allowed.2.2.resolve_right refused
    have range : 0 ≤ t.heapBreak + increment ∧ t.heapBreak + increment < 2 ^ 32 := by
      unfold stackBottom physBase pgsize at limit
      omega
    have value := newBreak_eq range
    have needed : pagesNeeded t increment =
        pagesTo (toUInt32 (toInt32 t.heapBreak + increment)) - pagesTo t.heapBreak := by
      rw [pagesNeeded, ← value, Int.toNat_natCast]
    rw [needed]
    simp only [if_neg refused]
    generalize toUInt32 (toInt32 t.heapBreak + increment) = new at refused value ⊢
    rw [← value] at from_start limit
    have lower' : t.heapStart ≤ new := Int.ofNat_le.mp from_start
    have limit' : new < stackBottom := Int.ofNat_lt.mp limit
    have side : t.heapStart < 2 ^ 31 → new < 2 ^ 31 := by
      intro low
      unfold toInt32 at refused
      unfold stackBottom physBase pgsize at limit'
      omega
    have pages := pagesTo_pos (h.above.trans lower)
    have pages' := pagesTo_pos (h.above.trans lower')
    have fits : t.heapBreak < 2 ^ 32 ∧ new < 2 ^ 32 := by
      unfold stackBottom physBase at upper limit'
      omega
    have below : pagesTo t.heapBreak ≤ 0xc0000 ∧ pagesTo new ≤ 0xc0000 := by
      unfold pagesTo
      unfold stackBottom physBase pgsize at *
      omega
    have same_page : pgsize * (pagesTo t.heapBreak - 1) = pgsize * (pagesTo new - 1) ↔
        pagesTo t.heapBreak = pagesTo new := by
      unfold pgsize
      omega
    rw [pgRoundDown_pred (by unfold pgsize at above; omega) fits.1,
      pgRoundDown_pred (by unfold pgsize at above; omega) fits.2, next_page pages below.1,
      next_page pages' below.2]
    simp only [ne_eq, same_page]
    rcases lt_trichotomy increment 0 with down | still | up
    · rw [if_neg (by omega), if_neg (by omega)]
      by_cases same : pagesTo t.heapBreak = pagesTo new
      · -- A break at the start of the heap is on a page of its own.
        have off_start : new ≠ t.heapStart := by
          have aligned := h.aligned
          unfold pagesTo at same
          unfold pgOfs pgsize at *
          omega
        rw [if_neg (by simp [off_start, same])]
        obtain ⟨tracked, result⟩ := stay_spec h value lower' limit'.le side same
        exact ⟨_, _, rfl, tracked, result, fun _ _ => rfl⟩
      · have run := pageRun_of above lower' (by omega : new ≤ t.heapBreak) upper h.side
        obtain ⟨m', done, tracked, result⟩ := shrink_spec h value lower' (by omega) run
        rw [if_pos (.inr same), done]
        exact ⟨_, _, rfl, tracked, result, fun _ _ => rfl⟩
    · rw [if_pos still]
      subst still
      have : new = t.heapBreak := by omega
      subst this
      obtain ⟨tracked, result⟩ := stay_spec h value lower' limit'.le side rfl
      exact ⟨_, _, rfl, tracked, result, fun _ _ => rfl⟩
    · rw [if_neg (by omega), if_pos up]
      by_cases same : pagesTo t.heapBreak = pagesTo new
      · have off_start : t.heapBreak ≠ t.heapStart := by
          have aligned := h.aligned
          unfold pagesTo at same
          unfold pgOfs pgsize at *
          omega
        rw [if_neg (by simp [off_start, same])]
        obtain ⟨tracked, result⟩ := stay_spec h value lower' limit'.le side same
        exact ⟨_, _, rfl, tracked, result, fun _ _ => rfl⟩
      · have run := pageRun_of above lower (by omega : t.heapBreak ≤ new) limit'.le side
        obtain ⟨failed, m', done, rolled, grown, granted⟩ :=
          grow_spec h grants value (by omega) limit'.le side run
        rw [if_pos (.inr same), done]
        cases failed with
        | true =>
            obtain ⟨tracked, result⟩ := rolled rfl
            exact ⟨_, _, rfl, tracked, result, fun _ all => Bool.noConfusion (granted all)⟩
        | false =>
            obtain ⟨tracked, result⟩ := grown rfl
            exact ⟨_, _, rfl, tracked, result, fun _ _ => rfl⟩

end Call

section Run
variable {t₀ t t' : Thread}

inductive Event where
  | sbrk (increment : Int) (grants : Nat → Grant)
  | store (addr : Nat) (byte : UInt8)

/-- The runs of a process from `t₀`: heap calls, with whatever the pools answer,
and stores to its pages. -/
def calls (t₀ : Thread) : System Thread Event where
  init t := t = t₀
  step t event t' :=
    match event with
    | .sbrk increment grants =>
        Admissible t increment ∧ ∃ result, syscallSbrk t increment grants = .ok (result, t')
    | .store addr byte => userStore t addr byte = some t'

theorem Tracked.store (h : Tracked t₀ t) {addr : Nat} {byte : UInt8}
    (stored : userStore t addr byte = some t') : Tracked t₀ t' := by
  obtain ⟨start, breaks, used, frames, -⟩ := userStore_of_some stored
  cases t' with
  | mk m' heapStart heapBreak =>
      subst start breaks
      refine { h with mapped := fun n hn => ?_, accounts := ?_ }
      · rw [frames]
        exact h.mapped n hn
      · refine h.accounts.congr (fun n => ?_) fun frame => ?_
        · rw [heldBy, heldBy, frames]
        · rw [used]

theorem reachable_tracked (start : Initial t₀) (run : (calls t₀).Reachable t) : Tracked t₀ t := by
  refine run.invariant ?_ ?_
  · rintro _ rfl
    exact start.tracked
  · intro t event t' h step
    cases event with
    | sbrk increment grants =>
        obtain ⟨allowed, result, done⟩ := step
        obtain ⟨result', after, done', tracked, -⟩ := syscallSbrk_spec h allowed grants
        rw [done] at done'
        cases done'
        exact tracked
    | store addr byte => exact h.store step

/-- The heap's pages after every call of every run, and what the next call does,
whatever the pools answer. A call succeeds if it is not refused and the pools grant all
that it asks for. -/
theorem sbrk_tracks_pages (start : Initial t₀) (run : (calls t₀).Reachable t) :
    HeapTracked t₀ t ∧ ∀ increment grants, Admissible t increment →
      ∃ result t', syscallSbrk t increment grants = .ok (result, t') ∧
        HeapTracked t₀ t' ∧ SbrkResult t increment result t' ∧
        (¬ Refused t increment → PagesGranted t.mem.used grants (pagesNeeded t increment) →
          result = t.heapBreak ∧ (t'.heapBreak : Int) = t.heapBreak + increment) := by
  have h := reachable_tracked start run
  refine ⟨h.heapTracked, fun increment grants allowed => ?_⟩
  obtain ⟨result, t', done, tracked, effect, succeeds⟩ := syscallSbrk_spec h allowed grants
  refine ⟨result, t', done, tracked.heapTracked, effect, fun served granted => ?_⟩
  obtain moved | ⟨failed, -⟩ := effect.moved
  · exact moved
  · have top : t.heapBreak ≤ stackBottom := h.upper
    have same := (succeeds served granted).symm.trans failed
    unfold sbrkFailed at same
    unfold stackBottom physBase pgsize at top
    omega

/-- A process with nothing mapped, whose heap starts behind a small program. -/
def emptyThread : Thread where
  mem := ⟨fun _ => none, fun _ => false, fun _ _ => 0⟩
  heapStart := 0x804b000
  heapBreak := 0x804b000

/-- The first call takes two pages, and the second gives one of them back. -/
theorem sbrk_tracks_pages_of_emptyThread :
    ∃ t' t'', syscallSbrk emptyThread 5000 (fun i => ⟨some i, true⟩) = .ok (0x804b000, t') ∧
      t'.heapBreak = 0x804b000 + 5000 ∧ HeapTracked emptyThread t' ∧
      syscallSbrk t' (-3000) (fun _ => ⟨none, false⟩) = .ok (0x804b000 + 5000, t'') ∧
      t''.heapBreak = 0x804b000 + 2000 ∧ HeapTracked emptyThread t'' := by
  have start : Initial emptyThread := ⟨by decide, by decide, by decide, rfl, fun _ _ => rfl⟩
  have run : (calls emptyThread).Reachable emptyThread := .init rfl
  have room : Admissible emptyThread 5000 := ⟨by decide, by decide, .inl ⟨by decide, by decide⟩⟩
  have granted : PagesGranted emptyThread.mem.used (fun i => ⟨some i, true⟩) (pagesNeeded emptyThread 5000) :=
    ⟨fun k _ => ⟨k, rfl, rfl, rfl⟩, fun j k order _ same => Nat.ne_of_lt order (Option.some.inj same)⟩
  obtain ⟨_, t', done, tracked, -, succeeds⟩ := (sbrk_tracks_pages start run).2 5000 _ room
  obtain ⟨rfl, moved⟩ := succeeds (show ¬ (_ : Int) < _ by decide) granted
  have breaks : t'.heapBreak = 0x804b000 + 5000 := Int.ofNat_inj.mp moved
  have starts : t'.heapStart = 0x804b000 := tracked.start
  have room' : Admissible t' (-3000) := by
    refine ⟨by decide, by decide, .inl ?_⟩
    rw [breaks, starts]
    decide
  have served : ¬ Refused t' (-3000) := by
    rw [Refused, breaks, starts]
    decide
  have granted' : PagesGranted t'.mem.used (fun _ => ⟨none, false⟩) (pagesNeeded t' (-3000)) := by
    rw [pagesNeeded, breaks]
    exact ⟨fun k inside => absurd inside (Nat.not_lt_zero k), fun j k _ inside => absurd inside (Nat.not_lt_zero k)⟩
  have run' : (calls emptyThread).Reachable t' := run.step (a := .sbrk 5000 _) ⟨room, _, done⟩
  obtain ⟨_, t'', done', tracked', -, succeeds'⟩ := (sbrk_tracks_pages start run').2 (-3000) _ room'
  obtain ⟨rfl, moved'⟩ := succeeds' served granted'
  rw [breaks] at done' moved'
  exact ⟨t', t'', done, breaks, tracked, done', Int.ofNat_inj.mp moved', tracked'⟩

end Run
end CS162.Pintos
