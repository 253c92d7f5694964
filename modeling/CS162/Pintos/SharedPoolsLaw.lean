import CS162.Pintos.SharedPools
import CS162.Library.Ownership
import Mathlib.Data.Fintype.Basic

/-!
Exclusivity of the page allocator. Each bit that is set stands for a page that one
thread owns or that one call has in hand, getting or freeing it. A bit is set only
under the pool's lock and only after it was seen clear, and nobody else sets bits of
that pool in between; frees only clear bits.
-/

namespace CS162.Pintos
open CS162.Library CS162.Synch
universe x
variable {ι : Type x}

/-- Where in the pool's lock a thread at this stage may be, and whether it has the
lock of pool `n`. -/
def PallocStage.At : PallocStage → Pc Empty PoolName → (PoolName → Bool) → Prop
  | .outside, pc, inside | .check _ _ _ _, pc, inside | .reset _ _ _ _, pc, inside =>
      pc = .outside ∧ ∀ n, inside n = false
  | .start flags _, pc, inside =>
      (pc = .acquire flags.pool ∨ pc = .inDown (.inr flags.pool) ∨ pc = .acquired flags.pool) ∧
          (∀ n, inside n = false) ∨
        pc = .outside ∧ ∀ n, inside n = true ↔ n = flags.pool
  | .scan flags _ _ _, pc, inside | .flip flags _ _ _, pc, inside | .unlock flags _ _, pc, inside =>
      pc = .outside ∧ ∀ n, inside n = true ↔ n = flags.pool
  | .leave flags _ _, pc, inside =>
      (pc = .release flags.pool ∨ pc = .released flags.pool ∨ pc = .outside) ∧
        ∀ n, inside n = false

/-- The run of bits that the call is about lies in the pool. -/
def PallocStage.Fits (size : PoolName → Nat) : PallocStage → Prop
  | .scan flags cnt i j => i + cnt ≤ size flags.pool ∧ j ≤ cnt
  | .flip flags cnt idx j => idx + cnt ≤ size flags.pool ∧ j ≤ cnt
  | .unlock flags cnt (some idx) | .leave flags cnt (some idx) => idx + cnt ≤ size flags.pool
  | .check n idx cnt j | .reset n idx cnt j => idx + cnt ≤ size n ∧ j ≤ cnt
  | .outside | .start _ _ | .unlock _ _ none | .leave _ _ none => True

/-- The bits the call has seen clear and not set yet. -/
def PallocStage.Clear : PallocStage → PoolName → Nat → Prop
  | .scan flags _ i j, n, b => n = flags.pool ∧ i ≤ b ∧ b < i + j
  | .flip flags cnt idx j, n, b => n = flags.pool ∧ idx + j ≤ b ∧ b < idx + cnt
  | .outside, _, _ | .start _ _, _, _ | .unlock _ _ _, _, _ | .leave _ _ _, _, _
  | .check _ _ _ _, _, _ | .reset _ _ _ _, _, _ => False

/-- The pages that the call has in hand: their bits are set, and nobody owns them. -/
def PallocStage.Hands (base : PoolName → Nat) : PallocStage → Nat → Prop
  | .flip flags _ idx j, p => base flags.pool + idx ≤ p ∧ p < base flags.pool + idx + j
  | .unlock flags cnt (some idx), p | .leave flags cnt (some idx), p =>
      base flags.pool + idx ≤ p ∧ p < base flags.pool + idx + cnt
  | .check n idx cnt _, p => base n + idx ≤ p ∧ p < base n + idx + cnt
  | .reset n idx cnt j, p => base n + idx + j ≤ p ∧ p < base n + idx + cnt
  | .outside, _ | .start _ _, _ | .scan _ _ _ _, _ | .unlock _ _ none, _ | .leave _ _ none, _ => False

namespace PoolWorld

def base (w : PoolWorld ι) (n : PoolName) : Nat := (w.pool n).base

/-- The bit of the page is set, in whichever pool. -/
def Used (w : PoolWorld ι) (p : Nat) : Prop := ∃ n, (w.pool n).Used p

/-- The slots pages are in: a thread's own pages, and those its call has in hand. -/
def slot (w : PoolWorld ι) : ι ⊕ ι → Nat → Prop
  | .inl t, p => w.owns t p = true
  | .inr t, p => (w.stage t).Hands w.base p

/-- The run lies in the pool that its flags name. -/
def RunFits (w : PoolWorld ι) (run : PallocRun) : Prop :=
  w.base run.flags.pool ≤ run.page ∧
    run.page + run.cnt ≤ w.base run.flags.pool + w.bitCnt run.flags.pool

/-- The pools share no page. -/
def Apart (w : PoolWorld ι) : Prop := ∀ n m p, w.base n ≤ p → p < w.base n + w.bitCnt n →
  w.base m ≤ p → p < w.base m + w.bitCnt m → n = m

section Bits
variable {w : PoolWorld ι} {n : PoolName} {idx b : Nat} {value : Bool}

theorem base_setBit : (w.setBit n idx value).base = w.base := by
  funext m
  simp only [base, setBit, Function.update_apply]
  split
  next eq => rw [eq]; rfl
  next => rfl

theorem bitCnt_setBit : (w.setBit n idx value).bitCnt = w.bitCnt := by
  funext m
  simp only [bitCnt, setBit, Function.update_apply]
  split
  next eq =>
    rw [eq]
    exact Bitmap.size_set
  next => rfl

theorem test_setBit (inside : idx < w.bitCnt n) (m : PoolName) :
    ((w.setBit n idx value).pool m).usedMap.test b =
      if m = n ∧ b = idx then value else (w.pool m).usedMap.test b := by
  simp only [setBit, Function.update_apply]
  by_cases hm : m = n
  · subst hm
    simp only [if_true, true_and]
    exact Bitmap.test_set inside
  · simp only [hm, if_false, false_and]

theorem used_setBit_true (inside : idx < w.bitCnt n) (p : Nat) :
    (w.setBit n idx true).Used p ↔ p = w.base n + idx ∨ w.Used p := by
  simp only [Used, Pool.Used, test_setBit inside]
  have bases : ∀ m, ((w.setBit n idx true).pool m).base = (w.pool m).base :=
    fun m => congrFun base_setBit m
  simp only [bases]
  constructor
  · rintro ⟨m, le, set⟩
    split at set
    next new =>
      obtain ⟨rfl, eq⟩ := new
      exact .inl (by simp only [base]; omega)
    next => exact .inr ⟨m, le, set⟩
  · rintro (rfl | ⟨m, le, set⟩)
    · refine ⟨n, by simp only [base]; omega, ?_⟩
      rw [if_pos ⟨rfl, by simp only [base]; omega⟩]
    · refine ⟨m, le, ?_⟩
      split
      · rfl
      · exact set

theorem used_setBit_false (apart : w.Apart) (inside : idx < w.bitCnt n) (p : Nat) :
    (w.setBit n idx false).Used p ↔ w.Used p ∧ ¬ p = w.base n + idx := by
  simp only [Used, Pool.Used, test_setBit inside]
  have bases : ∀ m, ((w.setBit n idx false).pool m).base = (w.pool m).base :=
    fun m => congrFun base_setBit m
  simp only [bases]
  constructor
  · rintro ⟨m, le, set⟩
    split at set
    next => cases set
    next other =>
      refine ⟨⟨m, le, set⟩, ?_⟩
      rintro rfl
      have below := Bitmap.lt_of_test set
      apply other
      have same : m = n := apart m n (w.base n + idx) le
        (by simp only [bitCnt, base] at *; omega) (Nat.le_add_right ..) (by omega)
      subst same
      exact ⟨rfl, by simp only [base]; omega⟩
  · rintro ⟨⟨m, le, set⟩, ne⟩
    refine ⟨m, le, ?_⟩
    rw [if_neg]
    · exact set
    · rintro ⟨rfl, eq⟩
      apply ne
      simp only [base]
      omega

end Bits

variable [DecidableEq ι]

structure Inv (w : PoolWorld ι) : Prop where
  kernel : (Synch.kernel PoolName ι fun _ => 0).Reachable w.kernel
  places : ∀ t, (w.stage t).At (w.kernel.pc t) fun n => w.kernel.inside n t
  fits : ∀ t, (w.stage t).Fits w.bitCnt
  clear : ∀ t n b, (w.stage t).Clear n b → (w.pool n).usedMap.test b = false
  shares : Shares (fun _ => False) w.slot w.Used
  apart : w.Apart
  -- no pool goes on where another ends
  gap : ∀ n m, ¬ (w.base m ≤ w.base n + w.bitCnt n ∧ w.base n + w.bitCnt n < w.base m + w.bitCnt m)
  returned : ∀ t run, w.returned t = some run → w.RunFits run

variable {w w' : PoolWorld ι} {t : ι} {σ : PallocStage}

/-- What a step of thread `t` to the stage `σ` has to show. -/
structure Steps (t : ι) (σ : PallocStage) (w w' : PoolWorld ι) : Prop where
  reachable : (Synch.kernel PoolName ι fun _ => 0).Reachable w'.kernel
  moved : Moved t w.kernel w'.kernel
  stage : w'.stage = Function.update w.stage t σ
  place : σ.At (w'.kernel.pc t) fun n => w'.kernel.inside n t
  base : w'.base = w.base
  bitCnt : w'.bitCnt = w.bitCnt
  fits : σ.Fits w.bitCnt
  clear : ∀ n b, σ.Clear n b → (w'.pool n).usedMap.test b = false
  -- a bit that was clear is set under the lock only
  bits : ∀ n b, (w.pool n).usedMap.test b = false → (w'.pool n).usedMap.test b = false ∨
    w.kernel.inside n t = true
  shares : Shares (fun _ => False) w'.slot w'.Used
  returned : ∀ u run, w'.returned u = some run → w.returned u = some run ∨ w.RunFits run

theorem clear_at {n : PoolName} {b : Nat} {pc : Pc Empty PoolName} {inside : PoolName → Bool}
    (clear : σ.Clear n b) (place : σ.At pc inside) : inside n = true := by
  cases σ with
  | scan => exact (place.2 n).mpr clear.1
  | flip => exact (place.2 n).mpr clear.1
  | outside | start | unlock | leave | check | reset => exact clear.elim

theorem Inv.step (h : Inv w) (s : Steps t σ w w') : Inv w' where
  kernel := s.reachable
  places u := by
    rw [s.stage]
    by_cases hu : u = t
    · subst hu
      rw [Function.update_self]
      exact s.place
    · rw [Function.update_of_ne hu, s.moved.pc u hu]
      simp only [s.moved.inside _ u hu]
      exact h.places u
  fits u := by
    rw [s.stage, s.bitCnt]
    by_cases hu : u = t
    · subst hu
      rw [Function.update_self]
      exact s.fits
    · rw [Function.update_of_ne hu]
      exact h.fits u
  clear u n b here := by
    rw [s.stage] at here
    by_cases hu : u = t
    · subst hu
      rw [Function.update_self] at here
      exact s.clear n b here
    · rw [Function.update_of_ne hu] at here
      obtain still | locked := s.bits n b (h.clear u n b here)
      · exact still
      · -- both threads would have the lock
        have inside : w.kernel.inside n u = true := clear_at here (h.places u)
        exact absurd ((lock_law_of_reachable h.kernel n).exclusive (.inl inside) (.inl locked)) hu
  shares := s.shares
  apart := by
    rw [Apart, s.base, s.bitCnt]
    exact h.apart
  gap := by
    rw [s.base, s.bitCnt]
    exact h.gap
  returned u run some := by
    simp only [RunFits, s.base, s.bitCnt]
    obtain old | new := s.returned u run some
    · exact h.returned u run old
    · exact new

theorem slot_hands (stage : w'.stage = Function.update w.stage t σ) (base : w'.base = w.base)
    (u : ι) (p : Nat) :
    w'.slot (.inr u) p ↔ if u = t then σ.Hands w.base p else w.slot (.inr u) p := by
  simp only [slot, stage, base]
  by_cases hu : u = t
  · subst hu
    rw [Function.update_self, if_pos rfl]
  · rw [Function.update_of_ne hu, if_neg hu]

theorem slot_stage (w' : PoolWorld ι) (stage : w'.stage = Function.update w.stage t σ)
    (owns : w'.owns = w.owns) (base : w'.base = w.base) (i : ι ⊕ ι) (p : Nat) :
    w'.slot i p ↔ if i = .inr t then σ.Hands w.base p else w.slot i p := by
  cases i with
  | inl u => simp only [slot, owns, reduceCtorEq, if_false]
  | inr u =>
      simp only [Sum.inr.injEq]
      exact slot_hands stage base u p

theorem Inv.shares_same (h : Inv w) (stage : w'.stage = Function.update w.stage t σ)
    (owns : w'.owns = w.owns) (pool : w'.pool = w.pool)
    (same : ∀ p, σ.Hands w.base p ↔ (w.stage t).Hands w.base p) :
    Shares (fun _ => False) w'.slot w'.Used := by
  have base : w'.base = w.base := by
    funext n
    simp only [PoolWorld.base, pool]
  apply h.shares.congr
  · intro i p
    rw [slot_stage w' stage owns base]
    split
    next eq =>
      rw [eq, same]
      exact Iff.rfl
    next => rfl
  · intro p
    simp only [Used, pool]

theorem Inv.quiet (h : Inv w) {k : World Empty PoolName ι}
    (reachable : (Synch.kernel PoolName ι fun _ => 0).Reachable k) (moved : Moved t w.kernel k)
    (place : σ.At (k.pc t) fun n => k.inside n t) (fits : σ.Fits w.bitCnt)
    (clear : ∀ n b, σ.Clear n b → (w.pool n).usedMap.test b = false)
    (same : ∀ p, σ.Hands w.base p ↔ (w.stage t).Hands w.base p) :
    Steps t σ w { w.goto t σ with kernel := k } where
  reachable := reachable
  moved := moved
  stage := rfl
  place := place
  base := rfl
  bitCnt := rfl
  fits := fits
  clear := clear
  bits _ _ still := .inl still
  shares := h.shares_same rfl rfl rfl same
  returned _ _ some := .inl some

theorem Inv.goto (h : Inv w) (place : σ.At (w.kernel.pc t) fun n => w.kernel.inside n t)
    (fits : σ.Fits w.bitCnt) (clear : ∀ n b, σ.Clear n b → (w.pool n).usedMap.test b = false)
    (same : ∀ p, σ.Hands w.base p ↔ (w.stage t).Hands w.base p) : Steps t σ w (w.goto t σ) :=
  h.quiet (k := w.kernel) h.kernel (.frame rfl rfl rfl) place fits clear same

section Marks
variable {n : PoolName} {idx b : Nat} {value : Bool}

theorem Inv.bit (h : Inv w) (inside : idx < w.bitCnt n)
    (place : σ.At (w.kernel.pc t) fun n => w.kernel.inside n t) (fits : σ.Fits w.bitCnt)
    (clear : ∀ m b, σ.Clear m b → (w.pool m).usedMap.test b = false ∧ ¬ (m = n ∧ b = idx))
    (locked : value = true → w.kernel.inside n t = true)
    (shares : Shares (fun _ => False) ((w.goto t σ).setBit n idx value).slot
      ((w.goto t σ).setBit n idx value).Used) :
    Steps t σ w ((w.goto t σ).setBit n idx value) where
  reachable := h.kernel
  moved := .frame rfl rfl rfl
  stage := rfl
  place := place
  base := base_setBit (w := w.goto t σ)
  bitCnt := bitCnt_setBit (w := w.goto t σ)
  fits := fits
  clear m b here := by
    obtain ⟨still, other⟩ := clear m b here
    rw [test_setBit (w := w.goto t σ) inside, if_neg other]
    exact still
  bits m b still := by
    rw [test_setBit (w := w.goto t σ) inside]
    split
    next here =>
      rw [here.1]
      cases value with
      | false => exact .inl rfl
      | true => exact .inr (locked rfl)
    next => exact .inl still
  shares := shares
  returned _ _ some := .inl some

end Marks

/-- One more bit of a run is marked: a page comes into the hand of the call. -/
theorem Inv.flip (h : Inv w) {flags : PallocFlags} {cnt idx j : Nat}
    (here : w.stage t = .flip flags cnt idx j) (more : j ≠ cnt) :
    Steps t (.flip flags cnt idx (j + 1)) w
      ((w.goto t (.flip flags cnt idx (j + 1))).setBit flags.pool (idx + j) true) := by
  have place := h.places t
  have fits := h.fits t
  have clear := h.clear t
  rw [here] at place fits clear
  obtain ⟨fits, le⟩ := fits
  have inside : idx + j < w.bitCnt flags.pool := by omega
  apply h.bit inside
  case place => exact place
  case fits => exact ⟨fits, by omega⟩
  case clear =>
    intro m b ⟨hm, lower, upper⟩
    refine ⟨clear m b ⟨hm, by omega, upper⟩, fun eq => ?_⟩
    have := eq.2
    omega
  case locked => exact fun _ => (place.2 flags.pool).mpr rfl
  case shares =>
    apply h.shares.take (i := .inr t) (S := fun p => p = w.base flags.pool + (idx + j))
    · rintro p rfl ⟨m, le', set⟩
      -- the bit was seen clear
      have below := Bitmap.lt_of_test set
      have same : m = flags.pool := by
        apply h.apart m flags.pool (w.base flags.pool + (idx + j)) le' _ (Nat.le_add_right ..)
          (by omega)
        simp only [base, bitCnt] at *
        omega
      subst same
      have free := clear flags.pool (idx + j) ⟨rfl, Nat.le_refl _, by omega⟩
      have at_bit : w.base flags.pool + (idx + j) - (w.pool flags.pool).base = idx + j := by
        simp only [base]
        omega
      rw [at_bit, free] at set
      cases set
    · intro i p
      have slots := slot_stage (w := w) ((w.goto t (.flip flags cnt idx (j + 1))).setBit
        flags.pool (idx + j) true) rfl rfl (base_setBit (w := w.goto t _)) i p
      rw [slots]
      split
      next eq =>
        subst eq
        simp only [slot, here, PallocStage.Hands, true_and]
        omega
      next other => simp only [other, false_and, false_or]
    · exact used_setBit_true (w := w.goto t _) inside

theorem Inv.reset (h : Inv w) {n : PoolName} {cnt idx j : Nat}
    (here : w.stage t = .reset n idx cnt j) (more : j ≠ cnt) :
    Steps t (.reset n idx cnt (j + 1)) w
      ((w.goto t (.reset n idx cnt (j + 1))).setBit n (idx + j) false) := by
  have place := h.places t
  have fits := h.fits t
  rw [here] at place fits
  obtain ⟨fits, le⟩ := fits
  have inside : idx + j < w.bitCnt n := by omega
  apply h.bit inside
  case place => exact place
  case fits => exact ⟨fits, by omega⟩
  case clear => exact fun m b none => none.elim
  case locked => exact fun eq => by cases eq
  case shares =>
    have mine : w.slot (.inr t) (w.base n + (idx + j)) := by
      simp only [slot, here, PallocStage.Hands]
      omega
    apply h.shares.lose (i := .inr t) (S := fun p => p = w.base n + (idx + j))
    · rintro p rfl
      exact mine
    · intro i p
      have slots := slot_stage (w := w) ((w.goto t (.reset n idx cnt (j + 1))).setBit
        n (idx + j) false) rfl rfl (base_setBit (w := w.goto t _)) i p
      rw [slots]
      split
      next eq =>
        subst eq
        simp only [slot, here, PallocStage.Hands]
        omega
      next other =>
        refine ⟨fun held => ⟨held, ?_⟩, And.left⟩
        rintro rfl
        exact other (h.shares.injective i (.inr t) _ held mine)
    · exact used_setBit_false (w := w.goto t _) h.apart inside

/-- Calling `lock_acquire` on the pool's lock. -/
theorem Inv.acquire (h : Inv w) (ready : w.kernel.status t = .ready) (here : w.stage t = .outside)
    (flags : PallocFlags) (cnt : Nat) :
    ∃ w', w.synch t (.acquire flags.pool) (.start flags cnt) = .ok w' ∧
      Steps t (.start flags cnt) w w' := by
  have place := h.places t
  rw [here] at place
  have free := not_held h.kernel place.1 (place.2 flags.pool)
  have called : w.kernel.call t (.acquire flags.pool) =
      .ok (w.kernel.goto t (.acquire flags.pool)) := by
    simp only [World.call, free, if_false]
  have advance : w.kernel.advance t (.acquire flags.pool) =
      .ok (w.kernel.goto t (.acquire flags.pool)) := by
    simp only [World.advance, place.1]
    exact called
  refine ⟨{ w.goto t (.start flags cnt) with kernel := w.kernel.goto t (.acquire flags.pool) },
    by simp only [PoolWorld.synch, called], h.quiet (reachable_advance h.kernel ready advance)
      moved_goto ?_ trivial (fun n b none => none.elim) fun p => ?_⟩
  · exact .inl ⟨.inl World.goto_pc_self, place.2⟩
  · rw [here]
    exact Iff.rfl

section Kernel
variable [Fintype ι]

/-- Calling `lock_release`. -/
theorem Inv.unlock (h : Inv w) (ready : w.kernel.status t = .ready) {flags : PallocFlags}
    {cnt : Nat} {found : Option Nat} (here : w.stage t = .unlock flags cnt found) :
    ∃ w', w.synch t (.release flags.pool) (.leave flags cnt found) = .ok w' ∧
      Steps t (.leave flags cnt found) w w' := by
  have place := h.places t
  have fits := h.fits t
  rw [here] at place fits
  have held : w.kernel.lockHeldByCurrentThread t flags.pool :=
    (lock_law_of_reachable h.kernel flags.pool).holder_inside ((place.2 _).mpr rfl)
  generalize after : (w.kernel.setInside t flags.pool false).goto t (.release flags.pool) = k
  have called : w.kernel.call t (.release flags.pool) = .ok k := by
    simp only [World.call, held, if_true, after]
  have advance : w.kernel.advance t (.release flags.pool) = .ok k := by
    simp only [World.advance, place.1]
    exact called
  refine ⟨{ w.goto t (.leave flags cnt found) with kernel := k },
    by simp only [PoolWorld.synch, called], h.quiet (reachable_advance h.kernel ready advance)
      (moved_advance (law_of_reachable h.kernel) advance) ⟨.inl ?_, fun n => ?_⟩ ?_
      (fun n b none => none.elim) fun p => ?_⟩
  · rw [← after]
    exact World.goto_pc_self
  · rw [← after]
    simp only [World.goto, World.setInside, Function.update_apply]
    by_cases own : n = flags.pool
    · simp [own]
    · rw [if_neg own]
      have not_in := mt (place.2 n).mp own
      simpa using not_in
  · cases found <;> exact fits
  · rw [here]
    cases found <;> exact Iff.rfl

theorem Inv.inner (h : Inv w) (ready : w.kernel.status t = .ready)
    (busy : w.kernel.pc t ≠ .outside) :
    ∃ k, w.kernel.advance t .block = .ok k ∧ Steps t (w.stage t) w { w with kernel := k } := by
  obtain ⟨k, advance⟩ := advance_ok (law_of_reachable h.kernel) busy .block
  have onward := onward_of_advance ready busy (fun k => k.elim) advance
  have place := h.places t
  have place' : (w.stage t).At (k.pc t) fun n => k.inside n t := by
    cases here : w.stage t with
    | start flags cnt =>
        rw [here] at place
        obtain ⟨eq | eq | eq, out⟩ | ⟨eq, _⟩ := place
        · obtain ⟨now, same⟩ := onward.acquiring _ (.inl eq)
          rw [same]
          exact .inl ⟨.inr now, out⟩
        · obtain ⟨now, same⟩ := onward.acquiring _ (.inr eq)
          rw [same]
          exact .inl ⟨.inr now, out⟩
        · obtain ⟨now, same⟩ := onward.entering _ eq
          rw [same]
          refine .inr ⟨now, fun n => ?_⟩
          by_cases own : n = flags.pool
          · simp [own]
          · have same := out n
            simp only at same ⊢
            rw [Function.update_of_ne own, same]
            simp [own]
        · exact absurd eq busy
    | leave flags cnt found =>
        rw [here] at place
        obtain ⟨eq | eq | eq, out⟩ := place
        · obtain ⟨now, same⟩ := onward.releasing _ eq
          rw [same]
          exact ⟨.inr (.inl now), out⟩
        · obtain ⟨now, same⟩ := onward.leaving _ eq
          rw [same]
          exact ⟨.inr (.inr now), out⟩
        · exact absurd eq busy
    | outside | scan | flip | unlock | check | reset =>
        rw [here] at place
        exact absurd place.1 busy
  have same : w.goto t (w.stage t) = w := by
    simp only [PoolWorld.goto, Function.update_eq_self]
  have steps := h.quiet (σ := w.stage t) (reachable_advance h.kernel ready advance)
    (moved_advance (law_of_reachable h.kernel) advance) place' (h.fits t) (h.clear t) fun p => Iff.rfl
  rw [same] at steps
  exact ⟨k, advance, steps⟩

end Kernel

theorem Inv.inPool (h : Inv w) {p : Nat} (owned : w.owns t p = true) :
    ∃ n, w.base n ≤ p ∧ p < w.base n + w.bitCnt n ∧ (w.pool n).Used p := by
  have held : w.slot (.inl t) p := owned
  obtain ⟨n, used⟩ := h.shares.used_of_held held
  exact ⟨n, used.inside.1, used.inside.2, used⟩

theorem Inv.run (h : Inv w) {page cnt : Nat} {n : PoolName}
    (owned : ∀ i, i < cnt → w.owns t (page + i) = true)
    (inside : page < w.base n + w.bitCnt n) : page + cnt ≤ w.base n + w.bitCnt n := by
  by_contra past
  obtain ⟨i, eq⟩ := Nat.exists_eq_add_of_lt inside
  -- the page where the pool ends would be in a pool
  obtain ⟨m, le, lt, _⟩ := h.inPool (owned (i + 1) (by omega))
  have ends : page + (i + 1) = w.base n + w.bitCnt n := by omega
  rw [ends] at le lt
  exact h.gap n m ⟨le, lt⟩

theorem Inv.poolOf (h : Inv w) {page : Nat} {n : PoolName} (first : w.base n ≤ page)
    (inside : page < w.base n + w.bitCnt n) : w.poolOf page = some n := by
  have from_pool : ∀ m, (w.pool m).pageFromPool page = true ↔ m = n := by
    intro m
    simp only [Pool.pageFromPool, decide_eq_true_eq]
    constructor
    · intro ⟨lower, upper⟩
      exact h.apart m n page lower upper first inside
    · rintro rfl
      exact ⟨first, inside⟩
  simp only [PoolWorld.poolOf, from_pool]
  cases n with
  | kernel => rfl
  | user => rfl

theorem Inv.freeCall (h : Inv w) (here : w.stage t = .outside) {page cnt : Nat}
    (owned : ∀ i, i < cnt → w.owns t (page + i) = true) :
    ∃ σ w', w.free t page cnt = .ok w' ∧ Steps t σ w w' := by
  have place := h.places t
  rw [here] at place
  by_cases nothing : page = 0 ∨ cnt = 0
  · refine ⟨.outside, w, by simp only [PoolWorld.free, nothing, if_true], ?_⟩
    have steps := h.goto (σ := .outside) place trivial (fun n b none => none.elim) fun p => by
      rw [here]
    have same : w.goto t .outside = w := by
      simp only [PoolWorld.goto, ← here, Function.update_eq_self]
    rw [same] at steps
    exact steps
  · obtain ⟨n, first, inside, _⟩ := h.inPool (owned 0 (by omega))
    have ends := h.run owned inside
    have idx : page - (w.pool n).base + cnt ≤ w.bitCnt n := by
      simp only [base] at first ends
      omega
    have back : w.base n + (page - (w.pool n).base) = page := Nat.add_sub_cancel' first
    have freed : w.free t page cnt = .ok ((w.goto t (.check n (page - (w.pool n).base) cnt 0)).setOwns
        t fun p => w.owns t p && !(decide (page ≤ p) && decide (p < page + cnt))) := by
      have from_pool := h.poolOf first inside
      simp only [Nat.add_zero] at from_pool
      simp only [PoolWorld.free, nothing, if_false, from_pool]
      exact if_pos idx
    refine ⟨.check n (page - (w.pool n).base) cnt 0, _, freed, ?_⟩
    constructor
    case reachable => exact h.kernel
    case moved => exact .frame rfl rfl rfl
    case stage => rfl
    case place => exact place
    case base => rfl
    case bitCnt => rfl
    case fits => exact ⟨idx, Nat.zero_le _⟩
    case clear => exact fun m b none => none.elim
    case bits => exact fun m b still => .inl still
    case returned => exact fun u run some => .inl some
    case shares =>
      apply h.shares.pass (i := .inl t) (j := .inr t) (S := fun p => page ≤ p ∧ p < page + cnt)
      · intro p ⟨lower, upper⟩
        have := owned (p - page) (by omega)
        rwa [Nat.add_sub_cancel' lower] at this
      · intro i p
        have mine : page ≤ p ∧ p < page + cnt → w.owns t p = true := by
          intro ⟨lower, upper⟩
          have := owned (p - page) (by omega)
          rwa [Nat.add_sub_cancel' lower] at this
        cases i with
        | inl u =>
            simp only [slot, setOwns, reduceCtorEq, false_and, false_or]
            by_cases hu : u = t
            · subst hu
              rw [Function.update_self, Bool.and_eq_true, Bool.not_eq_true', ← Bool.decide_and,
                decide_eq_false_iff_not]
            · simp only [Function.update_of_ne hu]
              refine ⟨fun owns => ⟨owns, fun run => ?_⟩, And.left⟩
              have := h.shares.injective (.inl u) (.inl t) p owns (mine run)
              cases this
              exact hu rfl
        | inr u =>
            refine Iff.trans (slot_hands (w := w) (t := t)
              (σ := .check n (page - (w.pool n).base) cnt 0) (by rfl) (by rfl) u p) ?_
            simp only [Sum.inr.injEq]
            by_cases hu : u = t
            · subst hu
              simp only [slot, here, PallocStage.Hands, back, if_true, true_and, false_and, or_false]
            · simp only [hu, if_false, false_and, false_or]
              refine ⟨fun hands => ⟨hands, fun run => ?_⟩, And.left⟩
              have := h.shares.injective (.inr u) (.inl t) p hands (mine run)
              cases this

theorem Inv.finish (h : Inv w) (outside : w.kernel.pc t = .outside) {flags : PallocFlags}
    {cnt idx : Nat} (here : w.stage t = .leave flags cnt (some idx)) :
    ∃ w', w.finish t flags cnt (some idx) = .ok w' ∧ Steps t .outside w w' := by
  have place := h.places t
  have fits := h.fits t
  rw [here] at place fits
  refine ⟨_, rfl, ?_⟩
  constructor
  case reachable => exact h.kernel
  case moved => exact .frame rfl rfl rfl
  case stage => rfl
  case place => exact ⟨outside, place.2⟩
  case base => rfl
  case bitCnt => rfl
  case fits => trivial
  case clear => exact fun m b none => none.elim
  case bits => exact fun m b still => .inl still
  case returned =>
    intro u run some
    by_cases hu : u = t
    · subst hu
      simp only [setOwns, setReturned, Function.update_self, Option.some.injEq] at some
      subst some
      have inside : idx + cnt ≤ w.bitCnt flags.pool := fits
      refine .inr ⟨Nat.le_add_right .., ?_⟩
      change w.base flags.pool + idx + cnt ≤ w.base flags.pool + w.bitCnt flags.pool
      omega
    · simp only [setOwns, setReturned, Function.update_of_ne hu] at some
      exact .inl some
  case shares =>
    have hands : ∀ p, w.slot (.inr t) p ↔ w.base flags.pool + idx ≤ p ∧
        p < w.base flags.pool + idx + cnt := by
      intro p
      simp only [slot, here, PallocStage.Hands]
    apply h.shares.pass (i := .inr t) (j := .inl t) (S := fun p => w.slot (.inr t) p)
    · exact fun p hands => hands
    · intro i p
      simp only [hands]
      cases i with
      | inl u =>
          simp only [slot, setOwns, setReturned, Sum.inl.injEq]
          by_cases hu : u = t
          · subst hu
            simp only [Function.update_self, Bool.or_eq_true, Bool.and_eq_true, decide_eq_true_eq,
              true_and]
            simp only [base]
            tauto
          · simp only [Function.update_of_ne hu, hu, false_and, false_or]
            refine ⟨fun owns => ⟨owns, fun run => ?_⟩, And.left⟩
            have := h.shares.injective (.inl u) (.inr t) p owns ((hands p).mpr run)
            cases this
      | inr u =>
          refine Iff.trans (slot_hands (w := w) (t := t) (σ := .outside) (by rfl) (by rfl) u p) ?_
          simp only [reduceCtorEq, false_and, false_or]
          by_cases hu : u = t
          · subst hu
            simp only [if_true, hands p, PallocStage.Hands, false_iff]
            tauto
          · simp only [hu, if_false]
            refine ⟨fun held => ⟨held, fun run => ?_⟩, And.left⟩
            have := h.shares.injective (.inr u) (.inr t) p held ((hands p).mpr run)
            cases this
            exact hu rfl

theorem Inv.hand (h : Inv w) {u : ι} {page : Nat}
    (step : w.next (.hand t u page) = .ok w') : Steps t (w.stage t) w w' := by
  simp only [PoolWorld.next] at step
  split at step <;> cases step
  next owned =>
    have stays : w.stage = Function.update w.stage t (w.stage t) := (Function.update_eq_self t _).symm
    constructor
    case reachable => exact h.kernel
    case moved => exact .frame rfl rfl rfl
    case stage => exact stays
    case place => exact h.places t
    case base => rfl
    case bitCnt => rfl
    case fits => exact h.fits t
    case clear => exact h.clear t
    case bits => exact fun m b still => .inl still
    case returned => exact fun u run some => .inl some
    case shares =>
      apply h.shares.pass (i := .inl t) (j := .inl u) (S := fun p => p = page)
      · rintro p rfl
        exact owned
      · intro i p
        have mine : ∀ i, w.slot i page → i = .inl t := fun i held =>
          h.shares.injective i (.inl t) page held owned
        cases i with
        | inl v =>
            have apart := mine (.inl v)
            simp only [slot, Sum.inl.injEq] at apart
            simp only [slot, setOwns, Function.update_apply, Sum.inl.injEq]
            grind
        | inr v =>
            have apart := mine (.inr v)
            simp only [slot, reduceCtorEq] at apart
            simp only [slot, setOwns, reduceCtorEq, false_and, false_or]
            refine ⟨fun hands => ⟨hands, ?_⟩, And.left⟩
            rintro rfl
            exact apart hands

/-- A step is taken, or there is none, or the kernel panics for want of pages. -/
inductive Ended (w : PoolWorld ι) : Except PallocStop (PoolWorld ι) → Prop where
  | taken (t : ι) (σ : PallocStage) (w' : PoolWorld ι) : Steps t σ w w' → Ended w (.ok w')
  | disabled : Ended w (.error .disabled)
  | outOfPages : Ended w (.error .outOfPages)

section Kernel
variable [Fintype ι]

omit [Fintype ι] in
theorem Inv.call (h : Inv w) (ready : w.kernel.status t = .ready) (here : w.stage t = .outside)
    (call : PallocCall) : Ended w (w.call t call) := by
  have place := h.places t
  rw [here] at place
  cases call with
  | get flags cnt =>
      simp only [PoolWorld.call]
      split
      · have steps := h.goto (t := t) (σ := .outside) place trivial (fun n b none => none.elim)
          fun p => by rw [here]
        refine .taken t .outside _ { steps with
          stage := ?_, clear := fun n b none => none.elim, bits := fun n b still => .inl still
          shares := h.shares, returned := fun u run some => ?_ }
        · simp only [setReturned, ← here, Function.update_eq_self]
        · by_cases hu : u = t
          · subst hu
            simp only [setReturned, Function.update_self, reduceCtorEq] at some
          · simp only [setReturned, Function.update_of_ne hu] at some
            exact .inl some
      · obtain ⟨w', done, steps⟩ := h.acquire ready here flags cnt
        rw [done]
        exact .taken t _ w' steps
  | free page cnt =>
      simp only [PoolWorld.call]
      split
      next owned =>
        obtain ⟨σ, w', done, steps⟩ := h.freeCall here owned
        rw [done]
        exact .taken t σ w' steps
      next => exact .disabled

theorem Inv.advance (h : Inv w) (ready : w.kernel.status t = .ready)
    (outside : w.kernel.pc t = .outside) (call : PallocCall) : Ended w (w.advance t call) := by
  have place := h.places t
  have fits := h.fits t
  have clear := h.clear t
  simp only [PoolWorld.advance]
  cases here : w.stage t with
  | outside => exact h.call ready here call
  | start flags cnt =>
      rw [here] at place
      have locked : w.kernel.pc t = .outside ∧
          ∀ n, w.kernel.inside n t = true ↔ n = flags.pool := by
        obtain ⟨eq | eq | eq, _⟩ | locked := place
        · simp [eq] at outside
        · simp [eq] at outside
        · simp [eq] at outside
        · exact locked
      simp only
      split
      next le =>
        refine .taken t _ _ (h.goto locked ⟨by omega, Nat.zero_le _⟩ ?_ fun p => by rw [here]; rfl)
        intro n b ⟨_, lower, upper⟩
        omega
      next =>
        exact .taken t _ _ (h.goto locked trivial (fun n b none => none.elim)
          fun p => by rw [here]; rfl)
  | scan flags cnt i j =>
      rw [here] at place fits clear
      obtain ⟨inside, le⟩ := fits
      simp only
      split
      next whole =>
        subst whole
        refine .taken t _ _ (h.goto place ⟨inside, Nat.zero_le _⟩ (fun n b run => ?_) fun p => ?_)
        · exact clear n b ⟨run.1, by have := run.2; omega, run.2.2⟩
        · rw [here]
          simp only [PallocStage.Hands, iff_false]
          omega
      next more =>
        split
        next =>
          split
          next further =>
            refine .taken t _ _ (h.goto place ⟨by omega, Nat.zero_le _⟩ ?_ fun p => by rw [here]; rfl)
            intro n b ⟨_, lower, upper⟩
            omega
          next =>
            exact .taken t _ _ (h.goto place trivial (fun n b none => none.elim)
              fun p => by rw [here]; rfl)
        next free =>
          refine .taken t _ _ (h.goto place ⟨inside, by omega⟩ (fun n b run => ?_)
            fun p => by rw [here]; rfl)
          obtain ⟨rfl, lower, upper⟩ := run
          by_cases last : b = i + j
          · subst last
            simpa using free
          · exact clear _ b ⟨rfl, lower, by omega⟩
  | flip flags cnt idx j =>
      rw [here] at place fits
      simp only
      split
      next whole =>
        subst whole
        refine .taken t _ _ (h.goto place fits.1 (fun n b none => none.elim) fun p => ?_)
        rw [here]
        exact Iff.rfl
      next more => exact .taken t _ _ (h.flip here more)
  | unlock flags cnt found =>
      obtain ⟨w', done, steps⟩ := h.unlock ready here
      simp only [done]
      exact .taken t _ w' steps
  | leave flags cnt found =>
      rw [here] at place
      cases found with
      | some idx =>
          obtain ⟨w', done, steps⟩ := h.finish outside here
          simp only [done]
          exact .taken t _ w' steps
      | none =>
          simp only [PoolWorld.finish]
          split
          · exact .outOfPages
          · have steps := h.goto (t := t) (σ := .outside) ⟨outside, place.2⟩ trivial
              (fun n b none => none.elim) fun p => by rw [here]; rfl
            refine .taken t .outside _ { steps with
              stage := rfl, bits := fun n b still => .inl still, clear := fun n b none => none.elim
              shares := steps.shares, returned := fun u run some => ?_ }
            by_cases hu : u = t
            · subst hu
              simp only [setReturned, Function.update_self, reduceCtorEq] at some
            · simp only [setReturned, Function.update_of_ne hu] at some
              exact .inl some
  | check n idx cnt j =>
      rw [here] at place fits
      obtain ⟨inside, le⟩ := fits
      simp only
      split
      next whole =>
        refine .taken t _ _ (h.goto place ⟨inside, Nat.zero_le _⟩ (fun n b none => none.elim)
          fun p => ?_)
        rw [here]
        exact Iff.rfl
      next more =>
        -- the pages in hand are marked
        have marked : (w.pool n).usedMap.test (idx + j) = true := by
          have held : w.slot (.inr t) (w.base n + (idx + j)) := by
            simp only [slot, here, PallocStage.Hands]
            omega
          obtain ⟨m, used⟩ := h.shares.used_of_held held
          have same : m = n := h.apart m n _ used.inside.1 used.inside.2 (Nat.le_add_right ..)
            (by omega)
          subst same
          have at_bit : w.base m + (idx + j) - (w.pool m).base = idx + j := by
            simp only [base]
            omega
          rw [← at_bit]
          exact used.2
        simp only [marked, if_true]
        refine .taken t _ _ (h.goto place ⟨inside, by omega⟩ (fun n b none => none.elim)
          fun p => ?_)
        rw [here]
        exact Iff.rfl
  | reset n idx cnt j =>
      rw [here] at place fits
      simp only
      split
      next whole =>
        subst whole
        refine .taken t _ _ (h.goto place trivial (fun n b none => none.elim) fun p => ?_)
        rw [here]
        simp only [PallocStage.Hands, false_iff]
        omega
      next more => exact .taken t _ _ (h.reset here more)

theorem Inv.ended (h : Inv w) (a : PallocLabel ι) : Ended w (w.next a) := by
  cases a with
  | thread t call =>
      simp only [PoolWorld.next]
      split
      · exact .disabled
      next awake =>
        have ready := World.status_ready awake
        split
        next outside => exact h.advance ready outside call
        next busy =>
          obtain ⟨k, advance, steps⟩ := h.inner ready busy
          simp only [advance]
          exact .taken t _ _ steps
  | hand t u page =>
      cases step : w.next (.hand t u page) with
      | ok w' => exact .taken t _ w' (h.hand step)
      | error stop =>
          simp only [PoolWorld.next] at step
          split at step <;> cases step
          exact .disabled

end Kernel
end PoolWorld

section Init

theorem initPool_spec {base cnt : Nat} {pool : Pool} (h : initPool base cnt = some pool) :
    base < pool.base ∧ pool.base + pool.usedMap.size = base + cnt ∧
      ∀ b, pool.usedMap.test b = false := by
  simp only [initPool] at h
  have pos := bitmapPages_pos cnt
  split at h <;> cases h
  next enough =>
    refine ⟨Nat.lt_add_of_pos_right pos, ?_, fun b => ?_⟩
    · simp only [Bitmap.size, List.length_replicate]
      omega
    · simp only [Bitmap.test, List.getD_eq_getElem?_getD, List.getElem?_replicate]
      split <;> rfl

/-- The user pool begins past the end of the kernel pool, whose bitmap is between
them, and no page is used. -/
theorem pallocInit_spec {ram : Ram} {limit : Nat} {pool : PoolName → Pool}
    (h : pallocInit ram limit = some pool) :
    (pool .kernel).base + (pool .kernel).usedMap.size < (pool .user).base ∧
      ∀ n b, (pool n).usedMap.test b = false := by
  simp only [pallocInit, Option.bind_eq_bind, Option.bind_eq_some_iff, Option.some.injEq] at h
  obtain ⟨kernelPool, kernel_eq, userPool, user_eq, rfl⟩ := h
  have kernel := initPool_spec kernel_eq
  have user := initPool_spec user_eq
  refine ⟨?_, fun n => ?_⟩
  · have after : ∀ start pages, pgNo (start + pages * pgsize) = pgNo start + pages :=
      fun start pages => Nat.add_mul_div_right start pages (by decide)
    rw [after, ← kernel.2.1] at user
    exact user.1
  · cases n with
    | kernel => exact kernel.2.2
    | user => exact user.2.2

end Init

variable [DecidableEq ι]

namespace PoolWorld
variable {w : PoolWorld ι} {ram : Ram} {limit : Nat}

theorem inv_start (h : Start ram limit w) : w.Inv := by
  obtain ⟨order, clear⟩ := pallocInit_spec h.pool
  constructor
  case kernel => exact .init h.kernel
  case places =>
    intro t
    rw [h.stage, h.kernel.pc, h.kernel.inside]
    exact ⟨rfl, fun _ => rfl⟩
  case fits =>
    intro t
    rw [h.stage]
    trivial
  case clear =>
    intro t n b here
    rw [h.stage] at here
    exact here.elim
  case shares =>
    have none : ∀ p, ¬ w.Used p := by
      intro p ⟨n, used⟩
      have free := clear n (p - (w.pool n).base)
      rw [used.2] at free
      cases free
    have empty : ∀ i p, ¬ w.slot i p := by
      intro i p
      cases i with
      | inl t => simp [slot, h.owns]
      | inr t =>
          simp only [slot, h.stage]
          exact id
    refine ⟨fun p => ?_, fun i p held => absurd held (empty i p), fun i j p held => absurd held (empty i p)⟩
    simp [none, empty]
  case apart =>
    intro n m p
    cases n <;> cases m <;> simp only [base, bitCnt, reduceCtorEq, imp_true_iff] <;> omega
  case gap =>
    intro n m
    cases n <;> cases m <;> simp only [base, bitCnt] <;> omega
  case returned =>
    intro t run some
    rw [h.returned] at some
    cases some

end PoolWorld

/-- What the allocator promises. -/
structure PallocLaw (w : PoolWorld ι) : Prop where
  exclusive : ∀ t u p, w.owns t p = true → w.owns u p = true → t = u
  -- used exactly while owned, or in the hand of a call that gets or frees it
  used : ∀ p, w.Used p ↔ (∃ t, w.owns t p = true) ∨ ∃ t, (w.stage t).Hands w.base p
  inHand : ∀ t u p, (w.stage t).Hands w.base p → w.owns u p = false ∧
    ((w.stage u).Hands w.base p → t = u)
  -- a run handed out lies in the pool its flags name
  returned : ∀ t run, w.returned t = some run → w.RunFits run
  apart : w.Apart
  asserts : ∀ a stop, w.next a = .error stop → stop = .disabled ∨ stop = .outOfPages

theorem inv_of_reachable [Fintype ι] {ram : Ram} {limit : Nat} {w : PoolWorld ι}
    (h : (palloc ι ram limit).Reachable w) : w.Inv := by
  apply h.invariant (I := PoolWorld.Inv)
  · exact fun w start => PoolWorld.inv_start start
  · intro w a w' inv step
    have taken := toOption_some.mp step
    have ended := inv.ended a
    rw [taken] at ended
    cases ended with
    | taken t σ w' steps => exact inv.step steps

theorem pallocLaw_of_reachable [Fintype ι] {ram : Ram} {limit : Nat} {w : PoolWorld ι}
    (h : (palloc ι ram limit).Reachable w) : PallocLaw w := by
  have inv := inv_of_reachable h
  constructor
  case exclusive =>
    intro t u p ht hu
    have same := inv.shares.injective (.inl t) (.inl u) p ht hu
    cases same
    rfl
  case used =>
    intro p
    rw [inv.shares.used_iff p]
    simp only [Sum.exists, false_or]
    exact Iff.rfl
  case inHand =>
    intro t u p hands
    constructor
    · cases owned : w.owns u p with
      | false => rfl
      | true =>
          have same := inv.shares.injective (.inr t) (.inl u) p hands owned
          cases same
    · intro hands'
      have same := inv.shares.injective (.inr t) (.inr u) p hands hands'
      cases same
      rfl
  case returned => exact inv.returned
  case apart => exact inv.apart
  case asserts =>
    intro a stop failed
    have ended := inv.ended a
    rw [failed] at ended
    cases ended with
    | disabled => exact .inl rfl
    | outOfPages => exact .inr rfl

/-- 300 pages of memory and two threads. -/
def samplePools : PoolWorld (Fin 2) where
  kernel :=
    { sema := fun s => ⟨initialValue (fun _ => 0) s, []⟩
      holder := fun _ => none
      status := fun _ => .ready
      pc := fun _ => .outside
      ups := fun _ => 0
      downs := fun _ => 0
      inside := fun _ _ => false }
  pool := (pallocInit ⟨300, by decide, by decide⟩ 100).get (by decide)
  stage := fun _ => .outside
  owns := fun _ _ => false
  returned := fun _ => none

/-- Thread 0 gets a user page and begins to free it while thread 1 scans for one. -/
def freeWhileScanning : List (PallocLabel (Fin 2)) :=
  let get t := PallocLabel.thread t (.get ⟨false, true⟩ 1)
  List.replicate 12 (get 0) ++ List.replicate 4 (get 1) ++ [.thread 0 (.free 786711 1), get 1]

theorem pallocLaw_of_freeWhileScanning : ∃ w : PoolWorld (Fin 2),
    (w.returned 0 = some ⟨⟨false, true⟩, 1, 786711⟩ ∧ w.stage 0 = .check .user 0 1 0 ∧
      w.stage 1 = .scan ⟨false, true⟩ 1 1 0) ∧ PallocLaw w := by
  obtain ⟨w, reachable, holds⟩ := System.exists_reachable
    (PoolWorld.Start ⟨300, by decide, by decide⟩ 100)
    (fun (w : PoolWorld (Fin 2)) a => (w.next a).toOption)
    (fun w => decide (w.returned 0 = some ⟨⟨false, true⟩, 1, 786711⟩ ∧
      w.stage 0 = .check .user 0 1 0 ∧ w.stage 1 = .scan ⟨false, true⟩ 1 1 0))
    (s := samplePools) ⟨⟨rfl, rfl, rfl, rfl, rfl, rfl⟩, (by simp [samplePools]), rfl, rfl, rfl⟩
    freeWhileScanning (by decide)
  exact ⟨w, of_decide_eq_true holds, pallocLaw_of_reachable reachable⟩

end CS162.Pintos
