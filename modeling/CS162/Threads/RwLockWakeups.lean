import CS162.Threads.RwLockInvariant

/-!
No lost wakeup: while nobody is active and somebody waits, a waiter has been
signalled or the thread in the monitor is about to signal or to look. With the
monitor free only the first is left.
-/

namespace CS162.Threads
open CS162.Library
universe u
variable {ι : Type u}

/-- The thread in the monitor is at a place from which it signals, or is a
writer that looks whether it may go on. -/
def Pending (pc : ι → Pc) (place : Pc) : Prop := ∃ k, pc k = place ∨ pc k = .test false

structure Wakes (w : World ι) : Prop where
  writers : w.lock.AR = 0 → w.lock.AW = 0 → 0 < w.lock.WW →
    (∃ k, w.signalled false k) ∨ Pending w.pc .signal
  readers : w.lock.AW = 0 → w.lock.WW = 0 →
    (w.lock.read = [] ∧ ∀ k, w.pc k ≠ .wait true) ∨ Pending w.pc .broadcast

/-- The places on which the promise to waiting writers rests. -/
def Pc.wakesWriters : Pc → Bool
  | .asleep false | .relock false | .woken false | .signal | .test false => true
  | _ => false

theorem wakes_init : Wakes (⟨rwLockInit, fun _ => 0, fun _ => .idle⟩ : World ι) where
  writers _ _ h := absurd h (by simp [rwLockInit])
  readers _ _ := .inl ⟨rfl, fun k h => by cases h⟩

theorem registered_of_signalled {w : World ι} {r : Bool} {i : ι} (h : w.signalled r i) :
    (w.pc i).registered r = true := by
  obtain ⟨at_i, _⟩ | at_i | at_i := h <;> simp [at_i, Pc.registered]

section Monitor
variable [Fintype ι] {w : World ι} {i k : ι} {r : Bool}

theorem Consistent.unique (c : Consistent w) (hi : (w.pc i).inside = true)
    (hk : (w.pc k).inside = true) : k = i := by
  have := (c.holder i).mpr hi
  rw [(c.holder k).mpr hk] at this
  exact Option.some.inj this

theorem Consistent.counters_nonneg (c : Consistent w) :
    0 ≤ w.lock.AR ∧ 0 ≤ w.lock.AW ∧ 0 ≤ w.lock.WR ∧ 0 ≤ w.lock.WW := by
  have := c.active true
  have := c.active false
  have := c.waiting true
  have := c.waiting false
  simp only [RwLock.active, RwLock.waiting, if_true, Bool.false_eq_true, if_false] at *
  omega

/-- A registered waiter that is in no list has been signalled, unless it is the
thread in the monitor. -/
theorem Consistent.signalled_of_registered (c : Consistent w) (hk : (w.pc k).registered r = true)
    (out : k ∉ w.lock.waiters r) (outside : (w.pc k).inside = false) : w.signalled r k := by
  rw [c.queued] at out
  cases at_k : w.pc k with
  | asleep r' =>
      obtain rfl : r' = r := by simpa [at_k, Pc.registered] using hk
      refine .inl ⟨at_k, Nat.pos_of_ne_zero fun zero => out ⟨.inr at_k, zero⟩⟩
  | relock r' =>
      obtain rfl : r' = r := by simpa [at_k, Pc.registered] using hk
      exact .inr (.inl at_k)
  | _ => simp [at_k, Pc.registered, Pc.inside] at hk outside

theorem not_pending (c : Consistent w) (free : w.lock.holder = none) {place : Pc}
    (inside : place.inside = true) : ¬ Pending w.pc place := by
  rintro ⟨k, at_k⟩
  have : (w.pc k).inside = true := by
    obtain at_k | at_k := at_k
    · rwa [at_k]
    · rw [at_k]
      rfl
  have := (c.holder k).mpr this
  rw [free] at this
  cases this

/-- Readers that wait are all in the list of the condition or have been
signalled; if none is registered the list is empty. -/
theorem Consistent.none_waits (c : Consistent w) (zero : w.lock.WR = 0) :
    w.lock.read = [] ∧ ∀ k, w.pc k ≠ .wait true := by
  have counted := c.waiting true
  simp only [RwLock.waiting, if_true, zero] at counted
  have none (k : ι) : (w.pc k).registered true = false :=
    count_eq_zero (Int.ofNat_eq_zero.mp counted.symm) k
  refine ⟨List.eq_nil_iff_forall_not_mem.mpr fun k hk => ?_, fun k at_k => ?_⟩
  · have queued := (c.queued true k).mp hk
    have := none k
    obtain ⟨at_k | at_k, _⟩ := queued <;> simp [at_k, Pc.registered] at this
  · have := none k
    simp [at_k, Pc.registered] at this

theorem wakes_of_wakes (c : Consistent w) (h : Wakes w) (noReader : w.lock.AR = 0)
    (noWriter : w.lock.AW = 0) (free : w.lock.holder = none) (some : 0 < w.lock.WR + w.lock.WW) :
    ∃ i r, (w.pc i).registered r = true ∧ w.signalled r i := by
  by_cases writers : 0 < w.lock.WW
  · obtain ⟨k, signalled⟩ | pending := h.writers noReader noWriter writers
    · exact ⟨k, false, registered_of_signalled signalled, signalled⟩
    · exact absurd pending (not_pending c free rfl)
  · -- No writer waits, so all the readers that do have been woken.
    have nonneg := c.counters_nonneg
    obtain ⟨empty, _⟩ := (h.readers noWriter (by omega)).resolve_right (not_pending c free rfl)
    have counted := c.waiting true
    simp only [RwLock.waiting, if_true] at counted
    obtain ⟨k, hk⟩ := exists_of_count (Pc.registered true) w.pc (by omega)
    have outside : (w.pc k).inside = false := by
      by_contra inside
      have := (c.holder k).mpr (by simpa using inside)
      rw [free] at this
      cases this
    exact ⟨k, true, hk, c.signalled_of_registered hk (by simp [RwLock.waiters, empty]) outside⟩

end Monitor

section Steps
variable [DecidableEq ι] {w w' : World ι} {i k : ι} {p q : Pc} {l : RwLock ι} {s : ι → Nat} {r : Bool}

theorem Move.sema_le (m : Move w i p q l s) (hk : k ≠ i) : w.sema k ≤ s k := by
  cases m with
  | enqueue r' => exact Nat.le_of_eq (Function.update_of_ne hk ..).symm
  | wake r' up => exact Nat.le_of_eq (Function.update_of_ne hk ..).symm
  | wakeFirst r' j rest first =>
      by_cases hj : k = j
      · subst hj
        simp
      · exact Nat.le_of_eq (Function.update_of_ne hj ..).symm
  | _ => exact Nat.le_refl _

theorem pending_move {place : Pc} (h : Pending w.pc place) (ne : w.pc i ≠ place)
    (ne' : w.pc i ≠ .test false) : Pending (Function.update w.pc i q) place := by
  obtain ⟨k, hk⟩ := h
  have other : k ≠ i := by
    rintro rfl
    exact hk.elim ne ne'
  exact ⟨k, by rwa [Function.update_of_ne other]⟩

theorem signalled_move (m : Move w i (w.pc i) q l s) (h : w.signalled r k) (hk : k ≠ i) :
    World.signalled ⟨l, s, Function.update w.pc i q⟩ r k := by
  simp only [World.signalled, Function.update_of_ne hk]
  exact h.imp_left fun asleep => ⟨asleep.1, Nat.lt_of_lt_of_le asleep.2 (m.sema_le hk)⟩

theorem Wakes.writers_quiet (h : Wakes w) (m : Move w i (w.pc i) q l s)
    (still : (w.pc i).wakesWriters = false) (AR : l.AR = w.lock.AR) (AW : l.AW = w.lock.AW)
    (WW : l.WW = w.lock.WW) (noReader : l.AR = 0) (noWriter : l.AW = 0) (waiting : 0 < l.WW) :
    (∃ k, World.signalled ⟨l, s, Function.update w.pc i q⟩ false k) ∨
      Pending (Function.update w.pc i q) .signal := by
  obtain ⟨k, signalled⟩ | pending := h.writers (AR ▸ noReader) (AW ▸ noWriter) (WW ▸ waiting)
  · have other : k ≠ i := by
      rintro rfl
      obtain ⟨at_k, _⟩ | at_k | at_k := signalled <;> simp [at_k, Pc.wakesWriters] at still
    exact .inl ⟨k, signalled_move m signalled other⟩
  · refine .inr (pending_move pending ?_ ?_) <;>
    · intro at_i
      simp [at_i, Pc.wakesWriters] at still

theorem Wakes.readers_quiet (h : Wakes w) (still : w.pc i ≠ .broadcast ∧ w.pc i ≠ .test false)
    (place : q ≠ .wait true) (read : l.read = w.lock.read) (AW : l.AW = w.lock.AW)
    (WW : l.WW = w.lock.WW) (noWriter : l.AW = 0) (noneWaits : l.WW = 0) :
    (l.read = [] ∧ ∀ k, Function.update w.pc i q k ≠ .wait true) ∨
      Pending (Function.update w.pc i q) .broadcast := by
  obtain ⟨empty, nobody⟩ | pending := h.readers (AW ▸ noWriter) (WW ▸ noneWaits)
  · refine .inl ⟨read.trans empty, fun k => ?_⟩
    by_cases hk : k = i
    · rwa [hk, Function.update_self]
    · rw [Function.update_of_ne hk]
      exact nobody k
  · exact .inr (pending_move pending still.1 still.2)

variable [Fintype ι]

theorem Wakes.writers_move (h : Wakes w) (c : Consistent w) (m : Move w i (w.pc i) q l s)
    (noReader : l.AR = 0) (noWriter : l.AW = 0) (waiting : 0 < l.WW) :
    (∃ k, World.signalled ⟨l, s, Function.update w.pc i q⟩ false k) ∨
      Pending (Function.update w.pc i q) .signal := by
  have nonneg := c.counters_nonneg
  have quiet := h.writers_quiet m
  have here : Function.update w.pc i q i = q := Function.update_self i q w.pc
  generalize at_i : w.pc i = p at m quiet
  cases m with
  | block r blocked =>
      cases r with
      | true => exact quiet rfl rfl rfl rfl noReader noWriter waiting
      | false =>
          simp only [RwLock.blocked, Bool.false_eq_true, if_false, decide_eq_true_eq] at blocked
          simp only [RwLock.register, Bool.false_eq_true, if_false] at noReader noWriter
          omega
  | activate r passes =>
      cases r <;> simp only [RwLock.activate, Bool.false_eq_true, if_false, if_true] at noReader noWriter
        <;> omega
  | wake r up =>
      cases r with
      | true => exact quiet rfl rfl rfl rfl noReader noWriter waiting
      | false => exact .inl ⟨i, .inr (.inl here)⟩
  | relock r free =>
      cases r with
      | true => exact quiet rfl rfl rfl rfl noReader noWriter waiting
      | false => exact .inl ⟨i, .inr (.inr here)⟩
  | deregister r =>
      cases r with
      | true => exact quiet rfl rfl rfl rfl noReader noWriter waiting
      | false => exact .inr ⟨i, .inr here⟩
  | retract r =>
      -- The last to leave signals a waiting writer.
      refine .inr ⟨i, .inl (here.trans ?_)⟩
      cases r <;> simp [RwLock.wakes, noReader, waiting]
  | noWaiter r none =>
      cases r with
      | true => exact quiet rfl rfl rfl rfl noReader noWriter waiting
      | false =>
          have counted := c.waiting false
          simp only [RwLock.waiting, Bool.false_eq_true, if_false] at counted
          obtain ⟨k, hk⟩ := exists_of_count (Pc.registered false) w.pc (by omega)
          have other : k ≠ i := by
            rintro rfl
            simp [at_i, Pc.signals, Pc.registered] at hk
          have outside : (w.pc k).inside = false := by
            by_contra inside
            exact other (c.unique (by rw [at_i]; rfl) (by simpa using inside))
          have signalled := c.signalled_of_registered hk (by simp [none]) outside
          exact .inl ⟨k, by simpa only [World.signalled, Function.update_of_ne other] using signalled⟩
  | wakeFirst r j rest first =>
      cases r with
      | true => exact quiet rfl rfl rfl rfl noReader noWriter waiting
      | false =>
          have in_j : QueuedAt false (w.pc j) (w.sema j) := by
            rw [← c.queued, first]
            exact List.mem_cons_self
          have other : j ≠ i := by
            rintro rfl
            rw [at_i] at in_j
            exact queuedAt_signals in_j
          have asleep : w.pc j = .asleep false := by
            refine in_j.1.resolve_left fun at_j => other ?_
            exact c.unique (by rw [at_i]; rfl) (by rw [at_j]; rfl)
          exact .inl ⟨j, .inl ⟨(Function.update_of_ne other ..).trans asleep, by simp⟩⟩
  | enqueue r => cases r <;> exact quiet rfl rfl rfl rfl noReader noWriter waiting
  | _ => exact quiet rfl rfl rfl rfl noReader noWriter waiting

theorem Wakes.readers_move (h : Wakes w) (c : Consistent w) (m : Move w i (w.pc i) q l s)
    (noWriter : l.AW = 0) (noneWaits : l.WW = 0) :
    (l.read = [] ∧ ∀ k, Function.update w.pc i q k ≠ .wait true) ∨
      Pending (Function.update w.pc i q) .broadcast := by
  have nonneg := c.counters_nonneg
  have quiet := h.readers_quiet (i := i) (q := q) (l := l)
  have here : Function.update w.pc i q i = q := Function.update_self i q w.pc
  have away {k : ι} (hk : k ≠ i) : Function.update w.pc i q k = w.pc k := Function.update_of_ne hk ..
  generalize at_i : w.pc i = p at m quiet
  cases m with
  | block r blocked =>
      cases r <;> simp only [RwLock.blocked, RwLock.register, Bool.false_eq_true, if_false, if_true,
        decide_eq_true_eq] at blocked noWriter noneWaits <;> omega
  | activate r passes =>
      cases r with
      | true => exact quiet (by simp) (by simp) rfl rfl rfl noWriter noneWaits
      | false =>
          simp only [RwLock.activate, Bool.false_eq_true, if_false] at noWriter
          omega
  | enqueue r =>
      cases r with
      | false => exact quiet (by simp) (by simp) rfl rfl rfl noWriter noneWaits
      | true =>
          -- A reader that waits has seen a writer, who is still there.
          obtain ⟨_, nobody⟩ | ⟨k, at_k⟩ := h.readers noWriter noneWaits
          · exact absurd at_i (nobody i)
          · have inside : (w.pc k).inside = true := by
              obtain at_k | at_k := at_k <;> rw [at_k] <;> rfl
            rw [c.unique (by rw [at_i]; rfl) inside, at_i] at at_k
            simp at at_k
  | deregister r =>
      cases r with
      | true => exact quiet (by simp) (by simp) rfl rfl rfl noWriter noneWaits
      | false => exact .inr ⟨i, .inr here⟩
  | retract r =>
      cases r with
      | true =>
          refine quiet (by simp) ?_ rfl rfl rfl noWriter noneWaits
          obtain h | h | h := RwLock.wakes_eq (w.lock.retract true) true <;> simp [h]
      | false =>
          -- The last writer wakes all readers, if there are any.
          have noneWaits' : ¬ 0 < w.lock.WW := by
            simp only [RwLock.retract, Bool.false_eq_true, if_false] at noneWaits
            omega
          by_cases some : 0 < w.lock.WR
          · refine .inr ⟨i, .inl (here.trans ?_)⟩
            simp [RwLock.wakes, RwLock.retract, some, noneWaits']
          · obtain ⟨empty, nobody⟩ := c.none_waits (by omega)
            refine .inl ⟨empty, fun k => ?_⟩
            by_cases hk : k = i
            · rw [hk, here]
              obtain h | h | h := RwLock.wakes_eq (w.lock.retract false) false <;> simp [h]
            · rw [away hk]
              exact nobody k
  | noWaiter r none =>
      cases r with
      | false => exact quiet (by simp [Pc.signals]) (by simp) rfl rfl rfl noWriter noneWaits
      | true =>
          refine .inl ⟨none, fun k => ?_⟩
          by_cases hk : k = i
          · rw [hk, here]
            simp
          · rw [away hk]
            exact fun at_k => hk (c.unique (by rw [at_i]; rfl) (by rw [at_k]; rfl))
  | wakeFirst r j rest first =>
      cases r with
      | false => exact quiet (by simp [Pc.signals]) (by simp) rfl rfl rfl noWriter noneWaits
      | true => exact .inr ⟨i, .inl here⟩
  | _ => exact quiet (by simp) (by simp) rfl rfl rfl noWriter noneWaits

theorem Wakes.move (h : Wakes w) (c : Consistent w) (m : Move w i (w.pc i) q l s) :
    Wakes ⟨l, s, Function.update w.pc i q⟩ where
  writers := h.writers_move c m
  readers := h.readers_move c m

theorem reachable_wakes (h : (rwLock ι).Reachable w) : Wakes w := by
  refine h.invariant_of_reachable (fun w start => start ▸ wakes_init) ?_
  rintro w ⟨i, c⟩ w' reached hw run
  obtain ⟨q, l, s, m, rfl⟩ := next_move run
  exact hw.move (reachable_consistent reached) m

end Steps

/-- What the lock promises, in a state and for the next step from it. -/
structure Correct [DecidableEq ι] [Fintype ι] (w : World ι) : Prop where
  /-- A writer excludes every other thread. -/
  exclusive : ∀ i j r, (w.pc i).active false = true → (w.pc j).active r = true → i = j
  readers : w.lock.AR = count (Pc.active true) w.pc
  writers : w.lock.AW = count (Pc.active false) w.pc
  waitingReaders : w.lock.WR = count (Pc.registered true) w.pc
  waitingWriters : w.lock.WW = count (Pc.registered false) w.pc
  /-- A reader is admitted only while no writer is active or waits. -/
  admits : ∀ a w', w.next a = some w' → w.lock.AR < w'.lock.AR → w.lock.AW = 0 ∧ w.lock.WW = 0
  /-- An idle lock has signalled somebody who waits. -/
  wakes : w.lock.AR = 0 → w.lock.AW = 0 → w.lock.holder = none → 0 < w.lock.WR + w.lock.WW →
    ∃ i r, (w.pc i).registered r = true ∧ w.signalled r i

section Promises
variable [DecidableEq ι] [Fintype ι] {w w' : World ι}

theorem admits_of_consistent (c : Consistent w) {a : ι × Bool} (run : w.next a = some w')
    (more : w.lock.AR < w'.lock.AR) : w.lock.AW = 0 ∧ w.lock.WW = 0 := by
  obtain ⟨q, l, s, m, rfl⟩ := next_move run
  have counted := m.active true
  have nonneg := c.counters_nonneg
  simp only [RwLock.active, if_true] at counted more
  have now : q.active true = true := by
    by_contra hq
    simp only [Bool.not_eq_true] at hq
    simp only [hq, Bool.toNat_false] at counted
    omega
  obtain was | ⟨_, _, passes⟩ := m.admitted now
  · simp only [was, now] at counted
    omega
  · simp only [RwLock.blocked, if_true, decide_eq_false_iff_not] at passes
    omega

/-- Every reachable state of the readers-writers lock is correct, for any number
of threads and any order of their steps. -/
theorem rwLock_correct (h : (rwLock ι).Reachable w) : Correct w := by
  have c := reachable_consistent h
  exact ⟨c.exclusive, c.active true, c.active false, c.waiting true, c.waiting false,
    fun _ _ run more => admits_of_consistent c run more,
    wakes_of_wakes c (reachable_wakes h)⟩

end Promises

/-- The threads that hold the lock, and the first waiter, by their numbers. -/
theorem rwLock_correct_of_three_threads :
    ∃ w : World (Fin 3), (w.lock.AW == 1 && w.lock.WR == 1 && w.lock.write == [2]) = true ∧
      Correct w := by
  obtain ⟨w, hr, hp⟩ := System.exists_reachable
    (· = (⟨rwLockInit, fun _ => 0, fun _ => .idle⟩ : World (Fin 3))) World.next
    (fun w => w.lock.AW == 1 && w.lock.WR == 1 && w.lock.write == [2]) rfl
    [(0, false), (0, false), (0, false), (0, false), (1, true), (1, true), (1, true), (1, true),
      (1, true), (2, false), (2, false), (2, false), (2, false)] (by decide)
  exact ⟨w, hp, rwLock_correct hr⟩

end CS162.Threads
