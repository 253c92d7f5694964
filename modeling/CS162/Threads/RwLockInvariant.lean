import CS162.Threads.RwLockSteps

/-!
The invariants of the readers-writers lock that hold at every step: who holds
the monitor, what the counters count, who is in the lists of waiters, and that
writers exclude everybody else.
-/

namespace CS162.Threads
open CS162.Library
universe u
variable {ι : Type u}

/-- A waiter is in a list from the `cond_wait` on until it is signalled. -/
def QueuedAt (r : Bool) (pc : Pc) (sema : Nat) : Prop :=
  (pc = .unlockWait r ∨ pc = .asleep r) ∧ sema = 0

section Count
variable [Fintype ι]

def count (p : Pc → Bool) (pc : ι → Pc) : Nat := (Finset.univ.filter fun i => p (pc i) = true).card

theorem count_eq_zero {p : Pc → Bool} {pc : ι → Pc} (h : count p pc = 0) (i : ι) :
    p (pc i) = false := by
  have := Finset.card_eq_zero.mp h
  rw [Finset.filter_eq_empty_iff] at this
  simpa using this (Finset.mem_univ i)

theorem exists_of_count (p : Pc → Bool) (pc : ι → Pc) (h : 0 < count p pc) :
    ∃ i, p (pc i) = true := by
  obtain ⟨i, hi⟩ := Finset.card_pos.mp h
  exact ⟨i, (Finset.mem_filter.mp hi).2⟩

variable [DecidableEq ι]

theorem count_update (p : Pc → Bool) (pc : ι → Pc) (i : ι) (q : Pc) :
    count p (Function.update pc i q) + (p (pc i)).toNat = count p pc + (p q).toNat := by
  have others : ∀ k, k ≠ i → (p (Function.update pc i q k) = true ↔ p (pc k) = true) :=
    fun k hk => by rw [Function.update_of_ne hk]
  have here : Function.update pc i q i = q := Function.update_self i q pc
  cases old : p (pc i) <;> cases new : p q
  · exact congrArg (· + 0) (card_filter_same fun k => by
      by_cases hk : k = i
      · rw [hk, here, old, new]
      · exact others k hk)
  · exact card_filter_set (Finset.mem_univ i) (by simp [old]) (by rw [here, new]) others
  · exact card_filter_unset (Finset.mem_univ i) old (by rw [here, new]; decide) others
  · exact congrArg (· + 1) (card_filter_same fun k => by
      by_cases hk : k = i
      · rw [hk, here, old, new]
      · exact others k hk)

end Count

structure Consistent [Fintype ι] (w : World ι) : Prop where
  holder : ∀ k, w.lock.holder = some k ↔ (w.pc k).inside = true
  active : ∀ r, w.lock.active r = count (Pc.active r) w.pc
  waiting : ∀ r, w.lock.waiting r = count (Pc.registered r) w.pc
  queued : ∀ r k, k ∈ w.lock.waiters r ↔ QueuedAt r (w.pc k) (w.sema k)
  nodup : ∀ r, (w.lock.waiters r).Nodup
  exclusive : ∀ i j r, (w.pc i).active false = true → (w.pc j).active r = true → i = j

theorem consistent_init [Fintype ι] : Consistent (⟨rwLockInit, fun _ => 0, fun _ => .idle⟩ : World ι) where
  holder k := by simp [rwLockInit, Pc.inside]
  active r := by cases r <;> simp [rwLockInit, RwLock.active, count, Pc.active]
  waiting r := by cases r <;> simp [rwLockInit, RwLock.waiting, count, Pc.registered]
  queued r k := by cases r <;> simp [rwLockInit, RwLock.waiters, QueuedAt]
  nodup r := by cases r <;> simp [rwLockInit, RwLock.waiters]
  exclusive i j r h := by simp [Pc.active] at h

theorem Consistent.none_active [Fintype ι] {w : World ι} {r : Bool} (h : Consistent w)
    (passes : w.lock.blocked r = false) (k : ι) :
    (w.pc k).active false = false ∧ (r = false → (w.pc k).active true = false) := by
  have writers := h.active false
  have readers := h.active true
  have waiters := h.waiting false
  simp only [RwLock.active, RwLock.waiting, Bool.false_eq_true, if_false, if_true] at *
  cases r with
  | false =>
      simp only [RwLock.blocked, Bool.false_eq_true, if_false, decide_eq_false_iff_not] at passes
      exact ⟨count_eq_zero (by omega) k, fun _ => count_eq_zero (by omega) k⟩
  | true =>
      simp only [RwLock.blocked, if_true, decide_eq_false_iff_not] at passes
      exact ⟨count_eq_zero (by omega) k, fun hr => by cases hr⟩

section Steps
variable [DecidableEq ι] [Fintype ι] {w w' : World ι} {i : ι} {q : Pc} {l : RwLock ι} {s : ι → Nat} {r : Bool}

theorem Consistent.holder_move (h : Consistent w) (m : Move w i (w.pc i) q l s) (k : ι) :
    l.holder = some k ↔ (Function.update w.pc i q k).inside = true := by
  by_cases hk : k = i
  · subst hk
    rw [Function.update_self]
    obtain ⟨inside, same⟩ | ⟨_, inside, _, now⟩ | ⟨_, inside, now⟩ := m.holder
    · rw [inside, same]
      exact h.holder k
    · simp [inside, now]
    · simp [inside, now]
  · rw [Function.update_of_ne hk]
    obtain ⟨_, same⟩ | ⟨_, _, free, now⟩ | ⟨inside, _, now⟩ := m.holder
    · rw [same]
      exact h.holder k
    · have := h.holder k
      simp only [free, reduceCtorEq, false_iff] at this
      simp [now, this, Ne.symm hk]
    · have mine := (h.holder i).mpr inside
      have := h.holder k
      rw [mine] at this
      simp only [Option.some.injEq, Ne.symm hk, false_iff] at this
      simp [now, this]

theorem Consistent.active_move (h : Consistent w) (m : Move w i (w.pc i) q l s) (r : Bool) :
    l.active r = count (Pc.active r) (Function.update w.pc i q) := by
  have moved := m.active r
  have counted := count_update (Pc.active r) w.pc i q
  rw [h.active r] at moved
  omega

theorem Consistent.waiting_move (h : Consistent w) (m : Move w i (w.pc i) q l s) (r : Bool) :
    l.waiting r = count (Pc.registered r) (Function.update w.pc i q) := by
  have moved := m.waiting r
  have counted := count_update (Pc.registered r) w.pc i q
  rw [h.waiting r] at moved
  omega

theorem Consistent.exclusive_move (h : Consistent w) (m : Move w i (w.pc i) q l s) (j k : ι) (r : Bool)
    (writer : (Function.update w.pc i q j).active false = true)
    (other : (Function.update w.pc i q k).active r = true) : j = k := by
  by_cases hj : j = i <;> by_cases hk : k = i
  · rw [hj, hk]
  · -- The thread that moves is a writer: it was one, or nobody else is active.
    subst hj
    rw [Function.update_self] at writer
    rw [Function.update_of_ne hk] at other
    obtain was | ⟨_, _, passes⟩ := m.admitted writer
    · exact h.exclusive j k r was other
    · have none := h.none_active passes k
      cases r with
      | false => simp [none.1] at other
      | true => simp [none.2 rfl] at other
  · subst hk
    rw [Function.update_self] at other
    rw [Function.update_of_ne hj] at writer
    obtain was | ⟨_, _, passes⟩ := m.admitted other
    · exact h.exclusive j k r writer was
    · simp [(h.none_active passes j).1] at writer
  · rw [Function.update_of_ne hj] at writer
    rw [Function.update_of_ne hk] at other
    exact h.exclusive j k r writer other

/-- Moves that leave the lists, the semaphores and the waiting places alone. -/
theorem Consistent.queued_quiet (h : Consistent w) (same : ∀ r, l.waiters r = w.lock.waiters r)
    (before : ∀ r n, QueuedAt r (w.pc i) n ↔ QueuedAt r q n) (r : Bool) (k : ι) :
    k ∈ l.waiters r ↔ QueuedAt r (Function.update w.pc i q k) (w.sema k) := by
  rw [same, h.queued]
  by_cases hk : k = i
  · subst hk
    rw [Function.update_self]
    exact before r _
  · rw [Function.update_of_ne hk]

theorem queuedAt_unique {r r' : Bool} {pc : Pc} {n n' : Nat} (h : QueuedAt r pc n)
    (h' : QueuedAt r' pc n') : r = r' := by
  obtain ⟨rfl | rfl, _⟩ := h <;> simpa [QueuedAt] using h'.1

theorem queuedAt_signals {r r' : Bool} {n : Nat} : ¬ QueuedAt r (Pc.signals r') n := by
  cases r' <;> simp [QueuedAt, Pc.signals]

theorem Consistent.queued_move (h : Consistent w) (m : Move w i (w.pc i) q l s) (r : Bool) (k : ι) :
    k ∈ l.waiters r ↔ QueuedAt r (Function.update w.pc i q k) (s k) := by
  generalize at_i : w.pc i = p at m
  cases m with
  | enqueue r' =>
      rw [RwLock.waiters_setWaiters]
      by_cases hk : k = i
      · subst hk
        have out : k ∉ w.lock.waiters r := by
          simp [h.queued, at_i, QueuedAt]
        simp only [Function.update_self, QueuedAt]
        split
        next same => simp [same]
        next other => simp [out, Ne.symm other]
      · simp only [Function.update_of_ne hk, ← h.queued r k]
        split
        next same => simp [same, hk]
        next => rfl
  | sleep r' =>
      refine h.queued_quiet (fun _ => rfl) (fun r n => ?_) r k
      simp [at_i, QueuedAt]
  | wake r' up =>
      by_cases hk : k = i
      · subst hk
        have out : k ∉ w.lock.waiters r := by
          simp only [h.queued, QueuedAt]
          omega
        simp [out, QueuedAt]
      · rw [Function.update_of_ne hk, Function.update_of_ne hk]
        exact h.queued r k
  | wakeFirst r' j rest first =>
      have in_j : QueuedAt r' (w.pc j) (w.sema j) := by
        rw [← h.queued, first]
        exact List.mem_cons_self
      have ne : i ≠ j := by
        rintro rfl
        rw [at_i] at in_j
        exact queuedAt_signals in_j
      have nodup := h.nodup r'
      rw [first, List.nodup_cons] at nodup
      rw [RwLock.waiters_setWaiters]
      by_cases hk : k = j
      · subst hk
        have up : ¬ QueuedAt r (Function.update w.pc i (if r' then .broadcast else .unlock) k)
            (Function.update w.sema k (w.sema k + 1) k) := by
          simp [QueuedAt]
        have out : k ∉ if r = r' then rest else w.lock.waiters r := by
          split
          next => exact nodup.1
          next other =>
            rw [h.queued]
            exact fun queued => other (queuedAt_unique queued in_j)
        exact iff_of_false out up
      · have still : Function.update w.sema j (w.sema j + 1) k = w.sema k := Function.update_of_ne hk ..
        rw [still]
        by_cases hi : k = i
        · subst hi
          have out : ∀ r, k ∉ w.lock.waiters r := by
            intro r
            rw [h.queued, at_i]
            exact queuedAt_signals
          rw [Function.update_self]
          refine iff_of_false ?_ (by cases r' <;> simp [QueuedAt])
          split
          next same =>
            have := out r'
            rw [first] at this
            exact fun mem => this (List.mem_cons_of_mem _ mem)
          next => exact out r
        · rw [Function.update_of_ne hi, ← h.queued r k]
          split
          next same => simp [same, first, hk]
          next => rfl
  | retract r' =>
      refine h.queued_quiet (fun _ => by simp) (fun r n => ?_) r k
      obtain h | h | h := RwLock.wakes_eq (w.lock.retract r') r' <;> simp [at_i, h, QueuedAt]
  | noWaiter r' none =>
      refine h.queued_quiet (fun _ => rfl) (fun r n => ?_) r k
      cases r' <;> simp [at_i, Pc.signals, QueuedAt]
  | _ =>
      refine h.queued_quiet (fun _ => ?_) (fun r n => ?_) r k
      · simp
      · simp [at_i, QueuedAt]

theorem Consistent.nodup_move (h : Consistent w) (m : Move w i (w.pc i) q l s) (r : Bool) :
    (l.waiters r).Nodup := by
  generalize at_i : w.pc i = p at m
  cases m with
  | enqueue r' =>
      have out : i ∉ w.lock.waiters r' := by
        simp [h.queued, at_i, QueuedAt]
      rw [RwLock.waiters_setWaiters]
      split
      next => exact List.nodup_append.mpr ⟨h.nodup r', List.nodup_singleton i, by
        rintro a ha b hb rfl
        exact out (List.mem_singleton.mp hb ▸ ha)⟩
      next => exact h.nodup r
  | wakeFirst r' j rest first =>
      have nodup := h.nodup r'
      rw [first, List.nodup_cons] at nodup
      rw [RwLock.waiters_setWaiters]
      split
      next => exact nodup.2
      next => exact h.nodup r
  | _ => simpa using h.nodup r

theorem Consistent.move (h : Consistent w) (m : Move w i (w.pc i) q l s) :
    Consistent ⟨l, s, Function.update w.pc i q⟩ where
  holder := h.holder_move m
  active := h.active_move m
  waiting := h.waiting_move m
  queued := h.queued_move m
  nodup := h.nodup_move m
  exclusive := h.exclusive_move m

theorem reachable_consistent (h : (rwLock ι).Reachable w) : Consistent w := by
  refine h.invariant (fun w start => start ▸ consistent_init) ?_
  rintro w ⟨i, c⟩ w' hw run
  obtain ⟨q, l, s, m, rfl⟩ := next_move run
  exact hw.move m

/-- A thread that cannot go on waits for the monitor or for its signal; no
assertion of `lock_release` stops it. -/
theorem Consistent.waits_of_next_eq_none (h : Consistent w) {c : Bool}
    (stuck : w.next (i, c) = none) :
    (∃ r, w.pc i = .acquire r ∨ w.pc i = .relock r ∨ w.pc i = .release r) ∧ w.lock.holder ≠ none ∨
    ∃ r, w.pc i = .asleep r ∧ w.sema i = 0 := by
  have mine := h.holder i
  have lock {pc : Pc} (hn : w.lockMonitor i pc = none) : w.lock.holder ≠ none := by
    intro free
    simp [World.lockMonitor, free] at hn
  simp only [World.next] at stuck
  cases at_i : w.pc i with
  | acquire r => exact .inl ⟨⟨r, .inl rfl⟩, lock (by simpa only [at_i] using stuck)⟩
  | relock r => exact .inl ⟨⟨r, .inr (.inl rfl)⟩, lock (by simpa only [at_i] using stuck)⟩
  | release r => exact .inl ⟨⟨r, .inr (.inr rfl)⟩, lock (by simpa only [at_i] using stuck)⟩
  | asleep r =>
      simp only [at_i] at stuck
      split at stuck
      next => cases stuck
      next down => exact .inr ⟨r, rfl, by omega⟩
  | unlockWait r | acquired r | unlock =>
      have held : w.lock.holder = some i := mine.mpr (by rw [at_i]; rfl)
      simp [at_i, World.unlockMonitor, held] at stuck
  | test r | broadcast =>
      simp only [at_i] at stuck
      split at stuck <;> cases stuck
  | _ => simp [at_i] at stuck

end Steps
end CS162.Threads
