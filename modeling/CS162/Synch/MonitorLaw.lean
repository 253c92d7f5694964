import CS162.Synch.ConditionLaw

/-!
What condition variables promise: signals go to the waits in their order, one to
each, none is lost in the window between `lock_release` and `sema_down`, and a wait
returns with the lock and only if it was signalled.
-/

namespace CS162.Synch
open CS162.Library
universe u x
variable {γ : Type u} {ι : Type x} [DecidableEq γ]

namespace CondWorld
variable {w : CondWorld γ ι} {t : ι} {k : Ticket γ}

/-- Thread `t` has appended itself as waiter `k` and is not past its `sema_down`. -/
def waitsOn (w : CondWorld γ ι) (t : ι) (k : Ticket γ) : Prop :=
  w.stage t = .unlock k ∨ w.stage t = .sleep k ∨
    w.stage t = .relock k ∧ w.kernel.pc t = .inDown (.inl k)

/-- It is past `sema_down`, on its way back. -/
def comesBack (w : CondWorld γ ι) (t : ι) (k : Ticket γ) : Prop :=
  w.stage t = .relock k ∧ w.kernel.pc t = .outside ∨ w.stage t = .back k

theorem role_of_waitsOn (h : w.waitsOn t k) : w.tickets.role t = .waits k := by
  change (w.stage t).role (w.kernel.pc t) = _
  rcases h with here | here | ⟨here, inDown⟩
  · rw [here]
    rfl
  · rw [here]
    rfl
  · rw [here, inDown]
    simp [Stage.role]

theorem role_of_comesBack (h : w.comesBack t k) : w.tickets.role t = .passed k := by
  change (w.stage t).role (w.kernel.pc t) = _
  rcases h with ⟨here, outside⟩ | here
  · rw [here, outside]
    simp [Stage.role]
  · rw [here]
    rfl

theorem raise_of_role (h : w.tickets.role t = .raises k) : ∃ upto, w.stage t = .raise k upto := by
  change (w.stage t).role (w.kernel.pc t) = _ at h
  cases here : w.stage t <;> rw [here] at h
  case raise k' upto =>
    cases h
    exact ⟨upto, rfl⟩
  case relock k' =>
    simp only [Stage.role] at h
    split at h <;> cases h
  all_goals cases h

variable [DecidableEq ι]

theorem Inv.alone (h : w.Inv) (waits : w.waitsOn t k) {u : ι}
    (here : w.kernel.pc u = .inDown (.inl k)) : u = t := by
  have place := h.places u
  rw [here] at place
  have relock := (Stage.at_inDown place).1
  have role := role_of_waitsOn (w := w) (t := u) (.inr (.inr ⟨relock, here⟩))
  exact h.tickets.unique u t k (.inl role) (.inl (role_of_waitsOn waits))

section Law
variable [Fintype ι]

theorem Inv.value (h : w.Inv) (waits : w.waitsOn t k) :
    (w.kernel.sema (.inl k)).value = w.kernel.ups (.inl k) := by
  have unused := (h.tickets.waits t k (role_of_waitsOn waits)).2
  have ups := h.tickets.ups_le k
  have exact : initialValue (fun _ => 0) (.inl k) + w.kernel.ups (.inl k) - w.kernel.downs (.inl k) < 2 ^ 32 →
      (w.kernel.sema (.inl k)).value + w.kernel.downs (.inl k) =
        initialValue (fun _ => 0) (.inl k) + w.kernel.ups (.inl k) := (law_of_reachable h.kernel (.inl k)).exact
  change w.kernel.downs (.inl k) = 0 at unused
  change w.kernel.ups (.inl k) ≤ 1 at ups
  have zero : initialValue (fun _ : Ticket γ => 0) (.inl k : Ticket γ ⊕ Unit) = 0 := rfl
  rw [unused, zero] at exact
  have := exact (by omega)
  omega

theorem Inv.awake (h : w.Inv) (waits : w.waitsOn t k) (up : w.kernel.ups (.inl k) = 1) :
    w.kernel.status t = .ready := by
  by_contra not_ready
  have blocked : w.kernel.status t = .blocked := by
    cases status : w.kernel.status t with
    | ready => exact absurd status not_ready
    | blocked => rfl
  have place := h.places t
  obtain ⟨s, inDown⟩ | outside := h.idle t blocked
  · -- it sleeps in its own semaphore, where nobody is on the way: the unit cannot be there
    have here : w.kernel.pc t = .inDown (.inl k) := by
      rcases waits with here | here | ⟨_, here⟩
      · rw [here] at place
        exact absurd (place.1.symm.trans inDown) (by simp)
      · rw [here, inDown] at place
        obtain ⟨eq | eq | eq, _⟩ := place <;> cases eq
      · exact here
    have listed := (waiting_of_reachable h.kernel (.inl k) t).mpr ⟨here, blocked⟩
    have most := wakes_of_reachable h.kernel (.inl k) (List.ne_nil_of_mem listed)
    have none : (Finset.univ.filter fun u =>
        w.kernel.pc u = .inDown (.inl k) ∧ w.kernel.status u = .ready).card = 0 := by
      apply Finset.card_eq_zero.mpr
      apply Finset.filter_eq_empty_iff.mpr
      intro u _ ⟨at_u, ready⟩
      rw [h.alone waits at_u] at ready
      exact not_ready ready
    rw [none, h.value waits, up] at most
    exact absurd most (by decide)
  · rcases waits with here | here | ⟨here, _⟩ <;> rw [outside] at here <;> cases here

/-- A thread in `cond_wait` or `cond_broadcast` meets no failing assertion. -/
theorem Inv.goes (h : w.Inv) (ready : w.kernel.status t = .ready) (call : CondCall γ)
    (called : w.stage t ≠ .outside)
    (checked : ∀ c, w.stage t = .signal c none → w.kernel.inside () t = true) :
    ∃ w', w.next (.thread t call) = .ok w' := by
  have awake : w.kernel.status t ≠ .blocked := by
    rw [ready]
    decide
  have law := law_of_reachable h.kernel
  have place := h.places t
  simp only [CondWorld.next, awake, if_false]
  by_cases outside : w.kernel.pc t = .outside
  · simp only [outside, if_true, CondWorld.advance]
    have held : w.kernel.inside () t = true → w.kernel.lockHeldByCurrentThread t () :=
      (lock_law_of_reachable h.kernel ()).holder_inside
    cases here : w.stage t with
    | outside => exact absurd here called
    | append c => exact ⟨_, rfl⟩
    | unlock k =>
        rw [here] at place
        simp only [CondWorld.synch, World.call, held place.2, if_true]
        exact ⟨_, rfl⟩
    | sleep k => exact ⟨_, rfl⟩
    | relock k =>
        rw [here] at place
        simp only [CondWorld.synch, World.call, not_held h.kernel outside place.2, if_false]
        exact ⟨_, rfl⟩
    | back k => exact ⟨_, rfl⟩
    | signal c upto =>
        have inside : w.kernel.inside () t = true := by
          rw [here] at place
          cases upto with
          | none => exact checked c here
          | some => exact place.2
        simp only [CondWorld.assertHeld, held inside, if_true]
        exact ⟨_, rfl⟩
    | check c upto => simp only; split <;> exact ⟨_, rfl⟩
    | pop c upto =>
        simp only [CondWorld.popFront]
        cases line : w.waiters c with
        | nil => exact absurd line (h.pops t c upto here)
        | cons n rest => exact ⟨_, rfl⟩
    | raise k upto =>
        obtain ⟨k', up⟩ := World.upCall_ok (law (.inl k))
        simp only [CondWorld.synch, World.call, up]
        exact ⟨_, rfl⟩
    | broadcast c upto => simp only; split <;> exact ⟨_, rfl⟩
  · obtain ⟨k', advance⟩ := advance_ok law outside .block
    simp only [outside, if_false, advance]
    exact ⟨_, rfl⟩

end Law

/-- Thread `t` is in `cond_signal` with waiter `n` first in the line of `c`, or it has
taken that waiter off the line. -/
def signals (w : CondWorld γ ι) (t : ι) (c : γ) (n : Nat) : Prop :=
  (∃ upto, w.stage t = .signal c upto ∨ w.stage t = .check c upto ∨ w.stage t = .pop c upto) ∧
      w.kernel.inside () t = true ∧ (w.waiters c).head? = some n ∨
    ∃ upto, w.stage t = .raise (c, n) upto

section Steps
variable {w' : CondWorld γ ι} {a : CondLabel γ ι} {call : CondCall γ} {c : γ} {n upto : Nat}

/-- What a step that is not the thread's own leaves alone; the lists are the lock's. -/
structure Apart (t : ι) (w w' : CondWorld γ ι) : Prop where
  stage : w'.stage t = w.stage t
  pc : w'.kernel.pc t = w.kernel.pc t
  inside : w'.kernel.inside () t = w.kernel.inside () t
  lists : w.kernel.inside () t = true → w'.waiters = w.waiters

omit [DecidableEq γ] in
theorem stage_goto {σ : Stage γ} : (w.goto t σ).stage t = σ := Function.update_self ..

theorem own_step (step : w.next (.thread t call) = .ok w') :
    w.kernel.status t = .ready ∧ (w.kernel.pc t = .outside ∧ w.advance t call = .ok w' ∨
      w.kernel.pc t ≠ .outside ∧
        ∃ k, w.kernel.advance t .block = .ok k ∧ w' = { w with kernel := k }) := by
  simp only [next] at step
  split at step
  · cases step
  next awake =>
    refine ⟨World.status_ready awake, ?_⟩
    split at step
    next outside => exact .inl ⟨outside, step⟩
    next busy =>
      split at step <;> cases step
      next k advance => exact .inr ⟨busy, k, advance, rfl⟩

/-- A thread whose stage is not in a function underneath takes its next statement. -/
theorem outside_step (outside : w.kernel.pc t = .outside) (step : w.next (.thread t call) = .ok w') :
    w.kernel.status t = .ready ∧ w.advance t call = .ok w' := by
  obtain ⟨ready, ⟨_, advance⟩ | ⟨busy, _⟩⟩ := own_step step
  · exact ⟨ready, advance⟩
  · exact absurd outside busy

theorem Inv.waits_or_back (h : w.Inv) (here : w.stage t = .relock k) :
    w.waitsOn t k ∨ w.comesBack t k := by
  have place := h.places t
  rw [here] at place
  obtain ⟨inDown | outside, _⟩ := place
  · exact .inl (.inr (.inr ⟨here, inDown⟩))
  · exact .inr (.inl ⟨here, outside⟩)

theorem Inv.raised (h : w.Inv) (below : k.2 < w.popped k.1) :
    w.kernel.ups (.inl k) = 1 ∨
      w.kernel.ups (.inl k) = 0 ∧ ∃ t upto, w.stage t = .raise k upto := by
  obtain ⟨t, role⟩ | up := h.tickets.raised k below
  · exact .inr ⟨(h.tickets.raises t k role).2, t, raise_of_role role⟩
  · exact .inl up

theorem call_ok (here : w.stage t = .outside) (outside : w.kernel.pc t = .outside)
    (ready : w.kernel.status t = .ready) (held : w.kernel.holder () = some t)
    (inside : w.kernel.inside () t = true) (c : γ) :
    (∃ w', w.next (.thread t (.wait c)) = .ok w' ∧ w'.stage t = .append c) ∧
    (∀ n, (w.waiters c).head? = some n →
      ∃ w', w.next (.thread t (.signal c)) = .ok w' ∧ w'.signals t c n) ∧
    ∃ w', w.next (.thread t (.broadcast c)) = .ok w' ∧ w'.stage t = .broadcast c (w.issued c) := by
  have awake : w.kernel.status t ≠ .blocked := by
    rw [ready]
    decide
  have lock : w.kernel.lockHeldByCurrentThread t () := held
  refine ⟨⟨w.goto t (.append c), ?_, stage_goto⟩, fun n first => ⟨w.goto t (.signal c none), ?_, ?_⟩,
    w.goto t (.broadcast c (w.issued c)), ?_, stage_goto⟩
  · simp only [CondWorld.next, awake, outside, CondWorld.advance, here, CondWorld.call,
      CondWorld.assertHeld, lock, if_true, if_false]
  · simp only [CondWorld.next, awake, outside, CondWorld.advance, here, CondWorld.call, if_true,
      if_false]
  · exact .inl ⟨⟨none, .inl stage_goto⟩, inside, first⟩
  · simp only [CondWorld.next, awake, outside, CondWorld.advance, here, CondWorld.call, lock,
      if_true, if_false]

/-- When the loop of `cond_broadcast` ends, everybody who waited when it began is signalled. -/
theorem Inv.broadcast_done (h : w.Inv) (here : w.stage t = .broadcast c upto)
    (empty : w.waiters c = []) (below : n < upto) : w.kernel.ups (.inl (c, n)) = 1 := by
  have place := h.places t
  rw [here] at place
  have line := h.tickets.line c
  have le := h.upto t c upto (by rw [here]; rfl)
  change w.waiters c = _ at line
  rw [empty, eq_comm, List.range'_eq_nil_iff] at line
  change w.issued c - w.popped c = 0 at line
  obtain up | ⟨_, u, upto', raising⟩ := h.raised (k := (c, n)) (by change n < w.popped c; omega)
  · exact up
  · -- the signaller would have the lock too
    have place' := h.places u
    rw [raising] at place'
    have same := (lock_law_of_reachable h.kernel ()).exclusive (.inl place'.2) (.inl place.2)
    rw [same, here] at raising
    cases raising

variable [Fintype ι]

theorem Inv.next (h : w.Inv) (step : w.next a = .ok w') : w'.Inv := by
  obtain ⟨σ, steps⟩ := h.taken step
  exact h.step steps

theorem Inv.apart (h : w.Inv) (t : ι) (step : w.next a = .ok w') :
    (∃ call, a = .thread t call) ∨ Apart t w w' := by
  by_cases own : t = a.actor
  · cases a with
    | thread u call =>
        cases own
        exact .inl ⟨call, rfl⟩
    | unblock u =>
        simp only [CondWorld.next, World.next, World.threadUnblock] at step
        split at step <;> cases step
        next k unblocked =>
          split at unblocked
          · cases unblocked
          · split at unblocked <;> cases unblocked
            exact .inr ⟨rfl, rfl, rfl, fun _ => rfl⟩
  · obtain ⟨σ, steps⟩ := h.taken step
    refine .inr ⟨?_, steps.moved.pc t own, steps.moved.inside () t own, fun inside => ?_⟩
    · rw [steps.stage, Function.update_of_ne own]
    · obtain same | locked := steps.lists
      · exact same
      · exact absurd ((lock_law_of_reachable h.kernel ()).exclusive (.inl inside) (.inl locked)) own

/-- `cond_signal` goes on to signal the first waiter, whatever runs in between, and does not
return before. -/
theorem Inv.signals_step (h : w.Inv) (signals : w.signals t c n) (step : w.next a = .ok w') :
    w'.signals t c n ∨ (∃ upto, w'.stage t = .leave c upto) ∧
      w.kernel.ups (.inl (c, n)) = 0 ∧ w'.kernel.ups (.inl (c, n)) = 1 := by
  have place := h.places t
  obtain ⟨call, rfl⟩ | apart := h.apart t step
  · obtain ⟨⟨upto, here | here | here⟩, inside, first⟩ | ⟨upto, here⟩ := signals
    · have outside : w.kernel.pc t = .outside := by
        rw [here] at place
        cases upto with
        | none => exact place
        | some => exact place.1
      obtain ⟨_, advance⟩ := outside_step outside step
      simp only [CondWorld.advance, here, CondWorld.assertHeld] at advance
      split at advance <;> cases advance
      exact .inl (.inl ⟨⟨upto, .inr (.inl stage_goto)⟩, inside, first⟩)
    · rw [here] at place
      obtain ⟨_, advance⟩ := outside_step place.1 step
      simp only [CondWorld.advance, here] at advance
      split at advance <;> cases advance
      next none =>
        rw [List.isEmpty_iff.mp none] at first
        cases first
      next => exact .inl (.inl ⟨⟨upto, .inr (.inr stage_goto)⟩, inside, first⟩)
    · rw [here] at place
      obtain ⟨_, advance⟩ := outside_step place.1 step
      simp only [CondWorld.advance, here, CondWorld.popFront] at advance
      split at advance <;> cases advance
      next n' rest line =>
        rw [line] at first
        cases first
        exact .inl (.inr ⟨upto, stage_goto⟩)
    · rw [here] at place
      obtain ⟨_, advance⟩ := outside_step place.1 step
      simp only [CondWorld.advance, here] at advance
      obtain ⟨k', called, rfl⟩ := synch_ok advance
      have role : w.tickets.role t = .raises (c, n) := by
        change (w.stage t).role (w.kernel.pc t) = _
        rw [here]
        rfl
      have fresh : w.kernel.ups (.inl (c, n)) = 0 := (h.tickets.raises t (c, n) role).2
      refine .inr ⟨⟨upto, stage_goto⟩, fresh, ?_⟩
      rw [(counts_upCall (t := t) called).1, Function.update_self, fresh]
  · obtain ⟨⟨upto, at_t⟩, inside, first⟩ | ⟨upto, at_t⟩ := signals
    · refine .inl (.inl ⟨⟨upto, ?_⟩, apart.inside.trans inside, ?_⟩)
      · rw [apart.stage]
        exact at_t
      · rw [apart.lists inside]
        exact first
    · exact .inl (.inr ⟨upto, apart.stage.trans at_t⟩)

/-- `cond_broadcast` does not return before it has signalled everybody. -/
theorem Inv.broadcast_step (h : w.Inv) (within : (w.stage t).upto = some (c, upto))
    (step : w.next a = .ok w') : (w'.stage t).upto = some (c, upto) ∨
      w'.stage t = .outside ∧ ∀ n, n < upto → w'.kernel.ups (.inl (c, n)) = 1 := by
  have place := h.places t
  obtain ⟨call, rfl⟩ | apart := h.apart t step
  · cases here : w.stage t with
    | outside | append | unlock | sleep | relock | back =>
        rw [here] at within
        cases within
    | signal c' upto' =>
        rw [here] at place within
        have outside : w.kernel.pc t = .outside := by
          cases upto' with
          | none => exact place
          | some => exact place.1
        obtain ⟨_, advance⟩ := outside_step outside step
        simp only [CondWorld.advance, here, CondWorld.assertHeld] at advance
        split at advance <;> cases advance
        rw [stage_goto]
        exact .inl within
    | check c' upto' =>
        rw [here] at place within
        obtain ⟨_, advance⟩ := outside_step place.1 step
        simp only [CondWorld.advance, here] at advance
        split at advance <;> cases advance <;> rw [stage_goto]
        · rw [Stage.leave_upto]
          exact .inl within
        · exact .inl within
    | pop c' upto' =>
        rw [here] at place within
        obtain ⟨_, advance⟩ := outside_step place.1 step
        simp only [CondWorld.advance, here, CondWorld.popFront] at advance
        split at advance <;> cases advance
        next n' rest _ =>
          left
          have stage : (w.goto t (.raise (c', n') upto')).stage t = .raise (c', n') upto' := stage_goto
          change ((w.goto t (.raise (c', n') upto')).stage t).upto = _
          rw [stage]
          exact within
    | raise k' upto' =>
        rw [here] at place within
        obtain ⟨_, advance⟩ := outside_step place.1 step
        simp only [CondWorld.advance, here] at advance
        obtain ⟨kernel, -, rfl⟩ := synch_ok advance
        left
        change ((w.goto t (.leave k'.1 upto')).stage t).upto = _
        rw [stage_goto, Stage.leave_upto]
        exact within
    | broadcast c' upto' =>
        rw [here] at place within
        cases within
        obtain ⟨_, advance⟩ := outside_step place.1 step
        simp only [CondWorld.advance, here] at advance
        split at advance <;> cases advance
        next empty =>
          exact .inr ⟨stage_goto, fun n => h.broadcast_done here (List.isEmpty_iff.mp empty)⟩
        next =>
          rw [stage_goto]
          exact .inl rfl
  · rw [apart.stage]
    exact .inl within

theorem Inv.append_step (h : w.Inv) (here : w.stage t = .append c) (step : w.next a = .ok w') :
    w'.stage t = .append c ∨
      w'.waitsOn t (c, w.issued c) ∧ w'.waiters c = w.waiters c ++ [w.issued c] := by
  have place := h.places t
  rw [here] at place
  obtain ⟨call, rfl⟩ | apart := h.apart t step
  · obtain ⟨_, advance⟩ := outside_step place.1 step
    simp only [CondWorld.advance, here] at advance
    cases advance
    exact .inr ⟨.inl stage_goto, Function.update_self ..⟩
  · exact .inl (apart.stage.trans here)

/-- A wait goes on until its `sema_down` returns. -/
theorem Inv.waits_step (h : w.Inv) (waits : w.waitsOn t k) (step : w.next a = .ok w') :
    w'.waitsOn t k ∨ w'.comesBack t k := by
  have place := h.places t
  obtain ⟨call, rfl⟩ | apart := h.apart t step
  · obtain ⟨_, ⟨outside, advance⟩ | ⟨_, kernel, -, rfl⟩⟩ := own_step step
    · obtain here | here | ⟨_, inDown⟩ := waits
      · simp only [CondWorld.advance, here] at advance
        obtain ⟨kernel, -, rfl⟩ := synch_ok advance
        exact .inl (.inr (.inl stage_goto))
      · simp only [CondWorld.advance, here] at advance
        apply (h.next step).waits_or_back
        obtain ⟨kernel, -, rfl⟩ := synch_ok advance
        exact stage_goto
      · rw [inDown] at outside
        cases outside
    · obtain here | here | ⟨here, _⟩ := waits
      · exact .inl (.inl here)
      · exact .inl (.inr (.inl here))
      · exact (h.next step).waits_or_back here
  · simp only [waitsOn, apart.stage, apart.pc]
    exact .inl waits

/-- A thread asleep in `cond_wait` is past its `sema_down` with its next step once it is
signalled. -/
theorem Inv.passes (h : w.Inv) (here : w.stage t = .relock k) (inDown : w.kernel.pc t = .inDown (.inl k))
    (up : w.kernel.ups (.inl k) = 1) (step : w.next (.thread t call) = .ok w') :
    w'.comesBack t k := by
  obtain ⟨_, ⟨outside, _⟩ | ⟨_, kernel, advance, rfl⟩⟩ := own_step step
  · rw [inDown] at outside
    cases outside
  · simp only [World.advance, inDown] at advance
    cases advance
    refine .inl ⟨here, ?_⟩
    obtain ⟨empty, _⟩ | ⟨_, past, _⟩ := downTurn_cases w.kernel t (.inl k)
    · rw [h.value (.inr (.inr ⟨here, inDown⟩)), up] at empty
      cases empty
    · exact past

theorem Inv.back_step (h : w.Inv) (back : w.comesBack t k) (step : w.next a = .ok w') :
    w'.comesBack t k ∨ w'.stage t = .outside ∧ w'.kernel.holder () = some t := by
  have place := h.places t
  obtain ⟨call, rfl⟩ | apart := h.apart t step
  · obtain ⟨_, ⟨outside, advance⟩ | ⟨busy, kernel, -, rfl⟩⟩ := own_step step
    · obtain ⟨here, _⟩ | here := back
      · simp only [CondWorld.advance, here] at advance
        obtain ⟨kernel, -, rfl⟩ := synch_ok advance
        exact .inl (.inr stage_goto)
      · simp only [CondWorld.advance, here] at advance
        cases advance
        rw [here, outside] at place
        obtain ⟨eq | eq | eq, _⟩ | ⟨_, inside⟩ := place
        · cases eq
        · cases eq
        · cases eq
        · exact .inr ⟨stage_goto, (lock_law_of_reachable h.kernel ()).holder_inside inside⟩
    · obtain ⟨_, outside⟩ | here := back
      · exact absurd outside busy
      · exact .inl (.inr here)
  · simp only [comesBack, apart.stage, apart.pc]
    exact .inl back

end Steps
end CondWorld

variable [DecidableEq ι]

/-- What condition variables promise in a state: number `n` of condition `c` is the
`n`-th wait on `c`, and `ups` counts the `sema_up`s on its semaphore. -/
structure MonitorLaw (w : CondWorld γ ι) : Prop where
  -- taken off the list in the order of the waits
  fifo : ∀ c, w.popped c ≤ w.issued c ∧
    w.waiters c = List.range' (w.popped c) (w.issued c - w.popped c)
  own : ∀ t u k, w.waitsOn t k ∨ w.comesBack t k → w.waitsOn u k ∨ w.comesBack u k → t = u
  -- who was taken off is signalled, or the signaller is about to
  raised : ∀ k : Ticket γ, k.2 < w.popped k.1 →
    w.kernel.ups (.inl k) = 1 ∨ w.kernel.ups (.inl k) = 0 ∧ ∃ t upto, w.stage t = .raise k upto
  unraised : ∀ k : Ticket γ, w.popped k.1 ≤ k.2 → w.kernel.ups (.inl k) = 0
  -- a step signals nobody, or one waiter that was not signalled
  signal : ∀ a w', w.next a = .ok w' →
    (∀ k, w'.kernel.ups (.inl k) = w.kernel.ups (.inl k)) ∨
    ∃ t k upto, w.stage t = .raise k upto ∧ w.kernel.ups (.inl k) = 0 ∧
      ∀ k', w'.kernel.ups (.inl k') = if k' = k then 1 else w.kernel.ups (.inl k')
  -- a waiter gets past its semaphore if and only if it is signalled, and then it is awake
  able : ∀ t k, w.waitsOn t k → (w.kernel.sema (.inl k)).value = w.kernel.ups (.inl k) ∧
    (w.kernel.ups (.inl k) = 1 → w.kernel.status t = .ready)
  signalled : ∀ t k, w.comesBack t k → w.kernel.ups (.inl k) = 1
  -- about to return from `cond_wait`
  returns : ∀ t k, w.stage t = .back k → w.kernel.pc t = .outside → w.kernel.holder () = some t
  -- the loop of `cond_broadcast` is over: everybody who waited when it began is signalled
  broadcast : ∀ t c upto, w.stage t = .broadcast c upto → w.waiters c = [] →
    ∀ n, n < upto → w.kernel.ups (.inl (c, n)) = 1
  goes : ∀ t call, w.kernel.status t = .ready → w.stage t ≠ .outside →
    (∀ c, w.stage t = .signal c none → w.kernel.inside () t = true) →
      ∃ w', w.next (.thread t call) = .ok w'
  -- the holder of the lock may call each function; a signal is for the first in the line
  calls : ∀ t c, w.stage t = .outside → w.kernel.pc t = .outside → w.kernel.status t = .ready →
    w.kernel.holder () = some t →
    (∃ w', w.next (.thread t (.wait c)) = .ok w' ∧ w'.stage t = .append c) ∧
    (∀ n, (w.waiters c).head? = some n →
      ∃ w', w.next (.thread t (.signal c)) = .ok w' ∧ w'.signals t c n) ∧
    ∃ w', w.next (.thread t (.broadcast c)) = .ok w' ∧ w'.stage t = .broadcast c (w.issued c)
  -- whatever runs in between: `cond_signal` returns when the waiter it is for is signalled,
  signals : ∀ t c n, w.signals t c n → ∀ a w', w.next a = .ok w' → w'.signals t c n ∨
    (∃ upto, w'.stage t = .leave c upto) ∧ w.kernel.ups (.inl (c, n)) = 0 ∧
      w'.kernel.ups (.inl (c, n)) = 1
  -- `cond_broadcast` when everybody it is for is,
  broadcasts : ∀ t c upto, (w.stage t).upto = some (c, upto) → ∀ a w', w.next a = .ok w' →
    (w'.stage t).upto = some (c, upto) ∨
      w'.stage t = .outside ∧ ∀ n, n < upto → w'.kernel.ups (.inl (c, n)) = 1
  -- and `cond_wait` after its number is in the line, its semaphore is passed and the lock is held
  appends : ∀ t c, w.stage t = .append c → ∀ a w', w.next a = .ok w' → w'.stage t = .append c ∨
    w'.waitsOn t (c, w.issued c) ∧ w'.waiters c = w.waiters c ++ [w.issued c]
  waits : ∀ t k, w.waitsOn t k → ∀ a w', w.next a = .ok w' → w'.waitsOn t k ∨ w'.comesBack t k
  passes : ∀ t k call w', w.stage t = .relock k → w.kernel.pc t = .inDown (.inl k) →
    w.kernel.ups (.inl k) = 1 → w.next (.thread t call) = .ok w' → w'.comesBack t k
  back : ∀ t k, w.comesBack t k → ∀ a w', w.next a = .ok w' → w'.comesBack t k ∨
    w'.stage t = .outside ∧ w'.kernel.holder () = some t

theorem monitorLaw_of_reachable [Fintype ι] {w : CondWorld γ ι} (h : (monitor γ ι).Reachable w) :
    MonitorLaw w := by
  have inv := inv_of_reachable h
  have locks := lock_law_of_reachable inv.kernel ()
  constructor
  case fifo => exact fun c => ⟨inv.tickets.bound c, inv.tickets.line c⟩
  case own =>
    intro t u k ht hu
    exact inv.tickets.unique t u k
      (ht.imp CondWorld.role_of_waitsOn CondWorld.role_of_comesBack)
      (hu.imp CondWorld.role_of_waitsOn CondWorld.role_of_comesBack)
  case raised => exact fun k => inv.raised
  case unraised => exact inv.tickets.unraised
  case signal =>
    intro a w' step
    obtain ⟨σ, steps⟩ := inv.taken step
    obtain same | ⟨u, k, role, not_up, more⟩ := inv.tickets.ups_turn steps.turn
    · exact .inl fun k => congrFun same k
    · obtain ⟨upto, here⟩ := CondWorld.raise_of_role role
      refine .inr ⟨u, k, upto, here, not_up, fun k' => ?_⟩
      exact (congrFun more k').trans (Function.update_apply ..)
  case able => exact fun t k waits => ⟨inv.value waits, inv.awake waits⟩
  case signalled =>
    intro t k back
    have used := (inv.tickets.passed t k (CondWorld.role_of_comesBack back)).2
    have downs : w.kernel.downs (.inl k) ≤ initialValue (fun _ => 0) (.inl k) + w.kernel.ups (.inl k) :=
      (law_of_reachable inv.kernel (.inl k)).downs
    have most := inv.tickets.ups_le k
    change w.kernel.downs (.inl k) = 1 at used
    change w.kernel.ups (.inl k) ≤ 1 at most
    have zero : initialValue (fun _ : Ticket γ => 0) (.inl k : Ticket γ ⊕ Unit) = 0 := rfl
    omega
  case returns =>
    intro t k here outside
    have place := inv.places t
    rw [here, outside] at place
    obtain ⟨eq | eq | eq, _⟩ | ⟨_, inside⟩ := place
    · cases eq
    · cases eq
    · cases eq
    · exact locks.holder_inside inside
  case broadcast => exact fun t c upto here empty n => inv.broadcast_done here empty
  case goes => exact fun t call ready called checked => inv.goes ready call called checked
  case calls =>
    exact fun t c here outside ready held =>
      CondWorld.call_ok here outside ready held (inv.held held outside) c
  case signals => exact fun t c n signals a w' step => inv.signals_step signals step
  case broadcasts => exact fun t c upto within a w' step => inv.broadcast_step within step
  case appends => exact fun t c here a w' step => inv.append_step here step
  case waits => exact fun t k waits a w' step => inv.waits_step waits step
  case passes => exact fun t k call w' here inDown up step => inv.passes here inDown up step
  case back => exact fun t k back a w' step => inv.back_step back step

/-- Three threads, one condition. -/
def sampleMonitor : CondWorld Unit (Fin 3) where
  kernel :=
    { sema := fun s => ⟨initialValue (fun _ => 0) s, []⟩
      holder := fun _ => none
      status := fun _ => .ready
      pc := fun _ => .outside
      ups := fun _ => 0
      downs := fun _ => 0
      inside := fun _ _ => false }
  waiters := fun _ => []
  issued := fun _ => 0
  popped := fun _ => 0
  stage := fun _ => .outside

/-- Thread `t` waits and sleeps, thread `u` waits and is between its `lock_release` and its
`sema_down`; then thread `v` signals. -/
def signalOne (t u v : ι) : List (CondLabel Unit ι) :=
  List.replicate 3 (.thread t (.synch (.acquire ()))) ++ List.replicate 6 (.thread t (.wait ())) ++
    List.replicate 3 (.thread u (.synch (.acquire ()))) ++ List.replicate 5 (.thread u (.wait ())) ++
    List.replicate 3 (.thread v (.synch (.acquire ()))) ++ List.replicate 5 (.thread v (.signal ()))

/-- It broadcasts and releases the lock, and thread `t` goes on. -/
def broadcastRest (t v : ι) : List (CondLabel Unit ι) :=
  List.replicate 7 (.thread v (.broadcast ())) ++ List.replicate 3 (.thread v (.synch (.release ()))) ++
    List.replicate 5 (.thread t (.wait ()))

/-- The signal is for thread 0, the broadcast for thread 1; thread 0 returns with the lock. -/
theorem monitorLaw_of_signalOne :
    (∃ w : CondWorld Unit (Fin 3), (w.stage 2 = .outside ∧ w.waiters () = [1] ∧
      w.kernel.ups (.inl ((), 0)) = 1 ∧ w.kernel.ups (.inl ((), 1)) = 0) ∧ MonitorLaw w) ∧
    ∃ w : CondWorld Unit (Fin 3), (w.stage 0 = .outside ∧ w.kernel.holder () = some 0 ∧
      w.stage 1 = .sleep ((), 1) ∧ w.waiters () = [] ∧ w.kernel.ups (.inl ((), 1)) = 1) ∧
      MonitorLaw w := by
  constructor
  · obtain ⟨w, reachable, holds⟩ := System.exists_reachable CondWorld.Start
      (fun (w : CondWorld Unit (Fin 3)) a => (w.next a).toOption)
      (fun w => decide (w.stage 2 = .outside ∧ w.waiters () = [1] ∧
        w.kernel.ups (.inl ((), 0)) = 1 ∧ w.kernel.ups (.inl ((), 1)) = 0))
      (s := sampleMonitor) ⟨⟨rfl, rfl, rfl, rfl, rfl, rfl⟩, rfl, rfl, rfl, rfl⟩ (signalOne 0 1 2) (by decide)
    exact ⟨w, of_decide_eq_true holds, monitorLaw_of_reachable reachable⟩
  · obtain ⟨w, reachable, holds⟩ := System.exists_reachable CondWorld.Start
      (fun (w : CondWorld Unit (Fin 3)) a => (w.next a).toOption)
      (fun w => decide (w.stage 0 = .outside ∧ w.kernel.holder () = some 0 ∧
        w.stage 1 = .sleep ((), 1) ∧ w.waiters () = [] ∧ w.kernel.ups (.inl ((), 1)) = 1))
      (s := sampleMonitor) ⟨⟨rfl, rfl, rfl, rfl, rfl, rfl⟩, rfl, rfl, rfl, rfl⟩
      (signalOne 0 1 2 ++ broadcastRest 0 2) (by decide)
    exact ⟨w, of_decide_eq_true holds, monitorLaw_of_reachable reachable⟩

end CS162.Synch
