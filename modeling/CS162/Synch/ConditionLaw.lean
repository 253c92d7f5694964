import CS162.Synch.Condition
import CS162.Library.TicketLine
import Mathlib.Data.Fintype.Basic

/-!
What condition variables keep. Seen as lines of tickets, a condition is served in
the order of the waits and each waiter is raised once. Where a thread is in
`cond_wait`, `cond_signal` or `cond_broadcast` says where it may be in the
semaphores and locks underneath, and who touches a list of waiters has the lock.
-/

namespace CS162.Synch
open CS162.Library
universe u x
variable {γ : Type u} {ι : Type x}

/-- Where in the semaphores and locks a thread at this stage may be, and whether it
has the lock. -/
def Stage.At : Stage γ → Pc (Ticket γ) Unit → Bool → Prop
  | .outside, pc, _ => ∀ k, pc ≠ .inDown (.inl k)
  | .signal _ none, pc, _ => pc = .outside
  | .sleep _, pc, inside => (pc = .release () ∨ pc = .released () ∨ pc = .outside) ∧ inside = false
  | .relock k, pc, inside => (pc = .inDown (.inl k) ∨ pc = .outside) ∧ inside = false
  | .back _, pc, inside =>
      (pc = .acquire () ∨ pc = .inDown (.inr ()) ∨ pc = .acquired ()) ∧ inside = false ∨
        pc = .outside ∧ inside = true
  | .append _, pc, inside | .unlock _, pc, inside | .signal _ (some _), pc, inside
  | .check _ _, pc, inside | .pop _ _, pc, inside | .raise _ _, pc, inside
  | .broadcast _ _, pc, inside => pc = .outside ∧ inside = true

/-- The broadcast that the thread is in. -/
def Stage.upto : Stage γ → Option (γ × Nat)
  | .signal c upto | .check c upto | .pop c upto | .raise (c, _) upto => upto.map fun n => (c, n)
  | .broadcast c n => some (c, n)
  | .outside | .append _ | .unlock _ | .sleep _ | .relock _ | .back _ => none

theorem Stage.leave_upto (c : γ) (upto : Option Nat) :
    (Stage.leave c upto).upto = upto.map fun n => (c, n) := by
  cases upto <;> rfl

theorem Stage.leave_at {c : γ} {upto : Option Nat} {pc : Pc (Ticket γ) Unit} {inside : Bool}
    (outside : pc = .outside) (locked : inside = true) : (Stage.leave c upto).At pc inside := by
  cases upto with
  | none =>
      intro k
      rw [outside]
      simp
  | some => exact ⟨outside, locked⟩

theorem Stage.leave_ne_pop (c c' : γ) (upto upto' : Option Nat) :
    Stage.leave c upto ≠ .pop c' upto' := by
  cases upto <;> simp [Stage.leave]

/-- Only `cond_wait` is inside the semaphore of a waiter. -/
theorem Stage.at_inDown {σ : Stage γ} {k : Ticket γ} {inside : Bool}
    (place : σ.At (.inDown (.inl k)) inside) : σ = .relock k ∧ inside = false := by
  cases σ with
  | outside => exact absurd rfl (place k)
  | relock k' =>
      obtain ⟨eq | eq, out⟩ := place
      · cases eq
        exact ⟨rfl, out⟩
      · cases eq
  | signal c upto => cases upto <;> simp [Stage.At] at place
  | sleep | back => simp [Stage.At] at place
  | append | unlock | check | pop | raise | broadcast => simp [Stage.At] at place

variable [DecidableEq γ]

/-- What the thread has to do with a ticket: past `sema_down` it has passed. -/
def Stage.role : Stage γ → Pc (Ticket γ) Unit → Role γ
  | .unlock k, _ | .sleep k, _ => .waits k
  | .relock k, pc => if pc = .outside then .passed k else .waits k
  | .back k, _ => .passed k
  | .raise k _, _ => .raises k
  | .outside, _ | .append _, _ | .signal _ _, _ | .check _ _, _ | .pop _ _, _
  | .broadcast _ _, _ => .none

theorem Stage.leave_role (c : γ) (upto : Option Nat) (pc : Pc (Ticket γ) Unit) :
    (Stage.leave c upto).role pc = .none := by
  cases upto <;> rfl

variable [DecidableEq ι]

/-- The thread that a step concerns. -/
def CondLabel.actor : CondLabel γ ι → ι
  | .thread t _ | .unblock t => t

namespace CondWorld

/-- The conditions as lines of tickets. -/
def tickets (w : CondWorld γ ι) : Tickets γ ι where
  line := w.waiters
  issued := w.issued
  popped := w.popped
  role t := (w.stage t).role (w.kernel.pc t)
  ups k := w.kernel.ups (.inl k)
  downs k := w.kernel.downs (.inl k)

structure Inv (w : CondWorld γ ι) : Prop where
  kernel : (Synch.kernel Unit ι fun _ => 0).Reachable w.kernel
  places : ∀ t, (w.stage t).At (w.kernel.pc t) (w.kernel.inside () t)
  idle : ∀ t, w.kernel.status t = .blocked → w.kernel.waits t ∨ w.stage t = .outside
  tickets : w.tickets.Law
  upto : ∀ t c n, (w.stage t).upto = some (c, n) → n ≤ w.issued c
  pops : ∀ t c upto, w.stage t = .pop c upto → w.waiters c ≠ []

variable {w w' : CondWorld γ ι} {t : ι} {σ : Stage γ}

/-- What a step of thread `t` to the stage `σ` has to show. -/
structure Steps (t : ι) (σ : Stage γ) (w w' : CondWorld γ ι) : Prop where
  reachable : (Synch.kernel Unit ι fun _ => 0).Reachable w'.kernel
  moved : Moved t w.kernel w'.kernel
  stage : w'.stage = Function.update w.stage t σ
  place : σ.At (w'.kernel.pc t) (w'.kernel.inside () t)
  idle : w'.kernel.status t = .ready ∨ w'.kernel.waits t ∨ σ = .outside
  turn : w.tickets.Turn w'.tickets
  issued : ∀ c, w.issued c ≤ w'.issued c
  upto : ∀ c n, σ.upto = some (c, n) → n ≤ w'.issued c
  pops : ∀ c upto, σ = .pop c upto → w'.waiters c ≠ []
  lists : w'.waiters = w.waiters ∨ w.kernel.inside () t = true

/-- What a step of thread `t` has shown. -/
def Taken (t : ι) (w w' : CondWorld γ ι) : Prop := ∃ σ, Steps t σ w w'

theorem Steps.taken (s : Steps t σ w w') : Taken t w w' := ⟨σ, s⟩

theorem Inv.step (h : Inv w) (s : Steps t σ w w') : Inv w' where
  kernel := s.reachable
  places u := by
    rw [s.stage]
    by_cases hu : u = t
    · subst hu
      rw [Function.update_self]
      exact s.place
    · rw [Function.update_of_ne hu, s.moved.pc u hu, s.moved.inside () u hu]
      exact h.places u
  idle u blocked := by
    by_cases hu : u = t
    · subst hu
      rw [s.stage, Function.update_self]
      obtain ready | idle := s.idle
      · rw [ready] at blocked
        cases blocked
      · exact idle
    · rw [s.stage, Function.update_of_ne hu]
      simp only [World.waits, s.moved.pc u hu]
      obtain same | ⟨_, ready, _⟩ := s.moved.status u hu
      · exact h.idle u (same.symm.trans blocked)
      · rw [ready] at blocked
        cases blocked
  tickets := h.tickets.turn s.turn
  upto u c n here := by
    by_cases hu : u = t
    · subst hu
      rw [s.stage, Function.update_self] at here
      exact s.upto c n here
    · rw [s.stage, Function.update_of_ne hu] at here
      exact (h.upto u c n here).trans (s.issued c)
  pops u c upto here := by
    by_cases hu : u = t
    · subst hu
      rw [s.stage, Function.update_self] at here
      exact s.pops c upto here
    · rw [s.stage, Function.update_of_ne hu] at here
      obtain same | locked := s.lists
      · rw [same]
        exact h.pops u c upto here
      · -- both threads would have the lock
        have place := h.places u
        rw [here] at place
        exact absurd ((lock_law_of_reachable h.kernel ()).exclusive (.inl place.2) (.inl locked)) hu

theorem tickets_role (moved : Moved t w.kernel w'.kernel)
    (stage : w'.stage = Function.update w.stage t σ) :
    w'.tickets.role = Function.update w.tickets.role t (σ.role (w'.kernel.pc t)) := by
  funext u
  by_cases hu : u = t
  · subst hu
    simp only [tickets, stage, Function.update_self]
  · simp only [tickets, stage, Function.update_of_ne hu, moved.pc u hu]

/-- The semaphores of waiters are as they were. -/
structure Quiet (w w' : CondWorld γ ι) : Prop where
  waiters : w'.waiters = w.waiters
  issued : w'.issued = w.issued
  popped : w'.popped = w.popped
  ups : ∀ k, w'.kernel.ups (.inl k) = w.kernel.ups (.inl k)
  downs : ∀ k, w'.kernel.downs (.inl k) = w.kernel.downs (.inl k)

omit [DecidableEq ι] in
theorem Quiet.tickets (q : Quiet w w') :
    w'.tickets = { w.tickets with role := w'.tickets.role } := by
  simp only [CondWorld.tickets, q.waiters, q.issued, q.popped, q.ups, q.downs]

theorem Quiet.turn (q : Quiet w w') (moved : Moved t w.kernel w'.kernel)
    (stage : w'.stage = Function.update w.stage t σ)
    (role : σ.role (w'.kernel.pc t) = (w.stage t).role (w.kernel.pc t)) :
    w.tickets.Turn w'.tickets := by
  have same : w'.tickets = w.tickets := by
    rw [q.tickets, tickets_role moved stage, role]
    exact congrArg (fun role => { w.tickets with role }) (Function.update_eq_self t _)
  rw [same]
  exact .same

theorem Quiet.leave (q : Quiet w w') (moved : Moved t w.kernel w'.kernel)
    (stage : w'.stage = Function.update w.stage t σ) (role : σ.role (w'.kernel.pc t) = .none)
    (idle : ∀ k, (w.stage t).role (w.kernel.pc t) ≠ .raises k) : w.tickets.Turn w'.tickets := by
  rw [q.tickets, tickets_role moved stage, role]
  exact .leave t idle

theorem Inv.held (h : Inv w) (held : w.kernel.lockHeldByCurrentThread t ())
    (outside : w.kernel.pc t = .outside) : w.kernel.inside () t = true := by
  have has := has_of_hasLock.mp ((lock_law_of_reachable h.kernel ()).has_of_holder held)
  simpa [World.hasLock, outside] using has

theorem Inv.goto (h : Inv w) (ready : w.kernel.status t = .ready)
    (place : σ.At (w.kernel.pc t) (w.kernel.inside () t))
    (role : σ.role (w.kernel.pc t) = .none)
    (idle : ∀ k, (w.stage t).role (w.kernel.pc t) ≠ .raises k)
    (upto : ∀ c n, σ.upto = some (c, n) → n ≤ w.issued c)
    (pops : ∀ c upto, σ = .pop c upto → w.waiters c ≠ []) : Taken t w (w.goto t σ) := by
  have moved : Moved t w.kernel w.kernel := .frame rfl rfl rfl
  have quiet : Quiet w (w.goto t σ) := ⟨rfl, rfl, rfl, fun _ => rfl, fun _ => rfl⟩
  exact Steps.taken (t := t) ⟨h.kernel, moved, rfl, place, .inl ready, quiet.leave moved rfl role idle,
    fun _ => Nat.le_refl _, upto, pops, .inl rfl⟩

theorem Inv.assertHeld (h : Inv w) (ready : w.kernel.status t = .ready)
    (outside : w.kernel.pc t = .outside)
    (place : w.kernel.inside () t = true → σ.At (w.kernel.pc t) (w.kernel.inside () t))
    (role : σ.role (w.kernel.pc t) = .none)
    (idle : ∀ k, (w.stage t).role (w.kernel.pc t) ≠ .raises k)
    (upto : ∀ c n, σ.upto = some (c, n) → n ≤ w.issued c)
    (pops : ∀ c upto, σ ≠ .pop c upto) (step : w.assertHeld t σ = .ok w') : Taken t w w' := by
  simp only [CondWorld.assertHeld] at step
  split at step <;> cases step
  next held =>
    exact h.goto ready (place (h.held held outside)) role idle upto fun c upto eq => absurd eq (pops c upto)

theorem synch_ok {call : Call (Ticket γ) Unit} (step : w.synch t call σ = .ok w') :
    ∃ k, w.kernel.call t call = .ok k ∧ w' = { w.goto t σ with kernel := k } := by
  simp only [synch] at step
  cases called : w.kernel.call t call with
  | error =>
      rw [called] at step
      cases step
  | ok k =>
      rw [called] at step
      cases step
      exact ⟨k, rfl, rfl⟩

theorem ordinary_call {call : Call (Ticket γ) Unit} {k : World (Ticket γ) Unit ι}
    (ordinary : call.ordinary = true) (outside : w.kernel.pc t = .outside)
    (called : w.kernel.call t call = .ok k) :
    k.ups = w.kernel.ups ∧ k.downs = w.kernel.downs ∧ ∀ s, k.pc t ≠ .inDown s := by
  cases call with
  | down => cases ordinary
  | tryDown => cases ordinary
  | up => cases ordinary
  | acquire =>
      simp only [World.call] at called
      split at called <;> cases called
      refine ⟨rfl, rfl, fun s => ?_⟩
      rw [World.goto_pc_self]
      simp
  | tryAcquire =>
      simp only [World.call] at called
      split at called <;> cases called
      refine ⟨rfl, rfl, fun s => ?_⟩
      rw [World.goto_pc_self]
      simp
  | release =>
      simp only [World.call] at called
      split at called <;> cases called
      refine ⟨rfl, rfl, fun s => ?_⟩
      rw [World.goto_pc_self]
      simp
  | block =>
      cases called
      refine ⟨rfl, rfl, fun s => ?_⟩
      simp [World.threadBlock, outside]

theorem Inv.push (h : Inv w) (ready : w.kernel.status t = .ready) {c : γ}
    (here : w.stage t = .append c) : Taken t w (w.push t c) := by
  have place := h.places t
  rw [here] at place
  have moved : Moved t w.kernel (w.push t c).kernel := .frame rfl rfl rfl
  refine Steps.taken (t := t) ⟨h.kernel, moved, rfl, place, .inl ready, ?_, fun c' => ?_, ?_, ?_, .inr place.2⟩
  · have role : (w.push t c).tickets.role =
        Function.update w.tickets.role t (.waits (c, w.issued c)) := tickets_role moved rfl
    have after : (w.push t c).tickets = { w.tickets with
        line := Function.update w.waiters c (w.waiters c ++ [w.issued c]),
        issued := Function.update w.issued c (w.issued c + 1),
        role := (w.push t c).tickets.role } := rfl
    rw [after, role]
    apply Tickets.Turn.draw (a := w.tickets) t c
    simp only [CondWorld.tickets, here]
    rfl
  · exact Tickets.le_count w.issued c c'
  · intro c' n eq
    cases eq
  · intro c' upto eq
    cases eq

theorem Inv.popFront (h : Inv w) (ready : w.kernel.status t = .ready) {c : γ} {upto : Option Nat}
    (here : w.stage t = .pop c upto) (step : w.popFront t c upto = .ok w') : Taken t w w' := by
  simp only [CondWorld.popFront] at step
  split at step <;> cases step
  next n rest first =>
    have place := h.places t
    rw [here] at place
    generalize after : ({ w.goto t (.raise (c, n) upto) with
      waiters := Function.update w.waiters c rest,
      popped := Function.update w.popped c (w.popped c + 1) } : CondWorld γ ι) = v
    have stage : v.stage = Function.update w.stage t (.raise (c, n) upto) := by
      rw [← after]
      rfl
    have kernel : v.kernel = w.kernel := by
      rw [← after]
      rfl
    have issued : v.issued = w.issued := by
      rw [← after]
      rfl
    have moved : Moved t w.kernel v.kernel := by
      rw [kernel]
      exact .frame rfl rfl rfl
    refine Steps.taken (t := t) ⟨?_, moved, stage, ?_, ?_, ?_, ?_, ?_, ?_, .inr place.2⟩
    · rw [kernel]
      exact h.kernel
    · rw [kernel]
      exact place
    · rw [kernel]
      exact .inl ready
    · have role := tickets_role moved stage
      have eq : v.tickets = { w.tickets with
          line := Function.update w.waiters c rest,
          popped := Function.update w.popped c (w.popped c + 1),
          role := v.tickets.role } := by
        rw [← after]
        rfl
      rw [eq, role]
      apply Tickets.Turn.pop (a := w.tickets) t c n rest _ first
      simp only [CondWorld.tickets, here]
      rfl
    · intro c'
      rw [issued]
    · intro c' m eq
      rw [issued]
      apply h.upto t c' m
      rw [here]
      exact eq
    · intro c' upto' eq
      cases eq

theorem Inv.unblock (h : Inv w) {k : World (Ticket γ) Unit ι}
    (step : w.kernel.next (.unblock t) = .ok k) : Taken t w { w with kernel := k } := by
  have reachable := h.kernel.step (a := .unblock t) (toOption_some.mpr step)
  simp only [World.next, World.threadUnblock] at step
  split at step
  · cases step
  split at step <;> cases step
  have moved : Moved t w.kernel
      { w.kernel with status := Function.update w.kernel.status t .ready } :=
    ⟨fun _ _ => rfl, fun _ _ _ => rfl, fun _ hu => .inl (Function.update_of_ne hu ..)⟩
  have stays : w.stage = Function.update w.stage t (w.stage t) := (Function.update_eq_self t _).symm
  have quiet : Quiet w
      { w with kernel := { w.kernel with status := Function.update w.kernel.status t .ready } } :=
    ⟨rfl, rfl, rfl, fun _ => rfl, fun _ => rfl⟩
  exact Steps.taken (t := t) ⟨reachable, moved, stays, h.places t, .inl (Function.update_self ..),
    quiet.turn moved stays rfl, fun _ => Nat.le_refl _, h.upto t, h.pops t, .inl rfl⟩

section Kernel
variable [Fintype ι]

theorem Inv.called (h : Inv w) (ready : w.kernel.status t = .ready)
    (outside : w.kernel.pc t = .outside) {call : Call (Ticket γ) Unit}
    {k : World (Ticket γ) Unit ι} (called : w.kernel.call t call = .ok k) :
    (Synch.kernel Unit ι fun _ => 0).Reachable k ∧ Moved t w.kernel k := by
  have advance : w.kernel.advance t call = .ok k := by
    simp only [World.advance, outside]
    exact called
  exact ⟨reachable_advance h.kernel ready advance,
    moved_advance (law_of_reachable h.kernel) advance⟩

theorem Inv.ordinary (h : Inv w) (ready : w.kernel.status t = .ready)
    (outside : w.kernel.pc t = .outside) (here : w.stage t = .outside)
    {call : Call (Ticket γ) Unit} (ordinary : call.ordinary = true)
    (step : w.synch t call .outside = .ok w') : Taken t w w' := by
  obtain ⟨k, called, rfl⟩ := synch_ok step
  obtain ⟨reachable, moved⟩ := h.called ready outside called
  obtain ⟨ups, downs, out⟩ := ordinary_call ordinary outside called
  have quiet : Quiet w { w.goto t .outside with kernel := k } :=
    ⟨rfl, rfl, rfl, fun _ => congrFun ups _, fun _ => congrFun downs _⟩
  refine Steps.taken (t := t) ⟨reachable, moved, rfl, fun s => out (.inl s), .inr (.inr rfl),
    quiet.turn moved rfl ?_, fun _ => Nat.le_refl _, ?_, ?_, .inl rfl⟩
  · rw [here]
    rfl
  · intro c n eq
    cases eq
  · intro c upto eq
    cases eq

/-- The semaphore of ticket `k` as the tickets see it. -/
theorem update_inl (f : Ticket γ ⊕ Unit → Nat) (k : Ticket γ) (n : Nat) :
    (fun k' => Function.update f (.inl k) n (.inl k')) =
      Function.update (fun k' => f (.inl k')) k n :=
  Function.update_comp_eq_of_injective f Sum.inl_injective k n

omit [Fintype ι] in
/-- `sema_down` on the waiter's own semaphore, first turn or later. -/
theorem taken_down (ready : w.kernel.status t = .ready) {k : Ticket γ}
    (waits : (w.stage t).role (w.kernel.pc t) = .waits k)
    (out : w.kernel.inside () t = false)
    (reachable : (Synch.kernel Unit ι fun _ => 0).Reachable (w.kernel.downTurn t (.inl k))) :
    Taken t w { w.goto t (.relock k) with kernel := w.kernel.downTurn t (.inl k) } := by
  generalize after : ({ w.goto t (.relock k) with kernel := w.kernel.downTurn t (.inl k) } :
    CondWorld γ ι) = v
  have kernel : v.kernel = w.kernel.downTurn t (.inl k) := by
    rw [← after]
  have stage : v.stage = Function.update w.stage t (.relock k) := by
    rw [← after]
    rfl
  have moved : Moved t w.kernel v.kernel := by
    rw [kernel]
    exact moved_downTurn
  have frame := downTurn_frame (w := w.kernel) (t := t) (s := .inl k)
  have lists : v.waiters = w.waiters ∧ v.issued = w.issued ∧ v.popped = w.popped := by
    rw [← after]
    exact ⟨rfl, rfl, rfl⟩
  have ups : ∀ k', v.kernel.ups (.inl k') = w.kernel.ups (.inl k') := by
    intro k'
    rw [kernel, frame.1]
  have out' : v.kernel.inside () t = false := by
    rw [kernel, frame.2]
    exact out
  have cases := downTurn_cases w.kernel t (.inl k)
  rw [← kernel] at reachable cases
  obtain ⟨_, sleeps, same⟩ | ⟨_, past, used, status⟩ := cases
  · have quiet : Quiet w v := ⟨lists.1, lists.2.1, lists.2.2, ups, fun k' => congrFun same _⟩
    refine Steps.taken (t := t) ⟨reachable, moved, stage, ⟨.inl sleeps, out'⟩, .inr (.inl ⟨_, sleeps⟩),
      quiet.turn moved stage ?_, fun c => ?_, ?_, ?_, .inl lists.1⟩
    · rw [waits, sleeps]
      simp [Stage.role]
    · rw [lists.2.1]
    · intro c n eq
      cases eq
    · intro c upto eq
      cases eq
  · have outside : v.kernel.pc t = .outside := past
    refine Steps.taken (t := t) ⟨reachable, moved, stage, ⟨.inr outside, out'⟩,
      .inl ((congrFun status t).trans ready), ?_, fun c => ?_, ?_, ?_, .inl lists.1⟩
    · have role := tickets_role moved stage
      have downs : (fun k' => v.kernel.downs (.inl k')) =
          Function.update (fun k' => w.kernel.downs (.inl k')) k (w.kernel.downs (.inl k) + 1) := by
        rw [used]
        exact update_inl w.kernel.downs k _
      have eq : v.tickets = { w.tickets with
          downs := Function.update w.tickets.downs k (w.tickets.downs k + 1),
          role := Function.update w.tickets.role t (.passed k) } := by
        rw [outside] at role
        simp only [Stage.role, if_true] at role
        rw [← role]
        simp only [CondWorld.tickets, lists, ups, downs]
      rw [eq]
      exact .pass t k waits
    · rw [lists.2.1]
    · intro c n eq
      cases eq
    · intro c upto eq
      cases eq

theorem Inv.sleep (h : Inv w) (ready : w.kernel.status t = .ready)
    (outside : w.kernel.pc t = .outside) {k : Ticket γ} (here : w.stage t = .sleep k)
    (step : w.synch t (.down k) (.relock k) = .ok w') : Taken t w w' := by
  obtain ⟨k', called, rfl⟩ := synch_ok step
  have reachable := (h.called ready outside called).1
  have place := h.places t
  rw [here] at place
  cases called
  apply taken_down ready _ place.2 reachable
  rw [here]
  rfl

theorem Inv.raise (h : Inv w) (ready : w.kernel.status t = .ready)
    (outside : w.kernel.pc t = .outside) {k : Ticket γ} {upto : Option Nat}
    (here : w.stage t = .raise k upto)
    (step : w.synch t (.up k) (.leave k.1 upto) = .ok w') : Taken t w w' := by
  obtain ⟨k', called, after⟩ := synch_ok step
  obtain ⟨reachable, moved⟩ := h.called ready outside called
  have place := h.places t
  rw [here] at place
  have counts := counts_upCall (t := t) called
  have frame := World.upCall_frame called
  have kernel : w'.kernel = k' := by rw [after]
  have stage : w'.stage = Function.update w.stage t (.leave k.1 upto) := by
    rw [after]
    rfl
  have lists : w'.waiters = w.waiters ∧ w'.issued = w.issued ∧ w'.popped = w.popped := by
    rw [after]
    exact ⟨rfl, rfl, rfl⟩
  rw [← kernel] at reachable moved counts frame
  have inside : w'.kernel.inside () t = true := by
    rw [frame.2.2]
    exact place.2
  refine Steps.taken (t := t) ⟨reachable, moved, stage,
    Stage.leave_at ((congrFun frame.1 t).trans outside) inside, .inl (counts.2.2 ready), ?_,
    fun c => ?_, fun c n eq => ?_, fun c upto' eq => ?_, .inl lists.1⟩
  · have role := tickets_role moved stage
    have ups : (fun k' => w'.kernel.ups (.inl k')) =
        Function.update (fun k' => w.kernel.ups (.inl k')) k (w.kernel.ups (.inl k) + 1) := by
      rw [counts.1]
      exact update_inl w.kernel.ups k _
    have eq : w'.tickets = { w.tickets with
        ups := Function.update w.tickets.ups k (w.tickets.ups k + 1),
        role := Function.update w.tickets.role t .none } := by
      rw [Stage.leave_role] at role
      rw [← role]
      simp only [CondWorld.tickets, lists, ups, counts.2.1]
    rw [eq]
    apply Tickets.Turn.raise (a := w.tickets) t k
    simp only [CondWorld.tickets, here]
    rfl
  · rw [lists.2.1]
  · rw [Stage.leave_upto] at eq
    rw [lists.2.1]
    apply h.upto t c n
    rw [here]
    exact eq
  · exact absurd eq (Stage.leave_ne_pop k.1 c upto upto')

/-- The steps of `cond_wait` around the sleep: the lock is released, then acquired. -/
theorem Inv.unlock (h : Inv w) (ready : w.kernel.status t = .ready)
    (outside : w.kernel.pc t = .outside) {k : Ticket γ} (here : w.stage t = .unlock k)
    (step : w.synch t (.release ()) (.sleep k) = .ok w') : Taken t w w' := by
  obtain ⟨k', called, rfl⟩ := synch_ok step
  obtain ⟨reachable, moved⟩ := h.called ready outside called
  simp only [World.call] at called
  split at called <;> cases called
  refine Steps.taken (t := t) ⟨reachable, moved, rfl, ⟨.inl World.goto_pc_self, ?_⟩, .inl ready,
    Quiet.turn (w := w) (t := t) ⟨rfl, rfl, rfl, fun _ => rfl, fun _ => rfl⟩ moved rfl ?_,
    fun _ => Nat.le_refl _, ?_, ?_, .inl rfl⟩
  · simp [World.goto, World.setInside]
  · rw [here]
    rfl
  · intro c n eq
    cases eq
  · intro c upto eq
    cases eq

theorem Inv.relock (h : Inv w) (ready : w.kernel.status t = .ready)
    (outside : w.kernel.pc t = .outside) {k : Ticket γ} (here : w.stage t = .relock k)
    (step : w.synch t (.acquire ()) (.back k) = .ok w') : Taken t w w' := by
  obtain ⟨k', called, rfl⟩ := synch_ok step
  obtain ⟨reachable, moved⟩ := h.called ready outside called
  have place := h.places t
  rw [here] at place
  simp only [World.call] at called
  split at called <;> cases called
  refine Steps.taken (t := t) ⟨reachable, moved, rfl, .inl ⟨.inl World.goto_pc_self, place.2⟩, .inl ready,
    Quiet.turn (w := w) (t := t) ⟨rfl, rfl, rfl, fun _ => rfl, fun _ => rfl⟩ moved rfl ?_,
    fun _ => Nat.le_refl _, ?_, ?_, .inl rfl⟩
  · rw [here, outside]
    simp [Stage.role]
  · intro c n eq
    cases eq
  · intro c upto eq
    cases eq

theorem Inv.advance (h : Inv w) (ready : w.kernel.status t = .ready)
    (outside : w.kernel.pc t = .outside) {call : CondCall γ} (step : w.advance t call = .ok w') :
    Taken t w w' := by
  have place := h.places t
  have old := h.upto t
  simp only [CondWorld.advance] at step
  split at step
  next here =>
    have idle : ∀ k, (w.stage t).role (w.kernel.pc t) ≠ .raises k := by simp [here, Stage.role]
    cases call with
    | synch call =>
        simp only [CondWorld.call] at step
        split at step
        next ordinary => exact h.ordinary ready outside here ordinary step
        next => cases step
    | wait c =>
        exact h.assertHeld (σ := .append c) ready outside (fun locked => ⟨outside, locked⟩) rfl idle
          (fun c n eq => by cases eq) (fun c upto eq => by cases eq) step
    | signal c =>
        cases step
        exact h.goto ready outside rfl idle (fun c n eq => by cases eq) (fun c upto eq => by cases eq)
    | broadcast c =>
        simp only [CondWorld.call] at step
        split at step <;> cases step
        next held =>
          refine h.goto ready ⟨outside, h.held held outside⟩ rfl idle ?_ (fun c upto eq => by cases eq)
          intro c' n eq
          cases eq
          exact Nat.le_refl _
  next c here =>
    cases step
    exact h.push ready here
  next k here => exact h.unlock ready outside here step
  next k here => exact h.sleep ready outside here step
  next k here => exact h.relock ready outside here step
  next k here =>
    cases step
    refine h.goto ready ?_ rfl ?_ (fun c n eq => by cases eq) (fun c upto eq => by cases eq)
    · intro k'
      rw [outside]
      simp
    · simp [here, Stage.role]
  next c upto here =>
    rw [here] at old
    exact h.assertHeld (σ := .check c upto) ready outside (fun locked => ⟨outside, locked⟩) rfl
      (by simp [here, Stage.role]) old (fun c upto eq => by cases eq) step
  next c upto here =>
    rw [here] at place old
    have idle : ∀ k, (w.stage t).role (w.kernel.pc t) ≠ .raises k := by simp [here, Stage.role]
    split at step <;> cases step
    next =>
      refine h.goto ready (Stage.leave_at place.1 place.2) (Stage.leave_role ..) idle ?_
        fun c' upto' eq => absurd eq (Stage.leave_ne_pop c c' upto upto')
      rw [Stage.leave_upto]
      exact old
    next some =>
      refine h.goto ready place rfl idle old fun c' upto' eq => ?_
      cases eq
      simpa using some
  next c upto here => exact h.popFront ready here step
  next k upto here => exact h.raise ready outside here step
  next c upto here =>
    rw [here] at place old
    have idle : ∀ k, (w.stage t).role (w.kernel.pc t) ≠ .raises k := by simp [here, Stage.role]
    split at step <;> cases step
    next =>
      refine h.goto ready ?_ rfl idle (fun c n eq => by cases eq) (fun c upto eq => by cases eq)
      intro k
      rw [outside]
      simp
    next => exact h.goto ready place rfl idle old (fun c upto eq => by cases eq)

theorem Inv.inner (h : Inv w) (ready : w.kernel.status t = .ready)
    (busy : w.kernel.pc t ≠ .outside) {k : World (Ticket γ) Unit ι}
    (advance : w.kernel.advance t .block = .ok k) : Taken t w { w with kernel := k } := by
  have reachable := reachable_advance h.kernel ready advance
  have moved := moved_advance (law_of_reachable h.kernel) advance
  have place := h.places t
  have stays : w.stage = Function.update w.stage t (w.stage t) := (Function.update_eq_self t _).symm
  have old := h.upto t
  have pops := h.pops t
  -- at the stages but one, only the lock's functions may be going on
  by_cases plain : ∀ k', w.kernel.pc t ≠ .inDown (.inl k')
  · have onward := onward_of_advance ready busy plain advance
    have quiet : Quiet w { w with kernel := k } := ⟨rfl, rfl, rfl, onward.ups, onward.downs⟩
    have idle : k.status t = .ready ∨ k.waits t ∨ w.stage t = .outside := by
      rcases onward.awake with awake | waits
      · exact .inl awake
      · exact .inr (.inl waits)
    have steps (at_t : (w.stage t).At (k.pc t) (k.inside () t))
        (role : (w.stage t).role (k.pc t) = (w.stage t).role (w.kernel.pc t)) :
        Taken t w { w with kernel := k } :=
      Steps.taken (t := t) ⟨reachable, moved, stays, at_t, idle, quiet.turn moved stays role,
        fun _ => Nat.le_refl _, old, pops, .inl rfl⟩
    cases here : w.stage t with
    | outside =>
        rw [here] at steps
        exact steps onward.out rfl
    | sleep k' =>
        rw [here] at steps place
        apply steps _ rfl
        rcases place.1 with eq | eq | eq
        · obtain ⟨now, same⟩ := onward.releasing () eq
          rw [same]
          exact ⟨.inr (.inl now), place.2⟩
        · obtain ⟨now, same⟩ := onward.leaving () eq
          rw [same]
          exact ⟨.inr (.inr now), place.2⟩
        · exact absurd eq busy
    | relock k' =>
        rw [here] at place
        rcases place.1 with eq | eq
        · exact absurd eq (plain k')
        · exact absurd eq busy
    | back k' =>
        rw [here] at steps place
        apply steps _ rfl
        rcases place with ⟨eq | eq | eq, out⟩ | ⟨eq, _⟩
        · obtain ⟨now, same⟩ := onward.acquiring () (.inl eq)
          rw [same]
          exact .inl ⟨.inr now, out⟩
        · obtain ⟨now, same⟩ := onward.acquiring () (.inr eq)
          rw [same]
          exact .inl ⟨.inr now, out⟩
        · obtain ⟨now, inside⟩ := onward.entering () eq
          refine .inr ⟨now, ?_⟩
          rw [inside, Function.update_self, Function.update_self]
        · exact absurd eq busy
    | signal c upto =>
        rw [here] at place
        cases upto with
        | none => exact absurd place busy
        | some => exact absurd place.1 busy
    | append c | unlock k' | check c upto | pop c upto | raise k' upto | broadcast c upto =>
        rw [here] at place
        exact absurd place.1 busy
  · simp only [ne_eq, not_forall, not_not] at plain
    obtain ⟨k', inDown⟩ := plain
    rw [inDown] at place
    have here := Stage.at_inDown place
    have turn : w.kernel.advance t .block = .ok (w.kernel.downTurn t (.inl k')) := by
      simp only [World.advance, inDown]
    rw [turn] at advance
    cases advance
    have down := taken_down ready (k := k') (by simp [here.1, inDown, Stage.role]) here.2 reachable
    simp only [CondWorld.goto] at down
    rw [← here.1, Function.update_eq_self] at down
    exact down

theorem Inv.taken (h : Inv w) {a : CondLabel γ ι} (step : w.next a = .ok w') :
    Taken a.actor w w' := by
  cases a with
  | thread t call =>
      simp only [CondWorld.next] at step
      split at step
      · cases step
      next awake =>
        have ready := World.status_ready awake
        split at step
        next outside => exact h.advance ready outside step
        next busy =>
          split at step <;> cases step
          next k advance => exact h.inner ready busy advance
  | unblock t =>
      simp only [CondWorld.next] at step
      split at step <;> cases step
      next k unblocked => exact h.unblock unblocked

end Kernel

theorem inv_start (h : Start w) : Inv w where
  kernel := .init h.kernel
  places t := by
    rw [h.stage, h.kernel.pc]
    intro k
    simp
  idle t _ := .inr (by rw [h.stage])
  tickets := by
    have eq : w.tickets = ⟨fun _ => [], fun _ => 0, fun _ => 0, fun _ => .none, fun _ => 0, fun _ => 0⟩ := by
      simp only [tickets, h.waiters, h.issued, h.popped, h.stage, h.kernel.ups, h.kernel.downs]
      rfl
    rw [eq]
    exact .init
  upto t c n here := by
    rw [h.stage] at here
    cases here
  pops t c upto here := by
    rw [h.stage] at here
    cases here

end CondWorld

theorem inv_of_reachable [Fintype ι] {w : CondWorld γ ι} (h : (monitor γ ι).Reachable w) :
    w.Inv := by
  apply h.invariant (I := CondWorld.Inv)
  · exact fun w start => CondWorld.inv_start start
  · intro w a w' inv step
    obtain ⟨σ, steps⟩ := inv.taken (toOption_some.mp step)
    exact inv.step steps

end CS162.Synch
