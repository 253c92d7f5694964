import CS162.HttpServer.WorkQueueInvariant
import Mathlib.Logic.Relation

/-!
The law of the work queue: what is pushed is returned once, in the order of the pushes,
by calls of `wq_pop` that nothing holds up once they have found an item, and nobody waits
in vain.
-/

namespace CS162.HttpServer.WorkQueue
open CS162.Library
universe u
variable {ι : Type u} {s s' : State ι} {t u : ι} {fd : Int}

/-- The thread's `wq_pop` has the mutex and has found an item. -/
def State.popping (s : State ι) (t : ι) (fd : Int) : Prop :=
  s.pc t = .popLocked ∧ s.items.head? = some fd ∨ s.pc t = .popRead fd ∨ s.pc t = .popCounted fd ∨
    s.pc t = .popDeleted fd

/-- How many steps a thread with the mutex has to go before it unlocks it. -/
def Pc.left : Pc → Nat
  | .pushLocked _ | .popLocked => 4
  | .pushLinked | .popRead _ => 3
  | .pushCounted | .popCounted _ => 2
  | .pushBroadcast | .popDeleted _ => 1
  | .idle | .accepted _ | .popCalled | .popWaiting | .popWoken | .serving _ | .crashed => 0

variable [DecidableEq ι] {listener : Int}

/-- Any number of steps, of whatever threads. -/
def Steps : State ι → State ι → Prop := Relation.ReflTransGen fun s s' => ∃ t, Step s t s'

theorem move_pc {p : Pc} : (s.move t p).pc t = p := Function.update_self ..

section Progress

theorem Inv.apart (h : Inv listener s) (mine : s.mutex = some t) (step : Step s u s') (other : u ≠ t) :
    s'.pc t = s.pc t ∧ s'.items = s.items := by
  have outside (inside : (s.pc u).critical = true) : False := by
    have held := (h.excludes u).mp inside
    rw [mine] at held
    exact other (Option.some.inj held).symm
  have stays (p : Pc) : (s.move u p).pc t = s.pc t := Function.update_of_ne other.symm ..
  cases step with
  | accept | pop | spurious | close | leave => exact ⟨stays _, rfl⟩
  | lock p waits free =>
      rw [mine] at free
      cases free
  | link fd here | countUp here | broadcast here | pushed here | wait here | read fd here | crash here
  | countDown fd here | delete fd here | crashDelete fd here | popped fd here =>
      exact (outside (by rw [here]; rfl)).elim

theorem Inv.inside_step (h : Inv listener s) (mine : s.mutex = some t) :
    (∃ s', Step s t s') ∧ ∀ s', Step s t s' → s'.mutex = none ∨
      s'.mutex = some t ∧ (s'.pc t).left < (s.pc t).left := by
  have place := h.inside t mine
  have critical := (h.excludes t).mpr mine
  constructor
  · cases here : s.pc t with
    | idle | accepted | popCalled | popWaiting | popWoken | serving =>
        rw [here] at critical
        cases critical
    | pushLocked fd => exact ⟨_, .link fd here⟩
    | pushLinked => exact ⟨_, .countUp here⟩
    | pushCounted => exact ⟨_, .broadcast here⟩
    | pushBroadcast => exact ⟨_, .pushed here⟩
    | popLocked =>
        by_cases empty : s.size = 0
        · exact ⟨_, .wait here empty⟩
        · cases head : s.items.head? with
          | none => exact ⟨_, .crash here empty head⟩
          | some fd => exact ⟨_, .read fd here empty head⟩
    | popRead fd => exact ⟨_, .countDown fd here⟩
    | popCounted fd =>
        by_cases empty : s.items = []
        · exact ⟨_, .crashDelete fd here empty⟩
        · exact ⟨_, .delete fd here empty⟩
    | popDeleted fd => exact ⟨_, .popped fd here⟩
    | crashed =>
        rw [here] at place
        exact place.elim
  · intro s' step
    cases step with
    | accept fd here | pop here | spurious here | close fd here | leave fd here =>
        rw [here] at critical
        cases critical
    | lock p waits free =>
        rw [mine] at free
        cases free
    | pushed here | wait here | popped fd here => exact .inl rfl
    | link fd here | countUp here | read fd here | countDown fd here | delete fd here | crash here
    | crashDelete fd here =>
        refine .inr ⟨mine, ?_⟩
        change ((s.move t _).pc t).left < _
        rw [move_pc, here]
        simp [Pc.left]
    | broadcast here =>
        refine .inr ⟨mine, ?_⟩
        simp only [Function.update_self, here]
        decide

end Progress

section Drain

theorem pushed_grows (step : Step s t s') : s.pushed <+: s'.pushed := by
  cases step with
  | link fd => exact List.prefix_append ..
  | _ => exact List.prefix_rfl

theorem reachable_steps (h : (system ι listener).Reachable s) (steps : Steps s s') :
    (system ι listener).Reachable s' ∧ s.pushed <+: s'.pushed := by
  induction steps with
  | refl => exact ⟨h, List.prefix_rfl⟩
  | tail _ last ih =>
      obtain ⟨t, step⟩ := last
      exact ⟨ih.1.step step, ih.2.trans (pushed_grows step)⟩

theorem exists_free (h : (system ι listener).Reachable s) : ∃ s', Steps s s' ∧ s'.mutex = none := by
  cases mutex : s.mutex with
  | none => exact ⟨s, .refl, mutex⟩
  | some t =>
      generalize left : (s.pc t).left = n
      induction n using Nat.strong_induction_on generalizing s with
      | h n ih =>
          obtain ⟨⟨s₁, step⟩, gives⟩ := (inv_of_reachable h).inside_step mutex
          obtain free | ⟨mine, less⟩ := gives s₁ step
          · exact ⟨s₁, .single ⟨t, step⟩, free⟩
          · obtain ⟨s', steps, free⟩ := ih _ (left ▸ less) (h.step step) mine rfl
            exact ⟨s', .head ⟨t, step⟩ steps, free⟩

/-- After a whole `wq_push`. -/
def State.afterPush (s : State ι) (t : ι) (fd : Int) : State ι :=
  { s with size := toInt32 (s.size + 1), items := s.items ++ [fd], mutex := none,
           pc := Function.update (fun u => wake (s.pc u)) t .idle, pushed := s.pushed ++ [fd] }

/-- After a `wq_pop` that has returned `fd`. -/
def State.afterPop (s : State ι) (t : ι) (fd : Int) : State ι :=
  { s.move t (.serving fd) with
    size := toInt32 (s.size - 1), items := s.items.tail, mutex := none,
    returned := s.returned ++ [(t, fd)] }

theorem push_run (free : s.mutex = none) (here : s.pc t = .accepted fd) :
    Steps s (s.afterPush t fd) := by
  have lock : Step s t { s.move t (.pushLocked fd) with mutex := some t } :=
    .lock _ (by rw [here]; rfl) free
  have link := Step.link (s := { s.move t (.pushLocked fd) with mutex := some t }) fd move_pc
  have count := Step.countUp (s := { (s.move t (.pushLocked fd)).move t .pushLinked with
    items := s.items ++ [fd], mutex := some t, pushed := s.pushed ++ [fd] }) (t := t) move_pc
  have broadcast := Step.broadcast (t := t) (s := { ((s.move t (.pushLocked fd)).move t .pushLinked).move t
    .pushCounted with size := toInt32 (s.size + 1), items := s.items ++ [fd], mutex := some t,
                      pushed := s.pushed ++ [fd] }) move_pc
  have unlock := Step.pushed (t := t) (s := { s with
    size := toInt32 (s.size + 1), items := s.items ++ [fd], mutex := some t, pushed := s.pushed ++ [fd],
    pc := Function.update (fun u => wake ((((s.move t (.pushLocked fd)).move t .pushLinked).move t
      .pushCounted).pc u)) t .pushBroadcast }) (by simp only [Function.update_self])
  have after : { s with
      size := toInt32 (s.size + 1), items := s.items ++ [fd], mutex := none, pushed := s.pushed ++ [fd],
      pc := Function.update (Function.update (fun u => wake ((((s.move t (.pushLocked fd)).move t
        .pushLinked).move t .pushCounted).pc u)) t .pushBroadcast) t .idle } = s.afterPush t fd := by
    simp only [State.afterPush, State.move, Function.update_idem]
    congr 1
    funext u
    by_cases own : u = t
    · simp [own]
    · simp [Function.update_of_ne own]
  have run : Steps s _ := (((Relation.ReflTransGen.single ⟨t, lock⟩).tail ⟨t, link⟩).tail
    ⟨t, count⟩).tail ⟨t, broadcast⟩
  exact after ▸ run.tail ⟨t, unlock⟩

theorem pop_run (free : s.mutex = none) (waits : afterLock (s.pc t) = some .popLocked)
    (size : s.size ≠ 0) (head : s.items.head? = some fd) : Steps s (s.afterPop t fd) := by
  have lock : Step s t { s.move t .popLocked with mutex := some t } := .lock _ waits free
  have read := Step.read (s := { s.move t .popLocked with mutex := some t }) fd move_pc size head
  have count := Step.countDown (s := { (s.move t .popLocked).move t (.popRead fd) with
    mutex := some t }) fd move_pc
  have some_items : s.items ≠ [] := by
    intro none
    rw [none] at head
    cases head
  have delete := Step.delete (s := { ((s.move t .popLocked).move t (.popRead fd)).move t
    (.popCounted fd) with size := toInt32 (s.size - 1), mutex := some t }) fd move_pc some_items
  have popped := Step.popped (s := { (((s.move t .popLocked).move t (.popRead fd)).move t
    (.popCounted fd)).move t (.popDeleted fd) with
      size := toInt32 (s.size - 1), items := s.items.tail, mutex := some t }) fd move_pc
  simp only [State.move, Function.update_idem] at popped
  have run : Steps s _ := ((Relation.ReflTransGen.single ⟨t, lock⟩).tail ⟨t, read⟩).tail ⟨t, count⟩
  have run' := run.tail ⟨t, delete⟩
  simp only [State.move, Function.update_idem] at run'
  exact run'.tail ⟨t, popped⟩

/-- The thread is about to lock the mutex in `wq_pop`, which is free. -/
def State.aboutToPop (s : State ι) (t : ι) : Prop :=
  s.mutex = none ∧ afterLock (s.pc t) = some .popLocked

theorem aboutToPop_of_idle (free : s.mutex = none) (here : s.pc t = .idle) :
    Steps s (s.move t .popCalled) ∧ (s.move t .popCalled).aboutToPop t :=
  ⟨.single ⟨t, .pop here⟩, free, by rw [move_pc]; rfl⟩

/-- A thread that is outside, or finishes what it is about, calls `wq_pop` next. -/
theorem exists_aboutToPop (h : (system ι listener).Reachable s) (free : s.mutex = none) (t : ι) :
    ∃ s', Steps s s' ∧ s'.aboutToPop t := by
  have outside : (s.pc t).critical = false := by
    by_contra inside
    have held := ((inv_of_reachable h).excludes t).mp (Bool.eq_true_of_not_eq_false inside)
    rw [free] at held
    cases held
  cases here : s.pc t with
  | pushLocked | pushLinked | pushCounted | pushBroadcast | popLocked | popRead | popCounted
  | popDeleted | crashed =>
      rw [here] at outside
      cases outside
  | idle => exact ⟨_, aboutToPop_of_idle free here⟩
  | popCalled | popWoken => exact ⟨s, .refl, free, by rw [here]; rfl⟩
  | popWaiting => exact ⟨s.move t .popWoken, .single ⟨t, .spurious here⟩, free, by rw [move_pc]; rfl⟩
  | serving fd =>
      obtain ⟨steps, about⟩ := aboutToPop_of_idle (s := s.move t .idle) free move_pc
      exact ⟨_, .head ⟨t, .leave fd here⟩ steps, about⟩
  | accepted fd =>
      have idle : (s.afterPush t fd).pc t = .idle := by simp only [State.afterPush, Function.update_self]
      obtain ⟨steps, about⟩ := aboutToPop_of_idle (s := s.afterPush t fd) rfl idle
      exact ⟨_, (push_run free here).trans steps, about⟩

theorem exists_drained (h : (system ι listener).Reachable s) (about : s.aboutToPop t) :
    ∃ s', Steps s s' ∧ s'.mutex = none ∧ s'.items = [] := by
  generalize items : s.items = rest
  induction rest generalizing s with
  | nil => exact ⟨s, .refl, about.1, items⟩
  | cons fd rest ih =>
      have size : s.size ≠ 0 := by
        have level := ((inv_of_reachable h).free about.1).1
        rw [items, List.length_cons] at level
        omega
      have pops := pop_run about.1 about.2 size (congrArg List.head? items)
      have serves : (s.afterPop t fd).pc t = .serving fd := move_pc
      obtain ⟨again, about'⟩ := aboutToPop_of_idle (s := (s.afterPop t fd).move t .idle) rfl move_pc
      have steps := (pops.tail ⟨t, .leave fd serves⟩).trans again
      obtain ⟨s', more, free, empty⟩ :=
        ih (reachable_steps h steps).1 about' (congrArg List.tail items)
      exact ⟨s', Relation.ReflTransGen.trans steps more, free, empty⟩

theorem drains (h : (system ι listener).Reachable s) (t : ι) : ∃ s', Steps s s' ∧
    s.pushed <+: s'.pushed ∧ s'.returned.map (·.2) = s'.pushed := by
  obtain ⟨s₁, free, none₁⟩ := exists_free h
  obtain ⟨h₁, more₁⟩ := reachable_steps h free
  obtain ⟨s₂, calls, about⟩ := exists_aboutToPop h₁ none₁ t
  obtain ⟨h₂, more₂⟩ := reachable_steps h₁ calls
  obtain ⟨s', pops, none', empty⟩ := exists_drained h₂ about
  obtain ⟨h', more'⟩ := reachable_steps h₂ pops
  have balanced := ((inv_of_reachable h').free none').2
  rw [State.Balanced, empty, List.append_nil, List.append_nil] at balanced
  exact ⟨s', free.trans (calls.trans pops), more₁.trans (more₂.trans more'), balanced.symm⟩

end Drain

/-- The law of the queue. What was pushed is what has been returned, then what a
call of `wq_pop` that has unlinked it is about to return, then what is queued. -/
structure Law (s : State ι) : Prop where
  no_crash : ∀ t, s.pc t ≠ .crashed
  returning : ∀ t fd, s.pc t = .popDeleted fd → s.pushed = s.returned.map (·.2) ++ [fd] ++ s.items
  queued : (∀ t fd, s.pc t ≠ .popDeleted fd) → s.pushed = s.returned.map (·.2) ++ s.items
  size : s.mutex = none → s.size = s.items.length
  signalled : s.mutex = none → s.items ≠ [] → ∀ t, s.pc t ≠ .popWaiting
  -- a call that has found an item returns that item, whatever runs in between
  pops : ∀ t fd, s.popping t fd → ∀ u s', Step s u s' →
    s'.popping t fd ∨ s'.pc t = .serving fd ∧ s'.returned = s.returned ++ [(t, fd)]
  -- nobody keeps the mutex, and nobody is kept from it when it is free
  inside : ∀ t, s.mutex = some t → (∃ s', Step s t s') ∧
    ∀ s', Step s t s' → s'.mutex = none ∨ s'.mutex = some t ∧ (s'.pc t).left < (s.pc t).left
  locks : ∀ t p, afterLock (s.pc t) = some p → s.mutex = none →
    ∃ s', Step s t s' ∧ s'.mutex = some t ∧ s'.pc t = p
  -- so the run can go on until everything is returned, with any one thread to pop
  drains : ∀ _ : ι, ∃ s', Steps s s' ∧ s.pushed <+: s'.pushed ∧
    s'.returned.map (·.2) = s'.pushed

section Witness

/-- Only the listening socket, 3, is open. -/
def fresh : State Nat where
  size := 0
  items := []
  mutex := none
  pc _ := .idle
  opened fd := fd = 3
  pushed := []
  returned := []

end Witness
end CS162.HttpServer.WorkQueue
