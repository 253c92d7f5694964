import CS162.Synch.Semaphore
import CS162.Library.Outcome

/-!
What the semaphores keep under every interleaving. Each step of the kernel is, as
any one semaphore sees it, one turn of a counting semaphore or nothing at all, so
the law of the counting semaphore holds of all of them in every reachable state.
-/

namespace CS162.Synch
open CS162.Library
universe u v x
variable {κ : Type u} {Λ : Type v} {ι : Type x}

namespace World

section Places
variable {w : World κ Λ ι} {s s' : κ ⊕ Λ} {t : ι} {pc : Pc κ Λ}

theorem after_ne_inDown : Pc.after s ≠ .inDown s' := by
  cases s <;> simp [Pc.after]

theorem status_ready (h : ¬ w.status t = .blocked) : w.status t = .ready := by
  cases status : w.status t with
  | ready => rfl
  | blocked => exact absurd status h

variable [DecidableEq ι]

theorem goto_pc_of_ne {u : ι} (h : u ≠ t) : (w.goto t pc).pc u = w.pc u := Function.update_of_ne h ..

theorem goto_pc_self : (w.goto t pc).pc t = pc := Function.update_self ..

end Places

variable [DecidableEq κ] [DecidableEq Λ] (w : World κ Λ ι)

/-- Where thread `t` is, as semaphore `s` sees it. -/
def place (s : κ ⊕ Λ) (t : ι) : Place :=
  if w.pc t = .inDown s then
    match w.status t with
    | .blocked => .asleep
    | .ready => .woken
  else .away

/-- The kernel as semaphore `s` sees it. -/
def seen (s : κ ⊕ Λ) : Counter ι :=
  ⟨(w.sema s).value, (w.sema s).waiters, w.place s, w.ups s, w.downs s⟩

variable {w} {w' : World κ Λ ι} {s s' : κ ⊕ Λ} {t : ι} {pc : Pc κ Λ}

theorem place_of_ne (h : w.pc t ≠ .inDown s) : w.place s t = .away := if_neg h

theorem place_asleep : w.place s t = .asleep ↔ w.pc t = .inDown s ∧ w.status t = .blocked := by
  simp only [place]
  split
  next here => cases w.status t <;> simp [here]
  next elsewhere => simp [elsewhere]

theorem place_woken : w.place s t = .woken ↔ w.pc t = .inDown s ∧ w.status t = .ready := by
  simp only [place]
  split
  next here => cases w.status t <;> simp [here]
  next elsewhere => simp [elsewhere]

theorem awake_of_ready (h : w.status t = .ready) : w.place s t ≠ .asleep := by
  intro asleep
  rw [place_asleep, h] at asleep
  cases asleep.2

theorem tryDownCall_eq : w.tryDownCall s =
    if 0 < (w.sema s).value then ((w.takeUnit s).downDone s, true) else (w, false) := by
  unfold tryDownCall semaTryDown
  by_cases some : 0 < (w.sema s).value
  · simp only [if_pos some]
  · simp only [if_neg some]

theorem tryDownCall_frame :
    (w.tryDownCall s).1.pc = w.pc ∧ (w.tryDownCall s).1.holder = w.holder ∧
      (w.tryDownCall s).1.inside = w.inside := by
  simp only [tryDownCall_eq]
  split <;> exact ⟨rfl, rfl, rfl⟩

/-- Who is at the front of a list of waiters is blocked, as `thread_unblock`
asserts. -/
theorem blocked_of_front [Fintype ι] {m n : Nat} {rest : List ι} (law : (w.seen s).Law m n)
    (front : (w.sema s).waiters = t :: rest) : w.pc t = .inDown s ∧ w.status t = .blocked := by
  rw [← place_asleep]
  apply (law.listed t).mp
  change t ∈ (w.sema s).waiters
  rw [front]
  exact List.mem_cons_self

variable [DecidableEq ι]

theorem place_update (pc : ∀ u, u ≠ t → w'.pc u = w.pc u)
    (status : ∀ u, u ≠ t → w'.status u = w.status u) :
    w'.place s = Function.update (w.place s) t (w'.place s t) := by
  funext u
  by_cases hu : u = t
  · rw [hu, Function.update_self]
  · rw [Function.update_of_ne hu]
    simp only [place, pc u hu, status u hu]

theorem place_same (pc : ∀ u, u ≠ t → w'.pc u = w.pc u)
    (status : ∀ u, u ≠ t → w'.status u = w.status u) (here : w'.place s t = w.place s t) :
    w'.place s = w.place s := by
  rw [place_update pc status, here, Function.update_eq_self]

theorem place_status (outside : w.pc t ≠ .inDown s) (pc : w'.pc = w.pc)
    (status : ∀ u, u ≠ t → w'.status u = w.status u) : w'.place s = w.place s := by
  apply place_same (t := t) (fun u _ => congrFun pc u) status
  rw [place_of_ne outside, place_of_ne]
  rw [pc]
  exact outside

/-- Moving a thread outside the loops of `sema_down` is nothing to a semaphore. -/
theorem seen_goto (before : w.pc t ≠ .inDown s) (after : pc ≠ .inDown s) :
    (w.goto t pc).seen s = w.seen s := by
  have same : (w.goto t pc).place s = w.place s := by
    apply place_same (t := t) (fun u hu => goto_pc_of_ne hu) fun _ _ => rfl
    rw [place_of_ne before, place_of_ne]
    rw [goto_pc_self]
    exact after
  simp only [seen, same]
  rfl

theorem seen_threadBlock (outside : w.pc t ≠ .inDown s) : (w.threadBlock t).seen s = w.seen s := by
  have same : (w.threadBlock t).place s = w.place s :=
    place_status outside rfl fun u hu => Function.update_of_ne hu ..
  simp only [seen, same]
  rfl

theorem seen_threadUnblock (outside : w.pc t ≠ .inDown s) (h : w.threadUnblock t = .ok w') :
    w'.seen s = w.seen s := by
  simp only [threadUnblock] at h
  split at h
  · cases h
    have same : World.place { w with status := Function.update w.status t .ready } s = w.place s :=
      place_status outside rfl fun u hu => Function.update_of_ne hu ..
    simp only [seen, same]
  · cases h

theorem downTurn_eq : w.downTurn t s =
    if (w.sema s).value = 0 then ((w.enqueue t s).threadBlock t).goto t (.inDown s)
    else ((w.takeUnit s).downDone s).goto t (.after s) := by
  unfold downTurn semaDown
  by_cases empty : (w.sema s).value = 0
  · simp only [if_pos empty]
  · simp only [if_neg empty]

theorem upCall_eq : w.upCall s =
    match (w.sema s).waiters with
    | [] => .ok ((w.giveUnit s []).upDone s)
    | t :: rest => (w.threadUnblock t).map fun w => (w.giveUnit s rest).upDone s := by
  unfold upCall semaUp
  cases (w.sema s).waiters with
  | nil => rfl
  | cons t rest =>
      simp only
      cases w.threadUnblock t <;> rfl

section Turns
variable {m : Nat}

theorem turn_of_seen (same : w'.seen s = w.seen s) :
    Counter.Turn m (w.seen s) (w'.seen s) := by
  rw [same]
  exact .same _

theorem sleep_turn (empty : (w.sema s).value = 0) (ready : w.status t = .ready) :
    Counter.Turn m (w.seen s) ((((w.enqueue t s).threadBlock t).goto t (.inDown s)).seen s) := by
  generalize after : ((w.enqueue t s).threadBlock t).goto t (.inDown s) = w'
  have sema : w'.sema s = ⟨(w.sema s).value, (w.sema s).waiters ++ [t]⟩ := by
    rw [← after]
    exact Function.update_self ..
  have asleep : w'.place s t = .asleep := by
    rw [place_asleep, ← after]
    exact ⟨Function.update_self .., Function.update_self ..⟩
  have moved : w'.place s = Function.update (w.place s) t .asleep := by
    rw [← asleep, ← after]
    exact place_update (fun u hu => goto_pc_of_ne hu) fun u hu => Function.update_of_ne hu ..
  have counts : w'.ups s = w.ups s ∧ w'.downs s = w.downs s := by
    rw [← after]
    exact ⟨rfl, rfl⟩
  simp only [seen, sema, moved, counts, empty]
  exact .sleep t (awake_of_ready ready)

theorem take_turn {n : Nat} (some : (w.sema s).value = n + 1) (ready : w.status t = .ready)
    (out : pc ≠ .inDown s) :
    Counter.Turn m (w.seen s) ((((w.takeUnit s).downDone s).goto t pc).seen s) := by
  generalize after : ((w.takeUnit s).downDone s).goto t pc = w'
  have sema : w'.sema s = ⟨(w.sema s).value - 1, (w.sema s).waiters⟩ := by
    rw [← after]
    exact Function.update_self ..
  have away : w'.place s t = .away := by
    apply place_of_ne
    rw [← after, goto_pc_self]
    exact out
  have moved : w'.place s = Function.update (w.place s) t .away := by
    rw [← away, ← after]
    exact place_update (fun u hu => goto_pc_of_ne hu) fun _ _ => rfl
  have counts : w'.ups s = w.ups s ∧ w'.downs s = w.downs s + 1 := by
    rw [← after]
    exact ⟨rfl, Function.update_self ..⟩
  simp only [seen, sema, moved, counts, some, Nat.add_sub_cancel]
  exact .take t (awake_of_ready ready)

theorem tryDown_turn (m : Nat) (s' : κ ⊕ Λ) :
    Counter.Turn m (w.seen s') ((w.tryDownCall s).1.seen s') := by
  simp only [tryDownCall_eq]
  split
  next pos =>
    by_cases same : s' = s
    · subst same
      obtain ⟨n, some⟩ := Nat.exists_eq_succ_of_ne_zero (Nat.pos_iff_ne_zero.mp pos)
      have place : ((w.takeUnit s').downDone s').place s' = w.place s' := rfl
      simp only [seen, place]
      simp only [takeUnit, downDone, Function.update_self, some, Nat.succ_eq_add_one, Nat.add_sub_cancel]
      exact .tryTake
    · have place : ((w.takeUnit s).downDone s).place s' = w.place s' := rfl
      simp only [seen, place]
      simp only [takeUnit, downDone, Function.update_of_ne same]
      exact .same _
  next => exact .same _

/-- One turn of the loop in `sema_down` on `s`, taken by a thread that is in no
other such loop. -/
theorem down_turn (ready : w.status t = .ready) (only : ∀ r, w.pc t = .inDown r → r = s) :
    Counter.Turn m (w.seen s') ((w.downTurn t s).seen s') := by
  by_cases same : s' = s
  · subst same
    simp only [downTurn_eq]
    split
    next empty => exact sleep_turn empty ready
    next some =>
      obtain ⟨n, some⟩ := Nat.exists_eq_succ_of_ne_zero some
      exact take_turn some ready after_ne_inDown
  · have outside : w.pc t ≠ .inDown s' := fun here => same (only s' here)
    have unchanged : (w.downTurn t s).seen s' = w.seen s' := by
      simp only [downTurn_eq]
      split
      · rw [seen_goto, seen_threadBlock]
        · simp only [seen, enqueue, Function.update_of_ne same]
          rfl
        · exact outside
        · exact outside
        · intro eq
          cases eq
          exact same rfl
      · rw [seen_goto]
        · simp only [seen, takeUnit, downDone, Function.update_of_ne same]
          rfl
        · exact outside
        · exact after_ne_inDown
    rw [unchanged]
    exact .same _

end Turns

theorem upCall_frame (h : w.upCall s = .ok w') :
    w'.pc = w.pc ∧ w'.holder = w.holder ∧ w'.inside = w.inside := by
  simp only [upCall_eq] at h
  split at h
  next =>
    cases h
    exact ⟨rfl, rfl, rfl⟩
  next u rest _ =>
    simp only [threadUnblock] at h
    split at h <;> cases h
    exact ⟨rfl, rfl, rfl⟩

variable [Fintype ι] {m : Nat}

theorem upCall_ok {n : Nat} (law : (w.seen s).Law m n) : ∃ w', w.upCall s = .ok w' := by
  simp only [upCall_eq]
  split
  next => exact ⟨_, rfl⟩
  next t rest front =>
    simp only [threadUnblock, (blocked_of_front law front).2, if_true]
    exact ⟨_, rfl⟩

theorem up_turn {n : Nat} (law : (w.seen s).Law m n) (h : w.upCall s = .ok w') :
    Counter.Turn (2 ^ 32) (w.seen s') (w'.seen s') := by
  simp only [upCall_eq] at h
  split at h
  next none =>
    cases h
    have place : ((w.giveUnit s []).upDone s).place s' = w.place s' := rfl
    simp only [seen, place]
    by_cases same : s' = s
    · subst same
      simp only [giveUnit, upDone, Function.update_self, none]
      exact .put
    · simp only [giveUnit, upDone, Function.update_of_ne same]
      exact .same _
  next t rest front =>
    obtain ⟨here, blocked⟩ := blocked_of_front law front
    simp only [threadUnblock, blocked, if_true, Except.map, Except.ok.injEq] at h
    by_cases same : s' = s
    · subst same
      have sema : w'.sema s' = ⟨((w.sema s').value + 1) % 2 ^ 32, rest⟩ := by
        rw [← h]
        exact Function.update_self ..
      have woken : w'.place s' t = .woken := by
        rw [place_woken, ← h]
        exact ⟨here, Function.update_self ..⟩
      have moved : w'.place s' = Function.update (w.place s') t .woken := by
        rw [← woken, ← h]
        exact place_update (fun _ _ => rfl) fun u hu => Function.update_of_ne hu ..
      have counts : w'.ups s' = w.ups s' + 1 ∧ w'.downs s' = w.downs s' := by
        rw [← h]
        exact ⟨Function.update_self .., rfl⟩
      simp only [seen, sema, moved, counts, front]
      exact .wake t
    · have outside : w.pc t ≠ .inDown s' := by
        rw [here]
        intro eq
        cases eq
        exact same rfl
      have place : w'.place s' = w.place s' := by
        rw [← h]
        exact place_status outside rfl fun u hu => Function.update_of_ne hu ..
      simp only [seen, place]
      rw [← h]
      simp only [giveUnit, upDone, Function.update_of_ne same]
      exact .same _

theorem call_turn {n : κ ⊕ Λ → Nat} (law : ∀ s, (w.seen s).Law (2 ^ 32) (n s)) {call : Call κ Λ}
    (ready : w.status t = .ready) (outside : w.pc t = .outside) (h : w.call t call = .ok w') :
    Counter.Turn (2 ^ 32) (w.seen s) (w'.seen s) := by
  have out : ∀ r, w.pc t ≠ .inDown r := by simp [outside]
  cases call with
  | down k =>
      cases h
      exact down_turn ready fun r here => absurd here (out r)
  | tryDown k =>
      cases h
      exact tryDown_turn _ _
  | up k => exact up_turn (law _) h
  | acquire l =>
      simp only [World.call] at h
      split at h <;> cases h
      exact turn_of_seen (seen_goto (out s) (by simp))
  | tryAcquire l =>
      simp only [World.call] at h
      split at h <;> cases h
      exact turn_of_seen (seen_goto (out s) (by simp))
  | release l =>
      simp only [World.call] at h
      split at h <;> cases h
      exact turn_of_seen (seen_goto (w := w.setInside t l false) (out s) (by simp))
  | block =>
      cases h
      exact turn_of_seen (seen_threadBlock (out s))

theorem advance_turn {n : κ ⊕ Λ → Nat} (law : ∀ s, (w.seen s).Law (2 ^ 32) (n s))
    {call : Call κ Λ} (ready : w.status t = .ready) (h : w.advance t call = .ok w') :
    Counter.Turn (2 ^ 32) (w.seen s) (w'.seen s) := by
  simp only [advance] at h
  split at h
  next outside => exact call_turn law ready outside h
  next r here =>
    cases h
    exact down_turn ready fun r' here' => by
      rw [here] at here'
      cases here'
      rfl
  next l here =>
    cases h
    exact down_turn ready fun r' here' => by
      rw [here] at here'
      cases here'
  next l here =>
    have frame := tryDownCall_frame (w := w) (s := .inr l)
    have out : (w.tryDownCall (.inr l)).1.pc t ≠ .inDown s := by
      rw [frame.1, here]
      simp
    have turn := tryDown_turn (w := w) (s := .inr l) (2 ^ 32) s
    split at h <;> cases h
    next tried => 
      rw [tried] at out turn
      rw [seen_goto out (by simp)]
      exact turn
    next tried => 
      rw [tried] at out turn
      rw [seen_goto out (by simp)]
      exact turn
  next l here =>
    cases h
    apply turn_of_seen
    apply seen_goto (w := w.takeLock t l)
    · simp [takeLock, setInside, setHolder, here]
    · simp
  next l here =>
    cases h
    apply turn_of_seen
    apply seen_goto (w := w.setHolder l none)
    · simp [setHolder, here]
    · simp
  next l here =>
    obtain ⟨w'', up, rfl⟩ := map_ok h
    rw [seen_goto]
    · exact up_turn (law _) up
    · rw [(upCall_frame up).1, here]
      simp
    · simp

theorem next_turn {n : κ ⊕ Λ → Nat} (law : ∀ s, (w.seen s).Law (2 ^ 32) (n s))
    {a : Label κ Λ ι} (h : w.next a = .ok w') :
    Counter.Turn (2 ^ 32) (w.seen s) (w'.seen s) := by
  cases a with
  | thread t call =>
      simp only [next] at h
      split at h
      · cases h
      next ready => exact advance_turn law (status_ready ready) h
  | tryDown k =>
      cases h
      exact tryDown_turn _ _
  | up k => exact up_turn (law _) h
  | tryAcquire t l =>
      simp only [next, handlerTryAcquire] at h
      split at h
      · cases h
      split at h
      · cases h
      have turn := tryDown_turn (w := w) (s := .inr l) (2 ^ 32) s
      split at h <;> cases h
      next tried =>
        rw [tried] at turn
        exact turn
      next tried =>
        rw [tried] at turn
        exact turn
  | unblock t =>
      simp only [next] at h
      split at h
      · cases h
      next guard =>
        apply turn_of_seen
        apply seen_threadUnblock _ h
        intro here
        exact guard (.inr ⟨s, here⟩)

end World

variable [DecidableEq κ] [DecidableEq Λ]

theorem law_start {initial : κ → UInt32} {w : World κ Λ ι} [Fintype ι] (h : Start initial w)
    (s : κ ⊕ Λ) : (w.seen s).Law (2 ^ 32) (initialValue initial s) := by
  have away : w.place s = fun _ => .away := by
    funext t
    apply World.place_of_ne
    simp [h.pc]
  simp only [World.seen, h.sema, away, h.ups, h.downs]
  apply Counter.Law.init
  cases s with
  | inl k => exact (initial k).toNat_lt
  | inr l => exact Nat.one_lt_two_pow (by decide)

variable [DecidableEq ι]

theorem law_of_reachable [Fintype ι] {initial : κ → UInt32} {w : World κ Λ ι}
    (h : (kernel Λ ι initial).Reachable w) :
    ∀ s, (w.seen s).Law (2 ^ 32) (initialValue initial s) :=
  h.invariant (fun _ start s => law_start start s)
    fun _ _ _ law step s => (law s).turn (World.next_turn law (toOption_some.mp step))

end CS162.Synch
