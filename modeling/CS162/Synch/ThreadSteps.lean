import CS162.Synch.LockLaw

/-!
What a step of one thread leaves alone, and the steps of that thread through the
lock functions: an acquiring thread gets past its assertion and either sleeps on
the lock or is inside, and a releasing thread is outside again.
-/

namespace CS162.Synch
open CS162.Library
universe u v x
variable {κ : Type u} {Λ : Type v} {ι : Type x}

namespace World
variable [DecidableEq κ] [DecidableEq Λ] [DecidableEq ι] (w : World κ Λ ι) (t : ι) (l : Λ)

/-- After `sema_down` in `lock_acquire`: the holder is set unless the thread sleeps. -/
def enterLock : Except Stop (World κ Λ ι) :=
  match w.pc t with
  | .acquired l => w.advance t (.acquire l)
  | _ => .ok w

/-- `lock_acquire` with interrupts off, up to its return or `thread_block`. -/
def lockAcquire : Except Stop (World κ Λ ι) := do
  let w ← w.advance t (.acquire l)
  let w ← w.advance t (.acquire l)
  w.enterLock t

/-- The same from the next turn of the loop in `sema_down`. -/
def lockResume : Except Stop (World κ Λ ι) := do
  let w ← w.advance t (.acquire l)
  w.enterLock t

/-- `lock_release` with interrupts off. -/
def lockRelease : Except Stop (World κ Λ ι) := do
  let w ← w.advance t (.release l)
  let w ← w.advance t (.release l)
  w.advance t (.release l)

end World

/-- Thread `t` has moved; of the other threads, some that sleep may have been
woken. -/
structure Moved (t : ι) (w w' : World κ Λ ι) : Prop where
  pc : ∀ u, u ≠ t → w'.pc u = w.pc u
  inside : ∀ l u, u ≠ t → w'.inside l u = w.inside l u
  status : ∀ u, u ≠ t → w'.status u = w.status u ∨
    w.status u = .blocked ∧ w'.status u = .ready ∧ w.waits u

variable {w w' w'' : World κ Λ ι} {t : ι} {s : κ ⊕ Λ} {l : Λ} {pc : Pc κ Λ}

theorem Moved.frame (pc : w'.pc = w.pc) (inside : w'.inside = w.inside)
    (status : w'.status = w.status) : Moved t w w' :=
  ⟨fun u _ => congrFun pc u, fun l u _ => by rw [inside], fun u _ => .inl (congrFun status u)⟩

theorem Moved.trans (first : Moved t w w') (second : Moved t w' w'') : Moved t w w'' where
  pc u hu := (second.pc u hu).trans (first.pc u hu)
  inside l u hu := (second.inside l u hu).trans (first.inside l u hu)
  status u hu := by
    have waits : w'.waits u ↔ w.waits u := by simp only [World.waits, first.pc u hu]
    obtain same | ⟨was, now, here⟩ := second.status u hu
    · rw [same]
      exact first.status u hu
    · obtain same' | ⟨_, now', _⟩ := first.status u hu
      · rw [same'] at was
        exact .inr ⟨was, now, waits.mp here⟩
      · rw [now'] at was
        cases was

variable [DecidableEq ι]

theorem moved_goto : Moved t w (w.goto t pc) :=
  ⟨fun _ hu => World.goto_pc_of_ne hu, fun _ _ _ => rfl, fun _ _ => .inl rfl⟩

theorem moved_threadBlock : Moved t w (w.threadBlock t) :=
  ⟨fun _ _ => rfl, fun _ _ _ => rfl, fun _ hu => .inl (Function.update_of_ne hu ..)⟩

variable [DecidableEq Λ]

theorem moved_setInside {now : Bool} : Moved t w (w.setInside t l now) := by
  refine ⟨fun _ _ => rfl, fun l' u hu => ?_, fun _ _ => .inl rfl⟩
  simp only [World.setInside]
  by_cases hl : l' = l
  · rw [hl, Function.update_self, Function.update_of_ne hu]
  · rw [Function.update_of_ne hl]

variable [DecidableEq κ]

theorem moved_downTurn : Moved t w (w.downTurn t s) := by
  simp only [World.downTurn_eq]
  split
  · have queued : Moved t w (w.enqueue t s) := .frame rfl rfl rfl
    exact (queued.trans moved_threadBlock).trans moved_goto
  · have taken : Moved t w ((w.takeUnit s).downDone s) := .frame rfl rfl rfl
    exact taken.trans moved_goto

omit [DecidableEq ι] in
theorem moved_tryDownCall : Moved t w (w.tryDownCall s).1 := by
  simp only [World.tryDownCall_eq]
  split <;> exact .frame rfl rfl rfl

section Law
variable [Fintype ι] {n : κ ⊕ Λ → Nat} {call : Call κ Λ}

theorem moved_upCall (law : ∀ s, (w.seen s).Law (2 ^ 32) (n s)) (h : w.upCall s = .ok w') :
    Moved t w w' := by
  have frame := World.upCall_frame h
  refine ⟨fun u _ => congrFun frame.1 u, fun l u _ => ?_, fun u hu => ?_⟩
  · rw [frame.2.2]
  · simp only [World.upCall_eq] at h
    split at h
    next =>
      cases h
      exact .inl rfl
    next v rest front =>
      obtain ⟨here, blocked⟩ := World.blocked_of_front (law s) front
      simp only [World.threadUnblock, blocked, if_true, Except.map, Except.ok.injEq] at h
      rw [← h]
      by_cases huv : u = v
      · subst huv
        exact .inr ⟨blocked, Function.update_self .., s, here⟩
      · exact .inl (Function.update_of_ne huv ..)

theorem moved_call (law : ∀ s, (w.seen s).Law (2 ^ 32) (n s)) (h : w.call t call = .ok w') :
    Moved t w w' := by
  cases call with
  | down k =>
      cases h
      exact moved_downTurn
  | tryDown k =>
      cases h
      exact moved_tryDownCall
  | up k => exact moved_upCall law h
  | acquire l =>
      simp only [World.call] at h
      split at h <;> cases h
      exact moved_goto
  | tryAcquire l =>
      simp only [World.call] at h
      split at h <;> cases h
      exact moved_goto
  | release l =>
      simp only [World.call] at h
      split at h <;> cases h
      exact moved_setInside.trans moved_goto
  | block =>
      cases h
      exact moved_threadBlock

theorem moved_advance (law : ∀ s, (w.seen s).Law (2 ^ 32) (n s)) (h : w.advance t call = .ok w') :
    Moved t w w' := by
  simp only [World.advance] at h
  split at h
  next => exact moved_call law h
  next =>
    cases h
    exact moved_downTurn
  next =>
    cases h
    exact moved_downTurn
  next l _ =>
    have tried := moved_tryDownCall (t := t) (w := w) (s := .inr l)
    split at h <;> cases h
    next eq =>
      rw [eq] at tried
      exact tried.trans moved_goto
    next eq =>
      rw [eq] at tried
      exact tried.trans moved_goto
  next l _ =>
    cases h
    have named : Moved t w (w.setHolder l (some t)) := .frame rfl rfl rfl
    exact (named.trans moved_setInside).trans moved_goto
  next l _ =>
    cases h
    have cleared : Moved t w (w.setHolder l none) := .frame rfl rfl rfl
    exact cleared.trans moved_goto
  next l _ =>
    obtain ⟨w'', up, rfl⟩ := map_ok h
    exact (moved_upCall law up).trans moved_goto

end Law

variable {initial : κ → UInt32} {call : Call κ Λ}

theorem reachable_advance (h : (kernel Λ ι initial).Reachable w) (ready : w.status t = .ready)
    (step : w.advance t call = .ok w') : (kernel Λ ι initial).Reachable w' := by
  apply h.step (a := .thread t call)
  apply toOption_some.mpr
  simp only [World.next, ready]
  exact step

theorem not_held (h : (kernel Λ ι initial).Reachable w) (outside : w.pc t = .outside)
    (out : w.inside l t = false) : ¬ w.lockHeldByCurrentThread t l := by
  intro held
  have has := has_of_hasLock.mp ((lock_law_of_reachable h l).has_of_holder held)
  simp [World.hasLock, outside, out] at has

/-- What acquiring a lock comes to: thread `t` sleeps, or it is inside. -/
structure Acquiring (initial : κ → UInt32) (t : ι) (l : Λ) (w w' : World κ Λ ι) : Prop where
  reachable : (kernel Λ ι initial).Reachable w'
  moved : Moved t w w'
  ends : (w'.pc t = .inDown (.inr l) ∧ (w.sema (.inr l)).value = 0 ∧ w'.inside = w.inside) ∨
    (w'.pc t = .outside ∧ w'.status t = .ready ∧ (w.sema (.inr l)).value ≠ 0 ∧
      w'.inside = Function.update w.inside l (Function.update (w.inside l) t true))

section Lock
variable [Fintype ι]

theorem enterLock_spec (h : (kernel Λ ι initial).Reachable (w.downTurn t (.inr l)))
    (ready : w.status t = .ready) :
    ∃ w', (w.downTurn t (.inr l)).enterLock t = .ok w' ∧ Acquiring initial t l w w' := by
  have moved : Moved t w (w.downTurn t (.inr l)) := moved_downTurn
  have law := law_of_reachable h
  by_cases empty : (w.sema (.inr l)).value = 0
  · generalize after : w.downTurn t (.inr l) = v at *
    simp only [World.downTurn_eq, empty, if_true] at after
    have here : v.pc t = .inDown (.inr l) := by
      rw [← after]
      exact World.goto_pc_self
    refine ⟨v, ?_, h, moved, .inl ⟨here, empty, ?_⟩⟩
    · simp only [World.enterLock, here]
    · rw [← after]
      rfl
  · generalize after : w.downTurn t (.inr l) = v at *
    simp only [World.downTurn_eq, empty, if_false] at after
    have here : v.pc t = .acquired l := by
      rw [← after]
      exact World.goto_pc_self
    have still : v.status t = .ready := by
      rw [← after]
      exact ready
    have enter : v.enterLock t = .ok ((v.takeLock t l).goto t .outside) := by
      simp only [World.enterLock, here, World.advance]
    have advance : v.advance t (.acquire l) = .ok ((v.takeLock t l).goto t .outside) := by
      simp only [World.advance, here]
    refine ⟨_, enter, reachable_advance h still advance, moved.trans (moved_advance law advance),
      .inr ⟨World.goto_pc_self, still, empty, ?_⟩⟩
    rw [← after]
    rfl

theorem lockAcquire_spec (h : (kernel Λ ι initial).Reachable w) (outside : w.pc t = .outside)
    (ready : w.status t = .ready) (out : w.inside l t = false) :
    ∃ w', w.lockAcquire t l = .ok w' ∧ Acquiring initial t l w w' := by
  have first : w.advance t (.acquire l) = .ok (w.goto t (.acquire l)) := by
    simp only [World.advance, outside, World.call, not_held h outside out, if_false]
  have second : (w.goto t (.acquire l)).advance t (.acquire l) =
      .ok ((w.goto t (.acquire l)).downTurn t (.inr l)) := by
    simp only [World.advance, World.goto_pc_self]
  have reachable := reachable_advance (reachable_advance h ready first) ready second
  obtain ⟨w', enter, acquiring⟩ := enterLock_spec reachable ready
  refine ⟨w', ?_, acquiring.reachable, moved_goto.trans acquiring.moved, acquiring.ends⟩
  simp only [World.lockAcquire, first, second, bind, Except.bind]
  exact enter

theorem lockResume_spec (h : (kernel Λ ι initial).Reachable w) (here : w.pc t = .inDown (.inr l))
    (ready : w.status t = .ready) :
    ∃ w', w.lockResume t l = .ok w' ∧ Acquiring initial t l w w' := by
  have first : w.advance t (.acquire l) = .ok (w.downTurn t (.inr l)) := by
    simp only [World.advance, here]
  obtain ⟨w', enter, acquiring⟩ := enterLock_spec (reachable_advance h ready first) ready
  refine ⟨w', ?_, acquiring⟩
  simp only [World.lockResume, first, bind, Except.bind]
  exact enter

theorem lockRelease_spec (h : (kernel Λ ι initial).Reachable w) (outside : w.pc t = .outside)
    (ready : w.status t = .ready) (inside : w.inside l t = true) :
    ∃ w', w.lockRelease t l = .ok w' ∧ (kernel Λ ι initial).Reachable w' ∧ Moved t w w' ∧
      w'.pc t = .outside ∧ w'.status t = .ready ∧
      w'.inside = Function.update w.inside l (Function.update (w.inside l) t false) := by
  have held : w.lockHeldByCurrentThread t l := (lock_law_of_reachable h l).holder_inside inside
  have first : w.advance t (.release l) =
      .ok ((w.setInside t l false).goto t (.release l)) := by
    simp only [World.advance, outside, World.call, held, if_true]
  generalize first' : (w.setInside t l false).goto t (.release l) = w₁ at first
  have pc₁ : w₁.pc t = .release l := by
    rw [← first']
    exact World.goto_pc_self
  have ready₁ : w₁.status t = .ready := by
    rw [← first']
    exact ready
  have inside₁ : w₁.inside = Function.update w.inside l (Function.update (w.inside l) t false) := by
    rw [← first']
    rfl
  have second : w₁.advance t (.release l) = .ok ((w₁.setHolder l none).goto t (.released l)) := by
    simp only [World.advance, pc₁]
  generalize second' : (w₁.setHolder l none).goto t (.released l) = w₂ at second
  have pc₂ : w₂.pc t = .released l := by
    rw [← second']
    exact World.goto_pc_self
  have ready₂ : w₂.status t = .ready := by
    rw [← second']
    exact ready₁
  have inside₂ : w₂.inside = w₁.inside := by
    rw [← second']
    rfl
  have h₁ := reachable_advance h ready first
  have h₂ := reachable_advance h₁ ready₁ second
  have law := law_of_reachable h₂
  obtain ⟨w₃, up⟩ := World.upCall_ok (law (.inr l))
  have frame := World.upCall_frame up
  have third : w₂.advance t (.release l) = .ok (w₃.goto t .outside) := by
    simp only [World.advance, pc₂, up, Except.map]
  have moved := (moved_advance (law_of_reachable h) first).trans
    ((moved_advance (law_of_reachable h₁) second).trans (moved_advance law third))
  refine ⟨_, ?_, reachable_advance h₂ ready₂ third, moved, World.goto_pc_self, ?_, ?_⟩
  · simp only [World.lockRelease, first, second, bind, Except.bind]
    exact third
  · -- the thread itself is not among the sleepers
    have same : w₃.status t = w₂.status t := by
      simp only [World.upCall_eq] at up
      split at up
      next =>
        cases up
        rfl
      next u rest front =>
        obtain ⟨here, blocked⟩ := World.blocked_of_front (law (.inr l)) front
        simp only [World.threadUnblock, blocked, if_true, Except.map, Except.ok.injEq] at up
        rw [← up]
        apply Function.update_of_ne
        intro eq
        rw [← eq, pc₂] at here
        cases here
    exact same.trans ready₂
  · exact frame.2.2.trans (inside₂.trans inside₁)

end Lock
theorem counts_upCall (h : w.upCall s = .ok w') :
    w'.ups = Function.update w.ups s (w.ups s + 1) ∧ w'.downs = w.downs ∧
      (w.status t = .ready → w'.status t = .ready) := by
  simp only [World.upCall_eq] at h
  split at h
  next =>
    cases h
    exact ⟨rfl, rfl, id⟩
  next u rest _ =>
    simp only [World.threadUnblock] at h
    split at h <;> cases h
    refine ⟨rfl, rfl, fun ready => ?_⟩
    simp only [World.giveUnit, World.upDone, Function.update_apply]
    split
    · rfl
    · exact ready

/-- One turn of the loop in `sema_down`: the thread sleeps, or it is past. -/
theorem downTurn_cases (w : World κ Λ ι) (t : ι) (s : κ ⊕ Λ) :
    ((w.sema s).value = 0 ∧ (w.downTurn t s).pc t = .inDown s ∧ (w.downTurn t s).downs = w.downs) ∨
    ((w.sema s).value ≠ 0 ∧ (w.downTurn t s).pc t = .after s ∧
      (w.downTurn t s).downs = Function.update w.downs s (w.downs s + 1) ∧
      (w.downTurn t s).status = w.status) := by
  by_cases empty : (w.sema s).value = 0
  · refine .inl ⟨empty, ?_⟩
    simp only [World.downTurn_eq, empty, if_true]
    exact ⟨World.goto_pc_self, rfl⟩
  · refine .inr ⟨empty, ?_⟩
    simp only [World.downTurn_eq, empty, if_false]
    exact ⟨World.goto_pc_self, rfl, rfl⟩

theorem downTurn_frame :
    (w.downTurn t s).ups = w.ups ∧ (w.downTurn t s).inside = w.inside := by
  simp only [World.downTurn_eq]
  split <;> exact ⟨rfl, rfl⟩

/-- A step inside the lock functions, of a thread that is not inside a plain
`sema_down`. -/
structure Onward (t : ι) (w w' : World κ Λ ι) : Prop where
  ups : ∀ k, w'.ups (.inl k) = w.ups (.inl k)
  downs : ∀ k, w'.downs (.inl k) = w.downs (.inl k)
  out : ∀ k, w'.pc t ≠ .inDown (.inl k)
  awake : w'.status t = .ready ∨ w'.waits t
  acquiring : ∀ l, w.pc t = .acquire l ∨ w.pc t = .inDown (.inr l) →
    (w'.pc t = .inDown (.inr l) ∨ w'.pc t = .acquired l) ∧ w'.inside = w.inside
  entering : ∀ l, w.pc t = .acquired l → w'.pc t = .outside ∧
    w'.inside = Function.update w.inside l (Function.update (w.inside l) t true)
  releasing : ∀ l, w.pc t = .release l → w'.pc t = .released l ∧ w'.inside = w.inside
  leaving : ∀ l, w.pc t = .released l → w'.pc t = .outside ∧ w'.inside = w.inside

theorem onward_downTurn {l : Λ} (ready : w.status t = .ready)
    (here : w.pc t = .acquire l ∨ w.pc t = .inDown (.inr l)) : Onward t w (w.downTurn t (.inr l)) := by
  have frame := downTurn_frame (w := w) (t := t) (s := .inr l)
  have ends : (w.downTurn t (.inr l)).pc t = .inDown (.inr l) ∨
      (w.downTurn t (.inr l)).pc t = .acquired l := by
    obtain ⟨_, sleeps, _⟩ | ⟨_, past, _⟩ := downTurn_cases w t (.inr l)
    · exact .inl sleeps
    · exact .inr past
  constructor
  case ups => exact fun k => congrFun frame.1 _
  case downs =>
    intro k
    obtain ⟨_, _, same⟩ | ⟨_, _, more, _⟩ := downTurn_cases w t (.inr l)
    · rw [same]
    · rw [more, Function.update_of_ne (by simp)]
  case out =>
    intro k
    rcases ends with eq | eq <;> simp [eq]
  case awake =>
    obtain ⟨_, sleeps, _⟩ | ⟨_, _, _, same⟩ := downTurn_cases w t (.inr l)
    · exact .inr ⟨_, sleeps⟩
    · exact .inl ((congrFun same t).trans ready)
  case acquiring =>
    intro l' at_l'
    have same : l' = l := by
      rcases here with eq | eq <;> rcases at_l' with eq' | eq' <;> rw [eq] at eq' <;> cases eq' <;> rfl
    subst same
    exact ⟨ends, frame.2⟩
  case entering => rcases here with eq | eq <;> simp [eq]
  case releasing => rcases here with eq | eq <;> simp [eq]
  case leaving => rcases here with eq | eq <;> simp [eq]

theorem onward_of_advance (ready : w.status t = .ready) (busy : w.pc t ≠ .outside)
    (plain : ∀ k, w.pc t ≠ .inDown (.inl k)) (h : w.advance t call = .ok w') : Onward t w w' := by
  simp only [World.advance] at h
  split at h
  next outside => exact absurd outside busy
  next s here =>
    cases h
    cases s with
    | inl k => exact absurd here (plain k)
    | inr l => exact onward_downTurn ready (.inr here)
  next l here =>
    cases h
    exact onward_downTurn ready (.inl here)
  next l here =>
    simp only [World.tryDownCall_eq] at h
    split at h
    next tried =>
      cases h
      split at tried <;> cases tried
      constructor
      case ups => exact fun _ => rfl
      case downs =>
        intro k
        simp only [World.goto, World.takeUnit, World.downDone]
        rw [Function.update_of_ne Sum.inl_ne_inr]
      case out =>
        intro k
        rw [World.goto_pc_self]
        simp
      case awake => exact .inl ready
      all_goals simp [here]
    next tried =>
      cases h
      split at tried <;> cases tried
      constructor
      case ups => exact fun _ => rfl
      case downs => exact fun _ => rfl
      case out =>
        intro k
        rw [World.goto_pc_self]
        simp
      case awake => exact .inl ready
      all_goals simp [here]
  next l here =>
    cases h
    constructor
    case ups => exact fun _ => rfl
    case downs => exact fun _ => rfl
    case out =>
      intro k
      rw [World.goto_pc_self]
      simp
    case awake => exact .inl ready
    case entering =>
      intro l' at_l'
      rw [here] at at_l'
      cases at_l'
      exact ⟨World.goto_pc_self, rfl⟩
    all_goals simp [here]
  next l here =>
    cases h
    constructor
    case ups => exact fun _ => rfl
    case downs => exact fun _ => rfl
    case out =>
      intro k
      rw [World.goto_pc_self]
      simp
    case awake => exact .inl ready
    case releasing =>
      intro l' at_l'
      rw [here] at at_l'
      cases at_l'
      exact ⟨World.goto_pc_self, rfl⟩
    all_goals simp [here]
  next l here =>
    obtain ⟨w'', up, rfl⟩ := map_ok h
    have counts := counts_upCall (t := t) up
    constructor
    case ups =>
      intro k
      exact (congrFun counts.1 _).trans (Function.update_of_ne (by simp) ..)
    case downs => exact fun k => congrFun counts.2.1 _
    case out =>
      intro k
      rw [World.goto_pc_self]
      simp
    case awake => exact .inl (counts.2.2 ready)
    case leaving =>
      intro l' at_l'
      exact ⟨World.goto_pc_self, (World.upCall_frame up).2.2⟩
    all_goals simp [here]

theorem advance_ok [Fintype ι] {n : κ ⊕ Λ → Nat} (law : ∀ s, (w.seen s).Law (2 ^ 32) (n s))
    (busy : w.pc t ≠ .outside) (call : Call κ Λ) : ∃ w', w.advance t call = .ok w' := by
  simp only [World.advance]
  split
  next outside => exact absurd outside busy
  next => exact ⟨_, rfl⟩
  next => exact ⟨_, rfl⟩
  next => split <;> exact ⟨_, rfl⟩
  next => exact ⟨_, rfl⟩
  next => exact ⟨_, rfl⟩
  next l _ =>
    obtain ⟨w', up⟩ := World.upCall_ok (law (.inr l))
    simp only [up, Except.map]
    exact ⟨_, rfl⟩

end CS162.Synch
