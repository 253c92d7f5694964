import Mathlib.Data.Finset.Card
import Mathlib.Data.Int.Interval
import Mathlib.Order.Interval.Finset.Basic
import CS162.HttpServer.WorkQueue

/-!
What every step of the work queue keeps. The mutex keeps all but one thread out, and
what size, list and histories have to do with each other depends on how far that thread
has come. A descriptor is with one thread or once in the queue, and as there are no
more of them than an `int` counts, neither does the size overflow.
-/

namespace CS162.HttpServer.WorkQueue
open CS162.Library
universe u

section Places

/-- The places at which a thread has the mutex. -/
def Pc.critical : Pc → Bool
  | .pushLocked _ | .pushLinked | .pushCounted | .pushBroadcast => true
  | .popLocked | .popRead _ | .popCounted _ | .popDeleted _ | .crashed => true
  | _ => false

/-- The descriptor that is with the thread. -/
def Pc.holds : Pc → Option Int
  | .accepted fd | .pushLocked fd | .popDeleted fd | .serving fd => some fd
  | _ => none

/-- The places from which a thread will wake up those that wait. -/
def Pc.announces : Pc → Bool
  | .pushLinked | .pushCounted => true
  | _ => false

theorem critical_wake (p : Pc) : (wake p).critical = p.critical := by
  cases p <;> rfl

theorem holds_wake (p : Pc) : (wake p).holds = p.holds := by
  cases p <;> rfl

theorem afterLock_spec {p q : Pc} (h : afterLock p = some q) : p.critical = false ∧
    q.critical = true ∧ q.holds = p.holds ∧ q.announces = false ∧ p ≠ .popWaiting ∧ q ≠ .popWaiting := by
  cases p <;> cases h <;> simp [Pc.critical, Pc.holds, Pc.announces]

end Places

section Mutex
variable {ι : Type u} {mutex : Option ι} {pc : ι → Pc} {t : ι} {p : Pc}

/-- The thread inside is the one that has the mutex. -/
def Excludes (mutex : Option ι) (pc : ι → Pc) : Prop := ∀ t, (pc t).critical = true ↔ mutex = some t

theorem Excludes.wake (h : Excludes mutex pc) : Excludes mutex fun u => wake (pc u) := by
  intro u
  rw [critical_wake]
  exact h u

variable [DecidableEq ι]

theorem Excludes.stay (h : Excludes mutex pc) (same : p.critical = (pc t).critical) :
    Excludes mutex (Function.update pc t p) := by
  intro u
  by_cases here : u = t
  · subst here
    rw [Function.update_self, same]
    exact h u
  · rw [Function.update_of_ne here]
    exact h u

theorem Excludes.take (h : Excludes none pc) (inside : p.critical = true) :
    Excludes (some t) (Function.update pc t p) := by
  intro u
  by_cases here : u = t
  · subst here
    rw [Function.update_self]
    exact ⟨fun _ => rfl, fun _ => inside⟩
  · rw [Function.update_of_ne here, h u]
    exact ⟨nofun, fun held => absurd (Option.some.inj held).symm here⟩

theorem Excludes.give (h : Excludes mutex pc) (inside : (pc t).critical = true)
    (outside : p.critical = false) : Excludes none (Function.update pc t p) := by
  have mine := (h t).mp inside
  intro u
  by_cases here : u = t
  · subst here
    rw [Function.update_self, outside]
    exact ⟨nofun, nofun⟩
  · rw [Function.update_of_ne here, h u, mine]
    exact ⟨fun held => absurd (Option.some.inj held).symm here, nofun⟩

end Mutex

section Descriptors
variable {ι : Type u} {listener : Int} {opened : Int → Bool} {items : List Int}
variable {pc : ι → Pc} {t : ι} {p : Pc} {fd : Int}

/-- Each open descriptor is in one place at most. -/
structure Owned (listener : Int) (opened : Int → Bool) (items : List Int) (pc : ι → Pc) : Prop where
  range : ∀ fd, opened fd = true → 0 ≤ fd ∧ fd ≤ intMax
  listening : opened listener = true
  nodup : items.Nodup
  queued : ∀ fd ∈ items, opened fd = true ∧ fd ≠ listener
  held : ∀ t fd, (pc t).holds = some fd → opened fd = true ∧ fd ≠ listener ∧ fd ∉ items
  apart : ∀ t u fd, (pc t).holds = some fd → (pc u).holds = some fd → t = u

/-- There are fewer queued descriptors than an `int` counts. -/
theorem Owned.length_le (h : Owned listener opened items pc) : (items.length : Int) ≤ intMax := by
  have within : insert listener items.toFinset ⊆ Finset.Icc 0 intMax := by
    intro fd inside
    rw [Finset.mem_Icc]
    cases Finset.mem_insert.mp inside with
    | inl same => exact same ▸ h.range _ h.listening
    | inr queued => exact h.range fd (h.queued fd (List.mem_toFinset.mp queued)).1
  have apart : listener ∉ items.toFinset := fun inside =>
    (h.queued listener (List.mem_toFinset.mp inside)).2 rfl
  have few := Finset.card_le_card within
  rw [Finset.card_insert_of_notMem apart, List.toFinset_card_of_nodup h.nodup, Int.card_Icc] at few
  simp only [intMax] at few ⊢
  omega

theorem Owned.wake (h : Owned listener opened items pc) :
    Owned listener opened items fun u => wake (pc u) where
  range := h.range
  listening := h.listening
  nodup := h.nodup
  queued := h.queued
  held u fd held := h.held u fd ((holds_wake (pc u)).symm.trans held)
  apart u v fd hu hv := h.apart u v fd ((holds_wake (pc u)).symm.trans hu)
    ((holds_wake (pc v)).symm.trans hv)

variable [DecidableEq ι]

theorem Owned.stay (h : Owned listener opened items pc) (same : p.holds = (pc t).holds) :
    Owned listener opened items (Function.update pc t p) := by
  have holds (u : ι) : (Function.update pc t p u).holds = (pc u).holds := by
    by_cases here : u = t
    · rw [here, Function.update_self, same]
    · rw [Function.update_of_ne here]
  exact {
    range := h.range
    listening := h.listening
    nodup := h.nodup
    queued := h.queued
    held := fun u fd held => h.held u fd ((holds u).symm.trans held)
    apart := fun u v fd hu hv => h.apart u v fd ((holds u).symm.trans hu) ((holds v).symm.trans hv) }

theorem Owned.gain (fd : Int) {items' : List Int} {opened' : Int → Bool} (h : Owned listener opened items pc)
    (gains : p.holds = some fd) (empty : (pc t).holds = none) (nobody : ∀ u, (pc u).holds ≠ some fd)
    (other : fd ≠ listener) (is_open : opened' fd = true)
    (range : ∀ fd, opened' fd = true → 0 ≤ fd ∧ fd ≤ intMax)
    (more : ∀ fd, opened fd = true → opened' fd = true) (away : fd ∉ items')
    (fewer : items'.Sublist items) : Owned listener opened' items' (Function.update pc t p) where
  range := range
  listening := more _ h.listening
  nodup := h.nodup.sublist fewer
  queued fd' inside := ⟨more _ (h.queued fd' (fewer.mem inside)).1, (h.queued fd' (fewer.mem inside)).2⟩
  held u fd' held := by
    by_cases here : u = t
    · subst here
      rw [Function.update_self, gains] at held
      cases held
      exact ⟨is_open, other, away⟩
    · rw [Function.update_of_ne here] at held
      have old := h.held u fd' held
      exact ⟨more _ old.1, old.2.1, fun inside => old.2.2 (fewer.mem inside)⟩
  apart u v fd' hu hv := by
    by_cases here : u = t
    · subst here
      by_cases there : v = u
      · exact there.symm
      · rw [Function.update_self, gains] at hu
        cases hu
        rw [Function.update_of_ne there] at hv
        exact absurd hv (nobody v)
    · rw [Function.update_of_ne here] at hu
      by_cases there : v = t
      · subst there
        rw [Function.update_self, gains] at hv
        cases hv
        exact absurd hu (nobody u)
      · rw [Function.update_of_ne there] at hv
        exact h.apart u v fd' hu hv

theorem Owned.link (h : Owned listener opened items pc) (here : (pc t).holds = some fd)
    (empty : p.holds = none) : Owned listener opened (items ++ [fd]) (Function.update pc t p) where
  range := h.range
  listening := h.listening
  nodup := by
    refine h.nodup.append (List.nodup_singleton fd) fun fd' inside same => ?_
    exact (h.held t fd here).2.2 (List.mem_singleton.mp same ▸ inside)
  queued fd' inside := by
    cases List.mem_append.mp inside with
    | inl inside => exact h.queued fd' inside
    | inr same =>
        rw [List.mem_singleton.mp same]
        exact ⟨(h.held t fd here).1, (h.held t fd here).2.1⟩
  held u fd' held := by
    by_cases same : u = t
    · subst same
      rw [Function.update_self, empty] at held
      cases held
    · rw [Function.update_of_ne same] at held
      have old := h.held u fd' held
      refine ⟨old.1, old.2.1, fun inside => ?_⟩
      cases List.mem_append.mp inside with
      | inl inside => exact old.2.2 inside
      | inr equal => exact same (h.apart u t fd' held (List.mem_singleton.mp equal ▸ here))
  apart u v fd' hu hv := by
    have other (w : ι) (hw : (Function.update pc t p w).holds = some fd') : w ≠ t ∧ (pc w).holds = some fd' := by
      by_cases same : w = t
      · subst same
        rw [Function.update_self, empty] at hw
        cases hw
      · rw [Function.update_of_ne same] at hw
        exact ⟨same, hw⟩
    exact h.apart u v fd' (other u hu).2 (other v hv).2

/-- A thread is through with the descriptor it holds, which may be closed. -/
theorem Owned.drop (fd : Int) {opened' : Int → Bool} (h : Owned listener opened items pc)
    (here : (pc t).holds = some fd) (empty : p.holds = none)
    (rest : ∀ fd', fd' ≠ fd → opened' fd' = opened fd') (less : ∀ fd', opened' fd' = true → opened fd' = true) :
    Owned listener opened' items (Function.update pc t p) where
  range fd' is_open := h.range fd' (less fd' is_open)
  listening := (rest listener (h.held t fd here).2.1.symm).trans h.listening
  nodup := h.nodup
  queued fd' inside := by
    have other : fd' ≠ fd := fun same => (h.held t fd here).2.2 (same ▸ inside)
    exact ⟨(rest fd' other).trans (h.queued fd' inside).1, (h.queued fd' inside).2⟩
  held u fd' held := by
    by_cases same : u = t
    · subst same
      rw [Function.update_self, empty] at held
      cases held
    · rw [Function.update_of_ne same] at held
      have other : fd' ≠ fd := fun equal => same (h.apart u t fd (equal ▸ held) here)
      have old := h.held u fd' held
      exact ⟨(rest fd' other).trans old.1, old.2⟩
  apart u v fd' hu hv := by
    have other (w : ι) (hw : (Function.update pc t p w).holds = some fd') : (pc w).holds = some fd' := by
      by_cases same : w = t
      · subst same
        rw [Function.update_self, empty] at hw
        cases hw
      · rwa [Function.update_of_ne same] at hw
    exact h.apart u v fd' (other u hu) (other v hv)

end Descriptors

section Invariant
variable {ι : Type u} {listener : Int} {s s' : State ι} {t : ι}

/-- What has been returned and what is linked are what was pushed, in its order. -/
def State.Balanced (s : State ι) (taken : List Int) : Prop :=
  s.pushed = s.returned.map (·.2) ++ taken ++ s.items

/-- How size, list and histories stand when the thread that has the mutex is at
some place. -/
def State.At (s : State ι) : Pc → Prop
  | .pushLinked => s.size + 1 = s.items.length ∧ s.Balanced []
  | .popRead fd => s.size = s.items.length ∧ s.items.head? = some fd ∧ s.Balanced []
  | .popCounted fd => s.size + 1 = s.items.length ∧ s.items.head? = some fd ∧ s.Balanced []
  | .popDeleted fd => s.size = s.items.length ∧ s.Balanced [fd]
  | .crashed => False
  | _ => s.size = s.items.length ∧ s.Balanced []

/-- Threads that wait unsignalled find the queue empty, or are about to be woken. -/
def Signals (items : List Int) (mutex : Option ι) (pc : ι → Pc) : Prop :=
  ∀ t, pc t = .popWaiting → items = [] ∨ ∃ u, mutex = some u ∧ (pc u).announces = true

structure Inv (listener : Int) (s : State ι) : Prop where
  excludes : Excludes s.mutex s.pc
  owned : Owned listener s.opened s.items s.pc
  free : s.mutex = none → s.size = s.items.length ∧ s.Balanced []
  inside : ∀ t, s.mutex = some t → s.At (s.pc t)
  signals : Signals s.items s.mutex s.pc

theorem announces_of_outside {p : Pc} (h : p.critical = false) : p.announces = false := by
  cases p <;> first | rfl | cases h

theorem Inv.at_of_critical (h : Inv listener s) (mine : (s.pc t).critical = true) : s.At (s.pc t) :=
  h.inside t ((h.excludes t).mp mine)

theorem Inv.start (h : Start listener s) : Inv listener s where
  excludes t := by rw [h.pc, h.mutex]; exact ⟨nofun, nofun⟩
  owned := {
    range := h.range
    listening := h.listening
    nodup := by rw [h.items]; exact List.nodup_nil
    queued := by rw [h.items]; exact nofun
    held := fun t fd held => by rw [h.pc] at held; cases held
    apart := fun t u fd held => by rw [h.pc] at held; cases held }
  free _ := by
    rw [State.Balanced, h.size, h.items, h.pushed, h.returned]
    exact ⟨rfl, rfl⟩
  inside t held := by
    rw [h.mutex] at held
    cases held
  signals t waits := by
    rw [h.pc] at waits
    cases waits

variable [DecidableEq ι]

theorem Signals.move {items items' : List Int} {mutex mutex' : Option ι} {pc : ι → Pc} {p : Pc}
    (h : Signals items mutex pc) (quiet : (pc t).announces = false) (awake : p ≠ .popWaiting)
    (inside : (pc t).critical = true ∨ mutex' = mutex ∨ mutex = none)
    (excludes : Excludes mutex pc) (empty : items = [] → items' = []) :
    Signals items' mutex' (Function.update pc t p) := by
  intro u waits
  by_cases here : u = t
  · subst here
    rw [Function.update_self] at waits
    exact absurd waits awake
  · rw [Function.update_of_ne here] at waits
    cases h u waits with
    | inl none_left => exact .inl (empty none_left)
    | inr announced =>
        obtain ⟨v, held, announces⟩ := announced
        have other : v ≠ t := fun same => by
          rw [same, quiet] at announces
          cases announces
        refine .inr ⟨v, ?_, by rwa [Function.update_of_ne other]⟩
        obtain mine | same | free := inside
        · have held' := (excludes t).mp mine
          rw [held] at held'
          exact absurd (Option.some.inj held') other
        · rw [same, held]
        · rw [free] at held
          cases held

theorem Inv.outside {p : Pc} {opened : Int → Bool} (h : Inv listener s)
    (before : (s.pc t).critical = false) (after : p.critical = false) (awake : p ≠ .popWaiting)
    (owned : Owned listener opened s.items (Function.update s.pc t p)) :
    Inv listener { s.move t p with opened := opened } where
  excludes := h.excludes.stay (after.trans before.symm)
  owned := owned
  free := h.free
  inside u held := by
    have other : u ≠ t := fun same => by
      have mine := (h.excludes t).mpr (same ▸ held)
      rw [before] at mine
      cases mine
    have place : (s.move t p).pc u = s.pc u := Function.update_of_ne other ..
    simp only [place]
    exact h.inside u held
  signals := h.signals.move (announces_of_outside before) awake (.inr (.inl rfl)) h.excludes id

theorem Inv.within {p : Pc} {size : Int} {items pushed : List Int} (h : Inv listener s)
    (mine : (s.pc t).critical = true) (still : p.critical = true)
    (owned : Owned listener s.opened items (Function.update s.pc t p))
    (place : State.At { s.move t p with size := size, items := items, pushed := pushed } p)
    (signals : Signals items s.mutex (Function.update s.pc t p)) :
    Inv listener { s.move t p with size := size, items := items, pushed := pushed } where
  excludes := h.excludes.stay (still.trans mine.symm)
  owned := owned
  free none_inside := by
    have held : s.mutex = none := none_inside
    rw [(h.excludes t).mp mine] at held
    cases held
  inside u held := by
    obtain rfl : t = u := Option.some.inj (((h.excludes t).mp mine).symm.trans held)
    have here : (s.move t p).pc t = p := Function.update_self ..
    simp only [here]
    exact place
  signals := signals

theorem Inv.release {p : Pc} {returned : List (ι × Int)} (h : Inv listener s)
    (mine : (s.pc t).critical = true) (out : p.critical = false)
    (owned : Owned listener s.opened s.items (Function.update s.pc t p))
    (size : s.size = s.items.length) (balanced : s.pushed = returned.map (·.2) ++ [] ++ s.items)
    (signals : Signals s.items none (Function.update s.pc t p)) :
    Inv listener { s.move t p with mutex := none, returned := returned } where
  excludes := h.excludes.give mine out
  owned := owned
  free _ := ⟨size, balanced⟩
  inside _ held := by cases held
  signals := signals

theorem Inv.take {p : Pc} (h : Inv listener s) (waits : afterLock (s.pc t) = some p)
    (free : s.mutex = none) : Inv listener { s.move t p with mutex := some t } := by
  obtain ⟨before, after, holds, -, -, awake⟩ := afterLock_spec waits
  have level := h.free free
  constructor
  case excludes => exact Excludes.take (free ▸ h.excludes) after
  case owned => exact h.owned.stay holds
  case free => exact nofun
  case inside =>
    intro u held
    obtain rfl : t = u := Option.some.inj held
    have here : (s.move t p).pc t = p := Function.update_self ..
    simp only [here]
    generalize s.pc t = q at waits
    cases q <;> cases waits <;> exact level
  case signals =>
    exact h.signals.move (announces_of_outside before) awake (.inr (.inr free)) h.excludes id

theorem Inv.broadcast (h : Inv listener s) (here : s.pc t = .pushCounted) :
    Inv listener { s with pc := Function.update (fun u => wake (s.pc u)) t .pushBroadcast } := by
  have mine : (s.pc t).critical = true := by rw [here]; rfl
  have place := h.at_of_critical mine
  have woken : wake (s.pc t) = .pushCounted := by rw [here]; rfl
  rw [here] at place
  constructor
  case excludes => exact h.excludes.wake.stay (congrArg Pc.critical woken).symm
  case owned => exact h.owned.wake.stay (congrArg Pc.holds woken).symm
  case free =>
    intro free
    rw [show s.mutex = some t from (h.excludes t).mp mine] at free
    cases free
  case inside =>
    intro u held
    obtain rfl : t = u := Option.some.inj (((h.excludes t).mp mine).symm.trans held)
    simp only [Function.update_self]
    exact place
  case signals =>
    -- Nobody is left to wait.
    intro u waits
    simp only at waits
    by_cases same : u = t
    · subst same
      rw [Function.update_self] at waits
      cases waits
    · rw [Function.update_of_ne same] at waits
      generalize s.pc u = q at waits
      cases q <;> cases waits

theorem Inv.step (h : Inv listener s) (step : Step s t s') : Inv listener s' := by
  cases step with
  | accept fd here range fresh =>
      have before : (s.pc t).critical = false := by rw [here]; rfl
      refine h.outside before rfl nofun ?_
      refine h.owned.gain fd rfl (by rw [here]; rfl) (fun u held => ?_) (fun same => ?_)
        (Function.update_self ..) (fun fd' is_open => ?_) (fun fd' is_open => ?_) (fun inside => ?_)
        (List.Sublist.refl _)
      · rw [(h.owned.held u fd held).1] at fresh
        cases fresh
      · rw [same, h.owned.listening] at fresh
        cases fresh
      · by_cases same : fd' = fd
        · exact same ▸ range
        · rw [Function.update_of_ne same] at is_open
          exact h.owned.range fd' is_open
      · by_cases same : fd' = fd
        · rw [same, Function.update_self]
        · rw [Function.update_of_ne same]
          exact is_open
      · rw [(h.owned.queued fd inside).1] at fresh
        cases fresh
  | pop here =>
      have before : (s.pc t).critical = false := by rw [here]; rfl
      exact h.outside before rfl nofun (h.owned.stay (by rw [here]; rfl))
  | lock p waits free => exact h.take waits free
  | link fd here =>
      have mine : (s.pc t).critical = true := by rw [here]; rfl
      have place := h.at_of_critical mine
      rw [here] at place
      refine h.within mine rfl (h.owned.link (by rw [here]; rfl) rfl) ⟨?_, ?_⟩ fun u waits => ?_
      · have size : s.size = s.items.length := place.1
        simp only [State.move, List.length_append, List.length_singleton]
        omega
      · exact (congrArg (· ++ [fd]) place.2).trans (List.append_assoc ..)
      · exact .inr ⟨t, (h.excludes t).mp mine, by rw [Function.update_self]; rfl⟩
  | countUp here =>
      have mine : (s.pc t).critical = true := by rw [here]; rfl
      have place := h.at_of_critical mine
      have few := h.owned.length_le
      rw [here] at place
      have exact_size : toInt32 (s.size + 1) = s.items.length := by
        rw [place.1]
        exact toInt32_of_range (by omega) few
      refine h.within mine rfl (h.owned.stay (by rw [here]; rfl)) ⟨exact_size, place.2⟩ fun u waits => ?_
      exact .inr ⟨t, (h.excludes t).mp mine, by rw [Function.update_self]; rfl⟩
  | broadcast here => exact h.broadcast here
  | pushed here =>
      have mine : (s.pc t).critical = true := by rw [here]; rfl
      have place := h.at_of_critical mine
      rw [here] at place
      refine h.release mine rfl (h.owned.stay (by rw [here]; rfl)) place.1 place.2 ?_
      exact h.signals.move (by rw [here]; rfl) nofun (.inl mine) h.excludes id
  | wait here empty =>
      have mine : (s.pc t).critical = true := by rw [here]; rfl
      have place := h.at_of_critical mine
      rw [here] at place
      have none_left : s.items = [] := List.eq_nil_of_length_eq_zero (by have := place.1; omega)
      refine h.release mine rfl (h.owned.stay (by rw [here]; rfl)) place.1 place.2 fun u waits => ?_
      exact .inl none_left
  | spurious here =>
      have before : (s.pc t).critical = false := by rw [here]; rfl
      exact h.outside before rfl nofun (h.owned.stay (by rw [here]; rfl))
  | read fd here some_size head =>
      have mine : (s.pc t).critical = true := by rw [here]; rfl
      have place := h.at_of_critical mine
      rw [here] at place
      refine h.within mine rfl (h.owned.stay (by rw [here]; rfl)) ⟨place.1, head, place.2⟩ ?_
      exact h.signals.move (by rw [here]; rfl) nofun (.inl mine) h.excludes id
  | crash here some_size head =>
      have mine : (s.pc t).critical = true := by rw [here]; rfl
      have place := h.at_of_critical mine
      rw [here] at place
      -- The size is that of the list, so there is a head.
      have size : s.size = s.items.length := place.1
      rw [List.head?_eq_none_iff.mp head] at size
      exact absurd size some_size
  | countDown fd here =>
      have mine : (s.pc t).critical = true := by rw [here]; rfl
      have place := h.at_of_critical mine
      have few := h.owned.length_le
      rw [here] at place
      obtain ⟨rest, items⟩ := List.head?_eq_some_iff.mp place.2.1
      have size := place.1
      have exact_size : toInt32 (s.size - 1) + 1 = s.items.length := by
        rw [items, List.length_cons] at size few ⊢
        rw [toInt32_of_range (by omega) (by omega)]
        omega
      refine h.within mine rfl (h.owned.stay (by rw [here]; rfl)) ⟨exact_size, place.2.1, place.2.2⟩ ?_
      exact h.signals.move (by rw [here]; rfl) nofun (.inl mine) h.excludes id
  | delete fd here head =>
      have mine : (s.pc t).critical = true := by rw [here]; rfl
      have place := h.at_of_critical mine
      rw [here] at place
      obtain ⟨rest, items⟩ := List.head?_eq_some_iff.mp place.2.1
      have apart := h.owned.nodup
      rw [items] at apart
      have tail : s.items.tail = rest := by rw [items]; rfl
      have queued : fd ∈ s.items := by rw [items]; exact List.mem_cons_self
      refine h.within mine rfl ?_ ⟨?_, ?_⟩ ?_
      · refine h.owned.gain fd rfl (by rw [here]; rfl) (fun u held => ?_)
          (h.owned.queued fd queued).2 (h.owned.queued fd queued).1 h.owned.range (fun _ is_open => is_open) ?_
          (List.tail_sublist _)
        · exact (h.owned.held u fd held).2.2 queued
        · rw [tail]
          exact (List.nodup_cons.mp apart).1
      · have size := place.1
        rw [items, List.length_cons] at size
        rw [tail]
        simp only [State.move]
        omega
      · have balanced := place.2.2
        rw [State.Balanced, items] at balanced
        simp only [State.Balanced, State.move, tail]
        simpa using balanced
      · refine h.signals.move (by rw [here]; rfl) nofun (.inl mine) h.excludes fun none_left => ?_
        rw [none_left]
        rfl
  | crashDelete fd here head =>
      have mine : (s.pc t).critical = true := by rw [here]; rfl
      have place := h.at_of_critical mine
      rw [here] at place
      have linked := place.2.1
      rw [head] at linked
      cases linked
  | popped fd here =>
      have mine : (s.pc t).critical = true := by rw [here]; rfl
      have place := h.at_of_critical mine
      rw [here] at place
      refine h.release mine rfl (h.owned.stay (by rw [here]; rfl)) place.1 ?_ ?_
      · rw [List.map_append, List.append_nil]
        exact place.2
      · exact h.signals.move (by rw [here]; rfl) nofun (.inl mine) h.excludes id
  | close fd here =>
      have before : (s.pc t).critical = false := by rw [here]; rfl
      refine h.outside before rfl nofun (h.owned.drop fd (by rw [here]; rfl) rfl
        (fun fd' other => Function.update_of_ne other ..) fun fd' is_open => ?_)
      by_cases same : fd' = fd
      · rw [same, Function.update_self] at is_open
        cases is_open
      · rwa [Function.update_of_ne same] at is_open
  | leave fd here =>
      have before : (s.pc t).critical = false := by rw [here]; rfl
      exact h.outside before rfl nofun (h.owned.drop fd (by rw [here]; rfl) rfl
        (fun _ _ => rfl) fun _ is_open => is_open)

theorem inv_of_reachable (h : (system ι listener).Reachable s) : Inv listener s :=
  h.invariant (fun _ start => .start start) fun _ _ _ inv step => inv.step step

end Invariant
end CS162.HttpServer.WorkQueue
