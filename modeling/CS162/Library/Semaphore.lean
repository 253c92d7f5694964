import CS162.Library.Counting
import Mathlib.Data.Fintype.Defs
import Mathlib.Logic.Function.Basic

/-!
A counting semaphore whose wake-ups hand nothing over: who is woken tests the
count again, and somebody else may have taken the unit first. The law says that
the count is what was put in less what was taken out, that the list holds exactly
the sleepers, and that units lie unused beside a sleeper only while as many woken
members have yet to test. The count is kept modulo `m`, as a machine word is.
-/

namespace CS162.Library
universe u

/-- Where a member is, as one semaphore sees it. -/
inductive Place where
  | away
  | asleep
  | woken
  deriving DecidableEq

/-- A semaphore with its members' places; `ups` and `downs` count the completed
operations. -/
structure Counter (ι : Type u) where
  units : Nat
  list : List ι
  place : ι → Place
  ups : Nat
  downs : Nat

variable {ι : Type u}

/-- What may happen to a semaphore in one atomic step. -/
inductive Counter.Turn [DecidableEq ι] (m : Nat) : Counter ι → Counter ι → Prop where
  | same (c : Counter ι) : Turn m c c
  | sleep {list : List ι} {place : ι → Place} {ups downs : Nat} (t : ι)
      (awake : place t ≠ .asleep) :
      Turn m ⟨0, list, place, ups, downs⟩
        ⟨0, list ++ [t], Function.update place t .asleep, ups, downs⟩
  | take {units : Nat} {list : List ι} {place : ι → Place} {ups downs : Nat} (t : ι)
      (awake : place t ≠ .asleep) :
      Turn m ⟨units + 1, list, place, ups, downs⟩
        ⟨units, list, Function.update place t .away, ups, downs + 1⟩
  | tryTake {units : Nat} {list : List ι} {place : ι → Place} {ups downs : Nat} :
      Turn m ⟨units + 1, list, place, ups, downs⟩ ⟨units, list, place, ups, downs + 1⟩
  | put {units : Nat} {place : ι → Place} {ups downs : Nat} :
      Turn m ⟨units, [], place, ups, downs⟩ ⟨(units + 1) % m, [], place, ups + 1, downs⟩
  | wake {units : Nat} {list : List ι} {place : ι → Place} {ups downs : Nat} (t : ι) :
      Turn m ⟨units, t :: list, place, ups, downs⟩
        ⟨(units + 1) % m, list, Function.update place t .woken, ups + 1, downs⟩

/-- How many members were woken and have not tested the count since. -/
def wokenCount [Fintype ι] (place : ι → Place) : Nat :=
  (Finset.univ.filter fun t => place t = .woken).card

structure Counter.Law [Fintype ι] (m initial : Nat) (c : Counter ι) : Prop where
  downs : c.downs ≤ initial + c.ups
  units : c.units = (initial + c.ups - c.downs) % m
  listed : ∀ t, t ∈ c.list ↔ c.place t = .asleep
  nodup : c.list.Nodup
  wakes : c.list ≠ [] → c.units ≤ wokenCount c.place

section Count
variable [DecidableEq ι] [Fintype ι] {place : ι → Place} {t : ι}

theorem wokenCount_away (place : ι → Place) (t : ι) :
    wokenCount place ≤ wokenCount (Function.update place t .away) + 1 :=
  card_filter_le_succ (i := t) fun k hk => by rw [Function.update_of_ne hk]

theorem wokenCount_woken (asleep : place t = .asleep) :
    wokenCount (Function.update place t .woken) = wokenCount place + 1 := by
  apply card_filter_set (Finset.mem_univ t)
  · rw [asleep]
    decide
  · exact Function.update_self t _ place
  · intro k hk
    rw [Function.update_of_ne hk]

end Count

namespace Counter
variable [Fintype ι] {m initial : Nat} {c c' : Counter ι}

theorem Law.init (small : initial < m) : Law m initial (⟨initial, [], fun _ : ι => .away, 0, 0⟩) where
  downs := Nat.zero_le _
  units := (Nat.mod_eq_of_lt small).symm
  listed t := by simp
  nodup := List.nodup_nil
  wakes none := absurd rfl none

theorem units_put {units total downs : Nat} (le : downs ≤ total) (h : units = (total - downs) % m) :
    (units + 1) % m = (total + 1 - downs) % m := by
  rw [h, Nat.mod_add_mod, Nat.sub_add_comm le]

theorem units_take {units total downs : Nat} (le : downs ≤ total)
    (h : units + 1 = (total - downs) % m) :
    downs + 1 ≤ total ∧ units = (total - (downs + 1)) % m := by
  have split := Nat.div_add_mod (total - downs) m
  rw [← h] at split
  have less : total - (downs + 1) = units + m * ((total - downs) / m) := by omega
  refine ⟨by omega, ?_⟩
  rw [less, Nat.add_mul_mod_self_left]
  rcases Nat.eq_zero_or_pos m with rfl | pos
  · exact (Nat.mod_zero units).symm
  · have bound := Nat.mod_lt (total - downs) pos
    exact (Nat.mod_eq_of_lt (by omega)).symm

theorem Law.exact (h : Law m initial c) (fits : initial + c.ups - c.downs < m) :
    c.units + c.downs = initial + c.ups := by
  have count := h.units
  have le := h.downs
  rw [Nat.mod_eq_of_lt fits] at count
  omega

variable [DecidableEq ι]

theorem Law.turn (h : Law m initial c) (step : Turn m c c') : Law m initial c' := by
  cases step with
  | same => exact h
  | sleep t awake =>
      refine ⟨h.downs, h.units, fun k => ?_, ?_, fun _ => Nat.zero_le _⟩
      · have before := h.listed k
        simp only [List.mem_append, List.mem_singleton] at before ⊢
        rw [before]
        by_cases hk : k = t
        · simp [hk]
        · simp [hk]
      · apply List.Nodup.append h.nodup (List.nodup_singleton t)
        simp only [List.disjoint_singleton]
        intro listed
        exact awake ((h.listed t).mp listed)
  | @take units list place ups downs t awake =>
      have count := units_take h.downs h.units
      refine ⟨count.1, count.2, fun k => ?_, h.nodup, fun some => ?_⟩
      · have before := h.listed k
        simp only at before ⊢
        rw [before]
        by_cases hk : k = t
        · simp [hk, awake]
        · rw [Function.update_of_ne hk]
      · have before := h.wakes some
        have after := wokenCount_away place t
        simp only at before ⊢
        omega
  | @tryTake units list place ups downs =>
      have count := units_take h.downs h.units
      exact ⟨count.1, count.2, h.listed, h.nodup, fun some => Nat.le_of_succ_le (h.wakes some)⟩
  | put =>
      refine ⟨Nat.le_succ_of_le h.downs, units_put h.downs h.units, h.listed, h.nodup, ?_⟩
      intro none
      exact absurd rfl none
  | @wake units list place ups downs t =>
      have asleep : place t = .asleep := (h.listed t).mp List.mem_cons_self
      have nodup := List.nodup_cons.mp h.nodup
      refine ⟨Nat.le_succ_of_le h.downs, units_put h.downs h.units, fun k => ?_, nodup.2, fun _ => ?_⟩
      · have before := h.listed k
        simp only [List.mem_cons] at before ⊢
        by_cases hk : k = t
        · simp [hk, nodup.1]
        · rw [Function.update_of_ne hk, ← before]
          simp [hk]
      · have before := h.wakes (List.cons_ne_nil t list)
        have after := Nat.mod_le (units + 1) m
        simp only at before ⊢
        rw [wokenCount_woken asleep]
        omega

end Counter
end CS162.Library
