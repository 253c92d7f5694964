import CS162.Pintos.Bitmap

/-!
The page allocator (proj-pregame: threads/palloc.c), for the kernel pool. Pages go
by their numbers, `pg_no`; `none` is a failing `ASSERT`. Clearing pages and
filling freed ones with 0xcc is left out.
-/

namespace CS162.Pintos

/-- `struct pool`. No pool starts at page 0, which the null pointer is in. -/
structure Pool where
  base : Nat
  usedMap : Bitmap
  base_pos : 0 < base

namespace Pool

def pallocGetMultiple (pool : Pool) (pageCnt : Nat) : Option (Option Nat × Pool) :=
  if pageCnt = 0 then some (none, pool) else
  match pool.usedMap.scanAndFlip pageCnt false with
  | some (some pageIdx, map) => some (some (pool.base + pageIdx), { pool with usedMap := map })
  | some (none, map) => some (none, { pool with usedMap := map })
  | none => none

/-- `palloc_free_multiple`. A page of another pool is an error here. -/
def pallocFreeMultiple (pool : Pool) (page pageCnt : Nat) : Option Pool :=
  if page = 0 ∨ pageCnt = 0 then some pool else
  if pool.base ≤ page ∧ page < pool.base + pool.usedMap.size then
    match pool.usedMap.all (page - pool.base) pageCnt with
    | some true =>
        (pool.usedMap.setMultiple (page - pool.base) pageCnt false).map fun map =>
          { pool with usedMap := map }
    | _ => none
  else none

def Used (pool : Pool) (page : Nat) : Prop :=
  pool.base ≤ page ∧ pool.usedMap.test (page - pool.base) = true

instance (pool : Pool) (page : Nat) : Decidable (pool.Used page) :=
  inferInstanceAs (Decidable (_ ∧ _))

/-- So many free pages lie side by side. -/
def HasRun (pool : Pool) (cnt : Nat) : Prop :=
  0 < cnt ∧ ∃ page, pool.base ≤ page ∧ page + cnt ≤ pool.base + pool.usedMap.size ∧
    ∀ i, page ≤ i → i < page + cnt → ¬ pool.Used i

section Spec
variable {pool : Pool} {page cnt : Nat}

theorem Used.inside {i : Nat} (h : pool.Used i) :
    pool.base ≤ i ∧ i < pool.base + pool.usedMap.size := by
  have := Bitmap.lt_of_test h.2
  have := h.1
  omega

theorem pallocGetMultiple_spec (pool : Pool) (some_pages : cnt ≠ 0) :
    pool.pallocGetMultiple cnt = some (none, pool) ∨
      ∃ page pool', pool.pallocGetMultiple cnt = some (some page, pool') ∧ 0 < page ∧
        (∀ i, page ≤ i → i < page + cnt → ¬ pool.Used i) ∧
        ∀ i, pool'.Used i ↔ (page ≤ i ∧ i < page + cnt) ∨ pool.Used i := by
  rw [pallocGetMultiple, if_neg some_pages]
  obtain none | ⟨idx, map, done, inside, size, free, test⟩ :=
    pool.usedMap.scanAndFlip_spec cnt false
  · rw [none]
    exact .inl rfl
  · have pos := pool.base_pos
    rw [done]
    refine .inr ⟨_, _, rfl, by omega, fun i lower upper used => ?_, fun i => ?_⟩
    · have := free (i - pool.base) (by omega) (by omega)
      rw [used.2] at this
      cases this
    · simp only [Used, test]
      by_cases run : idx ≤ i - pool.base ∧ i - pool.base < idx + cnt
      · rw [if_pos run]
        simp only [Bool.not_false, and_true]
        refine ⟨fun lower => .inl (by omega), ?_⟩
        rintro (⟨lower, _⟩ | old)
        · omega
        · exact old.1
      · rw [if_neg run]
        refine ⟨.inr, ?_⟩
        rintro (new | old)
        · omega
        · exact old

theorem pallocGetMultiple_eq_none :
    pool.pallocGetMultiple cnt = some (none, pool) ↔ ¬ pool.HasRun cnt := by
  rw [pallocGetMultiple]
  split
  next empty => exact iff_of_true rfl fun run => absurd empty (Nat.pos_iff_ne_zero.mp run.1)
  next some_pages =>
    rw [Bitmap.scanAndFlip]
    cases found : pool.usedMap.scan cnt false with
    | none =>
        refine iff_of_true rfl fun run => ?_
        obtain ⟨_, page, lower, upper, free⟩ := run
        refine Bitmap.scan_eq_none (page - pool.base) found (by omega) fun i first last => ?_
        by_contra set
        refine free (pool.base + i) (by omega) (by omega) ⟨Nat.le_add_right .., ?_⟩
        rw [Nat.add_sub_cancel_left]
        exact (Bool.not_eq_false _).mp set
    | some idx =>
        obtain ⟨inside, free⟩ := Bitmap.scan_eq_some found
        obtain ⟨map, done, _⟩ := Bitmap.setMultiple_spec (b := pool.usedMap) true inside
        have taken : pool.usedMap.setMultiple idx cnt (!false) = some map := done
        simp only [taken, Option.map_some]
        refine iff_of_false (fun same => by cases same) fun none => none ?_
        refine ⟨Nat.pos_of_ne_zero some_pages, pool.base + idx, Nat.le_add_right .., by omega,
          fun i lower upper used => ?_⟩
        have bit := free (i - pool.base) (by omega) (by omega)
        rw [used.2] at bit
        cases bit

theorem pallocGetMultiple_isSome {result : Option Nat} {pool' : Pool}
    (got : pool.pallocGetMultiple cnt = some (result, pool')) :
    result.isSome = true ↔ pool.HasRun cnt := by
  by_cases run : pool.HasRun cnt
  · obtain none | ⟨page, pool'', some, _⟩ :=
      pool.pallocGetMultiple_spec (Nat.pos_iff_ne_zero.mp run.1)
    · exact absurd run (pallocGetMultiple_eq_none.mp none)
    · rw [some] at got
      cases got
      exact iff_of_true rfl run
  · rw [pallocGetMultiple_eq_none.mpr run] at got
    cases got
    exact iff_of_false Bool.false_ne_true run

theorem pallocFreeMultiple_spec (some_pages : cnt ≠ 0)
    (used : ∀ i, page ≤ i → i < page + cnt → pool.Used i) :
    ∃ pool', pool.pallocFreeMultiple page cnt = some pool' ∧
      ∀ i, pool'.Used i ↔ pool.Used i ∧ ¬ (page ≤ i ∧ i < page + cnt) := by
  have pos := pool.base_pos
  have first := (used page (Nat.le_refl _) (by omega)).inside
  have last := (used (page + cnt - 1) (by omega) (by omega)).inside
  obtain ⟨map, done, _, test⟩ := Bitmap.setMultiple_spec (b := pool.usedMap) false
    (show page - pool.base + cnt ≤ pool.usedMap.size by omega)
  refine ⟨{ pool with usedMap := map }, ?_, fun i => ?_⟩
  · rw [pallocFreeMultiple, if_neg (by omega), if_pos first,
      Bitmap.all_eq_true (by omega) fun i lower upper => ?_, done]
    · rfl
    · have := (used (pool.base + i) (by omega) (by omega)).2
      rwa [show pool.base + i - pool.base = i by omega] at this
  · simp only [Used, test]
    by_cases run : page - pool.base ≤ i - pool.base ∧ i - pool.base < page - pool.base + cnt
    · rw [if_pos run]
      simp only [Bool.false_eq_true, and_false, false_iff, not_and]
      intro old
      have := old.1
      omega
    · rw [if_neg run]
      refine ⟨fun old => ⟨old, ?_⟩, fun h => h.1⟩
      omega

end Spec
end Pool
end CS162.Pintos
