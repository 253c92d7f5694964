import Mathlib.Data.List.Sort
import Mathlib.Data.List.Pairwise
import Mathlib.Data.List.TakeWhile

/-!
Comparison functions in the style of C, which answer with the sign of an
integer: when one is consistent on a list, what a sort promises then, and how
the runs of equal elements of a sorted list group the list.
-/

namespace CS162.Library
universe u
variable {α : Type u}

/-- The answers of the comparison form a total preorder of the list. -/
structure Consistent (cmp : α → α → Int) (l : List α) : Prop where
  reverse : ∀ a ∈ l, ∀ b ∈ l, (cmp a b ≤ 0 ↔ 0 ≤ cmp b a)
  trans : ∀ a ∈ l, ∀ b ∈ l, ∀ c ∈ l, cmp a b ≤ 0 → cmp b c ≤ 0 → cmp a c ≤ 0

instance (cmp : α → α → Int) (l : List α) : Decidable (Consistent cmp l) :=
  decidable_of_iff
    ((∀ a ∈ l, ∀ b ∈ l, (cmp a b ≤ 0 ↔ 0 ≤ cmp b a)) ∧
      ∀ a ∈ l, ∀ b ∈ l, ∀ c ∈ l, cmp a b ≤ 0 → cmp b c ≤ 0 → cmp a c ≤ 0)
    ⟨fun h => ⟨h.1, h.2⟩, fun h => ⟨h.reverse, h.trans⟩⟩

/-- A sort whose result is only specified for consistent comparisons, and that
need not be stable. -/
structure Sorter (α : Type u) where
  sort : (α → α → Int) → List α → List α
  perm : ∀ cmp l, (sort cmp l).Perm l
  sorted : ∀ cmp l, Consistent cmp l → (sort cmp l).Pairwise fun a b => cmp a b ≤ 0

/-- The answers of the comparison form a total preorder of the whole type. -/
structure TotalPreorder (cmp : α → α → Int) : Prop where
  reverse : ∀ a b, cmp a b ≤ 0 ↔ 0 ≤ cmp b a
  trans : ∀ a b c, cmp a b ≤ 0 → cmp b c ≤ 0 → cmp a c ≤ 0

theorem TotalPreorder.refl {cmp : α → α → Int} (h : TotalPreorder cmp) (a : α) : cmp a a ≤ 0 := by
  have self := h.reverse a a
  omega

theorem TotalPreorder.le_of_pos {cmp : α → α → Int} (h : TotalPreorder cmp) {a b : α}
    (above : 0 < cmp a b) : cmp b a ≤ 0 :=
  (h.reverse b a).mpr (Int.le_of_lt above)

section Consistent
variable {cmp : α → α → Int} {l l' : List α} {a b c : α}

theorem Consistent.subset (h : Consistent cmp l) (sub : ∀ a ∈ l', a ∈ l) : Consistent cmp l' where
  reverse a ha b hb := h.reverse a (sub a ha) b (sub b hb)
  trans a ha b hb c hc := h.trans a (sub a ha) b (sub b hb) c (sub c hc)

theorem Consistent.self (h : Consistent cmp l) (ha : a ∈ l) : cmp a a = 0 := by
  have := h.reverse a ha a ha
  omega

theorem Consistent.eq_comm (h : Consistent cmp l) (ha : a ∈ l) (hb : b ∈ l) (hab : cmp a b = 0) :
    cmp b a = 0 := by
  have := h.reverse a ha b hb
  have := h.reverse b hb a ha
  omega

theorem Consistent.eq_trans (h : Consistent cmp l) (ha : a ∈ l) (hb : b ∈ l) (hc : c ∈ l)
    (hab : cmp a b = 0) (hbc : cmp b c = 0) : cmp a c = 0 := by
  have forth := h.trans a ha b hb c hc (by omega) (by omega)
  have back := h.trans c hc b hb a ha (by have := h.eq_comm hb hc hbc; omega)
    (by have := h.eq_comm ha hb hab; omega)
  have := h.reverse c hc a ha
  omega

/-- Members told apart in the order of a list are told apart in either order. -/
theorem Consistent.ne_of_pairwise (h : Consistent cmp l) (inside : ∀ a ∈ l', a ∈ l)
    (distinct : l'.Pairwise fun a b => cmp a b ≠ 0) (ha : a ∈ l') (hb : b ∈ l') (ne : a ≠ b) :
    cmp a b ≠ 0 := by
  have symm : Std.Symm fun a b => cmp a b ≠ 0 ∧ cmp b a ≠ 0 := ⟨fun _ _ h => ⟨h.2, h.1⟩⟩
  have both : l'.Pairwise fun a b => cmp a b ≠ 0 ∧ cmp b a ≠ 0 :=
    distinct.imp_of_mem fun ha hb differ =>
      ⟨differ, fun equal => differ (h.eq_comm (inside _ hb) (inside _ ha) equal)⟩
  exact (both.forall ha hb ne).1

theorem Consistent.of_rank {β : Type*} [LinearOrder β] (rank : α → β)
    (below : ∀ a ∈ l, ∀ b ∈ l, (cmp a b < 0 ↔ rank a < rank b))
    (above : ∀ a ∈ l, ∀ b ∈ l, (0 < cmp a b ↔ rank b < rank a)) : Consistent cmp l where
  reverse a ha b hb := by
    rw [← not_lt, above a ha b hb, ← below b hb a ha, not_lt]
  trans a ha b hb c hc hab hbc := by
    rw [← not_lt, above a ha b hb] at hab
    rw [← not_lt, above b hb c hc] at hbc
    rw [← not_lt, above a ha c hc]
    exact not_lt.mpr ((not_lt.mp hab).trans (not_lt.mp hbc))

end Consistent

/-- Insertion sorts the members of the list, on which the comparison is total
and transitive. -/
theorem insertionSort_sorted {cmp : α → α → Int} {l : List α} (h : Consistent cmp l) :
    (l.insertionSort fun a b => cmp a b ≤ 0).Pairwise fun a b => cmp a b ≤ 0 := by
  let le (a b : { a // a ∈ l }) : Prop := cmp a.1 b.1 ≤ 0
  have total : Std.Total le := ⟨fun a b => by
    have := h.reverse a.1 a.2 b.1 b.2
    simp only [le]
    omega⟩
  have trans : IsTrans _ le := ⟨fun a b c => h.trans a.1 a.2 b.1 b.2 c.1 c.2⟩
  have sorted := List.pairwise_insertionSort le l.attach
  have same := List.map_insertionSort le (fun a b => cmp a b ≤ 0) Subtype.val l.attach
    fun _ _ _ _ => Iff.rfl
  rw [List.attach_map_subtype_val] at same
  rw [← same]
  exact List.pairwise_map.mpr sorted

def Sorter.insertion (α : Type u) : Sorter α where
  sort cmp l := l.insertionSort fun a b => cmp a b ≤ 0
  perm _ l := List.perm_insertionSort _ l
  sorted _ _ h := insertionSort_sorted h

/-- The runs of a list from its first member on: a member joins the run while it
equals the run's first. -/
def runsFrom (cmp : α → α → Int) : α → List α → List α → List (List α)
  | _, run, [] => [run]
  | first, run, a :: rest =>
      if cmp first a ≠ 0 then run :: runsFrom cmp a [a] rest
      else runsFrom cmp first (run ++ [a]) rest

def runs (cmp : α → α → Int) : List α → List (List α)
  | [] => []
  | a :: l => runsFrom cmp a [a] l

section Runs
variable {cmp : α → α → Int} {l : List α} {a first : α} {run : List α}

theorem runsFrom_eq : runsFrom cmp first run l =
    (run ++ l.takeWhile fun a => cmp first a = 0) :: runs cmp (l.dropWhile fun a => cmp first a = 0) := by
  induction l generalizing run with
  | nil => simp [runsFrom, runs]
  | cons a l ih =>
      by_cases same : cmp first a = 0
      · simp [runsFrom, same, ih]
      · simp [runsFrom, same, runs]

theorem flatten_runsFrom (run l : List α) : (runsFrom cmp first run l).flatten = run ++ l := by
  induction l generalizing first run with
  | nil => rw [runsFrom, List.flatten_singleton, List.append_nil]
  | cons a l ih =>
      rw [runsFrom]
      split
      · rw [List.flatten_cons, ih, List.singleton_append]
      · rw [ih, List.append_assoc, List.singleton_append]

theorem flatten_runs (l : List α) : (runs cmp l).flatten = l := by
  cases l with
  | nil => rfl
  | cons a l => exact flatten_runsFrom [a] l

/-- Behind the run of the first member of a sorted list nothing equals it. -/
theorem ne_of_mem_dropWhile (h : Consistent cmp (first :: l))
    (sorted : (first :: l).Pairwise fun a b => cmp a b ≤ 0)
    (ha : a ∈ l.dropWhile fun a => cmp first a = 0) : cmp first a ≠ 0 := by
  induction l with
  | nil => cases ha
  | cons b l ih =>
      obtain ⟨least, tail⟩ := List.pairwise_cons.mp sorted
      have hb : b ∈ first :: b :: l := by simp
      by_cases same : cmp first b = 0
      · rw [List.dropWhile_cons_of_pos (by simp [same])] at ha
        refine ih (h.subset (by simp +contextual)) ?_ ha
        exact List.pairwise_cons.mpr ⟨fun c hc => least c (by simp [hc]), (List.pairwise_cons.mp tail).2⟩
      · rw [List.dropWhile_cons_of_neg (by simp [same])] at ha
        intro equal
        have below := least b (by simp)
        cases ha with
        | head => exact same equal
        | tail _ ha =>
            -- `a` equals the first and comes after `b`, so `b` equals it too.
            have hmem : a ∈ first :: b :: l := List.mem_cons_of_mem _ (List.mem_cons_of_mem _ ha)
            have after := (List.pairwise_cons.mp tail).1 a ha
            have back := h.eq_comm (by simp) hmem equal
            have := h.trans b hb a hmem first (by simp) after (by omega)
            have := h.reverse b hb first (by simp)
            omega

/-- The run of the first member is its class, and the other classes lie behind it. -/
theorem filter_eq_run (h : Consistent cmp (first :: l))
    (sorted : (first :: l).Pairwise fun a b => cmp a b ≤ 0) :
    ((first :: l).filter fun a => cmp first a = 0) =
      first :: l.takeWhile fun a => cmp first a = 0 := by
  rw [List.filter_cons_of_pos (by simp [h.self (a := first) (by simp)])]
  have split := List.takeWhile_append_dropWhile (p := fun a => cmp first a = 0) (l := l)
  have front : (l.takeWhile fun a => cmp first a = 0).filter (fun a => cmp first a = 0) =
      l.takeWhile fun a => cmp first a = 0 :=
    List.filter_eq_self.mpr fun a ha => List.mem_takeWhile_imp (p := fun a => cmp first a = 0) ha
  have back : (l.dropWhile fun a => cmp first a = 0).filter (fun a => cmp first a = 0) = [] :=
    List.filter_eq_nil_iff.mpr fun a ha => by simpa using ne_of_mem_dropWhile h sorted ha
  refine congrArg _ ?_
  rw [← split, List.filter_append, split, front, back, List.append_nil]

theorem filter_eq_filter_dropWhile (h : Consistent cmp (first :: l))
    (sorted : (first :: l).Pairwise fun a b => cmp a b ≤ 0)
    (ha : a ∈ l.dropWhile fun a => cmp first a = 0) :
    ((first :: l).filter fun b => cmp a b = 0) =
      (l.dropWhile fun a => cmp first a = 0).filter fun b => cmp a b = 0 := by
  have away := ne_of_mem_dropWhile h sorted ha
  have ha' : a ∈ first :: l := List.mem_cons_of_mem _ ((List.dropWhile_sublist _).mem ha)
  have apart (b : α) (hb : b ∈ first :: l) (equal : cmp first b = 0) : ¬ cmp a b = 0 := by
    intro equal'
    exact away (h.eq_trans (by simp) hb ha' equal (h.eq_comm ha' hb equal'))
  rw [List.filter_cons_of_neg (by simpa using apart first (by simp) (h.self (by simp)))]
  conv_lhs => rw [← List.takeWhile_append_dropWhile (p := fun a => cmp first a = 0) (l := l)]
  have front : (l.takeWhile fun a => cmp first a = 0).filter (fun b => cmp a b = 0) = [] := by
    refine List.filter_eq_nil_iff.mpr fun b hb => ?_
    have equal : cmp first b = 0 := by
      simpa using List.mem_takeWhile_imp (p := fun a => cmp first a = 0) hb
    simpa using apart b (List.mem_cons_of_mem _ ((List.takeWhile_sublist _).mem hb)) equal
  rw [List.filter_append, front, List.nil_append]

/-- The runs of a sorted list are its classes: the members equal to each of some
representatives, no two of which are equal. -/
theorem runs_eq_classes (h : Consistent cmp l) (sorted : l.Pairwise fun a b => cmp a b ≤ 0) :
    ∃ heads : List α, heads.Sublist l ∧ (heads.Pairwise fun a b => cmp a b ≠ 0) ∧
      (∀ a ∈ l, ∃ r ∈ heads, cmp r a = 0) ∧
      runs cmp l = heads.map fun r => l.filter fun a => cmp r a = 0 := by
  induction hn : l.length using Nat.strong_induction_on generalizing l with
  | _ n ih =>
      cases l with
      | nil => exact ⟨[], .slnil, .nil, by simp, rfl⟩
      | cons first l =>
          have short : (l.dropWhile fun a => cmp first a = 0).Sublist l := List.dropWhile_sublist _
          have less : (l.dropWhile fun a => cmp first a = 0).length < n := by
            have := short.length_le
            rw [List.length_cons] at hn
            omega
          obtain ⟨heads, inside, distinct, cover, classes⟩ := ih _ less
            (h.subset fun a ha => List.mem_cons_of_mem _ (short.mem ha))
            ((List.pairwise_cons.mp sorted).2.sublist short) rfl
          refine ⟨first :: heads, (inside.trans short).cons_cons _, ?_, fun a ha => ?_, ?_⟩
          · exact List.pairwise_cons.mpr
              ⟨fun a ha => ne_of_mem_dropWhile h sorted (inside.mem ha), distinct⟩
          · by_cases equal : cmp first a = 0
            · exact ⟨first, by simp, equal⟩
            · have : a ∈ l.dropWhile fun a => cmp first a = 0 := by
                cases ha with
                | head => exact absurd (h.self (by simp)) equal
                | tail _ ha =>
                    rw [← List.takeWhile_append_dropWhile (p := fun a => cmp first a = 0) (l := l)] at ha
                    refine (List.mem_append.mp ha).resolve_left fun front => equal ?_
                    simpa using List.mem_takeWhile_imp (p := fun a => cmp first a = 0) front
              obtain ⟨r, hr, equal⟩ := cover a this
              exact ⟨r, List.mem_cons_of_mem _ hr, equal⟩
          · rw [runs, runsFrom_eq, classes, List.map_cons, filter_eq_run h sorted]
            refine congrArg _ (List.map_congr_left fun r hr => ?_)
            exact (filter_eq_filter_dropWhile h sorted (inside.mem hr)).symm

end Runs
end CS162.Library
