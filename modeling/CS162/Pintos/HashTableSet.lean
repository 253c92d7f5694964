import CS162.Pintos.HashTable

/-!
A hash table refines a set of elements no two of which are equal, whatever the hash, and
whether the table can grow and shrink or not. The iterator visits each element once.
-/

namespace CS162.Pintos.HashTable
open CS162.Library
universe u

section Order
variable {α : Type u} {f : HashOrder α} {a b c : α}

theorem equal_iff : equal f a b = true ↔ f.less a b = false ∧ f.less b a = false := by
  simp only [equal, Bool.and_eq_true, Bool.not_eq_true']

theorem equal_refl : equal f a a = true := by
  have order := f.order
  have none : f.less a a = false := Bool.eq_false_of_not_eq_true (order.irrefl a)
  exact equal_iff.mpr ⟨none, none⟩

theorem equal_symm (h : equal f a b = true) : equal f b a = true :=
  equal_iff.mpr (equal_iff.mp h).symm

theorem equal_trans (h : equal f a b = true) (h' : equal f b c = true) : equal f a c = true := by
  have not {x y : α} (none : f.less x y = false) : ¬ f.less x y = true := by
    rw [none]
    exact Bool.false_ne_true
  obtain ⟨forth, back⟩ := equal_iff.mp h
  obtain ⟨forth', back'⟩ := equal_iff.mp h'
  have both := f.order.incomp_trans a b c ⟨not forth, not back⟩ ⟨not forth', not back'⟩
  exact equal_iff.mpr ⟨Bool.eq_false_of_not_eq_true both.1, Bool.eq_false_of_not_eq_true both.2⟩

theorem bucketIdx_eq (h : equal f a b = true) (cnt : Nat) : bucketIdx f cnt a = bucketIdx f cnt b := by
  obtain ⟨forth, back⟩ := equal_iff.mp h
  rw [bucketIdx, bucketIdx, f.consistent a b forth back]

theorem bucketIdx_lt {k : Nat} (e : α) : bucketIdx f (2 ^ k) e < 2 ^ k := by
  rw [bucketIdx, Nat.and_two_pow_sub_one_eq_mod]
  exact Nat.mod_lt _ (Nat.two_pow_pos k)

end Order

section
variable {α : Type u} {f : HashOrder α} {h h' : Hash α} {e x : α} {s : Set α}

/-- The elements of a table in the order of the buckets. -/
abbrev Hash.elements (h : Hash α) : List α := Buckets.elements h.buckets h.bucketCnt

theorem mem_stored : e ∈ stored h ↔ e ∈ h.elements := Buckets.mem_elements.symm

/-- Every element lies in its bucket and nowhere else, no two are equal, and their number and
that of the buckets are right. -/
structure Kept (f : HashOrder α) (h : Hash α) : Prop where
  power : ∃ k, h.bucketCnt = 2 ^ k ∧ 2 ≤ k
  placed : Buckets.Placed (bucketIdx f h.bucketCnt) h.buckets h.bucketCnt
  distinct : ∀ x ∈ stored h, ∀ y ∈ stored h, equal f x y = true → x = y
  counted : h.elemCnt = h.elements.length

theorem Kept.inside (k : Kept f h) (e : α) : bucketIdx f h.bucketCnt e < h.bucketCnt := by
  obtain ⟨n, power, _⟩ := k.power
  rw [power]
  exact bucketIdx_lt e

theorem Kept.init {junk : Nat → List α} (init : hashInit true junk = some h) :
    Kept f h ∧ stored h = ∅ := by
  cases init
  have none (e : α) (i : Nat) (inside : i < 4) :
      e ∉ (if i < 4 then [] else junk i : List α) := by
    rw [if_pos inside]
    exact List.not_mem_nil
  have empty : Hash.elements (hashClear ⟨0, 4, junk⟩).2 = [] := by
    apply List.eq_nil_iff_forall_not_mem.mpr
    intro e mem
    obtain ⟨i, inside, here⟩ := Buckets.mem_elements.mp mem
    exact none e i inside here
  have unstored (e : α) : e ∉ stored (hashClear ⟨0, 4, junk⟩).2 := by
    rw [mem_stored, empty]
    exact List.not_mem_nil
  refine ⟨⟨⟨2, rfl, Nat.le_refl 2⟩, ⟨?_, ?_⟩, ?_, ?_⟩, Set.eq_empty_of_forall_notMem unstored⟩
  · exact fun i inside e here => absurd here (none e i inside)
  · intro i inside
    have inside : i < 4 := inside
    show (if i < 4 then [] else junk i).Nodup
    rw [if_pos inside]
    exact List.nodup_nil
  · exact fun x stored => absurd stored (unstored x)
  · rw [empty]
    rfl

/-- `hash_clear` leaves nothing. -/
theorem Kept.clear (k : Kept f h) : Kept f (hashClear h).2 ∧ stored (hashClear h).2 = ∅ := by
  have none (i : Nat) (inside : i < h.bucketCnt) : (hashClear h).2.buckets i = [] := if_pos inside
  have empty : Hash.elements (hashClear h).2 = [] := by
    apply List.eq_nil_iff_forall_not_mem.mpr
    intro e mem
    obtain ⟨i, inside, here⟩ := Buckets.mem_elements.mp mem
    rw [none i inside] at here
    cases here
  have unstored (e : α) : e ∉ stored (hashClear h).2 := by
    rw [mem_stored, empty]
    exact List.not_mem_nil
  refine ⟨⟨k.power, ⟨?_, ?_⟩, fun x stored => absurd stored (unstored x), ?_⟩,
    Set.eq_empty_of_forall_notMem unstored⟩
  · intro i inside e here
    rw [none i inside] at here
    cases here
  · intro i inside
    rw [none i inside]
    exact List.nodup_nil
  · rw [empty]
    rfl

/-- `find_elem` in the bucket of an element. -/
theorem Kept.find (k : Kept f h) (e : α) : Matches f (stored h) e (hashFind f h e) := by
  have inside := k.inside e
  rw [hashFind, findElem]
  cases found : (findBucket f h e).find? (fun x => equal f x e) with
  | some x =>
      have hit := List.find?_some (p := fun x => equal f x e) found
      exact ⟨⟨_, inside, List.mem_of_find?_eq_some found⟩, hit⟩
  | none =>
      intro x here
      by_contra hit
      have hit : equal f x e = true := Bool.eq_true_of_not_eq_false hit
      have bucket := (k.placed.mem (k.inside x)).mp (mem_stored.mp here)
      rw [bucketIdx_eq hit] at bucket
      exact List.find?_eq_none.mp found x bucket hit

theorem Kept.insertElem (k : Kept f h) (none : Matches f (stored h) e .none) :
    Kept f (insertElem f h e) ∧ stored (insertElem f h e) = insert e (stored h) := by
  have inside := k.inside e
  have new : e ∉ h.buckets (bucketIdx f h.bucketCnt e) := fun here =>
    Bool.noConfusion ((none e ⟨_, inside, here⟩).symm.trans equal_refl)
  have members : stored (HashTable.insertElem f h e) = insert e (stored h) := by
    ext x
    rw [mem_stored, Set.mem_insert_iff, mem_stored]
    exact Buckets.mem_elements_push inside
  refine ⟨⟨k.power, k.placed.push new, ?_, ?_⟩, members⟩
  · rw [members]
    intro x hx y hy same
    cases hx with
    | inl first =>
        subst first
        cases hy with
        | inl second => exact second.symm
        | inr old => exact absurd (none y old) (by rw [equal_symm same]; exact Bool.noConfusion)
    | inr old =>
        cases hy with
        | inl second =>
            subst second
            exact absurd (none x old) (by rw [same]; exact Bool.noConfusion)
        | inr old' => exact k.distinct x old y old' same
  · exact (congrArg (· + 1) k.counted).trans (k.placed.length_push new inside).symm

/-- `rehash` moves every element into its new bucket, or leaves the table as it is. -/
theorem Kept.rehash (k : Kept f h) (granted : Bool) :
    Kept f (rehash f h granted) ∧ stored (rehash f h granted) = stored h := by
  obtain ⟨n, power, large⟩ := newBucketCnt_eq h.elemCnt
  simp only [HashTable.rehash]
  split
  next => exact ⟨k, rfl⟩
  next =>
    split
    next =>
      have moved : (List.range h.bucketCnt).foldl (fun b i => (h.buckets i).foldl
          (Buckets.push (bucketIdx f (newBucketCnt h.elemCnt))) b) (fun _ => []) =
          h.elements.foldl (Buckets.push (bucketIdx f (newBucketCnt h.elemCnt))) fun _ => [] := by
        rw [Hash.elements, Buckets.elements, List.foldl_flatMap]
      have bound : ∀ e ∈ h.elements, bucketIdx f (newBucketCnt h.elemCnt) e <
          newBucketCnt h.elemCnt := by
        intro e _
        rw [power]
        exact bucketIdx_lt e
      obtain ⟨placed, members⟩ := Buckets.placed_foldl k.placed.nodup bound
      rw [moved]
      have same : stored (⟨h.elemCnt, newBucketCnt h.elemCnt, h.elements.foldl
          (Buckets.push (bucketIdx f (newBucketCnt h.elemCnt))) fun _ => []⟩ : Hash α) = stored h := by
        ext x
        rw [mem_stored, mem_stored]
        exact members x
      refine ⟨⟨⟨n, power, large⟩, placed, same ▸ k.distinct, ?_⟩, same⟩
      exact k.counted.trans (Buckets.length_foldl k.placed.nodup bound).symm
    next => exact ⟨k, rfl⟩

section Calls
variable [DecidableEq α]

theorem Kept.removeElem (k : Kept f h) (here : x ∈ stored h) :
    Kept f (removeElem h x) ∧ ∀ y, y ∈ stored (removeElem h x) ↔ y ≠ x ∧ y ∈ stored h := by
  have members (y : α) : y ∈ stored (HashTable.removeElem h x) ↔ y ≠ x ∧ y ∈ stored h := by
    rw [mem_stored, mem_stored]
    exact k.placed.mem_erase
  refine ⟨⟨k.power, k.placed.erase x, ?_, ?_⟩, members⟩
  · intro y hy z hz same
    exact k.distinct y ((members y).mp hy).2 z ((members z).mp hz).2 same
  · exact (congrArg (· - 1) k.counted).trans (k.placed.length_erase (mem_stored.mp here)).symm

theorem Kept.removed (k : Kept f h) (here : x ∈ stored h) (same : equal f x e = true) :
    stored (HashTable.removeElem h x) = {y ∈ stored h | equal f y e = false} := by
  ext y
  rw [(k.removeElem here).2 y]
  constructor
  · intro ⟨other, old⟩
    refine ⟨old, Bool.eq_false_of_not_eq_true fun hit => other ?_⟩
    exact k.distinct y old x here (equal_trans hit (equal_symm same))
  · intro ⟨old, differ⟩
    refine ⟨?_, old⟩
    intro eq
    subst eq
    exact Bool.noConfusion (same.symm.trans differ)

theorem Kept.call (k : Kept f h) (c : HashCall α) (granted : Bool) :
    Kept f (runCall f h c granted).2 ∧
      Answers f (stored h) c (runCall f h c granted).1 (stored (runCall f h c granted).2) := by
  cases c with
  | insert new =>
      have found := k.find new
      simp only [runCall, hashInsert, Answers]
      cases old : findElem f (findBucket f h new) new with
      | some x =>
          rw [hashFind, old] at found
          obtain ⟨kept, same⟩ := k.rehash granted
          exact ⟨kept, found, same⟩
      | none =>
          rw [hashFind, old] at found
          obtain ⟨inserted, members⟩ := k.insertElem found
          obtain ⟨kept, same⟩ := inserted.rehash granted
          exact ⟨kept, found, same.trans members⟩
  | replace new =>
      have found := k.find new
      simp only [runCall, hashReplace, Answers]
      cases old : findElem f (findBucket f h new) new with
      | some x =>
          rw [hashFind, old] at found
          have left := k.removed found.1 found.2
          have none : Matches f (stored (HashTable.removeElem h x)) new .none := by
            rw [left]
            exact fun y here => here.2
          obtain ⟨inserted, members⟩ := (k.removeElem found.1).1.insertElem none
          obtain ⟨kept, same⟩ := inserted.rehash granted
          exact ⟨kept, found, same.trans (left ▸ members)⟩
      | none =>
          rw [hashFind, old] at found
          obtain ⟨inserted, members⟩ := k.insertElem found
          obtain ⟨kept, same⟩ := inserted.rehash granted
          refine ⟨kept, found, same.trans (members.trans (congrArg _ ?_))⟩
          exact (Set.sep_eq_self_iff_mem_true.mpr found).symm
  | find e => exact ⟨k, k.find e, rfl⟩
  | delete e =>
      have found := k.find e
      simp only [runCall, hashDelete, Answers]
      cases old : findElem f (findBucket f h e) e with
      | some x =>
          rw [hashFind, old] at found
          obtain ⟨kept, same⟩ := (k.removeElem found.1).1.rehash granted
          exact ⟨kept, found, same.trans (k.removed found.1 found.2)⟩
      | none =>
          rw [hashFind, old] at found
          exact ⟨k, found, (Set.sep_eq_self_iff_mem_true.mpr found).symm⟩
  | clear =>
      obtain ⟨kept, empty⟩ := k.clear
      exact ⟨kept, rfl, empty⟩

theorem kept_of_reachable (h' : (tables f).Reachable h) :
    Kept f h ∧ (elementSet f).Reachable (stored h) := by
  apply h'.invariant (I := fun h => Kept f h ∧ (elementSet f).Reachable (stored h))
  · intro h ⟨junk, init⟩
    obtain ⟨kept, empty⟩ := Kept.init init
    exact ⟨kept, .init empty⟩
  · intro h a h' ⟨kept, reach⟩ step
    have step : h' = (runCall f h a.1 a.2).2 := step
    obtain ⟨kept', answers⟩ := kept.call a.1 a.2
    rw [step]
    exact ⟨kept', reach.step (a := (a.1, (runCall f h a.1 a.2).1)) answers⟩

end Calls

section Iteration

/-- What an iterator has not visited yet. -/
def unvisited (h : Hash α) (i : Iterator α) : List α :=
  i.behind ++ (List.range' (i.bucket + 1) (h.bucketCnt - (i.bucket + 1))).flatMap h.buckets

theorem nextBucket_spec (h : Hash α) (rounds bucket : Nat) (enough : h.bucketCnt ≤ bucket + 1 + rounds) :
    (List.range' (bucket + 1) (h.bucketCnt - (bucket + 1))).flatMap h.buckets =
      match (nextBucket h rounds bucket).elem with
      | some e => e :: unvisited h (nextBucket h rounds bucket)
      | none => [] := by
  induction rounds generalizing bucket with
  | zero =>
      rw [Nat.sub_eq_zero_of_le enough]
      rfl
  | succ rounds ih =>
      rw [nextBucket]
      by_cases last : bucket + 1 ≥ h.bucketCnt
      · rw [if_pos last, Nat.sub_eq_zero_of_le last]
        rfl
      · have front : h.bucketCnt - (bucket + 1) = h.bucketCnt - (bucket + 1 + 1) + 1 := by omega
        rw [if_neg last, front, List.range'_succ, List.flatMap_cons]
        cases here : h.buckets (bucket + 1) with
        | cons e behind => rfl
        | nil => exact ih (bucket + 1) (by omega)

/-- `hash_next` goes on to the first element that was not visited. -/
theorem hashNext_spec (h : Hash α) (i : Iterator α) :
    unvisited h i = match (hashNext h i).elem with
      | some e => e :: unvisited h (hashNext h i)
      | none => [] := by
  rw [unvisited, hashNext]
  cases here : i.behind with
  | cons e behind => rfl
  | nil => exact nextBucket_spec h h.bucketCnt i.bucket (by omega)

theorem hashNexts_eq (h : Hash α) (calls : Nat) (i : Iterator α)
    (most : calls ≤ (unvisited h i).length + 1) :
    hashNexts h calls i = ((unvisited h i).map some ++ [none]).take calls := by
  induction calls generalizing i with
  | zero => rfl
  | succ calls ih =>
      have next := hashNext_spec h i
      rw [hashNexts]
      cases current : (hashNext h i).elem with
      | some e =>
          rw [current] at next
          have next : unvisited h i = e :: unvisited h (hashNext h i) := next
          rw [next] at most ⊢
          rw [ih (hashNext h i) (Nat.le_of_succ_le_succ most)]
          rfl
      | none =>
          rw [current] at next
          have next : unvisited h i = [] := next
          rw [next] at most ⊢
          have zero : calls = 0 := Nat.le_zero.mp (Nat.le_of_succ_le_succ most)
          subst zero
          rfl

theorem unvisited_first (h : Hash α) (some : 0 < h.bucketCnt) :
    unvisited h (hashFirst h) = h.elements := by
  have front : h.bucketCnt = h.bucketCnt - 1 + 1 := (Nat.sub_add_cancel some).symm
  rw [Hash.elements, Buckets.elements, List.range_eq_range', front, List.range'_succ,
    List.flatMap_cons]
  rfl

end Iteration

/-- The law of the table: where the elements lie, how many there are, and the iterator. -/
structure TableLaw (f : HashOrder α) (h : Hash α) : Prop where
  home : ∀ i < h.bucketCnt, ∀ e ∈ h.buckets i, i = f.hash e &&& (h.bucketCnt - 1)
  once : ∀ i < h.bucketCnt, (h.buckets i).Nodup
  distinct : ∀ x ∈ stored h, ∀ y ∈ stored h, equal f x y = true → x = y
  counted : h.elemCnt = (stored h).ncard
  power : ∃ k, h.bucketCnt = 2 ^ k ∧ 4 ≤ h.bucketCnt
  visited : ∃ l : List α, l.Nodup ∧ (∀ e, e ∈ l ↔ e ∈ stored h) ∧
    ∀ calls ≤ l.length + 1, hashNexts h calls (hashFirst h) = (l.map some ++ [none]).take calls

theorem Kept.law (k : Kept f h) : TableLaw f h := by
  obtain ⟨n, power, large⟩ := k.power
  have four : 4 ≤ h.bucketCnt := by
    rw [power]
    show 2 ^ 2 ≤ 2 ^ n
    exact Nat.pow_le_pow_right (by decide) large
  constructor
  case home => exact fun i inside e here => (k.placed.home i inside e here).symm
  case once => exact k.placed.once
  case distinct => exact k.distinct
  case counted =>
    classical
    have all : stored h = (h.elements.toFinset : Set α) := by
      ext e
      rw [mem_stored, List.coe_toFinset]
      rfl
    rw [all, Set.ncard_coe_finset, List.toFinset_card_of_nodup k.placed.nodup, k.counted]
  case power => exact ⟨n, power, four⟩
  case visited =>
    refine ⟨h.elements, k.placed.nodup, fun e => mem_stored.symm, fun calls most => ?_⟩
    have first := unvisited_first h (by omega)
    rw [hashNexts_eq h calls _ (by rw [first]; exact most), first]

variable [DecidableEq α]

/-- A table refines a set of elements no two of which are equal: the state is one that the set
reaches, every call answers as the set does, and the law of the table holds. -/
theorem hashTable_refines_elementSet (h' : (tables f).Reachable h) :
    (elementSet f).Reachable (stored h) ∧ TableLaw f h ∧
      ∀ c granted, Answers f (stored h) c (runCall f h c granted).1
        (stored (runCall f h c granted).2) := by
  obtain ⟨kept, reach⟩ := kept_of_reachable h'
  exact ⟨reach, kept.law, fun c granted => (kept.call c granted).2⟩

theorem reachable_calls (h' : (tables f).Reachable h) (calls : List (HashCall α × Bool)) :
    (tables f).Reachable (calls.foldl (fun h a => (runCall f h a.1 a.2).2) h) := by
  induction calls generalizing h with
  | nil => exact h'
  | cons a calls ih => exact ih (h'.step (a := a) rfl)

end

/-- Numbers, with a hash that many of them share. -/
def sampleOrder : HashOrder Nat where
  hash n := n % 5
  less a b := decide (a < b)
  order :=
    { irrefl := fun a => by simp
      trans := fun a b c => by simpa using Nat.lt_trans
      incomp_trans := fun a b c => by simpa using by omega }
  consistent a b := by
    simp only [decide_eq_false_iff_not]
    intro above below
    rw [show a = b by omega]

/-- Seventeen numbers go in, and the table grows; five go out, and it cannot shrink. -/
def sampleCalls : List (HashCall Nat × Bool) :=
  (List.range 17).map (fun n => (.insert n, true)) ++
    (List.range 5).map fun n => (.delete n, false)

theorem hashTable_refines_of_sampleCalls : ∃ h, (tables sampleOrder).Reachable h ∧
    (h.bucketCnt = 8 ∧ h.elemCnt = 12) ∧ (elementSet sampleOrder).Reachable (stored h) ∧
      TableLaw sampleOrder h ∧ ∀ c granted, Answers sampleOrder (stored h) c
        (runCall sampleOrder h c granted).1 (stored (runCall sampleOrder h c granted).2) := by
  have init : (tables sampleOrder).Reachable (hashClear ⟨0, 4, fun _ => []⟩).2 :=
    .init ⟨fun _ => [], rfl⟩
  have reach := reachable_calls init sampleCalls
  exact ⟨_, reach, by decide +kernel, hashTable_refines_elementSet reach⟩

end CS162.Pintos.HashTable
