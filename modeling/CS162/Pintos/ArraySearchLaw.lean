import CS162.Pintos.ArraySort

/-!
`binary_search` is complete. Its two pointers stand for the indexes of a range of the array
outside of which no element equals the key; each round compares an element of the range and
leaves a shorter one.
-/

namespace CS162.Pintos.Stdlib
open CS162.Library
variable {A : Type} {s : Span} {m : Library.Memory} {compare : Element s → Element s → A → Int}
  {aux : A} {rounds a b k mid : Nat} {key : Nat}

section Ranges

theorem place_le_iff (fits : Fits s) (b_pos : 0 < b) :
    place s a ≤ place s b ↔ a ≤ b := by
  constructor
  · intro low
    by_contra more
    have apart := place_apart (s := s) b_pos (Nat.lt_of_not_le more)
    have some_byte := fits.some_byte
    omega
  · intro low
    exact Nat.add_le_add_left (Nat.mul_le_mul_right s.size (Nat.sub_le_sub_right low 1)) s.array

theorem place_lt_iff (fits : Fits s) (a_pos : 0 < a) : place s a < place s b ↔ a < b := by
  rw [← Nat.not_le, ← Nat.not_le, place_le_iff fits a_pos]

theorem place_add (pos : 0 < a) (n : Nat) : place s a + n * s.size = place s (a + n) := by
  rw [place, place, Nat.add_assoc, ← Nat.add_mul, Nat.sub_add_comm pos]

theorem place_lt_word (fits : Fits s) (inside : k ≤ s.cnt + 1) : place s k < 2 ^ 32 := by
  have within : (k - 1) * s.size ≤ s.cnt * s.size := Nat.mul_le_mul_right s.size (by omega)
  have bound := fits.bound
  rw [place]
  omega

theorem place_sub_div (fits : Fits s) (a_pos : 0 < a) (low : a ≤ b) :
    (place s b - place s a) / s.size = b - a := by
  have behind := place_add (s := s) a_pos (b - a)
  rw [Nat.add_sub_cancel' low] at behind
  rw [← behind, Nat.add_sub_cancel_left, Nat.mul_div_cancel _ fits.some_byte]

end Ranges

section Searching

/-- The elements do not descend. -/
def Sorted (s : Span) (le : Element s → Element s → Prop) (m : Library.Memory) : Prop :=
  (elements s m).Pairwise le

theorem Sorted.le (total : TotalPreorder (compare · · aux))
    (sorted : Sorted s (fun x y => compare x y aux ≤ 0) m) (a_pos : 0 < a) (low : a ≤ b)
    (inside : b ≤ s.cnt) :
    compare (element s m (place s a)) (element s m (place s b)) aux ≤ 0 := by
  by_cases same : a = b
  · rw [same]
    exact total.refl _
  · have pairs := List.pairwise_map.mp sorted
    have places := (List.pairwise_iff_getElem.mp pairs) (a - 1) (b - 1)
    simp only [List.length_range', List.getElem_range'] at places
    have at_places := places (by omega) (by omega) (by omega)
    rw [show 1 + 1 * (a - 1) = a by omega, show 1 + 1 * (b - 1) = b by omega] at at_places
    exact at_places

/-- The pointer is one to an element like this; the null pointer stands for there being none. -/
def Answers (s : Span) (equal : Element s → Prop) (m : Library.Memory) : Option Nat → Prop
  | some p => ∃ k, 0 < k ∧ k ≤ s.cnt ∧ p = place s k ∧ equal (element s m p)
  | none => ∀ k, 0 < k → k ≤ s.cnt → ¬ equal (element s m (place s k))

theorem lt_of_larger (total : TotalPreorder (compare · · aux))
    (sorted : Sorted s (fun x y => compare x y aux ≤ 0) m) (pos : 0 < mid) (inside : k ≤ s.cnt)
    (less : compare (element s m key) (element s m (place s mid)) aux < 0)
    (equal : compare (element s m key) (element s m (place s k)) aux = 0) : k < mid := by
  by_contra behind
  have up := sorted.le total pos (Nat.le_of_not_lt behind) inside
  have back := (total.reverse (element s m (place s k)) (element s m key)).mpr (by omega)
  have below := total.trans _ _ _ up back
  have not_less := (total.reverse _ _).mp below
  omega

theorem lt_of_smaller (total : TotalPreorder (compare · · aux))
    (sorted : Sorted s (fun x y => compare x y aux ≤ 0) m) (pos : 0 < k) (inside : mid ≤ s.cnt)
    (more : 0 < compare (element s m key) (element s m (place s mid)) aux)
    (equal : compare (element s m key) (element s m (place s k)) aux = 0) : mid < k := by
  by_contra before
  have up := sorted.le total pos (Nat.le_of_not_lt before) inside
  have below := total.trans (element s m key) _ _ (by omega) up
  omega

theorem searchLoop_spec (fits : Fits s) (total : TotalPreorder (compare · · aux))
    (sorted : Sorted s (fun x y => compare x y aux ≤ 0) m) (a_pos : 0 < a) (low : a ≤ b)
    (inside : b ≤ s.cnt + 1) (enough : b - a < rounds)
    (range : ∀ k, 0 < k → k ≤ s.cnt →
      compare (element s m key) (element s m (place s k)) aux = 0 → a ≤ k ∧ k < b) :
    ∃ r, searchLoop s compare aux m key rounds (place s a) (place s b) = .ok r ∧
      Answers s (fun e => compare (element s m key) e aux = 0) m r := by
  induction rounds generalizing a b with
  | zero => exact absurd enough (Nat.not_lt_zero _)
  | succ rounds ih =>
      rw [searchLoop]
      by_cases more : a < b
      · rw [if_pos ((place_lt_iff fits a_pos).mpr more)]
        simp only [place_sub_div fits a_pos low]
        obtain ⟨mid, mid_eq⟩ : ∃ mid, mid = a + (b - a) / 2 := ⟨_, rfl⟩
        have middle : word (place s a + word ((b - a) / 2 * s.size)) = place s mid := by
          have here := place_add (s := s) a_pos ((b - a) / 2)
          have small := place_lt_word (k := mid) fits (by omega)
          rw [← mid_eq] at here
          rw [word_of_lt (show (b - a) / 2 * s.size < 2 ^ 32 by omega), here, word_of_lt small]
        have behind : word (place s mid + s.size) = place s (mid + 1) := by
          have next := place_add (s := s) (a := mid) (by omega) 1
          rw [Nat.one_mul] at next
          rw [next, word_of_lt (place_lt_word fits (by omega))]
        rw [middle, check_place (by omega) (by omega), ok_bind]
        split
        next less =>
          apply ih a_pos (by omega) (by omega) (by omega)
          intro k pos within equal
          have bounds := range k pos within equal
          exact ⟨bounds.1, lt_of_larger total sorted (by omega) within less equal⟩
        next not_less =>
          split
          next above =>
            rw [behind]
            apply ih (Nat.succ_pos mid) (by omega) inside (by omega)
            intro k pos within equal
            have bounds := range k pos within equal
            exact ⟨lt_of_smaller total sorted pos (by omega) above equal, bounds.2⟩
          next not_above =>
            refine ⟨some (place s mid), rfl, mid, by omega, by omega, rfl, ?_⟩
            omega
      · rw [if_neg (fun less => more ((place_lt_iff fits a_pos).mp less))]
        refine ⟨none, rfl, ?_⟩
        intro k pos within equal
        have bounds := range k pos within equal
        omega

variable (compare aux) in
theorem binarySearch_spec (fits : Fits s) (total : TotalPreorder (compare · · aux))
    (sorted : Sorted s (fun x y => compare x y aux ≤ 0) m) (key : Nat) (enough : s.cnt < rounds) :
    ∃ r, binarySearch s compare aux rounds m key = .ok r ∧
      Answers s (fun e => compare (element s m key) e aux = 0) m r := by
  have first : s.array = place s 1 := by rw [place, Nat.sub_self, Nat.zero_mul, Nat.add_zero]
  have bound := fits.bound
  have last : word (s.array + word (s.size * s.cnt)) = place s (s.cnt + 1) := by
    rw [Nat.mul_comm, word_of_lt (show s.cnt * s.size < 2 ^ 32 by omega), word_of_lt bound, place,
      Nat.add_sub_cancel]
  rw [binarySearch, last, first]
  apply searchLoop_spec fits total sorted Nat.one_pos (Nat.le_add_left 1 s.cnt) (Nat.le_refl _)
    (by omega)
  intro k pos inside _
  exact ⟨pos, Nat.lt_succ_of_le inside⟩

/-- In a sorted array `binary_search`, and `bsearch` through `compare_thunk`, end and find an
element that equals the key if there is one; all elements that they compare are in the array. -/
theorem binarySearch_complete (fits : Fits s) (m : Library.Memory) (key : Nat)
    (enough : s.cnt < rounds) :
    (∀ (A : Type) (compare : Element s → Element s → A → Int) (aux : A),
      TotalPreorder (compare · · aux) → Sorted s (fun x y => compare x y aux ≤ 0) m →
      ∃ r, binarySearch s compare aux rounds m key = .ok r ∧
        Answers s (fun e => compare (element s m key) e aux = 0) m r) ∧
    (∀ compare : Element s → Element s → Int,
      TotalPreorder compare → Sorted s (fun x y => compare x y ≤ 0) m →
      ∃ r, bsearch s compare rounds m key = .ok r ∧
        Answers s (fun e => compare (element s m key) e = 0) m r) := by
  constructor
  · intro A compare aux total sorted
    exact binarySearch_spec compare aux fits total sorted key enough
  · intro compare total sorted
    exact binarySearch_spec (compareThunk s) compare fits total sorted key enough

/-- The array of the bytes 0, 1 and 2, with the key 2 in front of it. -/
theorem binarySearch_complete_of_bytes :
    ∃ r, bsearch ⟨4096, 3, 1⟩ byFirst 4 (fun x => UInt8.ofNat x) 2 = .ok r ∧
      Answers ⟨4096, 3, 1⟩ (fun e => byFirst (element ⟨4096, 3, 1⟩ (fun x => UInt8.ofNat x) 2) e = 0)
        (fun x => UInt8.ofNat x) r := by
  have sorted : Sorted ⟨4096, 3, 1⟩ (fun x y => byFirst x y ≤ 0) fun x => UInt8.ofNat x := by
    rw [Sorted]
    decide
  exact (binarySearch_complete (s := ⟨4096, 3, 1⟩) ⟨by decide, by decide⟩ (fun x => UInt8.ofNat x) 2
    (by decide)).2 byFirst (byFirst_total _) sorted

end Searching

end CS162.Pintos.Stdlib
