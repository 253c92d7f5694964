import CS162.Malloc.AnySize

/-!
What the calls do to the bytes inside blocks. `mm_free` and `mm_malloc` write headers and the new
block only. So `mm_realloc` moves all of the bytes that it reads, and it reads as many as the new
size says, also behind the old block.
-/

namespace CS162.Malloc
open CS162.Library Memory

section
variable {h h' : Heap} {w : World} {m m' : Memory} {bs l r : List Block} {b c : Block}
  {a a' cur prev ptr size p x : Nat} {ok : Bool}

theorem byte_of_frame (frame : ∀ p, Apart p a → Apart p a' → SameOn p metasize m m')
    (aside : metasize ≤ x ∧ x < a ∧ x < a' ∨ a + metasize ≤ x ∧ a' + metasize ≤ x) : m' x = m x := by
  have header : metasize = 24 := rfl
  cases aside with
  | inl below =>
      have window := frame (x + 1 - metasize) (.inl (by omega)) (.inl (by omega))
      exact window x (by omega) (by omega)
  | inr above =>
      have window := frame x (.inr above.1) (.inr above.2)
      exact window x (Nat.le_refl x) (by omega)

/-- Freeing a block leaves everything from its contents on and the contents of the used blocks. -/
theorem mmFree_contents (hr : Represents h bs) (hit : focus ptr bs = some (l, b, r)) (safe : Mergeable l b r)
    (run : mmFree h ptr = some h') : (∀ x, ptr ≤ x → h'.mem x = h.mem x) ∧
      ∀ c ∈ l ++ r, c.free = false → SameOn (contents c.addr) c.size h.mem h'.mem := by
  obtain ⟨rfl, _, rfl⟩ := focus_eq_some hit
  obtain ⟨m', run', _, frame⟩ := mmFree_hit hr hit safe
  cases run.symm.trans run'
  have parts : l ++ b :: r = usedBefore l ++ (freeBefore l ++ b :: r) := by
    rw [← List.append_assoc, before_eq]
  have tiles := hr.tiles
  have first : (merged (freeBefore l) b (freeAfter r)).addr ≤ b.addr := by
    cases firstAddr_eq_or_mem (freeBefore l) b.addr with
    | inl same => exact Nat.le_of_eq same
    | inr some =>
        obtain ⟨d, hd, same⟩ := some
        rw [merged, same]
        have hd : d ∈ l := by
          rw [← before_eq l]
          exact List.mem_append_right _ hd
        have := ((tiles.split).1.bounds hd).2
        rw [stop_eq] at this
        show d.addr ≤ b.addr
        omega
  have behind (x : Nat) (above : contents b.addr ≤ x) : m' x = h.mem x := by
    rw [contents] at above
    apply byte_of_frame frame
    exact .inr ⟨above, by omega⟩
  refine ⟨behind, fun c hc used x lower upper => ?_⟩
  have busy (d : Block) (hd : d ∈ freeBefore l) : c ≠ d := by
    intro same
    rw [same, free_of_freeBefore hd] at used
    cases used
  cases List.mem_append.mp hc with
  | inl hc =>
      -- The block is in front of all that is merged.
      have hc : c ∈ usedBefore l := by
        rw [← before_eq l] at hc
        refine (List.mem_append.mp hc).resolve_right fun hd => busy c hd rfl
      rw [parts] at tiles
      obtain ⟨mid, front, rest⟩ := tiles_append.mp tiles
      have stop := (front.bounds hc).2.2
      have start : mid ≤ (merged (freeBefore l) b (freeAfter r)).addr := by
        cases merged_addr (l := l) (b := b) (r := freeAfter r) with
        | intro d hd =>
            rw [hd.2]
            refine (rest.bounds (?_ : d ∈ freeBefore l ++ b :: r)).1
            have hd := hd.1
            simp only [List.mem_append, List.mem_cons, List.not_mem_nil, or_false] at hd ⊢
            exact hd.imp_right .inl
      rw [stop_eq] at stop
      rw [contents] at lower upper
      apply byte_of_frame frame
      exact .inl ⟨by omega, by omega, by omega⟩
  | inr hc =>
      have below := ((tiles.split).2.2.bounds hc).1
      rw [stop_eq] at below
      rw [contents] at lower upper
      apply behind
      rw [contents]
      omega

/-- Linking a new block writes the header of the last one and behind the break. -/
theorem linkBlock_below (below : x < cur) (outside : prev ≠ 0 → x < prev ∨ prev + metasize ≤ x) :
    linkBlock m prev cur size x = m x := by
  have linked : (if prev = 0 then m else set .next m prev cur) x = m x := by
    split
    next => rfl
    next some => exact set_sameOff x (outside some)
  have atCur (m : Memory) (f : Field) (v : Nat) : set f m cur v x = m x := set_sameOff x (.inl below)
  rw [linkBlock, fill_sameOff x (.inl (by rw [contents]; omega)), setSize, setFree, atCur, atCur, atCur, atCur]
  exact linked

/-- The bytes of a used block are apart from a new one, and stay. -/
structure Spares (c : Block) (size p : Nat) (m m' : Memory) : Prop where
  apart : p + size ≤ contents c.addr ∨ c.stop ≤ p
  same : SameOn (contents c.addr) c.size m m'

theorem takeBlock_spares (hr : Represents h (l ++ b :: r)) (enough : size ≤ b.size) (hc : c ∈ l ++ r) :
    Spares c size (contents b.addr) h.mem (takeBlock h.mem b.addr size) := by
  have tiles := hr.tiles.split
  obtain ⟨front, _, back⟩ := tiles
  have beside : c.stop ≤ b.addr ∨ b.stop ≤ c.addr := by
    cases List.mem_append.mp hc with
    | inl hc => exact .inl (front.bounds hc).2.2
    | inr hc => exact .inr (back.bounds hc).1
  rw [stop_eq, stop_eq] at beside
  refine ⟨by rw [contents, contents, stop_eq]; omega, fun x lower upper => ?_⟩
  rw [contents] at lower upper
  obtain ⟨_, head, _⟩ := linked_split.mp hr.linked
  have max := hr.sizes b (by simp)
  by_cases room : size + metasize ≤ b.size
  · obtain ⟨limit, next, behind⟩ := hr.behind
    rw [takeBlock_split_eq head max room limit fun some => .inl (by have := next some; omega)]
    have header : metasize = 24 := rfl
    -- Splitting writes two headers, neither of them near the byte.
    have window (p : Nat) (rest : Int)
        (outside : p + metasize ≤ b.addr ∨ contents b.addr + size + metasize ≤ p)
        (apart : firstAddr r 0 ≠ 0 → Apart p (firstAddr r 0)) :
        SameOn p metasize h.mem
          (splitMemory h.mem b.addr size (contents b.addr + size) (firstAddr r 0) rest) :=
      splitMemory_sameOn rfl outside apart
    cases List.mem_append.mp hc with
    | inl hc =>
        have below := (front.bounds hc).2.2
        rw [stop_eq] at below
        have near : x + 1 - metasize ≤ x := by omega
        exact window (x + 1 - metasize) _ (.inl (by omega))
          (fun some => .inl (by have := next some; omega)) x near (by omega)
    | inr hc =>
        obtain ⟨first, above⟩ := behind c hc
        exact window x _ (.inr (by rw [contents]; omega)) (fun _ => .inr (by omega)) x
          (Nat.le_refl x) (by omega)
  · obtain ⟨_, off⟩ := takeBlock_whole head max enough (Nat.lt_of_not_le room)
    exact off x (by omega)

/-- `mm_malloc` of any size leaves the contents of the used blocks. -/
theorem mmMalloc_spares (hr : Represents h bs) (run : mmMalloc h size ok = some (h', p)) (some : p ≠ 0)
    (hc : c ∈ bs) (used : c.free = false) : Spares c size p h.mem h'.mem := by
  rw [mmMalloc] at run
  split at run
  next =>
    cases run
    exact absurd rfl some
  next =>
    rw [hr.header] at run
    cases findFit_spec size hr.linked (fun b hb => hr.ne_zero hb) hr.sizes hr.fuel with
    | inl found =>
        obtain ⟨l, b, r, rfl, free, enough, found⟩ := found
        simp only [found, if_pos (hr.ne_zero (b := b) (by simp))] at run
        cases run
        apply takeBlock_spares hr enough
        have other : c ≠ b := by
          intro same
          rw [same, free] at used
          cases used
        simp only [List.mem_append, List.mem_cons] at hc ⊢
        exact hc.imp_right fun rest => rest.resolve_left other
    | inr missing =>
        simp only [missing.1, ne_eq, not_true, if_false] at run
        split at run
        next =>
          cases run
          exact absurd rfl some
        next h₁ _ =>
          cases run
          have below := (hr.tiles.bounds hc).2.2
          refine ⟨.inr (by rw [contents]; omega), fun x lower upper => ?_⟩
          rw [stop_eq] at below
          rw [contents] at lower upper
          apply linkBlock_below
          · omega
          · intro last
            obtain ⟨d, hd, same⟩ := (lastAddr_eq_or_mem 0 bs).resolve_left last
            rw [same]
            by_cases here : c.addr = d.addr
            · omega
            · have beside := disjoint_of_tiles hr.tiles hc hd here
              rw [stop_eq, stop_eq] at beside
              omega

/-- The bytes at the new place are those that were behind the old pointer, as many as the new size
says. -/
theorem mmRealloc_bytes (hs : Sound w bs) {old : Nat} (live : (ptr, old) ∈ w.live) (pos : 0 < size)
    (safe : w.heap.FreesSafely ptr) (run : mmRealloc w.heap ptr size ok = some (h', p)) (some : p ≠ 0) :
    (∀ i < size, h'.mem (p + i) = w.heap.mem (ptr + i)) ∧
      ∀ x ∈ w.live, x.1 ≠ ptr → SameOn x.1 x.2 w.heap.mem h'.mem := by
  obtain ⟨b, hb, used, here, _⟩ := hs.owns.owned _ live
  have here : contents b.addr = ptr := here
  cases hit : focus ptr bs with
  | none => exact absurd here (focus_eq_none hit hb used)
  | some x =>
      obtain ⟨l, b, r⟩ := x
      rw [Heap.FreesSafely, hs.represents.blocks_eq] at safe
      have merge : Mergeable l b r := safe _ hit
      obtain ⟨m₁, freed, represents₁, _⟩ := mmFree_hit hs.represents hit merge
      obtain ⟨from_ptr, others₁⟩ := mmFree_contents hs.represents hit merge freed
      have nonnull : ptr ≠ 0 := by
        rw [← here, contents, metasize]
        omega
      simp only [mmRealloc, nonnull, if_false, freed, Option.bind_eq_bind, Option.bind_some,
        Nat.ne_of_gt pos] at run
      obtain ⟨⟨h₂, p₂⟩, allocated, run⟩ := Option.bind_eq_some_iff.mp run
      split at run
      next => cases run
      next =>
        cases run
        refine ⟨fun i inside => (writeBytes_readBytes inside).trans ?_, fun x hx other y lower upper => ?_⟩
        · exact from_ptr _ (Nat.le_add_right ptr i)
        · obtain ⟨c, hc, used', at_x, room⟩ := hs.owns.owned x hx
          obtain ⟨parts, _, at_ptr⟩ := focus_eq_some hit
          have beside : c ∈ l ++ r := by
            rw [parts] at hc
            simp only [List.mem_append, List.mem_cons] at hc ⊢
            refine hc.imp_right fun rest => rest.resolve_left fun same => other ?_
            rw [← at_x, same, at_ptr]
          have kept := (mem_released (b := b) used').mpr (List.mem_append.mp beside)
          obtain ⟨apart, same₂⟩ := mmMalloc_spares represents₁ allocated some kept used'
          rw [stop_eq] at apart
          rw [← at_x] at lower upper
          have same := ((others₁ c beside used').trans same₂) y lower (by omega)
          rw [← same]
          apply writeBytes_sameOff
          rw [readBytes_length]
          rw [contents] at *
          omega

/-- `mm_realloc` gets no memory exactly if no block of the list that `mm_free` leaves is large
enough and `sbrk` refuses. -/
theorem mmRealloc_eq_none (hr : Represents h bs) (hit : focus ptr bs = some (l, b, r)) (safe : Mergeable l b r)
    (pos : 0 < size) : mmRealloc h ptr size ok = none ↔
      (∀ c ∈ released l b r, c.free = true → c.size < size) ∧ h.grown size ok = none := by
  obtain ⟨m₁, freed, represents, _⟩ := mmFree_hit hr hit safe
  have nonnull : ptr ≠ 0 := by
    rw [← (focus_eq_some hit).2.2, contents, metasize]
    omega
  have same : Heap.grown { h with mem := m₁ } size ok = none ↔ h.grown size ok = none := by
    simp only [Heap.grown, sbrk, ite_eq_right_iff, reduceCtorEq]
  have header : firstAddr (released l b r) 0 = h.header := represents.header.symm
  simp only [mmRealloc, nonnull, if_false, freed, Option.bind_eq_bind, Option.bind_some, Nat.ne_of_gt pos,
    mmMalloc]
  cases findFit_spec size represents.linked (fun c hc => represents.ne_zero hc) represents.sizes
    represents.fuel with
  | inl found =>
      obtain ⟨l', c, r', parts, free, enough, found⟩ := found
      have inside : c ∈ released l b r := by simp [parts]
      have some : contents c.addr ≠ 0 := by
        rw [contents, metasize]
        omega
      rw [header] at found
      simp only [found, if_pos (represents.ne_zero inside), Option.bind_some, if_neg some]
      refine iff_of_false (fun no => by cases no) fun out => ?_
      exact absurd (out.1 c inside free) (Nat.not_lt.mpr enough)
  | inr missing =>
      obtain ⟨missing, small⟩ := missing
      rw [header] at missing
      rw [and_iff_right small, ← same, Heap.grown]
      simp only [missing, ne_eq, not_true, if_false]
      cases grown : sbrk { h with mem := m₁ } (toInt64 (toUInt64 (metasize + size))) ok with
      | none => exact iff_of_true rfl rfl
      | some h₁ =>
          have some : contents h.brk ≠ 0 := by
            rw [contents, metasize]
            omega
          simp only [Option.bind_some, if_neg some]
          exact iff_of_false (fun no => by cases no) fun no => by cases no

end

theorem live_ne_zero {w : World} (reach : programs.Reachable w) : ∀ x ∈ w.live, x.1 ≠ 0 := by
  have held {live : List (Nat × Nat)} {p size : Nat} (h : ∀ x ∈ live, x.1 ≠ 0) :
      ∀ x ∈ hold live p size, x.1 ≠ 0 := by
    rw [hold]
    split
    next => exact h
    next some => exact List.forall_mem_cons.mpr ⟨some, h⟩
  apply reach.invariant (I := fun w => ∀ x ∈ w.live, x.1 ≠ 0)
  · intro w fresh x hx
    rw [fresh.1] at hx
    cases hx
  · intro w c w' h step
    simp only [programs, System.ofNext, World.step] at step
    split at step
    next =>
      have dropped (ptr : Nat) : ∀ x ∈ w.drop ptr, x.1 ≠ 0 := fun x hx => h x (List.mem_filter.mp hx).1
      cases c with
      | malloc size ok =>
          obtain ⟨r, _, rfl⟩ := Option.map_eq_some_iff.mp step
          exact held h
      | free ptr =>
          obtain ⟨r, _, rfl⟩ := Option.map_eq_some_iff.mp step
          exact dropped ptr
      | realloc ptr size ok =>
          obtain ⟨r, _, rfl⟩ := Option.map_eq_some_iff.mp step
          exact held (dropped ptr)
      | store addr byte =>
          cases step
          exact h
    next => cases step

/-- What `mm_realloc` is to leave at the new pointer and elsewhere. -/
structure Preserves (w : World) (ptr old size : Nat) (h' : Heap) (p : Nat) : Prop where
  kept : ∀ i < min old size, h'.mem (p + i) = w.heap.mem (ptr + i)
  zeros : ∀ i, old ≤ i → i < size → h'.mem (p + i) = 0
  others : ∀ x ∈ w.live, x.1 ≠ ptr → SameOn x.1 x.2 w.heap.mem h'.mem

/-- In every run whose calls are harmless, a `mm_realloc` whose free is harmless preserves contents
exactly if there are zeros behind the old block as far as the new size goes. -/
theorem mmRealloc_preserves_iff {w : World} (reach : (programs.under Harmless).Reachable w)
    {ptr old size p : Nat} {ok : Bool} {h' : Heap} (live : (ptr, old) ∈ w.live) (pos : 0 < size)
    (safe : w.heap.FreesSafely ptr) (run : mmRealloc w.heap ptr size ok = some (h', p)) (some : p ≠ 0) :
    Preserves w ptr old size h' p ↔ ∀ i, old ≤ i → i < size → w.heap.mem (ptr + i) = 0 := by
  obtain ⟨bs, sound⟩ := sound_of_harmless reach
  obtain ⟨bytes, others⟩ := mmRealloc_bytes sound live pos safe run some
  constructor
  · intro preserves i lower upper
    rw [← bytes i upper]
    exact preserves.zeros i lower upper
  · intro zeros
    constructor
    case kept => exact fun i inside => bytes i (by omega)
    case zeros =>
      intro i lower upper
      rw [bytes i upper]
      exact zeros i lower upper
    case others => exact others

/-- A block of 40 bytes is cut down to 8. -/
theorem mmRealloc_preserves_of_shrink : ∃ w, (programs.under Harmless).Reachable w ∧ ∃ h',
    mmRealloc w.heap 4120 8 true = some (h', 4120) ∧ Preserves w 4120 40 8 h' 4120 := by
  obtain ⟨w, reach, checks⟩ := System.exists_reachable_under World.fresh World.step Harmless
    (fun w => decide ((4120, 40) ∈ w.live ∧ w.heap.FreesSafely 4120) &&
      (mmRealloc w.heap 4120 8 true).any fun r : Heap × Nat => decide (r.2 = 4120)) (s := .empty)
    ⟨rfl, rfl, rfl, by decide, by decide⟩ [.malloc 40 true, .store 4122 7] (by decide +kernel)
  rw [Bool.and_eq_true, decide_eq_true_eq] at checks
  obtain ⟨⟨live, safe⟩, ran⟩ := checks
  obtain ⟨⟨h', p⟩, run, here⟩ := (Option.any_eq_true ..).mp ran
  cases of_decide_eq_true here
  refine ⟨w, reach, h', run, (mmRealloc_preserves_iff reach live (by decide) safe run (by decide)).mpr ?_⟩
  intro i lower upper
  omega

/-- A block of 8 bytes with another one behind it grows to 40. The link in the header of the other one
comes along. -/
theorem not_preserves_of_growth : ∃ w, programs.Reachable w ∧ ∃ ptr old size ok h' p,
    (ptr, old) ∈ w.live ∧ 0 < size ∧ mmRealloc w.heap ptr size ok = some (h', p) ∧ p ≠ 0 ∧
      ¬ Preserves w ptr old size h' p := by
  obtain ⟨w, reach, checks⟩ := System.exists_reachable World.fresh World.step
    (fun w => decide ((4120, 8) ∈ w.live) && (mmRealloc w.heap 4120 40 true).any fun r : Heap × Nat =>
      decide (r.2 = 4184 ∧ r.1.mem 4193 = 16)) (s := .empty)
    ⟨rfl, rfl, rfl, by decide, by decide⟩ [.malloc 8 true, .malloc 8 true] (by decide +kernel)
  rw [Bool.and_eq_true, decide_eq_true_eq] at checks
  obtain ⟨live, ran⟩ := checks
  obtain ⟨⟨h', p⟩, run, here⟩ := (Option.any_eq_true ..).mp ran
  obtain ⟨at_new, link⟩ := of_decide_eq_true here
  cases at_new
  refine ⟨w, reach, 4120, 8, 40, true, h', 4184, live, by decide, run, by decide, fun preserves => ?_⟩
  have zero : h'.mem 4193 = 0 := preserves.zeros 9 (by decide) (by decide)
  have link : h'.mem 4193 = 16 := link
  rw [zero] at link
  cases link

/-- No block of the list that `mm_free` leaves is large enough, and `sbrk` refuses. -/
def OutOfMemory (w : World) (ptr size : Nat) (ok : Bool) : Prop := ∃ h₁ last,
  mmFree w.heap ptr = some h₁ ∧ findFit h₁.mem size h₁.fuel 0 h₁.header = some (last, 0) ∧
    h₁.grown size ok = none

/-- `mm_realloc` returns null, the block is in use, and all live blocks have their contents. -/
def FailsAtomically (w : World) (ptr size : Nat) (ok : Bool) : Prop :=
  ∃ h', mmRealloc w.heap ptr size ok = some (h', 0) ∧ isFree h'.mem (ptr - metasize) = false ∧
    ∀ x ∈ w.live, SameOn x.1 x.2 w.heap.mem h'.mem

/-- Without memory `mm_realloc` copies to the null pointer, in every state. -/
theorem not_failsAtomically {w : World} (reach : programs.Reachable w) {ptr old size : Nat} {ok : Bool}
    (live : (ptr, old) ∈ w.live) (pos : 0 < size) (out : OutOfMemory w ptr size ok) :
    mmRealloc w.heap ptr size ok = none ∧ ¬ FailsAtomically w ptr size ok := by
  have nonnull : ptr ≠ 0 := live_ne_zero reach _ live
  obtain ⟨h₁, last, freed, missing, refused⟩ := out
  rw [Heap.grown] at refused
  have faults : mmRealloc w.heap ptr size ok = none := by
    simp only [mmRealloc, nonnull, if_false, freed, Option.bind_eq_bind, Option.bind_some,
      Nat.ne_of_gt pos, mmMalloc, missing, refused, ne_eq, not_true, if_true]
  refine ⟨faults, fun atomic => ?_⟩
  obtain ⟨h', run, _⟩ := atomic
  cases faults.symm.trans run

/-- One block of 8 bytes, and `sbrk` that refuses 100. -/
theorem exists_outOfMemory : ∃ w, programs.Reachable w ∧ (4120, 8) ∈ w.live ∧
    OutOfMemory w 4120 100 false ∧ mmRealloc w.heap 4120 100 false = none := by
  obtain ⟨w, reach, checks⟩ := System.exists_reachable World.fresh World.step
    (fun w => decide ((4120, 8) ∈ w.live) && ((mmRealloc w.heap 4120 100 false).isNone &&
      (mmFree w.heap 4120).any fun h₁ : Heap => decide (findFit h₁.mem 100 h₁.fuel 0 h₁.header = some (4096, 0) ∧
        h₁.grown 100 false = none))) (s := .empty)
    ⟨rfl, rfl, rfl, by decide, by decide⟩ [.malloc 8 true] (by decide +kernel)
  rw [Bool.and_eq_true, Bool.and_eq_true, decide_eq_true_eq, Option.isNone_iff_eq_none] at checks
  obtain ⟨live, faults, freed⟩ := checks
  obtain ⟨h₁, freed, out⟩ := (Option.any_eq_true ..).mp freed
  exact ⟨w, reach, live, ⟨h₁, 4096, freed, of_decide_eq_true out⟩, faults⟩

theorem not_failsAtomically_of_one : ∃ w, programs.Reachable w ∧
    mmRealloc w.heap 4120 100 false = none ∧ ¬ FailsAtomically w 4120 100 false := by
  obtain ⟨w, reach, live, out, _⟩ := exists_outOfMemory
  exact ⟨w, reach, not_failsAtomically reach live (by decide) out⟩

theorem exists_not_failsAtomically : ∃ w, programs.Reachable w ∧ ∃ ptr old size ok, (ptr, old) ∈ w.live ∧
    0 < size ∧ OutOfMemory w ptr size ok ∧ ¬ FailsAtomically w ptr size ok := by
  obtain ⟨w, reach, live, out, faults⟩ := exists_outOfMemory
  refine ⟨w, reach, 4120, 8, 100, false, live, by decide, out, fun atomic => ?_⟩
  obtain ⟨h', run, _⟩ := atomic
  cases faults.symm.trans run

end CS162.Malloc
