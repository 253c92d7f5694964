import CS162.Library.Outcome
import CS162.Pintos.KernelHeapLaw

/-!
`malloc` of any `size_t`. A size that the header does not fit on top of wraps when the pages
are counted, and the block then has the one page that is left of it. The heap stays sound,
for it does not know what was asked for.
-/

namespace CS162.Pintos.KernelHeap
open CS162.Library

/-- A block on the list that a size leads to, or the pages for it. -/
def Heap.HasMemory (h : Heap) (size : Nat) : Prop :=
  0 < size ∧ match h.descs.findIdx? fun desc => desc.blockSize ≥ size with
    | none => h.pool.HasRun ((size + arenaSize + pgSize - 1) % 2 ^ 32 / pgSize)
    | some d => (∃ desc, h.descs[d]? = some desc ∧ desc.freeList ≠ []) ∨ h.pool.HasRun 1

section
variable {h h' : Heap} {live live' : List Block} {foreign : List Nat} {size d b : Nat} {desc : Desc}
  {full : Option Nat} {p : Option Nat} {filled : Bool}

theorem mallocBig_isSome (run : h.mallocBig size = .ok (p, h')) :
    p.isSome = true ↔ h.pool.HasRun ((size + arenaSize + pgSize - 1) % 2 ^ 32 / pgSize) := by
  simp only [Heap.mallocBig] at run
  split at run
  next => cases run
  next got =>
    cases run
    exact Pool.pallocGetMultiple_isSome got
  next page _ got =>
    cases run
    show (some page).isSome = true ↔ _
    exact Pool.pallocGetMultiple_isSome got

theorem refill_eq_true (run : h.refill d = .ok (filled, h')) :
    filled = true ↔ (∃ desc, h.descs[d]? = some desc ∧ desc.freeList ≠ []) ∨ h.pool.HasRun 1 := by
  rw [Heap.refill] at run
  obtain ⟨desc, found, run⟩ := bind_eq_ok run
  have found : h.descs[d]? = some desc := by
    rw [Heap.descAt] at found
    split at found
    next eq => exact eq.trans (congrArg some (Except.ok.inj found))
    next => cases found
  by_cases empty : desc.freeList = []
  · have listed : ¬ ∃ desc, h.descs[d]? = some desc ∧ desc.freeList ≠ [] := by
      intro some
      obtain ⟨desc', found', nonempty⟩ := some
      cases found.symm.trans found'
      exact nonempty empty
    rw [if_pos empty] at run
    rw [or_iff_right listed]
    split at run
    next => cases run
    next got =>
      cases run
      exact Pool.pallocGetMultiple_isSome got
    next got =>
      cases run
      exact Pool.pallocGetMultiple_isSome got
  · rw [if_neg empty] at run
    cases run
    exact iff_of_true rfl (.inl ⟨desc, found, empty⟩)

theorem takeBlock_isSome (run : h.takeBlock d = .ok (p, h')) : p.isSome = true := by
  rw [Heap.takeBlock] at run
  obtain ⟨desc, _, run⟩ := bind_eq_ok run
  split at run
  next => cases run
  next =>
    obtain ⟨_, _, run⟩ := bind_eq_ok run
    cases run
    rfl

theorem malloc_isSome (run : h.malloc size = .ok (p, h')) : p.isSome = true ↔ h.HasMemory size := by
  rw [Heap.malloc] at run
  split at run
  next none =>
    cases run
    exact iff_of_false Bool.false_ne_true fun some => absurd none (Nat.pos_iff_ne_zero.mp some.1)
  next some =>
    rw [Heap.HasMemory, and_iff_right (Nat.pos_of_ne_zero some)]
    cases index : h.descs.findIdx? fun desc => desc.blockSize ≥ size with
    | none =>
        rw [index] at run
        exact mallocBig_isSome run
    | some d =>
        rw [index] at run
        obtain ⟨⟨filled, h₁⟩, refilled, run⟩ := bind_eq_ok run
        refine Iff.trans ?_ (refill_eq_true refilled)
        cases filled with
        | false =>
            cases run
            exact Iff.rfl
        | true => exact iff_of_true (takeBlock_isSome run) rfl

theorem Sound.ask (s : Sound h live full) (ptrs : live'.map Block.ptr = live.map Block.ptr)
    (less : ∀ x ∈ live', ∃ y ∈ live, y.ptr = x.ptr ∧ x.size ≤ y.size) : Sound h live' full where
  fits := s.fits
  owned := s.owned
  pages := s.pages
  nodup := s.nodup
  listed := s.listed
  counted := s.counted
  big := s.big
  unique := ptrs ▸ s.unique
  split := ptrs ▸ s.split
  held x inside := by
    obtain ⟨y, used, same, smaller⟩ := less x inside
    rw [← same]
    obtain ⟨d, desc, found, block, enough⟩ | ⟨a, there, big, offset, enough⟩ := s.held y used
    · exact .inl ⟨d, desc, found, block, Nat.le_trans smaller enough⟩
    · exact .inr ⟨a, there, big, offset, by omega⟩

theorem Consistent.ask_nothing {result : Option Nat × Heap}
    (c : Consistent (World.add ⟨h, live, foreign⟩ result size)) :
    Consistent (World.add ⟨h, live, foreign⟩ result 0) := by
  obtain ⟨p, h'⟩ := result
  cases p with
  | none => exact c
  | some b =>
      refine ⟨c.sound.ask rfl fun x inside => ?_, c.shares⟩
      cases List.mem_cons.mp inside with
      | inl new => exact ⟨⟨b, size⟩, List.mem_cons_self, by rw [new], by rw [new]; exact Nat.zero_le _⟩
      | inr old => exact ⟨x, List.mem_cons_of_mem _ old, rfl, Nat.le_refl _⟩

/-- No descriptor has blocks of such a size, and the pages wrap to none or to one. -/
theorem Sound.malloc_wrapped (s : Sound h live full) (wraps : 2 ^ 32 ≤ size + arenaSize)
    (bounded : size < 2 ^ 32) : h.malloc size = h.mallocBig size ∧
      (size + arenaSize + pgSize - 1) % 2 ^ 32 / pgSize = if size + 11 < 2 ^ 32 then 0 else 1 := by
  have header : arenaSize = 12 := rfl
  have page : pgSize = 4096 := rfl
  have large : h.descs.findIdx? (fun desc => desc.blockSize ≥ size) = none := by
    rw [List.findIdx?_eq_none_iff]
    intro desc inside
    obtain ⟨d, found⟩ := List.mem_iff_getElem?.mp inside
    obtain ⟨some, _, fits⟩ := s.fits d desc found
    have := Nat.le_mul_of_pos_left desc.blockSize some
    simp only [ge_iff_le, decide_eq_false_iff_not]
    omega
  constructor
  · rw [Heap.malloc, if_neg (by omega), large]
  · rw [header, page]
    split <;> omega

/-- The heap stays consistent, and a block is too short if and only if the size wrapped. -/
theorem Consistent.malloc_any (c : Consistent ⟨h, live, foreign⟩) (bounded : size < 2 ^ 32) :
    ∃ result, h.malloc size = .ok result ∧ Consistent (World.add ⟨h, live, foreign⟩ result 0) ∧
      ∀ b, result.1 = some b → ∃ n, result.2.blockSize b = .ok n ∧
        (size ≤ n ↔ size + 11 < 2 ^ 32) := by
  have header : arenaSize = 12 := rfl
  have room {result : Option Nat × Heap} {asked : Nat}
      (c' : Consistent (World.add ⟨h, live, foreign⟩ result asked)) (b : Nat)
      (new : result.1 = some b) : ∃ n, result.2.blockSize b = .ok n ∧ asked ≤ n ∧
        n + arenaSize < 2 ^ 32 := by
    obtain ⟨p, h'⟩ := result
    cases new
    obtain ⟨n, _, sized, enough, small, _⟩ := c'.sound.blockSize (x := ⟨b, asked⟩) List.mem_cons_self
    exact ⟨n, sized, enough, small⟩
  by_cases fits : size + arenaSize < 2 ^ 32
  · obtain ⟨result, run, c'⟩ := c.malloc fits
    refine ⟨result, run, c'.ask_nothing, fun b new => ?_⟩
    obtain ⟨n, sized, enough, small⟩ := room c' b new
    exact ⟨n, sized, iff_of_true enough (by omega)⟩
  · obtain ⟨big, pages⟩ := c.sound.malloc_wrapped (Nat.le_of_not_lt fits) bounded
    split at pages
    next =>
      refine ⟨(none, h), ?_, c, fun b new => by cases new⟩
      rw [big]
      simp only [Heap.mallocBig, pages]
      rfl
    next =>
      obtain ⟨result, run, c'⟩ := c.mallocBig Nat.one_pos (by decide)
      have one : (1 + arenaSize + pgSize - 1) % 2 ^ 32 / pgSize = 1 := by decide
      refine ⟨result, ?_, c'.ask_nothing, fun b new => ?_⟩
      · rw [big, ← run]
        simp only [Heap.mallocBig, pages, one]
      · obtain ⟨n, sized, _, small⟩ := room c' b new
        exact ⟨n, sized, iff_of_false (by omega) (by omega)⟩

end
end CS162.Pintos.KernelHeap
