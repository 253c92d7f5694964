import CS162.Malloc.Invariant

/-!
Programs that ask for blocks of any size. The size of a block is an `int`, and the increment of
`sbrk` is the sum of the header and the size in 64 bits. So `mm_malloc` gives out a good block
exactly if the size is an `int`, or it gives out none because `sbrk` refuses.
-/

namespace CS162.Malloc
open CS162.Library Memory

def World.step (w : World) (c : Call) : Option World := if w.permits c then w.call c else none

def programs : System World Call := .ofNext World.fresh World.step

/-- The frees of the call merge harmlessly, and its size is an `int` or is refused. -/
def Harmless (w : World) (c : Call) : Prop := MergesSafely w c ∧ SizedCall w c

instance (w : World) (c : Call) : Decidable (Harmless w c) := inferInstanceAs (Decidable (_ ∧ _))

/-- The bytes from a block's contents to the next header, or to the break behind the last block. -/
def Heap.lengthAt (h : Heap) (p : Nat) : Int :=
  let next := get .next h.mem (p - metasize)
  ((if next = 0 then h.brk else next : Nat) : Int) - p

/-- A block with room for a request: inside the region, apart from the live blocks, and of the size
that its header says. -/
structure Serves (w : World) (size : Nat) (h' : Heap) (p : Nat) : Prop where
  lower : w.heap.base + metasize ≤ p
  upper : p + size ≤ h'.brk
  apart : ∀ x ∈ w.live, p + size + metasize ≤ x.1 ∨
    (x.1 : Int) + sizeOf w.heap.mem (x.1 - metasize) ≤ p - metasize
  recorded : sizeOf h'.mem (p - metasize) = h'.lengthAt p

section
variable {w w' : World} {h h' : Heap} {bs : List Block} {b : Block} {size p : Nat} {ok : Bool} {c : Call}

theorem sound_of_harmless (h : (programs.under Harmless).Reachable w) : ∃ bs, Sound w bs := by
  apply h.invariant (I := fun w => ∃ bs, Sound w bs)
  · intro w fresh
    exact ⟨[], sound_of_fresh fresh⟩
  · intro w c w' known step
    obtain ⟨bs, sound⟩ := known
    obtain ⟨run, safe, sized⟩ := step
    simp only [programs, System.ofNext, World.step] at run
    split at run
    next permits =>
      obtain ⟨bs', after, _⟩ := sound.call permits sized safe run
      exact ⟨bs', after⟩
    next => cases run

theorem sizeOf_le (m : Memory) (p : Nat) : sizeOf m p ≤ intMax := by
  rw [sizeOf, toInt32, intMax]
  omega

theorem contents_sub (p : Nat) : contents p - metasize = p := Nat.add_sub_cancel ..

theorem Represents.lengthAt (hr : Represents h bs) (hb : b ∈ bs) :
    sizeOf h.mem b.addr = b.size ∧ h.lengthAt (contents b.addr) = b.size := by
  obtain ⟨l, r, rfl⟩ := List.append_of_mem hb
  obtain ⟨_, head, _⟩ := linked_split.mp hr.linked
  obtain ⟨_, _, behind⟩ := hr.tiles.split
  refine ⟨head.size, ?_⟩
  rw [Heap.lengthAt, contents_sub, head.next]
  cases r with
  | nil =>
      have stop : b.stop = h.brk := behind
      rw [stop_eq] at stop
      simp only [firstAddr, if_true, contents]
      omega
  | cons d r =>
      have stop : d.addr = b.stop := behind.1
      rw [stop_eq] at stop
      have some : d.addr ≠ 0 := hr.ne_zero (by simp)
      show ((if d.addr = 0 then h.brk else d.addr : Nat) : Int) - contents b.addr = b.size
      rw [if_neg some, contents]
      omega

/-- A block that is given out for a size that is an `int` serves the request. -/
theorem Sound.serves (hs : Sound w bs) (run : mmMalloc w.heap size ok = some (h', p))
    (sized : w.heap.Sized size ok) (some : p ≠ 0) : Serves w size h' p := by
  obtain ⟨h'', p', bs', run', base, effect, after⟩ := hs.malloc ok sized
  cases run.symm.trans run'
  obtain ⟨b, hb, used, rfl, room⟩ := effect.block some
  have tiles : TilesRegion h'.base bs' h'.brk := after.represents.tiles
  obtain ⟨lower, _, upper⟩ := tiles.bounds hb
  obtain ⟨size_b, length_b⟩ := after.represents.lengthAt hb
  rw [stop_eq] at upper
  constructor
  case lower =>
    rw [base] at lower
    exact Nat.add_le_add_right lower _
  case upper =>
    simp only [contents]
    omega
  case apart =>
    intro x hx
    obtain ⟨c, hc, used', here, _⟩ := hs.owns.owned x hx
    have fresh := effect.fresh hs.represents.tiles hc used'
    have hc' : c ∈ bs' := (effect.used_iff used' fresh).mpr hc
    have ne : b.addr ≠ c.addr := by
      intro same
      apply fresh
      rw [contents, contents, same]
    have apart := disjoint_of_tiles tiles hb hc' ne
    rw [← here, contents_sub, (hs.represents.lengthAt hc).1]
    rw [stop_eq, stop_eq] at apart
    simp only [contents] at *
    omega
  case recorded => rw [contents_sub, size_b, length_b]

theorem brk_of_sbrk {increment : Int} (grown : sbrk h increment ok = some h') :
    (h'.brk : Int) = h.brk + increment := by
  simp only [sbrk] at grown
  split at grown
  next inside =>
    cases grown
    have := inside.2.1
    exact Int.toNat_of_nonneg (by omega)
  next => cases grown

theorem increment_le (size : Nat) : toInt64 (toUInt64 (metasize + size)) ≤ metasize + size := by
  rw [toInt64, toUInt64]
  omega

theorem lengthAt_linkBlock {m : Memory} {prev cur : Nat} (linked : h.mem = linkBlock m prev cur size) :
    h.lengthAt (contents cur) = (h.brk : Int) - contents cur := by
  have before : cur + metasize ≤ contents cur ∨ contents cur + size ≤ cur := .inl (Nat.le_refl _)
  have null : 0 < 256 ^ Field.next.width := by decide
  have last : get .next (linkBlock m prev cur size) cur = 0 := by
    simp (disch := first | assumption | decide) only [linkBlock, setFree, setSize, get_fill_apart,
      get_set_ne, get_set_self]
  rw [Heap.lengthAt, contents_sub, linked, last]
  rfl

/-- A size that is no `int` and is not refused gets a block whose header is wrong. -/
theorem Represents.misserves (hr : Represents w.heap bs) (unsized : ¬ w.heap.Sized size ok) :
    ∃ h' p, mmMalloc w.heap size ok = some (h', p) ∧ p ≠ 0 ∧ ¬ Serves w size h' p := by
  obtain ⟨large, memory⟩ := not_or.mp unsized
  obtain ⟨h₁, grown⟩ := Option.ne_none_iff_exists'.mp memory
  have pos : size ≠ 0 := by
    intro none
    apply large
    rw [none]
    decide
  have missing : findFit w.heap.mem size w.heap.fuel 0 (firstAddr bs 0) = some (lastAddr 0 bs, 0) := by
    cases findFit_spec size hr.linked (fun b hb => hr.ne_zero hb) hr.sizes hr.fuel with
    | inl found =>
        obtain ⟨l, b, r, rfl, _, enough, _⟩ := found
        have := hr.sizes b (by simp)
        omega
    | inr missing => exact missing.1
  refine ⟨{ h₁ with mem := linkBlock w.heap.mem (lastAddr 0 bs) w.heap.brk size,
                    header := if lastAddr 0 bs = 0 then w.heap.brk else w.heap.header },
    contents w.heap.brk, ?_, ?_, fun serves => ?_⟩
  · rw [Heap.grown] at grown
    simp only [mmMalloc, pos, if_false, hr.header, missing, grown]
    rfl
  · rw [contents, metasize]
    omega
  · -- The break moves by no more than the request, so the block ends there.
    have brk : (h₁.brk : Int) = w.heap.brk + _ := brk_of_sbrk grown
    have increment := increment_le size
    have upper : contents w.heap.brk + size ≤ h₁.brk := serves.upper
    have recorded : sizeOf (linkBlock w.heap.mem (lastAddr 0 bs) w.heap.brk size) w.heap.brk =
        (h₁.brk : Int) - contents w.heap.brk := by
      have recorded := serves.recorded
      rwa [lengthAt_linkBlock rfl, contents_sub] at recorded
    have most := sizeOf_le (linkBlock w.heap.mem (lastAddr 0 bs) w.heap.brk size) w.heap.brk
    rw [contents] at *
    omega

end

/-- In every run whose calls are harmless, `mm_malloc` gives out no block or one that serves the
request exactly if its size is an `int` or is refused. -/
theorem mmMalloc_serves_iff {w : World} (reach : (programs.under Harmless).Reachable w) (size : Nat) (ok : Bool) :
    ∃ h' p, mmMalloc w.heap size ok = some (h', p) ∧
      (p = 0 ∨ Serves w size h' p ↔ w.heap.Sized size ok) := by
  obtain ⟨bs, sound⟩ := sound_of_harmless reach
  by_cases sized : w.heap.Sized size ok
  · obtain ⟨h', p, bs', run, _⟩ := sound.malloc ok sized
    exact ⟨h', p, run, iff_of_true (or_iff_not_imp_left.mpr (sound.serves run sized)) sized⟩
  · obtain ⟨h', p, run, some, short⟩ := sound.represents.misserves sized
    exact ⟨h', p, run, iff_of_false (not_or.mpr ⟨some, short⟩) sized⟩

/-- A block that was freed is split. -/
theorem mmMalloc_serves_of_split : ∃ w, (programs.under Harmless).Reachable w ∧
    ∃ h' p, mmMalloc w.heap 8 true = some (h', p) ∧ p ≠ 0 ∧ Serves w 8 h' p := by
  obtain ⟨w, reach, checks⟩ := System.exists_reachable_under World.fresh World.step Harmless
    (fun w => decide (w.heap.Sized 8 true) &&
      (mmMalloc w.heap 8 true).all fun r : Heap × Nat => decide (r.2 ≠ 0)) (s := .empty)
    ⟨rfl, rfl, rfl, by decide, by decide⟩ [.malloc 40 true, .free 4120] (by decide +kernel)
  rw [Bool.and_eq_true, decide_eq_true_eq] at checks
  obtain ⟨sized, given⟩ := checks
  obtain ⟨h', p, run, serves⟩ := mmMalloc_serves_iff reach 8 true
  rw [run] at given
  have some : p ≠ 0 := of_decide_eq_true given
  exact ⟨w, reach, h', p, run, some, (serves.mpr sized).resolve_left some⟩

/-- A request of 2 ^ 31 + 8 bytes gets a negative size. Once the block is freed, its size as a `size_t`
is large enough for any request: one of 2 ^ 40 bytes gets the same block. -/
theorem mmMalloc_short_of_negative : ∃ w, programs.Reachable w ∧ ∃ size < 2 ^ 64, ∃ ok h' p,
    mmMalloc w.heap size ok = some (h', p) ∧ p ≠ 0 ∧ ¬ Serves w size h' p := by
  obtain ⟨w, reach, short⟩ := System.exists_reachable World.fresh World.step
    (fun w => (mmMalloc w.heap (2 ^ 40) true).any fun r => decide (r.2 = 4120 ∧ r.1.brk < 2 ^ 32))
    (s := .empty) ⟨rfl, rfl, rfl, by decide, by decide⟩
    [.malloc (2 ^ 31 + 8) true, .free 4120] (by decide +kernel)
  obtain ⟨⟨h', p⟩, run, checks⟩ := (Option.any_eq_true ..).mp short
  obtain ⟨here, brk⟩ := of_decide_eq_true checks
  refine ⟨w, reach, 2 ^ 40, by decide, true, h', p, run, ?_, fun serves => ?_⟩
  · rw [show p = 4120 from here]
    decide
  · have upper := serves.upper
    have brk : h'.brk < 2 ^ 32 := brk
    omega

end CS162.Malloc
