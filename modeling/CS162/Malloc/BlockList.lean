import CS162.Library.Tiling
import CS162.Malloc.Allocator

/-!
The list of blocks a heap represents: headers doubly linked in address order,
tiling the region between the first break and the present one. `Linked` is the
doubly linked segment between two outer links, so that a list can be cut where
an operation works and put together again.
-/

namespace CS162.Malloc
open CS162.Library Memory

structure Block where
  addr : Nat
  size : Nat
  free : Bool
  deriving DecidableEq

/-- Where the contents end. -/
def Block.stop (b : Block) : Nat := contents b.addr + b.size

/-- Two headers do not overlap. -/
def Apart (p q : Nat) : Prop := p + metasize ≤ q ∨ q + metasize ≤ p

theorem Apart.symm {p q : Nat} (h : Apart p q) : Apart q p := Or.symm h

section Fields
variable {m m' : Memory} {f g : Field} {p q v : Nat}

theorem field_inside (f : Field) : f.offset + f.width ≤ metasize := by
  cases f <;> decide

theorem get_congr (h : SameOn p metasize m m') : get f m' p = get f m p :=
  load_congr (h.mono (Nat.le_add_right p _) (by have := field_inside f; omega))

theorem set_sameOff : SameOff p metasize m (set f m p v) := by
  intro x hx
  have := field_inside f
  exact store_sameOff x (by omega)

theorem setFree_sameOff {free : Bool} : SameOff p metasize m (setFree m p free) := set_sameOff

theorem get_set_self (hv : v < 256 ^ f.width) : get f (set f m p v) p = v :=
  load_store_self hv

theorem get_set_ne (h : f ≠ g) : get f (set g m p v) p = get f m p := by
  refine load_store_apart ?_
  cases f <;> cases g <;> simp [Field.offset, Field.width] at h ⊢

theorem get_set_apart (h : Apart p q) : get f (set g m q v) p = get f m p := by
  refine get_congr (set_sameOff.sameOn ?_)
  unfold Apart at h
  omega

theorem isFree_congr (h : SameOn p metasize m m') : isFree m' p = isFree m p := by
  simp only [isFree, get_congr h]

theorem sizeOf_congr (h : SameOn p metasize m m') : sizeOf m' p = sizeOf m p := by
  simp only [sizeOf, get_congr h]

@[simp] theorem isFree_set (h : g ≠ .free) : isFree (set g m p v) p = isFree m p := by
  simp only [isFree, get_set_ne h.symm]

@[simp] theorem sizeOf_set (h : g ≠ .size) : sizeOf (set g m p v) p = sizeOf m p := by
  simp only [sizeOf, get_set_ne h.symm]

theorem sizeOf_set_apart (h : Apart p q) : sizeOf (set g m q v) p = sizeOf m p := by
  simp only [sizeOf, get_set_apart h]

theorem isFree_setFree {free : Bool} : isFree (setFree m p free) p = free := by
  have small : free.toNat < 256 ^ Field.free.width := by cases free <;> decide
  simp only [isFree, setFree, get_set_self small]
  cases free <;> rfl

theorem sizeOf_setSize {size : Int} (lower : -2 ^ 31 ≤ size) (upper : size ≤ intMax) :
    sizeOf (setSize m p size) p = size := by
  have small : toUInt32 size < 256 ^ Field.size.width := by
    simp only [toUInt32, Field.width]
    omega
  rw [sizeOf, setSize, get_set_self small, toInt32_toUInt32, toInt32_of_range lower upper]

end Fields

/-- The fields of a block's header. -/
structure IsHeader (m : Memory) (b : Block) (prev next : Nat) : Prop where
  prev : get .prev m b.addr = prev
  next : get .next m b.addr = next
  free : isFree m b.addr = b.free
  size : sizeOf m b.addr = b.size

theorem IsHeader.congr {m m' : Memory} {b : Block} {prev next : Nat}
    (same : SameOn b.addr metasize m m') (h : IsHeader m b prev next) : IsHeader m' b prev next where
  prev := (get_congr same).trans h.prev
  next := (get_congr same).trans h.next
  free := (isFree_congr same).trans h.free
  size := (sizeOf_congr same).trans h.size

/-- The address of the first block, or of what follows an empty list. -/
def firstAddr : List Block → Nat → Nat
  | [], next => next
  | b :: _, _ => b.addr

/-- The address of the last block, or of what precedes an empty list. -/
def lastAddr : Nat → List Block → Nat
  | prev, [] => prev
  | _, b :: bs => lastAddr b.addr bs

def Linked (m : Memory) : Nat → List Block → Nat → Prop
  | _, [], _ => True
  | prev, b :: bs, next => IsHeader m b prev (firstAddr bs next) ∧ Linked m b.addr bs next

section Lists
variable {m m' : Memory} {prev next : Nat} {l r bs : List Block} {b : Block}

@[simp] theorem firstAddr_append : firstAddr (l ++ r) next = firstAddr l (firstAddr r next) := by
  cases l <;> rfl

@[simp] theorem lastAddr_append : lastAddr prev (l ++ r) = lastAddr (lastAddr prev l) r := by
  induction l generalizing prev with
  | nil => rfl
  | cons b l ih => exact ih

theorem lastAddr_eq_or_mem (prev : Nat) (l : List Block) :
    lastAddr prev l = prev ∨ ∃ b ∈ l, lastAddr prev l = b.addr := by
  induction l generalizing prev with
  | nil => exact .inl rfl
  | cons b l ih =>
      refine .inr ?_
      cases ih b.addr with
      | inl h => exact ⟨b, List.mem_cons_self, h⟩
      | inr h =>
          obtain ⟨c, hc, h⟩ := h
          exact ⟨c, List.mem_cons_of_mem _ hc, h⟩

theorem firstAddr_eq_or_mem (l : List Block) (next : Nat) :
    firstAddr l next = next ∨ ∃ b ∈ l, firstAddr l next = b.addr := by
  cases l with
  | nil => exact .inl rfl
  | cons b l => exact .inr ⟨b, List.mem_cons_self, rfl⟩

theorem linked_append : Linked m prev (l ++ r) next ↔
    Linked m prev l (firstAddr r next) ∧ Linked m (lastAddr prev l) r next := by
  induction l generalizing prev with
  | nil => simp [Linked, lastAddr]
  | cons b l ih => simp [Linked, lastAddr, ih, and_assoc]

theorem Linked.congr (same : ∀ b ∈ bs, SameOn b.addr metasize m m') (h : Linked m prev bs next) :
    Linked m' prev bs next := by
  induction bs generalizing prev with
  | nil => trivial
  | cons b bs ih =>
      exact ⟨h.1.congr (same b List.mem_cons_self),
        ih (fun c hc => same c (List.mem_cons_of_mem _ hc)) h.2⟩

end Lists

/-- The blocks tile the given region. -/
abbrev TilesRegion (lo : Nat) (bs : List Block) (hi : Nat) : Prop :=
  Tiles Block.addr Block.stop lo bs hi

/-- The block list of a heap: it starts at the first break, each block's contents
end where the next header starts, the last ends at the break, and the links are
each other's inverse. -/
structure Represents (h : Heap) (bs : List Block) : Prop where
  tiles : TilesRegion h.base bs h.brk
  linked : Linked h.mem 0 bs 0
  header : h.header = firstAddr bs 0
  base : 0 < h.base
  brk : h.brk < 2 ^ 64
  sizes : ∀ b ∈ bs, (b.size : Int) ≤ intMax

section Tiled
variable {lo hi : Nat} {l r bs : List Block} {b c : Block}

theorem stop_eq (b : Block) : b.stop = b.addr + metasize + b.size := rfl

theorem apart_of_tiles (h : TilesRegion lo (l ++ b :: r) hi) (hc : c ∈ l ∨ c ∈ r) :
    Apart b.addr c.addr := by
  obtain ⟨hl, _, hr⟩ := h.split
  cases hc with
  | inl hc =>
      have := (hl.bounds hc).2.2
      rw [stop_eq] at this
      exact .inr (by omega)
  | inr hc =>
      have := (hr.bounds hc).1
      rw [stop_eq] at this
      exact .inl (by omega)

theorem ne_zero_of_tiles (h : TilesRegion lo bs hi) (pos : 0 < lo) (hb : b ∈ bs) : b.addr ≠ 0 := by
  have := (h.bounds hb).1
  omega

theorem length_le_of_tiles (h : TilesRegion lo bs hi) : bs.length ≤ hi - lo := by
  have := h.length_mul_le (w := metasize) fun b _ => by
    rw [stop_eq]
    omega
  unfold metasize at this
  omega

theorem Represents.fuel {h : Heap} (hr : Represents h bs) : bs.length < h.fuel := by
  have := length_le_of_tiles hr.tiles
  unfold Heap.fuel
  omega

end Tiled

section Search
variable {m : Memory} {prev fuel : Nat} {bs : List Block}

theorem findFit_spec (size : Nat) (linked : Linked m prev bs 0) (nonnull : ∀ b ∈ bs, b.addr ≠ 0)
    (sizes : ∀ b ∈ bs, (b.size : Int) ≤ intMax) (enough : bs.length < fuel) :
    (∃ l b r, bs = l ++ b :: r ∧ b.free = true ∧ size ≤ b.size ∧
      findFit m size fuel prev (firstAddr bs 0) = some (lastAddr prev l, b.addr)) ∨
    findFit m size fuel prev (firstAddr bs 0) = some (lastAddr prev bs, 0) ∧
      ∀ b ∈ bs, b.free = true → b.size < size := by
  induction bs generalizing prev fuel with
  | nil =>
      obtain ⟨fuel, rfl⟩ := Nat.exists_eq_succ_of_ne_zero (Nat.ne_of_gt enough)
      exact .inr ⟨by simp [findFit, firstAddr, lastAddr], by simp⟩
  | cons b bs ih =>
      obtain ⟨fuel, rfl⟩ := Nat.exists_eq_succ_of_ne_zero (Nat.ne_of_gt (Nat.zero_lt_of_lt enough))
      obtain ⟨head, tail⟩ := linked
      have hb : b.addr ≠ 0 := nonnull b List.mem_cons_self
      have hsize : toUInt64 (sizeOf m b.addr) = b.size := by
        have := sizes b List.mem_cons_self
        rw [head.size]
        unfold toUInt64
        unfold intMax at this
        omega
      by_cases fits : b.free = true ∧ size ≤ b.size
      · refine .inl ⟨[], b, bs, rfl, fits.1, fits.2, ?_⟩
        simp [findFit, firstAddr, lastAddr, hb, head.free, hsize, fits]
      · have skip : findFit m size (fuel + 1) prev (firstAddr (b :: bs) 0) =
            findFit m size fuel b.addr (firstAddr bs 0) := by
          have : ¬ (b.free && decide (size ≤ b.size)) = true := by simpa using fits
          simp only [findFit, firstAddr, hb, if_false, head.free, hsize, head.next]
          rw [if_neg this]
        rw [skip]
        have rest := ih tail (fun c hc => nonnull c (List.mem_cons_of_mem _ hc))
          (fun c hc => sizes c (List.mem_cons_of_mem _ hc)) (by simp at enough; omega)
        cases rest with
        | inl found =>
            obtain ⟨l, c, r, rfl, hc⟩ := found
            exact .inl ⟨b :: l, c, r, rfl, hc⟩
        | inr none =>
            refine .inr ⟨none.1, fun c hc hf => ?_⟩
            cases hc with
            | head => exact Nat.lt_of_not_le fun h => fits ⟨hf, h⟩
            | tail _ hc => exact none.2 c hc hf

end Search
end CS162.Malloc
