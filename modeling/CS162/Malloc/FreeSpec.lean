import CS162.Malloc.MallocSpec
import Mathlib.Data.List.DropRight

/-!
What `mm_free` does to the block list. Freeing a block takes in the free blocks
on both sides; the header left is the first of them. The loops never write the
`prev` link of the block behind, so the list is whole again only if there is no
such block or nothing was taken in.
-/

namespace CS162.Malloc
open CS162.Library Memory

/-- The bytes of some blocks, headers included. -/
def weight : List Block → Nat
  | [] => 0
  | b :: bs => metasize + b.size + weight bs

section Weight
variable {l r bs : List Block}

@[simp] theorem weight_append : weight (l ++ r) = weight l + weight r := by
  induction l with
  | nil => simp [weight]
  | cons b l ih =>
      simp only [List.cons_append, weight, ih]
      omega

theorem tiles_weight {lo hi : Nat} (h : TilesRegion lo bs hi) : lo + weight bs = hi := by
  induction bs generalizing lo with
  | nil => exact h
  | cons b bs ih =>
      obtain ⟨rfl, _, ht⟩ := h
      have := ih ht
      rw [stop_eq] at this
      simp only [weight]
      omega

end Weight

/-- Only the size of one header differs. -/
structure Resized (cur : Nat) (size : Int) (m m' : Memory) : Prop where
  off : SameOff cur metasize m m'
  fields : ∀ f ≠ Field.size, get f m' cur = get f m cur
  size : sizeOf m' cur = size

section Merge
variable {m m' : Memory} {cur p size fuel prev next : Nat} {f : Field} {b : Block}
  {l bk fw rest : List Block}

theorem Resized.apart {size : Int} (h : Resized cur size m m') (apart : Apart p cur) :
    SameOn p metasize m m' :=
  h.off.sameOn apart

theorem Resized.refl {size : Int} (h : sizeOf m cur = size) : Resized cur size m m :=
  ⟨fun _ _ => rfl, fun _ _ => rfl, h⟩

theorem Resized.trans {m'' : Memory} {size size' : Int} (h : Resized cur size m m')
    (h' : Resized cur size' m' m'') : Resized cur size' m m'' :=
  ⟨h.off.trans h'.off, fun f hf => (h'.fields f hf).trans (h.fields f hf), h'.size⟩

theorem absorb_resized (hcur : sizeOf m cur = size) (hb : sizeOf m p = b.size)
    (max : ((size + (metasize + b.size) : Nat) : Int) ≤ intMax) :
    Resized cur ((size + (metasize + b.size) : Nat) : Int) m (absorb m cur p) := by
  have total : ((toUInt32 (sizeOf m cur + metasize + sizeOf m p) : Nat) : Int) =
      ((size + (metasize + b.size) : Nat) : Int) := by
    rw [hcur, hb, toUInt32_of_range (by omega) (by unfold intMax at max; omega)]
    omega
  refine ⟨set_sameOff, fun f hf => get_set_ne hf, ?_⟩
  rw [absorb, total]
  exact sizeOf_setSize (by omega) max

theorem mergeForward_spec (linked : Linked m prev (fw ++ rest) 0)
    (nonnull : ∀ c ∈ fw ++ rest, c.addr ≠ 0) (apart : ∀ c ∈ fw ++ rest, Apart c.addr cur)
    (free : ∀ c ∈ fw, c.free = true) (used : ∀ c ∈ rest.head?, c.free = false)
    (hcur : sizeOf m cur = size) (max : ((size + weight fw : Nat) : Int) ≤ intMax)
    (enough : fw.length < fuel) :
    ∃ m', mergeForward cur fuel m (firstAddr (fw ++ rest) 0) = some (m', firstAddr rest 0) ∧
      Resized cur ((size + weight fw : Nat) : Int) m m' := by
  induction fw generalizing m prev size fuel with
  | nil =>
      obtain ⟨fuel, rfl⟩ := Nat.exists_eq_succ_of_ne_zero (Nat.ne_of_gt enough)
      refine ⟨m, ?_, .refl hcur⟩
      have exits : ¬ (firstAddr rest 0 ≠ 0 ∧ isFree m (firstAddr rest 0) = true) := by
        cases rest with
        | nil => simp [firstAddr]
        | cons c rest =>
            have := linked.1.free.trans (used c rfl)
            simp [firstAddr, this]
      simp only [List.nil_append, mergeForward]
      rw [if_neg exits]
  | cons c fw ih =>
      obtain ⟨fuel, rfl⟩ := Nat.exists_eq_succ_of_ne_zero (Nat.ne_of_gt (Nat.zero_lt_of_lt enough))
      obtain ⟨head, tail⟩ := linked
      have enters : c.addr ≠ 0 ∧ isFree m c.addr = true :=
        ⟨nonnull c (by simp), head.free.trans (free c (by simp))⟩
      simp only [weight] at max ⊢
      have grown := absorb_resized (b := c) hcur head.size (by omega)
      have outer (d : Block) (hd : d ∈ fw ++ rest) : SameOn d.addr metasize m (absorb m cur c.addr) :=
        grown.apart (apart d (List.mem_cons_of_mem _ hd))
      have next : get .next (absorb m cur c.addr) c.addr = firstAddr (fw ++ rest) 0 :=
        (get_congr (grown.apart (apart c (by simp)))).trans head.next
      obtain ⟨m', run, resized⟩ := ih (tail.congr outer) (fun d hd => nonnull d (by simp [hd]))
        (fun d hd => apart d (List.mem_cons_of_mem _ hd)) (fun d hd => free d (by simp [hd])) grown.size
        (by omega) (by simp at enough; omega)
      have total : size + (metasize + c.size + weight fw) = size + (metasize + c.size) + weight fw := by
        omega
      refine ⟨m', ?_, total ▸ grown.trans resized⟩
      change mergeForward cur (fuel + 1) m c.addr = _
      rw [mergeForward, if_pos enters]
      simp only [next]
      exact run

theorem mergeBackward_spec (linked : Linked m 0 (l ++ bk) next)
    (hprev : get .prev m p = lastAddr 0 (l ++ bk)) (hp : p = cur ∨ Apart p cur)
    (nonnull : ∀ c ∈ l ++ bk, c.addr ≠ 0) (apart : ∀ c ∈ l ++ bk, Apart c.addr cur)
    (free : ∀ c ∈ bk, c.free = true) (used : ∀ c ∈ l.getLast?, c.free = false)
    (hcur : sizeOf m cur = size) (max : ((size + weight bk : Nat) : Int) ≤ intMax)
    (enough : bk.length < fuel) :
    ∃ m', mergeBackward cur fuel m p = some (m', firstAddr bk p) ∧
      Resized cur ((size + weight bk : Nat) : Int) m m' := by
  induction bk using List.reverseRecOn generalizing m p size fuel next with
  | nil =>
      obtain ⟨fuel, rfl⟩ := Nat.exists_eq_succ_of_ne_zero (Nat.ne_of_gt enough)
      refine ⟨m, ?_, .refl hcur⟩
      have exits : ¬ (lastAddr 0 l ≠ 0 ∧ isFree m (lastAddr 0 l) = true) := by
        obtain rfl | ⟨l', c, rfl⟩ := l.eq_nil_or_concat
        · simp [lastAddr]
        · rw [List.concat_eq_append] at *
          rw [List.append_nil] at linked
          have := (linked_split.mp linked).2.1.free.trans (used c (by simp))
          simp [lastAddr, this]
      rw [List.append_nil] at hprev
      rw [mergeBackward, hprev]
      exact if_neg exits
  | append_singleton bk c ih =>
      obtain ⟨fuel, rfl⟩ := Nat.exists_eq_succ_of_ne_zero (Nat.ne_of_gt (Nat.zero_lt_of_lt enough))
      rw [← List.append_assoc] at linked hprev nonnull apart
      obtain ⟨front, head, _⟩ := linked_split.mp linked
      have prev : get .prev m p = c.addr := hprev.trans (by simp [lastAddr])
      have enters : c.addr ≠ 0 ∧ isFree m c.addr = true :=
        ⟨nonnull c (by simp), head.free.trans (free c (by simp))⟩
      simp only [weight_append, weight, Nat.add_zero] at max ⊢
      have grown := absorb_resized (b := c) hcur head.size (by omega)
      have outer (d : Block) (hd : d ∈ l ++ bk) : SameOn d.addr metasize m (absorb m cur c.addr) :=
        grown.apart (apart d (List.mem_append_left _ hd))
      have back : get .prev (absorb m cur c.addr) p = c.addr := by
        refine Eq.trans ?_ prev
        cases hp with
        | inl same =>
            subst same
            exact grown.fields .prev (by decide)
        | inr other => exact get_congr (grown.apart other)
      have apart_c : Apart c.addr cur := apart c (by simp)
      have hprev' : get .prev (absorb m cur c.addr) c.addr = lastAddr 0 (l ++ bk) :=
        (get_congr (grown.apart apart_c)).trans head.prev
      have fewer : bk.length < fuel := by
        rw [List.length_append, List.length_singleton] at enough
        omega
      obtain ⟨m', run, resized⟩ := ih (front.congr outer) hprev' (.inr apart_c)
        (fun d hd => nonnull d (List.mem_append_left _ hd))
        (fun d hd => apart d (List.mem_append_left _ hd))
        (fun d hd => free d (List.mem_append_left _ hd)) grown.size (by omega) fewer
      have total : size + (weight bk + (metasize + c.size)) =
          size + (metasize + c.size) + weight bk := by
        omega
      refine ⟨m', ?_, total ▸ grown.trans resized⟩
      rw [mergeBackward, prev, if_pos enters, firstAddr_append]
      simp only [back]
      exact run

end Merge

section Release
variable {m : Memory} {h : Heap} {fuel : Nat} {b : Block} {l bk fw rest : List Block}

/-- The free block `mm_free` leaves where the blocks `bk`, `b` and `fw` were. -/
def merged (bk : List Block) (b : Block) (fw : List Block) : Block :=
  ⟨firstAddr bk b.addr, b.size + weight fw + weight bk, true⟩

theorem releaseBlock_spec (linked : Linked m 0 (l ++ bk ++ b :: (fw ++ rest)) 0)
    (nonnull : ∀ c ∈ l ++ bk ++ b :: (fw ++ rest), c.addr ≠ 0)
    (limit : ∀ c ∈ l ++ bk ++ b :: (fw ++ rest), c.addr < 2 ^ 64)
    (apart : ∀ c ∈ l ++ bk ++ (fw ++ rest), Apart c.addr b.addr)
    (free_bk : ∀ c ∈ bk, c.free = true) (used_l : ∀ c ∈ l.getLast?, c.free = false)
    (free_fw : ∀ c ∈ fw, c.free = true) (used_rest : ∀ c ∈ rest.head?, c.free = false)
    (max : ((merged bk b fw).size : Int) ≤ intMax)
    (enough : (l ++ bk ++ b :: (fw ++ rest)).length < fuel) :
    ∃ m', releaseBlock fuel m b.addr = some m' ∧
      IsHeader m' (merged bk b fw) (lastAddr 0 l) (firstAddr rest 0) ∧
      ∀ p, Apart p b.addr → Apart p (merged bk b fw).addr → SameOn p metasize m m' := by
  obtain ⟨front, head, behind⟩ := linked_split.mp linked
  simp only [merged] at max ⊢
  simp only [List.length_append, List.length_cons] at enough
  have lower : -2 ^ 31 ≤ ((b.size + weight fw + weight bk : Nat) : Int) := by omega
  have marked {p : Nat} (hp : Apart p b.addr) : SameOn p metasize m (setFree m b.addr true) :=
    set_sameOff.sameOn hp
  have size₁ : sizeOf (setFree m b.addr true) b.addr = b.size :=
    (sizeOf_set (by decide)).trans head.size
  obtain ⟨m₂, run₂, resized₂⟩ := mergeForward_spec
    (behind.congr fun c hc => marked (apart c (List.mem_append_right _ hc)))
    (fun c hc => nonnull c (List.mem_append_right _ (List.mem_cons_of_mem _ hc)))
    (fun c hc => apart c (List.mem_append_right _ hc))
    free_fw used_rest size₁ (by omega) (by omega : fw.length < fuel)
  have next₁ : get .next (setFree m b.addr true) b.addr = firstAddr (fw ++ rest) 0 :=
    (get_set_ne (by decide)).trans head.next
  have rest_lt : firstAddr rest 0 < 256 ^ Field.next.width := by
    change firstAddr rest 0 < 2 ^ 64
    cases firstAddr_eq_or_mem rest 0 with
    | inl null => omega
    | inr some =>
        obtain ⟨c, hc, heq⟩ := some
        rw [heq]
        exact limit c (by simp [hc])
  -- After the first loop the block is linked to what it did not take in.
  let m₃ := set .next m₂ b.addr (firstAddr rest 0)
  have frame₃ {p : Nat} (hp : Apart p b.addr) : SameOn p metasize m m₃ :=
    ((marked hp).trans (resized₂.apart hp)).trans (set_sameOff.sameOn hp)
  have prev₃ : get .prev m₃ b.addr = lastAddr 0 (l ++ bk) :=
    (get_set_ne (by decide)).trans
      ((resized₂.fields .prev (by decide)).trans ((get_set_ne (by decide)).trans head.prev))
  have free₃ : isFree m₃ b.addr = true := by
    rw [isFree_set (by decide), isFree, resized₂.fields .free (by decide)]
    exact isFree_setFree
  have size₃ : sizeOf m₃ b.addr = ((b.size + weight fw : Nat) : Int) :=
    (sizeOf_set (by decide)).trans resized₂.size
  obtain ⟨m₄, run₄, resized₄⟩ := mergeBackward_spec
    (front.congr fun c hc => frame₃ (apart c (List.mem_append_left _ hc))) prev₃ (.inl rfl)
    (fun c hc => nonnull c (List.mem_append_left _ hc))
    (fun c hc => apart c (List.mem_append_left _ hc)) free_bk used_l size₃ (by omega)
    (by omega : bk.length < fuel)
  have next₄ : get .next m₄ b.addr = firstAddr rest 0 :=
    (resized₄.fields .next (by decide)).trans (get_set_self rest_lt)
  have first : get .prev m₄ (firstAddr bk b.addr) = lastAddr 0 l ∧
      isFree m₄ (firstAddr bk b.addr) = true ∧
      get .next (setSize m₄ (firstAddr bk b.addr) (sizeOf m₄ b.addr)) b.addr = firstAddr rest 0 := by
    cases bk with
    | nil =>
        refine ⟨?_, ?_, (get_set_ne (by decide)).trans next₄⟩
        · rw [List.append_nil] at prev₃
          exact (resized₄.fields .prev (by decide)).trans prev₃
        · simp only [isFree, firstAddr, resized₄.fields .free (by decide)]
          exact free₃
    | cons c bk =>
        have hc : Apart c.addr b.addr := apart c (by simp)
        have head_c := (linked_split.mp front).2.1
        have same := (frame₃ hc).trans (resized₄.apart hc)
        refine ⟨(get_congr same).trans head_c.prev, ?_, (get_set_apart hc.symm).trans next₄⟩
        exact (isFree_congr same).trans (head_c.free.trans (free_bk c (by simp)))
  obtain ⟨prev₄, free₄, next₅⟩ := first
  refine ⟨set .next (setSize m₄ (firstAddr bk b.addr) (sizeOf m₄ b.addr)) (firstAddr bk b.addr)
    (firstAddr rest 0), ?_, ⟨?_, ?_, ?_, ?_⟩, ?_⟩
  · simp only [releaseBlock, next₁, run₂, Option.bind_eq_bind, Option.bind_some]
    rw [run₄]
    simp only [Option.bind_some, next₅]
    rfl
  · exact (get_set_ne (by decide)).trans ((get_set_ne (by decide)).trans prev₄)
  · exact get_set_self rest_lt
  · rw [isFree_set (by decide)]
    exact (isFree_set (by decide)).trans free₄
  · rw [sizeOf_set (by decide), resized₄.size]
    exact sizeOf_setSize lower max
  · intro p hb hq
    have same := (frame₃ hb).trans (resized₄.apart hb)
    exact (same.trans (set_sameOff.sameOn hq)).trans (set_sameOff.sameOn hq)

end Release

/-- The free blocks right in front of a block, and what comes before them. -/
def freeBefore (l : List Block) : List Block := l.rtakeWhile Block.free

def usedBefore (l : List Block) : List Block := l.rdropWhile Block.free

/-- The free blocks right behind a block, and what comes after them. -/
def freeAfter (r : List Block) : List Block := r.takeWhile Block.free

def usedAfter (r : List Block) : List Block := r.dropWhile Block.free

/-- The list `mm_free` means to leave. -/
def released (l : List Block) (b : Block) (r : List Block) : List Block :=
  usedBefore l ++ merged (freeBefore l) b (freeAfter r) :: usedAfter r

/-- The merge cannot leave a stale `prev` link: nothing is merged or no block
comes after. The size it adds up is an `int`. -/
def Mergeable (l : List Block) (b : Block) (r : List Block) : Prop :=
  ((merged (freeBefore l) b (freeAfter r)).size : Int) ≤ intMax ∧
    (freeBefore l = [] ∧ freeAfter r = [] ∨ usedAfter r = [])

section Free
variable {h : Heap} {lo hi : Nat} {l r bs : List Block} {b c d : Block} {ptr : Nat}

theorem before_eq (l : List Block) : usedBefore l ++ freeBefore l = l :=
  List.rdropWhile_append_rtakeWhile ..

theorem after_eq (r : List Block) : freeAfter r ++ usedAfter r = r :=
  List.takeWhile_append_dropWhile

theorem free_of_freeBefore (hb : b ∈ freeBefore l) : b.free = true := List.mem_rtakeWhile_imp hb

theorem free_of_freeAfter (hb : b ∈ freeAfter r) : b.free = true := List.mem_takeWhile_imp hb

theorem used_of_usedBefore (hb : b ∈ (usedBefore l).getLast?) : b.free = false := by
  have some : usedBefore l ≠ [] := by
    intro none
    simp [none] at hb
  have last : ¬ ((usedBefore l).getLast some).free = true :=
    List.rdropWhile_last_not Block.free l some
  rw [Option.mem_def, List.getLast?_eq_some_getLast some, Option.some.injEq] at hb
  rw [hb] at last
  exact Bool.eq_false_iff.mpr last

theorem used_of_usedAfter (hb : b ∈ (usedAfter r).head?) : b.free = false := by
  have first := List.head?_dropWhile_not Block.free r
  rw [Option.mem_def, usedAfter] at hb
  rw [hb] at first
  exact first

theorem apart_of_append (h : TilesRegion lo (l ++ r) hi) (hc : c ∈ l) (hd : d ∈ r) :
    Apart c.addr d.addr := by
  obtain ⟨mid, hl, hr⟩ := tiles_append.mp h
  have := (hl.bounds hc).2.2
  have := (hr.bounds hd).1
  rw [stop_eq] at *
  exact .inl (by omega)

theorem merged_addr : ∃ c ∈ freeBefore l ++ [b], (merged (freeBefore l) b r).addr = c.addr := by
  cases firstAddr_eq_or_mem (freeBefore l) b.addr with
  | inl same => exact ⟨b, by simp, same⟩
  | inr some =>
      obtain ⟨c, hc, heq⟩ := some
      exact ⟨c, by simp [hc], heq⟩

theorem merged_tiles {fw : List Block} (h : TilesRegion lo (freeBefore l ++ b :: fw) hi) :
    TilesRegion lo [merged (freeBefore l) b fw] hi := by
  have total := tiles_weight h
  have first : firstAddr (freeBefore l) b.addr = lo := by
    have := firstAddr_of_tiles h (by simp) 0
    rw [firstAddr_append] at this
    exact this
  simp only [weight_append, weight] at total
  simp only [Tiles, merged, stop_eq, first, true_and]
  omega

/-- Freeing a block whose merge is harmless leaves the list it means to, and writes two headers. -/
theorem Represents.release (hr : Represents h (l ++ b :: r)) (safe : Mergeable l b r) :
    ∃ m', releaseBlock h.fuel h.mem b.addr = some m' ∧
      Represents { h with mem := m' } (released l b r) ∧
      ∀ p, Apart p b.addr → Apart p (merged (freeBefore l) b (freeAfter r)).addr →
        SameOn p metasize h.mem m' := by
  have parts : l ++ b :: r = usedBefore l ++ freeBefore l ++ b :: (freeAfter r ++ usedAfter r) := by
    rw [before_eq, after_eq]
  obtain ⟨max, quiet⟩ := safe
  rw [parts] at hr
  have others : ∀ c ∈ usedBefore l ++ freeBefore l ++ (freeAfter r ++ usedAfter r),
      Apart c.addr b.addr :=
    fun c hc => (apart_of_tiles hr.tiles (List.mem_append.mp hc)).symm
  obtain ⟨m', run, head, frame⟩ := releaseBlock_spec hr.linked (fun c hc => hr.ne_zero hc)
    (fun c hc => hr.addr_lt hc) others (fun c hc => free_of_freeBefore hc)
    (fun c hc => used_of_usedBefore hc) (fun c hc => free_of_freeAfter hc)
    (fun c hc => used_of_usedAfter hc) max hr.fuel
  have away (c : Block) (hc : ∀ d ∈ freeBefore l ++ [b], Apart c.addr d.addr) :
      SameOn c.addr metasize h.mem m' := by
    obtain ⟨d, hd, heq⟩ := merged_addr (l := l) (b := b) (r := freeAfter r)
    exact frame c.addr (hc b (by simp)) (heq ▸ hc d hd)
  refine ⟨m', run, ?_, frame⟩
  have := Represents.replace (usedBefore l) (freeBefore l ++ b :: freeAfter r)
    [merged (freeBefore l) b (freeAfter r)] (usedAfter r) m' (by simpa using hr) (by simp) (by simp)
    (fun lo hi t => merged_tiles t) (fun c hc => away c fun d hd => ?_) ⟨head, trivial⟩ ?_
    (by simpa using max)
  · simpa [released] using this
  · have t := hr.tiles
    rw [List.append_assoc] at t
    refine apart_of_append t hc ?_
    simp only [List.mem_append, List.mem_cons, List.not_mem_nil, or_false] at hd ⊢
    exact hd.imp_right .inl
  · cases quiet with
    | inl unmerged =>
        have behind := (linked_split.mp hr.linked).2.2
        simp only [merged, unmerged.1, unmerged.2, lastAddr, firstAddr, List.nil_append] at behind ⊢
        refine behind.congr fun c hc => away c fun d hd => ?_
        obtain rfl : d = b := by simpa [unmerged.1] using hd
        exact others c (by simp [hc])
    | inr last =>
        rw [last]
        trivial

end Free

/-- The blocks the links lead to. -/
def readBlocks (m : Memory) : Nat → Nat → List Block
  | 0, _ => []
  | fuel + 1, p =>
      if p = 0 then []
      else ⟨p, (sizeOf m p).toNat, isFree m p⟩ :: readBlocks m fuel (get .next m p)

def Heap.blocks (h : Heap) : List Block := readBlocks h.mem h.fuel h.header

/-- The list around the used block with the given contents. -/
def focus (ptr : Nat) : List Block → Option (List Block × Block × List Block)
  | [] => none
  | b :: bs =>
      if b.free = false ∧ contents b.addr = ptr then some ([], b, bs)
      else (focus ptr bs).map fun x => (b :: x.1, x.2)

section Blocks
variable {h : Heap} {m : Memory} {prev fuel ptr : Nat} {l r bs : List Block} {b : Block}

theorem readBlocks_eq (linked : Linked m prev bs 0) (nonnull : ∀ b ∈ bs, b.addr ≠ 0)
    (enough : bs.length < fuel) : readBlocks m fuel (firstAddr bs 0) = bs := by
  induction bs generalizing prev fuel with
  | nil =>
      obtain ⟨fuel, rfl⟩ := Nat.exists_eq_succ_of_ne_zero (Nat.ne_of_gt enough)
      simp [readBlocks, firstAddr]
  | cons b bs ih =>
      obtain ⟨fuel, rfl⟩ := Nat.exists_eq_succ_of_ne_zero (Nat.ne_of_gt (Nat.zero_lt_of_lt enough))
      obtain ⟨head, tail⟩ := linked
      have rest := ih tail (fun c hc => nonnull c (List.mem_cons_of_mem _ hc))
        (by simp at enough; omega)
      change readBlocks m (fuel + 1) b.addr = _
      simp only [readBlocks, nonnull b List.mem_cons_self, if_false, head.size, head.free, head.next,
        rest, Int.toNat_natCast]

theorem Represents.blocks_eq (hr : Represents h bs) : h.blocks = bs := by
  rw [Heap.blocks, hr.header]
  exact readBlocks_eq hr.linked (fun b hb => hr.ne_zero hb) hr.fuel

theorem focus_eq_some (hf : focus ptr bs = some (l, b, r)) :
    bs = l ++ b :: r ∧ b.free = false ∧ contents b.addr = ptr := by
  induction bs generalizing l with
  | nil => cases hf
  | cons c bs ih =>
      simp only [focus] at hf
      split at hf
      next hit =>
        cases hf
        exact ⟨rfl, hit⟩
      next =>
        obtain ⟨⟨l', b', r'⟩, hx, heq⟩ := Option.map_eq_some_iff.mp hf
        cases heq
        obtain ⟨rfl, hit⟩ := ih hx
        exact ⟨rfl, hit⟩

theorem focus_eq_none (hf : focus ptr bs = none) (hb : b ∈ bs) (used : b.free = false) :
    contents b.addr ≠ ptr := by
  induction bs with
  | nil => cases hb
  | cons c bs ih =>
      simp only [focus] at hf
      split at hf
      next => cases hf
      next miss =>
        cases hb with
        | head => exact fun heq => miss ⟨used, heq⟩
        | tail _ hb => exact ih (Option.map_eq_none_iff.mp hf) hb

theorem findUsed_focus (ptr : Nat) (linked : Linked m prev bs 0) (nonnull : ∀ b ∈ bs, b.addr ≠ 0)
    (enough : bs.length < fuel) :
    findUsed m ptr fuel (firstAddr bs 0) = some ((focus ptr bs).elim 0 fun x => x.2.1.addr) := by
  induction bs generalizing prev fuel with
  | nil =>
      obtain ⟨fuel, rfl⟩ := Nat.exists_eq_succ_of_ne_zero (Nat.ne_of_gt enough)
      simp [findUsed, firstAddr, focus]
  | cons b bs ih =>
      obtain ⟨fuel, rfl⟩ := Nat.exists_eq_succ_of_ne_zero (Nat.ne_of_gt (Nat.zero_lt_of_lt enough))
      obtain ⟨head, tail⟩ := linked
      have hb : b.addr ≠ 0 := nonnull b List.mem_cons_self
      have rest := ih tail (fun c hc => nonnull c (List.mem_cons_of_mem _ hc))
        (by simp at enough; omega)
      change findUsed m ptr (fuel + 1) b.addr = _
      simp only [findUsed, hb, if_false, head.free, head.next, focus]
      by_cases hit : b.free = false ∧ contents b.addr = ptr
      · have hit' : (!b.free && decide (contents b.addr = ptr)) = true := by simpa using hit
        rw [if_pos hit, if_pos hit']
        rfl
      · have miss : ¬ (!b.free && decide (contents b.addr = ptr)) = true := by simpa using hit
        rw [if_neg hit, if_neg miss, rest]
        cases focus ptr bs <;> rfl

theorem mmFree_miss (hr : Represents h bs) (miss : focus ptr bs = none) :
    mmFree h ptr = some h := by
  have search := findUsed_focus ptr hr.linked (fun b hb => hr.ne_zero hb) hr.fuel
  rw [← hr.header, miss] at search
  simp only [mmFree, search, Option.elim]
  split <;> rfl

theorem mmFree_hit (hr : Represents h bs) (hit : focus ptr bs = some (l, b, r))
    (safe : Mergeable l b r) :
    ∃ m', mmFree h ptr = some { h with mem := m' } ∧
      Represents { h with mem := m' } (released l b r) ∧
      ∀ p, Apart p b.addr → Apart p (merged (freeBefore l) b (freeAfter r)).addr →
        SameOn p metasize h.mem m' := by
  obtain ⟨rfl, used, here⟩ := focus_eq_some hit
  obtain ⟨m', run, after⟩ := hr.release safe
  have search := findUsed_focus ptr hr.linked (fun b hb => hr.ne_zero hb) hr.fuel
  rw [← hr.header, hit] at search
  have nonnull : ptr ≠ 0 := by
    unfold contents metasize at here
    omega
  refine ⟨m', ?_, after⟩
  simp only [mmFree, nonnull, if_false, search, Option.elim]
  split
  next heq => cases heq
  next heq => exact absurd (Option.some.inj heq) (hr.ne_zero (by simp))
  next heq =>
    cases heq
    rw [run]
    rfl

end Blocks
end CS162.Malloc
