import CS162.Malloc.BlockList

/-!
What `mm_malloc` does to the block list. The memory it leaves is followed field
by field only here; the callers work with the lists.
-/

namespace CS162.Malloc
open CS162.Library Memory

/-- The pointer `mm_malloc` returns, the block list it leaves and the new break. -/
inductive Allocates (bs : List Block) (brk size : Nat) : Nat → List Block → Nat → Prop where
  | refuse (why : size = 0 ∨ ∀ b ∈ bs, b.free = true → b.size < size) :
      Allocates bs brk size 0 bs brk
  | take (l r : List Block) (b : Block) (here : bs = l ++ b :: r) (free : b.free = true)
      (pos : 0 < size) (enough : size ≤ b.size) (tight : b.size < size + metasize) :
      Allocates bs brk size (contents b.addr) (l ++ { b with free := false } :: r) brk
  | split (l r : List Block) (b : Block) (here : bs = l ++ b :: r) (free : b.free = true)
      (pos : 0 < size) (room : size + metasize ≤ b.size) :
      Allocates bs brk size (contents b.addr)
        (l ++ ⟨b.addr, size, false⟩ ::
          ⟨contents b.addr + size, b.size - size - metasize, true⟩ :: r) brk
  | grow (pos : 0 < size) (none : ∀ b ∈ bs, b.free = true → b.size < size) :
      Allocates bs brk size (contents brk) (bs ++ [⟨brk, size, false⟩]) (contents brk + size)

section Replace
variable {h : Heap} {m m' : Memory} {prev next : Nat} {l old new r bs : List Block} {b : Block}

theorem linked_split : Linked m prev (l ++ b :: r) next ↔ Linked m prev l b.addr ∧
    IsHeader m b (lastAddr prev l) (firstAddr r next) ∧ Linked m b.addr r next := by
  rw [linked_append]
  rfl

theorem firstAddr_of_tiles {lo hi : Nat} (h : TilesRegion lo bs hi) (some : bs ≠ []) (next : Nat) :
    firstAddr bs next = lo := by
  cases bs with
  | nil => exact absurd rfl some
  | cons b bs => exact h.1

theorem Represents.replace (l old new r : List Block) (m' : Memory)
    (hr : Represents h (l ++ old ++ r)) (some_old : old ≠ [])
    (some_new : new ≠ []) (tiles : ∀ lo hi, TilesRegion lo old hi → TilesRegion lo new hi)
    (left : ∀ b ∈ l, SameOn b.addr metasize h.mem m')
    (middle : Linked m' (lastAddr 0 l) new (firstAddr r 0))
    (right : Linked m' (lastAddr (lastAddr 0 l) new) r 0)
    (sizes : ∀ b ∈ new, (b.size : Int) ≤ intMax) :
    Represents { h with mem := m' } (l ++ new ++ r) := by
  obtain ⟨hi, hlo, tr⟩ := tiles_append.mp hr.tiles
  obtain ⟨lo, tl, told⟩ := tiles_append.mp hlo
  have tnew := tiles lo hi told
  have first (next : Nat) : firstAddr old next = firstAddr new next := by
    rw [firstAddr_of_tiles told some_old, firstAddr_of_tiles tnew some_new]
  refine ⟨?_, ?_, ?_, hr.base, hr.brk, fun b hb => ?_⟩
  · exact tiles_append.mpr ⟨hi, tiles_append.mpr ⟨lo, tl, tnew⟩, tr⟩
  · rw [linked_append, linked_append, lastAddr_append]
    have left' := (linked_append.mp (linked_append.mp hr.linked).1).1
    rw [first] at left'
    exact ⟨⟨left'.congr left, middle⟩, right⟩
  · simpa only [firstAddr_append, first] using hr.header
  · simp only [List.mem_append] at hb
    obtain (hb | hb) | hb := hb
    · exact hr.sizes b (by simp [hb])
    · exact sizes b hb
    · exact hr.sizes b (by simp [hb])

theorem Linked.setPrev {prev' : Nat} (h : Linked m prev bs next)
    (first : ∀ b ∈ bs.head?, get .prev m' b.addr = prev' ∧ get .next m' b.addr = get .next m b.addr ∧
      isFree m' b.addr = isFree m b.addr ∧ sizeOf m' b.addr = sizeOf m b.addr)
    (rest : ∀ b ∈ bs.tail, SameOn b.addr metasize m m') : Linked m' prev' bs next := by
  cases bs with
  | nil => trivial
  | cons b bs =>
      obtain ⟨hprev, hnext, hfree, hsize⟩ := first b rfl
      refine ⟨⟨hprev, hnext.trans h.1.next, hfree.trans h.1.free, hsize.trans h.1.size⟩, ?_⟩
      exact h.2.congr rest

end Replace

section Take
variable {m : Memory} {b : Block} {l r : List Block} {h : Heap} {prev next size p : Nat}

theorem get_fill_apart {f : Field} {a n : Nat} {byte : UInt8} (apart : p + metasize ≤ a ∨ a + n ≤ p) :
    get f (m.fill a n byte) p = get f m p :=
  get_congr (fill_sameOff.sameOn (by omega))

theorem extraSpace_eq (max : (b.size : Int) ≤ intMax) (enough : size ≤ b.size) :
    toInt32 (toUInt64 ((b.size : Int) - size)) = (b.size : Int) - size := by
  unfold intMax at max
  rw [toUInt64_of_range (by omega) (by omega), toInt32_of_range (by omega) (by unfold intMax; omega)]

theorem metasize_le_extraSpace (max : (b.size : Int) ≤ intMax) (enough : size ≤ b.size) :
    metasize ≤ toUInt32 ((b.size : Int) - size) ↔ size + metasize ≤ b.size := by
  unfold intMax at max
  have := toUInt32_of_range (x := (b.size : Int) - size) (by omega) (by omega)
  omega

theorem toUInt64_size (max : (size : Int) ≤ intMax) : toUInt64 size = size := by
  have := toUInt64_of_range (x := size) (by omega) (by unfold intMax at max; omega)
  omega

theorem takeBlock_whole (head : IsHeader m b prev next) (max : (b.size : Int) ≤ intMax)
    (enough : size ≤ b.size) (tight : b.size < size + metasize) :
    IsHeader (takeBlock m b.addr size) { b with free := false } prev next ∧
      SameOff b.addr (metasize + b.size) m (takeBlock m b.addr size) := by
  have value : takeBlock m b.addr size =
      (setFree m b.addr false).fill (contents b.addr) b.size 0 := by
    have small : ¬ metasize ≤ toUInt32 ((b.size : Int) - size) := by
      rw [metasize_le_extraSpace max enough]
      omega
    have same : sizeOf (setFree m b.addr false) b.addr = b.size :=
      (sizeOf_set (by decide)).trans head.size
    simp only [takeBlock, head.size, extraSpace_eq max enough, small, if_false, same,
      toUInt64_size max]
  have off : ∀ f : Field, get f ((setFree m b.addr false).fill (contents b.addr) b.size 0) b.addr =
      get f (setFree m b.addr false) b.addr :=
    fun f => get_fill_apart (by unfold contents; omega)
  rw [value]
  refine ⟨⟨?_, ?_, ?_, ?_⟩, ?_⟩
  · exact (off .prev).trans ((get_set_ne (by decide)).trans head.prev)
  · exact (off .next).trans ((get_set_ne (by decide)).trans head.next)
  · simp only [isFree, off]
    exact isFree_setFree
  · simp only [sizeOf, off]
    exact (sizeOf_set (by decide)).trans head.size
  · have : SameOff b.addr (metasize + b.size) m (setFree m b.addr false) :=
      setFree_sameOff.mono (Nat.le_refl _) (by omega)
    refine this.trans ?_
    exact fill_sameOff.mono (by unfold contents; omega) (by unfold contents; omega)

/-- The memory after a split: `x` is the address of the new header and `n` the
block behind it, if there is one. -/
def splitMemory (m : Memory) (cur size x n : Nat) (rest : Int) : Memory :=
  let m := set .next (set .next (set .prev (setSize m cur size) x cur) x n) cur x
  let m := if n ≠ 0 then set .prev m n x else m
  (setFree (setSize (setFree m x true) x rest) cur false).fill (contents cur) size 0

theorem takeBlock_split_eq (head : IsHeader m b prev next) (max : (b.size : Int) ≤ intMax)
    (room : size + metasize ≤ b.size) (limit : next < 2 ^ 64)
    (apart : next ≠ 0 → Apart b.addr next) :
    takeBlock m b.addr size = splitMemory m b.addr size (contents b.addr + size) next
      ((b.size - size - metasize : Nat) : Int) := by
  have enough : size ≤ b.size := by omega
  have wide : metasize ≤ toUInt32 ((b.size : Int) - size) :=
    (metasize_le_extraSpace max enough).mpr room
  have hx : Apart b.addr (contents b.addr + size) := .inl (by unfold contents; omega)
  have rest : (b.size : Int) - size - metasize = ((b.size - size - metasize : Nat) : Int) := by omega
  simp only [takeBlock, splitBlock, head.size, extraSpace_eq max enough, wide, if_true, splitMemory,
    rest]
  generalize contents b.addr + size = x at hx ⊢
  have link : get .next (set .prev (setSize m b.addr size) x b.addr) b.addr = next :=
    (get_set_apart hx).trans ((get_set_ne (by decide)).trans head.next)
  have link' (m : Memory) : get .next (set .next (set .next m x next) b.addr x) x = next :=
    (get_set_apart hx.symm).trans (get_set_self limit)
  rw [link, link']
  have sized (m : Memory) : sizeOf (setFree (setSize (setFree m x true) x
      ((b.size - size - metasize : Nat) : Int)) b.addr false) b.addr = sizeOf m b.addr :=
    (sizeOf_set (by decide)).trans ((sizeOf_set_apart hx).trans (sizeOf_set_apart hx))
  have kept : sizeOf (set .next (set .next (set .prev (setSize m b.addr size) x b.addr) x next)
      b.addr x) b.addr = size := by
    rw [sizeOf_set (by decide), sizeOf_set_apart hx, sizeOf_set_apart hx]
    exact sizeOf_setSize (by omega) (by omega)
  rw [sized]
  by_cases hn : next = 0
  · simp only [hn, ne_eq, not_true, if_false] at kept ⊢
    rw [kept, toUInt64_size (by omega)]
  · simp only [hn, ne_eq, not_false_iff, if_true]
    rw [sizeOf_set_apart (apart hn), kept, toUInt64_size (by omega)]

section Split
variable {x n : Nat} {rest : Int}

theorem get_relink {f : Field} (apart : n ≠ 0 → Apart p n) :
    get f (if n ≠ 0 then set .prev m n x else m) p = get f m p := by
  split
  next some => exact get_set_apart (apart some)
  next => rfl

theorem splitMemory_head (head : IsHeader m b prev next) (hx : x = contents b.addr + size)
    (limit : x < 256 ^ Field.next.width) (max : (size : Int) ≤ intMax)
    (apart : n ≠ 0 → Apart b.addr n) :
    IsHeader (splitMemory m b.addr size x n rest) ⟨b.addr, size, false⟩ prev x := by
  have hbx : Apart b.addr x := .inl (by unfold contents at hx; omega)
  have before : b.addr + metasize ≤ contents b.addr ∨ contents b.addr + size ≤ b.addr :=
    .inl (Nat.le_refl _)
  refine ⟨?_, ?_, ?_, ?_⟩
  · simp (disch := first | assumption | decide) only [splitMemory, setFree, setSize, get_fill_apart,
      get_set_ne, get_set_apart, get_relink, head.prev]
  · simp (disch := first | assumption | decide) only [splitMemory, setFree, setSize, get_fill_apart,
      get_set_ne, get_set_apart, get_relink, get_set_self]
  · simp (disch := first | assumption | decide) only [splitMemory, setFree, isFree, get_fill_apart,
      get_set_self]
    decide
  · have kept : sizeOf (setSize m b.addr size) b.addr = size := sizeOf_setSize (by omega) max
    simp (disch := first | assumption | decide) only [splitMemory, setFree, sizeOf, get_fill_apart,
      get_set_ne, get_set_apart, get_relink, setSize] at kept ⊢
    exact kept

theorem splitMemory_rest (hx : x = contents b.addr + size) (hb : b.addr < 256 ^ Field.prev.width)
    (hn : n < 256 ^ Field.next.width) (max : rest ≤ intMax) (pos : 0 ≤ rest)
    (apart : n ≠ 0 → Apart x n) :
    IsHeader (splitMemory m b.addr size x n rest) ⟨x, rest.toNat, true⟩ b.addr n := by
  have hxb : Apart x b.addr := .inr (by unfold contents at hx; omega)
  have after : x + metasize ≤ contents b.addr ∨ contents b.addr + size ≤ x := .inr (by omega)
  refine ⟨?_, ?_, ?_, ?_⟩
  · simp (disch := first | assumption | decide) only [splitMemory, setFree, setSize, get_fill_apart,
      get_set_ne, get_set_apart, get_relink, get_set_self]
  · simp (disch := first | assumption | decide) only [splitMemory, setFree, setSize, get_fill_apart,
      get_set_ne, get_set_apart, get_relink, get_set_self]
  · simp (disch := first | assumption | decide) only [splitMemory, setFree, setSize, isFree,
      get_fill_apart, get_set_ne, get_set_apart, get_set_self]
    decide
  · have kept (m : Memory) : sizeOf (setSize m x rest) x = rest := sizeOf_setSize (by omega) max
    simp (disch := first | assumption | decide) only [splitMemory, setFree, sizeOf, get_fill_apart,
      get_set_apart, setSize] at kept ⊢
    rw [kept, Int.toNat_of_nonneg pos]

theorem splitMemory_next (hx : x = contents b.addr + size) (limit : x < 256 ^ Field.prev.width)
    (some : n ≠ 0) (hbn : Apart n b.addr) (hxn : Apart n x) (after : x ≤ n) (rest : Int) :
    get .prev (splitMemory m b.addr size x n rest) n = x ∧ ∀ f ≠ Field.prev,
      get f (splitMemory m b.addr size x n rest) n = get f m n := by
  have outside : n + metasize ≤ contents b.addr ∨ contents b.addr + size ≤ n := .inr (by omega)
  refine ⟨?_, fun f hf => ?_⟩
  · simp (disch := first | assumption | decide) only [splitMemory, setFree, setSize, get_fill_apart,
      get_set_apart, get_set_self, if_pos some]
  · simp (disch := first | assumption | decide) only [splitMemory, setFree, setSize, get_fill_apart,
      get_set_apart, get_set_ne, if_pos some]

theorem splitMemory_sameOn (hx : x = contents b.addr + size)
    (outside : p + metasize ≤ b.addr ∨ x + metasize ≤ p) (apart : n ≠ 0 → Apart p n) :
    SameOn p metasize m (splitMemory m b.addr size x n rest) := by
  unfold contents at hx
  have hpb : p + metasize ≤ b.addr ∨ b.addr + metasize ≤ p := by omega
  have hpx : p + metasize ≤ x ∨ x + metasize ≤ p := by omega
  have atB (m : Memory) (f : Field) (v : Nat) : SameOn p metasize m (set f m b.addr v) :=
    set_sameOff.sameOn hpb
  have atX (m : Memory) (f : Field) (v : Nat) : SameOn p metasize m (set f m x v) :=
    set_sameOff.sameOn hpx
  have relinked (m : Memory) : SameOn p metasize m (if n ≠ 0 then set .prev m n x else m) := by
    split
    next some => exact set_sameOff.sameOn (apart some)
    next => exact .refl
  have sized := (atB m .size (toUInt32 size)).trans ((atX _ .prev b.addr).trans
    ((atX _ .next n).trans (atB _ .next x)))
  have marked := (sized.trans (relinked _)).trans ((atX _ .free true.toNat).trans
    ((atX _ .size (toUInt32 rest)).trans (atB _ .free false.toNat)))
  exact marked.trans (fill_sameOff.sameOn (by unfold contents; omega))

end Split

section Link
variable {cur : Nat}

theorem linkBlock_new (hprev : prev < 256 ^ Field.prev.width) (max : (size : Int) ≤ intMax) :
    IsHeader (linkBlock m prev cur size) ⟨cur, size, false⟩ prev 0 := by
  have before : cur + metasize ≤ contents cur ∨ contents cur + size ≤ cur := .inl (Nat.le_refl _)
  have null : 0 < 256 ^ Field.next.width := by decide
  refine ⟨?_, ?_, ?_, ?_⟩
  · simp (disch := first | assumption | decide) only [linkBlock, setFree, setSize, get_fill_apart,
      get_set_ne, get_set_self]
  · simp (disch := first | assumption | decide) only [linkBlock, setFree, setSize, get_fill_apart,
      get_set_ne, get_set_self]
  · simp (disch := first | assumption | decide) only [linkBlock, setFree, setSize, isFree,
      get_fill_apart, get_set_ne, get_set_self]
    decide
  · have kept (m : Memory) : sizeOf (setSize m cur size) cur = size := sizeOf_setSize (by omega) max
    simp (disch := first | assumption | decide) only [linkBlock, sizeOf, get_fill_apart,
      setSize] at kept ⊢
    exact kept _

/-- Linking a new block writes behind the old break and the last block's link. -/
theorem linkBlock_sameOn (below : p + metasize ≤ cur) (apart : prev ≠ 0 → Apart p prev) :
    SameOn p metasize m (linkBlock m prev cur size) := by
  have linked : SameOn p metasize m (if prev = 0 then m else set .next m prev cur) := by
    split
    next => exact .refl
    next some => exact set_sameOff.sameOn (apart some)
  have atCur (m : Memory) (f : Field) (v : Nat) : SameOn p metasize m (set f m cur v) :=
    set_sameOff.sameOn (.inl below)
  have marked := linked.trans ((atCur _ .prev prev).trans ((atCur _ .next 0).trans
    ((atCur _ .free false.toNat).trans (atCur _ .size (toUInt32 size)))))
  exact marked.trans (fill_sameOff.sameOn (by unfold contents; omega))

theorem linkBlock_last (size : Nat) (below : prev + metasize ≤ cur) (limit : cur < 256 ^ Field.next.width)
    (some : prev ≠ 0) :
    get .next (linkBlock m prev cur size) prev = cur ∧ ∀ f ≠ Field.next,
      get f (linkBlock m prev cur size) prev = get f m prev := by
  have apart : Apart prev cur := .inl below
  have outside : prev + metasize ≤ contents cur ∨ contents cur + size ≤ prev :=
    .inl (by unfold contents; omega)
  refine ⟨?_, fun f hf => ?_⟩
  · simp (disch := first | assumption | decide) only [linkBlock, setFree, setSize, get_fill_apart,
      get_set_apart, get_set_self, if_neg some]
  · simp (disch := first | assumption | decide) only [linkBlock, setFree, setSize, get_fill_apart,
      get_set_apart, get_set_ne, if_neg some]

end Link
end Take

section Spec
variable {h : Heap} {l r bs : List Block} {b : Block} {size : Nat}

theorem Represents.addr_lt (hr : Represents h bs) (hb : b ∈ bs) : b.addr < 2 ^ 64 := by
  have := hr.tiles.bounds hb
  have := hr.brk
  rw [stop_eq] at *
  omega

theorem Represents.ne_zero (hr : Represents h bs) (hb : b ∈ bs) : b.addr ≠ 0 :=
  ne_zero_of_tiles hr.tiles hr.base hb

theorem Represents.take (hr : Represents h (l ++ b :: r)) (enough : size ≤ b.size)
    (tight : b.size < size + metasize) :
    Represents { h with mem := takeBlock h.mem b.addr size }
      (l ++ { b with free := false } :: r) := by
  have hb : b ∈ l ++ b :: r := by simp
  obtain ⟨hl, head, hrest⟩ := linked_split.mp hr.linked
  obtain ⟨new, off⟩ := takeBlock_whole head (hr.sizes b hb) enough tight
  obtain ⟨tl, _, tr⟩ := hr.tiles.split
  have same : ∀ c ∈ l ++ r, SameOn c.addr metasize h.mem (takeBlock h.mem b.addr size) := by
    intro c hc
    refine off.sameOn ?_
    cases List.mem_append.mp hc with
    | inl hc =>
        have := tl.bounds hc
        rw [stop_eq] at this
        exact .inl (by omega)
    | inr hc =>
        have := tr.bounds hc
        rw [stop_eq] at this
        exact .inr (by omega)
  have := Represents.replace l [b] [{ b with free := false }] r (takeBlock h.mem b.addr size)
    (by simpa using hr) (by simp) (by simp) (fun lo hi t => t) (fun c hc => same c (by simp [hc]))
    ⟨new, trivial⟩ (hrest.congr fun c hc => same c (by simp [hc])) (by simpa using hr.sizes b hb)
  simpa using this

theorem Represents.behind (hr : Represents h (l ++ b :: r)) : firstAddr r 0 < 2 ^ 64 ∧
    (firstAddr r 0 ≠ 0 → b.addr + metasize + b.size ≤ firstAddr r 0) ∧
    ∀ c ∈ r, firstAddr r 0 ≤ c.addr ∧ b.addr + metasize + b.size ≤ c.addr := by
  obtain ⟨_, _, tr⟩ := hr.tiles.split
  cases r with
  | nil => exact ⟨by decide, fun some => absurd rfl some, fun c hc => by cases hc⟩
  | cons d r =>
      have after (c : Block) (hc : c ∈ d :: r) : b.addr + metasize + b.size ≤ c.addr := (tr.bounds hc).1
      refine ⟨hr.addr_lt (by simp), fun _ => after d List.mem_cons_self, fun c hc => ⟨?_, after c hc⟩⟩
      have first : d.addr = b.stop := tr.1
      rw [stop_eq] at first
      rw [firstAddr, first]
      exact after c hc

theorem Represents.split (hr : Represents h (l ++ b :: r)) (room : size + metasize ≤ b.size) :
    Represents { h with mem := takeBlock h.mem b.addr size } (l ++ ⟨b.addr, size, false⟩ ::
      ⟨contents b.addr + size, b.size - size - metasize, true⟩ :: r) := by
  have hb : b ∈ l ++ b :: r := by simp
  obtain ⟨hl, head, hrest⟩ := linked_split.mp hr.linked
  obtain ⟨tl, _, tr⟩ := hr.tiles.split
  have max := hr.sizes b hb
  have stop := (hr.tiles.bounds hb).2.2
  have limit := hr.brk
  rw [stop_eq] at stop
  obtain ⟨next_limit, apart, behind⟩ := hr.behind
  have after (c : Block) (hc : c ∈ r) : b.addr + metasize + b.size ≤ c.addr := (behind c hc).2
  have value := takeBlock_split_eq head max room next_limit
    fun some => .inl (by have := apart some; omega)
  rw [value]
  have limit' : contents b.addr + size < 256 ^ Field.next.width := by
    change b.addr + metasize + size < 2 ^ 64
    omega
  have headers : Linked (splitMemory h.mem b.addr size (contents b.addr + size) (firstAddr r 0)
      ((b.size - size - metasize : Nat) : Int)) (lastAddr 0 l) [⟨b.addr, size, false⟩,
      ⟨contents b.addr + size, b.size - size - metasize, true⟩] (firstAddr r 0) := by
    refine ⟨splitMemory_head head rfl limit' (by omega) fun some => .inl ?_,
      splitMemory_rest rfl (hr.addr_lt hb) next_limit (by omega) (by omega) fun some => .inl ?_,
      trivial⟩
    · have := apart some
      omega
    · have := apart some
      unfold contents
      omega
  have := Represents.replace l [b] [⟨b.addr, size, false⟩,
    ⟨contents b.addr + size, b.size - size - metasize, true⟩] r _ (by simpa using hr) (by simp)
    (by simp) ?_ (fun c hc => splitMemory_sameOn rfl ?_ fun some => .inl ?_) headers
    (hrest.setPrev ?_ fun c hc => splitMemory_sameOn rfl ?_ fun some => ?_) ?_
  · simpa using this
  · rintro lo hi ⟨rfl, _, rfl⟩
    simp only [Tiles, stop_eq, contents, true_and]
    omega
  · have := (tl.bounds hc).2.2
    rw [stop_eq] at this
    exact .inl (by omega)
  · have := (tl.bounds hc).2.2
    have := apart some
    rw [stop_eq] at *
    omega
  · intro c hc
    cases r with
    | nil => cases hc
    | cons d r =>
        obtain rfl : d = c := by simpa using hc
        have below := after d List.mem_cons_self
        have hd : d.addr ≠ 0 := hr.ne_zero (by simp)
        obtain ⟨hprev, other⟩ := splitMemory_next (m := h.mem) (b := b) rfl limit' hd
          (.inr (by omega)) (.inr (by unfold contents; omega)) (by unfold contents; omega)
          ((b.size - size - metasize : Nat) : Int)
        refine ⟨hprev, other .next (by decide), ?_, ?_⟩
        · simp only [isFree, firstAddr, other .free (by decide)]
        · simp only [sizeOf, firstAddr, other .size (by decide)]
  · have := after c (List.mem_of_mem_tail hc)
    exact .inr (by unfold contents; omega)
  · cases r with
    | nil => cases hc
    | cons d r =>
        have := (tr.2.2.bounds hc).1
        rw [stop_eq] at this
        exact .inr (by simp only [firstAddr]; omega)
  · intro c hc
    simp only [List.mem_cons, List.not_mem_nil, or_false] at hc
    obtain rfl | rfl := hc
    · simp only
      omega
    · simp only
      omega

theorem Represents.grow (hr : Represents h bs) (max : (size : Int) ≤ intMax)
    (room : contents h.brk + size < 2 ^ 64) :
    Represents { h with mem := linkBlock h.mem (lastAddr 0 bs) h.brk size,
                        header := if lastAddr 0 bs = 0 then h.brk else h.header,
                        brk := contents h.brk + size } (bs ++ [⟨h.brk, size, false⟩]) := by
  unfold contents at room
  have last_lt : lastAddr 0 bs < 2 ^ 64 := by
    cases lastAddr_eq_or_mem 0 bs with
    | inl null => omega
    | inr some =>
        obtain ⟨c, hc, heq⟩ := some
        rw [heq]
        exact hr.addr_lt hc
  have below {c : Block} (hc : c ∈ bs) : c.addr + metasize ≤ h.brk := by
    have := (hr.tiles.bounds hc).2.2
    rw [stop_eq] at this
    omega
  have tiles : TilesRegion h.base (bs ++ [⟨h.brk, size, false⟩]) (contents h.brk + size) := by
    refine tiles_append.mpr ⟨h.brk, hr.tiles, rfl, ?_, rfl⟩
    simp only [stop_eq]
    omega
  refine ⟨tiles, ?_, ?_, hr.base, by unfold contents; exact room, fun c hc => ?_⟩
  · refine linked_append.mpr ⟨?_, linkBlock_new last_lt max, trivial⟩
    obtain rfl | ⟨l, c, rfl⟩ := bs.eq_nil_or_concat
    · trivial
    · rw [List.concat_eq_append] at *
      obtain ⟨hl, head, _⟩ := linked_split.mp hr.linked
      have hc : c ∈ l ++ [c] := by simp
      have last : lastAddr 0 (l ++ [c]) = c.addr := by simp [lastAddr]
      have apart {d : Block} (hd : d ∈ l) : Apart d.addr c.addr :=
        (apart_of_tiles hr.tiles (.inl hd)).symm
      rw [last]
      obtain ⟨next, other⟩ := linkBlock_last (m := h.mem) size (below hc)
        (by change h.brk < 2 ^ 64; omega) (hr.ne_zero hc)
      refine linked_split.mpr ⟨hl.congr fun d hd => ?_, ⟨?_, next, ?_, ?_⟩, trivial⟩
      · exact linkBlock_sameOn (below (by simp [hd])) fun _ => apart hd
      · exact (other .prev (by decide)).trans head.prev
      · simp only [isFree, other .free (by decide)]
        exact head.free
      · simp only [sizeOf, other .size (by decide)]
        exact head.size
  · cases bs with
    | nil => rfl
    | cons b bs =>
        have some : lastAddr 0 (b :: bs) ≠ 0 := by
          cases lastAddr_eq_or_mem b.addr bs with
          | inl first =>
              rw [lastAddr, first]
              exact hr.ne_zero (by simp)
          | inr some =>
              obtain ⟨c, hc, heq⟩ := some
              rw [lastAddr, heq]
              exact hr.ne_zero (by simp [hc])
        rw [if_neg some]
        exact hr.header
  · simp only [List.mem_append, List.mem_singleton] at hc
    obtain hc | rfl := hc
    · exact hr.sizes c hc
    · exact max

theorem sbrk_eq_some {h h' : Heap} {n : Nat} {ok : Bool} (hs : sbrk h n ok = some h') :
    h' = { h with brk := h.brk + n } ∧ h.brk + n < 2 ^ 64 := by
  simp only [sbrk] at hs
  split at hs
  next inside =>
    cases hs
    exact ⟨by simp; omega, by omega⟩
  next => cases hs

theorem mmMalloc_found (hr : Represents h bs) (pos : 0 < size)
    (fit : ∃ b ∈ bs, b.free = true ∧ size ≤ b.size) (ok : Bool) :
    ∃ m' bs', ∃ b ∈ bs, mmMalloc h size ok = some ({ h with mem := m' }, contents b.addr) ∧
      Represents { h with mem := m' } bs' ∧ Allocates bs h.brk size (contents b.addr) bs' h.brk := by
  cases findFit_spec size hr.linked (fun b hb => hr.ne_zero hb) hr.sizes hr.fuel with
  | inl found =>
      obtain ⟨l, b, r, rfl, free, enough, found⟩ := found
      have run : mmMalloc h size ok =
          some ({ h with mem := takeBlock h.mem b.addr size }, contents b.addr) := by
        simp only [mmMalloc, Nat.ne_of_gt pos, if_false, hr.header, found]
        rw [if_pos (hr.ne_zero (by simp))]
      by_cases room : size + metasize ≤ b.size
      · exact ⟨_, _, b, by simp, run, hr.split room, .split l r b rfl free pos room⟩
      · have tight : b.size < size + metasize := by omega
        exact ⟨_, _, b, by simp, run, hr.take enough tight, .take l r b rfl free pos enough tight⟩
  | inr missing =>
      obtain ⟨b, hb, free, enough⟩ := fit
      exact absurd (missing.2 b hb free) (Nat.not_lt.mpr enough)

theorem Fits.sized (fits : Fits size) (h : Heap) (ok : Bool) : h.Sized size ok := by
  rw [Fits] at fits
  exact .inl (by omega)

theorem mmMalloc_missing (hr : Represents h bs) (ok : Bool) (sized : h.Sized size ok) (pos : 0 < size)
    (none : ∀ b ∈ bs, b.free = true → b.size < size) :
    mmMalloc h size ok = some (h, 0) ∨
    ∃ h', mmMalloc h size ok = some (h', contents h.brk) ∧ h'.base = h.base ∧
      h'.brk = contents h.brk + size ∧ Represents h' (bs ++ [⟨h.brk, size, false⟩]) := by
  have missing : findFit h.mem size h.fuel 0 (firstAddr bs 0) = some (lastAddr 0 bs, 0) := by
    cases findFit_spec size hr.linked (fun b hb => hr.ne_zero hb) hr.sizes hr.fuel with
    | inl found =>
        obtain ⟨l, b, r, rfl, free, enough, _⟩ := found
        exact absurd (none b (by simp) free) (Nat.not_lt.mpr enough)
    | inr missing => exact missing.1
  simp only [mmMalloc, Nat.ne_of_gt pos, if_false, hr.header, missing]
  cases hs : sbrk h (toInt64 (toUInt64 ((metasize : Int) + size))) ok with
  | none => exact .inl rfl
  | some h' =>
      have max : (size : Int) ≤ intMax := sized.resolve_right fun refused => by cases hs.symm.trans refused
      have increment : toInt64 (toUInt64 ((metasize : Int) + size)) = ((metasize + size : Nat) : Int) := by
        have header : metasize = 24 := rfl
        have max := max
        rw [intMax] at max
        rw [toUInt64_of_range (by omega) (by omega), toInt64_of_range (by omega) (by omega)]
        omega
      rw [increment] at hs
      obtain ⟨rfl, room⟩ := sbrk_eq_some hs
      have same : h.brk + (metasize + size) = contents h.brk + size := by
        unfold contents
        omega
      rw [same] at room ⊢
      refine .inr ⟨_, rfl, rfl, rfl, ?_⟩
      rw [← hr.header]
      exact hr.grow max room

theorem mmMalloc_spec (hr : Represents h bs) (ok : Bool) (sized : h.Sized size ok) :
    ∃ h' p bs', mmMalloc h size ok = some (h', p) ∧ h'.base = h.base ∧ Represents h' bs' ∧
      Allocates bs h.brk size p bs' h'.brk := by
  by_cases none : size = 0
  · exact ⟨h, 0, bs, by simp [mmMalloc, none], rfl, hr, .refuse (.inl none)⟩
  have pos : 0 < size := Nat.pos_of_ne_zero none
  by_cases fit : ∃ b ∈ bs, b.free = true ∧ size ≤ b.size
  · obtain ⟨m', bs', b, _, run, after, effect⟩ := mmMalloc_found hr pos fit ok
    exact ⟨_, _, bs', run, rfl, after, effect⟩
  · have small (b : Block) (hb : b ∈ bs) (free : b.free = true) : b.size < size :=
      Nat.lt_of_not_le fun enough => fit ⟨b, hb, free, enough⟩
    obtain run | ⟨h', run, base, brk, after⟩ := mmMalloc_missing hr ok sized pos small
    · exact ⟨h, 0, bs, run, rfl, hr, .refuse (.inr small)⟩
    · exact ⟨h', _, _, run, base, after, brk ▸ .grow pos small⟩

end Spec
end CS162.Malloc
