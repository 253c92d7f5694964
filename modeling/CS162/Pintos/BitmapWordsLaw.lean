import CS162.Library.MachineInt
import CS162.Pintos.BitmapWords

/-!
A stored bitmap is the list of its bits: every change of it changes the list, every
question is answered as on the list, and a scan finds the first run of equal bits.
-/

namespace CS162.Pintos.BitmapWords
open CS162.Library

/-- The members of a list in a range. -/
def window (l : List Bool) (start cnt : Nat) : List Bool := (l.drop start).take cnt

/-- A list with a range set. -/
def setRange (l : List Bool) (start cnt : Nat) (value : Bool) : List Bool :=
  l.take start ++ (List.replicate cnt value ++ l.drop (start + cnt))

/-- What a change makes of the list of bits. -/
def Op.apply (l : List Bool) : Op → List Bool
  | .set idx value => l.set idx value
  | .mark idx => l.set idx true
  | .reset idx => l.set idx false
  | .flip idx => l.modify idx not
  | .setMultiple start cnt value => setRange l start cnt value

namespace Words
variable (b : Words)

def bit (i : Nat) : Bool := (b.bits.getD (i / elemBits) 0).getLsbD (i % elemBits)

def toBits : List Bool := (List.range b.bitCnt).map b.bit

end Words

/-- There is a run of bits from here on. -/
def IsRun (l : List Bool) (cnt : Nat) (value : Bool) (i : Nat) : Prop :=
  i + cnt ≤ l.length ∧ ∀ v ∈ window l i cnt, v = value

/-- The first run from `start` on, or `BITMAP_ERROR`. -/
def FirstRun (l : List Bool) (start cnt : Nat) (value : Bool) (n : Nat) : Prop :=
  (start ≤ n ∧ IsRun l cnt value n ∧ ∀ i, start ≤ i → i < n → ¬ IsRun l cnt value i) ∨
    (∀ i, start ≤ i → ¬ IsRun l cnt value i) ∧ n = bitmapError

/-- All questions are answered as on the list. -/
structure AnswersAs (b : Words) (l : List Bool) : Prop where
  size : l.length = b.bitCnt
  test : ∀ i (h : i < l.length), b.test i = some l[i]
  count : ∀ start cnt value, start + cnt ≤ l.length →
    b.count start cnt value = some ((window l start cnt).count value)
  contains : ∀ start cnt value, start + cnt ≤ l.length →
    b.contains start cnt value = some (decide (value ∈ window l start cnt))
  any : ∀ start cnt, start + cnt ≤ l.length → b.any start cnt = some ((window l start cnt).any id)
  none : ∀ start cnt, start + cnt ≤ l.length → b.none start cnt = some ((window l start cnt).all not)
  all : ∀ start cnt, start + cnt ≤ l.length → b.all start cnt = some ((window l start cnt).all id)
  scan : ∀ start cnt value, start ≤ l.length →
    ∃ n, b.scan start cnt value = some n ∧ FirstRun l start cnt value n
  scanAndFlip : ∀ start cnt value, start ≤ l.length →
    ∃ n b', b.scanAndFlip start cnt value = some (n, b') ∧ FirstRun l start cnt value n ∧
      b'.bitCnt = b.bitCnt ∧
      b'.toBits = if n = bitmapError then l else setRange l n cnt (!value)

section Lists
variable {l l' : List Bool} {start cnt i : Nat} {value : Bool}

theorem window_succ (h : i < l.length) : window l i (cnt + 1) = l[i] :: window l (i + 1) cnt := by
  rw [window, List.drop_eq_getElem_cons h, List.take_succ_cons]
  rfl

theorem mem_window : value ∈ window l start cnt ↔ ∃ i, start ≤ i ∧ i < start + cnt ∧ l[i]? = some value := by
  rw [window, List.mem_iff_getElem?]
  constructor
  · intro found
    obtain ⟨i, here⟩ := found
    rw [List.getElem?_take] at here
    split at here
    next inside =>
      rw [List.getElem?_drop] at here
      exact ⟨start + i, Nat.le_add_right .., by omega, here⟩
    next => cases here
  · intro found
    obtain ⟨i, lower, upper, here⟩ := found
    refine ⟨i - start, ?_⟩
    rw [List.getElem?_take, if_pos (by omega), List.getElem?_drop, Nat.add_sub_cancel' lower]
    exact here

theorem length_setRange (inside : start + cnt ≤ l.length) : (setRange l start cnt value).length = l.length := by
  simp only [setRange, List.length_append, List.length_take, List.length_replicate, List.length_drop]
  omega

theorem getElem?_setRange (inside : start + cnt ≤ l.length) : (setRange l start cnt value)[i]? =
    if start ≤ i ∧ i < start + cnt then some value else l[i]? := by
  have front : (l.take start).length = start := by
    rw [List.length_take]
    omega
  rw [setRange]
  by_cases before : i < start
  · rw [List.getElem?_append_left (by omega), List.getElem?_take, if_pos before, if_neg (by omega)]
  · rw [List.getElem?_append_right (by omega), front]
    by_cases within : i < start + cnt
    · rw [List.getElem?_append_left (by rw [List.length_replicate]; omega), List.getElem?_replicate,
        if_pos (by omega), if_pos (by omega)]
    · rw [List.getElem?_append_right (by rw [List.length_replicate]; omega), List.length_replicate,
        List.getElem?_drop, if_neg (by omega)]
      congr 1
      omega

end Lists

section Bits
variable {b b' : Words} {i j : Nat} {value : Bool}

theorem length_toBits (b : Words) : b.toBits.length = b.bitCnt := by
  rw [Words.toBits, List.length_map, List.length_range]

theorem getElem?_toBits (b : Words) (i : Nat) :
    b.toBits[i]? = if i < b.bitCnt then some (b.bit i) else none := by
  rw [Words.toBits, List.getElem?_map]
  by_cases inside : i < b.bitCnt
  · rw [List.getElem?_range inside, if_pos inside]
    rfl
  · rw [List.getElem?_eq_none (by rw [List.length_range]; omega), if_neg inside]
    rfl

theorem bitMask_eq (i : Nat) : bitMask i = BitVec.twoPow 32 (i % elemBits) := rfl

theorem mod_elemBits_lt (i : Nat) : i % elemBits < 32 := Nat.mod_lt i (by decide)

theorem elemIdx_lt (h : i < b.bitCnt) : elemIdx i < b.bits.length := by
  have room := b.room
  simp only [elemIdx, elemBits] at *
  omega

theorem update_spec (h : i < b.bitCnt) {f : Elem → Elem} (g : Bool → Bool)
    (change : ∀ elem j, j < 32 → (f elem).getLsbD j =
      if j = i % elemBits then g (elem.getLsbD j) else elem.getLsbD j) :
    ∃ b', b.update (elemIdx i) f = some b' ∧ b'.bitCnt = b.bitCnt ∧
      ∀ j, b'.bit j = if j = i then g (b.bit i) else b.bit j := by
  have inside := elemIdx_lt h
  have found := List.getElem?_eq_getElem inside
  refine ⟨{ b with
    bits := b.bits.set (elemIdx i) (f b.bits[elemIdx i])
    room := by rw [List.length_set]; exact b.room }, ?_, rfl, fun j => ?_⟩
  · rw [Words.update]
    split
    next missing =>
      rw [found] at missing
      cases missing
    next elem here =>
      rw [found] at here
      cases here
      rfl
  · have old : b.bits.getD (elemIdx i) 0 = b.bits[elemIdx i] := by
      rw [List.getD_eq_getElem?_getD, found, Option.getD_some]
    rw [Words.bit, Words.bit, Words.bit]
    by_cases word : j / elemBits = elemIdx i
    · have new : (b.bits.set (elemIdx i) (f b.bits[elemIdx i])).getD (j / elemBits) 0 =
          f b.bits[elemIdx i] := by
        rw [word, List.getD_eq_getElem?_getD, List.getElem?_set_self inside, Option.getD_some]
      have index : j % elemBits = i % elemBits ↔ j = i := by
        simp only [elemIdx, elemBits] at word ⊢
        omega
      rw [new, change _ _ (mod_elemBits_lt j), word, show i / elemBits = elemIdx i from rfl, old]
      by_cases same : j = i
      · rw [if_pos (index.mpr same), if_pos same, same]
      · rw [if_neg fun equal => same (index.mp equal), if_neg same]
    · have other : j ≠ i := fun same => word (congrArg elemIdx same)
      rw [if_neg other, List.getD_eq_getElem?_getD, List.getElem?_set_ne (Ne.symm word),
        ← List.getD_eq_getElem?_getD]

theorem mark_spec (h : i < b.bitCnt) : ∃ b', b.mark i = some b' ∧ b'.bitCnt = b.bitCnt ∧
    ∀ j, b'.bit j = if j = i then true else b.bit j :=
  update_spec h (fun _ => true) fun elem _ _ => by
    rw [bitMask_eq]
    exact getLsbD_or_twoPow elem (mod_elemBits_lt i)

theorem reset_spec (h : i < b.bitCnt) : ∃ b', b.reset i = some b' ∧ b'.bitCnt = b.bitCnt ∧
    ∀ j, b'.bit j = if j = i then false else b.bit j :=
  update_spec h (fun _ => false) fun elem _ inside => by
    rw [bitMask_eq]
    exact getLsbD_and_not_twoPow elem _ inside

theorem flip_spec (h : i < b.bitCnt) : ∃ b', b.flip i = some b' ∧ b'.bitCnt = b.bitCnt ∧
    ∀ j, b'.bit j = if j = i then !b.bit i else b.bit j :=
  update_spec h not fun elem _ _ => by
    rw [bitMask_eq]
    exact getLsbD_xor_twoPow elem (mod_elemBits_lt i)

theorem set_spec (h : i < b.bitCnt) (value : Bool) : ∃ b', b.set i value = some b' ∧
    b'.bitCnt = b.bitCnt ∧ ∀ j, b'.bit j = if j = i then value else b.bit j := by
  rw [Words.set, if_pos h]
  cases value with
  | true => exact mark_spec h
  | false => exact reset_spec h

theorem test_eq (h : i < b.bitCnt) : b.test i = some (b.bit i) := by
  rw [Words.test, if_pos h, List.getElem?_eq_getElem (elemIdx_lt h), Option.map_some, Option.some_inj,
    bitMask_eq, and_twoPow_ne_zero _ (mod_elemBits_lt i), Words.bit, List.getD_eq_getElem?_getD,
    show i / elemBits = elemIdx i from rfl, List.getElem?_eq_getElem (elemIdx_lt h), Option.getD_some]

theorem setLoop_spec (value : Bool) {left i : Nat} (h : i + left ≤ b.bitCnt) :
    ∃ b', Words.setLoop value left i b = some b' ∧ b'.bitCnt = b.bitCnt ∧
      ∀ j, b'.bit j = if i ≤ j ∧ j < i + left then value else b.bit j := by
  induction left generalizing i b with
  | zero => exact ⟨b, rfl, rfl, fun j => (if_neg (by omega)).symm⟩
  | succ left ih =>
      obtain ⟨b1, first, cnt, bits⟩ := set_spec (b := b) (i := i) (by omega) value
      obtain ⟨b2, rest, cnt', bits'⟩ := ih (b := b1) (i := i + 1) (by omega)
      refine ⟨b2, ?_, cnt'.trans cnt, fun j => ?_⟩
      · rw [Words.setLoop, first]
        exact rest
      · rw [bits' j, bits j]
        by_cases here : j = i
        · rw [if_pos here, if_neg (by omega), if_pos (by omega)]
        · rw [if_neg here]
          exact if_congr (by omega) rfl rfl

theorem hasRange {start cnt : Nat} (h : start + cnt ≤ b.bitCnt) : b.HasRange start cnt := by
  have fits := b.fits
  rw [Words.HasRange, sizeAdd, Nat.mod_eq_of_lt (by omega)]
  omega

theorem setMultiple_spec {start cnt : Nat} (h : start + cnt ≤ b.bitCnt) (value : Bool) :
    ∃ b', b.setMultiple start cnt value = some b' ∧ b'.bitCnt = b.bitCnt ∧
      ∀ j, b'.bit j = if start ≤ j ∧ j < start + cnt then value else b.bit j := by
  rw [Words.setMultiple, if_pos (hasRange h)]
  exact setLoop_spec value h

theorem toBits_eq {l : List Bool} (length : l.length = b.bitCnt) (all : ∀ j < b.bitCnt, l[j]? = some (b.bit j)) :
    b.toBits = l := by
  apply List.ext_getElem?
  intro j
  rw [getElem?_toBits]
  by_cases inside : j < b.bitCnt
  · rw [if_pos inside, all j inside]
  · rw [if_neg inside, List.getElem?_eq_none (by omega)]

theorem toBits_setRange {start cnt : Nat} (h : start + cnt ≤ b.bitCnt) (size : b'.bitCnt = b.bitCnt)
    (bits : ∀ j, b'.bit j = if start ≤ j ∧ j < start + cnt then value else b.bit j) :
    b'.toBits = setRange b.toBits start cnt value := by
  have inside : start + cnt ≤ b.toBits.length := by
    rw [length_toBits]
    exact h
  apply toBits_eq
  · rw [length_setRange inside, length_toBits, size]
  · intro j low
    have low' : j < b.bitCnt := Nat.lt_of_lt_of_eq low size
    rw [getElem?_setRange inside, getElem?_toBits, if_pos low', bits j]
    by_cases here : start ≤ j ∧ j < start + cnt
    · rw [if_pos here, if_pos here]
    · rw [if_neg here, if_neg here]

theorem toBits_set (size : b'.bitCnt = b.bitCnt) (bits : ∀ j, b'.bit j = if j = i then value else b.bit j) :
    b'.toBits = b.toBits.set i value := by
  apply toBits_eq
  · rw [List.length_set, length_toBits, size]
  · intro j low
    have inside : j < b.toBits.length := by
      rw [length_toBits, ← size]
      exact low
    rw [List.getElem?_set, bits j]
    by_cases same : i = j
    · rw [if_pos same, if_pos (same ▸ inside), if_pos same.symm]
    · rw [if_neg same, if_neg (Ne.symm same), getElem?_toBits, if_pos (size ▸ low)]

theorem run_spec {op : Op} (within : op.Within b.bitCnt) :
    ∃ b', op.run b = some b' ∧ b'.bitCnt = b.bitCnt ∧ b'.toBits = op.apply b.toBits := by
  cases op with
  | set idx value =>
      obtain ⟨b', done, size, bits⟩ := set_spec within value
      exact ⟨b', done, size, toBits_set size bits⟩
  | mark idx =>
      obtain ⟨b', done, size, bits⟩ := mark_spec within
      exact ⟨b', done, size, toBits_set size bits⟩
  | reset idx =>
      obtain ⟨b', done, size, bits⟩ := reset_spec within
      exact ⟨b', done, size, toBits_set size bits⟩
  | flip idx =>
      have inside : idx < b.bitCnt := within
      obtain ⟨b', done, size, bits⟩ := flip_spec inside
      refine ⟨b', done, size, (toBits_set size bits).trans ?_⟩
      rw [Op.apply, List.modify_eq_set, getElem?_toBits, if_pos inside, Option.getD_some]
  | setMultiple start cnt value =>
      obtain ⟨b', done, size, bits⟩ := setMultiple_spec within value
      exact ⟨b', done, size, toBits_setRange within size bits⟩

end Bits

section Questions
variable {b : Words} {start cnt i : Nat} {value : Bool}

theorem getElem_toBits (h : i < b.toBits.length) : b.toBits[i] = b.bit i := by
  have found := getElem?_toBits b i
  rw [List.getElem?_eq_getElem h, if_pos (length_toBits b ▸ h)] at found
  exact Option.some.inj found

theorem window_toBits (h : i < b.bitCnt) :
    window b.toBits i (cnt + 1) = b.bit i :: window b.toBits (i + 1) cnt := by
  have inside : i < b.toBits.length := by
    rw [length_toBits]
    exact h
  rw [window_succ inside, getElem_toBits]

theorem countLoop_eq (value : Bool) {left i valueCnt : Nat} (h : i + left ≤ b.bitCnt) :
    b.countLoop value left i valueCnt = some (valueCnt + (window b.toBits i left).count value) := by
  induction left generalizing i valueCnt with
  | zero => rfl
  | succ left ih =>
      rw [Words.countLoop, test_eq (by omega), Option.bind_some, ih (by omega), window_toBits (by omega),
        List.count_cons]
      by_cases same : b.bit i = value
      · rw [if_pos same, if_pos (beq_iff_eq.mpr same), Nat.add_assoc, Nat.add_comm 1]
      · rw [if_neg same, if_neg fun equal => same (beq_iff_eq.mp equal)]
        rfl

theorem containsLoop_eq (value : Bool) {left i : Nat} (h : i + left ≤ b.bitCnt) :
    b.containsLoop value left i = some (decide (value ∈ window b.toBits i left)) := by
  induction left generalizing i with
  | zero => rfl
  | succ left ih =>
      rw [Words.containsLoop, test_eq (by omega), Option.bind_some, window_toBits (by omega)]
      by_cases same : b.bit i = value
      · rw [if_pos same, same, decide_eq_true (List.mem_cons_self ..)]
      · rw [if_neg same, ih (by omega)]
        congr 1
        refine decide_eq_decide.mpr ⟨List.mem_cons_of_mem _, fun mem => ?_⟩
        exact (List.mem_cons.mp mem).resolve_left (Ne.symm same)

theorem contains_eq (h : start + cnt ≤ b.bitCnt) (value : Bool) :
    b.contains start cnt value = some (decide (value ∈ window b.toBits start cnt)) := by
  rw [Words.contains, if_pos (hasRange h), containsLoop_eq value h]

theorem isRun_iff (h : i + cnt ≤ b.bitCnt) :
    IsRun b.toBits cnt value i ↔ (!value) ∉ window b.toBits i cnt := by
  rw [IsRun, length_toBits, and_iff_right h]
  constructor
  · intro all other
    exact absurd (all _ other) (by cases value <;> decide)
  · intro none v mem
    by_contra differ
    refine none ?_
    rwa [← Bool.eq_not_of_ne differ]

theorem scanLoop_spec (cnt : Nat) (value : Bool) (left i : Nat) (h : i + left + cnt ≤ b.bitCnt + 1) :
    ∃ n, b.scanLoop cnt value left i = some n ∧
      ((i ≤ n ∧ n < i + left ∧ IsRun b.toBits cnt value n ∧
          ∀ j, i ≤ j → j < n → ¬ IsRun b.toBits cnt value j) ∨
        (∀ j, i ≤ j → j < i + left → ¬ IsRun b.toBits cnt value j) ∧ n = bitmapError) := by
  induction left generalizing i with
  | zero => exact ⟨bitmapError, rfl, .inr ⟨fun j lower upper => by omega, rfl⟩⟩
  | succ left ih =>
      have inside : i + cnt ≤ b.bitCnt := by omega
      rw [Words.scanLoop, contains_eq inside, Option.bind_some]
      by_cases run : IsRun b.toBits cnt value i
      · rw [decide_eq_false ((isRun_iff inside).mp run)]
        exact ⟨i, rfl, .inl ⟨Nat.le_refl i, by omega, run, fun j lower upper => by omega⟩⟩
      · have other : (!value) ∈ window b.toBits i cnt := by
          by_contra none
          exact run ((isRun_iff inside).mpr none)
        rw [decide_eq_true other]
        obtain ⟨n, done, found⟩ := ih (i + 1) (by omega)
        have none : ∀ j, i ≤ j → (i + 1 ≤ j → ¬ IsRun b.toBits cnt value j) →
            ¬ IsRun b.toBits cnt value j := by
          intro j lower later
          by_cases here : j = i
          · rw [here]
            exact run
          · exact later (by omega)
        refine ⟨n, done, ?_⟩
        cases found with
        | inl found =>
            obtain ⟨lower, upper, here, first⟩ := found
            exact .inl ⟨by omega, by omega, here, fun j le lt => none j le fun le' => first j le' lt⟩
        | inr missing =>
            exact .inr ⟨fun j le lt => none j le fun le' => missing.1 j le' (by omega), missing.2⟩

theorem scan_spec (h : start ≤ b.bitCnt) (cnt : Nat) (value : Bool) :
    ∃ n, b.scan start cnt value = some n ∧ FirstRun b.toBits start cnt value n := by
  rw [Words.scan, if_pos h]
  have room : ∀ j, IsRun b.toBits cnt value j → j + cnt ≤ b.bitCnt := by
    intro j run
    have := run.1
    rwa [length_toBits] at this
  by_cases small : cnt ≤ b.bitCnt
  · rw [if_pos small]
    by_cases later : start ≤ b.bitCnt - cnt + 1
    · obtain ⟨n, done, found⟩ :=
        scanLoop_spec (b := b) cnt value (b.bitCnt - cnt + 1 - start) start (by omega)
      refine ⟨n, done, ?_⟩
      cases found with
      | inl found => exact .inl ⟨found.1, found.2.2.1, found.2.2.2⟩
      | inr missing =>
          refine .inr ⟨fun j le run => missing.1 j le ?_ run, missing.2⟩
          have := room j run
          omega
    · refine ⟨bitmapError, ?_, .inr ⟨fun j le run => ?_, rfl⟩⟩
      · rw [show b.bitCnt - cnt + 1 - start = 0 by omega]
        rfl
      · have := room j run
        omega
  · rw [if_neg small]
    refine ⟨bitmapError, rfl, .inr ⟨fun j _ run => ?_, rfl⟩⟩
    have := room j run
    omega

theorem answersAs (b : Words) : AnswersAs b b.toBits := by
  have size := length_toBits b
  constructor
  case size => exact size
  case test =>
    intro i h
    rw [getElem_toBits, test_eq (size ▸ h)]
  case count =>
    intro start cnt value h
    rw [size] at h
    rw [Words.count, if_pos (hasRange h), countLoop_eq value h, Nat.zero_add]
  case contains =>
    intro start cnt value h
    exact contains_eq (size ▸ h) value
  case any =>
    intro start cnt h
    rw [Words.any, contains_eq (size ▸ h), Option.some_inj]
    simp [List.any_eq]
  case none =>
    intro start cnt h
    rw [Words.none, contains_eq (size ▸ h), Option.map_some, Option.some_inj]
    simp [List.all_eq]
  case all =>
    intro start cnt h
    rw [Words.all, contains_eq (size ▸ h), Option.map_some, Option.some_inj]
    simp [List.all_eq]
  case scan =>
    intro start cnt value h
    exact scan_spec (size ▸ h) cnt value
  case scanAndFlip =>
    intro start cnt value h
    obtain ⟨n, found, first⟩ := scan_spec (b := b) (size ▸ h) cnt value
    rw [Words.scanAndFlip, found, Option.bind_some]
    by_cases error : n = bitmapError
    · rw [if_neg (not_not.mpr error)]
      exact ⟨n, b, rfl, first, rfl, (if_pos error).symm⟩
    · rw [if_pos error]
      have inside : n + cnt ≤ b.bitCnt := by
        cases first with
        | inl first =>
            have := first.2.1.1
            rwa [size] at this
        | inr missing => exact absurd missing.2 error
      obtain ⟨b', done, cnt', bits⟩ := setMultiple_spec inside (!value)
      refine ⟨n, b', by rw [done]; rfl, first, cnt', ?_⟩
      rw [if_neg error]
      exact toBits_setRange inside cnt' bits

end Questions

/-- Whatever is done to a bitmap within its bounds, it stays the list of its bits. -/
theorem bitmap_refines (b : Words) (ops : List Op) (within : ∀ op ∈ ops, op.Within b.bitCnt) :
    ∃ b', runs ops b = some b' ∧ b'.bitCnt = b.bitCnt ∧ b'.toBits = ops.foldl Op.apply b.toBits ∧
      AnswersAs b' b'.toBits := by
  induction ops generalizing b with
  | nil => exact ⟨b, rfl, rfl, rfl, answersAs b⟩
  | cons op ops ih =>
      obtain ⟨b1, first, size, bits⟩ := run_spec (within op (List.mem_cons_self ..))
      obtain ⟨b2, rest, size', bits', answers⟩ := ih b1 fun op mem => by
        rw [size]
        exact within op (List.mem_cons_of_mem _ mem)
      refine ⟨b2, ?_, size'.trans size, ?_, answers⟩
      · rw [runs, first]
        exact rest
      · rw [List.foldl_cons, ← bits]
        exact bits'

theorem bitmapCreate_spec (bitCnt : Nat) (words : Nat → Elem) (small : bitCnt + (elemBits - 1) < 2 ^ 32) :
    ∃ b, bitmapCreate bitCnt words small = some b ∧ b.toBits = List.replicate bitCnt false := by
  have whole : 0 + bitCnt ≤ (storage bitCnt words small).bitCnt := Nat.le_of_eq (Nat.zero_add _)
  obtain ⟨b, done, size, bits⟩ := setMultiple_spec whole false
  refine ⟨b, done, toBits_eq ?_ fun j low => ?_⟩
  · rw [List.length_replicate, size]
    rfl
  · have inside : j < bitCnt := Nat.lt_of_lt_of_eq low size
    rw [List.getElem?_replicate, if_pos inside, bits j, if_pos ⟨Nat.zero_le j, by omega⟩]

/-- 40 bits in two words, one run of them set across both. -/
theorem bitmap_refines_of_straddling : ∃ b b', bitmapCreate 40 (fun _ => 0xdeadbeef) (by decide) = some b ∧
    runs [.setMultiple 30 4 true, .flip 31] b = some b' ∧
    b'.toBits = (((List.replicate 40 false).set 30 true).set 32 true).set 33 true := by
  obtain ⟨b, created, bits⟩ := bitmapCreate_spec 40 (fun _ => 0xdeadbeef) (by decide)
  have size : b.bitCnt = 40 := by
    rw [← length_toBits, bits, List.length_replicate]
  have within : ∀ op ∈ [Op.setMultiple 30 4 true, Op.flip 31], op.Within b.bitCnt := by
    rw [size]
    simp [Op.Within]
  obtain ⟨b', done, -, after, -⟩ := bitmap_refines b _ within
  refine ⟨b, b', created, done, ?_⟩
  rw [after, bits]
  rfl

section Lists
variable {b : Words} {cnt i : Nat} {value : Bool}

/-- The bitmap that the other modules work with. -/
def Words.toBitmap (b : Words) : Bitmap := ⟨b.toBits⟩

theorem size_toBitmap : b.toBitmap.size = b.bitCnt := length_toBits b

theorem test_toBitmap (h : i < b.bitCnt) : b.toBitmap.test i = b.bit i := by
  rw [Bitmap.test, Words.toBitmap, List.getD_eq_getElem?_getD, getElem?_toBits, if_pos h, Option.getD_some]

theorem isRun_toBitmap (h : i + cnt ≤ b.bitCnt) :
    IsRun b.toBits cnt value i ↔ (!b.toBitmap.contains i cnt (!value)) = true := by
  rw [Bool.not_eq_true', Bitmap.contains_eq_false, Bool.not_not, IsRun, length_toBits, and_iff_right h]
  constructor
  · intro all j lower upper
    rw [test_toBitmap (by omega)]
    refine all _ (mem_window.mpr ⟨j, lower, upper, ?_⟩)
    rw [getElem?_toBits, if_pos (by omega)]
  · intro all v mem
    obtain ⟨j, lower, upper, found⟩ := mem_window.mp mem
    have inside : j < b.bitCnt := by omega
    rw [getElem?_toBits, if_pos inside] at found
    rw [← Option.some.inj found, ← test_toBitmap inside]
    exact all j lower upper

theorem scan_toBitmap (b : Words) (cnt : Nat) (value : Bool) : ∃ n, b.scan 0 cnt value = some n ∧
    b.toBitmap.scan cnt value = if n = bitmapError then none else some n := by
  obtain ⟨n, done, first⟩ := scan_spec (b := b) (Nat.zero_le _) cnt value
  refine ⟨n, done, ?_⟩
  have fits := b.fits
  rw [Bitmap.scan, size_toBitmap]
  cases first with
  | inl first =>
      obtain ⟨-, run, least⟩ := first
      have inside : n + cnt ≤ b.bitCnt := by
        have := run.1
        rwa [length_toBits] at this
      have found : n ≠ bitmapError := by
        intro error
        have empty : IsRun b.toBits cnt value 0 := by
          refine ⟨by rw [length_toBits]; omega, fun v mem => ?_⟩
          rw [bitmapError] at error
          rw [show cnt = 0 by omega] at mem
          cases mem
        exact least 0 (Nat.le_refl 0) (by rw [error, bitmapError]; decide) empty
      rw [if_pos (by omega), if_neg found, List.find?_range_eq_some]
      refine ⟨(isRun_toBitmap inside).mp run, List.mem_range.mpr (by omega), fun j lower => ?_⟩
      have other := least j (Nat.zero_le j) lower
      rw [isRun_toBitmap (by omega)] at other
      simpa using other
  | inr missing =>
      rw [if_pos missing.2]
      by_cases small : cnt ≤ b.bitCnt
      · rw [if_pos small, List.find?_eq_none]
        intro j mem found
        have inside := List.mem_range.mp mem
        exact missing.1 j (Nat.zero_le j) ((isRun_toBitmap (by omega)).mpr found)
      · rw [if_neg small]

theorem scanAndFlip_toBitmap (b : Words) (cnt : Nat) (value : Bool) :
    ∃ n b', b.scanAndFlip 0 cnt value = some (n, b') ∧
      b.toBitmap.scanAndFlip cnt value = some (if n = bitmapError then none else some n, b'.toBitmap) := by
  obtain ⟨n, found, same⟩ := scan_toBitmap b cnt value
  rw [Words.scanAndFlip, found, Option.bind_some, Bitmap.scanAndFlip, same]
  by_cases error : n = bitmapError
  · rw [if_neg (not_not.mpr error), if_pos error]
    exact ⟨n, b, rfl, by rw [if_pos error]⟩
  · rw [if_pos error, if_neg error]
    rw [if_neg error] at same
    have inside : n + cnt ≤ b.bitCnt := by
      rw [← size_toBitmap]
      exact (Bitmap.scan_eq_some same).1
    obtain ⟨b', done, size, bits⟩ := setMultiple_spec inside (!value)
    obtain ⟨after, done', size', test⟩ :=
      Bitmap.setMultiple_spec (b := b.toBitmap) (!value) (size_toBitmap (b := b) ▸ inside)
    have equal : after = b'.toBitmap := by
      refine Bitmap.eq_of_test (by rw [size', size_toBitmap, size_toBitmap, size]) fun j => ?_
      by_cases low : j < b.bitCnt
      · rw [test, test_toBitmap low, test_toBitmap (size ▸ low), bits]
      · rw [Bitmap.test_eq_false_of_le (by rw [size', size_toBitmap]; omega),
          Bitmap.test_eq_false_of_le (by rw [size_toBitmap]; omega)]
    refine ⟨n, b', by rw [done]; rfl, ?_⟩
    simp only [done', if_neg error, equal, Option.map_some]

end Lists
end CS162.Pintos.BitmapWords
