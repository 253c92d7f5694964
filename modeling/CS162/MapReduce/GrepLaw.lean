import CS162.MapReduce.Grep

/-!
What the grep application finds: the lines with the string among those that a newline ends. The
piece behind the last newline is never looked at.
-/

namespace CS162.MapReduce
namespace Grep
open CS162.Library

section Text
variable {x y : Int} {line : List UInt8}

theorem minus_notMem_numeral {v : Nat} : (0x2d : UInt8) ∉ numeral 10 1 v := by
  intro inside
  exact absurd (numeral_digit (by decide) (by decide) inside).1 (by decide)

theorem decimal_injective (same : decimal x = decimal y) : x = y := by
  rw [decimal, decimal] at same
  have numerals (v w : Nat) (same : numeral 10 1 v = numeral 10 1 w) : v = w :=
    numeral_injective (by decide) (by decide) same
  by_cases neg : x < 0
  · rw [if_pos neg] at same
    by_cases neg' : y < 0
    · rw [if_pos neg'] at same
      have size := numerals _ _ (List.cons.inj same).2
      omega
    · rw [if_neg neg'] at same
      exact absurd (same ▸ List.mem_cons_self) minus_notMem_numeral
  · rw [if_neg neg] at same
    by_cases neg' : y < 0
    · rw [if_pos neg'] at same
      exact absurd (same ▸ List.mem_cons_self) minus_notMem_numeral
    · rw [if_neg neg'] at same
      have size := numerals _ _ same
      omega

theorem lineText_injective (same : lineText x line = lineText y line) : x = y := by
  rw [lineText, lineText, List.append_left_inj, List.append_left_inj, List.append_right_inj] at same
  exact decimal_injective same

theorem decimal_length_le (i : Int32) : (decimal i.toInt).length ≤ 11 := by
  have lower := i.le_toInt
  have upper := i.toInt_lt
  have digits : (numeral 10 1 i.toInt.natAbs).length ≤ 10 :=
    numeral_length_le (by decide) (by omega) (by decide)
  rw [decimal]
  split
  · rw [List.length_cons]
    omega
  · omega

theorem lineText_length : (lineText x line).length = 3 + (decimal x).length + line.length := by
  rw [lineText, List.length_append, List.length_append, List.length_append, List.length_singleton]
  change 1 + (decimal x).length + 2 + line.length = _
  omega

end Text

section Strings
variable {malloc : ∀ n, Vector UInt8 n}

theorem sizedBufferToStr_eq (buf : Buffer) : sizedBufferToStr malloc buf = .ok (buf.bytes ++ [0]) := by
  have size : (malloc (buf.length + 1)).toList.length = buf.length + 1 := Vector.length_toList
  have left : ((malloc (buf.length + 1)).toList.drop buf.bytes.length).length = 1 := by
    rw [List.length_drop, size, Buffer.length_bytes, Nat.add_sub_cancel_left]
  obtain ⟨last, only⟩ := List.length_eq_one_iff.mp left
  rw [sizedBufferToStr, CArray.fill_of_le (by rw [size]; exact Nat.le_succ _), ok_bind, only]
  exact CArray.store_append

/-- What `sprintf` makes of a line. -/
def printed (lineNum : Int) (line : List UInt8) : Option Buffer :=
  if short : (lineText lineNum line).length ≤ intMax then some ⟨lineText lineNum line, fits_of_le_intMax short⟩
  else none

theorem printLine_eq (lineNum : Int32) (line : List UInt8) :
    printLine malloc lineNum line = .ok (printed lineNum.toInt line) := by
  have digits := decimal_length_le lineNum
  have size : (malloc (50 + line.length)).toList.length = 50 + line.length := Vector.length_toList
  have room : (lineText lineNum.toInt line).length < (malloc (50 + line.length)).toList.length := by
    rw [lineText_length, size]
    omega
  rw [printLine, CArray.strcpy_of_lt room, ok_bind, printed]
  split
  · simp only [List.take_left]
    rfl
  · rfl

end Strings

section Lines
variable {content last : List UInt8} {ls : List (List UInt8)}

/-- Lines that a byte ends. -/
def ended (stop : UInt8) (ls : List (List UInt8)) : List UInt8 := ls.flatMap (· ++ [stop])

theorem ended_cons {stop : UInt8} {l : List UInt8} : ended stop (l :: ls) = l ++ stop :: ended stop ls :=
  List.append_assoc l [stop] _

/-- Text in one line. -/
def Solid (text : List UInt8) : Prop := 0 ∉ text ∧ newline ∉ text

theorem exists_lines (solid : 0 ∉ content) :
    ∃ ls last, content = ended newline ls ++ last ∧ content.splitOn newline = ls ++ [last] ∧
      (∀ l ∈ ls, Solid l) ∧ Solid last := by
  induction size : content.length using Nat.strong_induction_on generalizing content with
  | _ n ih =>
      by_cases more : newline ∈ content
      case neg => exact ⟨[], content, rfl, List.splitOn_eq_singleton more, nofun, solid, more⟩
      case pos =>
        obtain ⟨l, rest, rfl, clean⟩ := List.eq_append_cons_of_mem more
        have less : rest.length < n := by
          rw [← size, List.length_append, List.length_cons]
          omega
        have rest_solid : 0 ∉ rest := fun inside => solid (List.mem_append_right _ (List.mem_cons_of_mem _ inside))
        obtain ⟨ls, last, split, pieces, solids, last_solid⟩ := ih rest.length less rest_solid rfl
        refine ⟨l :: ls, last, ?_, ?_, ?_, last_solid⟩
        · rw [ended_cons, split, List.append_assoc]
          rfl
        · rw [List.splitOn_append_cons_self_of_not_mem clean, pieces]
          rfl
        · rintro line (_ | ⟨_, inside⟩)
          · exact ⟨fun zero => solid (List.mem_append_left _ zero), clean⟩
          · exact solids line inside

theorem matching_eq {search : List UInt8} (pieces : content.splitOn newline = ls ++ [last]) :
    matching content search = ((ls.zipIdx 1).filter fun p => search <:+: p.1) ++
      if search <:+: last then [(last, 1 + ls.length)] else [] := by
  rw [matching, pieces, List.zipIdx_append, List.filter_append]
  congr 1
  rw [List.zipIdx_singleton, List.filter_singleton]
  simp

end Lines

section Occurrences
variable {contents pre last search : List UInt8} {ls : List (List UInt8)} {occs : List Occurrence}

/-- The occurrence is one in the line with the number. -/
def Points (contents : CArray) (occ : Occurrence) (p : List UInt8 × Nat) : Prop :=
  occ.lineNum = Int32.ofNat p.2 ∧ CArray.string (contents.drop occ.line) = .ok p.1

theorem findOccurrencesLoop_none {rest : Nat} {lineNum : Int32} {search : CArray}
    (none_left : CArray.strstr contents rest [newline, 0] = .ok none) :
    findOccurrencesLoop search contents rest lineNum occs = .ok (contents, occs) := by
  rw [findOccurrencesLoop]
  split
  · next read => rw [none_left] at read; cases read
  · rfl
  · next read => rw [none_left] at read; cases read

theorem findOccurrencesLoop_some {rest stop : Nat} {lineNum : Int32} {search contents' : CArray} {occurs : Option Nat}
    (found : CArray.strstr contents rest [newline, 0] = .ok (some stop))
    (cut : CArray.store contents stop 0 = .ok contents')
    (looked : CArray.strstr contents' rest search = .ok occurs) :
    findOccurrencesLoop search contents rest lineNum occs =
      findOccurrencesLoop search contents' (stop + 1) (lineNum + 1)
        (if occurs.isSome then occs ++ [⟨lineNum, rest⟩] else occs) := by
  rw [findOccurrencesLoop]
  split
  · next read => rw [found] at read; cases read
  · next read => rw [found] at read; cases read
  · next read =>
      rw [found] at read
      cases read
      split
      · next stored => rw [cut] at stored; cases stored
      · next stored =>
          rw [cut] at stored
          cases stored
          rw [looked, ok_bind]

theorem zero_notMem_ended (solids : ∀ l ∈ ls, Solid l) : 0 ∉ ended newline ls := by
  intro inside
  obtain ⟨l, line, inside⟩ := List.mem_flatMap.mp inside
  obtain here | stop := List.mem_append.mp inside
  · exact (solids l line).1 here
  · exact absurd (List.mem_singleton.mp stop) (by decide)

/-- The lines are cut off one by one, and those with the string are in the list. -/
theorem findOccurrencesLoop_eq (search_solid : 0 ∉ search) (solids : ∀ l ∈ ls, Solid l) (last_solid : Solid last)
    (n : Nat) : ∃ occs',
      findOccurrencesLoop (search ++ [0]) (pre ++ (ended newline ls ++ (last ++ [0]))) pre.length (Int32.ofNat n) occs =
        .ok (pre ++ (ended 0 ls ++ (last ++ [0])), occs ++ occs') ∧
      List.Forall₂ (Points (pre ++ (ended 0 ls ++ (last ++ [0])))) occs'
        ((ls.zipIdx n).filter fun p => search <:+: p.1) := by
  have stop_solid : 0 ∉ [newline] := by decide
  induction ls generalizing pre n occs with
  | nil =>
      have none_left := @CArray.strstr_append [] [newline] last pre [] last_solid.1 stop_solid
      rw [CArray.firstAt_of_notMem last_solid.2] at none_left
      refine ⟨[], ?_, .nil⟩
      rw [List.append_nil]
      exact findOccurrencesLoop_none none_left
  | cons l ls ih =>
      obtain ⟨solid, others⟩ := List.forall_mem_cons.mp solids
      have text_solid : 0 ∉ l ++ newline :: (ended newline ls ++ last) := by
        have inside := zero_notMem_ended solids
        rw [ended_cons] at inside
        intro zero
        rw [← List.cons_append, ← List.append_assoc] at zero
        exact (List.mem_append.mp zero).elim inside last_solid.1
      have contents : ended newline (l :: ls) ++ (last ++ [0]) =
          l ++ newline :: (ended newline ls ++ last) ++ 0 :: [] := by
        rw [ended_cons, List.append_assoc, List.append_assoc, List.cons_append, List.cons_append, List.append_assoc]
      have found := @CArray.strstr_append [] [newline] _ pre [] text_solid stop_solid
      rw [CArray.firstAt_singleton solid.2, ← contents] at found
      have cut : CArray.store (pre ++ (ended newline (l :: ls) ++ (last ++ [0]))) (pre.length + l.length) 0 =
          .ok (pre ++ (l ++ 0 :: (ended newline ls ++ (last ++ [0])))) := by
        rw [ended_cons, List.append_assoc, ← List.append_assoc pre, ← List.length_append, ← List.append_assoc pre]
        exact CArray.store_append
      have looked := @CArray.strstr_append (ended newline ls ++ (last ++ [0])) search l pre [] solid.1 search_solid
      have next : pre.length + l.length + 1 = (pre ++ (l ++ [0])).length := by
        rw [List.length_append, List.length_append, Nat.add_assoc]
        rfl
      have behind (rest : List UInt8) : pre ++ (l ++ 0 :: rest) = pre ++ (l ++ [0]) ++ rest := by
        rw [List.append_assoc, List.append_assoc]
        rfl
      have final : ended 0 (l :: ls) ++ (last ++ [0]) = l ++ 0 :: (ended 0 ls ++ (last ++ [0])) := by
        rw [ended_cons, List.append_assoc, List.cons_append]
      have number : Int32.ofNat n + 1 = Int32.ofNat (n + 1) := (Int32.ofNat_add n 1).symm
      have here : Points (pre ++ (l ++ 0 :: (ended 0 ls ++ (last ++ [0])))) ⟨Int32.ofNat n, pre.length⟩ (l, n) := by
        refine ⟨rfl, ?_⟩
        rw [List.drop_left]
        exact CArray.string_append solid.1
      rw [findOccurrencesLoop_some found cut looked, Option.isSome_map, next, behind, number, List.zipIdx_cons,
        List.filter_cons, final, behind (ended 0 ls ++ (last ++ [0]))]
      rw [behind (ended 0 ls ++ (last ++ [0]))] at here
      by_cases occurs : search <:+: l
      · obtain ⟨occs', ran, points⟩ := @ih (pre ++ (l ++ [0])) (occs ++ [⟨Int32.ofNat n, pre.length⟩]) others (n + 1)
        rw [if_pos (CArray.firstAt_isSome_iff.mpr occurs), if_pos (decide_eq_true occurs)]
        refine ⟨⟨Int32.ofNat n, pre.length⟩ :: occs', ?_, .cons here points⟩
        rw [List.append_cons occs _ occs']
        exact ran
      · rw [if_neg (mt CArray.firstAt_isSome_iff.mp occurs), if_neg (by simpa using occurs)]
        exact ih others (n + 1)

theorem findOccurrences_eq (search_solid : 0 ∉ search) (solids : ∀ l ∈ ls, Solid l) (last_solid : Solid last) :
    ∃ contents occs, findOccurrences (ended newline ls ++ last ++ [0]) (search ++ [0]) = .ok (contents, occs) ∧
      List.Forall₂ (Points contents) occs ((ls.zipIdx 1).filter fun p => search <:+: p.1) := by
  obtain ⟨occs, ran, points⟩ := @findOccurrencesLoop_eq [] last search ls [] search_solid solids last_solid 1
  rw [List.append_assoc]
  exact ⟨_, occs, ran, points⟩

end Occurrences

section Pairs
variable {malloc : ∀ n, Vector UInt8 n} {key : Buffer} {contents : CArray} {occs : List Occurrence}
  {lines : List (List UInt8 × Nat)} {done : List GrepPair} {kva result : List (Option GrepPair)}

/-- The pair for a line. -/
def pairOf (key : Buffer) (p : List UInt8 × Nat) : GrepPair := ⟨key, printed (Int32.ofNat p.2).toInt p.1⟩

theorem fillPairs_eq (points : List.Forall₂ (Points contents) occs lines)
    (few : done.length + lines.length ≤ 2 ^ 31) :
    fillPairs malloc key contents occs (Int32.ofNat done.length) (filled done lines.length) =
      .ok ((done ++ lines.map (pairOf key)).map some) := by
  induction points generalizing done with
  | nil =>
      rw [List.map_nil, List.append_nil]
      exact congrArg Except.ok filled_zero
  | @cons occ p occs lines here points ih =>
      obtain ⟨number, line⟩ := here
      rw [List.length_cons] at few
      have index : (Int32.ofNat done.length).toInt = done.length := Int32.toInt_ofNat_of_lt (by omega)
      have next : Int32.ofNat done.length + 1 = Int32.ofNat (done ++ [pairOf key p]).length := by
        rw [List.length_append]
        exact (Int32.ofNat_add _ 1).symm
      have stored : storeAt (filled done (lines.length + 1)) (Int32.ofNat done.length) (pairOf key p) =
          .ok (filled (done ++ [pairOf key p]) lines.length) := by
        rw [storeAt, index, if_pos (Int.natCast_nonneg _), Int.toNat_natCast]
        exact storeSlot_filled _
      rw [fillPairs, line, ok_bind, printLine_eq, ok_bind, number, List.length_cons]
      change (storeAt _ _ (pairOf key p) >>= _) = _
      rw [stored, ok_bind, next, ih (by rw [List.length_append, List.length_singleton]; omega), List.map_cons,
        List.append_cons done _ (lines.map _)]

theorem fillPairs_long {i : Nat} (index : i ≤ 2 ^ 31) (long : 2 ^ 31 < i + occs.length) :
    fillPairs malloc key contents occs (Int32.ofNat i) kva ≠ .ok result := by
  induction occs generalizing i kva with
  | nil => exact absurd long (Nat.not_lt_of_le index)
  | cons occ occs ih =>
      intro filled
      obtain ⟨line, -, filled⟩ := bind_eq_ok filled
      obtain ⟨value, -, filled⟩ := bind_eq_ok filled
      obtain ⟨kva', stored, filled⟩ := bind_eq_ok filled
      rw [List.length_cons] at long
      rcases Nat.lt_or_ge i (2 ^ 31) with less | last
      · have next : Int32.ofNat i + 1 = Int32.ofNat (i + 1) := (Int32.ofNat_add i 1).symm
        rw [next] at filled
        exact ih less (by omega) filled
      · have wrapped : (Int32.ofNat i).toInt = -2 ^ 31 := by
          rw [Nat.le_antisymm index last]
          rfl
        rw [storeAt, wrapped, if_neg (by decide)] at stored
        cases stored

theorem length_filter_zipIdx_le {α : Type*} {q : α × Nat → Bool} {most : Nat} {ls : List α} (n : Nat)
    (below : ∀ p ∈ (ls.zipIdx n).filter q, p.2 < most) : ((ls.zipIdx n).filter q).length ≤ most - n := by
  induction ls generalizing n with
  | nil => exact Nat.zero_le _
  | cons l ls ih =>
      rw [List.zipIdx_cons, List.filter_cons] at below ⊢
      split at below
      · have first := below _ List.mem_cons_self
        have others := ih (n + 1) fun p inside => below p (List.mem_cons_of_mem _ inside)
        rw [if_pos ‹q (l, n) = true›, List.length_cons]
        dsimp only at first
        omega
      · have others := ih (n + 1) below
        rw [if_neg ‹¬ q (l, n) = true›]
        omega

end Pairs

section Finds
variable {malloc : ∀ n, Vector UInt8 n} {input : KeyValue} {aux : Buffer} {content search last : List UInt8}
  {ls : List (List UInt8)} {lines : List (List UInt8 × Nat)} {p : List UInt8 × Nat}

/-- The lines that are found. -/
def found (search : List UInt8) (ls : List (List UInt8)) : List (List UInt8 × Nat) :=
  (ls.zipIdx 1).filter fun p => search <:+: p.1

theorem grepMap_eq (search_solid : 0 ∉ aux.bytes) (split : input.value.bytes = ended newline ls ++ last)
    (solids : ∀ l ∈ ls, Solid l) (last_solid : Solid last) :
    ∃ contents occs, List.Forall₂ (Points contents) occs (found aux.bytes ls) ∧
      grepMap malloc input aux =
        fillPairs malloc input.key contents occs 0 (List.replicate (occs.length % 2 ^ 32) none) := by
  obtain ⟨contents, occs, ran, points⟩ := findOccurrences_eq search_solid solids last_solid
  refine ⟨contents, occs, points, ?_⟩
  rw [grepMap, sizedBufferToStr_eq, ok_bind, sizedBufferToStr_eq, ok_bind, split, ran]
  rfl

theorem grepMap_few (search_solid : 0 ∉ aux.bytes) (split : input.value.bytes = ended newline ls ++ last)
    (solids : ∀ l ∈ ls, Solid l) (last_solid : Solid last) (few : (found aux.bytes ls).length ≤ 2 ^ 31) :
    grepMap malloc input aux = .ok (((found aux.bytes ls).map (pairOf input.key)).map some) := by
  obtain ⟨contents, occs, points, ran⟩ := @grepMap_eq malloc input aux last ls search_solid split solids last_solid
  have all : occs.length % 2 ^ 32 = (found aux.bytes ls).length := by
    rw [points.length_eq]
    omega
  rw [ran, all]
  exact @fillPairs_eq malloc input.key contents occs _ [] points (by rw [List.length_nil]; omega)

theorem grepMap_many (search_solid : 0 ∉ aux.bytes) (split : input.value.bytes = ended newline ls ++ last)
    (solids : ∀ l ∈ ls, Solid l) (last_solid : Solid last) (many : 2 ^ 31 < (found aux.bytes ls).length)
    (result : List (Option GrepPair)) : grepMap malloc input aux ≠ .ok result := by
  obtain ⟨contents, occs, points, ran⟩ := @grepMap_eq malloc input aux last ls search_solid split solids last_solid
  rw [ran]
  exact @fillPairs_long malloc input.key contents occs _ result 0 (Nat.zero_le _) (by rw [points.length_eq]; omega)

/-- The text of a pair is right where neither its number nor its length is too large. -/
theorem printed_eq_iff : (printed (Int32.ofNat p.2).toInt p.1).map (·.bytes) = some (lineText p.2 p.1) ↔
    (p.2 : Int) ≤ intMax ∧ (lineText p.2 p.1).length ≤ intMax := by
  constructor
  case mp =>
    intro same
    rw [printed] at same
    split at same
    case isFalse => cases same
    case isTrue short =>
      have text := Option.some.inj same
      have number := lineText_injective text
      dsimp only at text
      rw [← text]
      refine ⟨?_, short⟩
      have upper := (Int32.ofNat p.2).toInt_lt
      rw [number, intMax] at *
      omega
  case mpr =>
    rintro ⟨small, short⟩
    have number : (Int32.ofNat p.2).toInt = p.2 := Int32.toInt_ofNat_of_lt (by rw [intMax] at small; omega)
    rw [number, printed, dif_pos short]
    rfl

theorem map_pairOf_eq_iff {key : Buffer} :
    (lines.map (pairOf key)).map (fun pair => (pair.key, pair.value.map (·.bytes))) =
        lines.map (fun p => (key, some (lineText p.2 p.1))) ↔
      ∀ p ∈ lines, (p.2 : Int) ≤ intMax ∧ (lineText p.2 p.1).length ≤ intMax := by
  rw [List.map_map, List.map_inj_left]
  refine forall₂_congr fun p inside => ?_
  rw [← printed_eq_iff]
  simp only [Function.comp_apply, pairOf, Prod.mk.injEq, true_and]

theorem findsAll_of_searchable (solid : 0 ∉ input.value.bytes) (search_solid : 0 ∉ aux.bytes)
    (searchable : Searchable input.value.bytes aux.bytes) : FindsAll malloc input aux := by
  obtain ⟨ls, last, split, pieces, solids, last_solid⟩ := exists_lines solid
  have unmatched : ¬ aux.bytes <:+: last := searchable.last last (by rw [pieces, List.getLast?_concat]; rfl)
  have all : matching input.value.bytes aux.bytes = found aux.bytes ls := by
    rw [matching_eq pieces, if_neg unmatched, List.append_nil]
    rfl
  have numbers := searchable.numbers
  have texts := searchable.texts
  rw [all] at numbers texts
  have count : (found aux.bytes ls).length ≤ 2 ^ 31 - 1 := by
    refine length_filter_zipIdx_le 1 fun p inside => ?_
    have number := numbers p inside
    rw [intMax] at number
    omega
  refine ⟨_, grepMap_few search_solid split solids last_solid (by omega), ?_⟩
  rw [all]
  exact map_pairOf_eq_iff.mpr fun p inside => ⟨numbers p inside, texts p inside⟩

theorem searchable_of_findsAll (solid : 0 ∉ input.value.bytes) (search_solid : 0 ∉ aux.bytes)
    (finds : FindsAll malloc input aux) : Searchable input.value.bytes aux.bytes := by
  obtain ⟨ls, last, split, pieces, solids, last_solid⟩ := exists_lines solid
  obtain ⟨pairs, ran, same⟩ := finds
  have few : (found aux.bytes ls).length ≤ 2 ^ 31 := Nat.le_of_not_lt fun many =>
    grepMap_many search_solid split solids last_solid many _ ran
  have result := @grepMap_few malloc _ _ _ _ search_solid split solids last_solid few
  rw [ran, Except.ok.injEq] at result
  obtain rfl := List.map_injective_iff.mpr (Option.some_injective _) result
  have unmatched : ¬ aux.bytes <:+: last := by
    intro occurs
    have count := congrArg List.length same
    rw [matching_eq pieces, if_pos occurs, List.length_map, List.length_map, List.length_map, List.length_append,
      List.length_singleton] at count
    exact absurd count (Nat.ne_of_lt (Nat.lt_succ_self _))
  have all : matching input.value.bytes aux.bytes = found aux.bytes ls := by
    rw [matching_eq pieces, if_neg unmatched, List.append_nil]
    rfl
  rw [all] at same
  have right := map_pairOf_eq_iff.mp same
  constructor
  · intro piece is_last
    rw [pieces, List.getLast?_concat] at is_last
    cases is_last
    exact unmatched
  · intro p inside
    exact (right p (all ▸ inside)).1
  · intro p inside
    exact (right p (all ▸ inside)).2

/-- Each line with the string is found where none of them is behind the last newline, and the numbers fit. -/
theorem findsAll_iff (malloc : ∀ n, Vector UInt8 n) (input : KeyValue) (aux : Buffer)
    (solid : 0 ∉ input.value.bytes) (search_solid : 0 ∉ aux.bytes) :
    FindsAll malloc input aux ↔ Searchable input.value.bytes aux.bytes :=
  ⟨searchable_of_findsAll solid search_solid, findsAll_of_searchable solid search_solid⟩

def nameBuffer : Buffer := ⟨[0x66], fits_singleton _⟩

/-- `x` -/
def letterBuffer : Buffer := ⟨[0x78], fits_singleton _⟩

/-- `x` in the lines `x`, `b` and `bx`, each with its newline. -/
theorem findsAll_lines : FindsAll (fun n => Vector.replicate n 7)
    ⟨nameBuffer, ⟨[0x78, 0x0a, 0x62, 0x0a, 0x62, 0x78, 0x0a], by decide⟩⟩ letterBuffer := by
  refine (findsAll_iff _ _ _ (by decide) (by decide)).mpr ⟨?_, by decide, by decide⟩
  rintro piece ⟨⟩
  decide

/-- `x` in a file of one line without a newline: there is no pair. -/
theorem not_findsAll : matching [0x78] [0x78] = [([0x78], 1)] ∧
    grepMap (fun n => Vector.replicate n 7) ⟨nameBuffer, letterBuffer⟩ letterBuffer = .ok [] ∧
    ¬ FindsAll (fun n => Vector.replicate n 7) ⟨nameBuffer, letterBuffer⟩ letterBuffer := by
  have solid : Solid [0x78] := ⟨by decide, by decide⟩
  refine ⟨by decide, @grepMap_few _ _ _ [0x78] [] solid.1 rfl nofun solid (Nat.zero_le _), fun finds => ?_⟩
  exact (searchable_of_findsAll solid.1 solid.1 finds).last [0x78] rfl (List.infix_refl _)

end Finds
end Grep
end CS162.MapReduce
