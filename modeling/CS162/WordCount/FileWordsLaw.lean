import CS162.WordCount.FileWords

/-!
When `count_words` counts the words of a file: the scan has the letters of the run it is in in
the word buffer, and what it has counted are the words of the runs before. It stops at a byte
0xff as at the end of the file, and does not see that a run fills the buffer.
-/

namespace CS162.WordCount
namespace FileWords
open CS162.Library

section Counts
variable {wclist : List WordCountT} {word other : Word}

theorem findWord_isSome : (findWord wclist word).isSome ↔ word ∈ wclist.map (·.word) := by
  rw [findWord, List.find?_isSome, List.mem_map]
  simp

theorem addWord_of_mem (inside : word ∈ wclist.map (·.word)) : addWord wclist word = increment word wclist := by
  cases wclist with
  | nil => exact absurd inside List.not_mem_nil
  | cons wc wclist =>
      obtain ⟨found, find⟩ := Option.isSome_iff_exists.mp (findWord_isSome.mpr inside)
      rw [addWord, find]

theorem addWord_of_notMem (absent : word ∉ wclist.map (·.word)) : addWord wclist word = wclist ++ [⟨word, 1⟩] := by
  cases wclist with
  | nil => rfl
  | cons wc wclist =>
      have none_found := Option.not_isSome_iff_eq_none.mp (mt findWord_isSome.mp absent)
      rw [addWord, none_found]

theorem map_increment : (increment word wclist).map (·.word) = wclist.map (·.word) := by
  induction wclist with
  | nil => rfl
  | cons wc wclist ih =>
      rw [increment]
      split
      · rfl
      · exact congrArg (wc.word :: ·) ih

theorem mem_addWord : other ∈ (addWord wclist word).map (·.word) ↔ other ∈ wclist.map (·.word) ∨ other = word := by
  by_cases inside : word ∈ wclist.map (·.word)
  · rw [addWord_of_mem inside, map_increment]
    exact ⟨.inl, fun h => h.elim id fun same => same ▸ inside⟩
  · rw [addWord_of_notMem inside, List.map_append, List.mem_append]
    exact or_congr_right List.mem_singleton

theorem nodup_addWord (nodup : (wclist.map (·.word)).Nodup) : ((addWord wclist word).map (·.word)).Nodup := by
  by_cases inside : word ∈ wclist.map (·.word)
  · rwa [addWord_of_mem inside, map_increment]
  · rw [addWord_of_notMem inside, List.map_append]
    refine nodup.append (List.nodup_singleton _) fun w old new => inside ?_
    have same : w = word := List.mem_singleton.mp new
    rwa [same] at old

theorem countOf_cons (wc : WordCountT) :
    countOf (wc :: wclist) word = if wc.word = word then wc.count else countOf wclist word := by
  rw [countOf, findWord, List.find?_cons]
  by_cases same : wc.word = word
  · simp [same]
  · simp [same, countOf, findWord]

theorem countOf_of_notMem (absent : word ∉ wclist.map (·.word)) : countOf wclist word = 0 := by
  rw [countOf, Option.not_isSome_iff_eq_none.mp (mt findWord_isSome.mp absent)]
  rfl

theorem toInt32_toInt32_add (x y : Int) : toInt32 (toInt32 x + y) = toInt32 (x + y) := by
  unfold toInt32
  omega

theorem countOf_increment (inside : word ∈ wclist.map (·.word)) :
    countOf (increment word wclist) other =
      if other = word then toInt32 (countOf wclist word + 1) else countOf wclist other := by
  induction wclist with
  | nil => exact absurd inside List.not_mem_nil
  | cons wc wclist ih =>
      rw [increment, countOf_cons, countOf_cons]
      by_cases first : wc.word = word
      · rw [if_pos first, if_pos first, countOf_cons]
        by_cases same : other = word
        · rw [if_pos (first.trans same.symm), if_pos same]
        · have apart : wc.word ≠ other := fun equal => same (equal.symm.trans first)
          rw [if_neg apart, if_neg same, if_neg apart]
      · have behind : word ∈ wclist.map (·.word) := (List.mem_cons.mp inside).resolve_left (Ne.symm first)
        rw [if_neg first, if_neg first, countOf_cons, ih behind]
        by_cases here : wc.word = other
        · rw [if_pos here, if_pos here, if_neg fun same => first (here.trans same)]
        · rw [if_neg here, if_neg here]

theorem countOf_concat (absent : word ∉ wclist.map (·.word)) :
    countOf (wclist ++ [⟨word, 1⟩]) other = if other = word then 1 else countOf wclist other := by
  induction wclist with
  | nil =>
      rw [List.nil_append, countOf_cons]
      exact if_congr eq_comm rfl rfl
  | cons wc wclist ih =>
      obtain ⟨first, behind⟩ := not_or.mp (mt List.mem_cons.mpr absent)
      rw [List.cons_append, countOf_cons, countOf_cons, ih behind]
      by_cases here : wc.word = other
      · rw [if_pos here, if_pos here, if_neg fun same => first (here.trans same).symm]
      · rw [if_neg here, if_neg here]

theorem toInt32_idem (x : Int) : toInt32 (toInt32 x) = toInt32 x := by
  have same := toInt32_toInt32_add x 0
  rwa [Int.add_zero, Int.add_zero] at same

theorem int_of_toInt32 {x : Int} (same : toInt32 x = x) : -2 ^ 31 ≤ x ∧ x ≤ intMax := by
  unfold toInt32 at same
  unfold intMax
  omega

/-- Only the count of the word added changes, as an `int` does. -/
theorem countOf_addWord :
    countOf (addWord wclist word) other =
      if other = word then toInt32 (countOf wclist word + 1) else countOf wclist other := by
  by_cases inside : word ∈ wclist.map (·.word)
  · rw [addWord_of_mem inside, countOf_increment inside]
  · rw [addWord_of_notMem inside, countOf_concat inside, countOf_of_notMem inside]
    rfl

theorem total_cons (wc : WordCountT) : total (wc :: wclist) = wc.count + total wclist := List.sum_cons

theorem total_increment (inside : word ∈ wclist.map (·.word)) :
    total (increment word wclist) = total wclist + (toInt32 (countOf wclist word + 1) - countOf wclist word) := by
  induction wclist with
  | nil => exact absurd inside List.not_mem_nil
  | cons wc wclist ih =>
      rw [increment, countOf_cons]
      by_cases first : wc.word = word
      · rw [if_pos first, if_pos first, total_cons, total_cons]
        ring
      · have behind : word ∈ wclist.map (·.word) := (List.mem_cons.mp inside).resolve_left (Ne.symm first)
        rw [if_neg first, if_neg first, total_cons, total_cons, ih behind]
        ring

theorem total_addWord :
    total (addWord wclist word) = total wclist + (toInt32 (countOf wclist word + 1) - countOf wclist word) := by
  by_cases inside : word ∈ wclist.map (·.word)
  · rw [addWord_of_mem inside, total_increment inside]
  · rw [addWord_of_notMem inside, countOf_of_notMem inside, total, List.map_append, List.sum_append]
    rfl

end Counts

section AllWords
variable {wclist : List WordCountT} {added : List Word} {word : Word}

theorem mem_addWords :
    word ∈ (added.foldl addWord wclist).map (·.word) ↔ word ∈ wclist.map (·.word) ∨ word ∈ added := by
  induction added generalizing wclist with
  | nil => exact (or_iff_left List.not_mem_nil).symm
  | cons first added ih => rw [List.foldl_cons, ih, mem_addWord, or_assoc, List.mem_cons]

theorem nodup_addWords (nodup : (wclist.map (·.word)).Nodup) : ((added.foldl addWord wclist).map (·.word)).Nodup := by
  induction added generalizing wclist with
  | nil => exact nodup
  | cons first added ih => exact ih (nodup_addWord nodup)

theorem int_addWord (int : ∀ word, toInt32 (countOf wclist word) = countOf wclist word) (first : Word) :
    ∀ word, toInt32 (countOf (addWord wclist first) word) = countOf (addWord wclist first) word := by
  intro word
  rw [countOf_addWord]
  split
  · exact toInt32_idem _
  · exact int word

theorem countOf_addWords (int : ∀ word, toInt32 (countOf wclist word) = countOf wclist word) :
    countOf (added.foldl addWord wclist) word = toInt32 (countOf wclist word + added.count word) := by
  induction added generalizing wclist with
  | nil => rw [List.count_nil, Int.natCast_zero, Int.add_zero, int, List.foldl_nil]
  | cons first added ih =>
      rw [List.foldl_cons, ih (int_addWord int first), countOf_addWord, List.count_cons]
      by_cases same : word = first
      · subst same
        rw [if_pos rfl, toInt32_toInt32_add, if_pos (beq_self_eq_true word), Int.natCast_add, Int.add_assoc,
          Int.add_comm 1]
        rfl
      · rw [if_neg same, if_neg (by simpa using Ne.symm same)]
        rfl

/-- As long as no count is too large for an `int`, each word adds one. -/
theorem total_addWords (int : ∀ word, toInt32 (countOf wclist word) = countOf wclist word)
    (fits : ∀ word, countOf wclist word + added.count word ≤ intMax) :
    total (added.foldl addWord wclist) = total wclist + added.length := by
  induction added generalizing wclist with
  | nil => exact (Int.add_zero _).symm
  | cons first added ih =>
      have once : (1 : Int) ≤ (first :: added).count first := by
        rw [List.count_cons_self]
        omega
      have next : toInt32 (countOf wclist first + 1) = countOf wclist first + 1 := by
        have lower := (int_of_toInt32 (int first)).1
        have upper := fits first
        exact toInt32_of_range (by omega) (by omega)
      have fits' : ∀ word, countOf (addWord wclist first) word + added.count word ≤ intMax := by
        intro word
        have upper := fits word
        rw [List.count_cons] at upper
        rw [countOf_addWord]
        by_cases same : word = first
        · subst same
          rw [if_pos (beq_self_eq_true word)] at upper
          rw [if_pos rfl, next]
          omega
        · rw [if_neg (by simpa using Ne.symm same)] at upper
          rwa [if_neg same]
      rw [List.foldl_cons, ih (int_addWord int first) fits', total_addWord, next, List.length_cons]
      omega

end AllWords

section Runs
variable {content front infile : List UInt8} {c : UInt8}

theorem letters_nil : ∀ c ∈ ([] : List UInt8), isLetter c = true := fun _ none_left =>
  absurd none_left List.not_mem_nil

theorem runs_append_nonletter (letters : ∀ c ∈ front, isLetter c = true) (other : isLetter c = false) :
    runs (front ++ c :: infile) = front :: runs infile := by
  refine List.splitOnP_append_cons_of_forall_mem (fun x inside => ?_) c ?_ infile
  · rw [letters x inside]
    rfl
  · rw [other]
    rfl

theorem runs_letters (letters : ∀ c ∈ front, isLetter c = true) : runs front = [front] :=
  List.splitOnP_eq_singleton fun x inside => by rw [letters x inside]; rfl

theorem wordsOf_append_nonletter (letters : ∀ c ∈ front, isLetter c = true) (other : isLetter c = false) :
    wordsOf (front ++ c :: infile) = (if 2 ≤ front.length then [front.map lower] else []) ++ wordsOf infile := by
  rw [wordsOf, runs_append_nonletter letters other, List.filter_cons]
  by_cases word : 2 ≤ front.length
  · rw [if_pos (decide_eq_true word), if_pos word]
    rfl
  · rw [if_neg (by simpa using word), if_neg word]
    rfl

theorem wordsOf_letters (letters : ∀ c ∈ front, isLetter c = true) :
    wordsOf front = if 2 ≤ front.length then [front.map lower] else [] := by
  rw [wordsOf, runs_letters letters, List.filter_cons]
  by_cases word : 2 ≤ front.length
  · rw [if_pos (decide_eq_true word), if_pos word]
    rfl
  · rw [if_neg (by simpa using word), if_neg word]
    rfl

theorem exists_run (letters : ∀ c ∈ front, isLetter c = true) (infile : List UInt8) :
    ∃ run ∈ runs (front ++ infile), front.length ≤ run.length := by
  have letters' : ∀ c ∈ front ++ infile.takeWhile isLetter, isLetter c = true := fun c inside =>
    (List.mem_append.mp inside).elim (letters c) List.mem_takeWhile_imp
  refine ⟨front ++ infile.takeWhile isLetter, ?_, by rw [List.length_append]; exact Nat.le_add_right ..⟩
  have split : front ++ infile = front ++ infile.takeWhile isLetter ++ infile.dropWhile isLetter := by
    rw [List.append_assoc, List.takeWhile_append_dropWhile]
  rw [split]
  cases rest : infile.dropWhile isLetter with
  | nil =>
      rw [List.append_nil, runs_letters letters']
      exact List.mem_singleton_self _
  | cons c rest' =>
      have other : isLetter c = false := by
        have stopped := List.head?_dropWhile_not isLetter infile
        rwa [rest] at stopped
      rw [runs_append_nonletter letters' other]
      exact List.mem_cons_self

theorem wordsOf_split (content : List UInt8) :
    wordsOf content = wordsOf (content.takeWhile (· ≠ 0xff)) ++ wordsOf (content.dropWhile (· ≠ 0xff)) := by
  conv_lhs => rw [← List.takeWhile_append_dropWhile (p := (· ≠ 0xff)) (l := content)]
  cases rest : content.dropWhile (· ≠ 0xff) with
  | nil => rw [List.append_nil]; exact (List.append_nil _).symm
  | cons c rest' =>
      have mark : c = 0xff := by
        have stopped := List.head?_dropWhile_not (· ≠ 0xff) content
        rw [rest] at stopped
        simpa using stopped
      have behind : wordsOf (c :: rest') = wordsOf rest' := wordsOf_append_nonletter letters_nil (mark ▸ rfl)
      rw [behind, wordsOf, runs, List.splitOnP_append_cons _ _ (mark ▸ rfl), List.filter_append, List.map_append]
      rfl

end Runs

section Scan
variable {content front infile : List UInt8} {c : UInt8} {wclist counted : List WordCountT}

theorem toChar_eq_eof : toChar c = eof ↔ c = 0xff := by
  have bound := c.toNat_lt
  rw [← UInt8.toNat_inj]
  show (c.toNat + 128 : Int) % 256 - 128 = -1 ↔ c.toNat = 255
  omega

theorem isAlpha_toChar : isAlpha (toChar c) = isLetter c := by
  have bound := c.toNat_lt
  simp only [isAlpha, isLetter, toChar, UInt8.le_iff_toNat_le, UInt8.reduceToNat]
  refine decide_eq_decide.mpr ?_
  omega

theorem ofInt_toNat (c : UInt8) : UInt8.ofInt c.toNat = c := by
  have bound := c.toNat_lt
  have small : ((c.toNat : Int) % 2 ^ 8).toNat = c.toNat := by omega
  rw [UInt8.ofInt, small, UInt8.ofNat_toNat]

theorem isLetter_iff : isLetter c = true ↔ (65 ≤ c.toNat ∧ c.toNat ≤ 90) ∨ (97 ≤ c.toNat ∧ c.toNat ≤ 122) := by
  simp only [isLetter, UInt8.le_iff_toNat_le, UInt8.reduceToNat, decide_eq_true_eq]

theorem toLower_toChar (letter : isLetter c = true) : UInt8.ofInt (toLower (toChar c)) = lower c := by
  have bound := c.toNat_lt
  have letter := isLetter_iff.mp letter
  have char : toChar c = c.toNat := by
    unfold toChar
    omega
  rw [char, toLower, lower]
  simp only [UInt8.le_iff_toNat_le, UInt8.reduceToNat]
  by_cases upper : 65 ≤ c.toNat ∧ c.toNat ≤ 90
  · rw [if_pos (by omega), if_pos upper, UInt8.ofInt_add, ofInt_toNat]
    rfl
  · rw [if_neg (by omega), if_neg upper, ofInt_toNat]

theorem countWordsLoop_takeWhile (str : CArray) (isNewWord : Int) :
    countWordsLoop content wclist str isNewWord =
      countWordsLoop (content.takeWhile (· ≠ 0xff)) wclist str isNewWord := by
  induction content generalizing wclist str isNewWord with
  | nil => rfl
  | cons c content ih =>
      by_cases mark : c = 0xff
      · rw [List.takeWhile_cons_of_neg (by simpa using mark), countWordsLoop]
        exact if_pos (toChar_eq_eof.mpr mark)
      · rw [List.takeWhile_cons_of_pos (by simpa using mark), countWordsLoop, countWordsLoop]
        simp only [ih]

theorem numWordsLoop_takeWhile (isNewWord counted : Int) :
    numWordsLoop content isNewWord counted = numWordsLoop (content.takeWhile (· ≠ 0xff)) isNewWord counted := by
  induction content generalizing isNewWord counted with
  | nil => rfl
  | cons c content ih =>
      by_cases mark : c = 0xff
      · rw [List.takeWhile_cons_of_neg (by simpa using mark), numWordsLoop]
        exact if_pos (toChar_eq_eof.mpr mark)
      · rw [List.takeWhile_cons_of_pos (by simpa using mark), numWordsLoop, numWordsLoop]
        simp only [ih]

/-- The buffer, with the letters of a run. -/
def buffer (front : List UInt8) : CArray := front.map lower ++ List.replicate (maxWordLen - front.length) 0

theorem countLetter_length (short : front.length < 2 ^ 31 - 1) : countLetter front.length = front.length + 1 := by
  rw [countLetter]
  by_cases none_yet : (front.length : Int) = 0
  · rw [if_pos none_yet, none_yet]
    rfl
  · rw [if_neg none_yet, if_pos (by omega)]
    refine toInt32_of_range (by omega) ?_
    unfold intMax
    omega

theorem buffer_eq (room : front.length < maxWordLen) :
    buffer front = front.map lower ++ 0 :: List.replicate (maxWordLen - (front.length + 1)) 0 := by
  rw [buffer, ← List.replicate_succ]
  congr 2
  omega

theorem store_buffer (room : front.length < maxWordLen) (letter : isLetter c = true) :
    storeChar (buffer front) (front.length + 1 - 1) (toLower (toChar c)) = .ok (buffer (front ++ [c])) := by
  have index : ((front.length : Int) + 1 - 1).toNat = (front.map lower).length := by
    rw [List.length_map]
    omega
  rw [storeChar, if_pos (by omega), index, buffer_eq room, CArray.store_append, toLower_toChar letter, buffer,
    List.map_append, List.length_append, List.append_assoc]
  rfl

theorem store_buffer_full (full : front.length = maxWordLen) (ch : Int) :
    storeChar (buffer front) (front.length + 1 - 1) ch = .error .write := by
  have index : ((front.length : Int) + 1 - 1).toNat = maxWordLen := by omega
  have length : (buffer front).length = maxWordLen := by
    rw [buffer, List.length_append, List.length_map, List.length_replicate, full]
    rfl
  rw [storeChar, if_pos (by omega), index, CArray.store, if_neg (by rw [length]; exact Nat.lt_irrefl _)]

theorem zero_notMem_lower (letters : ∀ c ∈ front, isLetter c = true) : 0 ∉ front.map lower := by
  intro inside
  obtain ⟨c, here, zero⟩ := List.mem_map.mp inside
  have letter := isLetter_iff.mp (letters c here)
  simp only [lower, UInt8.le_iff_toNat_le, UInt8.reduceToNat] at zero
  split at zero
  · have sum := congrArg UInt8.toNat zero
    rw [UInt8.toNat_add] at sum
    change (c.toNat + 32) % 256 = 0 at sum
    omega
  · have same := congrArg UInt8.toNat zero
    change c.toNat = 0 at same
    omega

theorem endWord_buffer (letters : ∀ c ∈ front, isLetter c = true) :
    endWord wclist (buffer front) front.length =
      if 63 < front.length then .error .read else .ok ((wordsOf front).foldl addWord wclist) := by
  rw [endWord, wordsOf_letters letters]
  by_cases word : 1 < front.length
  case neg =>
    rw [if_neg (by omega), if_neg (by omega), if_neg (by omega)]
    rfl
  rw [if_pos (by omega), if_pos (show 2 ≤ front.length from word)]
  by_cases full : 63 < front.length
  · have none_left : maxWordLen - front.length = 0 := Nat.sub_eq_zero_of_le full
    rw [if_pos full, buffer, none_left, List.replicate_zero, List.append_nil,
      CArray.string_of_solid (zero_notMem_lower letters)]
    rfl
  · rw [if_neg full, buffer_eq (Nat.lt_succ_of_le (Nat.le_of_not_lt full)),
      CArray.string_append (zero_notMem_lower letters)]
    rfl

theorem letters_concat (letters : ∀ c ∈ front, isLetter c = true) (letter : isLetter c = true) :
    ∀ d ∈ front ++ [c], isLetter d = true := by
  intro d inside
  obtain before | last := List.mem_append.mp inside
  · exact letters d before
  · rw [List.mem_singleton.mp last]
    exact letter

theorem forall_runs_nonletter {P : List UInt8 → Prop} (letters : ∀ c ∈ front, isLetter c = true)
    (other : isLetter c = false) :
    (∀ run ∈ runs (front ++ c :: infile), P run) ↔ P front ∧ ∀ run ∈ runs infile, P run := by
  rw [runs_append_nonletter letters other, List.forall_mem_cons]

/-- From within a run, the scan adds the words to come, unless a run does not fit its buffer. -/
theorem countWordsLoop_eq_ok (letters : ∀ c ∈ front, isLetter c = true) (room : front.length ≤ maxWordLen)
    (no_mark : 0xff ∉ infile) :
    countWordsLoop infile wclist (buffer front) front.length = .ok counted ↔
      (∀ run ∈ runs (front ++ infile), run.length ≤ 63) ∧
        counted = (wordsOf (front ++ infile)).foldl addWord wclist := by
  induction infile generalizing front wclist with
  | nil =>
      rw [countWordsLoop, endWord_buffer letters, List.append_nil, runs_letters letters, List.forall_mem_singleton]
      by_cases full : 63 < front.length
      · rw [if_pos full]
        exact iff_of_false nofun fun fits => absurd fits.1 (Nat.not_le_of_lt full)
      · rw [if_neg full]
        exact ⟨fun same => ⟨Nat.le_of_not_lt full, (Except.ok.inj same).symm⟩, fun fits => congrArg _ fits.2.symm⟩
  | cons c infile ih =>
      obtain ⟨no_mark_here, no_mark⟩ := not_or.mp (mt List.mem_cons.mpr no_mark)
      rw [countWordsLoop]
      simp only [if_neg (mt toChar_eq_eof.mp (Ne.symm no_mark_here)), isAlpha_toChar]
      cases letter : isLetter c with
      | true =>
          rw [if_pos rfl, countLetter_length (Nat.lt_of_le_of_lt room (by decide))]
          by_cases fits : front.length < maxWordLen
          · rw [store_buffer fits letter, ok_bind]
            have next := @ih (front ++ [c]) wclist (letters_concat letters letter)
              (by rw [List.length_append]; exact fits) no_mark
            rw [List.length_append, ← List.append_cons] at next
            exact next
          · rw [store_buffer_full (by omega), error_bind]
            refine iff_of_false nofun fun short => ?_
            obtain ⟨run, inside, long⟩ := exists_run (letters_concat letters letter) infile
            have bound := short.1 run (by rwa [List.append_cons])
            rw [List.length_append, List.length_singleton] at long
            have size : maxWordLen = 64 := rfl
            omega
      | false =>
          rw [if_neg Bool.false_ne_true, endWord_buffer letters, forall_runs_nonletter letters letter,
            wordsOf_append_nonletter letters letter, ← wordsOf_letters letters, List.foldl_append]
          by_cases full : 63 < front.length
          · rw [if_pos full, error_bind]
            exact iff_of_false nofun fun short => absurd short.1.1 (Nat.not_le_of_lt full)
          · rw [if_neg full, ok_bind]
            have next := @ih [] ((wordsOf front).foldl addWord wclist) letters_nil (Nat.zero_le _) no_mark
            rw [List.nil_append] at next
            exact next.trans (and_congr_left' (iff_and_self.mpr fun _ => Nat.le_of_not_lt full))

theorem countRun_length (letters : ∀ c ∈ front, isLetter c = true) (before : Int) :
    countRun front.length (toInt32 before) = toInt32 (before + (wordsOf front).length) := by
  rw [countRun, wordsOf_letters letters, toInt32_toInt32_add]
  by_cases word : 2 ≤ front.length
  · rw [if_pos (by omega), if_pos word]
    rfl
  · rw [if_neg (by omega), if_neg word]
    exact congrArg toInt32 (Int.add_zero _).symm

/-- The number of words, as an `int`, where no run is too long for one either. -/
theorem numWordsLoop_eq (letters : ∀ c ∈ front, isLetter c = true) (no_mark : 0xff ∉ infile)
    (short : ∀ run ∈ runs (front ++ infile), run.length ≤ 63) (before : Int) :
    numWordsLoop infile front.length (toInt32 before) = toInt32 (before + (wordsOf (front ++ infile)).length) := by
  induction infile generalizing front before with
  | nil => rw [numWordsLoop, List.append_nil, countRun_length letters]
  | cons c infile ih =>
      obtain ⟨no_mark_here, no_mark⟩ := not_or.mp (mt List.mem_cons.mpr no_mark)
      rw [numWordsLoop]
      simp only [if_neg (mt toChar_eq_eof.mp (Ne.symm no_mark_here)), isAlpha_toChar]
      cases letter : isLetter c with
      | true =>
          obtain ⟨run, inside, long⟩ := exists_run letters (c :: infile)
          have bound := short run inside
          rw [List.append_cons] at short ⊢
          have next := ih (letters_concat letters letter) no_mark short before
          rw [List.length_append] at next
          rw [if_pos rfl, countLetter_length (by omega)]
          exact next
      | false =>
          obtain ⟨-, short⟩ := (forall_runs_nonletter letters letter).mp short
          rw [if_neg Bool.false_ne_true, countRun_length letters, wordsOf_append_nonletter letters letter,
            ← wordsOf_letters letters, List.length_append, Int.natCast_add, ← Int.add_assoc]
          exact @ih [] letters_nil no_mark short _

end Scan

section Law
variable {words : Words} {content : List UInt8} {wclist : List WordCountT}

theorem int_countOf (words : Words) (word : Word) :
    toInt32 (countOf words.wclist word) = countOf words.wclist word := by
  by_cases inside : word ∈ words.wclist.map (·.word)
  · obtain ⟨wc, find⟩ := Option.isSome_iff_exists.mp (findWord_isSome.mpr inside)
    obtain ⟨lower, upper⟩ := words.int wc (List.mem_of_find?_eq_some find)
    rw [countOf, find]
    exact toInt32_of_range lower upper
  · rw [countOf_of_notMem inside]
    rfl

theorem notMem_takeWhile (content : List UInt8) : 0xff ∉ content.takeWhile (· ≠ 0xff) := by
  intro inside
  have other := List.mem_takeWhile_imp inside
  simp at other

theorem countWords_eq_ok :
    countWords words.wclist (some content) = .ok (0, wclist) ↔
      (∀ run ∈ runs (content.takeWhile (· ≠ 0xff)), run.length ≤ 63) ∧
        wclist = (wordsOf (content.takeWhile (· ≠ 0xff))).foldl addWord words.wclist := by
  have loop := @countWordsLoop_eq_ok [] _ words.wclist wclist letters_nil (Nat.zero_le _) (notMem_takeWhile content)
  rw [List.nil_append] at loop
  refine Iff.trans ?_ loop
  rw [countWords, countWordsLoop_takeWhile]
  refine ⟨fun counted => ?_, fun counted => congrArg (Except.map (fun wclist => ((0 : Int), wclist))) counted⟩
  obtain ⟨wclist', done, same⟩ := map_ok counted
  cases same
  exact done

theorem numWords_eq (short : ∀ run ∈ runs (content.takeWhile (· ≠ 0xff)), run.length ≤ 63) :
    numWords content = toInt32 (wordsOf (content.takeWhile (· ≠ 0xff))).length := by
  have loop := numWordsLoop_eq letters_nil (notMem_takeWhile content) short 0
  rw [Int.zero_add] at loop
  rw [numWords, numWordsLoop_takeWhile]
  exact loop

/-- Words that are counted are no more than an `int` counts, and no others are left. -/
theorem countable_of_counted (short : ∀ run ∈ runs (content.takeWhile (· ≠ 0xff)), run.length ≤ 63)
    (counted : Counted words content ((wordsOf (content.takeWhile (· ≠ 0xff))).foldl addWord words.wclist)) :
    Countable words content := by
  have int := int_countOf words
  have split := wordsOf_split content
  have fits : ∀ word, countOf words.wclist word + (wordsOf content).count word ≤ intMax := by
    intro word
    rw [← counted.counts word, countOf_addWords int]
    exact (int_of_toInt32 (toInt32_idem _)).2
  have seen : ∀ word, countOf words.wclist word + (wordsOf (content.takeWhile (· ≠ 0xff))).count word ≤ intMax := by
    intro word
    have upper := fits word
    rw [split, List.count_append] at upper
    omega
  have behind : wordsOf (content.dropWhile (· ≠ 0xff)) = [] := by
    refine List.eq_nil_iff_forall_not_mem.mpr fun word inside => ?_
    have some_left := List.count_pos_iff.mpr inside
    have same := counted.counts word
    have lower := (int_of_toInt32 (int word)).1
    rw [countOf_addWords int, toInt32_of_range (by omega) (seen word), split, List.count_append] at same
    omega
  refine ⟨short, behind, fits, ?_⟩
  have increase := counted.increase
  rw [total_addWords int seen, numWords_eq short] at increase
  rw [split, behind, List.append_nil]
  have same : toInt32 (wordsOf (content.takeWhile (· ≠ 0xff))).length =
      (wordsOf (content.takeWhile (· ≠ 0xff))).length := by
    omega
  exact (int_of_toInt32 same).2

theorem counted_of_countable (countable : Countable words content) :
    Counted words content ((wordsOf (content.takeWhile (· ≠ 0xff))).foldl addWord words.wclist) := by
  have int := int_countOf words
  have same : wordsOf (content.takeWhile (· ≠ 0xff)) = wordsOf content := by
    rw [wordsOf_split content, countable.behind, List.append_nil]
  have number := numWords_eq countable.short
  rw [same] at number ⊢
  constructor
  case nodup => exact nodup_addWords words.nodup
  case present => exact fun word => mem_addWords
  case counts =>
    intro word
    have lower := (int_of_toInt32 (int word)).1
    exact (countOf_addWords int).trans (toInt32_of_range (by omega) (countable.counts word))
  case increase =>
    rw [total_addWords int countable.counts, number, toInt32_of_range (by omega) countable.many]
    omega

/-- The words of a file are counted exactly where it is countable. -/
theorem countWords_exact_iff (words : Words) (content : List UInt8) :
    Exact words content ↔ Countable words content := by
  constructor
  · rintro ⟨wclist, returned, counted⟩
    obtain ⟨short, rfl⟩ := countWords_eq_ok.mp returned
    exact countable_of_counted short counted
  · intro countable
    exact ⟨_, countWords_eq_ok.mpr ⟨countable.short, rfl⟩, counted_of_countable countable⟩

/-- No words, and nothing to keep to. -/
def noWords : Words := ⟨[], List.nodup_nil, fun _ none_left => absurd none_left List.not_mem_nil⟩

/-- `ab` behind a byte 0xff is not found. -/
theorem not_exact_of_mark : ¬ Exact noWords [0xff, 0x61, 0x62] := by
  rintro ⟨wclist, returned, counted⟩
  have nothing : countWords noWords.wclist (some [0xff, 0x61, 0x62]) = .ok (0, []) := rfl
  cases nothing.symm.trans returned
  exact absurd (counted.counts [0x61, 0x62]) (by decide)

end Law
end FileWords
end CS162.WordCount
