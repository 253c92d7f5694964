import CS162.MapReduce.WordMap
import CS162.WordCount.FileWordsLaw

/-!
When both scanners of the word-count application agree: each has the letters of the run that
it is in, and what it has counted or stored are the words of the runs before. An `int` does
not reach the end of a longer buffer, a `size_t` does.
-/

namespace CS162.MapReduce
open CS162.Library
open CS162.WordCount.FileWords (toChar isAlpha toLower isLetter lower wordsOf isAlpha_toChar toLower_toChar
  letters_nil letters_concat wordsOf_letters wordsOf_append_nonletter)

section NumWords
variable {buf : Buffer} {front before run rest : List UInt8} {c : UInt8} {i counter words : Int32}

/-- `num_words` after a run of so many letters. -/
def countRun (counter words : Int32) : Int32 := if counter > 1 then words + 1 else words

theorem numWordsLoop_cons (bytes : buf.bytes = front ++ c :: rest) (at_end : i.toInt = front.length) :
    numWordsLoop buf i counter words =
      if isLetter c then numWordsLoop buf (i + 1) (counter + 1) words
      else numWordsLoop buf (i + 1) 0 (countRun counter words) := by
  have length : buf.length = front.length + (rest.length + 1) := by
    rw [Buffer.length, bytes, List.length_append, List.length_cons]
  have load : loadAt buf.bytes i = .ok c := by
    rw [loadAt, if_pos (by omega), at_end, bytes]
    exact CArray.load_append
  rw [numWordsLoop, if_pos (by omega)]
  split
  · next loaded => rw [load] at loaded; cases loaded
  · next loaded =>
      rw [load] at loaded
      cases loaded
      rw [isAlpha_toChar]
      rfl

theorem numWordsLoop_nil (at_end : i.toInt = buf.length) :
    numWordsLoop buf i counter words = .ok (countRun counter words) := by
  rw [numWordsLoop, if_neg (by omega)]
  rfl

theorem numWordsLoop_of_neg (neg : i.toInt < 0) : numWordsLoop buf i counter words = .error .read := by
  rw [numWordsLoop, if_pos (by omega)]
  split
  · next loaded => rw [loadAt_of_neg neg] at loaded; cases loaded; rfl
  · next loaded => rw [loadAt_of_neg neg] at loaded; cases loaded

theorem exists_numWordsLoop_add_one (nonneg : 0 ≤ i.toInt) (inside : i.toInt < buf.length) :
    ∃ counter' words', numWordsLoop buf i counter words = numWordsLoop buf (i + 1) counter' words' := by
  have bytes := List.take_append_drop i.toInt.toNat buf.bytes
  have length : (buf.bytes.take i.toInt.toNat).length = i.toInt.toNat :=
    List.length_take_of_le (by rw [Buffer.length_bytes]; omega)
  cases back : buf.bytes.drop i.toInt.toNat with
  | nil =>
      have behind := List.drop_eq_nil_iff.mp back
      rw [Buffer.length_bytes] at behind
      omega
  | cons c rest =>
      rw [back] at bytes
      rw [numWordsLoop_cons bytes.symm (by omega)]
      split
      · exact ⟨_, _, rfl⟩
      · exact ⟨_, _, rfl⟩

theorem numWordsLoop_long (long : intMax < buf.length) (nonneg : 0 ≤ i.toInt) :
    numWordsLoop buf i counter words = .error .read := by
  have upper := i.toInt_lt
  have last : i.toInt ≤ intMax := by
    rw [intMax]
    omega
  obtain ⟨left, steps⟩ : ∃ left : Nat, i.toInt + left = intMax := ⟨(intMax - i.toInt).toNat, by omega⟩
  induction left generalizing i counter words with
  | zero =>
      obtain ⟨counter', words', step⟩ := @exists_numWordsLoop_add_one buf i counter words nonneg (by omega)
      have wraps : (i + 1).toInt = -2 ^ 31 := intMax_add_one (by omega)
      rw [step]
      exact numWordsLoop_of_neg (by omega)
  | succ left ih =>
      obtain ⟨counter', words', step⟩ := @exists_numWordsLoop_add_one buf i counter words nonneg (by omega)
      have next : (i + 1).toInt = i.toInt + 1 := toInt_add_one (by omega)
      rw [step]
      exact ih (by omega) (i + 1).toInt_lt (by omega) (by omega)

theorem countRun_toInt (letters : ∀ c ∈ run, isLetter c = true) (open_run : counter.toInt = run.length)
    (room : words.toInt + run.length ≤ intMax) :
    (countRun counter words).toInt = words.toInt + (wordsOf run).length := by
  have one : (1 : Int32).toInt = 1 := rfl
  rw [countRun, wordsOf_letters letters]
  by_cases word : 2 ≤ run.length
  · rw [if_pos (Int32.lt_iff_toInt_lt.mpr (by omega)), if_pos word, toInt_add_one (by omega)]
    rfl
  · rw [if_neg (fun more => by have := Int32.lt_iff_toInt_lt.mp more; omega), if_neg word]
    exact (Int.add_zero _).symm

theorem wordsOf_run_length_le (letters : ∀ c ∈ run, isLetter c = true) : (wordsOf run).length ≤ run.length := by
  rw [wordsOf_letters letters]
  split
  · rw [List.length_singleton]
    omega
  · exact Nat.zero_le _

theorem numWordsLoop_eq (bytes : buf.bytes = before ++ (run ++ rest)) (short : buf.length ≤ intMax)
    (letters : ∀ c ∈ run, isLetter c = true) (at_end : i.toInt = before.length + run.length)
    (open_run : counter.toInt = run.length) (few : 0 ≤ words.toInt) (closed : words.toInt ≤ before.length) :
    ∃ n, numWordsLoop buf i counter words = .ok n ∧ n.toInt = words.toInt + (wordsOf (run ++ rest)).length := by
  induction rest generalizing before run i counter words with
  | nil =>
      have length : buf.length = before.length + run.length := by
        rw [Buffer.length, bytes, List.append_nil, List.length_append]
      rw [List.append_nil, numWordsLoop_nil (by omega)]
      exact ⟨_, rfl, countRun_toInt letters open_run (by omega)⟩
  | cons c rest ih =>
      have length : buf.length = before.length + run.length + (rest.length + 1) := by
        rw [Buffer.length, bytes, List.length_append, List.length_append, List.length_cons, Nat.add_assoc]
      have next : (i + 1).toInt = i.toInt + 1 := toInt_add_one (by omega)
      have here : buf.bytes = before ++ run ++ c :: rest := by rw [bytes, List.append_assoc]
      rw [numWordsLoop_cons here (by rw [List.length_append]; omega)]
      by_cases letter : isLetter c = true
      case pos =>
        have longer : ((run ++ [c]).length : Int) = run.length + 1 := by
          rw [List.length_append]
          rfl
        have same : run ++ c :: rest = run ++ [c] ++ rest := List.append_cons run c rest
        have count : (counter + 1).toInt = counter.toInt + 1 := toInt_add_one (by omega)
        rw [if_pos letter, same]
        exact ih (same ▸ bytes) (letters_concat letters letter) (by omega) (by omega) few closed
      case neg =>
        have other : isLetter c = false := Bool.eq_false_iff.mpr letter
        have count : (countRun counter words).toInt = words.toInt + (wordsOf run).length :=
          countRun_toInt letters open_run (by omega)
        have fewer := wordsOf_run_length_le letters
        have longer : ((before ++ run ++ [c]).length : Int) = before.length + run.length + 1 := by
          rw [List.length_append, List.length_append]
          rfl
        have split : buf.bytes = before ++ run ++ [c] ++ ([] ++ rest) := by
          rw [here, List.append_cons]
          rfl
        have nil_length : (([] : List UInt8).length : Int) = 0 := rfl
        obtain ⟨n, result, total⟩ := @ih (before ++ run ++ [c]) [] (i + 1) 0 (countRun counter words) split
          letters_nil (by omega) rfl (by omega) (by omega)
        rw [if_neg letter]
        refine ⟨n, result, ?_⟩
        rw [total, count, wordsOf_append_nonletter letters other, ← wordsOf_letters letters, List.length_append]
        exact Int.add_assoc _ _ _

theorem numWords_eq (short : buf.length ≤ intMax) :
    ∃ n, numWords buf = .ok n ∧ n.toInt = (wordsOf buf.bytes).length := by
  obtain ⟨n, result, total⟩ := @numWordsLoop_eq buf [] [] buf.bytes 0 0 0 rfl short letters_nil rfl rfl
    (by decide) (by decide)
  exact ⟨n, result, total.trans (Int.zero_add _)⟩

end NumWords

section WcMap
variable {malloc : ∀ n, Vector UInt8 n} {buf : Buffer} {before run front back rest : List UInt8} {c : UInt8}
  {done pairs pairs' : List KeyValue} {words words' : List (List UInt8)} {slots : Nat}

/-- The pairs that stand for words. -/
structure StandFor (pairs : List KeyValue) (words : List (List UInt8)) : Prop where
  keys : pairs.map (·.key.bytes) = words
  values : ∀ kv ∈ pairs, kv.value = intBuffer 1

theorem StandFor.nil : StandFor [] [] := ⟨rfl, nofun⟩

theorem StandFor.append (first : StandFor pairs words) (second : StandFor pairs' words') :
    StandFor (pairs ++ pairs') (words ++ words') := by
  constructor
  · rw [List.map_append, first.keys, second.keys]
  · intro kv inside
    exact (List.mem_append.mp inside).elim (first.values kv) (second.values kv)

theorem StandFor.length (same : StandFor pairs words) : pairs.length = words.length := by
  rw [← same.keys, List.length_map]

theorem copyWord_append (bytes : buf.bytes = before ++ (front ++ back) ++ rest)
    (letters : ∀ c ∈ front ++ back, isLetter c = true) {tail : List UInt8} (room : tail.length = back.length) :
    copyWord buf.bytes (front.map lower ++ tail) before.length (before.length + front.length)
      (before.length + (front ++ back).length) = .ok ((front ++ back).map lower) := by
  induction back generalizing front tail with
  | nil =>
      have none_left : tail = [] := List.eq_nil_of_length_eq_zero room
      rw [copyWord, if_neg (by rw [List.append_nil]; exact Nat.lt_irrefl _), none_left, List.append_nil,
        List.append_nil]
  | cons c back ih =>
      have same : front ++ c :: back = front ++ [c] ++ back := List.append_cons front c back
      have letter : isLetter c = true := letters c (by simp)
      cases tail with
      | nil => cases room
      | cons d tail =>
          have load : CArray.load buf.bytes (before.length + front.length) = .ok c := by
            rw [bytes, same, ← List.append_assoc, ← List.append_assoc, ← List.length_append, List.append_assoc _ back,
              ← List.append_cons]
            exact CArray.load_append
          have store : CArray.store (front.map lower ++ d :: tail) (before.length + front.length - before.length)
              (lower c) = .ok ((front ++ [c]).map lower ++ tail) := by
            rw [Nat.add_sub_cancel_left, ← List.length_map lower, CArray.store_append, List.map_append,
              List.append_assoc]
            rfl
          have next : before.length + front.length + 1 = before.length + (front ++ [c]).length := by
            rw [List.length_append]
            rfl
          rw [copyWord, if_pos (by rw [List.length_append, List.length_cons]; omega), load, ok_bind,
            toLower_toChar letter, store, ok_bind, next, same]
          exact ih (same ▸ bytes) (same ▸ letters) (Nat.succ.inj room)

theorem endRun_eq (bytes : buf.bytes = before ++ run ++ rest) (letters : ∀ c ∈ run, isLetter c = true)
    (room : (wordsOf run).length ≤ slots) :
    ∃ pairs, StandFor pairs (wordsOf run) ∧
      endRun malloc buf before.length (before.length + run.length) done.length (filled done slots) =
        .ok ((done ++ pairs).length, filled (done ++ pairs) (slots - pairs.length)) := by
  rw [wordsOf_letters letters] at room ⊢
  by_cases word : 2 ≤ run.length
  case neg =>
    rw [if_neg word, endRun, if_neg (by omega)]
    exact ⟨[], .nil, by rw [List.append_nil]; rfl⟩
  case pos =>
    rw [if_pos word, List.length_singleton] at room
    have fits : (run.map lower).length < 2 ^ 63 := by
      have all := buf.fits
      rw [bytes, List.length_append, List.length_append] at all
      rw [List.length_map]
      omega
    have space : (malloc run.length).toList.length = run.length := Vector.length_toList
    have copied := @copyWord_append buf before [] run rest (by rw [bytes]; rfl) letters _ space
    obtain ⟨left, rfl⟩ : ∃ left, slots = left + 1 := ⟨slots - 1, by omega⟩
    refine ⟨[⟨⟨run.map lower, fits⟩, intBuffer 1⟩], ⟨?_, ?_⟩, ?_⟩
    · rw [if_pos word]
      rfl
    · intro kv inside
      rw [List.mem_singleton.mp inside]
    · rw [endRun, if_pos (by omega), Nat.add_sub_cancel_left]
      rw [List.map_nil, List.nil_append, List.length_nil, Nat.add_zero, List.nil_append] at copied
      rw [copied, ok_bind, sizedBuffer, dif_pos fits, ok_bind, storeSlot_filled, ok_bind, List.length_append]
      rfl

theorem runEnds_append (bytes : buf.bytes = front ++ c :: rest) : runEnds buf front.length = .ok (!isLetter c) := by
  have length : buf.length = front.length + (rest.length + 1) := by
    rw [Buffer.length, bytes, List.length_append, List.length_cons]
  rw [runEnds, if_neg (by omega), bytes, CArray.load_append, ← isAlpha_toChar]
  rfl

theorem wcMapLoop_of_le {p1 p2 counter : Nat} {kva : List (Option KeyValue)} (behind : buf.length ≤ p1) :
    wcMapLoop malloc buf p1 p2 counter kva = .ok kva := by
  rw [wcMapLoop, if_neg (Nat.not_lt_of_le behind)]

theorem wcMapLoop_of_ends {p1 p2 counter : Nat} {kva : List (Option KeyValue)} (more : p1 < buf.length)
    (ended : runEnds buf p2 = .ok true) :
    wcMapLoop malloc buf p1 p2 counter kva =
      (endRun malloc buf p1 p2 counter kva >>= fun s => wcMapLoop malloc buf (p2 + 1) (p2 + 1) s.1 s.2) := by
  rw [wcMapLoop, if_pos more]
  split
  · next read => rw [ended] at read; cases read
  · rfl
  · next read => rw [ended] at read; cases read

theorem wcMapLoop_of_letter {p1 p2 counter : Nat} {kva : List (Option KeyValue)} (more : p1 < buf.length)
    (goes_on : runEnds buf p2 = .ok false) :
    wcMapLoop malloc buf p1 p2 counter kva = wcMapLoop malloc buf p1 (p2 + 1) counter kva := by
  rw [wcMapLoop, if_pos more]
  split
  · next read => rw [goes_on] at read; cases read
  · next read => rw [goes_on] at read; cases read
  · rfl

/-- The words of the runs before have been stored, and those that follow fill the array. -/
theorem wcMapLoop_eq (bytes : buf.bytes = before ++ (run ++ rest)) (letters : ∀ c ∈ run, isLetter c = true)
    (enough : (wordsOf (run ++ rest)).length = slots) :
    ∃ pairs, StandFor pairs (wordsOf (run ++ rest)) ∧
      wcMapLoop malloc buf before.length (before.length + run.length) done.length (filled done slots) =
        .ok ((done ++ pairs).map some) := by
  induction rest generalizing before run done slots with
  | nil =>
      have length : buf.length = before.length + run.length := by
        rw [Buffer.length, bytes, List.append_nil, List.length_append]
      rw [List.append_nil] at enough ⊢
      obtain ⟨pairs, same, ran⟩ := @endRun_eq malloc buf before run [] done slots
        (by rw [bytes, List.append_assoc]) letters (Nat.le_of_eq enough)
      have full : filled (done ++ pairs) (slots - pairs.length) = (done ++ pairs).map some := by
        rw [same.length, enough, Nat.sub_self, filled_zero]
      refine ⟨pairs, same, ?_⟩
      rcases Nat.eq_zero_or_pos run.length with none_open | some_open
      · have no_pairs : pairs = [] := by
          refine List.eq_nil_of_length_eq_zero (Nat.le_zero.mp ?_)
          rw [same.length, ← none_open]
          exact wordsOf_run_length_le letters
        rw [wcMapLoop_of_le (by omega), ← full, no_pairs, List.append_nil]
        rfl
      · have ended : runEnds buf (before.length + run.length) = .ok true := if_pos (Nat.le_of_eq length)
        rw [wcMapLoop_of_ends (by omega) ended, ran, ok_bind, wcMapLoop_of_le (by omega), full]
  | cons c rest ih =>
      have here : buf.bytes = before ++ run ++ c :: rest := by rw [bytes, List.append_assoc]
      have length : buf.length = before.length + run.length + (rest.length + 1) := by
        rw [Buffer.length, here, List.length_append, List.length_append, List.length_cons]
      have looked := runEnds_append here
      rw [List.length_append] at looked
      by_cases letter : isLetter c = true
      case pos =>
        have same : run ++ c :: rest = run ++ [c] ++ rest := List.append_cons run c rest
        rw [letter] at looked
        rw [wcMapLoop_of_letter (by omega) looked, same]
        have longer : before.length + run.length + 1 = before.length + (run ++ [c]).length := by
          rw [List.length_append]
          rfl
        rw [longer]
        exact ih (same ▸ bytes) (letters_concat letters letter) (same ▸ enough)
      case neg =>
        have other : isLetter c = false := Bool.eq_false_iff.mpr letter
        have words : wordsOf (run ++ c :: rest) = wordsOf run ++ wordsOf rest := by
          rw [wordsOf_append_nonletter letters other, ← wordsOf_letters letters]
        rw [words, List.length_append] at enough
        obtain ⟨pairs, same, ran⟩ := @endRun_eq malloc buf before run (c :: rest) done slots here letters (by omega)
        have count := same.length
        have split : buf.bytes = before ++ run ++ [c] ++ ([] ++ rest) := by
          rw [here, List.append_cons]
          rfl
        have left : (wordsOf ([] ++ rest)).length = slots - pairs.length := by
          rw [List.nil_append]
          omega
        obtain ⟨others, behind, result⟩ := @ih (before ++ run ++ [c]) [] (done ++ pairs) (slots - pairs.length) split
          letters_nil left
        have next : before.length + run.length + 1 = (before ++ run ++ [c]).length := by
          rw [List.length_append, List.length_append]
          rfl
        rw [other] at looked
        rw [wcMapLoop_of_ends (by omega) looked, ran, ok_bind, next, words]
        exact ⟨pairs ++ others, same.append behind, List.append_assoc done pairs others ▸ result⟩

/-- What `num_words` and `wc_map` do agree, and the array has the words of the buffer. -/
def Agrees (malloc : ∀ n, Vector UInt8 n) (input : KeyValue) (aux : Buffer) : Prop :=
  ∃ (n : Int32) (pairs : List KeyValue), numWords input.value = .ok n ∧ n.toInt = pairs.length ∧
    wcMap malloc input aux = .ok (pairs.map some) ∧ StandFor pairs (wordsOf input.value.bytes)

theorem not_agrees_of_long {input : KeyValue} {aux : Buffer} (long : intMax < input.value.length) :
    ¬ Agrees malloc input aux := by
  rintro ⟨n, pairs, counted, -⟩
  have stops : numWords input.value = .error .read := numWordsLoop_long long (by decide)
  rw [stops] at counted
  cases counted

theorem agrees_of_short (malloc : ∀ n, Vector UInt8 n) {input : KeyValue} (aux : Buffer)
    (short : input.value.length ≤ intMax) : Agrees malloc input aux := by
  obtain ⟨n, counted, total⟩ := numWords_eq short
  obtain ⟨pairs, same, result⟩ := @wcMapLoop_eq malloc input.value [] [] input.value.bytes [] _ rfl letters_nil rfl
  refine ⟨n, pairs, counted, by rw [total, same.length]; rfl, ?_, same⟩
  rw [wcMap, counted, ok_bind, total, Int.toNat_natCast]
  exact result

/-- They do exactly where an `int` counts the bytes. -/
theorem agrees_iff (malloc : ∀ n, Vector UInt8 n) (input : KeyValue) (aux : Buffer) :
    Agrees malloc input aux ↔ input.value.length ≤ intMax := by
  constructor
  case mp =>
    intro agrees
    exact Int.not_lt.mp fun long => not_agrees_of_long long agrees
  case mpr => exact agrees_of_short malloc aux

/-- A file of so many spaces. -/
def spaces (n : Nat) (fits : n < 2 ^ 63) : KeyValue where
  key := ⟨[], fits_nil⟩
  value := ⟨List.replicate n 0x20, by rw [List.length_replicate]; exact fits⟩

theorem spaces_length {n : Nat} (fits : n < 2 ^ 63) : (spaces n fits).value.length = n := List.length_replicate

/-- 2^31 spaces. -/
theorem not_agrees : numWords (spaces (2 ^ 31) (by decide)).value = .error .read ∧
    ∀ malloc aux, ¬ Agrees malloc (spaces (2 ^ 31) (by decide)) aux := by
  have long : intMax < (spaces (2 ^ 31) (by decide)).value.length := by
    rw [spaces_length]
    decide
  exact ⟨numWordsLoop_long long (by decide), fun _ _ => not_agrees_of_long long⟩

end WcMap
end CS162.MapReduce
