import CS162.Shell.Tokenizer

/-!
The tokenizer undoes every way of quoting. A run is taken apart at the passes through the
loop: what is left of the line is read from a state given by what has been read. The index has
32 bits, and a line that it cannot pass is never left.
-/

namespace CS162.Shell
open CS162.Library

namespace Tokenizer
variable {line before after text part word front used back : Str} {words done : List Str} {mode mode' : Mode}
  {c b closing : UInt8} {s s' : Scanner} {result : Except Stop Scanner}

/-- What the loop comes to with enough fuel for the rest of the line. -/
def Runs (line : Str) (s : Scanner) (result : Except Stop Scanner) : Prop :=
  ∀ fuel, line.length - s.i.toNat < fuel → scan line fuel s = result

theorem Runs.last (past : line.length ≤ s.i.toNat) : Runs line s (.ok s) := by
  intro fuel enough
  cases fuel with
  | zero => exact absurd enough (Nat.not_lt_zero _)
  | succ fuel => exact if_neg (Nat.not_lt.mpr past)

theorem Runs.pass (s' : Scanner) (inside : s.i.toNat < line.length)
    (passes : scanChar line s (charAt line s.i.toNat) = .ok s') (room : s'.n + 1 < nMax)
    (onward : s.i.toNat < (s'.i + 1).toNat) (rest : Runs line { s' with i := s'.i + 1 } result) :
    Runs line s result := by
  intro fuel enough
  cases fuel with
  | zero => exact absurd enough (Nat.not_lt_zero _)
  | succ fuel =>
      rw [scan, if_pos inside, passes, ok_bind, if_neg (Nat.not_le_of_lt room)]
      refine rest fuel ?_
      show line.length - (s'.i + 1).toNat < fuel
      omega

/-- Behind a part of the line, with this much of a word in the array. -/
def reading (before : Str) (mode : Mode) (front back : Str) (done : List Str) : Scanner :=
  ⟨UInt32.ofNat before.length, mode, front ++ back, front.length, done⟩

theorem charAt_append : charAt (before ++ c :: after) before.length = c := by
  rw [charAt, List.getD_eq_getElem?_getD, List.getElem?_append_right (Nat.le_refl _), Nat.sub_self]
  rfl

theorem inside_of_split (split : line = before ++ c :: after) : before.length < line.length := by
  rw [split, List.length_append]
  exact Nat.lt_add_of_pos_right (Nat.succ_pos _)

theorem index_succ (before : Str) (c : UInt8) :
    UInt32.ofNat before.length + 1 = UInt32.ofNat (before ++ [c]).length := by
  rw [List.length_append, UInt32.ofNat_add]
  rfl

theorem exists_append_of_length {l : Str} {m n : Nat} (length : l.length = m + n) :
    ∃ l₁ l₂, l = l₁ ++ l₂ ∧ l₁.length = m ∧ l₂.length = n := by
  refine ⟨l.take m, l.drop m, (List.take_append_drop m l).symm, ?_, ?_⟩
  · rw [List.length_take]
    omega
  · rw [List.length_drop]
    omega

theorem scanChar_backslash : scanChar line s backslash = escape line s := by
  obtain ⟨i, mode, token, n, tokens⟩ := s
  cases mode <;> rfl

theorem put_reading (i : UInt32) :
    put ⟨i, mode, front ++ b :: back, front.length, done⟩ c =
      .ok ⟨i, mode, (front ++ [c]) ++ back, (front ++ [c]).length, done⟩ := by
  rw [put, CArray.store_append, List.length_append, ← List.append_cons]
  rfl

section Passes
variable (short : line.length < 2 ^ 32)
include short

theorem toNat_index (split : line = before ++ after) : (UInt32.ofNat before.length).toNat = before.length := by
  refine UInt32.toNat_ofNat_of_lt' (Nat.lt_of_le_of_lt ?_ short)
  rw [split, List.length_append]
  exact Nat.le_add_right ..

theorem Runs.next (split : line = before ++ c :: after)
    (passes : scanChar line (reading before mode front back done) c = .ok (reading before mode' part used words))
    (room : part.length + 1 < nMax) (rest : Runs line (reading (before ++ [c]) mode' part used words) result) :
    Runs line (reading before mode front back done) result := by
  have here := toNat_index short split
  have there := toNat_index short (split.trans (List.append_cons before c after))
  refine .pass (reading before mode' part used words) ?_ ?_ room ?_ ?_
  · show (UInt32.ofNat before.length).toNat < line.length
    rw [here]
    exact inside_of_split split
  · show scanChar line _ (charAt line (UInt32.ofNat before.length).toNat) = _
    rw [here, congrArg (charAt · _) split, charAt_append]
    exact passes
  · show (UInt32.ofNat before.length).toNat < (UInt32.ofNat before.length + 1).toNat
    rw [index_succ before c, here, there, List.length_append]
    exact Nat.lt_succ_self _
  · show Runs line ⟨UInt32.ofNat before.length + 1, _, _, _, _⟩ result
    rw [index_succ before c]
    exact rest

theorem escape_reading (split : line = before ++ backslash :: c :: after) :
    escape line (reading before mode front (b :: back) done) =
      .ok (reading (before ++ [backslash]) mode (front ++ [c]) back done) := by
  have split' := split.trans (List.append_cons before backslash (c :: after))
  have next : (reading before mode front (b :: back) done).i + 1 = UInt32.ofNat (before ++ [backslash]).length :=
    index_succ before backslash
  have there := toNat_index short split'
  have read : charAt line (before ++ [backslash]).length = c := by rw [split', charAt_append]
  rw [escape, next, there, if_pos (inside_of_split split'), read]
  exact put_reading _

theorem Runs.escape (split : line = before ++ backslash :: c :: after) (room : front.length + 2 < nMax)
    (rest : Runs line (reading (before ++ [backslash, c]) mode (front ++ [c]) back done) result) :
    Runs line (reading before mode front (b :: back) done) result := by
  have split' := split.trans (List.append_cons before backslash (c :: after))
  have here := toNat_index short split
  have beyond := toNat_index short (split'.trans (List.append_cons (before ++ [backslash]) c after))
  have two : before ++ [backslash, c] = before ++ [backslash] ++ [c] := List.append_cons ..
  refine .pass (reading (before ++ [backslash]) mode (front ++ [c]) back done) ?_ ?_ ?_ ?_ ?_
  · show (UInt32.ofNat before.length).toNat < line.length
    rw [here]
    exact inside_of_split split
  · show scanChar line _ (charAt line (UInt32.ofNat before.length).toNat) = _
    rw [here, congrArg (charAt · _) split, charAt_append, scanChar_backslash]
    exact escape_reading short split
  · show (front ++ [c]).length + 1 < nMax
    rw [List.length_append]
    exact room
  · show (UInt32.ofNat before.length).toNat < (UInt32.ofNat (before ++ [backslash]).length + 1).toNat
    rw [index_succ _ c, here, beyond, List.length_append, List.length_append]
    exact Nat.lt_succ_of_le (Nat.le_add_right ..)
  · show Runs line ⟨UInt32.ofNat (before ++ [backslash]).length + 1, _, _, _, _⟩ result
    rw [index_succ _ c, ← two]
    exact rest

theorem Runs.take (split : line = before ++ c :: after)
    (takes : ∀ s : Scanner, s.mode = mode → scanChar line s c = put s c) (room : front.length + 2 < nMax)
    (rest : Runs line (reading (before ++ [c]) mode (front ++ [c]) back done) result) :
    Runs line (reading before mode front (b :: back) done) result := by
  refine .next short split ((takes _ rfl).trans (put_reading _)) ?_ rest
  rw [List.length_append]
  exact room

theorem Runs.quoted (inner : Quoted closing text part)
    (quotes : ∀ s : Scanner, s.mode = mode → scanChar line s = scanQuoted line closing s)
    (split : line = before ++ (text ++ after)) (room : (front ++ part).length + 1 < nMax)
    (length : used.length = part.length)
    (rest : Runs line (reading (before ++ text) mode (front ++ part) back done) result) :
    Runs line (reading before mode front (used ++ back) done) result := by
  induction inner generalizing before front used with
  | nil =>
      cases List.length_eq_zero_iff.mp length
      rw [List.append_nil, List.append_nil] at rest
      exact rest
  | @plain c text part other solid inner ih =>
      obtain ⟨b, used, rfl⟩ := List.exists_cons_of_length_eq_add_one length
      rw [List.append_cons front] at rest room
      have one := ih (split.trans (List.append_cons ..)) room (Nat.succ.inj length) (List.append_cons before .. ▸ rest)
      refine .take short split (fun s in_mode => ?_) ?_ one
      · rw [quotes s in_mode, scanQuoted, if_neg other, if_neg solid]
      · simp only [List.length_append, List.length_singleton] at room
        omega
  | @escaped c text part inner ih =>
      obtain ⟨b, used, rfl⟩ := List.exists_cons_of_length_eq_add_one length
      rw [List.append_cons front] at rest room
      have split' : line = (before ++ [backslash, c]) ++ (text ++ after) := split.trans (by simp)
      have one := ih split' room (Nat.succ.inj length) (by simpa using rest)
      refine .escape short split ?_ one
      simp only [List.length_append, List.length_singleton] at room
      omega

theorem Runs.segment (mode : Mode) {inner : Str} (quoted : Quoted closing inner part)
    (quotes : ∀ s : Scanner, s.mode = mode → scanChar line s = scanQuoted line closing s)
    (opens : ∀ s : Scanner, s.mode = .normal → scanChar line s closing = .ok { s with mode })
    (split : line = before ++ (closing :: inner ++ closing :: text ++ after))
    (room : (front ++ (part ++ word)).length + 1 < nMax) (length : used.length = (part ++ word).length)
    (behind : ∀ used : Str, used.length = word.length →
      Runs line (reading (before ++ (closing :: inner ++ [closing])) .normal (front ++ part) (used ++ back) done)
        result) :
    Runs line (reading before .normal front (used ++ back) done) result := by
  obtain ⟨used₁, used₂, rfl, length₁, length₂⟩ := exists_append_of_length (length.trans List.length_append)
  have inside : line = (before ++ [closing]) ++ (inner ++ closing :: (text ++ after)) := split.trans (by simp)
  have last : line = (before ++ [closing] ++ inner) ++ closing :: (text ++ after) := inside.trans (by simp)
  have room' : (front ++ part).length + 1 < nMax := by
    simp only [List.length_append] at room ⊢
    omega
  have passes : scanChar line (reading (before ++ [closing] ++ inner) mode (front ++ part) (used₂ ++ back) done)
      closing = .ok (reading (before ++ [closing] ++ inner) .normal (front ++ part) (used₂ ++ back) done) :=
    (congrFun (quotes _ rfl) closing).trans (if_pos rfl)
  have rest := behind used₂ length₂
  have closes : Runs line (reading (before ++ [closing] ++ inner) mode (front ++ part) (used₂ ++ back) done) result :=
    .next short last passes room' (by simpa using rest)
  rw [List.append_assoc]
  refine .next short split (opens _ rfl) ?_ (.quoted short quoted quotes inside room' length₁ closes)
  rw [List.length_append] at room'
  omega

theorem Runs.encoded (encoded : Encodes text word) (split : line = before ++ (text ++ after))
    (room : (front ++ word).length + 1 < nMax) (length : used.length = word.length)
    (rest : Runs line (reading (before ++ text) .normal (front ++ word) back done) result) :
    Runs line (reading before .normal front (used ++ back) done) result := by
  induction encoded generalizing before front used with
  | nil =>
      cases List.length_eq_zero_iff.mp length
      rw [List.append_nil, List.append_nil] at rest
      exact rest
  | @plain c text word plain encoded ih =>
      obtain ⟨b, used, rfl⟩ := List.exists_cons_of_length_eq_add_one length
      rw [List.append_cons front] at rest room
      have one := ih (split.trans (List.append_cons ..)) room (Nat.succ.inj length) (List.append_cons before .. ▸ rest)
      refine .take short split (fun s in_mode => ?_) ?_ one
      · obtain ⟨not_space, not_quote, not_dquote, not_backslash⟩ := plain
        rw [scanChar, in_mode]
        simp only [if_neg not_quote, if_neg not_dquote, if_neg not_backslash, not_space, Bool.false_eq_true, if_false]
      · simp only [List.length_append, List.length_singleton] at room
        omega
  | @escaped c text word encoded ih =>
      obtain ⟨b, used, rfl⟩ := List.exists_cons_of_length_eq_add_one length
      rw [List.append_cons front] at rest room
      have split' : line = (before ++ [backslash, c]) ++ (text ++ after) := split.trans (by simp)
      have one := ih split' room (Nat.succ.inj length) (by simpa using rest)
      refine .escape short split ?_ one
      simp only [List.length_append, List.length_singleton] at room
      omega
  | @single inner part text word quoted encoded ih =>
      refine .segment short .squote quoted (fun s in_mode => ?_) (fun s in_mode => ?_) split room length
        fun used length => ?_
      · funext c
        rw [scanChar, in_mode]
      · rw [scanChar, in_mode]
        rfl
      · rw [← List.append_assoc] at rest room
        exact ih (split.trans (by simp)) room length (by simpa using rest)
  | @double inner part text word quoted encoded ih =>
      refine .segment short .dquote quoted (fun s in_mode => ?_) (fun s in_mode => ?_) split room length
        fun used length => ?_
      · funext c
        rw [scanChar, in_mode]
      · rw [scanChar, in_mode]
        rfl
      · rw [← List.append_assoc] at rest room
        exact ih (split.trans (by simp)) room length (by simpa using rest)

end Passes

section Lines

/-- The word put together so far, if there is one. -/
def pending (front : Str) : List Str := if front = [] then [] else [front]

theorem pending_nil : pending [] = [] := rfl

theorem pending_word (some_chars : word ≠ []) : pending word = [word] := if_neg some_chars

theorem room_behind (size : (front ++ back).length = nMax) (fits : front.length ≤ 4094) : back ≠ [] := by
  rintro rfl
  rw [List.append_nil] at size
  exact absurd fits (size ▸ by decide)

theorem flush_reading (solid : 0 ∉ front) (room : back ≠ []) :
    ∃ back', (front ++ back).length = back'.length ∧
      flush (reading before mode front back done) = .ok (reading before mode [] back' (done ++ pending front)) := by
  by_cases none_yet : front = []
  · subst none_yet
    exact ⟨back, rfl, by rw [pending_nil, List.append_nil]; rfl⟩
  obtain ⟨b, back, rfl⟩ := List.exists_cons_of_ne_nil room
  refine ⟨front ++ 0 :: back, ?_, ?_⟩
  · rw [List.length_append, List.length_append]
    rfl
  · have copied : copyWord (front ++ b :: back) front.length = .ok (front ++ 0 :: back, front) := by
      rw [copyWord, CArray.store_append, ok_bind, CArray.string_append solid]
      rfl
    have some_chars : 0 < front.length := List.length_pos_of_ne_nil none_yet
    rw [flush, reading, if_pos some_chars, copied, pending_word none_yet]
    rfl

theorem scanChar_space (space : isSpace c = true) (normal : s.mode = .normal) : scanChar line s c = flush s := by
  have other : ∀ d, isSpace d = false → c ≠ d := fun d solid same => by rw [same, solid] at space; cases space
  rw [scanChar, normal]
  simp only [if_neg (other quote rfl), if_neg (other dquote rfl), if_neg (other backslash rfl), if_pos space]

theorem Encodes.head (encoded : Encodes text word) (some_chars : word ≠ []) :
    ∃ c, text.head? = some c ∧ isSpace c = false := by
  cases encoded with
  | nil => exact absurd rfl some_chars
  | plain plain => exact ⟨_, rfl, plain.1⟩
  | escaped => exact ⟨backslash, rfl, rfl⟩
  | single => exact ⟨quote, rfl, rfl⟩
  | double => exact ⟨dquote, rfl, rfl⟩

/-- Behind white space, or at a space or the end behind a word, the words still to come follow
those so far. -/
theorem Runs.encodedAll (short : line.length < 2 ^ 32) (all : EncodesAll text words)
    (solid : ∀ word ∈ words, word.length ≤ 4094 ∧ 0 ∉ word) (split : line = before ++ text)
    (size : (front ++ back).length = nMax) (fits : front.length ≤ 4094 ∧ 0 ∉ front)
    (ends : front ≠ [] → ∀ c, text.head? = some c → isSpace c) :
    ∃ s, Runs line (reading before .normal front back done) (.ok s) ∧
      (flush s).map (·.tokens) = .ok (done ++ pending front ++ words) := by
  induction all generalizing before front back done with
  | nil =>
      obtain ⟨back', -, flushed⟩ := flush_reading fits.2 (room_behind size fits.1)
      refine ⟨reading before .normal front back done, .last ?_, ?_⟩
      · show line.length ≤ (UInt32.ofNat before.length).toNat
        rw [toNat_index short split, split, List.append_nil]
      · rw [flushed, List.append_nil]
        rfl
  | @space c text words space all ih =>
      obtain ⟨back', size', flushed⟩ := flush_reading fits.2 (room_behind size fits.1)
      obtain ⟨s, rest, result⟩ := @ih (before ++ [c]) [] back' _ solid (split.trans (List.append_cons ..))
        (size'.symm.trans size) ⟨Nat.zero_le _, List.not_mem_nil⟩ (fun some_chars => absurd rfl some_chars)
      refine ⟨s, .next short split ((scanChar_space space rfl).trans flushed) (by decide) rest, ?_⟩
      rw [result, pending_nil, List.append_nil]
  | @word text word rest words encoded some_chars stops all ih =>
      obtain ⟨c, first, not_space⟩ := encoded.head some_chars
      have none_yet : front = [] := by
        by_contra some_front
        have space := ends some_front c (by rw [List.head?_append, first]; rfl)
        rw [not_space] at space
        cases space
      subst none_yet
      obtain ⟨fits', solid'⟩ := List.forall_mem_cons.mp solid
      rw [List.nil_append] at size
      have enough : back.length = word.length + (back.length - word.length) :=
        (Nat.add_sub_of_le (by rw [size]; exact Nat.le_trans fits'.1 (by decide))).symm
      obtain ⟨used, back, rfl, length, -⟩ := exists_append_of_length enough
      have size' : (word ++ back).length = nMax := by
        rw [List.length_append, ← length, ← List.length_append]
        exact size
      obtain ⟨s, behind, result⟩ := ih solid' (split.trans (List.append_assoc ..).symm) size' fits' fun _ => stops
      refine ⟨s, .encoded short encoded split ?_ length behind, ?_⟩
      · exact Nat.lt_of_le_of_lt (Nat.succ_le_succ fits'.1) (by decide)
      · rw [result, pending_word some_chars, pending_nil, List.append_nil, List.append_assoc]
        rfl

/-- Words written in a line in any way are the words it is cut into, where the index reaches
the end of the line. -/
theorem tokenize_encoded {fuel : Nat} (token : Vector UInt8 nMax) (all : EncodesAll line words)
    (solid : ∀ word ∈ words, word.length ≤ 4094 ∧ 0 ∉ word) (short : line.length < 2 ^ 32)
    (enough : line.length < fuel) : tokenize token fuel line = .ok words := by
  obtain ⟨s, run, result⟩ := @Runs.encodedAll line [] line [] token.toList words [] short all solid rfl
    Vector.length_toList ⟨Nat.zero_le _, List.not_mem_nil⟩ (fun some_chars => absurd rfl some_chars)
  have scanned : scan line fuel ⟨0, .normal, token.toList, 0, []⟩ = .ok s :=
    run fuel (Nat.lt_of_le_of_lt (Nat.sub_le ..) enough)
  rw [tokenize, scanned, ok_bind]
  obtain ⟨s', flushed, made⟩ := map_ok result
  rw [flushed, ok_bind]
  exact congrArg Except.ok made

/-- `'a b'c "\"" ` -/
def twoWords : Str := [0x27, 0x61, 0x20, 0x62, 0x27, 0x63, 0x20, 0x22, 0x5c, 0x22, 0x22, 0x20]

theorem encodesAll_twoWords : EncodesAll twoWords [[0x61, 0x20, 0x62, 0x63], [0x22]] := by
  have inner : Quoted quote [0x61, 0x20, 0x62] [0x61, 0x20, 0x62] :=
    .plain (by decide) (by decide) (.plain (by decide) (by decide) (.plain (by decide) (by decide) .nil))
  have first : Encodes [0x27, 0x61, 0x20, 0x62, 0x27, 0x63] [0x61, 0x20, 0x62, 0x63] :=
    .single inner (.plain (by decide) .nil)
  have second : Encodes [0x22, 0x5c, 0x22, 0x22] [0x22] := .double (.escaped .nil) .nil
  have last : EncodesAll [0x22, 0x5c, 0x22, 0x22, 0x20] [[0x22]] :=
    .word second (by decide) (by rintro c ⟨⟩; rfl) (.space rfl .nil)
  exact .word first (by decide) (by rintro c ⟨⟩; rfl) (.space rfl last)

theorem tokenize_encoded_twoWords :
    tokenize (.replicate nMax 0) 13 twoWords = .ok [[0x61, 0x20, 0x62, 0x63], [0x22]] :=
  tokenize_encoded _ encodesAll_twoWords (by decide) (by decide) (by decide)

theorem scan_ne_ok (long : 2 ^ 32 ≤ line.length) (fuel : Nat) (s : Scanner) : scan line fuel s ≠ .ok s' := by
  induction fuel generalizing s with
  | zero => nofun
  | succ fuel ih =>
      have inside : s.i.toNat < line.length := Nat.lt_of_lt_of_le s.i.toNat_lt long
      intro ended
      rw [scan, if_pos inside] at ended
      obtain ⟨s₁, -, rest⟩ := bind_eq_ok ended
      split at rest
      · cases rest
      · exact ih _ rest

theorem tokenize_ne_ok (token : Vector UInt8 nMax) (long : 2 ^ 32 ≤ line.length) (fuel : Nat) :
    tokenize token fuel line ≠ .ok words := by
  intro ended
  obtain ⟨s, scanned, -⟩ := bind_eq_ok ended
  exact scan_ne_ok long fuel _ scanned

/-- One letter, and so many spaces. -/
def spacedLine (n : Nat) : Str := 0x61 :: List.replicate n 0x20

theorem encodesAll_spacedLine (n : Nat) : EncodesAll (spacedLine n) [[0x61]] := by
  have spaces : EncodesAll (List.replicate n 0x20) [] := by
    induction n with
    | zero => exact .nil
    | succ n ih => exact .space rfl ih
  have letter : Encodes [0x61] [0x61] := .plain (by decide) .nil
  refine .word letter (by decide) (fun c first => ?_) spaces
  rw [List.head?_replicate] at first
  split at first
  · cases first
  · cases first
    rfl

/-- With more spaces behind it than the index counts, a word is not returned. -/
theorem not_tokenize_spacedLine :
    ¬ ∀ (line : Str) (words : List Str), EncodesAll line words → (∀ word ∈ words, word.length ≤ 4094 ∧ 0 ∉ word) →
      ∃ fuel, tokenize (.replicate nMax 0) fuel line = .ok words := by
  intro always
  obtain ⟨fuel, ended⟩ := always _ _ (encodesAll_spacedLine (2 ^ 32)) (by decide)
  have long : 2 ^ 32 ≤ (spacedLine (2 ^ 32)).length := by
    rw [spacedLine, List.length_cons, List.length_replicate]
    exact Nat.le_succ _
  exact tokenize_ne_ok _ long fuel ended

end Lines
section Ends

/-- The array at its length, with room for a character and for the zero behind. -/
def Fits (s : Scanner) : Prop := s.token.length = nMax ∧ s.n + 1 < nMax

/-- What a pass does at most: the index may have moved on by one, within the line. -/
def Passed (line : Str) (s s' : Scanner) : Prop :=
  s'.token.length = nMax ∧ (s'.i = s.i ∨ s'.i = s.i + 1 ∧ (s.i + 1).toNat < line.length)

theorem put_ends (fits : Fits s) :
    Ends (fun _ => False) (fun s' => s'.token.length = nMax ∧ s'.i = s.i) (put s c) := by
  have room : s.n < s.token.length := by
    rw [fits.1]
    exact Nat.lt_of_succ_lt fits.2
  rw [put, CArray.store, if_pos room]
  exact .ok ⟨(List.length_set ..).trans fits.1, rfl⟩

theorem escape_ends (fits : Fits s) : Ends (fun _ => False) (Passed line s) (escape line s) := by
  refine .ite (fun inside => ?_) fun _ => .ok ⟨fits.1, .inl rfl⟩
  have moved : Fits { s with i := s.i + 1 } := fits
  exact (put_ends moved).imp (fun _ no => no) fun s' done => ⟨done.1, .inr ⟨done.2, inside⟩⟩

theorem copyWord_ok {source : CArray} {n : Nat} (room : n < source.length) :
    ∃ word, copyWord source n = .ok (source.set n 0, word) := by
  obtain ⟨word, string⟩ := CArray.string_of_mem (List.mem_set room 0)
  refine ⟨word, ?_⟩
  rw [copyWord, CArray.store, if_pos room, ok_bind, string]
  rfl

theorem flush_ends (fits : Fits s) : Ends (fun _ => False) (Passed line s) (flush s) := by
  refine .ite (fun _ => ?_) fun _ => .ok ⟨fits.1, .inl rfl⟩
  have room : s.n < s.token.length := by
    rw [fits.1]
    exact Nat.lt_of_succ_lt fits.2
  obtain ⟨word, copied⟩ := copyWord_ok room
  rw [copied]
  exact .ok ⟨(List.length_set ..).trans fits.1, .inl rfl⟩

theorem scanChar_ends (fits : Fits s) : Ends (fun _ => False) (Passed line s) (scanChar line s c) := by
  have same : Passed line s s := ⟨fits.1, .inl rfl⟩
  have taken : Ends (fun _ => False) (Passed line s) (put s c) :=
    (put_ends fits).imp (fun _ no => no) fun s' done => ⟨done.1, .inl done.2⟩
  have quoted : ∀ closing, Ends (fun _ => False) (Passed line s) (scanQuoted line closing s c) := fun closing =>
    .ite (fun _ => .ok same) fun _ => .ite (fun _ => escape_ends fits) fun _ => taken
  rw [scanChar]
  cases s.mode with
  | normal =>
      refine .ite (fun _ => .ok same) fun _ => .ite (fun _ => .ok same) fun _ => ?_
      exact .ite (fun _ => escape_ends fits) fun _ => .ite (fun _ => flush_ends fits) fun _ => taken
  | squote => exact quoted quote
  | dquote => exact quoted dquote

theorem toNat_succ {i : UInt32} (short : i.toNat + 1 < 2 ^ 32) : (i + 1).toNat = i.toNat + 1 := by
  rw [UInt32.toNat_add]
  exact Nat.mod_eq_of_lt short

theorem scan_ends (short : line.length < 2 ^ 32) (fits : Fits s) {fuel : Nat}
    (enough : line.length - s.i.toNat < fuel) : Ends (· = .aborted) Fits (scan line fuel s) := by
  induction fuel generalizing s with
  | zero => exact absurd enough (Nat.not_lt_zero _)
  | succ fuel ih =>
      refine .ite (fun inside => ?_) fun _ => .ok fits
      refine .bind ((scanChar_ends fits).imp (fun _ no => no.elim) fun _ done => done) fun s' passed => ?_
      refine .ite (fun _ => .error rfl) fun room => ih ⟨passed.1, Nat.lt_of_not_le room⟩ ?_
      have next : (s.i + 1).toNat = s.i.toNat + 1 := toNat_succ (Nat.lt_of_le_of_lt inside short)
      show line.length - (s'.i + 1).toNat < fuel
      obtain same | ⟨same, inside'⟩ := passed.2
      · rw [same, next]
        omega
      · rw [same, toNat_succ (Nat.lt_of_le_of_lt inside' short), next]
        omega

theorem tokenize_ends {fuel : Nat} (token : Vector UInt8 nMax) (short : line.length < 2 ^ 32)
    (enough : line.length < fuel) : Ends (· = .aborted) (fun _ => True) (tokenize token fuel line) := by
  have fits : Fits ⟨0, .normal, token.toList, 0, []⟩ :=
    ⟨Vector.length_toList, (by decide : 0 + 1 < nMax)⟩
  refine .bind (scan_ends short fits enough) fun s fits => ?_
  have last : Ends (· = Stop.aborted) (Passed line s) (flush s) :=
    (flush_ends fits).imp (fun _ no => no.elim) fun _ done => done
  exact last.bind fun s _ => .ok trivial

end Ends
end Tokenizer
end CS162.Shell
