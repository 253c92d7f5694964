import Mathlib.Data.List.Forall2
import CS162.Library.CString

/-!
Strings taken apart at delimiters (proj-pregame: `strchr` and `strtok_r` of lib/string.c). The
string is somewhere in an array, the delimiters are in another one; pointers are indices, and a
read or a write outside of an array is a fault.
-/

namespace CS162.Pintos.Strings
open CS162.Library CArray

section Model

def strchr : CArray → UInt8 → Except OutOfBounds (Option Nat)
  | [], _ => .error .read
  | d :: string, c =>
      if d = c then .ok (some 0)
      else if d = 0 then .ok none
      else (strchr string c).map (Option.map (· + 1))

/-- The first loop of `strtok_r`: how many delimiters are skipped, and whether the string ends
behind them. -/
def skipDelimiters (delimiters : CArray) : CArray → Except OutOfBounds (Nat × Bool)
  | [] => .error .read
  | c :: s => do
      let found ← strchr delimiters c
      if found = none then return (0, false)
      else if c = 0 then return (0, true)
      else
        let (n, ended) ← skipDelimiters delimiters s
        return (n + 1, ended)

/-- The second loop. -/
def tokenLength (delimiters : CArray) : CArray → Except OutOfBounds Nat
  | [] => .error .read
  | c :: s => do
      let found ← strchr delimiters c
      if found = none then
        let n ← tokenLength delimiters s
        return n + 1
      else return 0

/-- `strtok_r`: the token, `*save_ptr`, and the array with the string. -/
def strtokR (a : CArray) (s : Option Nat) (delimiters : CArray) (savePtr : Nat) :
    Except OutOfBounds (Option Nat × Nat × CArray) := do
  let s := s.getD savePtr
  let (skipped, ended) ← skipDelimiters delimiters (a.drop s)
  let token := s + skipped
  if ended then return (none, token, a)
  else
    let n ← tokenLength delimiters (a.drop token)
    let c ← load a (token + n)
    if c ≠ 0 then
      let a ← store a (token + n) 0
      return (some token, token + n + 1, a)
    else return (some token, token + n, a)

/-- One call after the other, each with its own delimiters; `s` is null from the second on. -/
def strtokCalls : CArray → Option Nat → (savePtr : Nat) → List CArray →
    Except OutOfBounds (List (Option Nat) × CArray)
  | a, _, _, [] => .ok ([], a)
  | a, s, savePtr, delimiters :: more => do
      let (token, savePtr, a) ← strtokR a s delimiters savePtr
      let (tokens, a) ← strtokCalls a none savePtr more
      return (token :: tokens, a)

end Model

section Specification

/-- The first token of a text, and what is behind the delimiter that ends it. -/
def nextToken (delimiters text : List UInt8) : Option (List UInt8 × List UInt8) :=
  let text := text.dropWhile (· ∈ delimiters)
  if text = [] then none
  else some (text.takeWhile (· ∉ delimiters), (text.dropWhile (· ∉ delimiters)).drop 1)

/-- The tokens of a text, each with respect to its own delimiters. -/
def tokensBy : (text : List UInt8) → List (List UInt8) → List (Option (List UInt8))
  | _, [] => []
  | text, delimiters :: more =>
      (nextToken delimiters text).map Prod.fst :: tokensBy (((nextToken delimiters text).map Prod.snd).getD []) more

/-- There is no token, or it can be read as a string. -/
def Reads (a : CArray) (token : Option Nat) (word : Option (List UInt8)) : Prop :=
  (token = none ∧ word = none) ∨ ∃ p w, token = some p ∧ word = some w ∧ string (a.drop p) = .ok w

end Specification

section Loops
variable {delimiters text front back word rest : List UInt8} {d a : CArray} {c : UInt8}

theorem exists_of_string (read : string d = .ok delimiters) :
    0 ∉ delimiters ∧ ∃ junk, d = delimiters ++ 0 :: junk := by
  by_cases ends : (0 : UInt8) ∈ d
  · obtain ⟨l, junk, rfl, solid⟩ := List.eq_append_cons_of_mem ends
    cases (string_append solid).symm.trans read
    exact ⟨solid, junk, rfl⟩
  · cases (string_of_solid ends).symm.trans read

theorem strchr_string (read : string d = .ok delimiters) (c : UInt8) :
    ∃ found, strchr d c = .ok found ∧ (found = none ↔ c ≠ 0 ∧ c ∉ delimiters) := by
  obtain ⟨solid, junk, rfl⟩ := exists_of_string read
  clear read
  induction delimiters with
  | nil =>
      rw [List.nil_append, strchr]
      by_cases zero : c = 0
      · rw [if_pos zero.symm]
        exact ⟨_, rfl, by simp [zero]⟩
      · rw [if_neg (Ne.symm zero), if_pos rfl]
        exact ⟨_, rfl, by simp [zero]⟩
  | cons e delimiters ih =>
      rw [List.mem_cons, not_or] at solid
      rw [List.cons_append, strchr]
      by_cases here : e = c
      · rw [if_pos here]
        exact ⟨_, rfl, by simp [here]⟩
      · obtain ⟨found, ran, none_iff⟩ := ih solid.2
        rw [if_neg here, if_neg (Ne.symm solid.1), ran]
        refine ⟨_, rfl, ?_⟩
        rw [Option.map_eq_none_iff, none_iff, List.mem_cons, not_or]
        exact ⟨fun ⟨zero, other⟩ => ⟨zero, Ne.symm here, other⟩, fun ⟨zero, _, other⟩ => ⟨zero, other⟩⟩

theorem skipDelimiters_eq (read : string d = .ok delimiters) (solid : 0 ∉ text) :
    skipDelimiters d (text ++ 0 :: back) =
      .ok ((text.takeWhile (· ∈ delimiters)).length, decide (text.dropWhile (· ∈ delimiters) = [])) := by
  induction text with
  | nil =>
      obtain ⟨found, ran, none_iff⟩ := strchr_string read 0
      have some : found ≠ none := fun none => (none_iff.mp none).1 rfl
      rw [List.nil_append, skipDelimiters, ran, ok_bind, if_neg some, if_pos rfl]
      rfl
  | cons c text ih =>
      rw [List.mem_cons, not_or] at solid
      obtain ⟨found, ran, none_iff⟩ := strchr_string read c
      rw [List.cons_append, skipDelimiters, ran, ok_bind]
      by_cases inside : c ∈ delimiters
      · have some : found ≠ none := fun none => (none_iff.mp none).2 inside
        rw [if_neg some, if_neg (Ne.symm solid.1), ih solid.2]
        simp only [List.takeWhile_cons, List.dropWhile_cons, inside, decide_true, if_true]
        rfl
      · rw [if_pos (none_iff.mpr ⟨Ne.symm solid.1, inside⟩)]
        simp [inside, pure, Except.pure]

theorem tokenLength_eq (read : string d = .ok delimiters) (solid : 0 ∉ text) :
    tokenLength d (text ++ 0 :: back) = .ok (text.takeWhile (· ∉ delimiters)).length := by
  induction text with
  | nil =>
      obtain ⟨found, ran, none_iff⟩ := strchr_string read 0
      have some : found ≠ none := fun none => (none_iff.mp none).1 rfl
      rw [List.nil_append, tokenLength, ran, ok_bind, if_neg some]
      rfl
  | cons c text ih =>
      rw [List.mem_cons, not_or] at solid
      obtain ⟨found, ran, none_iff⟩ := strchr_string read c
      rw [List.cons_append, tokenLength, ran, ok_bind]
      by_cases inside : c ∈ delimiters
      · have some : found ≠ none := fun none => (none_iff.mp none).2 inside
        rw [if_neg some]
        simp [inside, pure, Except.pure]
      · rw [if_pos (none_iff.mpr ⟨Ne.symm solid.1, inside⟩), ih solid.2]
        simp only [List.takeWhile_cons, inside, not_false_eq_true, decide_true, if_true, List.length_cons]
        rfl

end Loops

section Longer
variable {d a a' : CArray} {s token : Option Nat} {savePtr save : Nat}

theorem skipDelimiters_append {r : Nat × Bool} (ran : skipDelimiters d a = .ok r) (back : CArray) :
    skipDelimiters d (a ++ back) = .ok r := by
  induction a generalizing r with
  | nil => cases ran
  | cons c a ih =>
      rw [skipDelimiters] at ran
      obtain ⟨found, one, ran⟩ := bind_eq_ok ran
      rw [List.cons_append, skipDelimiters, one, ok_bind]
      by_cases outside : found = none
      · rw [if_pos outside] at ran ⊢
        exact ran
      · rw [if_neg outside] at ran ⊢
        by_cases zero : c = 0
        · rw [if_pos zero] at ran ⊢
          exact ran
        · rw [if_neg zero] at ran ⊢
          obtain ⟨more, two, ran⟩ := bind_eq_ok ran
          rw [ih two, ok_bind]
          exact ran

theorem tokenLength_append {n : Nat} (ran : tokenLength d a = .ok n) (back : CArray) :
    tokenLength d (a ++ back) = .ok n := by
  induction a generalizing n with
  | nil => cases ran
  | cons c a ih =>
      rw [tokenLength] at ran
      obtain ⟨found, one, ran⟩ := bind_eq_ok ran
      rw [List.cons_append, tokenLength, one, ok_bind]
      by_cases outside : found = none
      · rw [if_pos outside] at ran ⊢
        obtain ⟨m, two, ran⟩ := bind_eq_ok ran
        rw [ih two, ok_bind]
        exact ran
      · rw [if_neg outside] at ran ⊢
        exact ran

theorem drop_append_of_ne_nil {p : Nat} (some : a.drop p ≠ []) (back : CArray) :
    (a ++ back).drop p = a.drop p ++ back := by
  rw [Ne, List.drop_eq_nil_iff, Nat.not_le] at some
  exact List.drop_append_of_le_length (Nat.le_of_lt some)

theorem load_extend {i : Nat} {c : UInt8} (ran : load a i = .ok c) (back : CArray) : load (a ++ back) i = .ok c := by
  rw [load] at ran ⊢
  cases here : a[i]? with
  | none =>
      rw [here] at ran
      cases ran
  | some b =>
      rw [here] at ran
      rw [List.getElem?_append_left (List.getElem?_eq_some_iff.mp here).1, here]
      exact ran

theorem store_extend {i : Nat} {c : UInt8} (ran : store a i c = .ok a') (back : CArray) :
    store (a ++ back) i c = .ok (a' ++ back) := by
  have inside := (lt_of_store ran).1
  rw [store, if_pos inside] at ran
  cases ran
  have inside' : i < (a ++ back).length := by
    rw [List.length_append]
    omega
  rw [store, if_pos inside', List.set_append_left _ _ inside]

theorem strtokR_append (ran : strtokR a s d savePtr = .ok (token, save, a')) (back : CArray) :
    strtokR (a ++ back) s d savePtr = .ok (token, save, a' ++ back) := by
  rw [strtokR] at ran ⊢
  obtain ⟨⟨skipped, ended⟩, one, ran⟩ := bind_eq_ok ran
  have some : a.drop (s.getD savePtr) ≠ [] := by
    intro nothing
    rw [nothing] at one
    cases one
  rw [drop_append_of_ne_nil some, skipDelimiters_append one, ok_bind]
  cases ended with
  | true =>
      cases ran
      rfl
  | false =>
      simp only [Bool.false_eq_true, if_false] at ran ⊢
      obtain ⟨n, two, ran⟩ := bind_eq_ok ran
      have some' : a.drop (s.getD savePtr + skipped) ≠ [] := by
        intro nothing
        rw [nothing] at two
        cases two
      rw [drop_append_of_ne_nil some', tokenLength_append two, ok_bind]
      obtain ⟨c, three, ran⟩ := bind_eq_ok ran
      rw [load_extend three, ok_bind]
      by_cases zero : c = 0
      · rw [if_neg (not_not_intro zero)] at ran ⊢
        cases ran
        rfl
      · rw [if_pos zero] at ran ⊢
        obtain ⟨a₁, four, ran⟩ := bind_eq_ok ran
        cases ran
        rw [store_extend four, ok_bind]
        rfl

end Longer

section Calls
variable {delimiters text text' front back w rest : List UInt8} {d a : CArray} {s : Option Nat} {savePtr : Nat}
  {sets : List (List UInt8)}

theorem strtokR_none (back : List UInt8) (read : string d = .ok delimiters) (solid : 0 ∉ text)
    (at_ : s.getD savePtr = front.length)
    (last : nextToken delimiters text = none) :
    strtokR (front ++ text ++ 0 :: back) s d savePtr =
      .ok (none, (front ++ text).length, front ++ text ++ 0 :: back) := by
  have empty : text.dropWhile (· ∈ delimiters) = [] := by
    by_contra more
    rw [nextToken, if_neg more] at last
    cases last
  have all : text.takeWhile (· ∈ delimiters) = text := by
    have split := List.takeWhile_append_dropWhile (p := fun c => decide (c ∈ delimiters)) (l := text)
    rwa [empty, List.append_nil] at split
  rw [strtokR, at_, List.append_assoc, List.drop_left, skipDelimiters_eq read solid, ok_bind, all, empty]
  simp only [decide_true, if_true, List.length_append]
  rfl

/-- A text with a token: what is skipped, the token, and the delimiter behind it, unless the text ends. -/
theorem nextToken_eq_some (found : nextToken delimiters text = some (w, rest)) :
    ∃ skipped tail, text = skipped ++ (w ++ tail) ∧ w ≠ [] ∧ text.takeWhile (· ∈ delimiters) = skipped ∧
      text.dropWhile (· ∈ delimiters) = w ++ tail ∧ (w ++ tail).takeWhile (· ∉ delimiters) = w ∧
      (tail = [] ∧ rest = [] ∨ ∃ c ∈ delimiters, tail = c :: rest) := by
  rw [nextToken] at found
  split at found
  next => cases found
  next more =>
    cases found
    have begins := List.head?_dropWhile_not (fun c => decide (c ∈ delimiters)) text
    generalize body : text.dropWhile (fun c => decide (c ∈ delimiters)) = l at *
    have whole := List.takeWhile_append_dropWhile (p := fun c => decide (c ∈ delimiters)) (l := text)
    have split := List.takeWhile_append_dropWhile (p := fun c => decide (c ∉ delimiters)) (l := l)
    have ends := List.head?_dropWhile_not (fun c => decide (c ∉ delimiters)) l
    rw [body] at whole
    refine ⟨_, l.dropWhile (· ∉ delimiters), ?_, ?_, rfl, ?_, ?_, ?_⟩
    · rw [split]
      exact whole.symm
    · cases l with
      | nil => exact absurd rfl more
      | cons c l =>
          have outside : c ∉ delimiters := by simpa using begins
          simp [outside]
    · rw [split]
    · rw [split]
    · cases tail : l.dropWhile (· ∉ delimiters) with
      | nil => exact .inl ⟨rfl, rfl⟩
      | cons c rest =>
          rw [tail] at ends
          exact .inr ⟨c, by simpa using ends, rfl⟩

theorem strtokR_some (back : List UInt8) (read : string d = .ok delimiters) (solid : 0 ∉ text)
    (at_ : s.getD savePtr = front.length)
    (found : nextToken delimiters text = some (w, rest)) :
    ∃ skipped, text = skipped ++ w ∧ rest = [] ∧
        strtokR (front ++ text ++ 0 :: back) s d savePtr =
          .ok (some (front ++ skipped).length, (front ++ skipped ++ w).length, front ++ text ++ 0 :: back) ∨
      ∃ c ∈ delimiters, text = skipped ++ w ++ c :: rest ∧
        strtokR (front ++ text ++ 0 :: back) s d savePtr =
          .ok (some (front ++ skipped).length, (front ++ skipped ++ w ++ [0]).length,
            front ++ skipped ++ w ++ 0 :: (rest ++ 0 :: back)) := by
  obtain ⟨skipped, tail, split, more, skip, body, word, ends⟩ := nextToken_eq_some found
  have array : front ++ text ++ 0 :: back = front ++ skipped ++ (w ++ tail ++ 0 :: back) := by
    rw [split]
    simp only [List.append_assoc]
  have array' : front ++ text ++ 0 :: back = front ++ skipped ++ w ++ (tail ++ 0 :: back) := by
    rw [array]
    simp only [List.append_assoc]
  have inner : 0 ∉ w ++ tail := by
    rw [split] at solid
    exact fun inside => solid (List.mem_append_right _ inside)
  have first : skipDelimiters d ((front ++ text ++ 0 :: back).drop (s.getD savePtr)) =
      .ok (skipped.length, false) := by
    have whole : w ++ tail ≠ [] := fun empty => more (List.append_eq_nil_iff.mp empty).1
    rw [at_, List.append_assoc, List.drop_left, skipDelimiters_eq read solid, skip, body, decide_eq_false whole]
  have second : tokenLength d ((front ++ text ++ 0 :: back).drop (front ++ skipped).length) = .ok w.length := by
    rw [array, List.drop_left, tokenLength_eq read inner, word]
  have token : front.length + skipped.length = (front ++ skipped).length := List.length_append.symm
  have place : (front ++ skipped).length + w.length = (front ++ skipped ++ w).length := List.length_append.symm
  refine ⟨skipped, ends.imp ?_ ?_⟩
  · rintro ⟨rfl, rfl⟩
    rw [List.append_nil] at split
    have stop : load (front ++ text ++ 0 :: back) (front ++ skipped ++ w).length = .ok 0 := by
      rw [array']
      exact load_append
    refine ⟨split, rfl, ?_⟩
    rw [strtokR, first, ok_bind]
    simp only [at_, token, Bool.false_eq_true, if_false]
    rw [second, ok_bind, place, stop]
    rfl
  · rintro ⟨c, inside, rfl⟩
    have stop : load (front ++ text ++ 0 :: back) (front ++ skipped ++ w).length = .ok c := by
      rw [array']
      exact load_append
    have nonzero : c ≠ 0 := by
      rintro rfl
      exact inner (List.mem_append_right w List.mem_cons_self)
    have put : store (front ++ text ++ 0 :: back) (front ++ skipped ++ w).length 0 =
        .ok (front ++ skipped ++ w ++ 0 :: (rest ++ 0 :: back)) := by
      rw [array']
      exact store_append
    refine ⟨c, inside, by rw [split, List.append_assoc], ?_⟩
    rw [strtokR, first, ok_bind]
    simp only [at_, token, Bool.false_eq_true, if_false]
    rw [second, ok_bind, place, stop, ok_bind, if_pos nonzero, put]
    simp only [List.length_append, List.length_singleton]
    rfl

/-- A character of the text afterwards: only delimiters are overwritten, by zeros. -/
def Cut (sets : List (List UInt8)) (c c' : UInt8) : Prop :=
  c' = c ∨ c' = 0 ∧ ∃ delimiters ∈ sets, c ∈ delimiters

theorem Cut.cons {c c' : UInt8} (h : Cut sets c c') (delimiters : List UInt8) : Cut (delimiters :: sets) c c' :=
  h.imp_right fun ⟨zero, set, inside, here⟩ => ⟨zero, set, List.mem_cons_of_mem _ inside, here⟩

theorem cut_refl (sets : List (List UInt8)) (text : List UInt8) : List.Forall₂ (Cut sets) text text :=
  List.forall₂_same.mpr fun _ _ => .inl rfl

theorem strtokCalls_cons {a₁ a₂ : CArray} {token : Option Nat} {save : Nat} {arrays : List CArray}
    {tokens : List (Option Nat)} (call : strtokR a s d savePtr = .ok (token, save, a₁))
    (ran : strtokCalls a₁ none save arrays = .ok (tokens, a₂)) :
    strtokCalls a s savePtr (d :: arrays) = .ok (token :: tokens, a₂) := by
  rw [strtokCalls, call, ok_bind]
  simp only [ran]
  rfl

theorem Reads.found {p : Nat} (back : List UInt8) (solid : 0 ∉ w) (here : a.drop p = w ++ 0 :: back) :
    Reads a (some p) (some w) :=
  .inr ⟨p, w, rfl, rfl, by rw [here]; exact string_append solid⟩

theorem getD_saved (front : List UInt8) : (none : Option Nat).getD front.length = front.length := rfl

/-- The calls find the tokens, one after the other, and all of them can be read in the end. -/
theorem strtokCalls_spec {arrays : List CArray} (reads : List.Forall₂ (fun d set => string d = .ok set) arrays sets)
    (solid : 0 ∉ text) (at_ : s.getD savePtr = front.length) :
    ∃ tokens text', strtokCalls (front ++ text ++ 0 :: back) s savePtr arrays =
        .ok (tokens, front ++ text' ++ 0 :: back) ∧ List.Forall₂ (Cut sets) text text' ∧
      List.Forall₂ (Reads (front ++ text' ++ 0 :: back)) tokens (tokensBy text sets) := by
  induction reads generalizing front text s savePtr with
  | nil => exact ⟨[], text, rfl, cut_refl [] text, .nil⟩
  | @cons d delimiters arrays sets read reads ih =>
      cases found : nextToken delimiters text with
      | none =>
          have call := strtokR_none back read solid at_ found
          obtain ⟨tokens, _, ran, ⟨⟩, words⟩ := ih List.not_mem_nil (getD_saved (front ++ text))
          rw [List.append_nil] at ran words
          refine ⟨none :: tokens, text, strtokCalls_cons call ran, cut_refl _ text, ?_⟩
          rw [tokensBy, found]
          exact .cons (.inl ⟨rfl, rfl⟩) words
      | some token =>
          obtain ⟨w, rest⟩ := token
          rw [tokensBy, found]
          obtain ⟨skipped, ⟨rfl, rfl, call⟩ | ⟨c, inside, rfl, call⟩⟩ :=
            strtokR_some back read solid at_ found
          · have solid_w : 0 ∉ w := fun inside => solid (List.mem_append_right skipped inside)
            have same : front ++ (skipped ++ w) ++ 0 :: back = front ++ skipped ++ w ++ [] ++ 0 :: back := by
              simp only [List.append_assoc, List.nil_append]
            obtain ⟨tokens, _, ran, ⟨⟩, words⟩ :=
              ih List.not_mem_nil (getD_saved (front ++ skipped ++ w))
            rw [← same] at ran words
            refine ⟨_, skipped ++ w, strtokCalls_cons call ran, cut_refl _ _, ?_⟩
            refine .cons (Reads.found back solid_w ?_) words
            rw [same, List.append_nil, List.append_assoc (front ++ skipped), List.drop_left]
          · have solid_w : 0 ∉ w := fun inside =>
              solid (List.mem_append_left _ (List.mem_append_right skipped inside))
            have solid_rest : 0 ∉ rest := fun inside =>
              solid (List.mem_append_right _ (List.mem_cons_of_mem c inside))
            obtain ⟨tokens, text', ran, cut, words⟩ := ih solid_rest (getD_saved (front ++ skipped ++ w ++ [0]))
            have before : front ++ skipped ++ w ++ [0] ++ rest ++ 0 :: back =
                front ++ skipped ++ w ++ 0 :: (rest ++ 0 :: back) := by
              simp only [List.append_assoc, List.cons_append, List.nil_append]
            have after : front ++ (skipped ++ w ++ 0 :: text') ++ 0 :: back =
                front ++ skipped ++ w ++ [0] ++ text' ++ 0 :: back := by
              simp only [List.append_assoc, List.cons_append, List.nil_append]
            rw [before, ← after] at ran
            rw [← after] at words
            refine ⟨_, skipped ++ w ++ 0 :: text', strtokCalls_cons call ran, ?_,
              .cons (Reads.found (text' ++ 0 :: back) solid_w ?_) words⟩
            · refine List.rel_append (cut_refl _ (skipped ++ w)) (.cons (.inr ⟨rfl, delimiters, ?_, inside⟩) ?_)
              · exact List.mem_cons_self
              · exact cut.imp fun _ _ h => h.cons delimiters
            · have here : front ++ (skipped ++ w ++ 0 :: text') ++ 0 :: back =
                  front ++ skipped ++ (w ++ 0 :: (text' ++ 0 :: back)) := by
                simp only [List.append_assoc, List.cons_append]
              rw [here, List.drop_left]

/-- What is between the delimiters, where that is not empty. -/
def pieces (delimiters text : List UInt8) : List (List UInt8) :=
  (text.splitOnP (· ∈ delimiters)).filter (· ≠ [])

theorem pieces_cons_of_mem {c : UInt8} (inside : c ∈ delimiters) :
    pieces delimiters (c :: text) = pieces delimiters text := by
  have nothing : ∀ x ∈ ([] : List UInt8), decide (x ∈ delimiters) = false :=
    fun _ inside => absurd inside List.not_mem_nil
  have split : (c :: text).splitOnP (· ∈ delimiters) = [] :: text.splitOnP (· ∈ delimiters) :=
    List.splitOnP_append_cons_of_forall_mem nothing c (decide_eq_true inside) text
  rw [pieces, split, List.filter_cons_of_neg (by simp), pieces]

theorem pieces_skip : pieces delimiters text = pieces delimiters (text.dropWhile (· ∈ delimiters)) := by
  induction text with
  | nil => rfl
  | cons c text ih =>
      rw [List.dropWhile_cons]
      split
      next inside => rw [pieces_cons_of_mem (of_decide_eq_true inside), ih]
      next => rfl

theorem pieces_of_nextToken (delimiters text : List UInt8) : pieces delimiters text =
    match nextToken delimiters text with
    | none => []
    | some (w, rest) => w :: pieces delimiters rest := by
  split
  next last =>
    rw [nextToken] at last
    split at last
    next empty => rw [pieces_skip, empty]; rfl
    next => cases last
  next w rest found =>
    obtain ⟨skipped, tail, _, more, _, body, word, ends⟩ := nextToken_eq_some found
    have apart : ∀ c ∈ w, decide (c ∈ delimiters) = false := by
      intro c inside
      rw [← word] at inside
      have outside := List.mem_takeWhile_imp inside
      simpa using outside
    rw [pieces_skip, body]
    obtain ⟨rfl, rfl⟩ | ⟨c, inside, rfl⟩ := ends
    · rw [List.append_nil, pieces, List.splitOnP_eq_singleton apart, List.filter_cons_of_pos (by simp [more])]
      rfl
    · rw [pieces, List.splitOnP_append_cons_of_forall_mem apart c (decide_eq_true inside) rest,
        List.filter_cons_of_pos (by simp [more]), pieces]

/-- As many calls with the same delimiters give the first pieces, and nothing when there are no more. -/
theorem tokensBy_replicate (delimiters text : List UInt8) (n : Nat) :
    tokensBy text (List.replicate n delimiters) =
      ((pieces delimiters text).map some ++ List.replicate n none).take n := by
  induction n generalizing text with
  | zero => rfl
  | succ n ih =>
      rw [List.replicate_succ, tokensBy, ih, pieces_of_nextToken delimiters text]
      cases nextToken delimiters text with
      | none =>
          have empty : pieces delimiters [] = [] := rfl
          simp only [Option.map_none, Option.getD_none, empty, List.map_nil, List.nil_append, List.take_replicate,
            Nat.min_self, List.replicate_succ, List.take_succ_cons]
      | some token =>
          obtain ⟨w, rest⟩ := token
          simp only [Option.map_some, Option.getD_some, List.map_cons, List.cons_append, List.take_succ_cons]
          congr 1
          rw [List.take_append, List.take_append, List.take_replicate, List.take_replicate]
          congr 2
          omega

/-- Every call of `strtok_r` finds the next token, whatever its delimiters are, and all tokens can be
read in the end; nothing but delimiters of the string is overwritten, by zeros. The calls with
the same delimiters give what is between these. -/
theorem tokens_of_calls {arrays : List CArray} (front back : List UInt8)
    (reads : List.Forall₂ (fun d set => string d = .ok set) arrays sets) (solid : 0 ∉ text) (savePtr : Nat) :
    (∃ tokens text', strtokCalls (front ++ text ++ 0 :: back) (some front.length) savePtr arrays =
        .ok (tokens, front ++ text' ++ 0 :: back) ∧ List.Forall₂ (Cut sets) text text' ∧
      List.Forall₂ (Reads (front ++ text' ++ 0 :: back)) tokens (tokensBy text sets)) ∧
    ∀ delimiters, (∀ set ∈ sets, set = delimiters) → tokensBy text sets =
      ((pieces delimiters text).map some ++ List.replicate sets.length none).take sets.length := by
  refine ⟨strtokCalls_spec reads solid rfl, fun delimiters same => ?_⟩
  rw [List.eq_replicate_of_mem same, tokensBy_replicate, List.length_replicate]

/-- "-f=a=b" is taken apart at its first '=' only. -/
theorem tokens_of_option : ∃ tokens text',
    strtokCalls ([45, 102, 61, 97, 61, 98] ++ 0 :: []) (some 0) 7 [[61, 0], [0]] = .ok (tokens, text' ++ 0 :: []) ∧
      List.Forall₂ (Reads (text' ++ 0 :: [])) tokens [some [45, 102], some [97, 61, 98]] := by
  have reads : List.Forall₂ (fun d set => string d = .ok set) [[61, 0], [0]] [[61], []] := .cons rfl (.cons rfl .nil)
  have solid : (0 : UInt8) ∉ [45, 102, 61, 97, 61, 98] := by decide
  obtain ⟨⟨tokens, text', ran, _, words⟩, _⟩ := tokens_of_calls [] [] reads solid 7
  exact ⟨tokens, text', ran, words⟩

end Calls
end CS162.Pintos.Strings
