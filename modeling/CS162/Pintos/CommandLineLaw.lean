import CS162.Library.Numeral
import CS162.Pintos.CommandLine

/-!
The kernel does what the words of its command line say. The arguments stand one behind the other
in memory, and what the options cut out of them does not touch the others.
-/

namespace CS162.Pintos.CommandLine
open CS162.Library CArray Strings

section Layout
variable {mem front back w : CArray} {words : List Word} {argv : List Nat} {p : Nat}

/-- The arguments as they are in memory. -/
def encode (words : List Word) : CArray := words.flatMap (· ++ [0])

/-- Where they begin, when the first is here. -/
def starts : Nat → List Word → List Nat
  | _, [] => []
  | p, word :: words => p :: starts (p + (word.length + 1)) words

/-- A string at a pointer. -/
def At (mem : CArray) (p : Nat) (w : Word) : Prop := 0 ∉ w ∧ ∃ back, mem.drop p = w ++ 0 :: back

theorem At.string (h : At mem p w) : CArray.string (mem.drop p) = .ok w := by
  obtain ⟨solid, back, here⟩ := h
  rw [here, string_append solid]

theorem At.contents (h : At mem p w) : contents mem p = .ok w := by
  rw [CommandLine.contents, h.string]
  rfl

theorem At.extend (h : At front p w) (back : CArray) : At (front ++ back) p w := by
  obtain ⟨solid, behind, here⟩ := h
  have inside : p ≤ front.length := by
    by_contra outside
    rw [List.drop_eq_nil_of_le (by omega)] at here
    exact List.cons_ne_nil _ _ (List.append_eq_nil_iff.mp here.symm).2
  refine ⟨solid, behind ++ back, ?_⟩
  rw [List.drop_append_of_le_length inside, here, List.append_assoc, List.cons_append]

theorem encode_cons (w : Word) (words : List Word) (back : CArray) :
    encode (w :: words) ++ back = w ++ 0 :: (encode words ++ back) := by
  simp only [encode, List.flatMap_cons, List.append_assoc, List.cons_append, List.nil_append]

theorem length_step (front : CArray) (w : Word) : front.length + (w.length + 1) = (front ++ w ++ [0]).length := by
  simp only [List.length_append, List.length_singleton, Nat.add_assoc]

theorem append_encode (front : CArray) (w : Word) (words : List Word) (back : CArray) :
    front ++ (encode (w :: words) ++ back) = front ++ w ++ [0] ++ (encode words ++ back) := by
  rw [encode_cons]
  simp only [List.append_assoc, List.cons_append, List.nil_append]

theorem at_starts (front back : CArray) (solid : ∀ w ∈ words, 0 ∉ w) :
    List.Forall₂ (At (front ++ (encode words ++ back))) (starts front.length words) words := by
  induction words generalizing front with
  | nil => exact .nil
  | cons w words ih =>
      obtain ⟨solid_w, others⟩ := List.forall_mem_cons.mp solid
      refine .cons ⟨solid_w, encode words ++ back, ?_⟩ ?_
      · rw [List.drop_left, encode_cons]
      · rw [append_encode, length_step]
        exact ih _ others

end Layout

section Reading
variable {mem front back w : CArray} {words : List Word} {argv : List Nat} {line : CArray}

theorem access_ok {α : Type} (a : α) : access (.ok a) = .ok a := rfl

theorem strnlen_append {maxlen : Nat} (back : CArray) (solid : 0 ∉ w) (room : w.length < maxlen) :
    strnlen (w ++ 0 :: back) maxlen = .ok w.length := by
  induction w generalizing maxlen with
  | nil =>
      cases maxlen with
      | zero => cases room
      | succ maxlen => exact if_pos rfl
  | cons c w ih =>
      rw [List.mem_cons, not_or] at solid
      cases maxlen with
      | zero => cases room
      | succ maxlen =>
          rw [List.cons_append, strnlen, if_neg (Ne.symm solid.1), ih solid.2 (Nat.lt_of_succ_lt_succ room)]
          rfl

theorem readArguments_eq {finish : Nat} (back : CArray) (argv : List Nat) (solid : ∀ w ∈ words, 0 ∉ w)
    (fits : front.length + (encode words).length ≤ finish) :
    readArguments (front ++ (encode words ++ back)) finish words.length front.length argv =
      if argv.length + words.length < argvLen then .ok (argv ++ starts front.length words)
      else .error (.outside .write) := by
  induction words generalizing front argv with
  | nil =>
      rw [List.length_nil, readArguments, starts, List.append_nil]
      rfl
  | cons w words ih =>
      obtain ⟨solid_w, others⟩ := List.forall_mem_cons.mp solid
      have size : (encode (w :: words)).length = w.length + 1 + (encode words).length := by
        have whole := congrArg List.length (encode_cons w words [])
        simp only [List.append_nil, List.length_append, List.length_cons] at whole
        omega
      have inside : ¬ front.length ≥ finish := by omega
      rw [List.length_cons, readArguments, if_neg inside]
      by_cases room : argv.length < argvLen
      · have one : strnlen ((front ++ (encode (w :: words) ++ back)).drop front.length) (finish - front.length) =
            .ok w.length := by
          rw [List.drop_left, encode_cons]
          exact strnlen_append _ solid_w (by omega)
        have room' : (front ++ w ++ [0]).length + (encode words).length ≤ finish := by
          rw [← length_step]
          omega
        rw [if_pos room, one, access_ok, ok_bind, append_encode, Nat.add_assoc, length_step, ih _ others room',
          List.length_append, List.length_singleton, starts, ← length_step, List.append_assoc, List.singleton_append]
        congr 1
        simp only [eq_iff_iff]
        omega
      · rw [if_neg room, if_neg (by omega)]

theorem printArguments_eq (here : List.Forall₂ (At mem) argv words) :
    printArguments mem argv = .ok (words.flatMap (fun word =>
      if 32 ∈ word then literal " '" ++ word ++ literal "'" else literal " " ++ word) ++ literal "\n") := by
  induction here with
  | nil => rfl
  | @cons p w argv words first _ ih =>
      obtain ⟨found, ran, none_iff⟩ := strchr_string first.string 32
      rw [printArguments, ran, access_ok, ok_bind, first.contents, ok_bind, ih, ok_bind, List.flatMap_cons]
      by_cases blank : 32 ∈ w
      · rw [if_neg (fun none => (none_iff.mp none).2 blank), if_pos blank]
        simp only [List.append_assoc]
        rfl
      · rw [if_pos (none_iff.mpr ⟨by decide, blank⟩), if_neg blank]
        simp only [List.append_assoc]
        rfl

theorem line_eq (made : makeKernelCommandLine words = some line) :
    (encode words).length ≤ loaderArgsLen ∧ ∃ fill, line = toBytes 4 words.length ++ (encode words ++ fill) := by
  rw [makeKernelCommandLine] at made
  split at made
  next => cases made
  next fits =>
    cases made
    exact ⟨Nat.not_lt.mp fits, _, List.append_assoc ..⟩

theorem length_le_encode (words : List Word) : words.length ≤ (encode words).length := by
  induction words with
  | nil => exact Nat.le_refl 0
  | cons w words ih =>
      rw [encode, List.flatMap_cons, List.length_append, List.length_append, List.length_cons, List.length_singleton]
      rw [encode] at ih
      omega

theorem readCommandLine_eq (solid : ∀ w ∈ words, 0 ∉ w) (made : makeKernelCommandLine words = some line)
    (back : CArray) : ∃ behind, line ++ back = toBytes 4 words.length ++ (encode words ++ behind) ∧
      readCommandLine (line ++ back) =
        if words.length < argvLen then .ok (starts 4 words, shown words) else .error (.outside .write) := by
  obtain ⟨fits, fill, rfl⟩ := line_eq made
  have few := Nat.le_trans (length_le_encode words) fits
  rw [loaderArgsLen] at few
  have array : toBytes 4 words.length ++ (encode words ++ fill) ++ back =
      toBytes 4 words.length ++ (encode words ++ (fill ++ back)) := by
    simp only [List.append_assoc]
  have width : (toBytes 4 words.length).length = 4 := toBytes_length
  have count : slice (toBytes 4 words.length ++ (encode words ++ (fill ++ back))) 0 4 =
      .ok (toBytes 4 words.length) := by
    have whole : slice ([] ++ (toBytes 4 words.length ++ (encode words ++ (fill ++ back)))) 0
        (toBytes 4 words.length).length = .ok (toBytes 4 words.length) := slice_append []
    rwa [List.nil_append, width] at whole
  have argc : toInt32 (ofBytes (toBytes 4 words.length)) = words.length := by
    rw [ofBytes_toBytes (by omega)]
    exact toInt32_of_range (by omega) (by rw [intMax]; omega)
  have room : (toBytes 4 words.length).length + (encode words).length ≤ 4 + loaderArgsLen := by
    rw [width]
    exact Nat.add_le_add_left fits 4
  have pointers := readArguments_eq (fill ++ back) [] solid room
  rw [width, List.length_nil, Nat.zero_add, List.nil_append] at pointers
  have nonneg : ¬ (words.length : Int) < 0 := by omega
  refine ⟨fill ++ back, array, ?_⟩
  rw [array, readCommandLine, count, access_ok, ok_bind, argc, if_neg nonneg, Int.toNat_natCast, pointers]
  split
  · have strings := at_starts (toBytes 4 words.length) (fill ++ back) solid
    rw [width] at strings
    rw [ok_bind, printArguments_eq strings, ok_bind, shown, List.append_assoc]
    rfl
  · rfl

end Reading

section Options
variable {ν : Type} {R S : ν → Word → Prop} {o : Options ν} {o' : Options Word} {value : Option ν}
  {value' : Option Word} {contents : ν → Except Halt Word} {words : List Word}

/-- Options that are the same, with these names of devices. -/
structure Says (R : ν → Word → Prop) (o : Options ν) (o' : Options Word) : Prop where
  how : o.how = o'.how
  formatFilesys : o.formatFilesys = o'.formatFilesys
  filesys : Option.Rel R o.filesysBdevName o'.filesysBdevName
  scratch : Option.Rel R o.scratchBdevName o'.scratchBdevName
  userPageLimit : o.userPageLimit = o'.userPageLimit
  random : o.random = o'.random
  schedulerFlags : o.schedulerFlags = o'.schedulerFlags

theorem rel_imp (names : Option.Rel R value value') (weaker : ∀ p w, R p w → S p w) :
    Option.Rel S value value' := by
  cases names with
  | none => exact .none
  | some h => exact .some (weaker _ _ h)

theorem Says.imp (h : Says R o o') (weaker : ∀ p w, R p w → S p w) : Says S o o' :=
  { h with filesys := rel_imp h.filesys weaker, scratch := rel_imp h.scratch weaker }

theorem Says.setScheduler (h : Says R o o') (policy : SchedPolicy) :
    Says R (o.setScheduler policy) (o'.setScheduler policy) :=
  { h with schedulerFlags := congrArg (·.set policy.index true) h.schedulerFlags }

theorem parseOption_alike (h : Says R o o') (sound : ∀ p w, R p w → contents p = .ok w)
    (values : Option.Rel R value value') (name : Word) :
    Alike (Says R) (parseOption contents o name value) (parseOption .ok o' name value') := by
  have text : argument contents value = argument .ok value' := by
    cases values with
    | none => rfl
    | some same => exact sound _ _ same
  rw [parseOption, parseOption, text]
  refine .ite (fun _ => .error _) fun _ => .ite (fun _ => .ok { h with how := rfl }) fun _ =>
    .ite (fun _ => .ok { h with how := rfl }) fun _ => .ite (fun _ => .ok { h with formatFilesys := rfl }) fun _ =>
    .ite (fun _ => .ok { h with filesys := values }) fun _ => .ite (fun _ => .ok { h with scratch := values }) fun _ =>
    .ite ?seed fun _ => .ite ?scheduler fun _ => .ite ?limit fun _ => .error _
  case seed => exact fun _ => .same _ fun seed => .ok { h with random := rfl }
  case scheduler =>
    refine fun _ => .same _ fun policy => ?_
    exact .ite (fun _ => .ok (h.setScheduler _)) fun _ => .ite (fun _ => .ok (h.setScheduler _)) fun _ =>
      .ite (fun _ => .ok (h.setScheduler _)) fun _ => .ite (fun _ => .ok (h.setScheduler _)) fun _ => .error _
  case limit => exact fun _ => .same _ fun limit => .ok { h with userPageLimit := rfl }

theorem chooseScheduler_alike (h : Says R o o') (now : UInt32) :
    Alike (fun r r' => Says R r.1 r'.1 ∧ r.2 = r'.2) (chooseScheduler now o) (chooseScheduler now o') := by
  rw [chooseScheduler, chooseScheduler, h.schedulerFlags]
  exact .same _ fun policy => .ok ⟨{ h with random := rfl, schedulerFlags := rfl }, rfl⟩

theorem mapM_of_rel (names : Option.Rel R value value') (sound : ∀ p w, R p w → contents p = .ok w) :
    value.mapM contents = .ok value' := by
  cases names with
  | none => rfl
  | some h =>
      have read := sound _ _ h
      simp only [Option.mapM_some, read]
      rfl

theorem Says.read (h : Says R o o') (sound : ∀ p w, R p w → contents p = .ok w) :
    o.read contents = .ok o' := by
  rw [Options.read, mapM_of_rel h.filesys sound, ok_bind, mapM_of_rel h.scratch sound, ok_bind]
  obtain ⟨how, formatFilesys, filesys, scratch, limit, random, flags⟩ := o
  obtain ⟨how', formatFilesys', filesys', scratch', limit', random', flags'⟩ := o'
  obtain ⟨rfl, rfl, -, -, rfl, rfl, rfl⟩ := h
  rfl

end Options

section Loop
variable {mem front back w name : CArray} {words : List Word} {o : Options Nat} {o' : Options Word} {p : Nat}

theorem at_of_string (read : string (mem.drop p) = .ok w) : At mem p w := by
  obtain ⟨solid, junk, here⟩ := exists_of_string read
  exact ⟨solid, junk, here⟩

theorem nextToken_empty (text : Word) : nextToken [] text = if text = [] then none else some (text, []) := by
  have keep : text.dropWhile (· ∈ ([] : Word)) = text := List.dropWhile_eq_self_iff.mpr fun _ => by simp
  have take : text.takeWhile (· ∉ ([] : Word)) = text := List.takeWhile_eq_self_iff.mpr fun _ _ => by simp
  have rest : text.dropWhile (· ∉ ([] : Word)) = [] := List.dropWhile_eq_nil_iff.mpr fun _ _ => by simp
  rw [nextToken, keep, take, rest]
  rfl

theorem tokensBy_option (w : Word) :
    tokensBy (45 :: w) [[61], []] = [some (nameOf (45 :: w)), valueOf (45 :: w)] := by
  have same : (fun c : UInt8 => decide (c ∉ [61])) = fun c => decide (c ≠ 61) := by
    funext c
    simp
  have begins : (45 :: w).dropWhile (· ∈ ([61] : Word)) = 45 :: w := rfl
  have first : nextToken [61] (45 :: w) = some (nameOf (45 :: w), ((45 :: w).dropWhile (· ≠ 61)).drop 1) := by
    rw [nextToken, begins, if_neg (List.cons_ne_nil _ _), same, nameOf]
  rw [tokensBy, first, Option.map_some, Option.map_some, Option.getD_some, tokensBy, nextToken_empty, valueOf, tokensBy]
  split
  · rfl
  · rfl

theorem strtokR_option (front back : CArray) (solid : 0 ∉ 45 :: w) :
    ∃ first second savePtr savePtr' mem text,
      strtokR (front ++ (45 :: w) ++ [0] ++ back) (some front.length) [61, 0] 0 = .ok (some first, savePtr, mem) ∧
      strtokR mem none [0] savePtr = .ok (second, savePtr', front ++ text ++ [0] ++ back) ∧
      text.length = (45 :: w).length ∧ At (front ++ text ++ [0]) first (nameOf (45 :: w)) ∧
      Option.Rel (At (front ++ text ++ [0])) second (valueOf (45 :: w)) := by
  have reads : List.Forall₂ (fun d set => string d = .ok set) [[61, 0], [0]] [[61], []] := .cons rfl (.cons rfl .nil)
  have calls : ∃ tokens text, strtokCalls (front ++ (45 :: w) ++ 0 :: []) (some front.length) 0 [[61, 0], [0]] =
      .ok (tokens, front ++ text ++ 0 :: []) ∧ List.Forall₂ (Cut [[61], []]) (45 :: w) text ∧
      List.Forall₂ (Reads (front ++ text ++ 0 :: [])) tokens (tokensBy (45 :: w) [[61], []]) :=
    strtokCalls_spec reads solid rfl
  obtain ⟨tokens, text, ran, cut, words⟩ := calls
  rw [tokensBy_option] at words
  cases words with
  | cons name rest =>
      cases rest with
      | cons value rest =>
          cases rest
          obtain ⟨⟨token, savePtr, a₁⟩, one, ran⟩ := bind_eq_ok ran
          obtain ⟨⟨tokens, a₂⟩, others, ran⟩ := bind_eq_ok ran
          obtain ⟨⟨token', savePtr', a₃⟩, two, others⟩ := bind_eq_ok others
          cases others
          cases ran
          obtain ⟨-, ⟨⟩⟩ | ⟨first, name', rfl, same, read⟩ := name
          cases same
          refine ⟨first, _, savePtr, savePtr', a₁ ++ back, text, strtokR_append one back, strtokR_append two back,
            cut.length_eq.symm, at_of_string read, ?_⟩
          obtain ⟨rfl, none⟩ | ⟨second, value', rfl, some, read'⟩ := value
          · rw [none]
            exact .none
          · rw [some]
            exact .some (at_of_string read')

theorem optionLoop_alike (front back : CArray) (solid : ∀ w ∈ words, 0 ∉ w) (h : Says (At front) o o') :
    Alike (fun r r' => Says (At r.1) r.2.1 r'.1 ∧ List.Forall₂ (At r.1) r.2.2 r'.2)
      (optionLoop (front ++ (encode words ++ back)) o (starts front.length words)) (parseWords o' words) := by
  induction words generalizing front o o' with
  | nil => exact .ok ⟨h.imp fun p w here => here.extend _, .nil⟩
  | cons w words ih =>
      obtain ⟨solid_w, others⟩ := List.forall_mem_cons.mp solid
      have rest := at_starts front back solid
      rw [starts] at rest ⊢
      rw [optionLoop, parseWords]
      cases w with
      | nil =>
          have c : load (front ++ (encode ([] :: words) ++ back)) front.length = .ok 0 := by
            rw [encode_cons]
            exact load_append
          rw [c, access_ok, ok_bind, if_neg (by decide), if_neg (by decide)]
          exact .ok ⟨h.imp fun p w here => here.extend _, rest⟩
      | cons c w =>
          have first : load (front ++ (encode ((c :: w) :: words) ++ back)) front.length = .ok c := by
            rw [encode_cons, List.cons_append]
            exact load_append
          rw [first, access_ok, ok_bind, List.head?_cons]
          by_cases option : c = 45
          · subst option
            obtain ⟨p, second, savePtr, savePtr', mem, text, one, two, same, name, value⟩ :=
              strtokR_option front (encode words ++ back) solid_w
            have named := (name.extend (encode words ++ back)).contents
            rw [if_pos rfl, if_pos rfl, append_encode, one, access_ok, ok_bind]
            dsimp only
            rw [two, access_ok, ok_bind]
            dsimp only [argument, Option.elim]
            rw [named, ok_bind]
            have parsed := parseOption_alike (h.imp fun p w here => (here.extend text).extend [0])
              (fun p w here => (here.extend (encode words ++ back)).contents) value (nameOf (45 :: w))
            refine parsed.bind fun o o' next => ?_
            have length : front.length + ((45 :: w).length + 1) = (front ++ text ++ [0]).length := by
              rw [← same, length_step]
            rw [length]
            exact ih _ others next
          · rw [if_neg option, if_neg (fun same => option (Option.some.inj same))]
            exact .ok ⟨h.imp fun p w here => here.extend _, rest⟩

end Loop

section Actions
variable {ν : Type} {contents : ν → Except Halt Word} {argv : List ν} {words : List Word}

theorem mapM_of_forall₂ (here : List.Forall₂ (fun p w => contents p = .ok w) argv words) :
    argv.mapM contents = .ok words := by
  induction here with
  | nil => rfl
  | cons first _ ih =>
      rw [List.mapM_cons, first, ok_bind, ih]
      rfl

theorem runActions_eq (here : List.Forall₂ (fun p w => contents p = .ok w) argv words) :
    runActions contents argv = runActions .ok words := by
  induction size : words.length using Nat.strong_induction_on generalizing argv words with
  | _ n ih =>
      cases here with
      | nil => rw [runActions, runActions]
      | @cons p w argv words first rest =>
          rw [runActions, runActions, first]
          dsimp only
          cases actions.find? (·.name = w) with
          | none => rfl
          | some a =>
              have strings : (argv.take (a.argc - 1)).mapM contents = .ok (words.take (a.argc - 1)) :=
                mapM_of_forall₂ (List.forall₂_take _ rest)
              have same : (words.take (a.argc - 1)).mapM Except.ok = .ok (words.take (a.argc - 1)) :=
                mapM_of_forall₂ (List.forall₂_same.mpr fun _ _ => rfl)
              have shorter : (words.drop (a.argc - 1)).length < n := by
                rw [← size, List.length_drop, List.length_cons]
                omega
              have later := ih _ shorter (List.forall₂_drop _ rest) rfl
              dsimp only
              rw [strings, same, rest.length_eq, later]

end Actions

section Boot
variable {words : List Word} {line : CArray}

theorem agree_initial (R : Nat → Word → Prop) : Says R .initial .initial :=
  ⟨rfl, rfl, .none, .none, rfl, rfl, rfl⟩

theorem boot_eq (solid : ∀ w ∈ words, 0 ∉ w) (made : makeKernelCommandLine words = some line)
    (few : words.length < argvLen) (back : CArray) (now : UInt32) :
    boot (line ++ back) now = bootWords words now := by
  obtain ⟨behind, array, reading⟩ := readCommandLine_eq solid made back
  have width : (toBytes 4 words.length).length = 4 := toBytes_length
  have loop := optionLoop_alike (toBytes 4 words.length) behind solid (agree_initial _)
  rw [width, ← array] at loop
  rw [boot, reading, if_pos few, ok_bind, bootWords]
  dsimp only
  generalize optionLoop (line ++ back) .initial (starts 4 words) = r at loop ⊢
  generalize parseWords .initial words = r' at loop ⊢
  cases loop with
  | error e => rfl
  | @ok r r' related =>
      obtain ⟨mem, o, argv⟩ := r
      obtain ⟨o', words⟩ := r'
      obtain ⟨told, strings⟩ := related
      have chosen := chooseScheduler_alike told now
      rw [ok_bind, ok_bind]
      dsimp only
      generalize chooseScheduler now o = c at chosen ⊢
      generalize chooseScheduler now o' = c' at chosen ⊢
      cases chosen with
      | error e => rfl
      | @ok c c' both =>
          obtain ⟨o, policy⟩ := c
          obtain ⟨o', policy'⟩ := c'
          obtain ⟨told, rfl⟩ := both
          rw [ok_bind, ok_bind]
          dsimp only
          rw [told.read fun p w here => here.contents, ok_bind,
            runActions_eq (strings.imp fun p w here => here.contents)]

/-- What the kernel reads and does is what the words say that the disk was made with, and all errors are
theirs, if there are not too many: there is room for 64, and one more is written behind the array. -/
theorem boot_of_words (solid : ∀ w ∈ words, 0 ∉ w) (made : makeKernelCommandLine words = some line) (back : CArray)
    (now : UInt32) :
    if words.length ≤ 64 then
      readCommandLine (line ++ back) = .ok (starts 4 words, shown words) ∧
        boot (line ++ back) now = bootWords words now
    else boot (line ++ back) now = .error (.outside .write) := by
  obtain ⟨behind, array, reading⟩ := readCommandLine_eq solid made back
  have room : words.length ≤ 64 ↔ words.length < argvLen := by
    rw [argvLen, loaderArgsLen]
    omega
  split
  next few =>
    have few := room.mp few
    rw [if_pos few] at reading
    exact ⟨reading, boot_eq solid made few back now⟩
  next many =>
    rw [if_neg (many ∘ room.mpr)] at reading
    rw [boot, reading]
    rfl

/-- "-f -ul=200 run 'echo x' ls" -/
def formatAndRun : List Word := [literal "-f", literal "-ul=200", literal "run", literal "echo x", literal "ls"]

theorem boot_of_formatAndRun : ∃ line, makeKernelCommandLine formatAndRun = some line ∧
    readCommandLine (line ++ []) = .ok ([4, 7, 15, 19, 26], shown formatAndRun) ∧
      boot (line ++ []) 0 = bootWords formatAndRun 0 := by
  obtain ⟨line, made⟩ : ∃ line, makeKernelCommandLine formatAndRun = some line := ⟨_, rfl⟩
  have read := boot_of_words (by decide) made [] 0
  rw [if_pos (by decide)] at read
  exact ⟨line, made, read⟩

end Boot

section Settings

/-- An option of the command line. -/
inductive Setting where
  | powerOff
  | reboot
  | format
  | filesys (name : Word)
  | scratch (name : Word)
  | seed (n : Nat)
  | scheduler (policy : SchedPolicy)
  | userLimit (n : Nat)

def SchedPolicy.name : SchedPolicy → Word
  | .fifo => literal "fifo"
  | .prio => literal "prio"
  | .fair => literal "fair"
  | .mlfqs => literal "mlfqs"

namespace Setting

/-- How it is written. -/
def word : Setting → Word
  | powerOff => literal "-q"
  | reboot => literal "-r"
  | format => literal "-f"
  | filesys name => literal "-filesys" ++ 61 :: name
  | scratch name => literal "-scratch" ++ 61 :: name
  | seed n => literal "-rs" ++ 61 :: numeral 10 1 n
  | scheduler policy => literal "-sched" ++ 61 :: policy.name
  | userLimit n => literal "-ul" ++ 61 :: numeral 10 1 n

/-- Names are strings and not empty, and numbers fit an `int`. -/
def Fits : Setting → Prop
  | filesys name | scratch name => name ≠ [] ∧ 0 ∉ name
  | seed n | userLimit n => n < 2 ^ 31
  | _ => True

/-- What it does. -/
def apply (o : Options Word) : Setting → Options Word
  | powerOff => { o with how := .powerOff }
  | reboot => { o with how := .reboot }
  | format => { o with formatFilesys := true }
  | filesys name => { o with filesysBdevName := some name }
  | scratch name => { o with scratchBdevName := some name }
  | seed n => { o with random := some (Random.randomInit (UInt32.ofInt n)) }
  | scheduler policy => o.setScheduler policy
  | userLimit n => { o with userPageLimit := n }

end Setting

variable {o : Options Word} {name value : Word} {n : Nat}

theorem nameOf_append (clean : 61 ∉ name) : nameOf (name ++ 61 :: value) = name := by
  have all : ∀ c ∈ name, decide (c ≠ 61) = true := fun c inside => decide_eq_true fun same => clean (same ▸ inside)
  rw [nameOf, List.takeWhile_append_of_pos all, List.takeWhile_cons_of_neg (by decide), List.append_nil]

theorem valueOf_append (clean : 61 ∉ name) (some : value ≠ []) : valueOf (name ++ 61 :: value) = .some value := by
  have all : ∀ c ∈ name, decide (c ≠ 61) = true := fun c inside => decide_eq_true fun same => clean (same ▸ inside)
  rw [valueOf, List.dropWhile_append_of_pos all, List.dropWhile_cons_of_neg (by decide), List.drop_one, List.tail_cons]
  exact if_neg some

theorem parseDigits_eq {s : Word} (digits : ∀ c ∈ s, 48 ≤ c.toNat ∧ c.toNat < 48 + 10) (v : Nat)
    (small : s.foldl (readDigit 10) v ≤ 2 ^ 31) : parseDigits (-v) s = .ok (-(s.foldl (readDigit 10) v : Nat)) := by
  induction s generalizing v with
  | nil => rfl
  | cons c s ih =>
      obtain ⟨⟨low, high⟩, others⟩ := List.forall_mem_cons.mp digits
      have digit : isdigit c = true := by
        rw [isdigit, Bool.and_eq_true, decide_eq_true_iff, decide_eq_true_iff, UInt8.le_iff_toNat_le,
          UInt8.le_iff_toNat_le]
        exact ⟨low, Nat.le_of_lt_succ high⟩
      have value : (-(v : Int)) * 10 - (c.toNat - 48) = -(readDigit 10 v c : Nat) := by
        rw [readDigit]
        omega
      have bound := le_foldl_readDigit (b := 10) (by decide) s (readDigit 10 v c)
      rw [List.foldl_cons] at small ⊢
      rw [parseDigits, if_pos digit, value, if_neg (by omega)]
      exact ih others _ small

theorem numeral_ne_nil (n : Nat) : numeral 10 1 n ≠ [] := by
  intro nothing
  have long := congrArg List.length nothing
  rw [numeral, List.length_leftpad, List.length_nil] at long
  omega

theorem atoi_numeral (small : n < 2 ^ 31) : atoi (numeral 10 1 n) = .ok n := by
  have digits : ∀ c ∈ numeral 10 1 n, 48 ≤ c.toNat ∧ c.toNat < 48 + 10 :=
    fun c inside => numeral_digit (by decide) (by decide) inside
  have read : (numeral 10 1 n).foldl (readDigit 10) 0 = n := foldl_readDigit_numeral (by decide) (by decide)
  have parsed := parseDigits_eq digits 0 (by omega)
  rw [read] at parsed
  cases numeral_eq : numeral 10 1 n with
  | nil => exact absurd numeral_eq (numeral_ne_nil n)
  | cons c s =>
      rw [numeral_eq] at digits parsed
      have low := (digits c List.mem_cons_self).1
      have plain : isspace c = false ∧ c ≠ 43 ∧ c ≠ 45 := by
        refine ⟨?_, ?_, ?_⟩
        · rw [isspace, Bool.or_eq_false_iff, Bool.and_eq_false_iff]
          refine ⟨decide_eq_false ?_, .inr (decide_eq_false ?_)⟩
          · rintro rfl
            exact absurd low (by decide)
          · rw [UInt8.le_iff_toNat_le]
            exact fun le => absurd (Nat.le_trans low le) (by decide)
        · rintro rfl
          exact absurd low (by decide)
        · rintro rfl
          exact absurd low (by decide)
      have whole : (c :: s).dropWhile isspace = c :: s := List.dropWhile_cons_of_neg (by simp [plain.1])
      have sign : parseSign (c :: s) = (false, c :: s) := by
        rw [parseSign, if_neg plain.2.1, if_neg plain.2.2]
      rw [atoi, whole, sign]
      dsimp only
      have zero : (-((0 : Nat) : Int)) = 0 := rfl
      rw [← zero, parsed, ok_bind, if_neg Bool.false_ne_true, Int.neg_neg, if_neg (by rw [intMax]; omega)]
      rfl

theorem Setting.parse {s : Setting} (fits : s.Fits) (o : Options Word) :
    parseOption .ok o (nameOf s.word) (valueOf s.word) = .ok (s.apply o) := by
  cases s with
  | powerOff => rfl
  | reboot => rfl
  | format => rfl
  | filesys name =>
      rw [word, nameOf_append (by decide), valueOf_append (by decide) fits.1]
      rfl
  | scratch name =>
      rw [word, nameOf_append (by decide), valueOf_append (by decide) fits.1]
      rfl
  | seed n =>
      have body : parseOption .ok o (literal "-rs") (some (numeral 10 1 n)) =
          (atoi (numeral 10 1 n)).bind fun seed =>
            .ok { o with random := some (Random.randomInit (UInt32.ofInt seed)) } := rfl
      rw [word, nameOf_append (by decide), valueOf_append (by decide) (numeral_ne_nil n), body, atoi_numeral fits]
      rfl
  | scheduler policy => cases policy <;> rfl
  | userLimit n =>
      have body : parseOption .ok o (literal "-ul") (some (numeral 10 1 n)) =
          (atoi (numeral 10 1 n)).bind fun limit => .ok { o with userPageLimit := toUInt32 limit } := rfl
      have same : toUInt32 n = n := by
        rw [toUInt32]
        have small : n < 2 ^ 31 := fits
        omega
      rw [word, nameOf_append (by decide), valueOf_append (by decide) (numeral_ne_nil n), body, atoi_numeral fits]
      change Except.ok { o with userPageLimit := toUInt32 n } = _
      rw [same]
      rfl

theorem Setting.head_word (s : Setting) : s.word.head? = some 45 := by
  cases s <;> rfl

theorem parseWords_settings {settings : List Setting} (fits : ∀ s ∈ settings, s.Fits) (o : Options Word)
    {words : List Word} (others : ∀ w ∈ words.head?, w.head? ≠ some 45) :
    parseWords o (settings.map Setting.word ++ words) = .ok (settings.foldl Setting.apply o, words) := by
  induction settings generalizing o with
  | nil =>
      cases words with
      | nil => rfl
      | cons w words => exact if_neg (others w rfl)
  | cons s settings ih =>
      obtain ⟨first, rest⟩ := List.forall_mem_cons.mp fits
      rw [List.map_cons, List.cons_append, parseWords, if_pos s.head_word, s.parse first o, ok_bind, ih rest]
      rfl

end Settings

section Schedulers
variable {f : SchedPolicy → Bool} {o : Options Word} {policy other : SchedPolicy}

/-- The flags that are set for these policies. -/
def marks (f : SchedPolicy → Bool) : List Bool := [f .fifo, f .prio, f .fair, f .mlfqs, false, false, false, false]

theorem set_marks (f : SchedPolicy → Bool) (policy : SchedPolicy) :
    (marks f).set policy.index true = marks fun q => f q || decide (q = policy) := by
  cases policy <;> simp [marks, SchedPolicy.index]

theorem Setting.flags_apply (s : Setting) : (∃ q, s = .scheduler q) ∨
    (∀ q, s ≠ .scheduler q) ∧ ∀ o : Options Word, (apply o s).schedulerFlags = o.schedulerFlags := by
  cases s with
  | scheduler q => exact .inl ⟨q, rfl⟩
  | _ => exact .inr ⟨fun q => Setting.noConfusion, fun o => rfl⟩

theorem flags_foldl (settings : List Setting) (flags : o.schedulerFlags = marks f) :
    ∃ g, (settings.foldl Setting.apply o).schedulerFlags = marks g ∧
      ∀ q, g q = true ↔ f q = true ∨ .scheduler q ∈ settings := by
  induction settings generalizing o f with
  | nil => exact ⟨f, flags, fun q => by simp⟩
  | cons s settings ih =>
      rw [List.foldl_cons]
      obtain ⟨policy, rfl⟩ | ⟨other, same⟩ := s.flags_apply
      · have next : (Setting.apply o (.scheduler policy)).schedulerFlags =
            marks fun q => f q || decide (q = policy) := by
          rw [← set_marks, ← flags]
          rfl
        obtain ⟨g, final, which⟩ := ih next
        refine ⟨g, final, fun q => ?_⟩
        rw [which q, Bool.or_eq_true, decide_eq_true_iff, List.mem_cons, Setting.scheduler.injEq, or_assoc]
      · obtain ⟨g, final, which⟩ := ih ((same o).trans flags)
        refine ⟨g, final, fun q => ?_⟩
        rw [which q, List.mem_cons, or_iff_right (other q).symm]

theorem activeSchedPolicy_none (none : ∀ q, f q = false) : activeSchedPolicy (marks f) = .ok .fifo := by
  rw [marks, none, none, none, none]
  rfl

theorem activeSchedPolicy_one (here : f policy = true) (only : ∀ q, f q = true → q = policy) :
    activeSchedPolicy (marks f) = .ok policy := by
  have off : ∀ q, q ≠ policy → f q = false := fun q ne => Bool.eq_false_of_not_eq_true (ne ∘ only q)
  cases policy with
  | fifo => rw [marks, here, off .prio (by decide), off .fair (by decide), off .mlfqs (by decide)]; rfl
  | prio => rw [marks, here, off .fifo (by decide), off .fair (by decide), off .mlfqs (by decide)]; rfl
  | fair => rw [marks, here, off .fifo (by decide), off .prio (by decide), off .mlfqs (by decide)]; rfl
  | mlfqs => rw [marks, here, off .fifo (by decide), off .prio (by decide), off .fair (by decide)]; rfl

theorem activeSchedPolicy_two (here : f policy = true) (there : f other = true) (apart : policy ≠ other) :
    ∃ message, activeSchedPolicy (marks f) = .error (.panic message) := by
  have many : (marks f).count true > 1 := by
    have total : (marks f).count true =
        (f .fifo).toNat + (f .prio).toNat + (f .fair).toNat + (f .mlfqs).toNat := by
      rw [marks]
      cases f .fifo <;> cases f .prio <;> cases f .fair <;> cases f .mlfqs <;> rfl
    rw [total]
    cases policy <;> cases other <;>
      first
      | exact absurd rfl apart
      | (rw [here, there, Bool.toNat_true]; omega)
  have some : (marks f).count true ≠ 0 := by omega
  rw [activeSchedPolicy]
  exact ⟨_, by rw [if_neg some, if_pos many]⟩

end Schedulers

section Commands

/-- An action with its arguments. -/
structure Command where
  action : Action
  known : action ∈ actions
  arguments : List Word
  enough : arguments.length = action.argc - 1

namespace Command

def words (c : Command) : List Word := c.action.name :: c.arguments

def event (c : Command) : Event := .invoke c.action.function c.arguments

end Command

theorem find_action {a : Action} (known : a ∈ actions) : actions.find? (·.name = a.name) = some a := by
  simp only [actions, List.mem_cons, List.not_mem_nil, or_false] at known
  obtain rfl | rfl | rfl | rfl | rfl | rfl | rfl | rfl := known <;> rfl

theorem mapM_ok (words : List Word) : words.mapM (Except.ok : Word → Except Halt Word) = .ok words :=
  mapM_of_forall₂ (List.forall₂_same.mpr fun _ _ => rfl)

theorem runActions_commands (commands : List Command) :
    runActions .ok (commands.flatMap Command.words) = commands.map Command.event := by
  induction commands with
  | nil => rw [List.flatMap_nil, runActions, List.map_nil]
  | cons c commands ih =>
      have arguments : (c.arguments ++ commands.flatMap Command.words).take (c.action.argc - 1) = c.arguments := by
        rw [← c.enough, List.take_left]
      have later : (c.arguments ++ commands.flatMap Command.words).drop (c.action.argc - 1) =
          commands.flatMap Command.words := by
        rw [← c.enough, List.drop_left]
      have room : ¬ (c.arguments ++ commands.flatMap Command.words).length < c.action.argc - 1 := by
        rw [List.length_append, c.enough]
        omega
      rw [List.flatMap_cons, Command.words, List.cons_append, runActions]
      dsimp only
      rw [find_action c.known]
      dsimp only
      rw [if_neg room, arguments, mapM_ok, later, ih]
      rfl

theorem no_option (commands : List Command) :
    ∀ w ∈ (commands.flatMap Command.words).head?, w.head? ≠ some 45 := by
  cases commands with
  | nil => exact fun w inside => absurd inside (Option.not_mem_none w)
  | cons c commands =>
      have plain : ∀ a ∈ actions, a.name.head? ≠ some 45 := by decide
      intro w inside
      cases inside
      exact plain c.action c.known

theorem bootWords_eq {settings : List Setting} (fits : ∀ s ∈ settings, s.Fits) (commands : List Command)
    (now : UInt32) : bootWords (settings.map Setting.word ++ commands.flatMap Command.words) now =
      (activeSchedPolicy (settings.foldl Setting.apply .initial).schedulerFlags).bind fun policy =>
        .ok ⟨{ settings.foldl Setting.apply .initial with random := some (Random.randomInit now) }, policy,
          commands.map Command.event⟩ := by
  rw [bootWords, parseWords_settings fits _ (no_option commands), ok_bind]
  dsimp only
  rw [chooseScheduler, runActions_commands]
  cases activeSchedPolicy (settings.foldl Setting.apply .initial).schedulerFlags with
  | error e => rfl
  | ok policy => rfl

theorem Setting.solid {s : Setting} (fits : s.Fits) : 0 ∉ s.word := by
  have numbers (n : Nat) : 0 ∉ numeral 10 1 n := fun inside =>
    absurd (numeral_digit (by decide) (by decide) inside).1 (by decide)
  have join {name value : Word} (front : 0 ∉ name) (behind : 0 ∉ value) : 0 ∉ name ++ 61 :: value := by
    rw [List.mem_append, List.mem_cons, not_or, not_or]
    exact ⟨front, by decide, behind⟩
  cases s with
  | powerOff | reboot | format => decide
  | filesys name | scratch name => exact join (by decide) fits.2
  | seed n | userLimit n => exact join (by decide) (numbers n)
  | scheduler policy => cases policy <;> decide

/-- A command line that is written for settings and actions does what these say, one after the other,
where no two schedulers are chosen. The generator starts from the time; a seed that is set is forgotten. -/
theorem boot_of_commands {settings : List Setting} {commands : List Command} {line : CArray}
    (fits : ∀ s ∈ settings, s.Fits) (strings : ∀ c ∈ commands, ∀ w ∈ c.arguments, 0 ∉ w)
    (few : (settings.map Setting.word ++ commands.flatMap Command.words).length ≤ 64)
    (made : makeKernelCommandLine (settings.map Setting.word ++ commands.flatMap Command.words) = some line)
    (back : CArray) (now : UInt32) :
    (∀ policy, (∀ q, .scheduler q ∈ settings → q = policy) → (.scheduler policy ∈ settings ∨ policy = .fifo) →
      boot (line ++ back) now = .ok ⟨{ settings.foldl Setting.apply .initial with
        random := some (Random.randomInit now) }, policy, commands.map Command.event⟩) ∧
    ∀ policy other, .scheduler policy ∈ settings → .scheduler other ∈ settings → policy ≠ other →
      ∃ message, boot (line ++ back) now = .error (.panic message) := by
  have solid : ∀ w ∈ settings.map Setting.word ++ commands.flatMap Command.words, 0 ∉ w := by
    intro w inside
    obtain setting | command := List.mem_append.mp inside
    · obtain ⟨s, listed, rfl⟩ := List.mem_map.mp setting
      exact s.solid (fits s listed)
    · obtain ⟨c, listed, here⟩ := List.mem_flatMap.mp command
      have names : ∀ a ∈ actions, 0 ∉ a.name := by decide
      obtain rfl | argument := List.mem_cons.mp here
      · exact names c.action c.known
      · exact strings c listed w argument
  have room : (settings.map Setting.word ++ commands.flatMap Command.words).length < argvLen := by
    rw [argvLen, loaderArgsLen]
    omega
  obtain ⟨g, flags, which⟩ := flags_foldl settings (o := .initial) (f := fun _ => false) rfl
  rw [boot_eq solid made room, bootWords_eq fits, flags]
  have chosen (q : SchedPolicy) : g q = true ↔ .scheduler q ∈ settings := by
    rw [which q, Bool.false_eq_true, false_or]
  constructor
  · intro policy only one
    by_cases here : .scheduler policy ∈ settings
    · rw [activeSchedPolicy_one ((chosen policy).mpr here) fun q on => only q ((chosen q).mp on)]
      rfl
    · have standard : policy = .fifo := one.resolve_left here
      have none (q : SchedPolicy) : g q = false := by
        refine Bool.eq_false_of_not_eq_true fun on => here ?_
        have listed := (chosen q).mp on
        rwa [only q listed] at listed
      rw [activeSchedPolicy_none none, standard]
      rfl
  · intro policy other here there apart
    obtain ⟨message, stops⟩ := activeSchedPolicy_two ((chosen policy).mpr here) ((chosen other).mpr there) apart
    rw [stops]
    exact ⟨message, rfl⟩

def runEcho : Command := ⟨⟨literal "run", 2, .runTask⟩, List.mem_cons_self, [literal "echo x"], rfl⟩

/-- "-q -filesys=hdb1 run 'echo x'" -/
theorem boot_of_run : ∃ line b,
    makeKernelCommandLine [literal "-q", literal "-filesys=hdb1", literal "run", literal "echo x"] = some line ∧
      boot (line ++ []) 0 = .ok b ∧ b.options.how = .powerOff ∧ b.options.filesysBdevName = some (literal "hdb1") ∧
      b.policy = .fifo ∧ b.events = [.invoke .runTask [literal "echo x"]] := by
  have fits : ∀ s ∈ [Setting.powerOff, .filesys (literal "hdb1")], s.Fits :=
    List.forall_mem_cons.mpr ⟨trivial, List.forall_mem_singleton.mpr ⟨by decide, by decide⟩⟩
  have strings : ∀ c ∈ [runEcho], ∀ w ∈ c.arguments, 0 ∉ w :=
    List.forall_mem_singleton.mpr (List.forall_mem_singleton.mpr (by decide))
  obtain ⟨line, made⟩ : ∃ line, makeKernelCommandLine
      ([Setting.powerOff, .filesys (literal "hdb1")].map Setting.word ++ [runEcho].flatMap Command.words) = some line :=
    ⟨_, rfl⟩
  have read := (boot_of_commands fits strings (by decide) made [] 0).1 .fifo (by simp) (.inr rfl)
  exact ⟨line, _, made, read, rfl, rfl, rfl, rfl⟩

end Commands
end CS162.Pintos.CommandLine
