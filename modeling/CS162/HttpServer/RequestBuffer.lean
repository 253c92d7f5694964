import CS162.HttpServer.FileRequest
import CS162.Library.CString

/-!
`http_request_parse` (hw-http, libhttp.c) over the memory it works on: the buffer that
`read` fills, the zero behind what it read, and the two strings. An allocation succeeds,
and what it holds at first may be anything. An access outside of these arrays is a fault.
The requests accepted are those of the grammar `[A-Z]+ ' ' [^ \n]+ [^\n]* '\n'` before the
first zero.
-/

namespace CS162.HttpServer
open CS162.Library

def libhttpRequestMaxSize : Nat := 8192

namespace InBuffers

/-- `malloc` of a size. -/
abbrev Malloc := (n : Nat) → Vector UInt8 n

section Model
variable (malloc : Malloc)

/-- `malloc (read_size + 1)`, `memcpy` from the buffer, and the zero behind. -/
def copyOut (buffer : CArray) (readStart readSize : Nat) : Except OutOfBounds CArray := do
  let bytes ← CArray.slice buffer readStart readSize
  let string ← CArray.fill (malloc (readSize + 1)).toList bytes
  CArray.store string readSize 0

/-- The rest of the request line, up to its end. -/
def parseLine (buffer : CArray) (readEnd : Nat) (request : HttpRequest) :
    Except OutOfBounds (Option HttpRequest) := do
  let lineSize ← CArray.scan isLineChar (buffer.drop readEnd)
  let newline ← CArray.load buffer (readEnd + lineSize)
  return if newline ≠ 0x0a then none else some request

/-- The path and what follows. -/
def parsePath (buffer : CArray) (readStart : Nat) (method : CArray) :
    Except OutOfBounds (Option HttpRequest) := do
  let readSize ← CArray.scan isPathChar (buffer.drop readStart)
  if readSize = 0 then return none
  else
    let path ← copyOut malloc buffer readStart readSize
    parseLine buffer (readStart + readSize) ⟨method, path⟩

/-- The body of the `do` loop. -/
def parseMethod (buffer : CArray) : Except OutOfBounds (Option HttpRequest) := do
  let readSize ← CArray.scan isMethodChar buffer
  if readSize = 0 then return none
  else
    let method ← copyOut malloc buffer 0 readSize
    let space ← CArray.load buffer readSize
    if space ≠ 0x20 then return none else parsePath malloc buffer (readSize + 1) method

/-- `http_request_parse`, where `read` returns these bytes. -/
def httpRequestParse (received : Bytes) : Except OutOfBounds (Option HttpRequest) := do
  let buffer ← CArray.fill (malloc (libhttpRequestMaxSize + 1)).toList received
  let buffer ← CArray.store buffer received.length 0
  parseMethod malloc buffer

end Model

section Refinement
variable {malloc : Malloc} {received front bytes back rest : Bytes}

/-- A request with the zeros that end its strings. -/
def terminated (request : HttpRequest) : HttpRequest := ⟨request.method ++ [0], request.path ++ [0]⟩

theorem copyOut_append :
    copyOut malloc (front ++ (bytes ++ rest)) front.length bytes.length = .ok (bytes ++ [0]) := by
  have size : (malloc (bytes.length + 1)).toList.length = bytes.length + 1 := Vector.length_toList
  obtain ⟨last, one⟩ := List.length_eq_one_iff.mp
    (show ((malloc (bytes.length + 1)).toList.drop bytes.length).length = 1 by rw [List.length_drop, size]; omega)
  rw [copyOut, CArray.slice_append, ok_bind, CArray.fill_of_le (by omega), ok_bind, one]
  exact CArray.store_append

theorem scan_received {p : UInt8 → Bool} (zero : p 0 = false) :
    CArray.scan p ((front ++ (back ++ 0 :: rest)).drop front.length) = .ok (back.takeWhile p).length := by
  rw [List.drop_left, CArray.scan_append zero]

theorem load_received (front back rest : Bytes) :
    CArray.load (front ++ (back ++ 0 :: rest)) front.length = .ok (back.head?.getD 0) := by
  cases back with
  | nil => exact CArray.load_append
  | cons c back => exact CArray.load_append

theorem parseLine_eq (front line rest : Bytes) (request : HttpRequest) :
    parseLine (front ++ (line ++ 0 :: rest)) front.length request =
      .ok (if (line.dropWhile isLineChar).head? = some 0x0a then some request else none) := by
  have split := (List.takeWhile_append_dropWhile (p := isLineChar) (l := line)).symm
  rw [parseLine, scan_received (by decide), ok_bind]
  generalize line.takeWhile isLineChar = version at *
  generalize line.dropWhile isLineChar = tail at *
  subst split
  have shape : front ++ (version ++ tail ++ 0 :: rest) = (front ++ version) ++ (tail ++ 0 :: rest) := by simp
  rw [shape, ← List.length_append, load_received, ok_bind]
  cases tail with
  | nil => rfl
  | cons c tail =>
      rw [List.head?_cons, Option.getD_some]
      by_cases newline : c = 0x0a
      · rw [if_neg (not_not.mpr newline), if_pos (congrArg some newline)]
        rfl
      · rw [if_pos newline, if_neg (by simpa using newline)]
        rfl

theorem parsePath_eq (front back rest method : Bytes) :
    parsePath malloc (front ++ (back ++ 0 :: rest)) front.length method =
      .ok (if back.takeWhile isPathChar = [] then none
        else if ((back.dropWhile isPathChar).dropWhile isLineChar).head? = some 0x0a then
          some ⟨method, back.takeWhile isPathChar ++ [0]⟩
        else none) := by
  have split := (List.takeWhile_append_dropWhile (p := isPathChar) (l := back)).symm
  rw [parsePath, scan_received (by decide), ok_bind]
  generalize back.takeWhile isPathChar = path at *
  generalize back.dropWhile isPathChar = line at *
  subst split
  by_cases no_path : path = []
  · rw [if_pos no_path, if_pos (List.length_eq_zero_iff.mpr no_path)]
    rfl
  · rw [if_neg no_path, if_neg (mt List.length_eq_zero_iff.mp no_path), List.append_assoc, copyOut_append,
      ok_bind, ← List.append_assoc, ← List.length_append, parseLine_eq]

theorem parseMethod_eq (received rest : Bytes) :
    parseMethod malloc (received ++ 0 :: rest) = .ok ((HttpServer.httpRequestParse received).map terminated) := by
  have split := (List.takeWhile_append_dropWhile (p := isMethodChar) (l := received)).symm
  rw [parseMethod, CArray.scan_append (by decide), ok_bind, HttpServer.httpRequestParse]
  generalize received.takeWhile isMethodChar = method at *
  generalize received.dropWhile isMethodChar = back at *
  subst split
  by_cases no_method : method = []
  · rw [if_pos no_method, if_pos (List.length_eq_zero_iff.mpr no_method)]
    rfl
  have copied : copyOut malloc (method ++ (back ++ 0 :: rest)) 0 method.length = .ok (method ++ [0]) :=
    @copyOut_append malloc [] method _
  rw [if_neg no_method, if_neg (mt List.length_eq_zero_iff.mp no_method), List.append_assoc, copied, ok_bind,
    load_received, ok_bind]
  cases back with
  | nil => rfl
  | cons c back =>
      rw [List.head?_cons, Option.getD_some]
      by_cases space : c = 0x20
      · subst space
        have shape : method ++ (0x20 :: back ++ 0 :: rest) = (method ++ [0x20]) ++ (back ++ 0 :: rest) := by simp
        have next : method.length + 1 = (method ++ [0x20]).length := by simp
        rw [if_neg (not_not.mpr rfl), shape, next, parsePath_eq]
        simp only
        by_cases no_path : back.takeWhile isPathChar = []
        · rw [if_pos no_path, if_pos no_path]
          rfl
        · rw [if_neg no_path, if_neg no_path]
          split <;> rfl
      · rw [if_pos space]
        split
        next same => exact absurd (List.cons.inj same).1 space
        next => rfl

/-- No access is out of bounds, and what is parsed is what the bytes read say. -/
theorem httpRequestParse_eq (fits : received.length ≤ libhttpRequestMaxSize) :
    httpRequestParse malloc received = .ok ((HttpServer.httpRequestParse received).map terminated) := by
  have size : (malloc (libhttpRequestMaxSize + 1)).toList.length = libhttpRequestMaxSize + 1 := Vector.length_toList
  obtain ⟨c, rest, room⟩ := List.exists_cons_of_length_pos
    (show 0 < ((malloc (libhttpRequestMaxSize + 1)).toList.drop received.length).length by
      rw [List.length_drop, size]; omega)
  rw [httpRequestParse, CArray.fill_of_le (by omega), ok_bind, room, CArray.store_append, ok_bind, parseMethod_eq]

end Refinement
end InBuffers

section Grammar
variable {received text method path : Bytes} {request : HttpRequest}

/-- The bytes before the first zero. -/
def textOf (received : Bytes) : Bytes := received.takeWhile (· != 0)

/-- The text starts with a request line: `[A-Z]+ ' ' [^ \n]+ [^\n]* '\n'`. -/
def RequestLine (text method path : Bytes) : Prop :=
  ∃ version tail, text = method ++ 0x20 :: (path ++ (version ++ 0x0a :: tail)) ∧
    (method ≠ [] ∧ ∀ c ∈ method, 0x41 ≤ c ∧ c ≤ 0x5a) ∧
    (path ≠ [] ∧ ∀ c ∈ path, c ≠ 0x20 ∧ c ≠ 0x0a) ∧ ∀ c ∈ version, c ≠ 0x0a

/-- Of the method and the path, each is all that it can be. -/
structure Maximal (text method path : Bytes) : Prop where
  methodRun : method = text.takeWhile fun c => 0x41 ≤ c && c ≤ 0x5a
  pathRun : path = (text.drop (method.length + 1)).takeWhile fun c => c != 0x20 && c != 0x0a

/-- What `http_request_parse` should do with what it has read. -/
def ParsesExactly (received : Bytes) (result : Option HttpRequest) : Prop :=
  (result.isSome ↔ ∃ method path, RequestLine (textOf received) method path) ∧
    ∀ request, result = some request → ∃ method path, RequestLine (textOf received) method path ∧
      Maximal (textOf received) method path ∧ request = ⟨method ++ [0], path ++ [0]⟩

theorem ne_zero_of_textOf {c : UInt8} (inside : c ∈ textOf received) : c ≠ 0 := by
  simpa using List.mem_takeWhile_imp inside

/-- A request line before the first zero is one of all bytes, without zeros. -/
theorem requestLine_received (line : RequestLine (textOf received) method path) :
    ∃ version tail, received = method ++ 0x20 :: (path ++ (version ++ 0x0a :: tail)) ∧
      (method ≠ [] ∧ ∀ c ∈ method, isMethodChar c = true) ∧
      (path ≠ [] ∧ ∀ c ∈ path, isPathChar c = true) ∧ ∀ c ∈ version, isLineChar c = true := by
  obtain ⟨version, tail, split, ⟨some_method, upper⟩, ⟨some_path, solid⟩, rest⟩ := line
  have nonzero : ∀ c ∈ method ++ 0x20 :: (path ++ (version ++ 0x0a :: tail)), c ≠ 0 :=
    fun c inside => ne_zero_of_textOf (split ▸ inside)
  have whole : textOf received ++ received.dropWhile (· != 0) = received := List.takeWhile_append_dropWhile
  refine ⟨version, tail ++ received.dropWhile (· != 0), ?_, ⟨some_method, fun c inside => ?_⟩,
    ⟨some_path, fun c inside => ?_⟩, fun c inside => ?_⟩
  · rw [split] at whole
    simpa using whole.symm
  · simpa [isMethodChar] using upper c inside
  · have := nonzero c (by simp [inside])
    simp [isPathChar, this, solid c inside]
  · have := nonzero c (by simp [inside])
    simp [isLineChar, this, rest c inside]

theorem httpRequestParse_isSome (line : RequestLine (textOf received) method path) :
    (httpRequestParse received).isSome := by
  obtain ⟨version, tail, rfl, ⟨some_method, upper⟩, ⟨some_path, solid⟩, rest⟩ := requestLine_received line
  have method_run := span_eq_iff (p := isMethodChar) (l := method ++ 0x20 :: (path ++ (version ++ 0x0a :: tail)))
    |>.mpr ⟨rfl, upper, fun c first => by cases first; rfl⟩
  have all_line : ∀ c ∈ path ++ version, isLineChar c = true := by
    intro c inside
    obtain inside | inside := List.mem_append.mp inside
    · have := solid c inside
      simp only [isPathChar, Bool.and_eq_true] at this
      simp [isLineChar, this.1.1, this.2]
    · exact rest c inside
  have behind : (path ++ (version ++ 0x0a :: tail)).dropWhile isPathChar =
      (path ++ version).dropWhile isPathChar ++ 0x0a :: tail := by
    rw [← List.append_assoc, List.dropWhile_append]
    split
    next none_left => rw [List.isEmpty_iff.mp none_left]; rfl
    next => rfl
  have newline :
      (((path ++ (version ++ 0x0a :: tail)).dropWhile isPathChar).dropWhile isLineChar).head? = some 0x0a := by
    rw [behind, List.dropWhile_append_of_pos fun c inside => all_line c (List.dropWhile_sublist _ |>.subset inside)]
    rfl
  have some_run : (path ++ (version ++ 0x0a :: tail)).takeWhile isPathChar ≠ [] := by
    obtain ⟨c, path, rfl⟩ := List.exists_cons_of_ne_nil some_path
    rw [List.cons_append, List.takeWhile_cons_of_pos (solid c List.mem_cons_self)]
    exact List.cons_ne_nil _ _
  rw [httpRequestParse, method_run.1, method_run.2, if_neg some_method]
  simp only [some_run, newline, if_true, if_false]
  rfl

theorem textOf_append {front back : Bytes} (nonzero : ∀ c ∈ front, c ≠ 0) :
    textOf (front ++ back) = front ++ textOf back :=
  List.takeWhile_append_of_pos fun c inside => by simpa using nonzero c inside

/-- What is accepted is a request line, split where its parts cannot be longer. -/
theorem received_of_parse (parsed : httpRequestParse received = some request) :
    ∃ version tail, received = request.method ++ 0x20 :: (request.path ++ (version ++ 0x0a :: tail)) ∧
      (request.method ≠ [] ∧ ∀ c ∈ request.method, isMethodChar c = true) ∧
      (request.path ≠ [] ∧ ∀ c ∈ request.path, isPathChar c = true) ∧
      (∀ c ∈ version, isLineChar c = true) ∧ ∀ c, version.head? = some c → c = 0x20 := by
  rw [httpRequestParse] at parsed
  obtain ⟨split, upper, -⟩ := span_eq_iff.mp (And.intro (Eq.refl (received.takeWhile isMethodChar)) rfl)
  generalize received.takeWhile isMethodChar = method at *
  generalize received.dropWhile isMethodChar = back at *
  dsimp only at parsed
  split at parsed
  · cases parsed
  next some_method =>
  split at parsed
  case h_2 => cases parsed
  next back rest =>
  obtain ⟨split', solid, stop⟩ := span_eq_iff.mp (And.intro (Eq.refl (rest.takeWhile isPathChar)) rfl)
  generalize rest.takeWhile isPathChar = path at *
  generalize rest.dropWhile isPathChar = line at *
  split at parsed
  · cases parsed
  next some_path =>
  split at parsed
  case isFalse => cases parsed
  next newline =>
  cases parsed
  obtain ⟨split'', chars, -⟩ := span_eq_iff.mp (And.intro (Eq.refl (line.takeWhile isLineChar)) rfl)
  obtain ⟨tail, tail_eq⟩ := List.head?_eq_some_iff.mp newline
  rw [tail_eq] at split''
  generalize line.takeWhile isLineChar = version at *
  refine ⟨version, tail, by rw [split, split', split''], ⟨some_method, upper⟩, ⟨some_path, solid⟩, chars, ?_⟩
  intro c first
  have stopped := stop c (by rw [split'', List.head?_append, first]; rfl)
  have inside := chars c (List.mem_of_head? first)
  simp only [isLineChar, Bool.and_eq_true] at inside
  simpa [isPathChar, inside.1, inside.2] using stopped

theorem requestLine_of_parse (parsed : httpRequestParse received = some request) :
    RequestLine (textOf received) request.method request.path ∧
      Maximal (textOf received) request.method request.path := by
  obtain ⟨version, tail, split, ⟨some_method, upper⟩, ⟨some_path, solid⟩, chars, stop⟩ := received_of_parse parsed
  have path_chars : ∀ c ∈ request.path, c ≠ 0 ∧ c ≠ 0x20 ∧ c ≠ 0x0a := fun c inside => by
    simpa [isPathChar, and_assoc] using solid c inside
  have version_chars : ∀ c ∈ version, c ≠ 0 ∧ c ≠ 0x0a := fun c inside => by
    simpa [isLineChar] using chars c inside
  have upper_chars : ∀ c ∈ request.method, 0x41 ≤ c ∧ c ≤ 0x5a := fun c inside => by
    simpa [isMethodChar] using upper c inside
  have text : textOf received = request.method ++ 0x20 :: (request.path ++ (version ++ 0x0a :: textOf tail)) := by
    rw [split, textOf_append, textOf, List.takeWhile_cons_of_pos (by decide), ← textOf, textOf_append, textOf_append,
      textOf, List.takeWhile_cons_of_pos (by decide), ← textOf]
    · exact fun c inside => (version_chars c inside).1
    · exact fun c inside => (path_chars c inside).1
    · rintro c inside rfl
      exact absurd (upper_chars 0 inside).1 (by decide)
  rw [text]
  refine ⟨⟨version, textOf tail, rfl, ⟨some_method, upper_chars⟩,
    ⟨some_path, fun c inside => (path_chars c inside).2⟩, fun c inside => (version_chars c inside).2⟩, ?_, ?_⟩
  · refine (span_eq_iff.mpr ⟨rfl, fun c inside => by simpa using upper_chars c inside, fun c first => ?_⟩).1.symm
    cases first
    rfl
  · have drop : (request.method ++ 0x20 :: (request.path ++ (version ++ 0x0a :: textOf tail))).drop
        (request.method.length + 1) = request.path ++ (version ++ 0x0a :: textOf tail) := by
      rw [← List.drop_drop, List.drop_left]
      rfl
    rw [drop]
    refine (span_eq_iff.mpr ⟨rfl, fun c inside => by simpa using (path_chars c inside).2, fun c first => ?_⟩).1.symm
    cases version with
    | nil =>
        cases first
        rfl
    | cons d version =>
        cases first
        cases stop c rfl
        rfl

/-- Whatever is read, `http_request_parse` stays inside its arrays, and returns a request
exactly for the texts of the grammar, with the method and the path as its strings. -/
theorem httpRequestParse_exact (malloc : InBuffers.Malloc) (fits : received.length ≤ libhttpRequestMaxSize) :
    ∃ result, InBuffers.httpRequestParse malloc received = .ok result ∧ ParsesExactly received result := by
  refine ⟨_, InBuffers.httpRequestParse_eq fits, ?_, fun request made => ?_⟩
  · rw [Option.isSome_map]
    constructor
    · intro accepted
      obtain ⟨request, parsed⟩ := Option.isSome_iff_exists.mp accepted
      exact ⟨_, _, (requestLine_of_parse parsed).1⟩
    · intro line
      obtain ⟨method, path, line⟩ := line
      exact httpRequestParse_isSome line
  · obtain ⟨parsed, done, rfl⟩ := Option.map_eq_some_iff.mp made
    obtain ⟨line, maximal⟩ := requestLine_of_parse done
    exact ⟨_, _, line, maximal, rfl⟩

/-- `GET / HTTP/1.0` -/
def getRoot : Bytes := [0x47, 0x45, 0x54, 0x20, 0x2f, 0x20, 0x48, 0x54, 0x54, 0x50, 0x2f, 0x31, 0x2e, 0x30, 0x0a]

theorem httpRequestParse_exact_getRoot :
    ∃ result, InBuffers.httpRequestParse (fun n => .replicate n 0xff) getRoot = .ok result ∧
      ParsesExactly getRoot result :=
  httpRequestParse_exact _ (by decide)

end Grammar
end CS162.HttpServer
