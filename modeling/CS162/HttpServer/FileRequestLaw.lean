import Mathlib.Data.List.Infix
import CS162.Library.Outcome
import CS162.HttpServer.FileRequest

/-!
When the file server answers a request as it should: one status line with one header
block, the right status, a body as long as its header says, and no way out of the
directory it serves. It sends the header of a file before it opens the file, and sends
nothing for a directory that it cannot open or whose index.html is no regular file,
nor for anything else that is no regular file.
-/

namespace CS162.HttpServer
open CS162.Library

def Event.written : Event → Bool
  | .openPath _ => false
  | _ => true

/-- A status line, a header block, a body and the end. -/
def response (code : Nat) (headers : List (String × String)) (bodies : List Bytes) : List Event :=
  httpStartResponse code :: headers.map (fun h => .header h.1 h.2) ++ .endHeaders :: bodies.map .body ++ [.close]

/-- The path that is looked up for a request that is let through. -/
def target (received : Bytes) : Option Bytes :=
  match httpRequestParse received with
  | none => none
  | some request =>
      if request.path.head? = some slash ∧ hasDots request.path = false then some (dot :: slash :: request.path)
      else none

/-- The status that is settled before the file system is looked at, or by there being
nothing at the path. -/
def errorStatus (fs : FileSystem) (received : Bytes) : Option Nat :=
  match httpRequestParse received with
  | none => some 400
  | some request =>
      if request.path.head? ≠ some slash then some 400
      else if [dot, dot] <:+: request.path then some 403
      else if fs (dot :: slash :: request.path) = none then some 404
      else none

/-- What a client may expect of the events of one request. -/
def Answered (fs : FileSystem) (received : Bytes) (events : List Event) : Prop :=
  (∃ code headers bodies, events.filter Event.written = response code headers bodies ∧
    (∀ status, errorStatus fs received = some status → code = status) ∧
    (code = 200 → ∀ value, ("Content-Length", value) ∈ headers →
      value = toString bodies.flatten.length ∧ ∃ path readable, .openPath path ∈ events ∧
        fs path = some (.regular bodies.flatten readable))) ∧
  ∀ path, .openPath path ∈ events → [dot, dot] ∉ path.splitOn slash

/-- The file can be opened, or there is nothing in it. -/
def Servable (node : Option FileNode) : Prop :=
  ∃ content readable, node = some (.regular content readable) ∧ (readable = true ∨ content = [])

/-- What the server can answer for a path: nothing there; a file that can be opened, or is
empty; a directory that can be opened, with such an index.html or at most 1024 entries. -/
def Answerable (fs : FileSystem) (path : Bytes) : Prop :=
  match fs path with
  | none => True
  | some (.regular content readable) => readable = true ∨ content = []
  | some (.directory none) => False
  | some (.directory (some entries)) =>
      (entries.takeWhile (· ≠ indexHtml)).length ≤ 1024 ∧
        (indexHtml ∈ entries → Servable (fs (httpFormatIndex path)))
  | some .other => False

/-- The path and the names of the entries are short enough for the buffers. -/
def Fits (fs : FileSystem) (path : Bytes) : Prop :=
  (httpFormatIndex path).length < 100 ∧
    ∀ entries, fs path = some (.directory (some entries)) → ∀ name ∈ entries, name.length ≤ 38

section Dots
variable {path front back : Bytes}

theorem hasDots_append (front back : Bytes) : hasDots (front ++ dot :: dot :: back) = true := by
  induction front with
  | nil => simp [hasDots]
  | cons a front ih =>
      cases front with
      | nil => simp [hasDots]
      | cons b front =>
          rw [List.cons_append, List.cons_append, hasDots, Bool.or_eq_true]
          exact .inr ih

theorem hasDots_iff : hasDots path = true ↔ [dot, dot] <:+: path := by
  constructor
  · intro dots
    induction path with
    | nil => cases dots
    | cons a path ih =>
        cases path with
        | nil => cases dots
        | cons b path =>
            rw [hasDots, Bool.or_eq_true, Bool.and_eq_true, beq_iff_eq, beq_iff_eq] at dots
            obtain ⟨rfl, rfl⟩ | later := dots
            · exact ⟨[], path, rfl⟩
            · exact (ih later).trans (List.suffix_cons a _).isInfix
  · intro inside
    obtain ⟨front, back, rfl⟩ := inside
    rw [List.append_assoc]
    exact hasDots_append front back

theorem hasDots_slash (front back : Bytes) : hasDots (front ++ slash :: back) = (hasDots front || hasDots back) := by
  have apart : (slash == dot) = false := by decide
  have skip (back : Bytes) : hasDots (slash :: back) = hasDots back := by
    cases back with
    | nil => rfl
    | cons b back => rw [hasDots, apart, Bool.false_and, Bool.false_or]
  induction front with
  | nil => exact skip back
  | cons a front ih =>
      cases front with
      | nil =>
          rw [List.singleton_append, hasDots, apart, Bool.and_false, Bool.false_or, skip]
          rfl
      | cons b front =>
          rw [List.cons_append] at ih ⊢
          rw [List.cons_append, hasDots, ih, hasDots, Bool.or_assoc]

theorem infix_of_mem_splitOn (path : Bytes) : ∃ first others, path.splitOn slash = first :: others ∧ first <+: path ∧
    ∀ part ∈ others, part <:+: path := by
  induction path with
  | nil => exact ⟨[], [], rfl, List.prefix_rfl, fun part inside => absurd inside List.not_mem_nil⟩
  | cons c path ih =>
      obtain ⟨first, others, split, start, inside⟩ := ih
      rw [List.splitOn_cons_eq_if_modifyHead, split]
      split
      · refine ⟨[], first :: others, rfl, List.nil_prefix, fun part there => ?_⟩
        cases there with
        | head => exact start.isInfix.trans (List.suffix_cons c path).isInfix
        | tail _ there => exact (inside part there).trans (List.suffix_cons c path).isInfix
      · refine ⟨c :: first, others, rfl, List.cons_prefix_cons.mpr ⟨rfl, start⟩, fun part there => ?_⟩
        exact (inside part there).trans (List.suffix_cons c path).isInfix

theorem not_dots_component (none_left : hasDots path = false) : [dot, dot] ∉ path.splitOn slash := by
  intro there
  obtain ⟨first, others, split, start, inside⟩ := infix_of_mem_splitOn path
  rw [split] at there
  have part : [dot, dot] <:+: path := by
    cases there with
    | head => exact start.isInfix
    | tail _ there => exact inside _ there
  rw [hasDots_iff.mpr part] at none_left
  cases none_left

end Dots

section Bodies

theorem reads_flatten (content : Bytes) : (reads content).flatten = content := by
  induction hn : content.length using Nat.strongRecOn generalizing content with
  | _ n ih =>
      rw [reads]
      split
      next none_left => rw [none_left, List.flatten_nil]
      next some_left =>
        have length := List.length_pos_of_ne_nil some_left
        have shorter : (content.drop maxBuff).length < n := by
          rw [← hn, List.length_drop]
          exact Nat.sub_lt length (by decide)
        rw [List.flatten_cons, ih _ shorter _ rfl, List.take_append_drop]

theorem toString_inj {m n : Nat} (same : toString m = toString n) : m = n := by
  rw [Nat.toString_eq_repr, Nat.toString_eq_repr] at same
  have digits := congrArg (fun s : String => Nat.ofDigitChars 10 s.toList 0) same
  simpa only [Nat.toList_repr, Nat.ofDigitChars_ten_toDigits] using digits

theorem response_inj {code code' : Nat} {headers headers' : List (String × String)} {bodies bodies' : List Bytes}
    (same : response code headers bodies = response code' headers' bodies') :
    code = code' ∧ headers = headers' ∧ bodies = bodies' := by
  have split := List.cons.inj (List.append_cancel_right same)
  refine ⟨?_, ?_⟩
  · cases split.1
    rfl
  · have rest := split.2
    clear split same
    induction headers generalizing headers' with
    | nil =>
        cases headers' with
        | nil => exact ⟨rfl, List.map_injective_iff.mpr (fun a b h => by cases h; rfl) (List.cons.inj rest).2⟩
        | cons h' headers' => cases rest
    | cons h headers ih =>
        cases headers' with
        | nil => cases rest
        | cons h' headers' =>
            have heads := List.cons.inj rest
            obtain ⟨rfl, rfl⟩ := ih heads.2
            have head := Event.header.inj heads.1
            exact ⟨congrArg (· :: headers) (Prod.ext head.1 head.2), rfl⟩

end Bodies

section Target
variable {fs : FileSystem} {received path : Bytes}

theorem hasDots_target {path : Bytes} (none_left : hasDots path = false) :
    hasDots (dot :: slash :: path) = false := by
  have split := hasDots_slash [dot] path
  rw [none_left] at split
  exact split

theorem hasDots_index (none_left : hasDots path = false) : hasDots (httpFormatIndex path) = false := by
  rw [httpFormatIndex, hasDots_slash, none_left]
  decide

/-- A request that is let through names a path without `..`; what happens next depends on
what is there. -/
theorem handle_of_target (fs : FileSystem) (found : target received = some path) :
    hasDots path = false ∧
      errorStatus fs received = (if fs path = none then some 404 else none) ∧
      handleFilesRequest fs received =
        match fs path with
        | none => .ok (errorResponse 404 ++ [.close])
        | some (.regular content _) => .ok (serveFile fs path content.length ++ [.close])
        | some (.directory _) => (serveDirectory fs path).map (· ++ [.close])
        | some .other => .ok [.close] := by
  rw [target] at found
  rw [errorStatus, handleFilesRequest]
  cases parsed : httpRequestParse received with
  | none =>
      rw [parsed] at found
      cases found
  | some request =>
      rw [parsed] at found
      simp only at found ⊢
      split at found
      next good =>
        cases found
        have no_dots : ¬ [dot, dot] <:+: request.path := by
          rw [← hasDots_iff, good.2]
          exact Bool.false_ne_true
        refine ⟨hasDots_target good.2, ?_, ?_⟩
        · rw [if_neg (not_not.mpr good.1), if_neg no_dots]
        · rw [if_neg (not_not.mpr good.1), good.2, if_neg Bool.false_ne_true]
          cases fs (dot :: slash :: request.path) with
          | none => rfl
          | some node =>
              cases node with
              | regular content readable => rfl
              | directory entries =>
                  simp only
                  cases serveDirectory fs (dot :: slash :: request.path) <;> rfl
              | other => rfl
      next => cases found

/-- Any other request is turned down with the status of what is wrong with it. -/
theorem handle_of_no_target (fs : FileSystem) (refused : target received = none) :
    ∃ code, errorStatus fs received = some code ∧ code ≠ 200 ∧
      handleFilesRequest fs received = .ok (errorResponse code ++ [.close]) := by
  rw [target] at refused
  rw [errorStatus, handleFilesRequest]
  cases parsed : httpRequestParse received with
  | none => exact ⟨400, rfl, by decide, rfl⟩
  | some request =>
      rw [parsed] at refused
      simp only at refused ⊢
      split at refused
      next => cases refused
      next bad =>
        by_cases start : request.path.head? = some slash
        case neg =>
          refine ⟨400, if_pos start, by decide, if_pos start⟩
        case pos =>
          have dots : hasDots request.path = true := by
            by_contra no_dots
            exact bad ⟨start, by simpa using no_dots⟩
          refine ⟨403, ?_, by decide, ?_⟩
          · rw [if_neg (not_not.mpr start), if_pos (hasDots_iff.mp dots)]
          · rw [if_neg (not_not.mpr start), dots, if_pos rfl]

end Target

section Answers
variable {fs : FileSystem} {received path : Bytes}

theorem answered_error {code : Nat} (settled : errorStatus fs received = some code) (failure : code ≠ 200) :
    Answered fs received (errorResponse code ++ [.close]) := by
  refine ⟨⟨code, [("Content-Type", "text/html")], [], rfl, fun status same => ?_, fun success => ?_⟩, ?_⟩
  · rw [settled] at same
    exact Option.some.inj same
  · exact absurd success failure
  · intro path opened
    simp [errorResponse, httpStartResponse] at opened

/-- What `serve_file` sends as the body. -/
def sent (fs : FileSystem) (path : Bytes) : List Bytes :=
  match fs path with
  | some (.regular content true) => reads content
  | _ => []

theorem filter_written (before : List Event) (silent : ∀ event ∈ before, event.written = false) (rest : List Event) :
    (before ++ rest).filter Event.written = rest.filter Event.written := by
  rw [List.filter_append, List.filter_eq_nil_iff.mpr (fun event there => by simp [silent event there]),
    List.nil_append]

theorem filter_body (bodies : List Bytes) : (bodies.map Event.body).filter Event.written = bodies.map Event.body := by
  refine List.filter_eq_self.mpr fun event there => ?_
  obtain ⟨bytes, -, rfl⟩ := List.mem_map.mp there
  rfl

theorem serveFile_written (fs : FileSystem) (path : Bytes) (before : List Event)
    (silent : ∀ event ∈ before, event.written = false) (size : Nat) :
    (before ++ (serveFile fs path size ++ [Event.close])).filter Event.written =
      response 200 [("Content-Type", httpGetMimeType path), ("Content-Length", toString size)] (sent fs path) := by
  rw [filter_written before silent, List.filter_append, serveFile, List.filter_append, filter_body]
  rfl

/-- A file that is found is sent as promised when it can be opened or is empty. -/
theorem serveFile_answered_iff {content : Bytes} {readable : Bool} (before : List Event)
    (silent : ∀ event ∈ before, event.written = false)
    (inside : ∀ path, .openPath path ∈ before → [dot, dot] ∉ path.splitOn slash)
    (here : [dot, dot] ∉ path.splitOn slash) (found : fs path = some (.regular content readable))
    (unsettled : errorStatus fs received = none) :
    Answered fs received (before ++ (serveFile fs path content.length ++ [.close])) ↔
      readable = true ∨ content = [] := by
  have written := serveFile_written fs path before silent content.length
  constructor
  · intro answered
    obtain ⟨⟨code, headers, bodies, same, -, success⟩, -⟩ := answered
    obtain ⟨rfl, rfl, rfl⟩ := response_inj (written.symm.trans same)
    cases readable with
    | true => exact .inl rfl
    | false =>
        have length := (success rfl _ (List.mem_cons_of_mem _ List.mem_cons_self)).1
        rw [sent, found] at length
        exact .inr (List.length_eq_zero_iff.mp (toString_inj length))
  · intro servable
    have whole : (sent fs path).flatten = content := by
      rw [sent, found]
      cases readable with
      | true => exact reads_flatten content
      | false => exact (servable.resolve_left Bool.false_ne_true).symm
    refine ⟨⟨200, _, _, written, fun status same => ?_, fun _ value there => ?_⟩, fun path' opened => ?_⟩
    · rw [unsettled] at same
      cases same
    · have value_eq : value = toString content.length := by simpa using there
      refine ⟨by rw [whole, value_eq], path, readable, ?_, by rw [whole, found]⟩
      exact List.mem_append_right before (by simp [serveFile])
    · obtain earlier | opened := List.mem_append.mp opened
      · exact inside path' earlier
      · have same : path' = path := by simpa [serveFile, httpStartResponse] using opened
        exact same ▸ here

theorem not_answered_of_silent {events : List Event} (silent : ∀ event ∈ events, event.written = false) :
    ¬ Answered fs received (events ++ [.close]) := by
  intro answered
  obtain ⟨⟨code, headers, bodies, same, -, -⟩, -⟩ := answered
  rw [List.filter_append, List.filter_eq_nil_iff.mpr (fun event there => by simp [silent event there])] at same
  cases same

/-- Without a length in its header, a listing is an answer whatever its lines. -/
theorem listing_answered (here : [dot, dot] ∉ path.splitOn slash) (unsettled : errorStatus fs received = none)
    (mime : String) (lines : List Bytes) :
    Answered fs received ([.openPath path, httpStartResponse 200, .header "Content-Type" mime, .endHeaders] ++
      lines.map .body ++ [.close]) := by
  refine ⟨⟨200, [("Content-Type", mime)], lines, ?_, fun status same => ?_, fun _ value there => ?_⟩,
    fun path' opened => ?_⟩
  · rw [List.filter_append, List.filter_append, filter_body]
    rfl
  · rw [unsettled] at same
    cases same
  · simp at there
  · have same : path' = path := by simpa [httpStartResponse] using opened
    exact same ▸ here

end Answers

section Directory
variable {fs : FileSystem} {received path : Bytes} {entries : List Bytes}

/-- The line that the listing has for a name. -/
def listingLine (path name : Bytes) : Bytes := httpFormatHref path name ++ [0x0a]

theorem listingLine_length (path name : Bytes) :
    (listingLine path name).length = path.length + 2 * name.length + 23 := by
  have tags : (ascii "<a href=\"/").length = 10 ∧ (ascii "/").length = 1 ∧ (ascii "\">").length = 2 ∧
      (ascii "</a><br/>").length = 9 := by decide
  simp only [listingLine, httpFormatHref, List.length_append, tags, List.length_singleton]
  omega

theorem readEntries_eq (short : path.length < 1025) (names : ∀ name ∈ entries, name.length ≤ 38) {cnt : Nat}
    (room : cnt ≤ 1024) :
    readEntries path entries cnt =
      if cnt + (entries.takeWhile (· ≠ indexHtml)).length ≤ 1024 then
        .ok (decide (indexHtml ∈ entries), (entries.takeWhile (· ≠ indexHtml)).map (listingLine path))
      else .error .buffers := by
  induction entries generalizing cnt with
  | nil => exact (if_pos room).symm
  | cons name entries ih =>
      rw [readEntries, if_neg (Nat.not_le_of_lt short)]
      by_cases index : name = indexHtml
      · subst index
        rw [if_pos rfl, List.takeWhile_cons_of_neg (by simp)]
        simp [room]
      · have line : ¬ path.length + 100 ≤ (httpFormatHref path name ++ [0x0a]).length := by
          have length := listingLine_length path name
          have few := names name List.mem_cons_self
          rw [listingLine] at length
          omega
        rw [if_neg index, List.takeWhile_cons_of_pos (by simpa using index), List.length_cons]
        by_cases full : 1024 ≤ cnt
        · rw [if_pos full, if_neg (by omega)]
        · simp only [if_neg full, if_neg line]
          rw [ih (fun name' there => names name' (List.mem_cons_of_mem _ there)) (by omega)]
          by_cases fits : cnt + 1 + (entries.takeWhile (· ≠ indexHtml)).length ≤ 1024
          · rw [if_pos fits, if_pos (by omega)]
            simp [Ne.symm index, listingLine]
          · rw [if_neg fits, if_neg (by omega)]
            rfl

theorem openPath_silent : ∀ event ∈ [Event.openPath path], event.written = false := by
  intro event there
  cases List.mem_singleton.mp there
  rfl

theorem serveDirectory_eq (fits : Fits fs path) (found : fs path = some (.directory (some entries))) :
    serveDirectory fs path =
      if (entries.takeWhile (· ≠ indexHtml)).length ≤ 1024 then
        .ok (if indexHtml ∈ entries then
          match fs (httpFormatIndex path) with
          | some (.regular content _) => .openPath path :: serveFile fs (httpFormatIndex path) content.length
          | _ => [.openPath path]
        else [.openPath path, httpStartResponse 200, .header "Content-Type" (httpGetMimeType (ascii ".html")),
          .endHeaders] ++ ((entries.takeWhile (· ≠ indexHtml)).map (listingLine path)).map .body)
      else .error .buffers := by
  have short : path.length < 1025 := by
    have html := fits.1
    rw [httpFormatIndex, List.length_append] at html
    omega
  simp only [serveDirectory, if_neg (Nat.not_le_of_lt fits.1), found,
    readEntries_eq short (fits.2 entries found) (Nat.zero_le _), Nat.zero_add]
  split
  · by_cases index : indexHtml ∈ entries
    · simp only [index, decide_true, if_true, ok_bind]
      cases fs (httpFormatIndex path) with
      | none => rfl
      | some node => cases node <;> rfl
    · simp only [index, decide_false, if_false, Bool.false_eq_true, ok_bind]
      rfl
  · rfl

theorem serveDirectory_answered_iff (fits : Fits fs path) (found : fs path = some (.directory (some entries)))
    (no_dots : hasDots path = false) (unsettled : errorStatus fs received = none) :
    (∃ events, (serveDirectory fs path).map (· ++ [.close]) = .ok events ∧ Answered fs received events) ↔
      (entries.takeWhile (· ≠ indexHtml)).length ≤ 1024 ∧
        (indexHtml ∈ entries → Servable (fs (httpFormatIndex path))) := by
  have inside : ∀ path', .openPath path' ∈ [Event.openPath path] → [dot, dot] ∉ path'.splitOn slash := by
    intro path' there
    cases List.mem_singleton.mp there
    exact not_dots_component no_dots
  rw [serveDirectory_eq fits found]
  by_cases few : (entries.takeWhile (· ≠ indexHtml)).length ≤ 1024
  case neg =>
    rw [if_neg few]
    exact iff_of_false (fun answer => by cases answer.choose_spec.1) fun both => few both.1
  case pos =>
    rw [if_pos few]
    by_cases index : indexHtml ∈ entries
    case neg =>
      rw [if_neg index]
      exact iff_of_true ⟨_, rfl, listing_answered (not_dots_component no_dots) unsettled _ _⟩
        ⟨few, fun there => absurd there index⟩
    case pos =>
      rw [if_pos index]
      have silent {found' : Option FileNode} (other : ¬ Servable found') (events : List Event)
          (same : events = [.openPath path]) :
          (∃ events', (Except.ok events : Except BufferFault (List Event)).map (· ++ [.close]) = .ok events' ∧
            Answered fs received events') ↔
          (entries.takeWhile (· ≠ indexHtml)).length ≤ 1024 ∧ (indexHtml ∈ entries → Servable found') := by
        refine iff_of_false (fun answer => ?_) fun both => other (both.2 index)
        obtain ⟨events', done, answered⟩ := answer
        cases done
        rw [same] at answered
        exact not_answered_of_silent openPath_silent answered
      cases page : fs (httpFormatIndex path) with
      | none => exact silent (fun servable => by obtain ⟨_, _, same, -⟩ := servable; cases same) _ rfl
      | some node =>
          cases node with
          | directory _ | other =>
              exact silent (fun servable => by obtain ⟨_, _, same, -⟩ := servable; cases same) _ rfl
          | regular content readable =>
              have answer := serveFile_answered_iff [.openPath path] openPath_silent inside
                (not_dots_component (hasDots_index no_dots)) page unsettled
              constructor
              · intro answered
                obtain ⟨events', done, answered⟩ := answered
                cases done
                exact ⟨few, fun _ => ⟨content, readable, rfl, answer.mp answered⟩⟩
              · intro both
                obtain ⟨_, _, same, servable⟩ := both.2 index
                cases same
                exact ⟨_, rfl, answer.mpr servable⟩

end Directory

/-- The events of a request are a proper answer to it exactly when it is turned down, or the
server can answer for what is at its path. -/
theorem answered_iff (fs : FileSystem) (received : Bytes)
    (fits : ∀ path, target received = some path → Fits fs path) :
    (∃ events, handleFilesRequest fs received = .ok events ∧ Answered fs received events) ↔
      ∀ path, target received = some path → Answerable fs path := by
  cases found : target received with
  | none =>
      obtain ⟨code, settled, failure, handled⟩ := handle_of_no_target fs found
      exact iff_of_true ⟨_, handled, answered_error settled failure⟩ fun path same => by cases same
  | some path =>
      obtain ⟨no_dots, settled, handled⟩ := handle_of_target fs found
      have only : (∀ path', some path = some path' → Answerable fs path') ↔ Answerable fs path :=
        ⟨fun all => all path rfl, fun here path' same => Option.some.inj same ▸ here⟩
      rw [only, handled, Answerable]
      cases node : fs path with
      | none =>
          rw [if_pos node] at settled
          exact iff_of_true ⟨_, rfl, answered_error settled (by decide)⟩ trivial
      | some node' =>
          rw [if_neg (by simp [node])] at settled
          have silent {events : List Event} (quiet : ∀ event ∈ events, event.written = false) :
              ¬ ∃ events', (.ok (events ++ [.close]) : Except BufferFault (List Event)) = .ok events' ∧
                Answered fs received events' := by
            intro answer
            obtain ⟨events', done, answered⟩ := answer
            cases done
            exact not_answered_of_silent quiet answered
          cases node' with
          | regular content readable =>
              have answer := serveFile_answered_iff [] (fun event none_left => by cases none_left)
                (fun path' none_left => by cases none_left) (not_dots_component no_dots) node settled
              constructor
              · intro answered
                obtain ⟨events', done, answered⟩ := answered
                cases done
                exact answer.mp answered
              · intro servable
                exact ⟨_, rfl, answer.mpr servable⟩
          | directory listed =>
              cases listed with
              | none =>
                  have opened : serveDirectory fs path = .ok [.openPath path] := by
                    simp only [serveDirectory, if_neg (Nat.not_le_of_lt (fits path found).1), node]
                    rfl
                  rw [opened]
                  exact iff_of_false (silent openPath_silent) id
              | some entries => exact serveDirectory_answered_iff (fits path found) node no_dots settled
          | other => exact iff_of_false (@silent [] fun event none_left => by cases none_left) id

/-- A file system with one file, `a`. -/
def oneFile (readable : Bool) : FileSystem := fun path =>
  if path = [0x2e, 0x2f, 0x2f, 0x61] then some (.regular [0x78] readable) else none

/-- `GET /a` -/
def getFile : Bytes := [0x47, 0x45, 0x54, 0x20, 0x2f, 0x61, 0x0a]

theorem getFile_fits (readable : Bool) : ∀ path, target getFile = some path → Fits (oneFile readable) path := by
  intro path found
  have here : target getFile = some [0x2e, 0x2f, 0x2f, 0x61] := by decide
  cases here.symm.trans found
  refine ⟨by decide, fun entries listed => ?_⟩
  cases listed

theorem answered_oneFile :
    ∃ events, handleFilesRequest (oneFile true) getFile = .ok events ∧ Answered (oneFile true) getFile events := by
  refine (answered_iff (oneFile true) getFile (getFile_fits true)).mpr fun path found => ?_
  have here : target getFile = some [0x2e, 0x2f, 0x2f, 0x61] := by decide
  cases here.symm.trans found
  exact .inl rfl

/-- A file that exists but cannot be opened is promised, and not sent. -/
theorem not_answered_of_unreadable : ∃ fs received, (∀ path, target received = some path → Fits fs path) ∧
    ¬ ∃ events, handleFilesRequest fs received = .ok events ∧ Answered fs received events := by
  refine ⟨oneFile false, getFile, getFile_fits false, fun answered => ?_⟩
  obtain ⟨events, done, answered⟩ := answered
  have here : target getFile = some [0x2e, 0x2f, 0x2f, 0x61] := by decide
  obtain ⟨no_dots, settled, handled⟩ := handle_of_target (oneFile false) here
  cases handled.symm.trans done
  have answer := serveFile_answered_iff [] (fun event none_left => by cases none_left)
    (fun path' none_left => by cases none_left) (not_dots_component no_dots) (if_pos rfl) settled
  obtain opens | empty := answer.mp answered
  · cases opens
  · cases empty

end CS162.HttpServer
