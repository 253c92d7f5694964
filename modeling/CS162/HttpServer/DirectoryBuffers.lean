import CS162.HttpServer.FileRequestLaw
import CS162.HttpServer.RequestBuffer

/-!
`serve_directory` (hw-http, httpserver.c) over its arrays: html, path, the pointers in
buffers, and the line allocated for each entry, with the helpers of libhttp.c that work out
the length of what they write. A directory entry's name is the bytes before its zero.
-/

namespace CS162.HttpServer
open CS162.Library

namespace InBuffers

section Model

def httpFormatHref (buffer : CArray) (path filename : Bytes) : Except OutOfBounds CArray :=
  let length := (ascii "<a href=\"//\"></a><br/>").length + path.length + filename.length * 2 + 1
  CArray.snprintf buffer length (HttpServer.httpFormatHref path filename)

def httpFormatIndex (buffer : CArray) (path : Bytes) : Except OutOfBounds CArray :=
  let length := path.length + (ascii "/index.html").length + 1
  CArray.snprintf buffer length (HttpServer.httpFormatIndex path)

/-- The loop over what `readdir` returns; `cnt` is the number of the buffers so far. -/
def readEntries (fn : Bytes) : List Bytes → CArray → List CArray → Except OutOfBounds (Bool × List CArray)
  | [], _, buffers => return (false, buffers)
  | name :: entries, path, buffers => do
      let path ← CArray.strcpy path fn
      if name = indexHtml then return (true, buffers)
      else if 1024 ≤ buffers.length then throw .write
      else
        let dir ← CArray.string path
        let buffer ← httpFormatHref (List.replicate (dir.length + 100) 0) dir name
        let buffer ← CArray.strcat buffer [0x0a]
        readEntries fn entries path (buffers ++ [buffer])

/-- `serve_directory`; `path` is what the array of this name happens to hold. -/
def serveDirectory (path : Vector UInt8 1025) (fs : FileSystem) (fn : Bytes) : Except OutOfBounds (List Event) := do
  let html ← httpFormatIndex (List.replicate 100 0) fn
  match fs fn with
  | some (.directory (some entries)) =>
      let (hasHtml, buffers) ← readEntries fn entries path.toList []
      if hasHtml then
        let html ← CArray.string html
        match fs html with
        | some (.regular content _) => return .openPath fn :: serveFile fs html content.length
        | _ => return [.openPath fn]
      else
        let lines ← buffers.mapM CArray.string
        return [.openPath fn, httpStartResponse 200, .header "Content-Type" (httpGetMimeType (ascii ".html")),
          .endHeaders] ++ lines.map .body
  | _ => return [.openPath fn]

end Model

section Refinement
variable {fn name : Bytes} {entries : List Bytes} {fs : FileSystem}

/-- The allocation for an entry with its line in it. -/
def lineBuffer (fn line : Bytes) : CArray := line ++ 0 :: List.replicate (fn.length + 100 - (line.length + 1)) 0

theorem zero_notMem_href (dir : 0 ∉ fn) (file : 0 ∉ name) : 0 ∉ HttpServer.httpFormatHref fn name := by
  have tags : 0 ∉ ascii "<a href=\"/" ∧ 0 ∉ ascii "/" ∧ 0 ∉ ascii "\">" ∧ 0 ∉ ascii "</a><br/>" := by decide
  simp [HttpServer.httpFormatHref, dir, file, tags]

theorem zero_notMem_index (dir : 0 ∉ fn) : 0 ∉ HttpServer.httpFormatIndex fn := by
  have file : 0 ∉ slash :: indexHtml := by decide
  simp only [HttpServer.httpFormatIndex, List.mem_append, dir, file, or_self, not_false_eq_true]

/-- `http_format_href` writes a whole link, and no more than its length. -/
theorem httpFormatHref_eq (buffer : CArray) :
    httpFormatHref buffer fn name = CArray.strcpy buffer (HttpServer.httpFormatHref fn name) := by
  have tags : (ascii "<a href=\"//\"></a><br/>").length = 22 := by decide
  have length := listingLine_length fn name
  rw [listingLine, List.length_append, List.length_singleton] at length
  exact CArray.snprintf_of_lt (by omega)

theorem httpFormatIndex_eq (buffer : CArray) :
    httpFormatIndex buffer fn = CArray.strcpy buffer (HttpServer.httpFormatIndex fn) := by
  have tail : (ascii "/index.html").length = (slash :: indexHtml).length := by decide
  refine CArray.snprintf_of_lt ?_
  rw [HttpServer.httpFormatIndex, List.length_append, tail]
  exact Nat.lt_succ_self _

/-- The line of an entry: the link, then a newline, in `strlen (path) + 100` bytes. -/
theorem entryLine (dir : 0 ∉ fn) (file : 0 ∉ name) (buffer : CArray) :
    (httpFormatHref buffer fn name >>= fun buffer => CArray.strcat buffer [0x0a]) =
      CArray.strcpy buffer (listingLine fn name) := by
  rw [httpFormatHref_eq, CArray.strcpy_strcat (zero_notMem_href dir file), listingLine]

theorem readEntries_eq {path : CArray} (buffers : List CArray) (dir : 0 ∉ fn) (files : ∀ name ∈ entries, 0 ∉ name)
    (size : path.length = 1025) :
    (readEntries fn entries path buffers).toOption =
      (HttpServer.readEntries fn entries buffers.length).toOption.map fun listed =>
        (listed.1, buffers ++ listed.2.map (lineBuffer fn)) := by
  induction entries generalizing path buffers with
  | nil =>
      rw [HttpServer.readEntries]
      simp [readEntries, Except.toOption, pure, Except.pure]
  | cons name entries ih =>
      rw [readEntries, HttpServer.readEntries]
      by_cases long : 1025 ≤ fn.length
      · rw [if_pos long, CArray.strcpy_of_le (by omega)]
        rfl
      have copied := CArray.strcpy_of_lt (a := path) (l := fn) (by omega)
      rw [if_neg long, copied, ok_bind]
      by_cases index : name = indexHtml
      · rw [if_pos index, if_pos index]
        simp [Except.toOption, pure, Except.pure]
      rw [if_neg index, if_neg index]
      by_cases full : 1024 ≤ buffers.length
      · rw [if_pos full, if_pos full]
        rfl
      rw [if_neg full, if_neg full, CArray.string_append dir, ok_bind]
      have line := entryLine dir (files name List.mem_cons_self) (List.replicate (fn.length + 100) 0)
      have same : HttpServer.httpFormatHref fn name ++ [0x0a] = listingLine fn name := rfl
      rw [← bind_assoc, line]
      simp only [same]
      by_cases wide : fn.length + 100 ≤ (listingLine fn name).length
      · rw [if_pos wide, CArray.strcpy_of_le (by simpa using wide)]
        rfl
      have written : CArray.strcpy (List.replicate (fn.length + 100) 0) (listingLine fn name) =
          .ok (lineBuffer fn (listingLine fn name)) := by
        rw [CArray.strcpy_of_lt (by simpa using wide), List.drop_replicate]
        rfl
      have size' : (fn ++ 0 :: path.drop (fn.length + 1)).length = 1025 :=
        (CArray.length_strcpy copied).trans size
      rw [if_neg wide, written, ok_bind, ih _ (fun name inside => files name (List.mem_cons_of_mem _ inside)) size',
        List.length_append, List.length_singleton]
      cases HttpServer.readEntries fn entries (buffers.length + 1) with
      | error fault => rfl
      | ok listed =>
          exact congrArg some (Prod.ext rfl (List.append_assoc ..))

theorem mapM_string (fn : Bytes) {lines : List Bytes} (solid : ∀ line ∈ lines, 0 ∉ line) :
    (lines.map (lineBuffer fn)).mapM CArray.string = .ok lines := by
  induction lines with
  | nil => rfl
  | cons line lines ih =>
      rw [List.map_cons, List.mapM_cons, lineBuffer, CArray.string_append (solid line List.mem_cons_self), ok_bind,
        ih fun line inside => solid line (List.mem_cons_of_mem _ inside)]
      rfl

theorem readEntries_solid {cnt : Nat} {listed : Bool × List Bytes} (dir : 0 ∉ fn)
    (files : ∀ name ∈ entries, 0 ∉ name) (done : HttpServer.readEntries fn entries cnt = .ok listed) :
    ∀ line ∈ listed.2, 0 ∉ line := by
  induction entries generalizing cnt listed with
  | nil =>
      cases done
      exact fun line inside => absurd inside List.not_mem_nil
  | cons name entries ih =>
      rw [HttpServer.readEntries] at done
      split at done
      · cases done
      split at done
      · cases done
        exact fun line inside => absurd inside List.not_mem_nil
      split at done
      · cases done
      simp only at done
      split at done
      · cases done
      obtain ⟨more, read, made⟩ := bind_eq_ok done
      cases made
      intro line inside
      obtain rfl | inside := List.mem_cons.mp inside
      · have link := zero_notMem_href dir (files name List.mem_cons_self)
        simp [link]
      · exact ih (fun name inside => files name (List.mem_cons_of_mem _ inside)) read line inside

/-- Over its arrays `serve_directory` does what it does without them, and leaves them where
that overflows. -/
theorem serveDirectory_eq (path : Vector UInt8 1025) (dir : 0 ∉ fn)
    (files : ∀ entries, fs fn = some (.directory (some entries)) → ∀ name ∈ entries, 0 ∉ name) :
    (serveDirectory path fs fn).toOption = (HttpServer.serveDirectory fs fn).toOption := by
  rw [serveDirectory, HttpServer.serveDirectory, httpFormatIndex_eq]
  by_cases long : 100 ≤ (HttpServer.httpFormatIndex fn).length
  · rw [CArray.strcpy_of_le (by simpa using long)]
    simp only [if_pos long]
    rfl
  rw [CArray.strcpy_of_lt (by simpa using long), ok_bind]
  simp only [if_neg long]
  cases found : fs fn with
  | none => rfl
  | some node =>
    cases node with
    | regular content readable => rfl
    | other => rfl
    | directory listed =>
      cases listed with
      | none => rfl
      | some entries =>
        have names := files entries found
        have read := readEntries_eq [] dir names (Vector.length_toList : path.toList.length = 1025)
        simp only [toOption_bind, read]
        rw [List.length_nil]
        cases done : HttpServer.readEntries fn entries 0 with
        | error fault => rfl
        | ok listed =>
            have lines := mapM_string fn (readEntries_solid dir names done)
            obtain ⟨hasHtml, lines'⟩ := listed
            cases hasHtml with
            | true =>
                rw [CArray.string_append (zero_notMem_index dir)]
                cases page : fs (HttpServer.httpFormatIndex fn) with
                | none =>
                    simp only [Except.toOption, Option.map_some, Option.bind_some, if_true, ok_bind, page]
                    rfl
                | some node =>
                    simp only [Except.toOption, Option.map_some, Option.bind_some, if_true, ok_bind, page]
                    cases node <;> rfl
            | false =>
                simp only [Except.toOption, Option.map_some, Option.bind_some, List.nil_append, lines]
                rfl

end Refinement

section Bounds
variable {fn : Bytes} {entries : List Bytes} {fs : FileSystem}

/-- The path has room in html, and the entries before any index.html, and their lines, in
the other arrays. -/
def Roomy (fs : FileSystem) (fn : Bytes) : Prop :=
  fn.length ≤ 88 ∧ ∀ entries, fs fn = some (.directory (some entries)) →
    (entries.takeWhile (· ≠ indexHtml)).length ≤ 1024 ∧
      ∀ name ∈ entries.takeWhile (· ≠ indexHtml), name.length ≤ 38

theorem readEntries_isSome_iff {cnt : Nat} (short : fn.length ≤ 88) (room : cnt ≤ 1024) :
    (HttpServer.readEntries fn entries cnt).toOption.isSome ↔
      cnt + (entries.takeWhile (· ≠ indexHtml)).length ≤ 1024 ∧
        ∀ name ∈ entries.takeWhile (· ≠ indexHtml), name.length ≤ 38 := by
  induction entries generalizing cnt with
  | nil => exact iff_of_true rfl ⟨room, fun name inside => absurd inside List.not_mem_nil⟩
  | cons name entries ih =>
      rw [HttpServer.readEntries, if_neg (by omega)]
      by_cases index : name = indexHtml
      · rw [if_pos index, List.takeWhile_cons_of_neg (by simpa using index)]
        exact iff_of_true rfl ⟨room, fun name inside => absurd inside List.not_mem_nil⟩
      rw [if_neg index, List.takeWhile_cons_of_pos (by simpa using index), List.length_cons, List.forall_mem_cons]
      by_cases full : 1024 ≤ cnt
      · rw [if_pos full]
        exact iff_of_false Bool.false_ne_true fun fits => by omega
      have length := listingLine_length fn name
      rw [listingLine] at length
      rw [if_neg full]
      by_cases wide : 38 < name.length
      · simp only [if_pos (show fn.length + 100 ≤ (HttpServer.httpFormatHref fn name ++ [0x0a]).length by omega)]
        exact iff_of_false Bool.false_ne_true fun fits => by omega
      simp only [if_neg (show ¬ fn.length + 100 ≤ (HttpServer.httpFormatHref fn name ++ [0x0a]).length by omega)]
      have next := @ih (cnt + 1) (by omega)
      have rest : (HttpServer.readEntries fn entries (cnt + 1) >>= fun listed =>
          (pure (listed.1, (HttpServer.httpFormatHref fn name ++ [0x0a]) :: listed.2) :
            Except BufferFault (Bool × List Bytes))).toOption.isSome =
          (HttpServer.readEntries fn entries (cnt + 1)).toOption.isSome := by
        cases HttpServer.readEntries fn entries (cnt + 1) <;> rfl
      rw [rest, next, Nat.add_right_comm, Nat.add_assoc]
      exact ⟨fun fits => ⟨fits.1, by omega, fits.2⟩, fun fits => ⟨fits.1, fits.2.2⟩⟩

theorem serveDirectory_isSome_iff :
    (HttpServer.serveDirectory fs fn).toOption.isSome ↔ Roomy fs fn := by
  have length : (HttpServer.httpFormatIndex fn).length = fn.length + 11 := by
    rw [HttpServer.httpFormatIndex, List.length_append]
    rfl
  rw [HttpServer.serveDirectory, Roomy]
  by_cases long : 88 < fn.length
  · simp only [if_pos (show 100 ≤ (HttpServer.httpFormatIndex fn).length by omega)]
    exact iff_of_false Bool.false_ne_true fun fits => by omega
  simp only [if_neg (show ¬ 100 ≤ (HttpServer.httpFormatIndex fn).length by omega)]
  have short : fn.length ≤ 88 := by omega
  cases found : fs fn with
  | none => exact iff_of_true rfl ⟨short, fun entries listed => by cases listed⟩
  | some node =>
    cases node with
    | regular content readable => exact iff_of_true rfl ⟨short, fun entries listed => by cases listed⟩
    | other => exact iff_of_true rfl ⟨short, fun entries listed => by cases listed⟩
    | directory listed =>
      cases listed with
      | none => exact iff_of_true rfl ⟨short, fun entries listed => by cases listed⟩
      | some entries =>
        have read : (HttpServer.readEntries fn entries 0).toOption.isSome ↔ _ :=
          readEntries_isSome_iff short (Nat.zero_le 1024)
        rw [Nat.zero_add] at read
        refine Iff.trans ?_ (read.trans ⟨fun fits => ⟨short, fun entries' same => ?_⟩, fun fits => fits.2 entries rfl⟩)
        · dsimp only
          cases HttpServer.readEntries fn entries 0 with
          | error fault => rfl
          | ok listed =>
              obtain ⟨hasHtml, lines⟩ := listed
              refine iff_of_true ?_ rfl
              cases hasHtml with
              | false => rfl
              | true =>
                  simp only [ok_bind, if_true]
                  split <;> rfl
        · cases same
          exact fits

/-- The path that `handle_files_request` makes of a request. -/
def servedPath (request : HttpRequest) : Bytes := dot :: slash :: request.path

theorem zero_notMem_servedPath {received : Bytes} {request : HttpRequest}
    (parsed : HttpServer.httpRequestParse received = some request) : 0 ∉ servedPath request := by
  obtain ⟨-, -, -, -, ⟨-, solid⟩, -⟩ := received_of_parse parsed
  have path : 0 ∉ request.path := fun inside => absurd (solid 0 inside) (by decide)
  simp [servedPath, dot, slash, path]

theorem isOk_iff_isSome {x : Except OutOfBounds (List Event)} : (∃ events, x = .ok events) ↔ x.toOption.isSome := by
  rw [Option.isSome_iff_exists]
  exact exists_congr fun events => toOption_some.symm

/-- For the path of any request and any directory, `serve_directory` stays inside its arrays
exactly when they have room. -/
theorem serveDirectory_inBounds_iff (path : Vector UInt8 1025) {received : Bytes} {request : HttpRequest}
    (parsed : HttpServer.httpRequestParse received = some request)
    (files : ∀ entries, fs (servedPath request) = some (.directory (some entries)) → ∀ name ∈ entries, 0 ∉ name) :
    (∃ events, serveDirectory path fs (servedPath request) = .ok events) ↔ Roomy fs (servedPath request) := by
  rw [isOk_iff_isSome, serveDirectory_eq path (zero_notMem_servedPath parsed) files]
  exact serveDirectory_isSome_iff

/-- A file system with one directory, at the path of `GET /`, and one entry in it. -/
def getSlash : Bytes := [0x47, 0x20, slash, 0x0a]

def oneEntry (length : Nat) : FileSystem := fun path =>
  if path = [dot, slash, slash] then some (.directory (some [List.replicate length 0x61])) else none

theorem oneEntry_solid (length : Nat) :
    ∀ entries, oneEntry length [dot, slash, slash] = some (.directory (some entries)) →
      ∀ name ∈ entries, 0 ∉ name := by
  intro entries listed name inside zero
  cases listed
  rw [List.mem_singleton.mp inside] at zero
  exact absurd (List.eq_of_mem_replicate zero) (by decide)

/-- The same directory with four entries, one of which has the longest name that fits. -/
def fourEntries : FileSystem := fun path =>
  if path = [dot, slash, slash] then
    some (.directory (some [[dot], [dot, dot], List.replicate 38 0x61, [0x62, dot, 0x63]]))
  else none

theorem serveDirectory_inBounds_of_fourEntries :
    ∃ events, serveDirectory (.replicate 1025 0) fourEntries (servedPath ⟨[0x47], [slash]⟩) = .ok events := by
  refine (serveDirectory_inBounds_iff _
    (show HttpServer.httpRequestParse getSlash = some ⟨[0x47], [slash]⟩ from rfl) ?_).mpr ⟨by decide, ?_⟩
  · rintro _ ⟨⟩
    decide
  · rintro _ ⟨⟩
    decide

/-- A file name of 39 characters does not fit. -/
theorem not_inBounds_of_longName :
    HttpServer.httpRequestParse getSlash = some ⟨[0x47], [slash]⟩ ∧
      ¬ ∃ events, serveDirectory (.replicate 1025 0) (oneEntry 39) (servedPath ⟨[0x47], [slash]⟩) = .ok events := by
  have dir : 0 ∉ servedPath ⟨[0x47], [slash]⟩ := by decide
  refine ⟨rfl, ?_⟩
  rw [isOk_iff_isSome, serveDirectory_eq _ dir (oneEntry_solid 39), serveDirectory_isSome_iff]
  intro roomy
  have short := (roomy.2 _ rfl).2 (List.replicate 39 0x61) (by decide)
  rw [List.length_replicate] at short
  omega

end Bounds
end InBuffers
end CS162.HttpServer
