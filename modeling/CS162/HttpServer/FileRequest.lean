import Mathlib.Data.List.Basic
import CS162.HttpServer.ProxyRelay

/-!
The file server (hw-http: `handle_files_request`, `serve_file` and `serve_directory` of
httpserver.c, with libhttp.c): what it writes for one request, and which paths it opens.

The request is what the one `read` of `http_request_parse` returns. The file system
does not change meanwhile, writes to the socket and memory allocation succeed, and reading an
open file gives its contents. Writing past the end of a buffer is a fault.
-/

namespace CS162.HttpServer

/-- The bytes of an ASCII string. -/
def ascii (s : String) : Bytes := s.toList.map fun c => UInt8.ofNat c.toNat

/-- What `stat`, `open` and `opendir` find at a path. -/
inductive FileNode where
  /-- `readable` when `open` succeeds. -/
  | regular (content : Bytes) (readable : Bool)
  /-- The names in the order of `readdir`, when `opendir` succeeds. -/
  | directory (entries : Option (List Bytes))
  | other

abbrev FileSystem := Bytes → Option FileNode

/-- What the server does in the order in which it does it. -/
inductive Event where
  | status (code : Nat) (message : String)
  | header (key value : String)
  | endHeaders
  | body (bytes : Bytes)
  | openPath (path : Bytes)
  | close
  deriving DecidableEq

inductive BufferFault where
  /-- of `html` in `serve_directory` -/
  | html
  /-- of its `path` -/
  | path
  /-- of the array `buffers` -/
  | buffers
  /-- of an element of it -/
  | href
  deriving DecidableEq

section Parse

structure HttpRequest where
  method : Bytes
  path : Bytes

def isMethodChar (c : UInt8) : Bool := 0x41 ≤ c && c ≤ 0x5a

def isPathChar (c : UInt8) : Bool := c != 0 && c != 0x20 && c != 0x0a

def isLineChar (c : UInt8) : Bool := c != 0 && c != 0x0a

/-- `http_request_parse`; the buffer ends with a zero. -/
def httpRequestParse (received : Bytes) : Option HttpRequest :=
  let method := received.takeWhile isMethodChar
  if method = [] then none
  else match received.dropWhile isMethodChar with
    | 0x20 :: rest =>
        let path := rest.takeWhile isPathChar
        if path = [] then none
        else if ((rest.dropWhile isPathChar).dropWhile isLineChar).head? = some 0x0a then some ⟨method, path⟩
        else none
    | _ => none

end Parse

section Responses

def httpGetResponseMessage : Nat → String
  | 100 => "Continue"
  | 200 => "OK"
  | 301 => "Moved Permanently"
  | 302 => "Found"
  | 304 => "Not Modified"
  | 400 => "Bad Request"
  | 401 => "Unauthorized"
  | 403 => "Forbidden"
  | 404 => "Not Found"
  | 405 => "Method Not Allowed"
  | _ => "Internal Server Error"

def httpStartResponse (code : Nat) : Event := .status code (httpGetResponseMessage code)

def dot : UInt8 := 0x2e

def slash : UInt8 := 0x2f

/-- `strrchr (file_name, '.')`. -/
def fileExtension (name : Bytes) : Option Bytes :=
  if dot ∈ name then some (dot :: (name.reverse.takeWhile (· != dot)).reverse) else none

def httpGetMimeType (name : Bytes) : String :=
  match fileExtension name with
  | none => "text/plain"
  | some extension =>
      if extension = ascii ".html" ∨ extension = ascii ".htm" then "text/html"
      else if extension = ascii ".jpg" ∨ extension = ascii ".jpeg" then "image/jpeg"
      else if extension = ascii ".png" then "image/png"
      else if extension = ascii ".css" then "text/css"
      else if extension = ascii ".js" then "application/javascript"
      else if extension = ascii ".pdf" then "application/pdf"
      else "text/plain"

def httpFormatHref (path filename : Bytes) : Bytes :=
  ascii "<a href=\"/" ++ path ++ ascii "/" ++ filename ++ ascii "\">" ++ filename ++ ascii "</a><br/>"

def indexHtml : Bytes := ascii "index.html"

def httpFormatIndex (path : Bytes) : Bytes := path ++ slash :: indexHtml

end Responses

/-- What `read` returns call by call, up to the end of the file. -/
def reads (content : Bytes) : List Bytes :=
  if content = [] then [] else content.take maxBuff :: reads (content.drop maxBuff)
termination_by content.length
decreasing_by
  rename_i some_left
  have length := List.length_pos_of_ne_nil some_left
  rw [List.length_drop]
  exact Nat.sub_lt length (by decide)

/-- `serve_file`. Without a descriptor `read` fails at once. -/
def serveFile (fs : FileSystem) (path : Bytes) (size : Nat) : List Event :=
  let body := match fs path with
    | some (.regular content true) => reads content
    | _ => []
  [httpStartResponse 200, .header "Content-Type" (httpGetMimeType path),
    .header "Content-Length" (toString size), .endHeaders, .openPath path] ++ body.map .body

/-- The loop of `serve_directory` over what `readdir` returns: whether it has come upon
index.html, and the lines before. -/
def readEntries (path : Bytes) : List Bytes → Nat → Except BufferFault (Bool × List Bytes)
  | [], _ => .ok (false, [])
  | name :: entries, cnt =>
      if 1025 ≤ path.length then .error .path
      else if name = indexHtml then .ok (true, [])
      else if 1024 ≤ cnt then .error .buffers
      else
        let line := httpFormatHref path name ++ [0x0a]
        if path.length + 100 ≤ line.length then .error .href
        else do
          let (hasHtml, lines) ← readEntries path entries (cnt + 1)
          return (hasHtml, line :: lines)

def serveDirectory (fs : FileSystem) (fn : Bytes) : Except BufferFault (List Event) := do
  let html := httpFormatIndex fn
  if 100 ≤ html.length then .error .html
  else match fs fn with
    | some (.directory (some entries)) =>
        let (hasHtml, lines) ← readEntries fn entries 0
        if hasHtml then
          match fs html with
          | some (.regular content _) => return .openPath fn :: serveFile fs html content.length
          | _ => return [.openPath fn]
        else
          return [.openPath fn, httpStartResponse 200, .header "Content-Type" (httpGetMimeType (ascii ".html")),
            .endHeaders] ++ lines.map .body
    | _ => return [.openPath fn]

/-- A response that is a header block only. -/
def errorResponse (code : Nat) : List Event :=
  [httpStartResponse code, .header "Content-Type" "text/html", .endHeaders]

/-- `strstr (s, "..") != NULL`. -/
def hasDots : Bytes → Bool
  | a :: b :: rest => (a == dot && b == dot) || hasDots (b :: rest)
  | _ => false

def handleFilesRequest (fs : FileSystem) (received : Bytes) : Except BufferFault (List Event) :=
  match httpRequestParse received with
  | none => .ok (errorResponse 400 ++ [.close])
  | some request =>
      if request.path.head? ≠ some slash then .ok (errorResponse 400 ++ [.close])
      else if hasDots request.path then .ok (errorResponse 403 ++ [.close])
      else
        let path := dot :: slash :: request.path
        match fs path with
        | none => .ok (errorResponse 404 ++ [.close])
        | some (.regular content _) => .ok (serveFile fs path content.length ++ [.close])
        | some (.directory _) => do
            let events ← serveDirectory fs path
            return events ++ [.close]
        | some .other => .ok [.close]

end CS162.HttpServer
