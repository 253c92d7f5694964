import CS162.HttpServer.FileRequest
import CS162.Library.ResourceCalls

/-!
The request handlers of httpserver.c (hw-http) as users of descriptors. Any call may give any
answer: the client, the target and the file system are whatever the answers say. Loops have
fuel, so that a run which returns does so with enough of it; `exit` ends a run without a return.

What is sent is left out but for its length, and buffers are as long as they need to be.
-/

namespace CS162.HttpServer
namespace Descriptors
open CS162.Library CS162.Library.Program

inductive Fd where
  | client
  | target
  | file
  | directory
  deriving DecidableEq

/-- What a call answers: its result, the bytes of a `read` or the name `readdir` finds, the
mode of a `stat`, and the sockets `select` leaves in its set. -/
structure Reply where
  result : Int
  bytes : Bytes
  isReg : Bool
  isDir : Bool
  ready : Fd → Bool

abbrev Handler (α : Type) := Program Reply Fd α

section Responses

/-- `http_start_response`, two headers at most, and `http_end_headers`, each a write. -/
def sendHeaders (fd : Fd) (headers : Nat) : Handler Unit :=
  match headers with
  | 0 => do
      note (.used fd)
      note (.used fd)
  | headers + 1 => do
      note (.used fd)
      sendHeaders fd headers

def httpSendString (fd : Fd) : Nat → Int → Handler Unit
  | 0, _ => stop
  | fuel + 1, size =>
      if size ≤ 0 then pure ()
      else do
        note (.used fd)
        let written ← ask
        if written.result < 0 then pure () else httpSendString fd fuel (size - written.result)

def httpRequestParse (fd : Fd) : Handler (Option HttpRequest) := do
  note (.used fd)
  let received ← ask
  return HttpServer.httpRequestParse received.bytes

end Responses

section Files

def copyFile : Nat → Handler Unit
  | 0 => stop
  | fuel + 1 => do
      note (.used .file)
      let byteRead ← ask
      if byteRead.result ≤ 0 then pure ()
      else
        httpSendString .client fuel byteRead.result
        copyFile fuel

/-- `serve_file`. Without a descriptor `read` and `close` are about nothing. -/
def serveFile (fuel : Nat) : Handler Unit := do
  sendHeaders .client 2
  let file ← ask
  if file.result < 0 then pure ()
  else
    note (.opened .file)
    copyFile fuel
    note (.closed .file)

/-- The loop of `serve_directory` over `readdir`: whether it has come upon index.html, and the
lines before. -/
def readEntries (fn : Bytes) : Nat → Handler (Bool × List Bytes)
  | 0 => stop
  | fuel + 1 => do
      note (.used .directory)
      let entry ← ask
      if entry.result < 0 then pure (false, [])
      else if entry.bytes = indexHtml then pure (true, [])
      else
        let (hasHtml, lines) ← readEntries fn fuel
        return (hasHtml, (httpFormatHref fn entry.bytes ++ [0x0a]) :: lines)

def sendLines (fuel : Nat) : List Bytes → Handler Unit
  | [] => pure ()
  | line :: lines => do
      httpSendString .client fuel line.length
      sendLines fuel lines

def serveDirectory (fuel : Nat) (fn : Bytes) : Handler Unit := do
  let dir ← ask
  if dir.result < 0 then pure ()
  else
    note (.opened .directory)
    let (hasHtml, lines) ← readEntries fn fuel
    if hasHtml then
      let info ← ask
      if info.result = 0 ∧ info.isReg then serveFile fuel else pure ()
    else
      sendHeaders .client 1
      sendLines fuel lines
    note (.closed .directory)

def handleFilesRequest (fuel : Nat) : Handler Unit := do
  let request ← httpRequestParse .client
  match request with
  | none =>
      sendHeaders .client 1
      note (.closed .client)
  | some request =>
      if request.path.head? ≠ some slash then
        sendHeaders .client 1
        note (.closed .client)
      else if hasDots request.path then
        sendHeaders .client 1
        note (.closed .client)
      else
        let path := dot :: slash :: request.path
        let fileStat ← ask
        if fileStat.result = 0 then
          if fileStat.isReg then serveFile fuel
          else if fileStat.isDir then serveDirectory fuel path
          else pure ()
        else sendHeaders .client 1
        note (.closed .client)

end Files

section Proxy

/-- `FD_SET` of the sockets waited for, and `select`, by which only ready ones stay. The client's
bit is in the set before if `clientSet`. -/
def select (clientEof clientSet : Bool) : Handler Reply := do
  if !clientEof || clientSet then note (.used .client) else pure ()
  note (.used .target)
  ask

def relayClient (fuel : Nat) (clientSet : Bool) : Handler Bool := do
  if clientSet then
    note (.used .client)
    let nread ← ask
    if nread.result = 0 then
      note (.used .client)
      return true
    else
      httpSendString .target fuel nread.result
      return false
  else return false

def relayTarget (fuel : Nat) (targetSet clientEof : Bool) : Handler Bool := do
  if targetSet then
    note (.used .target)
    let nread ← ask
    if nread.result = 0 ∧ clientEof then return true
    else
      httpSendString .client fuel nread.result
      return false
  else return false

/-- `while (1)` of `handle_proxy_request`. -/
def relay (clientEof clientSet : Bool) : Nat → Handler Unit
  | 0 => stop
  | fuel + 1 => do
      let rset ← select clientEof clientSet
      let clientSet := (!clientEof || clientSet) && rset.ready .client
      let ended ← relayClient fuel clientSet
      if ended then relay true false fuel
      else
        let left ← relayTarget fuel (rset.ready .target) clientEof
        if left then pure () else relay clientEof clientSet fuel

def refuse : Handler Unit := do
  let _ ← httpRequestParse .client
  sendHeaders .client 1
  note (.closed .target)
  note (.closed .client)

def relayAll (fuel : Nat) : Handler Unit := do
  relay false false fuel
  note (.closed .target)

def handleProxyRequest (fuel : Nat) : Handler Unit := do
  let targetDnsEntry ← ask
  let targetFd ← ask
  if targetFd.result = -1 then
    note (.closed .client)
    stop
  else
    note (.opened .target)
    if targetDnsEntry.result < 0 then
      note (.closed .target)
      note (.closed .client)
      stop
    else
      note (.used .target)
      let connectionStatus ← ask
      if connectionStatus.result < 0 then refuse else relayAll fuel

end Proxy

inductive RequestHandler where
  | files
  | proxy

def RequestHandler.run : RequestHandler → Nat → Handler Unit
  | .files => handleFilesRequest
  | .proxy => handleProxyRequest

def start (answers : Nat → Reply) : Calls Reply Fd := ⟨answers, 0, []⟩

/-- The client's descriptor, and every other one that has been opened, closed exactly once and
left alone from then on. -/
def Released (log : List (ResourceEvent Fd)) : Prop :=
  ClosedOnce .client log ∧ ∀ fd, .opened fd ∈ log → ClosedOnce fd log

end Descriptors
end CS162.HttpServer
