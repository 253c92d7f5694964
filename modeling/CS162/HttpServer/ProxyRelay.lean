import CS162.Library.Transition

/-!
The relay loop of `handle_proxy_request` (hw-http, httpserver.c) between the
sockets of a client and of the proxy target. A step of the environment is data
or an end arriving on a socket; a step of the relay is one `select`, `read` or
`write`, with the number of bytes the kernel moves left open. Sockets do not
fail: the client reads what is written to it, `SIGPIPE` is ignored as `main`
does, and a write fails after the sending side is shut down. A write to the
target may fail at any time.
-/

namespace CS162.HttpServer
open CS162.Library

abbrev Bytes := List UInt8

def maxBuff : Nat := 8192

/-- What has arrived on a socket and has not been read. -/
structure Incoming where
  queue : Bytes
  ended : Bool

def Incoming.readable (s : Incoming) : Bool := !s.queue.isEmpty || s.ended

/-- `read` of at most `maxBuff` bytes, where the kernel hands over `n`. No bytes
are the end of the stream; without data or an end the call blocks. -/
def Incoming.read (s : Incoming) (n : Nat) : Option (Bytes × Incoming) :=
  if s.queue.isEmpty then
    if s.ended then some ([], s) else none
  else if 0 < n ∧ n ≤ maxBuff ∧ n ≤ s.queue.length then
    some (s.queue.take n, { s with queue := s.queue.drop n })
  else none

/-- Where the loop is: at `select`, at the test of either socket, in
`http_send_string` with the bytes left to write, or past the loop. -/
inductive Pc where
  | select
  | client
  | sendTarget (rest : Bytes)
  | target
  | sendClient (rest : Bytes)
  | done
  deriving DecidableEq

/-- The locals of the loop, the two sockets, and what the peers have received.
`sent` is all the target has sent, `polledOn` whether a pass over the target's
end has stayed in the loop. -/
structure World where
  pc : Pc
  clientEof : Bool
  clientSet : Bool
  targetSet : Bool
  client : Incoming
  target : Incoming
  clientShut : Bool
  toTarget : Bytes
  toClient : Bytes
  sent : Bytes
  polledOn : Bool

def World.start : World where
  pc := .select
  clientEof := false
  clientSet := false
  targetSet := false
  client := ⟨[], false⟩
  target := ⟨[], false⟩
  clientShut := false
  toTarget := []
  toClient := []
  sent := []
  polledOn := false

inductive Action where
  | clientSends (bytes : Bytes)
  | clientEnds
  | targetSends (bytes : Bytes)
  | targetEnds
  | relay (n : Nat) (ok : Bool)
  deriving DecidableEq

/-- `FD_SET` of the sockets waited for, and `select`: the sets keep the sockets
that are readable, of which there must be one. -/
def select (w : World) : Option World :=
  let client := (!w.clientEof || w.clientSet) && w.client.readable
  if client || w.target.readable then
    some { w with pc := .client, clientSet := client, targetSet := w.target.readable }
  else none

/-- The branch of the client: at its end, `shutdown` of the socket and the next
pass. -/
def readClient (w : World) (n : Nat) : Option World :=
  if w.clientSet then
    (w.client.read n).map fun (bytes, client) =>
      if bytes.isEmpty then
        { w with pc := .select, client, clientEof := true, clientShut := true, clientSet := false }
      else { w with pc := .sendTarget bytes, client }
  else some { w with pc := .target }

/-- The branch of the target: at its end, out of the loop once the client has
ended too. -/
def readTarget (w : World) (n : Nat) : Option World :=
  if w.targetSet then
    (w.target.read n).map fun (bytes, target) =>
      if bytes.isEmpty && w.clientEof then { w with pc := .done, target }
      else { w with pc := .sendClient bytes, target, polledOn := w.polledOn || bytes.isEmpty }
  else some { w with pc := .select }

/-- A pass of the loop in `http_send_string` towards the target. -/
def sendTarget (w : World) (rest : Bytes) (n : Nat) (ok : Bool) : Option World :=
  if rest.isEmpty || !ok then some { w with pc := .target }
  else if 0 < n ∧ n ≤ rest.length then
    some { w with pc := .sendTarget (rest.drop n), toTarget := w.toTarget ++ rest.take n }
  else none

/-- A pass of the loop in `http_send_string` towards the client: the write fails
when the sending side is shut down. -/
def sendClient (w : World) (rest : Bytes) (n : Nat) : Option World :=
  if rest.isEmpty || w.clientShut then some { w with pc := .select }
  else if 0 < n ∧ n ≤ rest.length then
    some { w with pc := .sendClient (rest.drop n), toClient := w.toClient ++ rest.take n }
  else none

def World.relay (w : World) (n : Nat) (ok : Bool) : Option World :=
  match w.pc with
  | .select => select w
  | .client => readClient w n
  | .sendTarget rest => sendTarget w rest n ok
  | .target => readTarget w n
  | .sendClient rest => sendClient w rest n
  | .done => none

def World.next (w : World) : Action → Option World
  | .clientSends bytes =>
      if w.client.ended then none
      else some { w with client := { w.client with queue := w.client.queue ++ bytes } }
  | .clientEnds => some { w with client := { w.client with ended := true } }
  | .targetSends bytes =>
      if w.target.ended then none
      else some { w with target := { w.target with queue := w.target.queue ++ bytes },
                         sent := w.sent ++ bytes }
  | .targetEnds => some { w with target := { w.target with ended := true } }
  | .relay n ok => w.relay n ok

def proxyRelay : System World Action := .ofNext (· = World.start) World.next

/-- Bytes read from the target and not written yet. -/
def World.inFlight (w : World) : Bytes :=
  match w.pc with
  | .sendClient rest => rest
  | _ => []

end CS162.HttpServer
