import CS162.HttpServer.Descriptors

/-!
What the handlers of httpserver.c do with their descriptors, whatever the calls answer. The
file handler releases the client and what it has opened on each of its exits. The proxy handler
does so only when the target cannot be reached: after the relay loop the client is still open.
-/

namespace CS162.HttpServer
namespace Descriptors
open CS162.Library CS162.Library.Program CS162.Library.Phases

variable {p : Phases Fd} {fd : Fd} {fuel : Nat}

/-- The phases are as before. -/
abbrev Same {α : Type} (p : Phases Fd) (_ : α) (p' : Phases Fd) : Prop := p' = p

section Responses

theorem sendHeaders_leads (open_fd : p fd = .held) (headers : Nat) : Leads p (sendHeaders fd headers) (Same p) := by
  induction headers with
  | zero => exact (Leads.used open_fd).next fun _ => .used open_fd
  | succ headers ih => exact (Leads.used open_fd).next fun _ => ih

theorem httpSendString_leads (open_fd : p fd = .held) (fuel : Nat) (size : Int) :
    Leads p (httpSendString fd fuel size) (Same p) := by
  induction fuel generalizing size with
  | zero => exact .stop
  | succ fuel ih =>
      refine .ite (fun _ => .pure rfl) fun _ => ?_
      refine (Leads.used open_fd).next fun _ => Leads.ask.next fun written => ?_
      exact .ite (fun _ => .pure rfl) fun _ => ih _

theorem httpRequestParse_leads (open_fd : p fd = .held) : Leads p (httpRequestParse fd) (Same p) :=
  (Leads.used open_fd).next fun _ => Leads.ask.next fun _ => .pure rfl

end Responses

section Files

theorem copyFile_leads (client : p .client = .held) (file : p .file = .held) (fuel : Nat) :
    Leads p (copyFile fuel) (Same p) := by
  induction fuel with
  | zero => exact .stop
  | succ fuel ih =>
      refine (Leads.used file).next fun _ => Leads.ask.next fun byteRead => ?_
      refine .ite (fun _ => .pure rfl) fun _ => ?_
      exact (httpSendString_leads client fuel _).next fun _ => ih

theorem serveFile_leads (client : p .client = .held) (file : p .file = .fresh) (fuel : Nat) :
    Leads p (serveFile fuel) fun _ p' => Settled p p' := by
  refine (sendHeaders_leads client 2).next fun _ => Leads.ask.next fun opened => ?_
  refine .ite (fun _ => .pure (.refl p)) fun _ => (Leads.opened file).next fun _ => ?_
  have held : Function.update p Fd.file .held .file = .held := Function.update_self ..
  refine (copyFile_leads ?_ held fuel).next fun _ => (Leads.closed held).imp fun _ _ last => ?_
  · exact (Function.update_of_ne (by decide) ..).trans client
  · exact last ▸ Settled.close file (.refl _)

theorem readEntries_leads (directory : p .directory = .held) (fn : Bytes) (fuel : Nat) :
    Leads p (readEntries fn fuel) (Same p) := by
  induction fuel with
  | zero => exact .stop
  | succ fuel ih =>
      refine (Leads.used directory).next fun _ => Leads.ask.next fun entry => ?_
      refine .ite (fun _ => .pure rfl) fun _ => .ite (fun _ => .pure rfl) fun _ => ?_
      exact ih.next fun _ => .pure rfl

theorem sendLines_leads (client : p .client = .held) (fuel : Nat) (lines : List Bytes) :
    Leads p (sendLines fuel lines) (Same p) := by
  induction lines with
  | nil => exact .pure rfl
  | cons line lines ih => exact (httpSendString_leads client fuel _).next fun _ => ih

theorem serveDirectory_leads (client : p .client = .held) (file : p .file = .fresh)
    (directory : p .directory = .fresh) (fuel : Nat) (fn : Bytes) :
    Leads p (serveDirectory fuel fn) fun _ p' => Settled p p' := by
  refine Leads.ask.next fun dir => .ite (fun _ => .pure (.refl p)) fun _ => ?_
  refine (Leads.opened directory).next fun _ => ?_
  have held : Function.update p Fd.directory .held .directory = .held := Function.update_self ..
  have client' : Function.update p Fd.directory .held .client = .held :=
    (Function.update_of_ne (by decide) ..).trans client
  have file' : Function.update p Fd.directory .held .file = .fresh :=
    (Function.update_of_ne (by decide) ..).trans file
  have close : ∀ p₁, Settled (Function.update p .directory .held) p₁ →
      Leads p₁ (note (.closed .directory) : Handler Unit) fun _ p' => Settled p p' := fun p₁ settled =>
    (Leads.closed (settled.held held)).imp fun _ _ last => last ▸ settled.close directory
  refine (readEntries_leads held fn fuel).next fun found => .ite (fun _ => ?_) fun _ => ?_
  · refine Leads.ask.next fun info => .ite (fun _ => ?_) fun _ => close _ (.refl _)
    exact (serveFile_leads client' file' fuel).bind fun _ p₁ => close p₁
  · refine (sendHeaders_leads client' 1).next fun _ => ?_
    exact (sendLines_leads client' fuel _).next fun _ => close _ (.refl _)

theorem handleFilesRequest_leads (client : p .client = .held) (file : p .file = .fresh)
    (directory : p .directory = .fresh) (fuel : Nat) :
    Leads p (handleFilesRequest fuel) fun _ p' => ∃ p₁, Settled p p₁ ∧ p' = Function.update p₁ .client .released := by
  refine (httpRequestParse_leads client).next fun request => ?_
  have close : ∀ p₁, Settled p p₁ → Leads p₁ (note (.closed .client) : Handler Unit) fun _ p' =>
      ∃ p₁, Settled p p₁ ∧ p' = Function.update p₁ .client .released := fun p₁ settled =>
    (Leads.closed (settled.held client)).imp fun _ _ last => ⟨p₁, settled, last⟩
  have answer : Leads p (sendHeaders .client 1 >>= fun _ => note (.closed .client)) fun _ p' =>
      ∃ p₁, Settled p p₁ ∧ p' = Function.update p₁ .client .released :=
    (sendHeaders_leads client 1).next fun _ => close p (.refl p)
  cases request with
  | none => exact answer
  | some request =>
      refine .ite (fun _ => answer) fun _ => .ite (fun _ => answer) fun _ => ?_
      refine Leads.ask.next fun fileStat => .ite (fun _ => ?_) fun _ => answer
      refine .ite (fun _ => ?_) fun _ => .ite (fun _ => ?_) fun _ => close p (.refl p)
      · exact (serveFile_leads client file fuel).bind fun _ p₁ => close p₁
      · exact (serveDirectory_leads client file directory fuel _).bind fun _ p₁ => close p₁

end Files

section Proxy

theorem select_leads (client : p .client = .held) (target : p .target = .held) (clientEof clientSet : Bool) :
    Leads p (select clientEof clientSet) (Same p) := by
  refine .ite (fun _ => ?_) fun _ => ?_
  · exact (Leads.used client).next fun _ => (Leads.used target).next fun _ => .ask
  · exact (Leads.used target).next fun _ => .ask

theorem relayClient_leads (client : p .client = .held) (target : p .target = .held) (fuel : Nat)
    (clientSet : Bool) : Leads p (relayClient fuel clientSet) (Same p) := by
  refine .ite (fun _ => ?_) fun _ => .pure rfl
  refine (Leads.used client).next fun _ => Leads.ask.next fun nread => .ite (fun _ => ?_) fun _ => ?_
  · exact (Leads.used client).next fun _ => .pure rfl
  · exact (httpSendString_leads target fuel _).next fun _ => .pure rfl

theorem relayTarget_leads (client : p .client = .held) (target : p .target = .held) (fuel : Nat)
    (targetSet clientEof : Bool) : Leads p (relayTarget fuel targetSet clientEof) (Same p) := by
  refine .ite (fun _ => ?_) fun _ => .pure rfl
  refine (Leads.used target).next fun _ => Leads.ask.next fun nread => .ite (fun _ => .pure rfl) fun _ => ?_
  exact (httpSendString_leads client fuel _).next fun _ => .pure rfl

theorem relay_leads (client : p .client = .held) (target : p .target = .held) (clientEof clientSet : Bool)
    (fuel : Nat) : Leads p (relay clientEof clientSet fuel) (Same p) := by
  induction fuel generalizing clientEof clientSet with
  | zero => exact .stop
  | succ fuel ih =>
      refine (select_leads client target clientEof clientSet).next fun rset => ?_
      refine (relayClient_leads client target fuel _).next fun ended => .ite (fun _ => ih true false) fun _ => ?_
      refine (relayTarget_leads client target fuel _ clientEof).next fun left => ?_
      exact .ite (fun _ => .pure rfl) fun _ => ih clientEof _

theorem refuse_leads (client : p .client = .held) (target : p .target = .held) :
    Leads p refuse fun _ p' => p' = Function.update (Function.update p .target .released) .client .released := by
  refine (httpRequestParse_leads client).next fun _ => (sendHeaders_leads client 1).next fun _ => ?_
  refine (Leads.closed target).next fun _ => .closed ?_
  exact (Function.update_of_ne (by decide) ..).trans client

theorem relayAll_leads (client : p .client = .held) (target : p .target = .held) (fuel : Nat) :
    Leads p (relayAll fuel) fun _ p' => p' = Function.update p .target .released :=
  (relay_leads client target false false fuel).next fun _ => .closed target

end Proxy

section Law
variable {answers : Nat → Reply} {c : Calls Reply Fd}

/-- At the start the client's descriptor is the only one. -/
def accepted : Phases Fd := fun fd => if fd = .client then .held else .fresh

theorem released_of_after {log : List (ResourceEvent Fd)} {p' : Phases Fd} (h : accepted.after log = some p')
    (none_held : ∀ fd, p' fd ≠ .held) : Released log :=
  ⟨closedOnce_of_after h (.inl rfl) (none_held _), fun fd opened => closedOnce_of_after h (.inr opened) (none_held fd)⟩

theorem released_of_handleFilesRequest (run : handleFilesRequest fuel (start answers) = some ((), c)) :
    Released c.log := by
  obtain ⟨log, p', said, after, p₁, settled, rfl⟩ :=
    handleFilesRequest_leads (p := accepted) rfl rfl rfl fuel _ _ _ run
  rw [said]
  refine released_of_after after fun fd => ?_
  by_cases client : fd = .client
  · rw [client, Function.update_self]
    exact Phase.noConfusion
  · rw [Function.update_of_ne client]
    exact settled.ne_held (if_neg client)

/-- A run that returns has got as far as `connect`. -/
theorem handleProxyRequest_connects (run : handleProxyRequest fuel (start answers) = some ((), c)) :
    (if (answers 2).result < 0 then refuse else relayAll fuel)
      ⟨answers, 3, [.opened .target, .used .target]⟩ = some ((), c) := by
  rw [handleProxyRequest, bind_apply] at run
  by_cases socket : (answers 1).result = -1
  · simp [start, ask, note, Program.stop, bind_apply, socket] at run
  by_cases unknown : (answers 0).result < 0
  · simp [start, ask, note, Program.stop, bind_apply, socket, unknown] at run
  by_cases refused : (answers 2).result < 0
  · simpa [start, ask, note, Program.stop, bind_apply, socket, unknown, refused] using run
  · simpa [start, ask, note, Program.stop, bind_apply, socket, unknown, refused] using run

/-- After the relay loop the target is closed once, the client not at all. -/
theorem relayed_log (reached : ¬ (answers 2).result < 0)
    (run : handleProxyRequest fuel (start answers) = some ((), c)) :
    ClosedOnce .target c.log ∧ .closed .client ∉ c.log := by
  have last := handleProxyRequest_connects run
  rw [if_neg reached] at last
  obtain ⟨log, p', said, after, rfl⟩ :=
    relayAll_leads (p := Function.update accepted .target .held) rfl rfl fuel _ _ _ last
  have whole : accepted.after c.log =
      some (Function.update (Function.update accepted .target .held) .target .released) := by
    rw [said, Phases.after_append]
    exact after
  exact ⟨closedOnce_of_after whole (.inr (said ▸ by simp)) (by simp), closed_notMem_of_after whole rfl⟩

theorem released_of_refused (refused : (answers 2).result < 0)
    (run : handleProxyRequest fuel (start answers) = some ((), c)) : Released c.log := by
  have last := handleProxyRequest_connects run
  rw [if_pos refused] at last
  obtain ⟨log, p', said, after, rfl⟩ :=
    refuse_leads (p := Function.update accepted .target .held) rfl rfl _ _ _ last
  have whole : accepted.after c.log = some (Function.update (Function.update
      (Function.update accepted .target .held) .target .released) .client .released) := by
    rw [said, Phases.after_append]
    exact after
  refine released_of_after whole fun fd => ?_
  cases fd <;> exact Phase.noConfusion

/-- The files handler releases its descriptors on each of its exits, the proxy handler exactly
where the target refuses the connection. -/
theorem released_iff_refused {handler : RequestHandler}
    (run : handler.run fuel (start answers) = some ((), c)) :
    Released c.log ↔ handler = .files ∨ (answers 2).result < 0 := by
  cases handler with
  | files => exact iff_of_true (released_of_handleFilesRequest run) (.inl rfl)
  | proxy =>
      refine ⟨fun released => .inr ?_, fun refused => released_of_refused (refused.resolve_left nofun) run⟩
      by_contra reached
      exact (relayed_log reached run).2 released.1.mem

/-- The target refuses the connection. -/
def refuses : Nat → Reply :=
  fun n => ⟨if n = 1 then 5 else if n = 2 then -1 else 0, [], false, false, fun _ => true⟩

def refusedLog : List (ResourceEvent Fd) :=
  [.opened .target, .used .target, .used .client, .used .client, .used .client, .used .client,
    .closed .target, .closed .client]

theorem run_refuses : RequestHandler.proxy.run 3 (start refuses) = some ((), ⟨refuses, 4, refusedLog⟩) := rfl

theorem released_of_refuses : Released refusedLog :=
  (released_iff_refused run_refuses).mpr (.inr (by decide))

/-- The target is reached, and either side ends its stream at once. -/
def bothEnd : Nat → Reply := fun n => ⟨if n = 1 then 5 else 0, [], false, false, fun _ => true⟩

def endedLog : List (ResourceEvent Fd) :=
  [.opened .target, .used .target, .used .client, .used .target, .used .client, .used .client,
    .used .target, .used .target, .closed .target]

theorem run_bothEnd : RequestHandler.proxy.run 3 (start bothEnd) = some ((), ⟨bothEnd, 7, endedLog⟩) := rfl

/-- Then the client's socket is shut down, but never closed. -/
theorem not_released_of_bothEnd :
    ¬ ∀ (handler : RequestHandler) (fuel : Nat) (c : Calls Reply Fd),
      handler.run fuel (start bothEnd) = some ((), c) → Released c.log := by
  intro always
  have released := always .proxy 3 ⟨bothEnd, 7, endedLog⟩ run_bothEnd
  exact absurd released.1.mem (by decide)

end Law
end Descriptors
end CS162.HttpServer
