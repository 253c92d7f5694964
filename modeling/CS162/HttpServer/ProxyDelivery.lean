import CS162.HttpServer.ProxyRelay

/-!
What the relay delivers. At the client's end the loop shuts down its own sending
side towards the client, so what the target sends from then on is lost; at the
target's end it leaves only if the client has ended. Runs that avoid both
deliver every byte.
-/

namespace CS162.HttpServer
open CS162.Library

/-- The client's end is read when nothing of the target waits, the target sends
nothing after it, and the target's end is read after the client's. -/
def EndsInOrder (w : World) : Action → Prop
  | .targetSends _ => w.clientEof = false
  | .relay _ _ =>
      (w.pc = .client → w.clientSet = true → w.client.queue = [] → w.target.queue = []) ∧
      (w.pc = .target → w.targetSet = true → w.target.queue = [] → w.clientEof = true)
  | _ => True

instance (w : World) (a : Action) : Decidable (EndsInOrder w a) :=
  match a with
  | .targetSends _ => inferInstanceAs (Decidable (w.clientEof = false))
  | .relay _ _ => inferInstanceAs (Decidable (_ ∧ _))
  | .clientSends _ | .clientEnds | .targetEnds => .isTrue trivial

/-- Every byte the target has sent is with the client, in flight or waiting, in
this order; the sending side to the client is not shut down while there is
something to forward; no pass over the target's end has stayed in the loop; and
past the loop all is delivered. -/
structure Delivers (w : World) : Prop where
  inOrder : w.sent = w.toClient ++ w.inFlight ++ w.target.queue
  keepsOpen : w.clientShut = true → w.inFlight = [] ∧ w.target.queue = []
  leaves : w.polledOn = false
  delivered : w.pc = .done → w.target.ended = true ∧ w.toClient = w.sent

/-- The relay waits in `select` only, and when it waits there with nothing of the target to read,
all that was sent is with the client. -/
structure Forwards (w : World) : Prop extends Delivers w where
  idle : w.pc = .select → w.target.readable = false → w.toClient = w.sent
  goes : w.pc ≠ .done → (w.pc = .select → w.target.readable = true) → ∃ n, (w.relay n true).isSome = true

/-- The pass has not come to the target's branch yet. -/
def World.beforeTarget (w : World) : Bool :=
  match w.pc with
  | .client | .sendTarget _ | .target => true
  | _ => false

/-- The flags of the loop. -/
structure Flags (w : World) : Prop where
  shut : w.clientShut = w.clientEof
  cleared : w.clientEof = true → w.clientSet = false
  clientReady : w.pc = .client → w.clientSet = true → w.client.readable = true
  targetReady : w.beforeTarget = true → w.targetSet = true → w.target.readable = true
  left : w.pc = .done → w.target.ended = true ∧ w.target.queue = []

section Read
variable {s s' : Incoming} {n : Nat} {bytes : Bytes}

theorem read_eq_some (h : s.read n = some (bytes, s')) :
    (bytes = [] ∧ s.queue = [] ∧ s.ended = true ∧ s' = s) ∨
    (bytes ≠ [] ∧ s.queue = bytes ++ s'.queue ∧ s'.ended = s.ended) := by
  simp only [Incoming.read] at h
  split at h
  next empty =>
    split at h
    next ended =>
      cases h
      exact .inl ⟨rfl, by simpa using empty, ended, rfl⟩
    next => cases h
  next =>
    split at h
    next room =>
      cases h
      refine .inr ⟨fun none => ?_, (List.take_append_drop n s.queue).symm, rfl⟩
      have := congrArg List.length none
      simp only [List.length_take, List.length_nil] at this
      omega
    next => cases h

theorem exists_read (h : s.readable = true) : ∃ n r, s.read n = some r := by
  cases hq : s.queue with
  | nil =>
      have ended : s.ended = true := by simpa [Incoming.readable, hq] using h
      exact ⟨0, ([], s), by simp [Incoming.read, hq, ended]⟩
  | cons b bs => exact ⟨1, ([b], ⟨bs, s.ended⟩), by simp [Incoming.read, hq, maxBuff]⟩

theorem readable_append (h : s.readable = true) :
    Incoming.readable { s with queue := s.queue ++ bytes } = true := by
  simp only [Incoming.readable, Bool.or_eq_true, Bool.not_eq_true', List.isEmpty_eq_false_iff] at h ⊢
  exact h.imp_left (by simp +contextual)

end Read

/-- The steps there are. -/
inductive Step (w : World) : Action → World → Prop where
  | clientSends (bytes : Bytes) :
      Step w (.clientSends bytes)
        { w with client := { w.client with queue := w.client.queue ++ bytes } }
  | clientEnds : Step w .clientEnds { w with client := { w.client with ended := true } }
  | targetSends (bytes : Bytes) (more : w.target.ended = false) :
      Step w (.targetSends bytes)
        { w with target := { w.target with queue := w.target.queue ++ bytes },
                 sent := w.sent ++ bytes }
  | targetEnds : Step w .targetEnds { w with target := { w.target with ended := true } }
  | select (n : Nat) (ok client : Bool) (pc : w.pc = .select)
      (set : client = ((!w.clientEof || w.clientSet) && w.client.readable)) :
      Step w (.relay n ok)
        { w with pc := .client, clientSet := client, targetSet := w.target.readable }
  | clientEnd (n : Nat) (ok : Bool) (pc : w.pc = .client) (set : w.clientSet = true)
      (empty : w.client.queue = []) :
      Step w (.relay n ok)
        { w with pc := .select, clientEof := true, clientShut := true, clientSet := false }
  | clientData (n : Nat) (ok : Bool) (bytes : Bytes) (client : Incoming) (pc : w.pc = .client) :
      Step w (.relay n ok) { w with pc := .sendTarget bytes, client }
  | clientIdle (n : Nat) (ok : Bool) (pc : w.pc = .client) :
      Step w (.relay n ok) { w with pc := .target }
  | written (n : Nat) (ok : Bool) (rest : Bytes) (pc : w.pc = .sendTarget rest) :
      Step w (.relay n ok) { w with pc := .target }
  | write (n : Nat) (ok : Bool) (rest : Bytes) (pc : w.pc = .sendTarget rest) :
      Step w (.relay n ok)
        { w with pc := .sendTarget (rest.drop n), toTarget := w.toTarget ++ rest.take n }
  | targetEnd (n : Nat) (ok : Bool) (pc : w.pc = .target) (set : w.targetSet = true)
      (empty : w.target.queue = []) (ended : w.target.ended = true) (both : w.clientEof = true) :
      Step w (.relay n ok) { w with pc := .done }
  | targetPoll (n : Nat) (ok : Bool) (pc : w.pc = .target) (set : w.targetSet = true)
      (empty : w.target.queue = []) (only : w.clientEof = false) :
      Step w (.relay n ok) { w with pc := .sendClient [], polledOn := true }
  | targetData (n : Nat) (ok : Bool) (bytes : Bytes) (target : Incoming) (pc : w.pc = .target)
      (queue : w.target.queue = bytes ++ target.queue) (some : bytes ≠ [])
      (ended : target.ended = w.target.ended) :
      Step w (.relay n ok) { w with pc := .sendClient bytes, target }
  | targetIdle (n : Nat) (ok : Bool) (pc : w.pc = .target) :
      Step w (.relay n ok) { w with pc := .select }
  | delivered (n : Nat) (ok : Bool) (rest : Bytes) (pc : w.pc = .sendClient rest)
      (drained : rest = [] ∨ w.clientShut = true) :
      Step w (.relay n ok) { w with pc := .select }
  | deliver (n : Nat) (ok : Bool) (rest : Bytes) (pc : w.pc = .sendClient rest) :
      Step w (.relay n ok)
        { w with pc := .sendClient (rest.drop n), toClient := w.toClient ++ rest.take n }

section Steps
variable {w w' : World} {a : Action} {n : Nat} {ok : Bool} {rest : Bytes}

theorem relay_step (run : w.relay n ok = some w') : Step w (.relay n ok) w' := by
  unfold World.relay at run
  split at run
  next pc =>
    simp only [CS162.HttpServer.select] at run
    split at run
    next =>
      cases run
      exact .select n ok _ pc rfl
    next => cases run
  next pc =>
    simp only [readClient] at run
    split at run
    next set =>
      obtain ⟨⟨bytes, client⟩, read, rfl⟩ := Option.map_eq_some_iff.mp run
      obtain ⟨rfl, empty, _, rfl⟩ | ⟨some, _, _⟩ := read_eq_some read
      · exact .clientEnd n ok pc set empty
      · simp only [List.isEmpty_eq_false_iff.mpr some]
        exact .clientData n ok bytes client pc
    next =>
      cases run
      exact .clientIdle n ok pc
  next rest pc =>
    simp only [CS162.HttpServer.sendTarget] at run
    split at run
    next =>
      cases run
      exact .written n ok rest pc
    next =>
      split at run
      next =>
        cases run
        exact .write n ok rest pc
      next => cases run
  next pc =>
    simp only [readTarget] at run
    split at run
    next set =>
      obtain ⟨⟨bytes, target⟩, read, rfl⟩ := Option.map_eq_some_iff.mp run
      obtain ⟨rfl, empty, ended, rfl⟩ | ⟨some, queue, same⟩ := read_eq_some read
      · by_cases both : w.clientEof = true
        · have leaves : (List.isEmpty ([] : Bytes) && w.clientEof) = true := by simp [both]
          rw [if_pos leaves]
          exact .targetEnd n ok pc set empty ended both
        · have stays : ¬ (List.isEmpty ([] : Bytes) && w.clientEof) = true := by simp [both]
          rw [if_neg stays]
          simp only [List.isEmpty_nil, Bool.or_true]
          exact .targetPoll n ok pc set empty (by simpa using both)
      · simp only [List.isEmpty_eq_false_iff.mpr some, Bool.false_and, Bool.or_false]
        exact .targetData n ok bytes target pc queue some same
    next =>
      cases run
      exact .targetIdle n ok pc
  next rest pc =>
    simp only [CS162.HttpServer.sendClient] at run
    split at run
    next drained =>
      cases run
      exact .delivered n ok rest pc (by simpa using drained)
    next =>
      split at run
      next =>
        cases run
        exact .deliver n ok rest pc
      next => cases run
  next => cases run

theorem next_step (run : w.next a = some w') : Step w a w' := by
  cases a with
  | clientSends bytes =>
      simp only [World.next] at run
      split at run
      next => cases run
      next =>
        cases run
        exact .clientSends bytes
  | clientEnds =>
      cases run
      exact .clientEnds
  | targetSends bytes =>
      simp only [World.next] at run
      split at run
      next => cases run
      next more =>
        cases run
        exact .targetSends bytes (by simpa using more)
  | targetEnds =>
      cases run
      exact .targetEnds
  | relay n ok => exact relay_step run

theorem flags_start : Flags World.start where
  shut := rfl
  cleared h := nomatch h
  clientReady h := nomatch h
  targetReady h := nomatch h
  left h := nomatch h

theorem flags_step (h : Flags w) (step : Step w a w') : Flags w' := by
  cases step with
  | clientSends bytes =>
      exact ⟨h.shut, h.cleared, fun pc set => readable_append (h.clientReady pc set), h.targetReady,
        h.left⟩
  | clientEnds =>
      exact ⟨h.shut, h.cleared, fun _ _ => by simp [Incoming.readable], h.targetReady, h.left⟩
  | targetSends bytes more =>
      refine ⟨h.shut, h.cleared, h.clientReady, fun pc set => readable_append (h.targetReady pc set),
        fun pc => ?_⟩
      rw [(h.left pc).1] at more
      cases more
  | targetEnds =>
      exact ⟨h.shut, h.cleared, h.clientReady, fun _ _ => by simp [Incoming.readable],
        fun pc => ⟨rfl, (h.left pc).2⟩⟩
  | select n ok client pc set =>
      refine ⟨h.shut, fun eof => ?_, fun _ ready => ?_, fun _ ready => ready,
        fun pc => (by cases pc)⟩
      · simp only at eof
        simp [set, eof, h.cleared eof]
      · simp only [set, Bool.and_eq_true] at ready
        exact ready.2
  | clientEnd n ok pc set empty =>
      exact ⟨rfl, fun _ => rfl, fun pc => (by cases pc), fun pc => (by cases pc),
        fun pc => (by cases pc)⟩
  | clientData n ok bytes client pc =>
      refine ⟨h.shut, h.cleared, fun pc => (by cases pc), fun _ => h.targetReady ?_,
        fun pc => (by cases pc)⟩
      simp [World.beforeTarget, pc]
  | clientIdle n ok pc =>
      refine ⟨h.shut, h.cleared, fun pc => (by cases pc), fun _ => h.targetReady ?_,
        fun pc => (by cases pc)⟩
      simp [World.beforeTarget, pc]
  | written n ok rest pc | write n ok rest pc =>
      refine ⟨h.shut, h.cleared, fun pc => (by cases pc), fun _ => h.targetReady ?_,
        fun pc => (by cases pc)⟩
      simp [World.beforeTarget, pc]
  | targetEnd n ok pc set empty ended both =>
      exact ⟨h.shut, h.cleared, fun pc => (by cases pc), fun pc => (by cases pc),
        fun _ => ⟨ended, empty⟩⟩
  | targetPoll n ok pc set empty only | targetData n ok bytes target pc queue some ended =>
      exact ⟨h.shut, h.cleared, fun pc => (by cases pc), fun pc => (by cases pc),
        fun pc => (by cases pc)⟩
  | targetIdle n ok pc | delivered n ok rest pc drained | deliver n ok rest pc =>
      exact ⟨h.shut, h.cleared, fun pc => (by cases pc), fun pc => (by cases pc),
        fun pc => (by cases pc)⟩

theorem reachable_flags (h : proxyRelay.Reachable w) : Flags w :=
  h.invariant (fun _ start => start ▸ flags_start) fun _ _ _ hw run => flags_step hw (next_step run)

theorem delivers_start : Delivers World.start where
  inOrder := rfl
  keepsOpen h := nomatch h
  leaves := rfl
  delivered h := nomatch h

/-- A step between two points of the loop that hold no bytes of the target and
that touches neither the target nor what the client has. -/
theorem Delivers.quiet (h : Delivers w) (still : w.inFlight = []) (still' : w'.inFlight = [])
    (sent : w'.sent = w.sent) (toClient : w'.toClient = w.toClient) (target : w'.target = w.target)
    (shut : w'.clientShut = w.clientShut) (polled : w'.polledOn = w.polledOn) (pc : w'.pc ≠ .done) :
    Delivers w' where
  inOrder := by
    have := h.inOrder
    rwa [still, ← still', ← sent, ← toClient, ← target] at this
  keepsOpen h' := by
    rw [shut] at h'
    rw [target]
    exact ⟨still', (h.keepsOpen h').2⟩
  leaves := polled.trans h.leaves
  delivered h' := absurd h' pc

theorem delivers_step (flags : Flags w) (h : Delivers w) (ends : EndsInOrder w a)
    (step : Step w a w') : Delivers w' := by
  cases step with
  | clientSends bytes | clientEnds => exact ⟨h.inOrder, h.keepsOpen, h.leaves, h.delivered⟩
  | targetSends bytes more =>
      refine ⟨?_, fun shut => ?_, h.leaves, fun pc => ?_⟩
      · change w.sent ++ bytes = w.toClient ++ w.inFlight ++ (w.target.queue ++ bytes)
        rw [h.inOrder, List.append_assoc _ w.target.queue bytes]
      · have eof : w.clientEof = false := ends
        rw [← flags.shut] at eof
        cases eof.symm.trans shut
      · rw [(flags.left pc).1] at more
        cases more
  | targetEnds => exact ⟨h.inOrder, h.keepsOpen, h.leaves, fun pc => ⟨rfl, (h.delivered pc).2⟩⟩
  | select n ok client pc set =>
      exact h.quiet (by simp [World.inFlight, pc]) rfl rfl rfl rfl rfl rfl (by simp)
  | clientEnd n ok pc set empty =>
      have still : w.inFlight = [] := by simp [World.inFlight, pc]
      have waits : w.target.queue = [] := ends.1 pc set empty
      refine ⟨?_, fun _ => ⟨rfl, waits⟩, h.leaves, fun pc => (by cases pc)⟩
      have all := h.inOrder
      rw [still] at all
      exact all
  | clientData n ok bytes client pc | clientIdle n ok pc =>
      exact h.quiet (by simp [World.inFlight, pc]) rfl rfl rfl rfl rfl rfl (by simp)
  | written n ok rest pc | write n ok rest pc =>
      exact h.quiet (by simp [World.inFlight, pc]) rfl rfl rfl rfl rfl rfl (by simp)
  | targetEnd n ok pc set empty ended both =>
      have still : w.inFlight = [] := by simp [World.inFlight, pc]
      have all := h.inOrder
      rw [still, empty, List.append_nil, List.append_nil] at all
      refine ⟨?_, fun _ => ⟨rfl, empty⟩, h.leaves, fun _ => ⟨ended, all.symm⟩⟩
      simpa [World.inFlight, empty] using all
  | targetPoll n ok pc set empty only =>
      cases (ends.2 pc set empty).symm.trans only
  | targetData n ok bytes target pc queue some ended =>
      have still : w.inFlight = [] := by simp [World.inFlight, pc]
      refine ⟨?_, fun shut => ?_, h.leaves, fun pc => (by cases pc)⟩
      · change w.sent = w.toClient ++ bytes ++ target.queue
        rw [h.inOrder, still, queue, List.append_nil, List.append_assoc]
      · have empty := (h.keepsOpen shut).2
        rw [queue, List.append_eq_nil_iff] at empty
        exact absurd empty.1 some
  | targetIdle n ok pc =>
      exact h.quiet (by simp [World.inFlight, pc]) rfl rfl rfl rfl rfl rfl (by simp)
  | delivered n ok rest pc drained =>
      have flight : w.inFlight = rest := by simp [World.inFlight, pc]
      have none : w.inFlight = [] := by
        cases drained with
        | inl none => rw [flight, none]
        | inr shut => exact (h.keepsOpen shut).1
      exact h.quiet none rfl rfl rfl rfl rfl rfl (by simp)
  | deliver n ok rest pc =>
      have flight : w.inFlight = rest := by simp [World.inFlight, pc]
      refine ⟨?_, fun shut => ?_, h.leaves, fun pc => (by cases pc)⟩
      · change w.sent = w.toClient ++ rest.take n ++ rest.drop n ++ w.target.queue
        rw [h.inOrder, flight, List.append_assoc w.toClient (rest.take n), List.take_append_drop]
      · obtain ⟨none, empty⟩ := h.keepsOpen shut
        rw [flight] at none
        exact ⟨by simp [World.inFlight, none], empty⟩

/-- Waiting in `select` with nothing of the target to read, all it has sent is
with the client. -/
theorem Delivers.idle (h : Delivers w) (pc : w.pc = .select) (idle : w.target.readable = false) :
    w.toClient = w.sent := by
  have empty : w.target.queue = [] := by
    simp only [Incoming.readable, Bool.or_eq_false_iff] at idle
    simpa using idle.1
  have all := h.inOrder
  simp only [World.inFlight, pc, empty, List.append_nil] at all
  exact all.symm

theorem Flags.relay_isSome (h : Flags w) (pc : w.pc ≠ .done)
    (ready : w.pc = .select → w.target.readable = true) :
    ∃ n, (w.relay n true).isSome = true := by
  unfold World.relay
  cases hpc : w.pc with
  | select => exact ⟨0, by simp [CS162.HttpServer.select, ready hpc]⟩
  | client =>
      by_cases set : w.clientSet = true
      · obtain ⟨n, r, read⟩ := exists_read (h.clientReady hpc set)
        exact ⟨n, by simp [readClient, set, read]⟩
      · exact ⟨0, by simp [readClient, set]⟩
  | sendTarget rest =>
      cases rest with
      | nil => exact ⟨0, rfl⟩
      | cons b rest => exact ⟨1, by simp [CS162.HttpServer.sendTarget]⟩
  | target =>
      by_cases set : w.targetSet = true
      · obtain ⟨n, r, read⟩ := exists_read (h.targetReady (by simp [World.beforeTarget, hpc]) set)
        exact ⟨n, by simp [readTarget, set, read]⟩
      · exact ⟨0, by simp [readTarget, set]⟩
  | sendClient rest =>
      refine ⟨1, ?_⟩
      cases rest with
      | nil => rfl
      | cons b rest => cases hs : w.clientShut <;> simp [CS162.HttpServer.sendClient, hs]
  | done => exact absurd hpc pc

/-- In every run that reads the client's end only when nothing of the target
waits or is still to come, and the target's end only after the client's, every
byte of the target is delivered in order, the sending side stays open as long as
there is something to forward, and the loop is left at the target's end. -/
theorem delivers_of_endsInOrder (h : (proxyRelay.under EndsInOrder).Reachable w) : Forwards w := by
  have delivers : Delivers w := by
    refine h.invariant_of_reachable (fun w start => start ▸ delivers_start) ?_
    intro w a w' reached hw step
    exact delivers_step (reachable_flags reached.of_under) hw step.2 (next_step step.1)
  exact {
    toDelivers := delivers
    idle := delivers.idle
    goes := (reachable_flags h.of_under).relay_isSome }

end Steps

/-- A request, an answer in two writes, and both ends. -/
theorem delivers_of_request :
    ∃ w, (w.pc == .done && w.toTarget == [71, 10] && w.toClient == [79, 75, 10]) = true ∧
      Forwards w := by
  obtain ⟨w, hr, hp⟩ := System.exists_reachable_under (· = World.start) World.next EndsInOrder
    (fun w => w.pc == .done && w.toTarget == [71, 10] && w.toClient == [79, 75, 10]) rfl
    [.clientSends [71, 10], .relay 0 true, .relay 2 true, .relay 2 true, .relay 0 true, .relay 0 true,
      .targetSends [79, 75, 10], .relay 0 true, .relay 0 true, .relay 3 true, .relay 1 true,
      .relay 2 true, .relay 0 true, .clientEnds, .relay 0 true, .relay 0 true, .targetEnds,
      .relay 0 true, .relay 0 true, .relay 0 true] (by decide)
  exact ⟨w, hp, delivers_of_endsInOrder hr⟩

/-- The client ends before the target answers: the relay shuts down its own
sending side, and the answer is lost. The target ends before the client: the
pass over its end stays in the loop. -/
theorem delivers_fails_on_early_ends :
    (¬ ∀ w, proxyRelay.Reachable w → w.sent = w.toClient ++ w.inFlight ++ w.target.queue) ∧
      ¬ ∀ w, proxyRelay.Reachable w → w.polledOn = false := by
  refine ⟨fun all => ?_, fun all => ?_⟩
  · obtain ⟨w, hr, hp⟩ := System.exists_reachable (· = World.start) World.next
      (fun w => w.pc == .done && w.sent == [79, 75] && w.toClient == [] && w.target.queue == []) rfl
      [.clientEnds, .relay 0 true, .relay 0 true, .targetSends [79, 75], .relay 0 true, .relay 0 true,
        .relay 2 true, .relay 2 true, .targetEnds, .relay 0 true, .relay 0 true, .relay 0 true]
      (by decide)
    simp only [Bool.and_eq_true, beq_iff_eq] at hp
    obtain ⟨⟨⟨pc, sent⟩, toClient⟩, queue⟩ := hp
    have lost := all w hr
    simp [World.inFlight, pc, sent, toClient, queue] at lost
  · obtain ⟨w, hr, hp⟩ := System.exists_reachable (· = World.start) World.next (·.polledOn) rfl
      [.targetEnds, .relay 0 true, .relay 0 true, .relay 0 true] (by decide)
    rw [all w hr] at hp
    cases hp

end CS162.HttpServer
