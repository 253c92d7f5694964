import CS162.Synch.InterruptQueueFifo

/-!
The serial port and the input buffer of Pintos (devices/serial.c, devices/input.c): two
interrupt queues, one for bytes to be sent and one for bytes that were received or typed. A
thread's step goes from one point where it blocks, or enters, to the next; a handler and a
call with interrupts off run without a stop.

The register that enables the port's interrupts is its two bits. What the port has to do is
written down besides: which bytes callers have given to `serial_putc`, by the order in which
their calls were complete, which keys have got into the input buffer, and which keys
`input_getc` has returned.
-/

namespace CS162.Synch
open CS162.Library
universe x

/-- `mode`. -/
inductive SerialMode where
  | uninit
  | poll
  | queue
  deriving DecidableEq

/-- The interrupt enable register: IER_XMIT and IER_RECV. -/
structure Ier where
  xmit : Bool
  recv : Bool
  deriving DecidableEq

/-- The state of serial.c and of input.c; `wire` is what the port has sent. -/
structure SerialPort (ι : Type x) where
  mode : SerialMode
  txq : IntQWorld ι
  buffer : IntQWorld ι
  ier : Ier
  wire : List UInt8
  sent : List UInt8
  typed : List UInt8
  fetched : List UInt8

/-- A step that cannot be taken now, a failed ASSERT on `mode`, or one of a queue. -/
inductive SerialFault where
  | disabled
  | mode
  | queue (fault : Fault)
  deriving DecidableEq

/-- What happens next. `putc` and `getc` start a call of a thread, with interrupts on, or go on
with it; `putcOff` is a call with interrupts off. A handler comes with the bytes that the port
has received and the number of bytes that it is ready to send. -/
inductive SerialLabel (ι : Type x) where
  | initQueue
  | putc (t : ι) (byte : UInt8)
  | putcOff (byte : UInt8)
  | flush
  | getc (t : ι)
  | key (byte : UInt8)
  | interrupt (received : List UInt8) (ready : Nat)

/-- The thread is in this call, or in none. -/
def Spot.Calls (job : Job) : Spot → Prop
  | .outside => True
  | .lock job' | .wait job' => job' = job

instance (job : Job) : (spot : Spot) → Decidable (spot.Calls job)
  | .outside => .isTrue trivial
  | .lock _ | .wait _ => inferInstanceAs (Decidable (_ = _))

namespace SerialPort
variable {ι : Type x} (s : SerialPort ι)

def writeIer : SerialPort ι := { s with ier := ⟨!s.txq.queue.empty, !s.buffer.queue.full⟩ }

/-- `init_poll`: what it sets up is as it was in the beginning. -/
def initPoll : Except SerialFault (SerialPort ι) :=
  if s.mode = .uninit then .ok { s with ier := ⟨false, false⟩, mode := .poll } else .error .mode

/-- `init_poll`, if it has not been called. -/
def setUp : Except SerialFault (SerialPort ι) := if s.mode = .uninit then s.initPoll else .ok s

def serialInitQueue : Except SerialFault (SerialPort ι) := do
  let s ← s.setUp
  if s.mode = .poll then return { s with mode := .queue }.writeIer else .error .mode

def serialNotify : SerialPort ι := if s.mode = .queue then s.writeIer else s

def putcPoll (byte : UInt8) : SerialPort ι := { s with wire := s.wire ++ [byte] }

/-- `serial_putc` while `mode` is not QUEUE. -/
def putcEarly (byte : UInt8) : Except SerialFault (SerialPort ι) := do
  let s ← s.setUp
  return { s.putcPoll byte with sent := s.sent ++ [byte] }

variable [DecidableEq ι]

/-- A step of a call on one of the queues. -/
def stepQueue (q : IntQWorld ι) (a : IntQLabel ι) : Except SerialFault (IntQWorld ι) :=
  (q.next a).mapError .queue

/-- `putc_poll (intq_getc (&txq))`, of a queue that is not empty. -/
def sendOne : Except SerialFault (SerialPort ι) := do
  let txq ← stepQueue s.txq (.handler .getc)
  return { s with txq, wire := s.wire ++ (txq.returned none).toList }

/-- `serial_putc`, by a thread with interrupts on. -/
def serialPutc (t : ι) (byte : UInt8) : Except SerialFault (SerialPort ι) :=
  if (s.txq.spot t).Calls (.putc byte) ∧ s.buffer.spot t = .outside then
    if s.mode ≠ .queue then s.putcEarly byte
    else do
      let txq ← stepQueue s.txq (.thread t (.putc byte))
      if s.txq.completes (.thread t (.putc byte)) = none then return { s with txq }
      else return { s with txq, sent := s.sent ++ [byte] }.writeIer
  else .error .disabled

/-- A byte is sent if there is no room for another. -/
def makeRoom : Except SerialFault (SerialPort ι) := if s.txq.queue.full then s.sendOne else .ok s

/-- `serial_putc` with interrupts off. -/
def serialPutcOff (byte : UInt8) : Except SerialFault (SerialPort ι) :=
  if s.mode ≠ .queue then s.putcEarly byte
  else do
    let s ← s.makeRoom
    let txq ← stepQueue s.txq (.handler (.putc byte))
    return { s with txq, sent := s.sent ++ [byte] }.writeIer

/-- The loops of `serial_flush` and of `serial_interrupt` that send, over this many bytes at
most. -/
def sendLoop : Nat → SerialPort ι → Except SerialFault (SerialPort ι)
  | 0, s => .ok s
  | rounds + 1, s =>
      if s.txq.queue.empty then .ok s
      else do
        let s ← s.sendOne
        sendLoop rounds s

/-- `serial_flush`: the queue has fewer bytes than places. -/
def serialFlush : Except SerialFault (SerialPort ι) := sendLoop intqBufsize s

/-- `input_putc`, of a buffer that is not full. -/
def inputPutc (key : UInt8) : Except SerialFault (SerialPort ι) := do
  let buffer ← stepQueue s.buffer (.handler (.putc key))
  return { s with buffer, typed := s.typed ++ [key] }.serialNotify

def inputGetc (t : ι) : Except SerialFault (SerialPort ι) :=
  if (s.buffer.spot t).Calls .getc ∧ s.txq.spot t = .outside then do
    let buffer ← stepQueue s.buffer (.thread t .getc)
    if s.buffer.completes (.thread t .getc) = none then return { s with buffer }
    else return { s with buffer, fetched := s.fetched ++ (buffer.returned (some t)).toList }.serialNotify
  else .error .disabled

/-- The end of `keyboard_interrupt`, when a key has a character. -/
def keyTyped (key : UInt8) : Except SerialFault (SerialPort ι) :=
  if s.buffer.queue.full then .ok s else s.inputPutc key

/-- The loop of `serial_interrupt` that receives. -/
def receiveLoop : List UInt8 → SerialPort ι → Except SerialFault (SerialPort ι)
  | [], s => .ok s
  | byte :: rest, s =>
      if s.buffer.queue.full then .ok s
      else do
        let s ← s.inputPutc byte
        receiveLoop rest s

def serialInterrupt (received : List UInt8) (ready : Nat) : Except SerialFault (SerialPort ι) := do
  let s ← receiveLoop received s
  let s ← sendLoop ready s
  return s.writeIer

/-- The port interrupts only while one of its interrupts is enabled. -/
def next : SerialLabel ι → Except SerialFault (SerialPort ι)
  | .initQueue => s.serialInitQueue
  | .putc t byte => s.serialPutc t byte
  | .putcOff byte => s.serialPutcOff byte
  | .flush => s.serialFlush
  | .getc t => s.inputGetc t
  | .key byte => s.keyTyped byte
  | .interrupt received ready =>
      if s.mode = .queue ∧ (s.ier.xmit ∨ s.ier.recv) then s.serialInterrupt received ready
      else .error .disabled

/-- Nothing has been sent, and both queues are as after `intq_init`. -/
structure Start (s : SerialPort ι) : Prop where
  mode : s.mode = .uninit
  txq : IntQWorld.Start s.txq
  buffer : IntQWorld.Start s.buffer
  lists : s.wire = [] ∧ s.sent = [] ∧ s.typed = [] ∧ s.fetched = []

end SerialPort

def serialPort (ι : Type x) [DecidableEq ι] : System (SerialPort ι) (SerialLabel ι) :=
  .ofNext SerialPort.Start fun s a => (s.next a).toOption

section Queues
variable {ι : Type x} {w w' : IntQWorld ι} {a : IntQLabel ι} {job : Job} {contents : List UInt8} {byte : UInt8}

theorem SameRing.empty {q q' : IntQ ι} (same : SameRing q q') : q'.empty = q.empty := by
  rw [IntQ.empty, IntQ.empty, same.head, same.tail]

theorem SameRing.full {q q' : IntQ ι} (same : SameRing q q') : q'.full = q.full := by
  rw [IntQ.full, IntQ.full, same.head, same.tail]

theorem Moves.putc {who : Option ι} (m : Moves w w' who (.putc byte)) (holds : w.queue.Holds contents) :
    w'.queue.Holds (contents ++ [byte]) := (holds.putc byte m.has).congr m.ring

theorem Moves.getc {who : Option ι} (m : Moves w w' who .getc) (holds : w.queue.Holds contents) :
    ∃ byte rest, contents = byte :: rest ∧ w'.returned who = some byte ∧ w'.queue.Holds rest := by
  obtain ⟨byte, rest, same, returned, left⟩ := holds.getc m.has
  exact ⟨byte, rest, same, m.returned.trans returned, left.congr m.ring⟩

/-- A thread in its call of `job`, or in none, completes that call or moves no byte. -/
theorem completes_of_calls {t : ι} (calls : (w.spot t).Calls job) :
    w.completes (.thread t job) = none ∨ w.completes (.thread t job) = some (some t, job) := by
  rw [IntQWorld.completes]
  cases here : w.spot t with
  | outside =>
      simp only
      split
      next => exact .inl rfl
      next => exact .inr rfl
  | lock job' => exact .inl rfl
  | wait job' =>
      rw [here] at calls
      cases calls
      simp only
      split
      next => exact .inl rfl
      next => exact .inr rfl

variable [DecidableEq ι]

theorem IntQWorld.Inv.of_next [Fintype ι] (h : w.Inv) (ran : w.next a = .ok w') : w'.Inv := by
  by_cases orderly : Orderly w a
  · obtain none | ⟨w'', ran', inv⟩ := h.next orderly
    · cases none.symm.trans ran
    · cases ran.symm.trans ran'
      exact inv
  · cases a with
    | handler job => exact absurd trivial orderly
    | thread t job =>
        have awake : w.kernel.status t ≠ .blocked := by
          intro blocked
          simp [IntQWorld.next, blocked] at ran
        cases (h.disorderly (World.status_ready awake) orderly).symm.trans ran

theorem IntQWorld.Inv.handler (h : w.Inv) (has : w.queue.lacks job.waitsFor = false) :
    ∃ w', w.next (.handler job) = .ok w' ∧ w'.Inv ∧ Moves w w' none job := by
  obtain ⟨w', ran, inv⟩ := h.finish none has
  refine ⟨w', ?_, inv, finish_moves has ran⟩
  rw [IntQWorld.next, if_neg (by simp [has]), ran]

theorem stepQueue_eq_ok (ran : SerialPort.stepQueue w a = .ok w') : w.next a = .ok w' := by
  rw [SerialPort.stepQueue] at ran
  cases result : w.next a with
  | ok w'' =>
      rw [result] at ran
      exact congrArg Except.ok (Except.ok.inj ran)
  | error fault =>
      rw [result] at ran
      cases ran

theorem stepQueue_of_ok (ran : w.next a = .ok w') : SerialPort.stepQueue w a = .ok w' := by
  rw [SerialPort.stepQueue, ran]
  rfl

end Queues

section Invariant
variable {ι : Type x} {s s' : SerialPort ι} {waiting keys received : List UInt8} {byte : UInt8}

namespace SerialPort

/-- The bytes that wait to be sent, and the keys that wait to be fetched. -/
structure Flow (s : SerialPort ι) (waiting keys : List UInt8) : Prop where
  txq : s.txq.queue.Holds waiting
  buffer : s.buffer.queue.Holds keys
  sent : s.sent = s.wire ++ waiting
  typed : s.typed = s.fetched ++ keys

/-- The port interrupts when there is something to send, and when there is room for a key. -/
structure Enabled (s : SerialPort ι) : Prop where
  xmit : s.txq.queue.empty = false → s.ier.xmit = true
  recv : s.ier.recv = !s.buffer.queue.full

/-- These bytes have left the queue. -/
structure Sends (s s' : SerialPort ι) (bytes : List UInt8) : Prop where
  mode : s'.mode = s.mode
  buffer : s'.buffer = s.buffer
  ier : s'.ier = s.ier
  lists : s'.sent = s.sent ∧ s'.typed = s.typed ∧ s'.fetched = s.fetched
  wire : s'.wire = s.wire ++ bytes

theorem Sends.trans {s'' : SerialPort ι} {bytes bytes' : List UInt8} (h : Sends s s' bytes)
    (h' : Sends s' s'' bytes') : Sends s s'' (bytes ++ bytes') where
  mode := h'.mode.trans h.mode
  buffer := h'.buffer.trans h.buffer
  ier := h'.ier.trans h.ier
  lists := ⟨h'.lists.1.trans h.lists.1, h'.lists.2.1.trans h.lists.2.1, h'.lists.2.2.trans h.lists.2.2⟩
  wire := by rw [h'.wire, h.wire, List.append_assoc]

/-- A key has got into the buffer, and the register knows. -/
structure Takes (s s' : SerialPort ι) (bytes : List UInt8) : Prop where
  mode : s'.mode = s.mode
  txq : s'.txq = s.txq
  lists : s'.wire = s.wire ∧ s'.sent = s.sent ∧ s'.fetched = s.fetched
  typed : s'.typed = s.typed ++ bytes
  enabled : (s.mode = .queue → s.Enabled) → s'.mode = .queue → s'.Enabled

theorem Takes.trans {s'' : SerialPort ι} {bytes bytes' : List UInt8} (h : Takes s s' bytes)
    (h' : Takes s' s'' bytes') : Takes s s'' (bytes ++ bytes') where
  mode := h'.mode.trans h.mode
  txq := h'.txq.trans h.txq
  lists := ⟨h'.lists.1.trans h.lists.1, h'.lists.2.1.trans h.lists.2.1, h'.lists.2.2.trans h.lists.2.2⟩
  typed := by rw [h'.typed, h.typed, List.append_assoc]
  enabled enabled := h'.enabled fun queue => h.enabled enabled queue

theorem enabled_writeIer (s : SerialPort ι) : s.writeIer.Enabled :=
  ⟨fun some_byte => congrArg Bool.not some_byte, rfl⟩

theorem enabled_serialNotify (queue : s.mode = .queue) : s.serialNotify.Enabled := by
  rw [serialNotify, if_pos queue]
  exact enabled_writeIer s

theorem serialNotify_eq (s : SerialPort ι) : ∃ ier, s.serialNotify = { s with ier } := by
  rw [serialNotify]
  split
  next => exact ⟨_, rfl⟩
  next => exact ⟨s.ier, rfl⟩

variable [DecidableEq ι]

structure Inv (s : SerialPort ι) : Prop where
  txq : s.txq.Inv
  buffer : s.buffer.Inv
  flow : ∃ waiting keys, s.Flow waiting keys
  enabled : s.mode = .queue → s.Enabled
  early : s.mode ≠ .queue → s.txq.queue.empty = true

theorem sendOne_spec (inv : s.txq.Inv) (holds : s.txq.queue.Holds (byte :: waiting)) :
    ∃ s', s.sendOne = .ok s' ∧ Sends s s' [byte] ∧ s'.txq.Inv ∧ s'.txq.queue.Holds waiting := by
  have some_byte : s.txq.queue.lacks Job.getc.waitsFor = false := by
    apply Bool.eq_false_of_not_eq_true
    intro empty
    cases holds.empty_iff.mp empty
  obtain ⟨txq, ran, inv', moved⟩ := inv.handler some_byte
  obtain ⟨first, rest, same, returned, left⟩ := moved.getc holds
  cases same
  refine ⟨{ s with txq, wire := s.wire ++ [byte] }, ?_, ⟨rfl, rfl, rfl, ⟨rfl, rfl, rfl⟩, rfl⟩, inv', left⟩
  rw [sendOne, stepQueue_of_ok ran, ok_bind, returned]
  rfl

theorem sendLoop_spec (inv : s.txq.Inv) (holds : s.txq.queue.Holds waiting) (n : Nat) :
    ∃ s', sendLoop n s = .ok s' ∧ Sends s s' (waiting.take n) ∧ s'.txq.Inv ∧
      s'.txq.queue.Holds (waiting.drop n) := by
  induction n generalizing s waiting with
  | zero => exact ⟨s, rfl, ⟨rfl, rfl, rfl, ⟨rfl, rfl, rfl⟩, (List.append_nil _).symm⟩, inv, holds⟩
  | succ n ih =>
      rw [sendLoop]
      cases waiting with
      | nil =>
          rw [if_pos (holds.empty_iff.mpr rfl)]
          exact ⟨s, rfl, ⟨rfl, rfl, rfl, ⟨rfl, rfl, rfl⟩, (List.append_nil _).symm⟩, inv, holds⟩
      | cons byte waiting =>
          have more : ¬ s.txq.queue.empty = true := by
            intro empty
            cases holds.empty_iff.mp empty
          obtain ⟨s₁, one, sends, inv₁, left⟩ := sendOne_spec inv holds
          obtain ⟨s₂, ran, rest, inv₂, holds₂⟩ := ih inv₁ left
          rw [if_neg more, one]
          exact ⟨s₂, ran, sends.trans rest, inv₂, holds₂⟩

theorem inputPutc_spec (inv : s.buffer.Inv) (holds : s.buffer.queue.Holds keys)
    (room : s.buffer.queue.full = false) (key : UInt8) :
    ∃ s', s.inputPutc key = .ok s' ∧ Takes s s' [key] ∧ s'.buffer.Inv ∧
      s'.buffer.queue.Holds (keys ++ [key]) := by
  have lacks : s.buffer.queue.lacks (Job.putc key).waitsFor = false := room
  obtain ⟨buffer, ran, inv', moved⟩ := inv.handler lacks
  let s₁ : SerialPort ι := { s with buffer, typed := s.typed ++ [key] }
  obtain ⟨ier, same⟩ := serialNotify_eq s₁
  refine ⟨s₁.serialNotify, ?_, ⟨?_, ?_, ?_, ?_, fun _ queue => ?_⟩, ?_, ?_⟩
  · rw [inputPutc, stepQueue_of_ok ran, ok_bind]
    rfl
  · rw [same]
  · rw [same]
  · rw [same]
    exact ⟨rfl, rfl, rfl⟩
  · rw [same]
  · apply enabled_serialNotify
    rwa [same] at queue
  · rw [same]
    exact inv'
  · rw [same]
    exact moved.putc holds

theorem receiveLoop_spec (inv : s.buffer.Inv) (holds : s.buffer.queue.Holds keys) (received : List UInt8) :
    ∃ s' taken, receiveLoop received s = .ok s' ∧ taken <+: received ∧ Takes s s' taken ∧ s'.buffer.Inv ∧
      s'.buffer.queue.Holds (keys ++ taken) := by
  have stays : Takes s s [] := ⟨rfl, rfl, ⟨rfl, rfl, rfl⟩, (List.append_nil _).symm, id⟩
  induction received generalizing s keys with
  | nil => exact ⟨s, [], rfl, List.prefix_rfl, stays, inv, by rwa [List.append_nil]⟩
  | cons byte rest ih =>
      rw [receiveLoop]
      cases full : s.buffer.queue.full with
      | true => exact ⟨s, [], rfl, List.nil_prefix, stays, inv, by rwa [List.append_nil]⟩
      | false =>
          obtain ⟨s₁, one, takes, inv₁, holds₁⟩ := inputPutc_spec inv holds full byte
          obtain ⟨s₂, taken, ran, first, more, inv₂, holds₂⟩ := ih inv₁ holds₁
            ⟨rfl, rfl, ⟨rfl, rfl, rfl⟩, (List.append_nil _).symm, id⟩
          rw [if_neg Bool.false_ne_true, one]
          refine ⟨s₂, byte :: taken, ran, List.prefix_cons_inj byte |>.mpr first, takes.trans more, inv₂, ?_⟩
          rwa [List.append_assoc] at holds₂

namespace Inv

theorem sends (h : Inv s) {n : Nat} (flow : s.Flow waiting keys) (sends : Sends s s' (waiting.take n))
    (inv : s'.txq.Inv) (holds : s'.txq.queue.Holds (waiting.drop n)) : Inv s' where
  txq := inv
  buffer := sends.buffer ▸ h.buffer
  flow := by
    refine ⟨waiting.drop n, keys, holds, sends.buffer ▸ flow.buffer, ?_, ?_⟩
    · rw [sends.lists.1, sends.wire, List.append_assoc, List.take_append_drop, flow.sent]
    · rw [sends.lists.2.1, sends.lists.2.2, flow.typed]
  enabled queue := by
    have enabled := h.enabled (sends.mode ▸ queue)
    refine ⟨fun more => ?_, by rw [sends.ier, sends.buffer, enabled.recv]⟩
    rw [sends.ier]
    apply enabled.xmit
    apply Bool.eq_false_of_not_eq_true
    intro empty
    rw [flow.txq.empty_iff.mp empty, List.drop_nil] at holds
    rw [holds.empty_iff.mpr rfl] at more
    cases more
  early off := by
    have empty := flow.txq.empty_iff.mp (h.early (sends.mode ▸ off))
    rw [empty, List.drop_nil] at holds
    exact holds.empty_iff.mpr rfl

theorem takes (h : Inv s) (flow : s.Flow waiting keys) {taken : List UInt8} (takes : Takes s s' taken)
    (inv : s'.buffer.Inv) (holds : s'.buffer.queue.Holds (keys ++ taken)) : Inv s' where
  txq := takes.txq ▸ h.txq
  buffer := inv
  flow := by
    refine ⟨waiting, keys ++ taken, takes.txq ▸ flow.txq, holds, ?_, ?_⟩
    · rw [takes.lists.2.1, takes.lists.1, flow.sent]
    · rw [takes.typed, takes.lists.2.2, flow.typed, List.append_assoc]
  enabled queue := takes.enabled h.enabled queue
  early off := by
    rw [takes.txq]
    exact h.early (takes.mode ▸ off)

/-- A call of `intq_putc` for the port is complete, and the register is written. -/
theorem put (h : Inv s) (queue : s.mode = .queue) {txq : IntQWorld ι} {who : Option ι} (inv : txq.Inv)
    (moved : Moves s.txq txq who (.putc byte)) :
    Inv { s with txq, sent := s.sent ++ [byte] }.writeIer where
  txq := inv
  buffer := h.buffer
  flow := by
    obtain ⟨waiting, keys, flow⟩ := h.flow
    refine ⟨waiting ++ [byte], keys, moved.putc flow.txq, flow.buffer, ?_, flow.typed⟩
    show s.sent ++ [byte] = s.wire ++ (waiting ++ [byte])
    rw [flow.sent, List.append_assoc]
  enabled _ := enabled_writeIer _
  early off := absurd queue off

theorem blocks (h : Inv s) {txq : IntQWorld ι} (inv : txq.Inv) (same : SameRing s.txq.queue txq.queue) :
    Inv { s with txq } where
  txq := inv
  buffer := h.buffer
  flow := by
    obtain ⟨waiting, keys, flow⟩ := h.flow
    exact ⟨waiting, keys, flow.txq.congr same, flow.buffer, flow.sent, flow.typed⟩
  enabled queue := ⟨fun more => (h.enabled queue).xmit (same.empty ▸ more), (h.enabled queue).recv⟩
  early off := same.empty.trans (h.early off)

theorem initPoll (h : Inv s) (ran : s.initPoll = .ok s') : Inv s' ∧ s'.mode = .poll := by
  rw [SerialPort.initPoll] at ran
  split at ran
  next uninit =>
    cases ran
    have early := h.early (by rw [uninit]; decide)
    obtain ⟨waiting, keys, flow⟩ := h.flow
    exact ⟨⟨h.txq, h.buffer, ⟨waiting, keys, flow.txq, flow.buffer, flow.sent, flow.typed⟩,
      fun queue => (by cases queue), fun _ => early⟩, rfl⟩
  next => cases ran

theorem setUp (h : Inv s) (off : s.mode ≠ .queue) (ran : s.setUp = .ok s') : Inv s' ∧ s'.mode = .poll := by
  rw [SerialPort.setUp] at ran
  split at ran
  next => exact h.initPoll ran
  next set =>
    cases ran
    refine ⟨h, ?_⟩
    cases mode : s.mode with
    | uninit => exact absurd mode set
    | poll => rfl
    | queue => exact absurd mode off

theorem serialInitQueue (h : Inv s) (ran : s.serialInitQueue = .ok s') : Inv s' := by
  rw [SerialPort.serialInitQueue] at ran
  obtain ⟨s₁, set, ran⟩ := bind_eq_ok ran
  split at ran
  next poll =>
    cases ran
    have off : s.mode ≠ .queue := by
      intro queue
      rw [SerialPort.setUp, if_neg (by rw [queue]; decide)] at set
      cases set
      cases queue.symm.trans poll
    obtain ⟨inv, _⟩ := h.setUp off set
    obtain ⟨waiting, keys, flow⟩ := inv.flow
    exact ⟨inv.txq, inv.buffer, ⟨waiting, keys, flow.txq, flow.buffer, flow.sent, flow.typed⟩,
      fun _ => enabled_writeIer _, fun off => absurd rfl off⟩
  next => cases ran

theorem putcEarly (h : Inv s) (off : s.mode ≠ .queue) (ran : s.putcEarly byte = .ok s') : Inv s' := by
  rw [SerialPort.putcEarly] at ran
  obtain ⟨s₁, set, ran⟩ := bind_eq_ok ran
  cases ran
  obtain ⟨inv, poll⟩ := h.setUp off set
  have empty := inv.early (by rw [poll]; decide)
  obtain ⟨waiting, keys, flow⟩ := inv.flow
  refine ⟨inv.txq, inv.buffer, ⟨waiting, keys, flow.txq, flow.buffer, ?_, flow.typed⟩,
    fun queue => (by cases poll.symm.trans queue), fun _ => empty⟩
  have none := flow.txq.empty_iff.mp empty
  show s₁.sent ++ [byte] = s₁.wire ++ [byte] ++ waiting
  rw [flow.sent, none, List.append_nil, List.append_nil]

theorem makeRoom (h : Inv s) (ran : s.makeRoom = .ok s') : Inv s' ∧ s'.mode = s.mode ∧ s'.sent = s.sent := by
  rw [SerialPort.makeRoom] at ran
  split at ran
  next full =>
    obtain ⟨waiting, keys, flow⟩ := h.flow
    cases waiting with
    | nil => cases flow.txq.full_iff.mp full
    | cons first waiting =>
        obtain ⟨s₂, one, sends, inv, left⟩ := sendOne_spec h.txq flow.txq
        cases one.symm.trans ran
        exact ⟨h.sends (n := 1) flow sends inv left, sends.mode, sends.lists.1⟩
  next =>
    cases ran
    exact ⟨h, rfl, rfl⟩

theorem keyTyped (h : Inv s) {key : UInt8} (ran : s.keyTyped key = .ok s') : Inv s' := by
  rw [SerialPort.keyTyped] at ran
  cases full : s.buffer.queue.full with
  | true =>
      rw [if_pos full] at ran
      cases ran
      exact h
  | false =>
      rw [if_neg (by simp [full])] at ran
      obtain ⟨waiting, keys, flow⟩ := h.flow
      obtain ⟨s₁, one, takes, inv, holds⟩ := inputPutc_spec h.buffer flow.buffer full key
      cases one.symm.trans ran
      exact h.takes flow takes inv holds

section Threads
variable [Fintype ι] {t : ι}

theorem serialPutc (h : Inv s) (ran : s.serialPutc t byte = .ok s') : Inv s' := by
  rw [SerialPort.serialPutc] at ran
  split at ran
  next free =>
    split at ran
    next off => exact h.putcEarly off ran
    next queue =>
      have queue := not_not.mp queue
      obtain ⟨txq, step, ran⟩ := bind_eq_ok ran
      have step := stepQueue_eq_ok step
      have inv := h.txq.of_next step
      have moved := next_moves step
      obtain none | done := completes_of_calls free.1
      · rw [none] at moved
        rw [if_pos none] at ran
        cases ran
        exact h.blocks inv moved
      · rw [done] at moved
        rw [if_neg (by rw [done]; exact Option.some_ne_none _)] at ran
        cases ran
        exact h.put queue inv moved
  next => cases ran

theorem serialPutcOff (h : Inv s) (ran : s.serialPutcOff byte = .ok s') : Inv s' := by
  rw [SerialPort.serialPutcOff] at ran
  split at ran
  next off => exact h.putcEarly off ran
  next queue =>
    obtain ⟨s₁, room, ran⟩ := bind_eq_ok ran
    obtain ⟨txq, step, ran⟩ := bind_eq_ok ran
    cases ran
    have step := stepQueue_eq_ok step
    obtain ⟨inv, mode, _⟩ := h.makeRoom room
    exact inv.put (mode.trans (not_not.mp queue)) (inv.txq.of_next step) (next_moves step)

theorem inputGetc (h : Inv s) (ran : s.inputGetc t = .ok s') : Inv s' := by
  rw [SerialPort.inputGetc] at ran
  split at ran
  next free =>
    obtain ⟨buffer, step, ran⟩ := bind_eq_ok ran
    have step := stepQueue_eq_ok step
    have inv := h.buffer.of_next step
    have moved := next_moves step
    obtain ⟨waiting, keys, flow⟩ := h.flow
    obtain none | done := completes_of_calls free.1
    · rw [none] at moved
      rw [if_pos none] at ran
      cases ran
      refine ⟨h.txq, inv, ⟨waiting, keys, flow.txq, flow.buffer.congr moved, flow.sent, flow.typed⟩, fun queue => ?_,
        h.early⟩
      have enabled := h.enabled queue
      exact ⟨enabled.xmit, enabled.recv.trans (congrArg Bool.not (SameRing.full moved).symm)⟩
    · rw [done] at moved
      rw [if_neg (by rw [done]; exact Option.some_ne_none _)] at ran
      cases ran
      obtain ⟨key, rest, rfl, returned, left⟩ := moved.getc flow.buffer
      let s₁ : SerialPort ι := { s with buffer, fetched := s.fetched ++ (buffer.returned (some t)).toList }
      obtain ⟨ier, same⟩ := serialNotify_eq s₁
      show Inv s₁.serialNotify
      refine ⟨?_, ?_, ⟨waiting, rest, ?_, ?_, ?_, ?_⟩, fun queue => ?_, fun off => ?_⟩
      · rw [same]
        exact h.txq
      · rw [same]
        exact inv
      · rw [same]
        exact flow.txq
      · rw [same]
        exact left
      · rw [same]
        exact flow.sent
      · rw [same]
        show s.typed = s.fetched ++ (buffer.returned (some t)).toList ++ rest
        rw [returned, flow.typed, List.append_assoc]
        rfl
      · rw [same] at queue
        exact enabled_serialNotify queue
      · rw [same] at off ⊢
        exact h.early off
  next => cases ran

end Threads

theorem serialFlush (h : Inv s) (ran : s.serialFlush = .ok s') : Inv s' := by
  obtain ⟨waiting, keys, flow⟩ := h.flow
  obtain ⟨s₁, loop, sends, inv, holds⟩ := sendLoop_spec h.txq flow.txq intqBufsize
  cases loop.symm.trans ran
  exact h.sends flow sends inv holds

/-- The handler sends as many bytes as the port is ready for, and takes as many as there is room
for. -/
theorem serialInterrupt (h : Inv s) (flow : s.Flow waiting keys) (received : List UInt8) (ready : Nat) :
    ∃ s', s.serialInterrupt received ready = .ok s' ∧ Inv s' ∧ s'.mode = s.mode ∧ s'.sent = s.sent ∧
      s'.wire = s.wire ++ waiting.take ready := by
  obtain ⟨s₁, taken, loop, _, takes, inv₁, holds₁⟩ := receiveLoop_spec h.buffer flow.buffer received
  have h₁ := h.takes flow takes inv₁ holds₁
  have flow₁ : s₁.Flow waiting (keys ++ taken) := by
    refine ⟨takes.txq ▸ flow.txq, holds₁, ?_, ?_⟩
    · rw [takes.lists.2.1, takes.lists.1, flow.sent]
    · rw [takes.typed, takes.lists.2.2, flow.typed, List.append_assoc]
  obtain ⟨s₂, loop₂, sends, inv₂, holds₂⟩ := sendLoop_spec h₁.txq flow₁.txq ready
  have h₂ := h₁.sends flow₁ sends inv₂ holds₂
  obtain ⟨waiting₂, keys₂, flow₂⟩ := h₂.flow
  refine ⟨s₂.writeIer, ?_, ⟨h₂.txq, h₂.buffer, ⟨waiting₂, keys₂, flow₂.txq, flow₂.buffer, flow₂.sent, flow₂.typed⟩,
    fun _ => enabled_writeIer s₂, h₂.early⟩, sends.mode.trans takes.mode, sends.lists.1.trans takes.lists.2.1, ?_⟩
  · rw [SerialPort.serialInterrupt, loop, ok_bind, loop₂]
    rfl
  · show s₂.wire = _
    rw [sends.wire, takes.lists.1]

theorem step [Fintype ι] (h : Inv s) {a : SerialLabel ι} (ran : s.next a = .ok s') : Inv s' := by
  cases a with
  | initQueue => exact h.serialInitQueue ran
  | putc t byte => exact h.serialPutc ran
  | putcOff byte => exact h.serialPutcOff ran
  | flush => exact h.serialFlush ran
  | getc t => exact h.inputGetc ran
  | key byte => exact h.keyTyped ran
  | interrupt received ready =>
      rw [SerialPort.next] at ran
      split at ran
      next =>
        obtain ⟨waiting, keys, flow⟩ := h.flow
        obtain ⟨s₁, done, inv, _⟩ := h.serialInterrupt flow received ready
        cases done.symm.trans ran
        exact inv
      next => cases ran

end Inv

theorem inv_start (start : s.Start) : Inv s := by
  have empty : s.txq.queue.Holds [] := by
    rw [IntQ.Holds, start.txq.head, start.txq.tail]
    exact .nil (by decide)
  obtain ⟨wire, sent, typed, fetched⟩ := start.lists
  refine ⟨IntQWorld.inv_start start.txq, IntQWorld.inv_start start.buffer, ⟨[], [], empty, ?_, ?_, ?_⟩, ?_,
    fun _ => empty.empty_iff.mpr rfl⟩
  · rw [IntQ.Holds, start.buffer.head, start.buffer.tail]
    exact .nil (by decide)
  · rw [wire, sent]
    rfl
  · rw [typed, fetched]
    rfl
  · intro queue
    cases start.mode.symm.trans queue

theorem inv_of_reachable [Fintype ι] (reach : (serialPort ι).Reachable s) : Inv s :=
  reach.invariant (I := Inv) (fun _ start => inv_start start) fun _ _ _ h step => h.step (toOption_some.mp step)

/-- What the port owes its callers. -/
structure Law (s : SerialPort ι) : Prop where
  /-- bytes are sent in the order of their calls, each once; what is not yet sent waits in the queue -/
  sent : ∃ waiting, s.txq.queue.Holds waiting ∧ s.sent = s.wire ++ waiting
  /-- keys are fetched in the order in which they came -/
  typed : ∃ keys, s.buffer.queue.Holds keys ∧ s.typed = s.fetched ++ keys
  /-- the port interrupts while there is something to send -/
  xmit : s.mode = .queue → s.txq.queue.empty = false → s.ier.xmit = true
  /-- it interrupts for a byte that it has received just if there is room for it -/
  recv : s.mode = .queue → s.ier.recv = !s.buffer.queue.full
  early : s.mode ≠ .queue → s.sent = s.wire

theorem Inv.law (h : Inv s) : Law s := by
  obtain ⟨waiting, keys, flow⟩ := h.flow
  refine ⟨⟨waiting, flow.txq, flow.sent⟩, ⟨keys, flow.buffer, flow.typed⟩, fun queue => (h.enabled queue).xmit,
    fun queue => (h.enabled queue).recv, fun off => ?_⟩
  rw [flow.sent, flow.txq.empty_iff.mp (h.early off), List.append_nil]

/-- The runs from a state on in which nothing but interrupts of the port happens, each with at least
one byte that it is ready to send. -/
def interrupts (s : SerialPort ι) : System (SerialPort ι) (SerialLabel ι) :=
  (System.ofNext (· = s) fun s a => (s.next a).toOption).under fun _ a =>
    ∃ received ready, a = .interrupt received (ready + 1)

theorem Inv.drains (h : Inv s) (queue : s.mode = .queue) :
    ∃ s', s.interrupts.Reachable s' ∧ s'.wire = s.sent := by
  obtain ⟨waiting, keys, flow⟩ := h.flow
  suffices whole : ∀ n (u : SerialPort ι) waiting keys, s.interrupts.Reachable u → Inv u → u.mode = .queue →
      u.sent = s.sent → u.Flow waiting keys → waiting.length = n →
      ∃ s', s.interrupts.Reachable s' ∧ s'.wire = s.sent from
    whole _ s waiting keys (.init rfl) h queue rfl flow rfl
  intro n
  induction n with
  | zero =>
      intro u waiting keys reach _ _ same flow none
      refine ⟨u, reach, ?_⟩
      rw [← same, flow.sent, List.length_eq_zero_iff.mp none, List.append_nil]
  | succ n ih =>
      intro u waiting keys reach inv queue same flow length
      cases waiting with
      | nil => cases length
      | cons byte rest =>
          have more : u.txq.queue.empty = false := by
            apply Bool.eq_false_of_not_eq_true
            intro empty
            cases flow.txq.empty_iff.mp empty
          obtain ⟨u', ran, inv', mode, sent, wire⟩ := inv.serialInterrupt flow [] 1
          have step : u.next (.interrupt [] 1) = .ok u' := by
            rw [SerialPort.next, if_pos ⟨queue, .inl ((inv.enabled queue).xmit more)⟩, ran]
          obtain ⟨waiting', keys', flow'⟩ := inv'.flow
          refine ih u' waiting' keys' (reach.step (a := .interrupt [] 1) ⟨toOption_some.mpr step, [], 0, rfl⟩) inv'
            (mode.trans queue) (sent.trans same) flow' ?_
          have left := flow'.sent
          rw [sent, flow.sent, wire, List.append_assoc, List.append_cancel_left_eq] at left
          have lengths := congrArg List.length left
          simp only [List.length_append, List.length_cons, List.length_take] at lengths length
          omega

/-- Whatever threads, handlers and calls with interrupts off do, bytes and keys stay in order, the
port's interrupts are enabled when they are needed, and they are enough to send all that was
given to the port. -/
theorem serialLaw_of_reachable [Fintype ι] (reach : (serialPort ι).Reachable s) :
    Law s ∧ (s.mode = .queue → ∃ s', s.interrupts.Reachable s' ∧ s'.wire = s.sent) := by
  have inv := inv_of_reachable reach
  exact ⟨inv.law, inv.drains⟩

/-- Bytes are put before the queue is set up, while it is, and with interrupts off. -/
theorem serialLaw_of_bothModes : ∃ s : SerialPort (Fin 2), (serialPort (Fin 2)).Reachable s ∧
    (s.sent = [65, 66, 67] ∧ s.wire = [65, 66] ∧ s.fetched = [120]) ∧ Law s ∧
    (s.mode = .queue → ∃ s', s.interrupts.Reachable s' ∧ s'.wire = s.sent) := by
  obtain ⟨s, reach, holds⟩ := System.exists_reachable (Start (ι := Fin 2)) (fun s a => (s.next a).toOption)
    (fun s => decide (s.sent = [65, 66, 67] ∧ s.wire = [65, 66] ∧ s.fetched = [120]))
    (s := ⟨.uninit, sampleIntQ, sampleIntQ, ⟨false, false⟩, [], [], [], []⟩)
    ⟨rfl, sampleIntQ_start, sampleIntQ_start, rfl, rfl, rfl, rfl⟩
    [.putc 0 65, .initQueue, .putc 1 66, .putcOff 67, .key 120, .interrupt [121] 1, .getc 0] (by decide)
  exact ⟨s, reach, of_decide_eq_true holds, serialLaw_of_reachable reach⟩

end SerialPort
end Invariant

end CS162.Synch
