import CS162.Library.RingBuffer
import CS162.Synch.InterruptQueueLaw

/-!
The interrupt queue as a bounded FIFO. A run is recorded: each step in which a call of
`intq_getc` or `intq_putc` completes leaves an event with the byte it returned or was
given. Whatever the interleaving, the ring holds the bytes put and not yet got.
-/

namespace CS162.Synch
open CS162.Library
universe x
variable {ι : Type x}

/-- A completed call. -/
inductive IntQEvent where
  | put (byte : UInt8)
  | got (byte : Option UInt8)
  deriving DecidableEq

def IntQEvent.bytePut : IntQEvent → Option UInt8
  | .put byte => some byte
  | .got _ => none

def IntQEvent.byteGot : IntQEvent → Option (Option UInt8)
  | .put _ => none
  | .got byte => some byte

def bytesPut (log : List IntQEvent) : List UInt8 := log.filterMap IntQEvent.bytePut

def bytesGot (log : List IntQEvent) : List (Option UInt8) := log.filterMap IntQEvent.byteGot

theorem bytesPut_append (log more : List IntQEvent) : bytesPut (log ++ more) = bytesPut log ++ bytesPut more :=
  List.filterMap_append

theorem bytesGot_append (log more : List IntQEvent) : bytesGot (log ++ more) = bytesGot log ++ bytesGot more :=
  List.filterMap_append

section Ring
variable {q q' : IntQ ι} {contents : List UInt8} {job : Job}

def IntQ.Holds (q : IntQ ι) (contents : List UInt8) : Prop :=
  RingHolds intqBufsize q.buf q.head q.tail contents

/-- All but the waiting threads are the same. -/
structure SameRing (q q' : IntQ ι) : Prop where
  buf : q'.buf = q.buf
  head : q'.head = q.head
  tail : q'.tail = q.tail

theorem SameRing.refl : SameRing q q := ⟨rfl, rfl, rfl⟩

theorem sameRing_setWaiter (side : Side) (waiter : Option ι) : SameRing q (q.setWaiter side waiter) :=
  ⟨rfl, rfl, rfl⟩

theorem IntQ.Holds.congr (h : q.Holds contents) (same : SameRing q q') : q'.Holds contents := by
  rw [IntQ.Holds, same.buf, same.head, same.tail]
  exact h

theorem IntQ.Holds.empty_iff (h : q.Holds contents) : q.empty = true ↔ contents = [] :=
  decide_eq_true_iff.trans (RingHolds.empty_iff h)

theorem IntQ.Holds.full_iff (h : q.Holds contents) : q.full = true ↔ contents.length + 1 = intqBufsize :=
  decide_eq_true_iff.trans (RingHolds.full_iff h)

theorem IntQ.Holds.putc (h : q.Holds contents) (byte : UInt8) (room : q.full = false) :
    (q.move (.putc byte)).1.Holds (contents ++ [byte]) :=
  RingHolds.push h byte (of_decide_eq_false room)

theorem IntQ.Holds.getc (h : q.Holds contents) (some_byte : q.empty = false) :
    ∃ byte rest, contents = byte :: rest ∧ (q.move .getc).2 = some byte ∧ (q.move .getc).1.Holds rest := by
  cases contents with
  | nil => exact absurd (h.empty_iff.mpr rfl) (by simp [some_byte])
  | cons byte rest =>
      have taken := RingHolds.pop h
      exact ⟨byte, rest, rfl, congrArg some taken.1, taken.2⟩

end Ring

variable [DecidableEq ι]

namespace IntQWorld
variable (w : IntQWorld ι)

/-- Who completes which call with a step: nobody does while a thread still sleeps on the
lock, or while what the call waits for lacks. -/
def completes : IntQLabel ι → Option (Option ι × Job)
  | .thread t job =>
      match w.spot t with
      | .outside => if w.queue.lacks job.waitsFor then none else some (some t, job)
      | .lock _ => none
      | .wait job => if w.queue.lacks job.waitsFor then none else some (some t, job)
  | .handler job => some (none, job)

/-- The event of a call, from what it has returned. -/
def event (who : Option ι) : Job → IntQEvent
  | .getc => .got (w.returned who)
  | .putc byte => .put byte

/-- A step of a recorded run. -/
def record (s : IntQWorld ι × List IntQEvent) (a : IntQLabel ι) : Option (IntQWorld ι × List IntQEvent) :=
  (s.1.next a).toOption.map fun w =>
    (w, s.2 ++ ((s.1.completes a).map fun call => w.event call.1 call.2).toList)

end IntQWorld

def recordedIntq (ι : Type x) [DecidableEq ι] : System (IntQWorld ι × List IntQEvent) (IntQLabel ι) :=
  .ofNext (fun s => IntQWorld.Start s.1 ∧ s.2 = []) IntQWorld.record

/-- What the record of a run says about its queue. -/
structure FifoLaw (log : List IntQEvent) (q : IntQ ι) : Prop where
  /-- the bytes that were got are the first that were put, in their order -/
  order : bytesGot log = ((bytesPut log).take (bytesGot log).length).map some
  empty : q.empty = true ↔ (bytesPut log).length = (bytesGot log).length
  full : q.full = true ↔ (bytesPut log).length = (bytesGot log).length + (intqBufsize - 1)
  head : q.head < intqBufsize
  tail : q.tail < intqBufsize

section Steps
variable {w w' : IntQWorld ι} {t : ι} {job : Job} {who : Option ι} {side : Side}

/-- What a step that completes a call does to the ring. -/
structure Moves (w w' : IntQWorld ι) (who : Option ι) (job : Job) : Prop where
  has : w.queue.lacks job.waitsFor = false
  ring : SameRing (w.queue.move job).1 w'.queue
  returned : w'.returned who = (w.queue.move job).2

theorem signal_keeps (h : w.signal side = .ok w') :
    SameRing w.queue w'.queue ∧ w'.returned = w.returned := by
  rw [IntQWorld.signal] at h
  split at h
  · cases h
  · cases sleeper : w.queue.waiter side with
    | none =>
        rw [sleeper] at h
        cases h
        exact ⟨.refl, rfl⟩
    | some u =>
        rw [sleeper] at h
        simp only at h
        cases woken : w.kernel.threadUnblock u with
        | error stop =>
            rw [woken] at h
            cases h
        | ok kernel =>
            rw [woken] at h
            cases h
            exact ⟨sameRing_setWaiter side none, rfl⟩

theorem finish_moves (has : w.queue.lacks job.waitsFor = false) (h : w.finish who job = .ok w') :
    Moves w w' who job := by
  obtain ⟨ring, returned⟩ := signal_keeps h
  refine ⟨has, ring, ?_⟩
  rw [returned]
  exact Function.update_self ..

theorem wait_keeps (h : w.wait t job = .ok w') : SameRing w.queue w'.queue := by
  rw [IntQWorld.wait] at h
  split at h
  · cases h
    exact sameRing_setWaiter job.waitsFor (some t)
  · cases h

theorem locked_keeps {r : Except Stop (World Empty Unit ι)} (h : w.locked t r job = .ok w') :
    SameRing w.queue w'.queue := by
  cases r with
  | error stop => cases h
  | ok kernel =>
      simp only [IntQWorld.locked] at h
      split at h
      · cases h
        exact .refl
      · exact wait_keeps (w := { w with kernel }) h

theorem loop_moves (h : w.loop t job = .ok w') :
    if w.queue.lacks job.waitsFor then SameRing w.queue w'.queue else Moves w w' (some t) job := by
  rw [IntQWorld.loop] at h
  split at h
  next lacks =>
    rw [if_pos lacks]
    exact locked_keeps h
  next has =>
    rw [if_neg has]
    have moved : Moves (w.goto t .outside) w' (some t) job := finish_moves (Bool.eq_false_of_not_eq_true has) h
    exact ⟨moved.has, moved.ring, moved.returned⟩

/-- A step moves a byte if it completes a call, and otherwise leaves the ring alone. -/
theorem next_moves {a : IntQLabel ι} (h : w.next a = .ok w') :
    match w.completes a with
    | none => SameRing w.queue w'.queue
    | some (who, job) => Moves w w' who job := by
  cases a with
  | handler job =>
      simp only [IntQWorld.next] at h
      split at h
      · cases h
      next has => exact finish_moves (Bool.eq_false_of_not_eq_true has) h
  | thread t job =>
      simp only [IntQWorld.next] at h
      split at h
      · cases h
      simp only [IntQWorld.completes]
      cases here : w.spot t with
      | outside =>
          rw [here] at h
          have moved := loop_moves h
          split at moved
          next lacks => simpa only [lacks, if_true] using moved
          next has => simpa only [has, Bool.false_eq_true, if_false] using moved
      | lock job =>
          rw [here] at h
          exact locked_keeps h
      | wait job =>
          rw [here] at h
          simp only at h
          cases released : w.kernel.lockRelease t () with
          | error stop =>
              rw [released] at h
              cases h
          | ok kernel =>
              rw [released] at h
              have moved := loop_moves (w := { w with kernel }) h
              split at moved
              next lacks => simpa only [lacks, if_true] using moved
              next has =>
                simp only [has, Bool.false_eq_true, if_false]
                exact ⟨moved.has, moved.ring, moved.returned⟩

end Steps

section Law
variable {w : IntQWorld ι} {log : List IntQEvent}

/-- The ring holds what was put and not got. -/
def Recorded (s : IntQWorld ι × List IntQEvent) : Prop :=
  ∃ contents, s.1.queue.Holds contents ∧ (bytesPut s.2).map some = bytesGot s.2 ++ contents.map some

theorem recorded_step {s s' : IntQWorld ι × List IntQEvent} {a : IntQLabel ι} (h : Recorded s)
    (step : IntQWorld.record s a = some s') : Recorded s' := by
  obtain ⟨contents, holds, order⟩ := h
  obtain ⟨w', done, rfl⟩ := Option.map_eq_some_iff.mp step
  have moved := next_moves (toOption_some.mp done)
  cases completed : s.1.completes a with
  | none =>
      rw [completed] at moved
      refine ⟨contents, holds.congr moved, ?_⟩
      rwa [Option.map_none, Option.toList_none, List.append_nil]
  | some call =>
      obtain ⟨who, job⟩ := call
      rw [completed] at moved
      simp only [Option.map_some, Option.toList_some, Recorded, bytesPut_append, bytesGot_append]
      cases job with
      | putc byte =>
          refine ⟨contents ++ [byte], (holds.putc byte moved.has).congr moved.ring, ?_⟩
          rw [List.map_append, List.map_append, order, List.append_assoc, List.append_assoc]
          rfl
      | getc =>
          obtain ⟨byte, rest, rfl, returned, left⟩ := holds.getc moved.has
          refine ⟨rest, left.congr moved.ring, ?_⟩
          have event : w'.event who .getc = .got (some byte) := by
            rw [IntQWorld.event, moved.returned, returned]
          rw [event, List.map_append, order, List.append_assoc, List.append_assoc]
          exact congrArg (bytesGot s.2 ++ ·) (List.append_nil _)

theorem recorded_of_reachable {s : IntQWorld ι × List IntQEvent} (h : (recordedIntq ι).Reachable s) :
    Recorded s := by
  refine h.invariant (fun s start => ?_) fun s a s' inv step => recorded_step inv step
  refine ⟨[], ?_, ?_⟩
  · rw [IntQ.Holds, start.1.head, start.1.tail]
    exact .nil (by decide)
  · rw [start.2]
    rfl

theorem reachable_of_recorded {s : IntQWorld ι × List IntQEvent} (h : (recordedIntq ι).Reachable s) :
    (intq ι).Reachable s.1 := by
  induction h with
  | init start => exact .init start.1
  | @step s s' a _ step ih =>
      obtain ⟨w', done, rfl⟩ := Option.map_eq_some_iff.mp step
      exact ih.step (a := a) done

/-- However calls of threads and handlers interleave and block, the ones that complete
make a bounded FIFO. -/
theorem fifoLaw_of_reachable (h : (recordedIntq ι).Reachable (w, log)) : FifoLaw log w.queue := by
  obtain ⟨contents, holds, order⟩ := recorded_of_reachable h
  have lengths := congrArg List.length order
  simp only [List.length_map, List.length_append] at lengths
  refine ⟨?_, ?_, ?_, RingHolds.head_lt holds, holds.tail_lt⟩
  · rw [List.map_take, order, List.take_left]
  · rw [holds.empty_iff, ← List.length_eq_zero_iff]
    omega
  · rw [holds.full_iff, intqBufsize]
    omega

/-- Two bytes are put and one is got. -/
theorem fifoLaw_of_twoBytes : ∃ w : IntQWorld (Fin 2), FifoLaw [.put 7, .put 8, .got (some 7)] w.queue := by
  obtain ⟨⟨w, log⟩, reachable, holds⟩ := System.exists_reachable
    (fun s : IntQWorld (Fin 2) × List IntQEvent => IntQWorld.Start s.1 ∧ s.2 = []) IntQWorld.record
    (fun s => decide (s.2 = [.put 7, .put 8, .got (some 7)])) (s := (sampleIntQ, [])) ⟨sampleIntQ_start, rfl⟩
    [.thread 0 (.putc 7), .handler (.putc 8), .thread 1 .getc] (by decide)
  cases of_decide_eq_true holds
  exact ⟨w, fifoLaw_of_reachable reachable⟩

end Law
end CS162.Synch
