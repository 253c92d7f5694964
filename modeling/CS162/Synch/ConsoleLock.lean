import Mathlib.Logic.Function.Basic
import CS162.Library.Outcome
import CS162.Library.Transition

/-!
The console (lib/kernel/console.c): the lock that keeps the output of one thread's `printf`,
`puts`, `putbuf` or `putchar` together on the serial port and on the display. A call may begin
inside another of the same thread, wherever that one is, and counts the depth instead of
taking the lock. An interrupt handler writes without it.

A step ends where a thread may be preempted: a character goes to the port first and to the
display in another step. `text` and `past` are history variables; `write_cnt` is left out.
-/

namespace CS162.Synch
open CS162.Library
universe x

/-- What a call has to write yet; `half` is the character that only the port has got. -/
structure ConsoleCall where
  half : Option UInt8
  rest : List UInt8

/-- What one of the devices was given, and by which thread. The turn of a thread lasts from its
taking the lock to its giving it back. `text` is what is to be written in this turn: where a call
begins inside another, its text comes in there. -/
structure Device (ι : Type x) where
  out : List (Option ι × UInt8)
  past : List (ι × List UInt8)
  text : List UInt8
  written : Nat

namespace Device
variable {ι : Type x} (d : Device ι)

def inserts (bytes : List UInt8) : Device ι :=
  { d with text := d.text.take d.written ++ bytes ++ d.text.drop d.written }

def put (t : ι) (c : UInt8) : Device ι := { d with out := d.out ++ [(some t, c)], written := d.written + 1 }

def putHandler (bytes : List UInt8) : Device ι := { d with out := d.out ++ bytes.map fun c => (none, c) }

def closes (t : ι) : Device ι := { d with past := d.past ++ [(t, d.text)], text := [], written := 0 }

end Device

/-- The statics of console.c; `calls` has the calls a thread is in, the innermost first. -/
structure Console (ι : Type x) where
  useLock : Bool
  holder : Option ι
  depth : Nat
  calls : ι → List ConsoleCall
  serial : Device ι
  vga : Device ι

/-- The step is not the next one, or the lock is not free, or an ASSERT fails. -/
inductive ConsoleFault where
  | disabled
  | busy
  | assertion
  deriving DecidableEq

inductive ConsoleLabel (ι : Type x) where
  | start (t : ι) (bytes : List UInt8)
  | serial (t : ι)
  | vga (t : ι)
  | finish (t : ι)
  | handler (bytes : List UInt8)
  | panic

namespace Console
variable {ι : Type x} [DecidableEq ι] (s : Console ι) (t : ι)

def acquireConsole : Except ConsoleFault (Console ι) :=
  if s.useLock then
    if s.holder = some t then .ok { s with depth := s.depth + 1 }
    else if s.holder = none then .ok { s with holder := some t }
    else .error .busy
  else .ok s

def releaseConsole : Except ConsoleFault (Console ι) :=
  if s.useLock then
    if 0 < s.depth then .ok { s with depth := s.depth - 1 }
    else if s.holder = some t then
      .ok { s with holder := none, serial := s.serial.closes t, vga := s.vga.closes t }
    else .error .assertion
  else .ok s

def consoleLockedByCurrentThread : Bool := !s.useLock || s.holder = some t

/-- A call with these characters begins. -/
def start (bytes : List UInt8) : Except ConsoleFault (Console ι) := do
  let s ← s.acquireConsole t
  return { s with
    calls := Function.update s.calls t (⟨none, bytes⟩ :: s.calls t)
    serial := s.serial.inserts bytes
    vga := s.vga.inserts bytes }

/-- `putchar_have_lock` to the end of `serial_putc`. -/
def putSerial : Except ConsoleFault (Console ι) :=
  match s.calls t with
  | ⟨none, c :: rest⟩ :: more =>
      if s.consoleLockedByCurrentThread t then
        .ok { s with
          calls := Function.update s.calls t (⟨some c, rest⟩ :: more)
          serial := s.serial.put t c }
      else .error .assertion
  | _ => .error .disabled

/-- The rest of `putchar_have_lock`. -/
def putVga : Except ConsoleFault (Console ι) :=
  match s.calls t with
  | ⟨some c, rest⟩ :: more => .ok { s with
      calls := Function.update s.calls t (⟨none, rest⟩ :: more)
      vga := s.vga.put t c }
  | _ => .error .disabled

/-- The call returns. -/
def finish : Except ConsoleFault (Console ι) :=
  match s.calls t with
  | ⟨none, []⟩ :: more => do
      let s ← s.releaseConsole t
      return { s with calls := Function.update s.calls t more }
  | _ => .error .disabled

def next : ConsoleLabel ι → Except ConsoleFault (Console ι)
  | .start t bytes => s.start t bytes
  | .serial t => s.putSerial t
  | .vga t => s.putVga t
  | .finish t => s.finish t
  | .handler bytes => .ok { s with serial := s.serial.putHandler bytes, vga := s.vga.putHandler bytes }
  | .panic => .ok { s with useLock := false }

end Console

/-- After `console_init`. -/
def Console.Start {ι : Type x} (s : Console ι) : Prop :=
  s = ⟨true, none, 0, fun _ => [], ⟨[], [], [], 0⟩, ⟨[], [], [], 0⟩⟩

def console (ι : Type x) [DecidableEq ι] : System (Console ι) (ConsoleLabel ι) :=
  .ofNext Console.Start fun s a => (s.next a).toOption

section Devices
variable {ι : Type x} {d : Device ι} {holder : Option ι} {left bytes : List UInt8} {t : ι} {c : UInt8}

/-- What threads have written. -/
def Device.byThreads (d : Device ι) : List (Option ι × UInt8) := d.out.filter fun w => w.1.isSome

/-- A thread's text, character by character. -/
def block (turn : ι × List UInt8) : List (Option ι × UInt8) := turn.2.map fun c => (some turn.1, c)

/-- The turns that are over have been written one after the other, and what there is of the present
one after them. -/
def Device.InTurns (d : Device ι) (holder : Option ι) : Prop :=
  d.byThreads = d.past.flatMap block ++ (d.text.take d.written).map fun c => (holder, c)

/-- Besides, this is left to be written in the present turn. -/
structure Device.Owes (d : Device ι) (holder : Option ι) (left : List UInt8) : Prop where
  turns : d.InTurns holder
  left : d.text.drop d.written = left
  within : d.written ≤ d.text.length

theorem Device.Owes.inserts (h : d.Owes holder left) (bytes : List UInt8) :
    (d.inserts bytes).Owes holder (bytes ++ left) := by
  have length : (d.text.take d.written).length = d.written := List.length_take_of_le h.within
  refine ⟨?_, ?_, ?_⟩
  · show d.byThreads = d.past.flatMap block ++
      ((d.text.take d.written ++ bytes ++ d.text.drop d.written).take d.written).map fun c => (holder, c)
    rw [List.append_assoc, List.take_left' length]
    exact h.turns
  · show (d.text.take d.written ++ bytes ++ d.text.drop d.written).drop d.written = bytes ++ left
    rw [List.append_assoc, List.drop_left' length, h.left]
  · show d.written ≤ (d.text.take d.written ++ bytes ++ d.text.drop d.written).length
    rw [List.append_assoc, List.length_append, length]
    exact Nat.le_add_right _ _

theorem Device.Owes.put (h : d.Owes (some t) (c :: left)) : (d.put t c).Owes (some t) left := by
  have here : d.written < d.text.length := by
    by_contra outside
    have none := h.left
    rw [List.drop_of_length_le (Nat.not_lt.mp outside)] at none
    cases none
  have next := h.left
  rw [List.drop_eq_getElem_cons here] at next
  obtain ⟨same, rest⟩ := List.cons.inj next
  refine ⟨?_, rest, here⟩
  show (d.out ++ [(some t, c)]).filter _ =
    d.past.flatMap block ++ (d.text.take (d.written + 1)).map fun c => (some t, c)
  have before := h.turns
  rw [Device.InTurns, Device.byThreads] at before
  rw [List.filter_append, before, List.take_succ_eq_append_getElem here, List.map_append, same, List.append_assoc]
  rfl

theorem Device.Owes.putHandler (h : d.Owes holder left) (bytes : List UInt8) :
    (d.putHandler bytes).Owes holder left := by
  refine ⟨?_, h.left, h.within⟩
  have none : (bytes.map fun c => ((none : Option ι), c)).filter (fun w => w.1.isSome) = [] := by
    rw [List.filter_eq_nil_iff]
    intro w inside
    obtain ⟨c, _, rfl⟩ := List.mem_map.mp inside
    exact Bool.false_ne_true
  show (d.out ++ bytes.map fun c => (_, c)).filter _ = _
  rw [List.filter_append, none, List.append_nil]
  exact h.turns

theorem Device.Owes.closes (h : d.Owes (some t) []) (holder : Option ι) : (d.closes t).Owes holder [] := by
  have whole : d.text.take d.written = d.text :=
    List.take_of_length_le (List.drop_eq_nil_iff.mp h.left)
  refine ⟨?_, rfl, Nat.le_refl 0⟩
  have before := h.turns
  rw [Device.InTurns, whole] at before
  show d.byThreads = (d.past ++ [(t, d.text)]).flatMap block ++ []
  rw [before, List.append_nil, List.flatMap_append, List.flatMap_singleton]
  rfl

theorem Device.Owes.opens (h : d.Owes holder []) (fresh : d.written = 0) (holder' : Option ι) : d.Owes holder' [] := by
  refine ⟨?_, h.left, h.within⟩
  have before := h.turns
  rw [Device.InTurns, fresh] at *
  exact before

end Devices

section Invariant
variable {ι : Type x} {s s' : Console ι} {t : ι} {bytes : List UInt8} {a : ConsoleLabel ι}

namespace Console

/-- The calls of the thread that has the lock. -/
def turn (s : Console ι) : List ConsoleCall := s.holder.elim [] s.calls

/-- What calls have to write to the port. -/
def owedSerial (calls : List ConsoleCall) : List UInt8 := calls.flatMap ConsoleCall.rest

/-- What they have to write to the display. -/
def owedVga (calls : List ConsoleCall) : List UInt8 := calls.flatMap fun c => c.half.toList ++ c.rest

/-- One thread at most is in a call, the one that has the lock. -/
structure Inv (s : Console ι) : Prop where
  others : ∀ t, s.holder ≠ some t → s.calls t = []
  depth : ∀ t, s.holder = some t → (s.calls t).length = s.depth + 1
  free : s.holder = none → s.depth = 0 ∧ s.serial.text = [] ∧ s.vga.text = []
  serial : s.serial.Owes s.holder (owedSerial s.turn)
  vga : s.vga.Owes s.holder (owedVga s.turn)

theorem turn_of (holds : s.holder = some t) : s.turn = s.calls t := by
  rw [turn, holds]
  rfl

theorem Inv.holds (h : Inv s) {call : ConsoleCall} {more : List ConsoleCall} (mine : s.calls t = call :: more) :
    s.holder = some t := by
  by_contra other
  cases (h.others t other).symm.trans mine

theorem Inv.alone (h : Inv s) (holds : s.holder = some t) (u : ι) (other : u ≠ t) : s.calls u = [] :=
  h.others u fun same => other (Option.some.inj (same.symm.trans holds))

variable [DecidableEq ι]

theorem inv_of_calls (others : ∀ u, u ≠ t → s.calls u = []) {calls : List ConsoleCall}
    (holds : s'.holder = some t) (now : s'.calls = Function.update s.calls t calls)
    (length : calls.length = s'.depth + 1)
    (owes : s'.serial.Owes (some t) (owedSerial calls)) (owes' : s'.vga.Owes (some t) (owedVga calls)) : Inv s' where
  others u other := by
    have apart : u ≠ t := fun same => other (by rw [same, holds])
    rw [now, Function.update_of_ne apart, others u apart]
  depth u mine := by
    cases holds.symm.trans mine
    rw [now, Function.update_self, length]
  free none := by cases holds.symm.trans none
  serial := by
    rw [turn_of holds, holds, now, Function.update_self]
    exact owes
  vga := by
    rw [turn_of holds, holds, now, Function.update_self]
    exact owes'

theorem Inv.start (h : Inv s) (lock : s.useLock = true) (ran : s.start t bytes = .ok s') :
    Inv s' ∧ s'.useLock = true := by
  obtain ⟨s₁, acquired, ran⟩ := bind_eq_ok ran
  cases ran
  rw [acquireConsole, if_pos lock] at acquired
  split at acquired
  next holds =>
    cases acquired
    have owes := h.serial
    have owes' := h.vga
    rw [holds, turn_of holds] at owes owes'
    refine ⟨inv_of_calls (h.alone holds) holds rfl ?_ (owes.inserts bytes) (owes'.inserts bytes), lock⟩
    exact congrArg (· + 1) (h.depth t holds)
  next =>
    split at acquired
    next none =>
      cases acquired
      obtain ⟨depth, text, text'⟩ := h.free none
      have idle : s.turn = [] := by
        rw [turn, none]
        rfl
      have owes := h.serial
      have owes' := h.vga
      rw [idle] at owes owes'
      have fresh : s.serial.written = 0 ∧ s.vga.written = 0 := by
        have within := owes.within
        have within' := owes'.within
        rw [text, List.length_nil] at within
        rw [text', List.length_nil] at within'
        omega
      have unheld (u : ι) : s.holder ≠ some u := by
        rw [none]
        exact (Option.some_ne_none u).symm
      have before : s.calls t = [] := h.others t (unheld t)
      refine ⟨inv_of_calls (fun u _ => h.others u (unheld u)) rfl rfl ?_ ?_ ?_, lock⟩
      · show (s.calls t).length + 1 = s.depth + 1
        rw [before, depth]
        rfl
      · rw [before]
        exact (owes.opens fresh.1 (some t)).inserts bytes
      · rw [before]
        exact (owes'.opens fresh.2 (some t)).inserts bytes
    next => cases acquired

theorem Inv.putSerial (h : Inv s) (ran : s.putSerial t = .ok s') : Inv s' ∧ s'.useLock = s.useLock := by
  rw [Console.putSerial] at ran
  split at ran
  next c rest more mine =>
    split at ran
    next =>
      cases ran
      have holds := h.holds mine
      have owes := h.serial
      have owes' := h.vga
      have length := h.depth t holds
      rw [holds, turn_of holds, mine] at owes owes'
      rw [mine] at length
      exact ⟨inv_of_calls (h.alone holds) holds rfl length owes.put owes', rfl⟩
    next => cases ran
  next => cases ran

theorem Inv.putVga (h : Inv s) (ran : s.putVga t = .ok s') : Inv s' ∧ s'.useLock = s.useLock := by
  rw [Console.putVga] at ran
  split at ran
  next c rest more mine =>
    cases ran
    have holds := h.holds mine
    have owes := h.serial
    have owes' := h.vga
    have length := h.depth t holds
    rw [holds, turn_of holds, mine] at owes owes'
    rw [mine] at length
    exact ⟨inv_of_calls (h.alone holds) holds rfl length owes owes'.put, rfl⟩
  next => cases ran

theorem Inv.finish (h : Inv s) (lock : s.useLock = true) (ran : s.finish t = .ok s') :
    Inv s' ∧ s'.useLock = true := by
  rw [Console.finish] at ran
  split at ran
  next more mine =>
    obtain ⟨s₁, released, ran⟩ := bind_eq_ok ran
    cases ran
    have holds := h.holds mine
    have owes := h.serial
    have owes' := h.vga
    have length := h.depth t holds
    rw [holds, turn_of holds, mine] at owes owes'
    rw [mine, List.length_cons] at length
    rw [releaseConsole, if_pos lock] at released
    split at released
    next deep =>
      cases released
      refine ⟨inv_of_calls (h.alone holds) holds rfl ?_ owes owes', lock⟩
      show more.length = s.depth - 1 + 1
      omega
    next outer =>
      cases released
      have last : more = [] := List.length_eq_zero_iff.mp (by omega)
      subst last
      refine ⟨⟨fun u _ => ?_, fun u mine => (by cases mine), fun _ => ⟨Nat.eq_zero_of_not_pos outer, rfl, rfl⟩,
        Device.Owes.closes owes _, Device.Owes.closes owes' _⟩, lock⟩
      show Function.update s.calls t [] u = []
      rw [Function.update_apply]
      split
      next => rfl
      next other => exact h.alone holds u other
  next => cases ran

theorem Inv.next (h : Inv s) (lock : s.useLock = true) (ran : s.next a = .ok s') (on : s'.useLock = true) : Inv s' := by
  cases a with
  | start t bytes => exact (h.start lock ran).1
  | serial t => exact (h.putSerial ran).1
  | vga t => exact (h.putVga ran).1
  | finish t => exact (h.finish lock ran).1
  | handler bytes =>
      cases ran
      exact ⟨h.others, h.depth, h.free, h.serial.putHandler bytes, h.vga.putHandler bytes⟩
  | panic =>
      cases ran
      cases on

theorem useLock_next (ran : s.next a = .ok s') (on : s'.useLock = true) : s.useLock = true := by
  cases a with
  | start t bytes =>
      obtain ⟨s₁, acquired, ran⟩ := bind_eq_ok ran
      cases ran
      rw [acquireConsole] at acquired
      split at acquired
      next lock => exact lock
      next =>
        cases acquired
        exact on
  | serial t =>
      simp only [Console.next, Console.putSerial] at ran
      split at ran
      next =>
        split at ran
        next =>
          cases ran
          exact on
        next => cases ran
      next => cases ran
  | vga t =>
      simp only [Console.next, Console.putVga] at ran
      split at ran
      next =>
        cases ran
        exact on
      next => cases ran
  | finish t =>
      simp only [Console.next, Console.finish] at ran
      split at ran
      next =>
        obtain ⟨s₁, released, ran⟩ := bind_eq_ok ran
        cases ran
        rw [releaseConsole] at released
        split at released
        next lock => exact lock
        next =>
          cases released
          exact on
      next => cases ran
  | handler bytes =>
      cases ran
      exact on
  | panic =>
      cases ran
      cases on

theorem inv_of_reachable (reach : (console ι).Reachable s) : s.useLock = true → Inv s := by
  refine reach.invariant (I := fun s => s.useLock = true → Inv s) ?_ ?_
  · rintro s rfl _
    exact ⟨fun _ _ => rfl, fun t none => (by cases none), fun _ => ⟨rfl, rfl, rfl⟩, ⟨rfl, rfl, Nat.le_refl 0⟩,
      ⟨rfl, rfl, Nat.le_refl 0⟩⟩
  · intro s a s' inv step on
    have ran := toOption_some.mp step
    have lock := useLock_next ran on
    exact (inv lock).next lock ran on

/-- No ASSERT of the console or of `lock_release` fails. -/
theorem no_assertion (inv : s.useLock = true → Inv s) (a : ConsoleLabel ι) : s.next a ≠ .error .assertion := by
  intro failed
  cases a with
  | start t bytes =>
      simp only [Console.next, Console.start, acquireConsole] at failed
      split at failed
      next =>
        split at failed
        next => cases failed
        next =>
          split at failed
          next => cases failed
          next => cases failed
      next => cases failed
  | serial t =>
      simp only [Console.next, Console.putSerial] at failed
      split at failed
      next c rest more mine =>
        split at failed
        next => cases failed
        next refused =>
          rw [consoleLockedByCurrentThread, Bool.or_eq_true, not_or, Bool.not_eq_true, Bool.not_eq_false',
            decide_eq_true_eq] at refused
          exact refused.2 ((inv refused.1).holds mine)
      next => cases failed
  | vga t =>
      simp only [Console.next, Console.putVga] at failed
      split at failed
      next => cases failed
      next => cases failed
  | finish t =>
      simp only [Console.next, Console.finish] at failed
      split at failed
      next more mine =>
        rw [releaseConsole] at failed
        split at failed
        next lock =>
          split at failed
          next => cases failed
          next =>
            rw [if_pos ((inv lock).holds mine)] at failed
            cases failed
        next => cases failed
      next => cases failed
  | handler bytes => cases failed
  | panic => cases failed

theorem Inv.goes_on (h : Inv s) (holds : s.holder = some t) :
    ∃ a s', (a = .serial t ∨ a = .vga t ∨ a = .finish t) ∧ s.next a = .ok s' := by
  have locked : s.consoleLockedByCurrentThread t = true := by
    rw [consoleLockedByCurrentThread, holds, decide_eq_true rfl, Bool.or_true]
  cases mine : s.calls t with
  | nil =>
      have length := h.depth t holds
      rw [mine] at length
      cases length
  | cons call more =>
      obtain ⟨half, rest⟩ := call
      cases half with
      | some c => exact ⟨.vga t, _, .inr (.inl rfl), by rw [Console.next, Console.putVga, mine]⟩
      | none =>
          cases rest with
          | cons c rest =>
              have puts : ∃ s₁, s.putSerial t = .ok s₁ := by
                rw [Console.putSerial, mine]
                exact ⟨_, if_pos locked⟩
              obtain ⟨s₁, puts⟩ := puts
              exact ⟨.serial t, s₁, .inl rfl, puts⟩
          | nil =>
              have released : ∃ s₁, s.releaseConsole t = .ok s₁ := by
                rw [releaseConsole]
                split
                next =>
                  split
                  next => exact ⟨_, rfl⟩
                  next => exact ⟨_, rfl⟩
                next => exact ⟨_, rfl⟩
              obtain ⟨s₁, released⟩ := released
              have ends : ∃ s₂, s.finish t = .ok s₂ := by
                rw [Console.finish, mine]
                exact ⟨_, by simp only [released]; rfl⟩
              obtain ⟨s₂, ends⟩ := ends
              exact ⟨.finish t, s₂, .inr (.inr rfl), ends⟩

/-- Whatever the order of steps, each device gets the turns one after the other, whatever handlers
write between, no ASSERT fails, and unless a panic has turned the lock off only the thread that
has it is in a call, and can go on. -/
theorem turns_of_reachable (reach : (console ι).Reachable s) :
    (∀ a, s.next a ≠ .error .assertion) ∧
    (s.useLock = true → s.serial.InTurns s.holder ∧ s.vga.InTurns s.holder ∧
      (s.holder = none → s.serial.text = [] ∧ s.vga.text = []) ∧
      ∀ t, (s.calls t ≠ [] ↔ s.holder = some t) ∧
        (s.holder = some t → ∃ a s', (a = .serial t ∨ a = .vga t ∨ a = .finish t) ∧ s.next a = .ok s')) := by
  have inv := inv_of_reachable reach
  refine ⟨no_assertion inv, fun lock => ?_⟩
  have h := inv lock
  refine ⟨h.serial.turns, h.vga.turns, fun none => (h.free none).2, fun t => ⟨⟨?_, ?_⟩, h.goes_on⟩⟩
  · intro mine
    obtain ⟨call, more, mine⟩ := List.exists_cons_of_ne_nil mine
    exact h.holds mine
  · intro holds none
    have length := h.depth t holds
    rw [none] at length
    cases length

/-- A call begins inside another, between the port and the display; a handler writes, and then
another thread. -/
theorem turns_of_nested : ∃ s : Console (Fin 2), (console (Fin 2)).Reachable s ∧
    (s.serial.past = [(0, [1, 5, 2])] ∧ s.vga.past = [(0, [5, 1, 2])] ∧ s.holder = some 1) ∧
    (∀ a, s.next a ≠ .error .assertion) ∧
    (s.useLock = true → s.serial.InTurns s.holder ∧ s.vga.InTurns s.holder ∧
      (s.holder = none → s.serial.text = [] ∧ s.vga.text = []) ∧
      ∀ t, (s.calls t ≠ [] ↔ s.holder = some t) ∧
        (s.holder = some t → ∃ a s', (a = .serial t ∨ a = .vga t ∨ a = .finish t) ∧ s.next a = .ok s')) := by
  obtain ⟨s, reach, holds⟩ := System.exists_reachable (Console.Start (ι := Fin 2)) (fun s a => (s.next a).toOption)
    (fun s => decide (s.serial.past = [(0, [1, 5, 2])] ∧ s.vga.past = [(0, [5, 1, 2])] ∧ s.holder = some 1)) rfl
    [.start 0 [1, 2], .serial 0, .start 0 [5], .serial 0, .handler [9], .vga 0, .finish 0, .vga 0, .serial 0, .vga 0,
      .finish 0, .start 1 [7], .serial 1] (by decide)
  exact ⟨s, reach, of_decide_eq_true holds, turns_of_reachable reach⟩

end Console
end Invariant
end CS162.Synch
