import CS162.Library.Outcome
import CS162.Pintos.Syscall

/-!
Which addresses a system call makes the kernel use. All are below `PHYS_BASE`, except
that `strnlen` reads one byte past its limit: a string that nothing ends before
`PHYS_BASE` makes the kernel read the byte there.
-/

namespace CS162.Pintos.HwMemory
open CS162.Library

def Below (k : Kernel) : Prop := ∀ addr ∈ k.accesses, addr < physBase

/-- A property of the kernel when an effect is over, whether it stopped or not. -/
abbrev Leaves (P : Kernel → Prop) : Effect Kernel → Prop := Ends (fun stop => P stop.2) P

/-- The process opens a string of mapped, nonzero bytes up to the end of user memory. -/
def ReadsAcross (c : Call) : Prop :=
  c.esp + 8 ≤ physBase ∧ (∀ i, i < 8 → c.user.readable (c.esp + i) = true) ∧ arg c 0 = sysOpen ∧
    arg c 1 < physBase ∧ ∀ addr, arg c 1 ≤ addr → addr < physBase →
      c.user.readable addr = true ∧ c.user.byte addr ≠ some 0

section
variable {k : Kernel} {addr left : Nat} {allowed : Nat → Bool}

theorem access_leaves (may : Bool) (base : Below k) (below : addr < physBase) :
    Leaves Below (access may addr k) := by
  have more : Below { k with accesses := addr :: k.accesses } := by
    intro other
    simp only [List.mem_cons]
    rintro (rfl | old)
    · exact below
    · exact base other old
  simp only [access, if_pos below]
  exact .ite (fun _ => .ok more) fun _ => .error more

theorem succ_addr (below : addr < physBase) : (addr + 1) % 2 ^ 32 = addr + 1 := by
  unfold physBase at below
  omega

theorem access_known (allowed : Nat → Bool) (base : Below k) (below : addr < physBase) :
    Ends (fun stop => Below stop.2) (fun k => Below k ∧ allowed addr = true)
      (access (allowed addr) addr k) := by
  have leaves := access_leaves (allowed addr) base below
  cases mapped : allowed addr with
  | false =>
      have stops : access false addr k = .error (.exited, { k with accesses := addr :: k.accesses }) := by
        simp [access, below]
      rw [mapped, stops] at leaves
      rw [stops]
      cases leaves with
      | error h => exact .error h
  | true =>
      rw [mapped] at leaves
      exact leaves.imp (fun _ h => h) fun _ h => ⟨h, rfl⟩

theorem touch_known (base : Below k) (below : addr + left ≤ physBase) :
    Ends (fun stop => Below stop.2) (fun k => Below k ∧ ∀ i, i < left → allowed (addr + i) = true)
      (touch allowed left addr k) := by
  induction left generalizing addr k with
  | zero => exact .ok ⟨base, fun i none => absurd none (Nat.not_lt_zero i)⟩
  | succ left ih =>
      have inside : addr < physBase := by omega
      rw [touch, succ_addr inside]
      refine (access_known allowed base inside).bind fun k₁ ⟨h, first⟩ => ?_
      refine (ih h (by omega)).imp (fun _ h => h) fun k₂ ⟨h₂, rest⟩ => ⟨h₂, fun i bound => ?_⟩
      cases i with
      | zero => exact first
      | succ i =>
          rw [Nat.add_comm i, ← Nat.add_assoc]
          exact rest i (by omega)

theorem touch_leaves (base : Below k) (below : addr + left ≤ physBase) :
    Leaves Below (touch allowed left addr k) :=
  (touch_known base below).imp (fun _ h => h) fun _ h => h.1

/-- The check passes exactly if the buffer starts and ends in user memory. -/
theorem checkUserBuffer_cases (buffer length : Nat) (k : Kernel) :
    (checkUserBuffer buffer length k = .error (.exited, k) ∧
      ¬ (buffer < physBase ∧ buffer + length ≤ physBase)) ∨
    (checkUserBuffer buffer length k = .ok k ∧ buffer < physBase ∧ buffer + length ≤ physBase) := by
  unfold checkUserBuffer toUInt32
  simp only
  split
  · next outside =>
      refine .inl ⟨rfl, ?_⟩
      unfold physBase at *
      omega
  · next inside =>
      refine .inr ⟨rfl, ?_⟩
      unfold physBase at *
      omega

theorem checkUserBuffer_leaves (buffer length : Nat) (base : Below k) :
    Ends (fun stop => Below stop.2) (fun k => Below k ∧ buffer + length ≤ physBase)
      (checkUserBuffer buffer length k) := by
  obtain ⟨refused, -⟩ | ⟨passed, -, inside⟩ := checkUserBuffer_cases buffer length k
  · rw [refused]
    exact .error base
  · rw [passed]
    exact .ok ⟨base, inside⟩

theorem arguments_known (c : Call) (addr count : Nat) (base : Below k) :
    Ends (fun stop => Below stop.2)
      (fun k => Below k ∧ addr + 4 * count ≤ physBase ∧
        ∀ i, i < 4 * count → c.user.readable (addr + i) = true)
      (arguments c addr count k) :=
  (checkUserBuffer_leaves addr (4 * count) base).bind fun _ h =>
    (touch_known h.1 h.2).imp (fun _ h => h) fun _ h' => ⟨h'.1, h.2, h'.2⟩

theorem arguments_leaves (c : Call) (addr count : Nat) (base : Below k) :
    Leaves Below (arguments c addr count k) :=
  (arguments_known c addr count base).imp (fun _ h => h) fun _ h => h.1

end

section Strings
variable {u : UserMemory} {k : Kernel} {string left length last : Nat}

/-- A string with its end in user memory. -/
structure Terminated (u : UserMemory) (string length : Nat) : Prop where
  inside : string + length < physBase
  zero : u.byte (string + length) = some 0

theorem strnlen_leaves (base : Below k) (limit : string + length + left = physBase)
    (ends : ∃ addr, string + length ≤ addr ∧ addr < physBase ∧
      (u.readable addr = true → u.byte addr = some 0)) :
    Ends (fun stop => Below stop.2)
      (fun r => Below r.2 ∧ r.1 < length + left ∧ Terminated u string r.1)
      (strnlen u string left length k) := by
  induction left generalizing length k with
  | zero =>
      obtain ⟨addr, lower, upper, -⟩ := ends
      omega
  | succ left ih =>
      have inside : string + length < physBase := by omega
      have place : (string + length) % 2 ^ 32 = string + length := by
        unfold physBase at inside
        omega
      rw [strnlen, place]
      refine (access_known u.readable base inside).bind fun k₁ ⟨below, mapped⟩ => ?_
      have short : length < length + (left + 1) := by omega
      refine .ite (fun zero => .ok ⟨below, short, inside, zero⟩) fun more => ?_
      obtain ⟨addr, lower, upper, stop⟩ := ends
      have differ : addr ≠ string + length := by
        rintro rfl
        exact more (stop mapped)
      have limit' : string + (length + 1) + left = physBase := by omega
      have rest := ih below limit' ⟨addr, by omega, upper, stop⟩
      rwa [Nat.add_assoc, Nat.add_comm 1] at rest

theorem strcmp_leaves {name : List UInt8} (base : Below k) (zero : u.byte last = some 0)
    (inside : last < physBase) (before : string ≤ last) :
    Ends (fun stop => Below stop.2) (fun r => Below r.2) (strcmp u string name k) := by
  induction name generalizing string k with
  | nil =>
      have user : string < physBase := by omega
      rw [strcmp]
      exact (access_leaves _ base user).bind fun k₁ h => .ok h
  | cons b name ih =>
      have user : string < physBase := by omega
      rw [strcmp, succ_addr user]
      refine (access_leaves _ base user).bind fun k₁ h => .ite (fun more => ?_) fun _ => .ok h
      have later : string ≠ last := by
        rintro rfl
        exact more.1 zero
      exact ih h (by omega)

theorem lookup_leaves {names : List (List UInt8)} (base : Below k)
    (ends : Terminated u string length) : Leaves Below (lookup u string names k) := by
  induction names generalizing k with
  | nil => exact .ok base
  | cons name names ih =>
      rw [lookup]
      refine (strcmp_leaves base ends.zero ends.inside (Nat.le_add_right ..)).bind fun r h => ?_
      exact .ite (fun _ => .ok h) fun _ => ih h

theorem checkUserString_leaves (base : Below k)
    (ends : string < physBase → ∃ addr, string ≤ addr ∧ addr < physBase ∧
      (u.readable addr = true → u.byte addr = some 0)) :
    Ends (fun stop => Below stop.2) (fun k => Below k ∧ ∃ length, Terminated u string length)
      (checkUserString u string k) := by
  unfold checkUserString
  refine .ite (fun _ => .error base) fun user => ?_
  have user : string < physBase := not_not.mp user
  have delta : string + 0 + toUInt32 (physBase - string) = physBase := by
    unfold toUInt32 physBase at *
    omega
  refine (strnlen_leaves base delta (ends user)).bind fun r ⟨h, short, found⟩ => ?_
  exact .ite (fun _ => .error h) fun _ => .ok ⟨h, r.1, found⟩

end Strings

section Files
variable {u : UserMemory} {k : Kernel} {device buffer size : Nat} {c : Chunk}

theorem holding_leaves (lock : Lock) {body : Kernel → Effect Kernel}
    (step : ∀ k, Below k → Leaves Below (body k)) (base : Below k) :
    Leaves Below (holding lock body k) :=
  (step { k with locks := lock :: k.locks } base).bind fun _ h => .ok h

theorem ideTransfer_leaves (base : Below k) : Leaves Below (ideTransfer k) :=
  holding_leaves _ (fun _ h => .ok h) base

theorem chunkAddr_eq (inside : buffer + size ≤ physBase) (chunk : c.done + c.size ≤ size)
    (nonempty : 0 < c.size) : (buffer + c.done) % 2 ^ 32 = buffer + c.done := by
  unfold physBase at inside
  omega

theorem readUserChunk_leaves (inside : buffer + size ≤ physBase) (nonempty : 0 < c.size)
    (chunk : c.done + c.size ≤ size) (base : Below k) :
    Leaves Below (readUserChunk u device buffer c k) := by
  have bytes (k : Kernel) (h : Below k) :
      Leaves Below (touch u.writable c.size (buffer + c.done) k) := touch_leaves h (by omega)
  unfold readUserChunk
  simp only [chunkAddr_eq inside chunk nonempty]
  refine .ite (fun _ => .error base) fun _ => .ite (fun _ => holding_leaves _ bytes base) fun _ => ?_
  exact (ideTransfer_leaves base).bind bytes

theorem writeUserChunk_leaves (inside : buffer + size ≤ physBase) (nonempty : 0 < c.size)
    (chunk : c.done + c.size ≤ size) (base : Below k) :
    Leaves Below (writeUserChunk u device buffer c k) := by
  have bytes (k : Kernel) (h : Below k) :
      Leaves Below (touch u.readable c.size (buffer + c.done) k) := touch_leaves h (by omega)
  unfold writeUserChunk
  simp only [chunkAddr_eq inside chunk nonempty]
  refine .ite (fun _ => .error base) fun _ => .ite (fun _ => holding_leaves _ bytes base) fun _ => ?_
  have bounce : Leaves Below (fillBounce c k) :=
    .ite (fun _ => ideTransfer_leaves base) fun _ => .ok base
  exact bounce.bind fun k₁ h₁ => (bytes k₁ h₁).bind fun k₂ h₂ => ideTransfer_leaves h₂

/-- A property that every chunk keeps, whether it stops or not, is kept by the loop. -/
theorem transfer_leaves (P : Kernel → Prop) {data : InodeDisk} {body : Chunk → Kernel → Effect Kernel}
    {alloc bounce : Bool} {rounds left offset done : Nat}
    (step : ∀ c k, 0 < c.size → c.done + c.size ≤ size → P k → Leaves P (body c k))
    (bound : done + left ≤ size) (base : P k) :
    Ends (fun stop => P stop.2) (fun r => P r.2.2)
      (transfer data body alloc rounds left offset done bounce k) := by
  induction rounds generalizing left offset done bounce k with
  | zero => exact .ok base
  | succ rounds ih =>
      rw [transfer]
      refine .ite (fun more => ?_) fun _ => .ok base
      obtain ⟨-, sizes⟩ := chunkSize_spec data.length left offset more
      refine .ite (fun _ => .ok base) fun chunk => .ite (fun _ => .ok base) fun _ => ?_
      have least := (sizes (by omega)).1
      have ran := step ⟨byteToSector data offset, offset % sectorSize,
        (chunkSize data.length left offset).toNat, done⟩ k (by simp only; omega)
        (by simp only; omega) base
      split
      · next stop stopped =>
          rw [stopped] at ran
          cases ran with
          | error h => exact .error h
      · next k₁ went =>
          rw [went] at ran
          cases ran with
          | ok h => exact ih (by simp only; omega) h

theorem fileTransfer_leaves (P : Kernel → Prop) {chunk : Chunk → Kernel → Effect Kernel}
    {file : OpenFile} {alloc : Bool}
    (step : ∀ c k, 0 < c.size → c.done + c.size ≤ size → P k → Leaves P (chunk c k)) (base : P k) :
    Leaves P (fileTransfer chunk file alloc size k) := by
  have count_le : 0 + (toInt32 size).toNat ≤ size := by
    unfold toInt32
    omega
  unfold fileTransfer
  generalize (toInt32 size).toNat = count at *
  exact (transfer_leaves P step count_le base).bind fun _ h => .ok h

end Files

section Handlers
variable {c : Call} {k : Kernel} {fd buffer size : Nat}

theorem syscallWrite_leaves (inside : buffer + size ≤ physBase) (base : Below k) :
    Leaves Below (syscallWrite c fd buffer size k) := by
  unfold syscallWrite
  refine .ite (fun _ => holding_leaves _ (fun k h => touch_leaves h inside) base) fun _ => ?_
  split
  · exact .ok base
  · refine .ite (fun _ => .ok base) fun _ => .ite (fun _ => .ok base) fun _ => ?_
    refine fileTransfer_leaves Below ?_ base
    intro chunk k some bound h
    exact writeUserChunk_leaves inside some bound h

theorem syscallRead_leaves (inside : buffer + size ≤ physBase) (base : Below k) :
    Leaves Below (syscallRead c fd buffer size k) := by
  unfold syscallRead
  split
  · exact .ok base
  · refine .ite (fun _ => .ok base) fun _ => ?_
    refine fileTransfer_leaves Below ?_ base
    intro chunk k some bound h
    exact readUserChunk_leaves inside some bound h

theorem bufferCall_leaves {handler : Nat → Nat → Nat → Kernel → Effect Kernel}
    (step : ∀ fd buffer size k, buffer + size ≤ physBase → Below k →
      Leaves Below (handler fd buffer size k)) (base : Below k) :
    Leaves Below (bufferCall c handler k) := by
  unfold bufferCall
  refine (arguments_leaves c _ 3 base).bind fun k₁ h₁ => ?_
  exact (checkUserBuffer_leaves _ _ h₁).bind fun k₂ h₂ => step _ _ _ k₂ h₂.2 h₂.1

/-- Everything but a string that runs up to `PHYS_BASE` is below. -/
theorem run_leaves (ends : ¬ ReadsAcross c) : Leaves Below c.run := by
  have start : Below ⟨[], []⟩ := by
    intro addr none
    cases none
  unfold Call.run syscallHandler
  refine (arguments_known c c.esp 1 start).bind fun k₁ ⟨h₁, first, words⟩ => ?_
  refine .ite (fun _ => (arguments_leaves c _ 1 h₁).bind fun k₂ h₂ => .error h₂) fun _ => ?_
  refine .ite (fun opens => ?_) fun _ => ?_
  · refine (arguments_known c _ 1 h₁).bind fun k₂ ⟨h₂, second, words'⟩ => ?_
    refine (checkUserString_leaves h₂ fun user => ?_).bind fun k₃ ⟨h₃, length, ends⟩ => ?_
    · by_contra across
      have next : (c.esp + 4) % 2 ^ 32 = c.esp + 4 := by
        unfold physBase at first
        omega
      rw [next] at second words'
      refine ends ⟨by omega, fun i bound => ?_, opens, user, fun addr lower upper => ?_⟩
      · by_cases low : i < 4
        · exact words i (by omega)
        · have high := words' (i - 4) (by omega)
          rwa [Nat.add_assoc, Nat.add_sub_cancel' (by omega)] at high
      · by_contra found
        exact across ⟨addr, lower, upper, fun mapped => not_not.mp (not_and.mp found mapped)⟩
    · unfold syscallOpen
      exact .ite (fun _ => .ok h₃) fun _ => lookup_leaves h₃ ends
  · refine .ite (fun _ => bufferCall_leaves (fun _ _ _ _ inside h => syscallWrite_leaves inside h) h₁)
      fun _ => ?_
    refine .ite (fun _ => bufferCall_leaves (fun _ _ _ _ inside h => syscallRead_leaves inside h) h₁)
      fun _ => ?_
    exact .ite (fun _ => arguments_leaves c _ 1 h₁) fun _ => .ok h₁

end Handlers

section Across
variable {c : Call} {u : UserMemory} {k : Kernel} {addr left length string : Nat}
variable {allowed : Nat → Bool}

def Crossed (k : Kernel) : Prop := physBase ∈ k.accesses

theorem touch_ok (below : addr + left ≤ physBase) (all : ∀ i, i < left → allowed (addr + i) = true) :
    ∃ k', touch allowed left addr k = .ok k' := by
  induction left generalizing addr k with
  | zero => exact ⟨k, rfl⟩
  | succ left ih =>
      have first : access (allowed addr) addr k = .ok { k with accesses := addr :: k.accesses } := by
        have here := all 0 (Nat.succ_pos left)
        rw [Nat.add_zero] at here
        rw [here]
        rfl
      obtain ⟨k', rest⟩ := ih (k := { k with accesses := addr :: k.accesses })
        (by omega : addr + 1 + left ≤ physBase) fun i bound => by
          rw [Nat.add_assoc, Nat.add_comm 1]
          exact all (i + 1) (by omega)
      refine ⟨k', ?_⟩
      rw [touch, succ_addr (by omega), first]
      exact rest

theorem arguments_ok (below : addr + 4 ≤ physBase)
    (all : ∀ i, i < 4 → c.user.readable (addr + i) = true) :
    ∃ k', arguments c addr 1 k = .ok k' := by
  unfold arguments
  obtain ⟨-, outside⟩ | ⟨passed, -⟩ := checkUserBuffer_cases addr (4 * 1) k
  · exact absurd ⟨by omega, below⟩ outside
  · rw [passed]
    exact touch_ok below all

/-- `strnlen` reads the byte at its limit before it looks at the limit. -/
theorem strnlen_crosses (limit : string + length + left = physBase)
    (all : ∀ addr, string + length ≤ addr → addr < physBase →
      u.readable addr = true ∧ u.byte addr ≠ some 0) :
    Ends (fun stop => Crossed stop.2) (fun r => Crossed r.2 ∧ r.1 = length + left)
      (strnlen u string left length k) := by
  have place : (string + length) % 2 ^ 32 = string + length := by
    unfold physBase at limit
    omega
  induction left generalizing length k with
  | zero =>
      rw [strnlen, place]
      have used : Ends (fun stop => Crossed stop.2) Crossed
          (access (u.readable (string + length)) (string + length) k) := by
        have crossed : Crossed { k with accesses := (string + length) :: k.accesses } := by
          rw [Crossed, ← limit]
          exact List.mem_cons_self
        unfold access
        exact .ite (fun _ => .ok crossed) fun _ => .ite (fun _ => .error crossed) fun _ => .error crossed
      exact used.bind fun k₁ h => .ite (fun _ => .ok ⟨h, rfl⟩) fun _ => .ok ⟨h, rfl⟩
  | succ left ih =>
      obtain ⟨mapped, more⟩ := all (string + length) le_rfl (by omega)
      have next : (string + (length + 1)) % 2 ^ 32 = string + (length + 1) := by
        unfold physBase at limit
        omega
      have rest := ih (k := { k with accesses := (string + length) :: k.accesses }) (by omega)
        (fun addr lower upper => all addr (by omega) upper) next
      have read : access true (string + length) k =
        .ok { k with accesses := (string + length) :: k.accesses } := rfl
      rw [strnlen, place, mapped, read]
      rw [Nat.add_assoc, Nat.add_comm 1] at rest
      change Ends _ _ (if u.byte (string + length) = some 0 then _ else _)
      rw [if_neg more]
      exact rest

theorem run_crosses (across : ReadsAcross c) : Leaves Crossed c.run := by
  obtain ⟨inside, mapped, opens, user, all⟩ := across
  have next : (c.esp + 4) % 2 ^ 32 = c.esp + 4 := by
    unfold physBase at inside
    omega
  obtain ⟨k₁, number⟩ := arguments_ok (k := ⟨[], []⟩) (by omega : c.esp + 4 ≤ physBase) fun i bound =>
    mapped i (by omega)
  obtain ⟨k₂, string⟩ := arguments_ok (k := k₁) (by omega : c.esp + 4 + 4 ≤ physBase) fun i bound => by
    rw [Nat.add_assoc]
    exact mapped (4 + i) (by omega)
  have checked : Ends (fun stop => Crossed stop.2) (fun _ => False)
      (checkUserString c.user (arg c 1) k₂) := by
    have delta : arg c 1 + 0 + toUInt32 (physBase - arg c 1) = physBase := by
      unfold toUInt32 physBase at *
      omega
    unfold checkUserString
    rw [if_neg (not_not.mpr user)]
    refine (strnlen_crosses delta all).bind fun ⟨length, k⟩ ⟨crossed, whole⟩ => ?_
    rw [Nat.zero_add] at whole
    exact .ite (fun _ => .error crossed) fun short => absurd whole short
  have other : ¬ arg c 0 = sysExit := by
    rw [opens]
    decide
  unfold Call.run syscallHandler
  rw [number, next, ok_bind, if_neg other, if_pos opens, string, ok_bind]
  exact checked.bind fun _ none => none.elim

/-- For every stack pointer, system call and arguments, and whatever is mapped: a call
uses no address at or above `PHYS_BASE` exactly if it does not open a string that
nothing ends below it. -/
theorem run_below_iff (c : Call) : Leaves Below c.run ↔ ¬ ReadsAcross c := by
  refine ⟨fun below across => ?_, run_leaves⟩
  have crossed := run_crosses across
  cases ended : c.run with
  | ok k =>
      rw [ended] at below crossed
      cases below with
      | ok below =>
          cases crossed with
          | ok crossed => exact absurd (below _ crossed) (Nat.lt_irrefl _)
  | error stop =>
      rw [ended] at below crossed
      cases below with
      | error below =>
          cases crossed with
          | error crossed => exact absurd (below _ crossed) (Nat.lt_irrefl _)

/-- `open` with a string of one byte, the last one of user memory. -/
def openLastByte : Call where
  user :=
    { byte := fun addr =>
        if addr = 0xbfffffff then some 0x61
        else if addr = physBase then some 0x53
        else if 0xbffffff0 ≤ addr ∧ addr < 0xbffffff8 then
          [6, 0, 0, 0, 0xff, 0xff, 0xff, 0xbf][addr - 0xbffffff0]?
        else none
      writable := fun _ => false }
  esp := 0xbffffff0
  file := none
  names := []
  device := 0
  alloc := true

theorem openLastByte_reads_kernel :
    ¬ Leaves Below openLastByte.run := by
  have ended : openLastByte.run = .error (.exited, ⟨[0xc0000000, 0xbfffffff, 0xbffffff7, 0xbffffff6,
      0xbffffff5, 0xbffffff4, 0xbffffff3, 0xbffffff2, 0xbffffff1, 0xbffffff0], []⟩) := rfl
  rw [ended]
  intro below
  cases below with
  | error below => exact absurd (below physBase (by decide)) (by decide)

end Across
end CS162.Pintos.HwMemory
