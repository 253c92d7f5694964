import CS162.Pintos.InodeBytes
import CS162.Pintos.SyscallAccess

/-!
Which locks a process holds when a page fault of the kernel ends it in a system call.
The driver holds the lock of the channel while it copies a full sector from or to the
process's buffer, and `putbuf` holds the console lock; nothing releases them when the
copy faults.
-/

namespace CS162.Pintos.HwMemory
open CS162.Library

/-- The first byte of a buffer that may not be used. -/
def FirstFault (allowed : Nat → Bool) (buffer n b : Nat) : Prop :=
  b < n ∧ allowed (buffer + b) = false ∧ ∀ i, i < b → allowed (buffer + i) = true

/-- Byte `b` of a transfer of `n` bytes at `pos` of a file is in a sector that the
transfer covers. -/
def InWholeSector (pos n b : Nat) : Prop :=
  pos ≤ (pos + b) / sectorSize * sectorSize ∧
    (pos + b) / sectorSize * sectorSize + sectorSize ≤ pos + n

instance (pos n b : Nat) : Decidable (InWholeSector pos n b) :=
  inferInstanceAs (Decidable (_ ∧ _))

/-- The arguments of a call with a buffer pass the checks. -/
def Passes (c : Call) : Prop :=
  c.esp + 16 ≤ physBase ∧ (∀ i, i < 16 → c.user.readable (c.esp + i) = true) ∧
    arg c 2 < physBase ∧ arg c 2 + arg c 3 ≤ physBase

/-- The bytes that a read or a write of a file transfers. -/
def transferred (file : OpenFile) (size : Nat) : Nat :=
  bytesLeft file.inode.data (toInt32 size).toNat file.pos

/-- The first byte of the buffer that cannot be used is one that the kernel uses with a
lock held. -/
def FaultsUnderLock (c : Call) : Prop :=
  Passes c ∧
    ((arg c 0 = sysWrite ∧ arg c 1 = 1 ∧ ∃ b, FirstFault c.user.readable (arg c 2) (arg c 3) b) ∨
      ∃ file, c.file = some file ∧ arg c 1 = 2 ∧ ∃ allowed, ∃ b,
        ((arg c 0 = sysWrite ∧ file.inode.denyWriteCnt = 0 ∧ allowed = c.user.readable) ∨
          (arg c 0 = sysRead ∧ allowed = c.user.writable)) ∧
        FirstFault allowed (arg c 2) (transferred file (arg c 3)) b ∧
        InWholeSector file.pos (transferred file (arg c 3)) b)

section Bytes
variable {k : Kernel} {addr left : Nat}

theorem access_cases (may : Bool) (below : addr < physBase) :
    access may addr k = if may then .ok { k with accesses := addr :: k.accesses }
      else .error (.exited, { k with accesses := addr :: k.accesses }) := by
  simp only [access, if_pos below]

theorem touch_cases (allowed : Nat → Bool) (k : Kernel) (below : addr + left ≤ physBase) :
    (∃ k', touch allowed left addr k = .ok k' ∧ k'.locks = k.locks ∧
      ∀ i, i < left → allowed (addr + i) = true) ∨
    ∃ k' b, touch allowed left addr k = .error (.exited, k') ∧ k'.locks = k.locks ∧
      FirstFault allowed addr left b := by
  induction left generalizing addr k with
  | zero => exact .inl ⟨k, rfl, rfl, fun i none => absurd none (Nat.not_lt_zero i)⟩
  | succ left ih =>
      have inside : addr < physBase := by omega
      have shift (i : Nat) : addr + 1 + i = addr + (i + 1) := by omega
      rw [touch, succ_addr inside, access_cases _ inside]
      cases may : allowed addr with
      | false =>
          exact .inr ⟨_, 0, rfl, rfl, Nat.succ_pos left, may, fun i none => absurd none (Nat.not_lt_zero i)⟩
      | true =>
          have rest := ih { k with accesses := addr :: k.accesses } (by omega : addr + 1 + left ≤ physBase)
          simp only [FirstFault, shift] at rest
          have from_first (n : Nat) (all : ∀ i, i < n → allowed (addr + (i + 1)) = true) (i : Nat)
              (bound : i < n + 1) : allowed (addr + i) = true := by
            cases i with
            | zero => exact may
            | succ i => exact all i (by omega)
          obtain ⟨k', done, locks, all⟩ | ⟨k', b, stopped, locks, bound, fault, before⟩ := rest
          · exact .inl ⟨k', done, locks, from_first left all⟩
          · exact .inr ⟨k', b + 1, stopped, locks, by omega, fault, from_first b before⟩

/-- The checks and the reading of argument words: they end the process exactly if the
words are not in user memory or not mapped. -/
theorem arguments_cases (c : Call) (addr count : Nat) (some : 0 < count) (k : Kernel) :
    (∃ k', arguments c addr count k = .ok k' ∧ k'.locks = k.locks ∧ addr + 4 * count ≤ physBase ∧
      ∀ i, i < 4 * count → c.user.readable (addr + i) = true) ∨
    ∃ k', arguments c addr count k = .error (.exited, k') ∧ k'.locks = k.locks ∧
      ¬ (addr + 4 * count ≤ physBase ∧ ∀ i, i < 4 * count → c.user.readable (addr + i) = true) := by
  unfold arguments
  obtain ⟨refused, outside⟩ | ⟨passed, -, inside⟩ := checkUserBuffer_cases addr (4 * count) k
  · rw [refused]
    exact .inr ⟨k, rfl, rfl, fun known => outside ⟨by omega, known.1⟩⟩
  · rw [passed]
    obtain ⟨k', done, locks, all⟩ | ⟨k', b, stopped, locks, bound, fault, -⟩ :=
      touch_cases c.user.readable k inside
    · exact .inl ⟨k', done, locks, inside, all⟩
    · refine .inr ⟨k', stopped, locks, fun known => ?_⟩
      rw [known.2 b bound] at fault
      cases fault

end Bytes

section Chunks
variable {u : UserMemory} {k : Kernel} {locks : List Lock} {device buffer size : Nat} {c : Chunk}
variable {allowed : Nat → Bool}

/-- What a chunk does with its part of the buffer: it ends the process at the first byte
that may not be used, with the lock of the channel if it is a full sector. -/
def ChunkLocks (allowed : Nat → Bool) (buffer size : Nat) (body : Chunk → Kernel → Effect Kernel) :
    Prop :=
  ∀ c k, 0 < c.size → c.done + c.size ≤ size →
    Ends (fun stop => stop.1 = .exited → ∃ b, FirstFault allowed (buffer + c.done) c.size b ∧
        stop.2.locks = if c.full then .channel :: k.locks else k.locks)
      (fun k' => k'.locks = k.locks ∧ ∀ i, i < c.size → allowed (buffer + c.done + i) = true)
      (body c k)

theorem holding_touch (lock : Lock) (below : buffer + size ≤ physBase) :
    Ends (fun stop => stop.1 = .exited → ∃ b, FirstFault allowed buffer size b ∧
        stop.2.locks = lock :: k.locks)
      (fun k' => k'.locks = k.locks ∧ ∀ i, i < size → allowed (buffer + i) = true)
      (holding lock (touch allowed size buffer) k) := by
  unfold holding
  obtain ⟨k', done, locks, all⟩ | ⟨k', b, stopped, locks, fault⟩ :=
    touch_cases allowed { k with locks := lock :: k.locks } below
  · rw [done]
    refine .ok ⟨?_, all⟩
    rw [locks]
    exact List.erase_cons_head ..
  · rw [stopped]
    exact .error fun _ => ⟨b, fault, locks⟩

theorem ideTransfer_locks :
    Ends (fun _ => False) (fun k' => k'.locks = k.locks) (ideTransfer k) := by
  refine .ok ?_
  exact List.erase_cons_head Lock.channel k.locks

theorem touch_locks (below : buffer + size ≤ physBase) :
    Ends (fun stop => stop.1 = .exited → ∃ b, FirstFault allowed buffer size b ∧
        stop.2.locks = k.locks)
      (fun k' => k'.locks = k.locks ∧ ∀ i, i < size → allowed (buffer + i) = true)
      (touch allowed size buffer k) := by
  obtain ⟨k', done, locks, all⟩ | ⟨k', b, stopped, locks, fault⟩ :=
    touch_cases allowed k below
  · rw [done]
    exact .ok ⟨locks, all⟩
  · rw [stopped]
    exact .error fun _ => ⟨b, fault, locks⟩

theorem readUserChunk_locks (inside : buffer + size ≤ physBase) :
    ChunkLocks u.writable buffer size (readUserChunk u device buffer) := by
  intro c k nonempty bound
  have below : buffer + c.done + c.size ≤ physBase := by omega
  unfold readUserChunk
  simp only [chunkAddr_eq inside bound nonempty]
  refine .ite (fun _ => .error nofun) fun _ => ?_
  cases c.full with
  | true => exact holding_touch .channel below
  | false =>
      refine ideTransfer_locks.imp (fun _ none => none.elim) (fun _ h => h) |>.bind fun k₁ same => ?_
      rw [← same]
      exact touch_locks below

theorem fillBounce_locks :
    Ends (fun _ => False) (fun k' => k'.locks = k.locks) (fillBounce c k) :=
  .ite (fun _ => ideTransfer_locks) fun _ => .ok rfl

theorem writeUserChunk_locks (inside : buffer + size ≤ physBase) :
    ChunkLocks u.readable buffer size (writeUserChunk u device buffer) := by
  intro c k nonempty bound
  have below : buffer + c.done + c.size ≤ physBase := by omega
  unfold writeUserChunk
  simp only [chunkAddr_eq inside bound nonempty]
  refine .ite (fun _ => .error nofun) fun _ => ?_
  cases c.full with
  | true => exact holding_touch .channel below
  | false =>
      refine fillBounce_locks.imp (fun _ none => none.elim) (fun _ h => h) |>.bind fun k₁ same => ?_
      rw [← same]
      refine (touch_locks below).bind fun k₂ ⟨same', all⟩ => ?_
      exact ideTransfer_locks.imp (fun _ none => none.elim) fun k₃ same'' => ⟨same''.trans same', all⟩

/-- A chunk that starts at a sector boundary, or with the transfer, is a full sector
exactly if its sector lies in the range. -/
theorem full_iff_inWholeSector {pos n b : Nat} (start : c.done = 0 ∨ (pos + c.done) % sectorSize = 0)
    (ofs : c.sectorOfs = (pos + c.done) % sectorSize)
    (size : c.size = min (n - c.done) (sectorSize - c.sectorOfs)) (bound : b < c.size) :
    c.full = true ↔ InWholeSector pos n (c.done + b) := by
  rw [Chunk.full, decide_eq_true_iff]
  unfold InWholeSector sectorSize at *
  omega

theorem transfer_locks {body : Chunk → Kernel → Effect Kernel} (data : InodeDisk)
    (chunks : ChunkLocks allowed buffer size body) (alloc bounce : Bool) (rounds pos done : Nat)
    (most : done ≤ size) (before : ∀ i, i < done → allowed (buffer + i) = true)
    (start : done = 0 ∨ (pos + done) % sectorSize = 0 ∨ bytesLeft data size pos ≤ done)
    (held : k.locks = locks) :
    Ends (fun stop => stop.1 = .exited → ∃ b, FirstFault allowed buffer (bytesLeft data size pos) b ∧
        stop.2.locks = if InWholeSector pos (bytesLeft data size pos) b then .channel :: locks else locks)
      (fun r => r.2.2.locks = locks)
      (transfer data body alloc rounds (size - done) (pos + done) done bounce k) := by
  induction rounds generalizing done bounce k with
  | zero => exact .ok held
  | succ rounds ih =>
      rw [transfer]
      refine .ite (fun more => ?_) fun _ => .ok held
      have value := chunkSize_eq data.length (size - done) (pos + done)
      refine .ite (fun _ => .ok held) fun chunk => .ite (fun _ => .ok held) fun _ => ?_
      have left : ((chunkSize data.length (size - done) (pos + done)).toNat : Int) =
          chunkSize data.length (size - done) (pos + done) := Int.toNat_of_nonneg (by omega)
      generalize (chunkSize data.length (size - done) (pos + done)).toNat = count at *
      have count_eq : count = min (bytesLeft data size pos - done)
          (sectorSize - (pos + done) % sectorSize) := by
        unfold bytesLeft sectorSize at *
        omega
      have positive : 0 < count := by omega
      have within : done + count ≤ bytesLeft data size pos := by omega
      have fits : bytesLeft data size pos ≤ size := Nat.min_le_left ..
      have ran := chunks ⟨byteToSector data (pos + done), (pos + done) % sectorSize, count, done⟩ k
        positive (within.trans fits)
      simp only at ran ⊢
      split
      · next stop stopped =>
          rw [stopped] at ran
          cases ran with
          | error h =>
              refine .error fun exited => ?_
              obtain ⟨b, ⟨bound, fault, earlier⟩, kept⟩ := h exited
              refine ⟨done + b, ⟨by omega, by rw [← Nat.add_assoc]; exact fault, fun i lower => ?_⟩, ?_⟩
              · by_cases old : i < done
                · exact before i old
                · have := earlier (i - done) (by omega)
                  rwa [Nat.add_assoc, Nat.add_sub_cancel' (by omega)] at this
              · have full := full_iff_inWholeSector (c := ⟨byteToSector data (pos + done),
                  (pos + done) % sectorSize, count, done⟩) (by simp only; omega) rfl count_eq bound
                simp only [kept, held, full]
      · next k₁ went =>
          rw [went] at ran
          cases ran with
          | ok h =>
              obtain ⟨kept, all⟩ := h
              have rest := ih (bounce || !Chunk.full ⟨byteToSector data (pos + done),
                (pos + done) % sectorSize, count, done⟩) (done + count) (within.trans fits)
                (fun i bound => ?_) ?_ (kept.trans held)
              · rwa [Nat.sub_add_eq, ← Nat.add_assoc] at rest
              · by_cases old : i < done
                · exact before i old
                · have := all (i - done) (by omega)
                  rwa [Nat.add_assoc, Nat.add_sub_cancel' (by omega)] at this
              · unfold sectorSize at *
                omega

theorem fileTransfer_locks {chunk : Chunk → Kernel → Effect Kernel} {file : OpenFile} {alloc : Bool}
    (chunks : ∀ size', size' ≤ size → ChunkLocks allowed buffer size' chunk) :
    Ends (fun stop => stop.1 = .exited → ∃ b, FirstFault allowed buffer (transferred file size) b ∧
        stop.2.locks =
          if InWholeSector file.pos (transferred file size) b then .channel :: k.locks else k.locks)
      (fun _ => True) (fileTransfer chunk file alloc size k) := by
  have count_le : (toInt32 size).toNat ≤ size := by
    unfold toInt32
    omega
  have all := transfer_locks (k := k) file.inode.data (chunks _ count_le) alloc false
    (toInt32 size).toNat file.pos 0 (Nat.zero_le _) (fun i none => absurd none (Nat.not_lt_zero i))
    (.inl rfl) rfl
  unfold fileTransfer transferred at *
  generalize (toInt32 size).toNat = count at *
  exact all.bind fun _ _ => .ok trivial

end Chunks

section Unlocked
variable {c : Call} {u : UserMemory} {k : Kernel} {addr left length string : Nat}

def Unlocked (k : Kernel) : Prop := k.locks = []

theorem access_unlocked (may : Bool) (addr : Nat) (base : Unlocked k) :
    Leaves Unlocked (access may addr k) := by
  have same : Unlocked { k with accesses := addr :: k.accesses } := base
  unfold access
  exact .ite (fun _ => .ok same) fun _ => .ite (fun _ => .error same) fun _ => .error same

theorem strnlen_unlocked (base : Unlocked k) :
    Ends (fun stop => Unlocked stop.2) (fun r => Unlocked r.2) (strnlen u string left length k) := by
  induction left generalizing length k with
  | zero =>
      rw [strnlen]
      exact (access_unlocked _ _ base).bind fun k₁ h => .ite (fun _ => .ok h) fun _ => .ok h
  | succ left ih =>
      rw [strnlen]
      exact (access_unlocked _ _ base).bind fun k₁ h => .ite (fun _ => .ok h) fun _ => ih h

theorem checkUserString_unlocked (base : Unlocked k) :
    Leaves Unlocked (checkUserString u string k) := by
  unfold checkUserString
  refine .ite (fun _ => .error base) fun _ => (strnlen_unlocked base).bind fun ⟨length, k₁⟩ h => ?_
  exact .ite (fun _ => .error h) fun _ => .ok h

theorem strcmp_unlocked {name : List UInt8} (base : Unlocked k) :
    Ends (fun stop => Unlocked stop.2) (fun r => Unlocked r.2) (strcmp u string name k) := by
  induction name generalizing string k with
  | nil =>
      rw [strcmp]
      exact (access_unlocked _ _ base).bind fun k₁ h => .ok h
  | cons b name ih =>
      rw [strcmp]
      exact (access_unlocked _ _ base).bind fun k₁ h => .ite (fun _ => ih h) fun _ => .ok h

theorem lookup_unlocked {names : List (List UInt8)} (base : Unlocked k) :
    Leaves Unlocked (lookup u string names k) := by
  induction names generalizing k with
  | nil => exact .ok base
  | cons name names ih =>
      rw [lookup]
      refine (strcmp_unlocked base).bind ?_
      rintro ⟨same, k₁⟩ h
      exact .ite (fun _ => .ok h) fun _ => ih h

theorem arguments_unlocked (c : Call) (addr count : Nat) (some : 0 < count) (base : Unlocked k) :
    Leaves Unlocked (arguments c addr count k) := by
  obtain ⟨k', done, same, -⟩ | ⟨k', stopped, same, -⟩ := arguments_cases c addr count some k
  · rw [done]
    exact .ok (same.trans base)
  · rw [stopped]
    exact .error (same.trans base)

end Unlocked

section Run
variable {c : Call} {k : Kernel} {b b' n buffer : Nat} {allowed : Nat → Bool}

/-- How a call may end: if the process is ended, it holds a lock exactly if the first
byte it could not use was used under one. -/
abbrev EndsUnlocked (c : Call) : Effect Kernel → Prop :=
  Ends (fun stop => stop.1 = .exited → (stop.2.locks = [] ↔ ¬ FaultsUnderLock c)) fun _ => True

theorem FirstFault.unique (h : FirstFault allowed buffer n b) (h' : FirstFault allowed buffer n b') :
    b = b' := by
  obtain ⟨-, fault, before⟩ := h
  obtain ⟨-, fault', before'⟩ := h'
  rcases lt_trichotomy b b' with lower | same | upper
  · rw [before' b lower] at fault
    cases fault
  · exact same
  · rw [before b' upper] at fault'
    cases fault'

theorem FaultsUnderLock.number (h : FaultsUnderLock c) : arg c 0 = sysWrite ∨ arg c 0 = sysRead := by
  obtain ⟨-, ⟨write, -⟩ | ⟨file, -, -, allowed, b, ⟨write, -⟩ | ⟨read, -⟩, -⟩⟩ := h
  · exact .inl write
  · exact .inl write
  · exact .inr read

theorem endsUnlocked_of_leaves {x : Effect Kernel} (h : Leaves Unlocked x)
    (safe : ¬ FaultsUnderLock c) : EndsUnlocked c x :=
  h.imp (fun _ free _ => iff_of_true free safe) fun _ _ => trivial

/-- A transfer that ends the process, when the fault decides whether it holds a lock. -/
theorem endsUnlocked_of_fault {file : OpenFile} {x : Effect Kernel} (free : k.locks = [])
    (holds : ∀ b, FirstFault allowed (arg c 2) (transferred file (arg c 3)) b →
      (FaultsUnderLock c ↔ InWholeSector file.pos (transferred file (arg c 3)) b))
    (ends : Ends (fun stop => stop.1 = .exited →
        ∃ b, FirstFault allowed (arg c 2) (transferred file (arg c 3)) b ∧ stop.2.locks =
          if InWholeSector file.pos (transferred file (arg c 3)) b then .channel :: k.locks else k.locks)
      (fun _ => True) x) : EndsUnlocked c x := by
  refine ends.imp (fun stop h exited => ?_) fun _ h => h
  obtain ⟨b, fault, locks⟩ := h exited
  rw [holds b fault, locks]
  split
  · next whole => exact iff_of_false (by simp) (not_not.mpr whole)
  · next part => exact iff_of_true free part

theorem syscallWrite_locks (passes : Passes c) (number : arg c 0 = sysWrite) (free : k.locks = []) :
    EndsUnlocked c (syscallWrite c (arg c 1) (arg c 2) (arg c 3) k) := by
  have inside := passes.2.2.2
  unfold syscallWrite
  refine .ite (fun stdout => ?_) fun other => ?_
  · refine (holding_touch .console inside).imp (fun stop h exited => ?_) fun _ _ => trivial
    obtain ⟨b, fault, locks⟩ := h exited
    rw [locks]
    exact iff_of_false (by simp) (not_not.mpr ⟨passes, .inl ⟨number, stdout, b, fault⟩⟩)
  · split
    · exact .ok trivial
    · next file found =>
        refine .ite (fun _ => .ok trivial) fun two => .ite (fun _ => .ok trivial) fun allowed => ?_
        refine endsUnlocked_of_fault free (fun b fault => ⟨?_, fun whole => ?_⟩)
          (fileTransfer_locks fun size bound => writeUserChunk_locks (by omega))
        · rintro ⟨-, ⟨-, stdout, -⟩ | ⟨file', found', -, allowed', b', kind, fault', whole⟩⟩
          · exact absurd stdout other
          · rw [found] at found'
            cases found'
            obtain ⟨-, -, rfl⟩ | ⟨read, -⟩ := kind
            · rwa [fault.unique fault']
            · rw [number] at read
              exact absurd read (by decide)
        · exact ⟨passes, .inr ⟨file, found, not_not.mp two, _, b,
            .inl ⟨number, not_not.mp allowed, rfl⟩, fault, whole⟩⟩

theorem syscallRead_locks (passes : Passes c) (number : arg c 0 = sysRead) (free : k.locks = []) :
    EndsUnlocked c (syscallRead c (arg c 1) (arg c 2) (arg c 3) k) := by
  have inside := passes.2.2.2
  unfold syscallRead
  split
  · exact .ok trivial
  · next file found =>
      refine .ite (fun _ => .ok trivial) fun two => ?_
      refine endsUnlocked_of_fault free (fun b fault => ⟨?_, fun whole => ?_⟩)
        (fileTransfer_locks fun size bound => readUserChunk_locks (by omega))
      · rintro ⟨-, ⟨write, -⟩ | ⟨file', found', -, allowed', b', kind, fault', whole⟩⟩
        · rw [number] at write
          exact absurd write (by decide)
        · rw [found] at found'
          cases found'
          obtain ⟨write, -⟩ | ⟨-, rfl⟩ := kind
          · rw [number] at write
            exact absurd write (by decide)
          · rwa [fault.unique fault']
      · exact ⟨passes, .inr ⟨file, found, not_not.mp two, _, b, .inr ⟨number, rfl⟩, fault, whole⟩⟩

theorem bufferCall_locks {handler : Nat → Nat → Nat → Kernel → Effect Kernel}
    (first : c.esp + 4 ≤ physBase) (words : ∀ i, i < 4 → c.user.readable (c.esp + i) = true)
    (step : ∀ k, Passes c → k.locks = [] → EndsUnlocked c (handler (arg c 1) (arg c 2) (arg c 3) k))
    (free : k.locks = []) : EndsUnlocked c (bufferCall c handler k) := by
  have next : (c.esp + 4) % 2 ^ 32 = c.esp + 4 := by
    unfold physBase at first
    omega
  unfold bufferCall
  rw [next]
  obtain ⟨k₁, done, same, second, words'⟩ | ⟨k₁, stopped, same, unknown⟩ :=
    arguments_cases c (c.esp + 4) 3 (by decide) k
  · rw [done]
    change EndsUnlocked c (checkUserBuffer (arg c 2) (arg c 3) k₁ >>= _)
    obtain ⟨refused, outside⟩ | ⟨passed, user, inside⟩ := checkUserBuffer_cases (arg c 2) (arg c 3) k₁
    · rw [refused]
      exact .error fun _ => iff_of_true (same.trans free) fun faults => outside faults.1.2.2
    · rw [passed]
      refine step k₁ ⟨by omega, fun i bound => ?_, user, inside⟩ (same.trans free)
      by_cases low : i < 4
      · exact words i low
      · have high := words' (i - 4) (by omega)
        rwa [Nat.add_assoc, Nat.add_sub_cancel' (by omega)] at high
  · rw [stopped]
    refine .error fun _ => iff_of_true (same.trans free) fun faults => unknown ⟨?_, fun i bound => ?_⟩
    · have := faults.1.1
      omega
    · rw [Nat.add_assoc]
      exact faults.1.2.1 (4 + i) (by omega)

theorem run_locks (c : Call) : EndsUnlocked c c.run := by
  unfold Call.run syscallHandler
  obtain ⟨k₁, done, same, first, words⟩ | ⟨k₁, stopped, same, unknown⟩ :=
    arguments_cases c c.esp 1 (by decide) ⟨[], []⟩
  · rw [done]
    have free : Unlocked k₁ := same
    change EndsUnlocked c (if arg c 0 = sysExit then _ else if arg c 0 = sysOpen then _
      else if arg c 0 = sysWrite then _ else if arg c 0 = sysRead then _
      else if arg c 0 = sysClose ∨ arg c 0 = sysSbrk then _ else _)
    have safe {number : Nat} (is : arg c 0 = number) (write : number ≠ sysWrite)
        (read : number ≠ sysRead) : ¬ FaultsUnderLock c := by
      intro faults
      rw [← is] at write read
      exact faults.number.elim write read
    refine .ite (fun is => ?_) fun _ => .ite (fun is => ?_) fun _ => .ite (fun is => ?_) fun notWrite =>
      .ite (fun is => ?_) fun notRead => ?_
    · refine endsUnlocked_of_leaves ?_ (safe is (by decide) (by decide))
      exact (arguments_unlocked c _ 1 (by decide) free).bind fun k₂ h => .error h
    · refine endsUnlocked_of_leaves ?_ (safe is (by decide) (by decide))
      refine (arguments_unlocked c _ 1 (by decide) free).bind fun k₂ h => ?_
      refine (checkUserString_unlocked h).bind fun k₃ h => ?_
      exact .ite (fun _ => .ok h) fun _ => lookup_unlocked h
    · exact bufferCall_locks first words (fun k passes free => syscallWrite_locks passes is free) free
    · exact bufferCall_locks first words (fun k passes free => syscallRead_locks passes is free) free
    · refine endsUnlocked_of_leaves ?_ (safe rfl notWrite notRead)
      exact .ite (fun _ => arguments_unlocked c _ 1 (by decide) free) fun _ => .ok free
  · rw [stopped]
    refine .error fun _ => iff_of_true same fun faults => unknown ⟨?_, fun i bound => ?_⟩
    · have := faults.1.1
      omega
    · exact faults.1.2.1 i (by omega)

/-- For every system call, every arguments and every unmapped part of the process's
memory: if the call ends the process, it holds no kernel lock exactly if the first byte
that the kernel could not use was used under none. -/
theorem ended_unlocked_iff {c : Call} {k : Kernel} (ended : c.run = .error (.exited, k)) :
    k.locks = [] ↔ ¬ FaultsUnderLock c := by
  have h := run_locks c
  rw [ended] at h
  cases h with
  | error h => exact h rfl

/-- A call with a buffer, of a process that has three sectors open at position 100 and
a stack of 16 mapped bytes. -/
def bufferSyscall (number fd buffer size : Nat) (byte : Nat → Option UInt8) : Call where
  user :=
    { byte := fun addr =>
        if 0xbffffff0 ≤ addr ∧ addr < 0xc0000000 then
          (toBytes 4 number ++ toBytes 4 fd ++ toBytes 4 buffer ++ toBytes 4 size)[addr - 0xbffffff0]?
        else byte addr
      writable := fun addr => (byte addr).isSome }
  esp := 0xbffffff0
  file := some ⟨⟨5, 1, false, 0, ⟨6, 1536⟩⟩, 100⟩
  names := []
  device := 16
  alloc := true

theorem exists_of_ended {c : Call} (p : Kernel → Bool)
    (h : (match c.run with | .error (.exited, k) => p k | _ => false) = true) :
    ∃ k, c.run = .error (.exited, k) ∧ p k = true := by
  split at h
  · next k ended => exact ⟨k, ended, h⟩
  · cases h

/-- A read into an unmapped buffer that the bounce buffer serves. -/
theorem small_read_ends_unlocked :
    ∃ k, (bufferSyscall sysRead 2 0x1000 50 fun _ => none).run = .error (.exited, k) ∧
      k.locks = [] := by
  obtain ⟨k, ended, -⟩ := exists_of_ended
    (c := bufferSyscall sysRead 2 0x1000 50 fun _ => none) (fun _ => true) (by decide +kernel)
  refine ⟨k, ended, (ended_unlocked_iff ended).mpr ?_⟩
  rintro ⟨-, ⟨-, stdout, -⟩ | ⟨file, found, -, allowed, b, -, ⟨bound, -⟩, whole⟩⟩
  · exact absurd stdout (by decide +kernel)
  · cases found
    have count : transferred ⟨⟨5, 1, false, 0, ⟨6, 1536⟩⟩, 100⟩
        (arg (bufferSyscall sysRead 2 0x1000 50 fun _ => none) 3) = 50 := by decide +kernel
    rw [count] at bound
    have lower := whole.1
    simp only [sectorSize] at lower
    omega

/-- A read of which a full sector goes into an unmapped page, and a write of an unmapped
buffer to the console. -/
theorem process_dies_holding_locks :
    (∃ k, (bufferSyscall sysRead 2 (0x2000 - 412) 1000 fun addr =>
        if addr / 0x1000 = 1 then some 0 else none).run = .error (.exited, k) ∧
      k.locks = [.channel]) ∧
    ∃ k, (bufferSyscall sysWrite 1 0x1000 1 fun _ => none).run = .error (.exited, k) ∧
      k.locks = [.console] := by
  constructor
  · obtain ⟨k, ended, locks⟩ := exists_of_ended
      (c := bufferSyscall sysRead 2 (0x2000 - 412) 1000 fun addr =>
        if addr / 0x1000 = 1 then some 0 else none)
      (fun k => k.locks = [.channel]) (by decide +kernel)
    exact ⟨k, ended, of_decide_eq_true locks⟩
  · obtain ⟨k, ended, locks⟩ := exists_of_ended (c := bufferSyscall sysWrite 1 0x1000 1 fun _ => none)
      (fun k => k.locks = [.console]) (by decide +kernel)
    exact ⟨k, ended, of_decide_eq_true locks⟩

end Run
end CS162.Pintos.HwMemory
