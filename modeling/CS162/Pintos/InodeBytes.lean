import CS162.Library.Outcome
import CS162.Pintos.Inode

/-!
A file is an array of bytes: what `inode_read_at` and `inode_write_at` do to its
sectors is what a copy from and to that array does.
-/

namespace CS162.Pintos
open CS162.Library

/-- The bytes of a file. -/
def fileBytes (d : Disk) (data : InodeDisk) : Library.Memory :=
  fun pos => d.sectors (data.start + pos / sectorSize) (pos % sectorSize)

/-- A sector that holds data of the file. -/
def InodeDisk.Has (data : InodeDisk) (sector : Nat) : Prop :=
  data.start ≤ sector ∧ sector < data.start + bytesToSectors data.length

/-- The file's sectors are sectors of the device. -/
structure OnDisk (d : Disk) (data : InodeDisk) : Prop where
  fits : data.start + bytesToSectors data.length ≤ d.size
  device : d.size ≤ 2 ^ 32

/-- The chunk of a file that starts at a position. -/
structure ChunkAt (data : InodeDisk) (pos : Nat) (c : Chunk) : Prop where
  sector : c.sector = data.start + pos / sectorSize
  sectorOfs : c.sectorOfs = pos % sectorSize
  nonempty : 0 < c.size
  inSector : c.sectorOfs + c.size ≤ sectorSize
  inFile : pos + c.size ≤ data.length

theorem ChunkAt.has {data : InodeDisk} {pos : Nat} {c : Chunk} (h : ChunkAt data pos c) :
    data.Has c.sector := by
  have sector := h.sector
  have nonempty := h.nonempty
  have inFile := h.inFile
  unfold InodeDisk.Has bytesToSectors sectorSize at *
  omega

/-- What a round of the loops is about to transfer is a chunk of the file. -/
theorem chunkAt_next {data : InodeDisk} {size offset : Nat} (done : Nat) (device : data.start +
    bytesToSectors data.length ≤ 2 ^ 32) (more : 0 < size)
    (chunk : 0 < chunkSize data.length size offset) :
    ChunkAt data offset ⟨byteToSector data offset, offset % sectorSize,
      (chunkSize data.length size offset).toNat, done⟩ := by
  obtain ⟨stop, inside⟩ := chunkSize_spec data.length size offset more
  obtain ⟨-, sector, file⟩ := inside chunk
  have here : offset < data.length := Nat.lt_of_not_le fun past => Int.not_le.mpr chunk (stop.mpr past)
  refine ⟨?_, rfl, Int.pos_iff_toNat_pos.mp chunk, sector, file⟩
  unfold byteToSector
  rw [if_pos here, Nat.mod_eq_of_lt]
  unfold bytesToSectors sectorSize at *
  omega

section
variable {ε σ : Type} {data : InodeDisk} {body : Chunk → σ → Except ε σ} {alloc : Bool}

/-- The rule of the loops: what a chunk does to the first `done` bytes carries over to
the bytes of the whole transfer, which ends at the size that was asked for or at the end
of the file, unless an allocation fails. -/
theorem transfer_induction (P : Nat → σ → Prop) {first total : Nat} (device : data.start +
    bytesToSectors data.length ≤ 2 ^ 32)
    (step : ∀ c state, c.done + c.size ≤ total → ChunkAt data (first + c.done) c → P c.done state →
      ∃ state', body c state = .ok state' ∧ P (c.done + c.size) state')
    {rounds done : Nat} (bounce : Bool) {state : σ} (most : done ≤ total)
    (enough : total - done ≤ rounds) (base : P done state) (within : done ≤ data.length - first) :
    ∃ n failed state', transfer data body alloc rounds (total - done) (first + done) done bounce
        state = .ok (n, failed, state') ∧ P n state' ∧ n ≤ min total (data.length - first) ∧
      (n = min total (data.length - first) ↔ failed = false) := by
  induction rounds generalizing done bounce state with
  | zero => exact ⟨done, false, state, rfl, base, by omega, by simp; omega⟩
  | succ rounds ih =>
      rw [transfer]
      split
      · next more =>
          obtain ⟨stop, inside⟩ := chunkSize_spec data.length (total - done) (first + done) more
          simp only
          split
          · next ended =>
              rw [stop] at ended
              exact ⟨done, false, state, rfl, base, by omega, by simp; omega⟩
          · next chunk =>
              obtain ⟨size, sector, file⟩ := inside (by omega)
              have chunkAt := chunkAt_next done device more (Int.not_le.mp chunk)
              generalize (chunkSize data.length (total - done) (first + done)).toNat = count at *
              split
              · exact ⟨done, true, state, rfl, base, by omega, by simp; omega⟩
              · have positive : 0 < count := chunkAt.nonempty
                have bound : done + count ≤ total := by omega
                obtain ⟨state₁, ran, after⟩ := step ⟨_, _, _, _⟩ state bound chunkAt base
                have rest := ih (bounce || !Chunk.full
                  ⟨byteToSector data (first + done), (first + done) % sectorSize, count, done⟩)
                  bound (by omega) after (by omega)
                rw [Nat.sub_add_eq, ← Nat.add_assoc] at rest
                simpa only [ran] using rest
      · exact ⟨done, false, state, rfl, base, by omega, by simp; omega⟩

/-- The most that a transfer can do. -/
def bytesLeft (data : InodeDisk) (size offset : Nat) : Nat := min size (data.length - offset)

theorem transfer_spec (P : Nat → σ → Prop) {offset size : Nat} {state : σ} (device : data.start +
    bytesToSectors data.length ≤ 2 ^ 32)
    (step : ∀ c state, c.done + c.size ≤ size → ChunkAt data (offset + c.done) c → P c.done state →
      ∃ state', body c state = .ok state' ∧ P (c.done + c.size) state') (base : P 0 state) :
    ∃ n failed state',
      transfer data body alloc size size offset 0 false state = .ok (n, failed, state') ∧
      P n state' ∧ n ≤ bytesLeft data size offset ∧
      (n = bytesLeft data size offset ↔ failed = false) :=
  transfer_induction P device step false (Nat.zero_le _) (Nat.sub_le ..) base (Nat.zero_le _)

end

section
variable {d : Disk} {data : InodeDisk} {pos : Nat} {c : Chunk} {buffer : Library.Memory}

theorem readChunk_spec (onDisk : OnDisk d data) (h : ChunkAt data pos c) :
    readChunk d c buffer = .ok (buffer.copy c.done (fileBytes d data) pos c.size) := by
  have has := h.has.2
  have fits := onDisk.fits
  have inSector := h.inSector
  have sectorOfs := h.sectorOfs
  have read : blockRead d c.sector = .ok (d.sectors c.sector) := if_neg (by omega)
  have same (x : Nat) (hx : x < c.size) :
      d.sectors c.sector (c.sectorOfs + x) = fileBytes d data (pos + x) := by
    have sector : (pos + x) / sectorSize = pos / sectorSize := by
      unfold sectorSize at *
      omega
    have offset : (pos + x) % sectorSize = c.sectorOfs + x := by
      unfold sectorSize at *
      omega
    rw [fileBytes, sector, offset, h.sector]
  unfold readChunk
  rw [read]
  simp only
  split
  · next full =>
      obtain ⟨zero, all⟩ := of_decide_eq_true full
      rw [zero] at same
      rw [← all]
      exact congrArg Except.ok (Memory.copy_congr same)
  · exact congrArg Except.ok (Memory.copy_congr same)

/-- The contents of one sector are replaced by what a chunk makes of them. -/
theorem fileBytes_update (h : ChunkAt data pos c) {contents : Sector}
    (inside : ∀ i, i < c.size → contents (c.sectorOfs + i) = buffer (c.done + i))
    (outside : ∀ i, i < sectorSize → i < c.sectorOfs ∨ c.sectorOfs + c.size ≤ i →
      contents i = d.sectors c.sector i) :
    fileBytes { d with sectors := Function.update d.sectors c.sector contents } data =
      (fileBytes d data).copy pos buffer c.done c.size := by
  have inSector := h.inSector
  have sectorOfs := h.sectorOfs
  funext x
  simp only [fileBytes, Memory.copy]
  by_cases same : x / sectorSize = pos / sectorSize
  · have place : data.start + x / sectorSize = c.sector := by rw [same, h.sector]
    rw [place, Function.update_self]
    have offset : pos ≤ x ∧ x < pos + c.size ↔
        c.sectorOfs ≤ x % sectorSize ∧ x % sectorSize < c.sectorOfs + c.size := by
      unfold sectorSize at *
      omega
    by_cases chunk : pos ≤ x ∧ x < pos + c.size
    · have here := inside (x - pos) (by omega)
      have index : c.sectorOfs + (x - pos) = x % sectorSize := by
        unfold sectorSize at *
        omega
      rw [if_pos chunk, ← here, index]
    · rw [if_neg chunk]
      exact outside _ (Nat.mod_lt _ (by decide)) (by omega)
  · rw [Function.update_of_ne, if_neg]
    · unfold sectorSize at *
      omega
    · rw [h.sector]
      omega

theorem writeChunk_spec (buffer : Library.Memory) (onDisk : OnDisk d data) (h : ChunkAt data pos c) :
    ∃ d', writeChunk buffer c d = .ok d' ∧ OnDisk d' data ∧
      fileBytes d' data = (fileBytes d data).copy pos buffer c.done c.size ∧
      ∀ sector, ¬ data.Has sector → d'.sectors sector = d.sectors sector := by
  have has := h.has
  have fits := onDisk.fits
  have inSector := h.inSector
  have sectorOfs := h.sectorOfs
  have device : ¬ c.sector ≥ d.size := by
    have := has.2
    omega
  have others (contents : Sector) (sector : Nat) (other : ¬ data.Has sector) :
      Function.update d.sectors c.sector contents sector = d.sectors sector := by
    refine Function.update_of_ne ?_ ..
    rintro rfl
    exact other has
  unfold writeChunk blockWrite blockRead
  simp only [if_neg device]
  split
  · next full =>
      obtain ⟨zero, all⟩ := of_decide_eq_true full
      refine ⟨_, rfl, ⟨fits, onDisk.device⟩, fileBytes_update h (fun i _ => ?_)
        (fun i bound outside => ?_), others _⟩
      · rw [zero, Nat.zero_add]
      · omega
  · next part =>
      have keeps : c.sectorOfs > 0 ∨ c.size < sectorSize - c.sectorOfs := by
        by_contra whole
        exact part (decide_eq_true ⟨by omega, by omega⟩)
      rw [if_pos keeps]
      refine ⟨_, rfl, ⟨fits, onDisk.device⟩, fileBytes_update h (fun i inside => ?_)
        (fun i _ outside => ?_), others _⟩
      · rw [Memory.copy, if_pos ⟨by omega, by omega⟩, Nat.add_sub_cancel_left]
      · exact if_neg (by omega)

end

section
variable {d : Disk} {inode : Inode} {size offset : Nat}

theorem inodeReadAt_spec (onDisk : OnDisk d inode.data) (alloc : Bool) (buffer : Library.Memory) :
    ∃ n failed, inodeReadAt d inode alloc buffer size offset =
        .ok (n, failed, buffer.copy 0 (fileBytes d inode.data) offset n) ∧
      n ≤ bytesLeft inode.data size offset ∧
      (n = bytesLeft inode.data size offset ↔ failed = false) := by
  have step (c : Chunk) (state : Library.Memory) (_ : c.done + c.size ≤ size)
      (chunk : ChunkAt inode.data (offset + c.done) c)
      (before : state = buffer.copy 0 (fileBytes d inode.data) offset c.done) :
      ∃ state', readChunk d c state = .ok state' ∧
        state' = buffer.copy 0 (fileBytes d inode.data) offset (c.done + c.size) := by
    refine ⟨_, readChunk_spec onDisk chunk, ?_⟩
    have joined := Memory.copy_copy (m := buffer) (fileBytes d inode.data) 0 offset c.done c.size
    rwa [Nat.zero_add, ← before] at joined
  obtain ⟨n, failed, buffer', ran, result, most, all⟩ := transfer_spec
    (fun done state => state = buffer.copy 0 (fileBytes d inode.data) offset done)
    (onDisk.fits.trans onDisk.device) step (Memory.copy_zero _).symm
  rw [result] at ran
  exact ⟨n, failed, ran, most, all⟩

/-- The disk after a write of the first `n` bytes of a buffer to a file. -/
structure Written (d : Disk) (data : InodeDisk) (buffer : Library.Memory) (offset n : Nat)
    (d' : Disk) : Prop where
  onDisk : OnDisk d' data
  bytes : fileBytes d' data = (fileBytes d data).copy offset buffer 0 n
  others : ∀ sector, ¬ data.Has sector → d'.sectors sector = d.sectors sector

/-- A write copies bytes of the caller's buffer to the file, and changes nothing else. -/
theorem inodeWriteAt_spec (onDisk : OnDisk d inode.data) (allowed : inode.denyWriteCnt = 0)
    (alloc : Bool) (buffer : Library.Memory) :
    ∃ n failed d', inodeWriteAt d inode alloc buffer size offset = .ok (n, failed, d') ∧
      Written d inode.data buffer offset n d' ∧ n ≤ bytesLeft inode.data size offset ∧
      (n = bytesLeft inode.data size offset ↔ failed = false) := by
  have step (c : Chunk) (state : Disk) (_ : c.done + c.size ≤ size)
      (chunk : ChunkAt inode.data (offset + c.done) c)
      (before : Written d inode.data buffer offset c.done state) :
      ∃ state', writeChunk buffer c state = .ok state' ∧
        Written d inode.data buffer offset (c.done + c.size) state' := by
    obtain ⟨d', written, onDisk', bytes, others⟩ := writeChunk_spec buffer before.onDisk chunk
    refine ⟨d', written, onDisk', ?_, fun sector other => ?_⟩
    · have joined := Memory.copy_copy (m := fileBytes d inode.data) buffer offset 0 c.done c.size
      rw [bytes, before.bytes, ← joined, Nat.zero_add]
    · rw [others sector other, before.others sector other]
  rw [inodeWriteAt, if_neg (by omega)]
  exact transfer_spec (Written d inode.data buffer offset) (onDisk.fits.trans onDisk.device) step
    ⟨onDisk, (Memory.copy_zero _).symm, fun _ _ => rfl⟩

theorem transfer_invariant {ε σ : Type} {data : InodeDisk} {body : Chunk → σ → Except ε σ}
    {alloc : Bool} (P : σ → Prop) (step : ∀ c state state', body c state = .ok state' → P state →
      P state') {rounds size offset done n : Nat} {bounce failed : Bool} {state state' : σ}
    (ran : transfer data body alloc rounds size offset done bounce state = .ok (n, failed, state'))
    (base : P state) : P state' := by
  induction rounds generalizing size offset done bounce state with
  | zero =>
      cases ran
      exact base
  | succ rounds ih =>
      rw [transfer] at ran
      split at ran
      next =>
        simp only at ran
        split at ran
        next =>
          cases ran
          exact base
        next =>
          split at ran
          next =>
            cases ran
            exact base
          next =>
            split at ran
            next => cases ran
            next moved => exact ih ran (step _ _ _ moved base)
      next =>
        cases ran
        exact base

/-- What every chunk leaves, whether it ends or stops the transfer, the transfer leaves. -/
theorem transfer_ends {ε σ : Type} {data : InodeDisk} {body : Chunk → σ → Except ε σ} {alloc : Bool}
    (E : ε → Prop) (P : σ → Prop) (device : data.start + bytesToSectors data.length ≤ 2 ^ 32)
    (step : ∀ pos c state, ChunkAt data pos c → P state → Ends E P (body c state))
    (rounds size offset done : Nat) (bounce : Bool) {state : σ} (base : P state) :
    Ends E (fun r => P r.2.2) (transfer data body alloc rounds size offset done bounce state) := by
  induction rounds generalizing size offset done bounce state with
  | zero => exact .ok base
  | succ rounds ih =>
      rw [transfer]
      refine .ite (fun more => ?_) fun _ => .ok base
      refine .ite (fun _ => .ok base) fun chunk => .ite (fun _ => .ok base) fun _ => ?_
      have moved := step _ _ _ (chunkAt_next done device more (Int.not_le.mp chunk)) base
      split
      next stopped => exact .error (moved.stop stopped)
      next ran => exact ih _ _ _ _ (moved.get ran)

section
variable {ε σ : Type} {data : InodeDisk} {body : Chunk → σ → Except ε σ} {alloc bounce failed : Bool}
  {rounds size offset done n : Nat} {state state' : σ}

theorem transfer_progress
    (ran : transfer data body alloc rounds size offset done bounce state = .ok (n, failed, state')) :
    done ≤ n ∧ (n = done → state' = state) := by
  induction rounds generalizing size offset done bounce state with
  | zero =>
      cases ran
      exact ⟨Nat.le_refl _, fun _ => rfl⟩
  | succ rounds ih =>
      rw [transfer] at ran
      split at ran
      next =>
        simp only at ran
        split at ran
        next =>
          cases ran
          exact ⟨Nat.le_refl _, fun _ => rfl⟩
        next chunk =>
          split at ran
          next =>
            cases ran
            exact ⟨Nat.le_refl _, fun _ => rfl⟩
          next =>
            split at ran
            next => cases ran
            next =>
              have rest := (ih ran).1
              exact ⟨by omega, fun same => by omega⟩
      next =>
        cases ran
        exact ⟨Nat.le_refl _, fun _ => rfl⟩

theorem transfer_granted
    (ran : transfer data body true rounds size offset done bounce state = .ok (n, failed, state')) :
    failed = false := by
  induction rounds generalizing size offset done bounce state with
  | zero =>
      cases ran
      rfl
  | succ rounds ih =>
      rw [transfer] at ran
      split at ran
      next =>
        simp only at ran
        split at ran
        next =>
          cases ran
          rfl
        next =>
          split at ran
          next none => exact absurd trivial none.2.2
          next =>
            split at ran
            next => cases ran
            next => exact ih ran
      next =>
        cases ran
        rfl

/-- Without a bounce buffer, a transfer from the start of a sector moves the whole sectors. -/
theorem transfer_wholes (aligned : offset % sectorSize = 0) (enough : size ≤ rounds)
    (ran : transfer data body false rounds size offset done false state = .ok (n, failed, state')) :
    n = done + sectorSize * (bytesLeft data size offset / sectorSize) := by
  induction rounds generalizing size offset done state with
  | zero =>
      cases ran
      rw [Nat.le_zero.mp enough, bytesLeft, Nat.zero_min, Nat.zero_div, Nat.mul_zero, Nat.add_zero]
  | succ rounds ih =>
      rw [transfer] at ran
      split at ran
      next more =>
        have chunk : (chunkSize data.length size offset).toNat =
            min (bytesLeft data size offset) sectorSize := by
          rw [chunkSize_eq]
          unfold bytesLeft sectorSize at *
          omega
        simp only [chunk] at ran
        split at ran
        next none =>
          cases ran
          have past := (chunkSize_spec data.length size offset more).1.mp none
          rw [bytesLeft, Nat.sub_eq_zero_of_le past, Nat.min_zero, Nat.zero_div, Nat.mul_zero,
            Nat.add_zero]
        next =>
          by_cases whole : sectorSize ≤ bytesLeft data size offset
          · have full : Chunk.full ⟨byteToSector data offset, offset % sectorSize, sectorSize, done⟩ =
                true := decide_eq_true ⟨aligned, rfl⟩
            rw [Nat.min_eq_right whole] at ran
            simp only [full, not_true_eq_false, false_and, if_false, Bool.not_true, Bool.or_false] at ran
            split at ran
            next => cases ran
            next =>
              have rest := ih (by rw [Nat.add_mod_right]; exact aligned)
                (by unfold sectorSize at *; omega) ran
              rw [rest]
              unfold bytesLeft sectorSize at *
              omega
          · have part : Chunk.full ⟨byteToSector data offset, offset % sectorSize,
                bytesLeft data size offset, done⟩ = false :=
              decide_eq_false fun full => whole (Nat.le_of_eq full.2.symm)
            rw [Nat.min_eq_left (by omega)] at ran
            simp only [part, Bool.false_eq_true, not_false_eq_true, and_self, if_true] at ran
            cases ran
            rw [Nat.div_eq_of_lt (Nat.lt_of_not_le whole), Nat.mul_zero, Nat.add_zero]
      next none =>
        cases ran
        rw [Nat.eq_zero_of_not_pos none, bytesLeft, Nat.zero_min, Nat.zero_div, Nat.mul_zero,
          Nat.add_zero]

/-- Without a bounce buffer, a transfer whose first chunk is no full sector does not begin. -/
theorem transfer_denied (part : offset % sectorSize ≠ 0 ∨ size < sectorSize)
    (ran : transfer data body false rounds size offset done false state = .ok (n, failed, state')) :
    n = done := by
  cases rounds with
  | zero =>
      cases ran
      rfl
  | succ rounds =>
      rw [transfer] at ran
      split at ran
      next some =>
        simp only at ran
        split at ran
        next =>
          cases ran
          rfl
        next chunk =>
          split at ran
          next =>
            cases ran
            rfl
          next granted =>
            obtain ⟨_, fits⟩ := chunkSize_spec data.length size offset some
            have most := (fits (by omega)).1
            refine absurd ⟨?_, by decide, by decide⟩ granted
            rw [Chunk.full, decide_eq_true_eq]
            rintro ⟨start, whole⟩
            simp only at start whole
            omega
      next =>
        cases ran
        rfl

/-- What a transfer moves with a bounce buffer, and what it moves without one. -/
def bytesMoved (data : InodeDisk) (alloc : Bool) (size offset : Nat) : Nat :=
  if alloc then bytesLeft data size offset
  else if offset % sectorSize = 0 then sectorSize * (bytesLeft data size offset / sectorSize)
  else 0

theorem transfer_moved (all : n = bytesLeft data size offset ↔ failed = false)
    (ran : transfer data body alloc size size offset 0 false state = .ok (n, failed, state')) :
    n = bytesMoved data alloc size offset ∧ (alloc = true → failed = false) := by
  cases alloc with
  | true => exact ⟨all.mpr (transfer_granted ran), fun _ => transfer_granted ran⟩
  | false =>
      refine ⟨?_, by simp⟩
      simp only [bytesMoved, Bool.false_eq_true, if_false]
      split
      next aligned => rw [transfer_wholes aligned (Nat.le_refl size) ran, Nat.zero_add]
      next inside => exact transfer_denied (.inl inside) ran

theorem transfer_small (small : size < sectorSize)
    (ran : transfer data body alloc rounds size offset done false state = .ok (n, true, state')) :
    n = done := by
  cases alloc with
  | true => cases transfer_granted ran
  | false => exact transfer_denied (.inr small) ran

end

theorem size_of_writeChunk {d d' : Disk} {buffer : Library.Memory} {c : Chunk}
    (h : writeChunk buffer c d = .ok d') : d'.size = d.size := by
  have written {contents : Sector} (h : blockWrite d c.sector contents = .ok d') :
      d'.size = d.size := by
    rw [blockWrite] at h
    split at h
    next => cases h
    next =>
      cases h
      rfl
  rw [writeChunk] at h
  split at h
  next => exact written h
  next =>
    simp only at h
    split at h
    next => cases h
    next => exact written h

theorem size_of_inodeWriteAt {alloc failed : Bool} {buffer : Library.Memory} {n : Nat} {d' : Disk}
    (h : inodeWriteAt d inode alloc buffer size offset = .ok (n, failed, d')) :
    d'.size = d.size := by
  rw [inodeWriteAt] at h
  split at h
  next =>
    cases h
    rfl
  next =>
    exact transfer_invariant (fun x : Disk => x.size = d.size)
      (fun _ _ _ step same => (size_of_writeChunk step).trans same) h rfl

/-- A write of less than a sector is done as far as the file goes, or not at all. -/
theorem inodeWriteAt_small (small : size < sectorSize) {alloc failed : Bool}
    {buffer : Library.Memory} {n : Nat} {d' : Disk}
    (ran : inodeWriteAt d inode alloc buffer size offset = .ok (n, failed, d')) :
    (failed = true → n = 0) ∧ (n = 0 → d' = d) := by
  rw [inodeWriteAt] at ran
  split at ran
  next =>
    cases ran
    exact ⟨fun _ => rfl, fun _ => rfl⟩
  next =>
    refine ⟨fun failed => ?_, (transfer_progress ran).2⟩
    subst failed
    exact transfer_small small ran

/-- A file's sectors refine an array of bytes: reads and writes of any range of it, the
read of a range after a write to it, and the failures, whatever the alignment. -/
theorem inode_refines_bytes (d : Disk) (inode : Inode) (onDisk : OnDisk d inode.data)
    (size offset : Nat) (allocRead allocWrite : Bool) (buffer source : Library.Memory) :
    (∃ n failed buffer', inodeReadAt d inode allocRead buffer size offset =
        .ok (n, failed, buffer') ∧ n ≤ bytesLeft inode.data size offset ∧
      (n = bytesLeft inode.data size offset ↔ failed = false) ∧
      n = bytesMoved inode.data allocRead size offset ∧ (allocRead = true → failed = false) ∧
      (∀ i, i < n → buffer' i = fileBytes d inode.data (offset + i)) ∧
      ∀ i, n ≤ i → buffer' i = buffer i) ∧
    (inode.denyWriteCnt = 0 → ∃ n failed d', inodeWriteAt d inode allocWrite source size offset =
        .ok (n, failed, d') ∧ n ≤ bytesLeft inode.data size offset ∧
      (n = bytesLeft inode.data size offset ↔ failed = false) ∧
      n = bytesMoved inode.data allocWrite size offset ∧ (allocWrite = true → failed = false) ∧
      (∀ i, i < n → fileBytes d' inode.data (offset + i) = source i) ∧
      (∀ pos, pos < offset ∨ offset + n ≤ pos →
        fileBytes d' inode.data pos = fileBytes d inode.data pos) ∧
      (∀ sector, ¬ inode.data.Has sector → d'.sectors sector = d.sectors sector) ∧
      ∃ k failed' buffer', inodeReadAt d' inode allocRead buffer n offset =
        .ok (k, failed', buffer') ∧ (k = n ↔ failed' = false) ∧
        k = bytesMoved inode.data allocRead n offset ∧ (allocRead = true → failed' = false) ∧
        ∀ i, i < k → buffer' i = source i) := by
  refine ⟨?_, fun allowed => ?_⟩
  · obtain ⟨n, failed, ran, most, all⟩ := inodeReadAt_spec onDisk allocRead buffer
    obtain ⟨moved, granted⟩ := transfer_moved all ran
    refine ⟨n, failed, _, ran, most, all, moved, granted, fun i inside => ?_, fun i outside => ?_⟩
    · rw [Memory.copy, if_pos ⟨Nat.zero_le _, by omega⟩, Nat.sub_zero]
    · exact if_neg (by omega)
  · obtain ⟨n, failed, d', ran, written, most, all⟩ :=
      inodeWriteAt_spec onDisk allowed allocWrite source
    have bytes (i : Nat) (inside : i < n) : fileBytes d' inode.data (offset + i) = source i := by
      have range : offset ≤ offset + i ∧ offset + i < offset + n := by omega
      rw [written.bytes, Memory.copy, if_pos range, Nat.zero_add, Nat.add_sub_cancel_left]
    have loop := ran
    rw [inodeWriteAt, if_neg (by omega)] at loop
    obtain ⟨moved, granted⟩ := transfer_moved all loop
    refine ⟨n, failed, d', ran, most, all, moved, granted, bytes, fun pos outside => ?_,
      written.others, ?_⟩
    · rw [written.bytes]
      exact if_neg (by omega)
    · obtain ⟨k, failed', read, bound, whole⟩ := inodeReadAt_spec written.onDisk allocRead buffer
      obtain ⟨moved', granted'⟩ := transfer_moved whole read
      have left : bytesLeft inode.data n offset = n := by
        unfold bytesLeft at *
        omega
      rw [left] at bound whole
      refine ⟨k, failed', _, read, whole, moved', granted', fun i inside => ?_⟩
      rw [Memory.copy, if_pos ⟨Nat.zero_le _, by omega⟩, Nat.sub_zero]
      exact bytes i (by omega)

/-- A write of 1000 bytes at position 300 of a file of 1200 writes its last 900, over a part
of a sector, a full one and a part again, and a read gets them back. -/
theorem inode_refines_bytes_of_three_sectors :
    ∃ d', inodeWriteAt ⟨8, fun _ _ => 7⟩ ⟨1, 1, false, 0, ⟨2, 1200⟩⟩ true (fun _ => 9) 1000 300 =
        .ok (900, false, d') ∧
      (∀ pos, fileBytes d' ⟨2, 1200⟩ pos = if 300 ≤ pos ∧ pos < 1200 then 9 else 7) ∧
      ∃ buffer, inodeReadAt d' ⟨1, 1, false, 0, ⟨2, 1200⟩⟩ true (fun _ => 0) 900 300 =
          .ok (900, false, buffer) ∧ ∀ i, i < 900 → buffer i = 9 := by
  have refines := inode_refines_bytes ⟨8, fun _ _ => 7⟩ ⟨1, 1, false, 0, ⟨2, 1200⟩⟩
    ⟨by decide, by decide⟩ 1000 300 true true (fun _ => 0) fun _ => 9
  obtain ⟨n, failed, d', ran, -, -, moved, granted, bytes, others, -, read⟩ := refines.2 rfl
  have all : n = 900 := moved
  subst all
  cases granted rfl
  obtain ⟨k, failed', buffer, again, -, moved', granted', same⟩ := read
  have whole : k = 900 := moved'
  subst whole
  cases granted' rfl
  refine ⟨d', ran, fun pos => ?_, buffer, again, same⟩
  split
  next inside =>
    have byte := bytes (pos - 300) (Nat.sub_lt_right_of_lt_add inside.1 inside.2)
    rwa [Nat.add_sub_cancel' inside.1] at byte
  next outside =>
    refine (others pos ?_).trans rfl
    by_contra between
    exact outside ⟨by omega, by omega⟩

end
end CS162.Pintos
