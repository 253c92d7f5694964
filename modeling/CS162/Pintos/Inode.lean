import CS162.Library.ByteMemory
import CS162.Pintos.Paging

/-!
The sectors of a file and reads and writes of its bytes (Pintos: block.c and
inode.c). The files are the same in hw-memory and in the group project.

The two loops of `inode_read_at` and `inode_write_at` split a range of the file into
chunks of one sector each in the same way; they are one loop over what is done with a
chunk. A sector holds the bytes below `sectorSize`. Positions and sizes are `off_t`
numbers that are not negative, so a position in a file is the position of a byte.
-/

namespace CS162.Pintos
open CS162.Library

/-- `BLOCK_SECTOR_SIZE` -/
def sectorSize : Nat := 512

abbrev Sector := Library.Memory

structure Disk where
  size : Nat
  sectors : Nat → Sector

def blockRead (d : Disk) (sector : Nat) : Except Fault Sector :=
  if sector ≥ d.size then .error .pastEndOfDevice else .ok (d.sectors sector)

def blockWrite (d : Disk) (sector : Nat) (contents : Sector) : Except Fault Disk :=
  if sector ≥ d.size then .error .pastEndOfDevice
  else .ok { d with sectors := Function.update d.sectors sector contents }

/-- `struct inode_disk` -/
structure InodeDisk where
  start : Nat
  length : Nat

/-- `struct inode` -/
structure Inode where
  sector : Nat
  openCnt : Nat
  removed : Bool
  denyWriteCnt : Nat
  data : InodeDisk

def bytesToSectors (size : Nat) : Nat := (size + sectorSize - 1) / sectorSize

def byteToSector (data : InodeDisk) (pos : Nat) : Nat :=
  if pos < data.length then (data.start + pos / sectorSize) % 2 ^ 32 else 2 ^ 32 - 1

def chunkSize (length size offset : Nat) : Int :=
  let sectorOfs := offset % sectorSize
  let inodeLeft : Int := length - offset
  let sectorLeft : Int := sectorSize - sectorOfs
  let minLeft := if inodeLeft < sectorLeft then inodeLeft else sectorLeft
  if size < minLeft then size else minLeft

theorem chunkSize_eq (length size offset : Nat) :
    chunkSize length size offset =
      min (size : Int) (min (length - offset) (sectorSize - offset % sectorSize : Nat)) := by
  unfold chunkSize sectorSize
  simp only
  split <;> split <;> omega

theorem chunkSize_spec (length size offset : Nat) (some : 0 < size) :
    (chunkSize length size offset ≤ 0 ↔ length ≤ offset) ∧
      (0 < chunkSize length size offset → (chunkSize length size offset).toNat ≤ size ∧
        offset % sectorSize + (chunkSize length size offset).toNat ≤ sectorSize ∧
        offset + (chunkSize length size offset).toNat ≤ length) := by
  rw [chunkSize_eq]
  unfold sectorSize
  omega

/-- What one round of the loops transfers: `size` bytes at `sectorOfs` of a sector, and
at `done` of the caller's buffer. -/
structure Chunk where
  sector : Nat
  sectorOfs : Nat
  size : Nat
  done : Nat

/-- The chunk is a full sector, which needs no bounce buffer. -/
def Chunk.full (c : Chunk) : Bool := c.sectorOfs = 0 ∧ c.size = sectorSize

/-- The loop of `inode_read_at` and `inode_write_at`, which takes at most a round for
each byte. `alloc` says whether `malloc` has a bounce buffer and `bounce` whether there
is one already. The result is the number of bytes, and whether an allocation failed. -/
def transfer {ε σ : Type} (data : InodeDisk) (body : Chunk → σ → Except ε σ) (alloc : Bool) :
    (rounds size offset done : Nat) → (bounce : Bool) → σ → Except ε (Nat × Bool × σ)
  | 0, _, _, done, _, state => .ok (done, false, state)
  | rounds + 1, size, offset, done, bounce, state =>
      if size > 0 then
        let chunk := chunkSize data.length size offset
        if chunk ≤ 0 then .ok (done, false, state)
        else
          let c := {
            sector := byteToSector data offset
            sectorOfs := offset % sectorSize
            size := chunk.toNat
            done := done : Chunk }
          if ¬ c.full ∧ ¬ bounce ∧ ¬ alloc then .ok (done, true, state)
          else
            match body c state with
            | .error e => .error e
            | .ok state =>
                transfer data body alloc rounds (size - c.size) (offset + c.size) (done + c.size)
                  (bounce || !c.full) state
      else .ok (done, false, state)

/-- The body of the loop of `inode_read_at`: the sector goes into the caller's buffer,
or a part of it by way of the bounce buffer. -/
def readChunk (d : Disk) (c : Chunk) (buffer : Library.Memory) : Except Fault Library.Memory :=
  match blockRead d c.sector with
  | .error fault => .error fault
  | .ok contents =>
      if c.full then .ok (buffer.copy c.done contents 0 sectorSize)
      else .ok (buffer.copy c.done contents c.sectorOfs c.size)

def inodeReadAt (d : Disk) (inode : Inode) (alloc : Bool) (buffer : Library.Memory)
    (size offset : Nat) : Except Fault (Nat × Bool × Library.Memory) :=
  transfer inode.data (readChunk d) alloc size size offset 0 false buffer

/-- The body of the loop of `inode_write_at`. -/
def writeChunk (buffer : Library.Memory) (c : Chunk) (d : Disk) : Except Fault Disk :=
  if c.full then blockWrite d c.sector (fun i => buffer (c.done + i))
  else
    let sectorLeft := sectorSize - c.sectorOfs
    let bounce :=
      if c.sectorOfs > 0 ∨ c.size < sectorLeft then blockRead d c.sector else .ok fun _ => 0
    match bounce with
    | .error fault => .error fault
    | .ok contents => blockWrite d c.sector (contents.copy c.sectorOfs buffer c.done c.size)

def inodeWriteAt (d : Disk) (inode : Inode) (alloc : Bool) (buffer : Library.Memory)
    (size offset : Nat) : Except Fault (Nat × Bool × Disk) :=
  if inode.denyWriteCnt ≠ 0 then .ok (0, false, d)
  else transfer inode.data (writeChunk buffer) alloc size size offset 0 false d

end CS162.Pintos
