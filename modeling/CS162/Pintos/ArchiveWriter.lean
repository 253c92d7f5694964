import CS162.Library.Outcome
import CS162.Pintos.Archive
import CS162.Pintos.UstarHeader

/-!
What `fsutil_append` leaves on the scratch device: the file, from the position of the writer
on, and the end marker behind it. What lies in front of the position stays. With memory it
stops only if there is no such file, if its name is too long or if the device is full.
-/

namespace CS162.Pintos.Archive
open CS162.Library CS162.Pintos.FileSystem
open CS162.Pintos.Ustar (ustarMakeHeader ustarParseHeader stripAntisocialPrefixes isAllZeros
  ustarHeaderSize)

theorem chunkSize_min (size : Nat) :
    (if size > sectorSize then sectorSize else size) = min size sectorSize := by
  split
  next big => exact (Nat.min_eq_right (Nat.le_of_lt big)).symm
  next small => exact (Nat.min_eq_left (Nat.not_lt.mp small)).symm

theorem bytesToSectors_pos {size : Nat} (pos : size > 0) :
    bytesToSectors size = 1 + bytesToSectors (size - min size sectorSize) := by
  simp only [bytesToSectors, sectorSize]
  omega

/-- The device with one sector written. -/
def withSector (d : Disk) (sector : Nat) (contents : Sector) : Disk :=
  { d with sectors := Function.update d.sectors sector contents }

@[simp] theorem withSector_size (d : Disk) (sector : Nat) (contents : Sector) :
    (withSector d sector contents).size = d.size := rfl

@[simp] theorem withSector_sectors (d : Disk) (sector : Nat) (contents : Sector) (r : Nat) :
    (withSector d sector contents).sectors r = if r = sector then contents else d.sectors r :=
  Function.update_apply ..

theorem blockWrite_eq {d : Disk} {sector : Nat} (inside : sector < d.size) (contents : Sector) :
    blockWrite d sector contents = .ok (withSector d sector contents) := if_neg (Nat.not_le.mpr inside)

theorem blockWrite_full {d : Disk} {sector : Nat} {contents : Sector} (outside : d.size ≤ sector) :
    blockWrite d sector contents = .error .pastEndOfDevice := if_pos outside

section Writer
variable {w w' : Archiver} {bytes buffer : Library.Memory} {ofs size rounds : Nat} {i : Inode}
  {src : File} {fileName : List UInt8}

/-- `size` bytes were copied to the scratch device. -/
structure Copied (w w' : Archiver) (bytes : Library.Memory) (ofs size : Nat) : Prop where
  asked : Asked w.fs w'.fs
  sizes : w'.scratch.size = w.scratch.size
  sector : w'.sector = w.sector + bytesToSectors size
  before : ∀ r < w.sector, w'.scratch.sectors r = w.scratch.sectors r
  bytes : ∀ pos < size, fileBytes w'.scratch ⟨w.sector, size⟩ pos = bytes (ofs + pos)

theorem writeNext_eq (inside : w.sector < w.scratch.size) (buffer : Library.Memory) :
    w.writeNext buffer = .ok ⟨w.fs, withSector w.scratch w.sector buffer, w.sector + 1⟩ := by
  simp only [Archiver.writeNext, blockWrite_eq inside, onScratch, bind, Except.bind]
  rfl

theorem writeEnd_eq (inside : w.sector + 1 < w.scratch.size) (buffer : Library.Memory) :
    w.writeEnd buffer = .ok { w with
      scratch := withSector (withSector w.scratch w.sector (buffer.fill 0 sectorSize 0)) (w.sector + 1)
        (buffer.fill 0 sectorSize 0) } := by
  have second : w.sector + 1 < (withSector w.scratch w.sector (buffer.fill 0 sectorSize 0)).size := inside
  simp only [Archiver.writeEnd, blockWrite_eq (Nat.lt_of_succ_lt inside), blockWrite_eq second, onScratch,
    bind, Except.bind]
  rfl

theorem writeEnd_full (outside : w.scratch.size ≤ w.sector + 1) (buffer : Library.Memory) :
    ∃ stop, w.writeEnd buffer = .error stop := by
  simp only [Archiver.writeEnd, bind, Except.bind]
  by_cases first : w.sector < w.scratch.size
  case neg =>
    simp only [blockWrite_full (Nat.not_lt.mp first), onScratch]
    exact ⟨_, rfl⟩
  have second : (withSector w.scratch w.sector (buffer.fill 0 sectorSize 0)).size ≤ w.sector + 1 := outside
  simp only [blockWrite_eq first, blockWrite_full second, onScratch]
  exact ⟨_, rfl⟩

theorem Copied.none (w : Archiver) (bytes : Library.Memory) (ofs : Nat) : Copied w w bytes ofs 0 :=
  ⟨Asked.refl w.fs, rfl, rfl, fun _ _ => rfl, fun _ no => absurd no (Nat.not_lt_zero _)⟩

theorem Copied.next {w₁ : Archiver} {chunk : Nat} (asked : Asked w.fs w₁.fs) (pos : size > 0)
    (step : chunk = min size sectorSize)
    (scratch : w₁.scratch = withSector w.scratch w.sector buffer) (sector : w₁.sector = w.sector + 1)
    (first : ∀ x < chunk, buffer x = bytes (ofs + x))
    (rest : Copied w₁ w' bytes (ofs + chunk) (size - chunk)) : Copied w w' bytes ofs size := by
  constructor
  case asked => exact asked.trans rest.asked
  case sizes => rw [rest.sizes, scratch, withSector_size]
  case sector => rw [rest.sector, sector, bytesToSectors_pos pos, ← step, Nat.add_assoc]
  case before =>
    intro r below
    rw [rest.before r (by omega), scratch, withSector_sectors, if_neg (Nat.ne_of_lt below)]
  case bytes =>
    intro x inside
    have small : chunk ≤ sectorSize := step ▸ Nat.min_le_right ..
    by_cases here : x < chunk
    · -- The sector that was just written; the later ones lie behind it.
      have begins : x / sectorSize = 0 := Nat.div_eq_of_lt (by omega)
      have mod : x % sectorSize = x := Nat.mod_eq_of_lt (by omega)
      have written : w'.scratch.sectors w.sector = buffer := by
        rw [rest.before _ (by omega), scratch, withSector_sectors, if_pos rfl]
      rw [fileBytes, begins, mod, Nat.add_zero, written]
      exact first x here
    · have full : chunk = sectorSize := by omega
      have later := rest.bytes (x - chunk) (by omega)
      rw [Nat.add_assoc, Nat.add_sub_cancel' (Nat.not_lt.mp here)] at later
      rw [← later, fileBytes, fileBytes, sector, full]
      have next : w.sector + x / sectorSize = w.sector + 1 + (x - sectorSize) / sectorSize := by
        simp only [sectorSize] at *
        omega
      have same : x % sectorSize = (x - sectorSize) % sectorSize := by
        simp only [sectorSize] at *
        omega
      simp only [next, same]

/-- The loop copies the rest of the file, unless it runs out of memory or of space. -/
theorem appendData_spec (fileName : List UInt8) (buffer : Library.Memory)
    (found : w.fs.inodes src.inode = some i) (onDisk : OnDisk w.fs.device i.data)
    (enough : size ≤ rounds) :
    Ends (fun _ => ¬ (Granted w.fs ∧ src.pos + size ≤ i.data.length ∧
        w.sector + bytesToSectors size ≤ w.scratch.size))
      (fun r => Copied w r.2 (fileBytes w.fs.device i.data) src.pos size ∧
        (Granted w.fs → Granted r.2.fs))
      (appendData fileName rounds size src buffer w) := by
  induction rounds generalizing size src buffer w with
  | zero =>
      cases Nat.le_zero.mp enough
      exact .ok ⟨Copied.none w _ _, id⟩
  | succ rounds ih =>
      rw [appendData]
      split
      next pos =>
        have sectors := bytesToSectors_pos pos
        rw [chunkSize_min]
        generalize step : min size sectorSize = chunk at sectors ⊢
        have bounds : 0 < chunk ∧ chunk ≤ size := by
          simp only [sectorSize] at step
          omega
        apply Ends.ite
        · intro full
          refine .error fun all => ?_
          have room := all.2.2
          omega
        intro free
        have free := Nat.not_le.mp free
        obtain ⟨n, ran, most⟩ := readAt_spec found onDisk buffer chunk src.pos
        simp only [fileRead, ran, bind, Except.bind, pure, Except.pure, inFileSystem]
        apply Ends.ite
        · intro short
          refine .error fun all => short ?_
          obtain ⟨granted, whole, _⟩ := all
          have all := ran.symm.trans (readAt_granted granted.first found onDisk buffer chunk src.pos)
          cases all
          exact Nat.min_eq_left (by omega)
        intro all
        have all : n = chunk := not_not.mp all
        subst all
        generalize read : (buffer.copy 0 _ src.pos n).fill n (sectorSize - n) 0 = buffer'
        rw [writeNext_eq (w := ⟨w.fs.malloc.2, w.scratch, w.sector⟩) free]
        let src' : File := { src with pos := src.pos + n }
        let w₁ : Archiver := ⟨w.fs.malloc.2, withSector w.scratch w.sector buffer', w.sector + 1⟩
        have found₁ : w₁.fs.inodes src'.inode = some i := found
        have onDisk₁ : OnDisk w₁.fs.device i.data := onDisk
        have fewer : size - n ≤ rounds := by omega
        refine (ih buffer' found₁ onDisk₁ fewer).imp ?_ ?_
        · intro _ stuck all
          obtain ⟨granted, whole, room⟩ := all
          refine stuck ⟨granted.malloc, ?_, ?_⟩
          · show src.pos + n + (size - n) ≤ i.data.length
            omega
          · show w.sector + 1 + bytesToSectors (size - n) ≤ w.scratch.size
            omega
        · intro r copied
          obtain ⟨rest, memory⟩ := copied
          refine ⟨?_, fun granted => memory granted.malloc⟩
          have copied (x : Nat) (inside : x < n) :
              buffer' x = fileBytes w.fs.device i.data (src.pos + x) := by
            rw [← read, Memory.fill, if_neg (by omega), Memory.copy, if_pos (by omega), Nat.sub_zero]
          exact Copied.next (Asked.malloc w.fs) pos step.symm rfl rfl copied rest
      next none =>
        cases Nat.eq_zero_of_not_pos none
        exact .ok ⟨Copied.none w _ _, id⟩

/-- A file lies on the device from a sector on. -/
structure StoredAt (d : Disk) (sector : Nat) (f : Archived) : Prop where
  header : ustarParseHeader (d.sectors sector) = .ok ⟨some f.fileName, .regular, f.size⟩
  bytes : f.bytes = (fileBytes d ⟨sector + 1, f.size⟩).readBytes 0 f.size
  fits : sector + f.sectors ≤ d.size

/-- A file was put behind the others, with the end marker behind it. -/
structure Appended (w w' : Archiver) (f : Archived) : Prop where
  stored : StoredAt w'.scratch w.sector f
  sector : w'.sector = w.sector + f.sectors
  sizes : w'.scratch.size = w.scratch.size
  before : ∀ r < w.sector, w'.scratch.sectors r = w.scratch.sectors r
  ended : isAllZeros (w'.scratch.sectors w'.sector) ustarHeaderSize = true
  room : w'.sector < w'.scratch.size

theorem isAllZeros_fill (buffer : Library.Memory) :
    isAllZeros (buffer.fill 0 sectorSize 0) ustarHeaderSize = true := by
  apply List.all_eq_true.mpr
  intro x inside
  rw [Memory.fill_apply (Nat.zero_le x)]
  · rfl
  · have inside : x < ustarHeaderSize := List.mem_range.mp inside
    simpa [ustarHeaderSize, sectorSize] using inside

theorem Copied.appended {w₁ w₂ : Archiver} {header zeros : Library.Memory} {f : Archived}
    (parsed : ustarParseHeader header = .ok ⟨some f.fileName, .regular, f.size⟩)
    (whole : f.bytes = bytes.readBytes 0 f.size)
    (first : w₁.scratch = withSector w.scratch w.sector header) (next : w₁.sector = w.sector + 1)
    (copied : Copied w₁ w₂ bytes 0 f.size) (room : w₂.sector + 1 < w₂.scratch.size)
    (zero : isAllZeros zeros ustarHeaderSize = true)
    (scratch : w'.scratch = withSector (withSector w₂.scratch w₂.sector zeros) (w₂.sector + 1) zeros)
    (sector : w'.sector = w₂.sector) : Appended w w' f := by
  have place := copied.sector
  rw [next] at place
  have size : w'.scratch.size = w₂.scratch.size := by
    rw [scratch, withSector_size, withSector_size]
  have kept (r : Nat) (below : r < w₂.sector) : w'.scratch.sectors r = w₂.scratch.sectors r := by
    rw [scratch, withSector_sectors, withSector_sectors, if_neg (by omega), if_neg (by omega)]
  have early (r : Nat) (below : r ≤ w.sector) :
      w'.scratch.sectors r = if r = w.sector then header else w.scratch.sectors r := by
    rw [kept r (by omega), copied.before r (by omega), first, withSector_sectors]
  constructor
  case stored =>
    constructor
    case header => rw [early w.sector (Nat.le_refl _), if_pos rfl, parsed]
    case bytes =>
      rw [whole]
      apply (Memory.readBytes_congr _).symm
      intro x _ inside
      rw [Nat.zero_add] at inside
      have data := copied.bytes x inside
      rw [next, Nat.zero_add] at data
      rw [← data]
      apply fileBytes_congr _ inside
      intro r has
      apply kept
      simp only [InodeDisk.Has] at has
      omega
    case fits =>
      simp only [Archived.sectors]
      omega
  case sector => rw [sector, place, Archived.sectors, Nat.add_assoc]
  case sizes => rw [size, copied.sizes, first, withSector_size]
  case before =>
    intro r below
    rw [early r (Nat.le_of_lt below), if_neg (Nat.ne_of_lt below)]
  case ended =>
    rw [sector, scratch, withSector_sectors, withSector_sectors, if_neg (by omega), if_pos rfl, zero]
  case room => omega

/-- What `fsutil_append` does. With memory it stops only for a name that the file system does
not have or that is too long, or if the scratch device is full. -/
theorem fsutilAppend_spec {openers : List Nat} (h : Sound w.fs openers)
    (text : (0 : UInt8) ∉ fileName) :
    Ends (fun _ => ¬ (Granted w.fs ∧ ∃ f, archived w.fs.device fileName = some f ∧
        f.fileName.length ≤ 99 ∧ w.sector + f.sectors + 2 ≤ w.scratch.size))
      (fun w' => ∃ f, archived w.fs.device fileName = some f ∧ Appended w w' f ∧
        Sound w'.fs openers ∧ Follows w.fs w'.fs)
      (fsutilAppend w fileName) := by
  rw [fsutilAppend]
  cases memory : w.fs.malloc.1 with
  | false =>
      simp only [memory, Bool.false_eq_true, if_false]
      exact .error fun all => absurd (all.1.first.symm.trans memory) (by decide)
  | true =>
      simp only [memory, if_true]
      obtain ⟨src, s₁, opened, _, follows₁, sound₁⟩ := filesysOpen_spec h.malloc fileName
      simp only [opened, inFileSystem, bind, Except.bind]
      cases src with
      | none =>
          refine .error fun all => ?_
          obtain ⟨granted, f, named, _⟩ := all
          have some : fileNamed w.fs.device fileName ≠ none := by
            intro none
            rw [archived, none] at named
            cases named
          obtain ⟨f, s', ran, _⟩ := filesysOpen_granted h.malloc granted.malloc some
          cases ran.symm.trans opened
      | some src =>
          obtain ⟨start, device, i, found, named⟩ := filesysOpen_named h.malloc opened
          have device : s₁.device = w.fs.device := device
          obtain ⟨sound₁, file₁⟩ := sound₁
          have onDisk := sound₁.onDisk found
          have data := (sound₁.cached _ i found).1
          let f : Archived := ⟨stripAntisocialPrefixes fileName, i.data.length,
            (fileBytes s₁.device i.data).readBytes 0 i.data.length⟩
          have file : archived w.fs.device fileName = some f := by
            have named : fileNamed w.fs.device fileName = some i.sector := named
            rw [archived, named, Option.map_some, ← device, ← data]
          have fits : i.data.length < 2 ^ 31 := by
            have small : s₁.device.size ≤ 2 ^ 21 := sound₁.layout.device
            have inside := onDisk.fits
            simp only [bytesToSectors, sectorSize] at inside
            omega
          simp only [fileLength, inode_eq found, bind, Except.bind, pure, Except.pure]
          cases made : ustarMakeHeader fileName .regular i.data.length s₁.junk with
          | none =>
              refine .error fun all => ?_
              obtain ⟨_, f', named', short, _⟩ := all
              cases file.symm.trans named'
              obtain ⟨header, made', _⟩ := Ustar.ustarMakeHeader_filled .regular short fits s₁.junk
              cases made.symm.trans made'
          | some header =>
              have short : (stripAntisocialPrefixes fileName).length ≤ 99 := by
                by_contra long
                rw [ustarMakeHeader, if_pos (Nat.lt_of_not_le long)] at made
                cases made
              obtain ⟨header', made', filled⟩ := Ustar.ustarMakeHeader_filled .regular short fits s₁.junk
              cases made.symm.trans made'
              have parsed := Ustar.ustarParseHeader_of_filled filled (Ustar.zero_notMem_strip text)
                (by decide) fits
              rw [Ustar.strip_strip, if_pos rfl] at parsed
              by_cases first : w.sector < w.scratch.size
              case neg =>
                simp only [Archiver.writeNext, blockWrite_full (Nat.not_lt.mp first), onScratch, bind,
                  Except.bind]
                refine .error fun all => ?_
                obtain ⟨_, f', _, _, room⟩ := all
                exact absurd room (by omega)
              simp only [writeNext_eq (w := ⟨s₁, w.scratch, w.sector⟩) first]
              let w₁ : Archiver := ⟨s₁, withSector w.scratch w.sector header, w.sector + 1⟩
              have found₁ : w₁.fs.inodes src.inode = Option.some i := found
              have spec := appendData_spec fileName header found₁ onDisk (Nat.le_refl i.data.length)
              generalize appendData fileName _ _ src header w₁ = result at spec ⊢
              cases spec with
              | error stuck =>
                  refine .error fun all => ?_
                  obtain ⟨granted, f', named', _, room⟩ := all
                  refine stuck ⟨?_, ?_, ?_⟩
                  · have some : fileNamed w.fs.malloc.2.device fileName ≠ none :=
                      named ▸ Option.some_ne_none _
                    obtain ⟨_, s', ran, granted'⟩ := filesysOpen_granted h.malloc granted.malloc some
                    cases ran.symm.trans opened
                    exact granted'
                  · rw [start, Nat.zero_add]
                  · cases file.symm.trans named'
                    simp only [Archived.sectors, f] at room
                    simp only [w₁, withSector_size]
                    omega
              | @ok result done =>
                  obtain ⟨buffer, w₂⟩ := result
                  obtain ⟨copied, _⟩ := done
                  rw [start] at copied
                  have place : w₂.sector = w.sector + 1 + bytesToSectors i.data.length := copied.sector
                  have size : w₂.scratch.size = w.scratch.size := copied.sizes
                  by_cases second : w₂.sector + 1 < w₂.scratch.size
                  case neg =>
                    obtain ⟨stop, full⟩ := writeEnd_full (Nat.not_lt.mp second) buffer
                    simp only [full]
                    refine .error fun all => ?_
                    obtain ⟨_, f', named', _, room⟩ := all
                    cases file.symm.trans named'
                    simp only [Archived.sectors, f] at room
                    omega
                  have sound₂ := copied.asked.sound sound₁
                  have file₂ : FileAt w₂.fs src.inode := by
                    rw [FileAt, copied.asked.inodes]
                    exact file₁
                  obtain ⟨s₃, closed, sound₃, _, follows₃⟩ := closeFile sound₂ file₂
                  rw [List.erase_cons_head] at sound₃
                  have closed : w₂.fs.fileClose (Option.some src) = .ok s₃ := closed
                  simp only [writeEnd_eq second, closed]
                  refine .ok ⟨f, file, ?_, sound₃, ?_⟩
                  · exact copied.appended parsed rfl rfl rfl second (isAllZeros_fill buffer) rfl rfl
                  · exact ((Kept.malloc w.fs).follows.trans follows₁).trans
                      (copied.asked.toKept.follows.trans follows₃)

end Writer
end CS162.Pintos.Archive
