import CS162.Library.Tiling
import CS162.Pintos.ArchiveWriter

/-!
What was appended is read back. The appended files tile the scratch device from its first
sector up to the writer's position, where the end marker stands, and the loop of
`fsutil_extract` goes from one header to the next.
-/

namespace CS162.Pintos.Archive
open CS162.Library CS162.Pintos.FileSystem
open CS162.Pintos.Ustar (ustarParseHeader isAllZeros ustarHeaderSize)

section Reader
variable {d d' : Disk} {f : Archived} {files : List Archived} {sector size rounds : Nat}

theorem StoredAt.congr (h : StoredAt d sector f) (sizes : d'.size = d.size)
    (same : ∀ r < sector + f.sectors, d'.sectors r = d.sectors r) : StoredAt d' sector f := by
  simp only [Archived.sectors] at same
  constructor
  case header => rw [same sector (by omega), h.header]
  case bytes =>
    rw [h.bytes]
    apply (Memory.readBytes_congr _).symm
    intro x _ inside
    rw [Nat.zero_add] at inside
    apply fileBytes_congr _ inside
    intro r has
    apply same
    simp only [InodeDisk.Has] at has
    omega
  case fits => exact sizes ▸ h.fits

theorem readBytes_sectors (d : Disk) (sector size : Nat) :
    (fileBytes d ⟨sector, size⟩).readBytes 0 size =
      (d.sectors sector).readBytes 0 (min size sectorSize) ++
        (fileBytes d ⟨sector + 1, size - min size sectorSize⟩).readBytes 0
          (size - min size sectorSize) := by
  generalize step : min size sectorSize = chunk
  have split : size = chunk + (size - chunk) := by omega
  have first : (fileBytes d ⟨sector, size⟩).readBytes 0 chunk = (d.sectors sector).readBytes 0 chunk := by
    apply Memory.readBytes_congr
    intro x _ inside
    have begins : x / sectorSize = 0 := Nat.div_eq_of_lt (by omega)
    have mod : x % sectorSize = x := Nat.mod_eq_of_lt (by omega)
    rw [fileBytes, begins, mod]
    rfl
  have rest : (fileBytes d ⟨sector, size⟩).readBytes chunk (size - chunk) =
      (fileBytes d ⟨sector + 1, size - chunk⟩).readBytes 0 (size - chunk) := by
    apply Memory.readBytes_shift
    intro x inside
    have full : chunk = sectorSize := by omega
    have next : (chunk + x) / sectorSize = 1 + x / sectorSize := by
      simp only [full, sectorSize]
      omega
    have mod : (chunk + x) % sectorSize = x % sectorSize := by
      rw [full]
      exact Nat.add_mod_left ..
    rw [fileBytes, fileBytes, next, mod, Nat.zero_add, Nat.add_assoc]
  conv =>
    lhs
    arg 3
    rw [split]
  rw [Memory.readBytes_add, first, Nat.zero_add, rest]

theorem extractData_list (files : List Archived) (f : Archived) (fileName : List UInt8)
    (enough : size ≤ rounds) (fits : sector + bytesToSectors size ≤ d.size) :
    extractData intoList d fileName rounds sector size (files, f) =
      .ok (sector + bytesToSectors size, files,
        { f with bytes := f.bytes ++ (fileBytes d ⟨sector, size⟩).readBytes 0 size }) := by
  induction rounds generalizing sector size f with
  | zero =>
      cases Nat.le_zero.mp enough
      rw [extractData, Memory.readBytes, List.append_nil]
      rfl
  | succ rounds ih =>
      rw [extractData]
      split
      next pos =>
        have sectors := bytesToSectors_pos pos
        have bytes := readBytes_sectors d sector size
        rw [chunkSize_min]
        generalize step : min size sectorSize = chunk at sectors bytes ⊢
        have read : blockRead d sector = .ok (d.sectors sector) := if_neg (by omega)
        have few : size - chunk ≤ rounds := by
          simp only [sectorSize] at step
          omega
        simp only [read, onScratch, intoList, bind, Except.bind]
        refine (ih _ few (by omega)).trans ?_
        rw [bytes, sectors, ← List.append_assoc, Nat.add_assoc]
      next none =>
        cases Nat.eq_zero_of_not_pos none
        rw [Memory.readBytes, List.append_nil]
        rfl

/-- Where a file of an archive ends. -/
def stop (p : Nat × Archived) : Nat := p.1 + p.2.sectors

theorem extractFrom_list (files : List Archived) {pieces : List (Nat × Archived)} {last : Nat}
    (tiles : Tiles Prod.fst stop sector pieces last) (stored : ∀ p ∈ pieces, StoredAt d p.1 p.2)
    (ended : isAllZeros (d.sectors last) ustarHeaderSize = true) (room : last < d.size)
    (enough : pieces.length < rounds) :
    extractFrom intoList d rounds sector files = .ok (last + 1, files ++ pieces.map Prod.snd) := by
  induction pieces generalizing sector files rounds with
  | nil =>
      obtain ⟨rounds, rfl⟩ : ∃ n, rounds = n + 1 := ⟨rounds - 1, by omega⟩
      have tiles : sector = last := tiles
      subst tiles
      have read : blockRead d sector = .ok (d.sectors sector) := if_neg (Nat.not_le.mpr room)
      have header : ustarParseHeader (d.sectors sector) = .ok ⟨none, .eof, 0⟩ := by
        simp only [ustarParseHeader, ended, if_true]
      simp only [extractFrom, read, onScratch, header, parsed, bind, Except.bind, List.map_nil,
        List.append_nil]
      rfl
  | cons p pieces ih =>
      obtain ⟨rounds, rfl⟩ : ∃ n, rounds = n + 1 := ⟨rounds - 1, by omega⟩
      obtain ⟨k, f⟩ := p
      obtain ⟨start, _, rest⟩ := tiles
      have start : k = sector := start
      subst start
      have here := stored (k, f) List.mem_cons_self
      have fits := here.fits
      simp only [Archived.sectors] at fits
      have read : blockRead d k = .ok (d.sectors k) := if_neg (by omega)
      have inside : k + 1 + bytesToSectors f.size ≤ d.size := by omega
      have data := extractData_list files ⟨f.fileName, f.size, []⟩ f.fileName (Nat.le_refl f.size) inside
      rw [List.nil_append, ← here.bytes] at data
      have next := ih (files ++ [f]) rest (fun p mem => stored p (List.mem_cons_of_mem _ mem))
        (Nat.lt_of_succ_lt_succ enough)
      have stop : stop (k, f) = k + 1 + bytesToSectors f.size := (Nat.add_assoc ..).symm
      rw [stop, List.append_assoc] at next
      have create : intoList.create f.fileName f.size files = .ok (files, ⟨f.fileName, f.size, []⟩) := rfl
      have close : intoList.close (files, f) = .ok (files ++ [f]) := rfl
      simp only [extractFrom, read, onScratch, here.header, parsed, bind, Except.bind, Option.getD_some,
        create, data, close]
      exact next

section Sinks
variable {σ τ : Type} {sink : Sink σ τ} {last : Nat}

theorem extractData_intoList {fileName : List UInt8} {dst dst' : τ}
    (ran : extractData sink d fileName rounds sector size dst = .ok (last, dst'))
    (files : List Archived) (f : Archived) :
    ∃ f', extractData intoList d fileName rounds sector size (files, f) = .ok (last, files, f') := by
  induction rounds generalizing sector size dst f with
  | zero =>
      cases ran
      exact ⟨f, rfl⟩
  | succ rounds ih =>
      rw [extractData] at ran ⊢
      split at ran
      next pos =>
        simp only [if_pos pos]
        obtain ⟨data, read, ran⟩ := bind_eq_ok ran
        obtain ⟨dst₁, _, rest⟩ := bind_eq_ok ran
        simp only [read, bind, Except.bind]
        exact ih rest _
      next none =>
        simp only [if_neg none]
        cases ran
        exact ⟨f, rfl⟩

theorem extractFrom_intoList {state state' : σ}
    (ran : extractFrom sink d rounds sector state = .ok (last, state')) (files : List Archived) :
    ∃ files', extractFrom intoList d rounds sector files = .ok (last, files') := by
  induction rounds generalizing sector state files with
  | zero => cases ran
  | succ rounds ih =>
      rw [extractFrom] at ran ⊢
      obtain ⟨header, read, ran⟩ := bind_eq_ok ran
      obtain ⟨entry, accepted, ran⟩ := bind_eq_ok ran
      simp only [read, accepted, bind, Except.bind]
      cases type : entry.type with
      | eof =>
          simp only [type] at ran
          cases ran
          exact ⟨files, rfl⟩
      | directory =>
          simp only [type] at ran
          exact ih ran files
      | regular =>
          simp only [type] at ran
          obtain ⟨dst, _, ran⟩ := bind_eq_ok ran
          obtain ⟨⟨next, dst'⟩, data, ran⟩ := bind_eq_ok ran
          obtain ⟨state, _, ran⟩ := bind_eq_ok ran
          obtain ⟨f, copied⟩ := extractData_intoList data files ⟨entry.fileName.getD [], entry.size, []⟩
          obtain ⟨files', rest⟩ := ih ran (files ++ [f])
          refine ⟨files', ?_⟩
          have create : intoList.create (entry.fileName.getD []) entry.size files =
              .ok (files, ⟨entry.fileName.getD [], entry.size, []⟩) := rfl
          have close : intoList.close (files, f) = .ok (files ++ [f]) := rfl
          simp only [create, copied, close]
          exact rest

end Sinks
end Reader

section Law

structure Inv (w : Session) : Prop where
  kempt : ∃ m, Kempt w.callers m
  pieces : ∃ pieces : List (Nat × Archived), Tiles Prod.fst stop 0 pieces w.sector ∧
    pieces.map Prod.snd = w.appended ∧ ∀ p ∈ pieces, StoredAt w.scratch p.1 p.2
  ended : w.appended ≠ [] → w.sector < w.scratch.size ∧
    isAllZeros (w.scratch.sectors w.sector) ustarHeaderSize = true

/-- What is on the scratch device reads as what was appended, and a file that the file system
has under a name that `fsutil_append` accepts can be appended while there is room and memory. -/
structure ArchiveLaw (w : Session) : Prop where
  reads : w.appended ≠ [] → extract intoList w.scratch 0 [] = .ok (w.sector + 1, w.appended)
  appends : ∀ fileName f, (0 : UInt8) ∉ fileName → archived w.callers.fs.device fileName = some f →
    f.fileName.length ≤ 99 → w.sector + f.sectors + 2 ≤ w.scratch.size → Granted w.callers.fs →
    ∃ w', w.next (.append fileName) = some w' ∧ w'.appended = w.appended ++ [f]

variable {w w' : Session} {fileName : List UInt8}

theorem inv_start (h : w.Start) : Inv w := by
  obtain ⟨starts, sector, appended⟩ := h
  refine ⟨kempt_of_starts starts, ⟨[], sector.symm, appended.symm, fun p mem => by cases mem⟩, ?_⟩
  intro some
  exact absurd appended some

theorem Inv.call (h : Inv w) {c : Call} (allowed : w.Allowed (.call c))
    (step : w.next (.call c) = some w') : Inv w' := by
  obtain ⟨m, kempt⟩ := h.kempt
  obtain ⟨callers, ran, rfl⟩ := Option.map_eq_some_iff.mp step
  obtain ⟨callers', ran', kempt', _⟩ := kempt.next c allowed
  cases ran.symm.trans ran'
  exact ⟨⟨m, kempt'⟩, h.pieces, h.ended⟩

theorem Inv.append (h : Inv w) (text : (0 : UInt8) ∉ fileName)
    (step : w.next (.append fileName) = some w') : Inv w' := by
  obtain ⟨m, kempt⟩ := h.kempt
  obtain ⟨r, ran, rfl⟩ := Option.map_eq_some_iff.mp step
  obtain ⟨f, named, appended, sound, follows⟩ :=
    (fsutilAppend_spec (w := w.archiver) kempt.sound text).get (toOption_some.mp ran)
  obtain ⟨pieces, tiles, files, stored⟩ := h.pieces
  have here : (archived w.callers.fs.device fileName).toList = [f] := congrArg Option.toList named
  constructor
  case kempt => exact ⟨m, kempt.step sound follows fun p mine => .inl mine⟩
  case pieces =>
    refine ⟨pieces ++ [(w.sector, f)], ?_, ?_, ?_⟩
    · apply tiles_append.mpr
      exact ⟨w.sector, tiles, rfl, Nat.le_add_right .., appended.sector.symm⟩
    · rw [List.map_append, files, here]
      rfl
    · intro p mem
      cases List.mem_append.mp mem with
      | inl old =>
          apply (stored p old).congr appended.sizes
          intro r below
          exact appended.before r (Nat.lt_of_lt_of_le below (tiles.bounds old).2.2)
      | inr new =>
          cases List.mem_singleton.mp new
          exact appended.stored
  case ended => exact fun _ => ⟨appended.room, appended.ended⟩

theorem inv_of_reachable (h : session.Reachable w) : Inv w := by
  apply h.invariant (I := Inv)
  · exact fun w => inv_start
  · intro w c w' inv step
    obtain ⟨step, allowed⟩ := step
    cases c with
    | call c => exact inv.call allowed step
    | append fileName => exact inv.append allowed step

theorem Inv.reads (inv : Inv w) (some : w.appended ≠ []) :
    extract intoList w.scratch 0 [] = .ok (w.sector + 1, w.appended) := by
  obtain ⟨pieces, tiles, files, stored⟩ := inv.pieces
  obtain ⟨room, ended⟩ := inv.ended some
  have width : ∀ p ∈ pieces, p.1 + 1 ≤ stop p := by
    intro p _
    simp only [stop, Archived.sectors]
    omega
  have few := tiles.length_mul_le width
  have read := extractFrom_list [] tiles stored ended room
    (show pieces.length < w.scratch.size + 1 by omega)
  rw [files, List.nil_append] at read
  exact read

/-- Whatever files are appended, and whatever is done with the file system before, between and
behind, the archive reads as those files. -/
theorem archiveLaw_of_reachable (h : session.Reachable w) : ArchiveLaw w := by
  have inv := inv_of_reachable h
  constructor
  case reads => exact inv.reads
  case appends =>
    intro fileName f text named short room granted
    obtain ⟨m, kempt⟩ := inv.kempt
    have spec := fsutilAppend_spec (w := w.archiver) kempt.sound text
    cases ran : fsutilAppend w.archiver fileName with
    | error stop =>
        rw [ran] at spec
        cases spec with
        | error stuck => exact absurd ⟨granted, f, named, short, room⟩ stuck
    | ok r =>
        refine ⟨_, Option.map_eq_some_iff.mpr ⟨r, toOption_some.mpr ran, rfl⟩, ?_⟩
        simp only [named, Option.toList_some]

/-- If all the files go into a file system, `fsutil_extract` ends behind the end marker. -/
theorem fsutilExtract_sector (h : session.Reachable w) (some : w.appended ≠ []) {fs fs' : FileSys}
    {scratch : Disk} {sector : Nat} (ran : fsutilExtract fs w.scratch 0 = .ok (fs', scratch, sector)) :
    sector = w.sector + 1 := by
  simp only [fsutilExtract] at ran
  split at ran
  next =>
    obtain ⟨⟨last, s⟩, extracted, ran⟩ := bind_eq_ok ran
    obtain ⟨_, _, ran⟩ := bind_eq_ok ran
    obtain ⟨_, _, ran⟩ := bind_eq_ok ran
    obtain ⟨files, read⟩ := extractFrom_intoList extracted []
    cases ran
    cases read.symm.trans ((inv_of_reachable h).reads some)
    rfl
  next => cases ran

/-- An empty file and one that ends inside a sector, whose name is stripped. -/
def appendTwo : List Command :=
  [.call (.create [46, 47, 97] 600), .call (.openFile [46, 47, 97]),
    .call (.writeAt 4 (fun _ => 7) 600 0), .append [46, 47, 97], .call (.create [98] 0), .append [98]]

theorem archiveLaw_of_appendTwo : ∃ w, session.Reachable w ∧
    (w.sector = 4 ∧ w.appended.map Archived.fileName = [[97], [98]]) ∧ ArchiveLaw w := by
  have fact : ((filesysInit true ⟨12, fun _ _ => 0⟩ (fun _ => true) (fun _ => 0)).toOption.bind
      fun s => System.exec (fun w c => if Session.Allowed w c then Session.next w c else none)
        ⟨⟨s, []⟩, ⟨6, fun _ _ => 9⟩, 0, []⟩ appendTwo).any (fun w => decide (w.sector = 4 ∧
          w.appended.map Archived.fileName = [[97], [98]])) = true := by decide +kernel
  cases init : filesysInit true ⟨12, fun _ _ => 0⟩ (fun _ => true) (fun _ => 0) with
  | error _ =>
      rw [init] at fact
      cases fact
  | ok s =>
      rw [init] at fact
      obtain ⟨w, reach, done⟩ := System.exists_reachable_under Session.Start Session.next
        Session.Allowed _ (s := ⟨⟨s, []⟩, ⟨6, fun _ _ => 9⟩, 0, []⟩)
        ⟨⟨rfl, _, _, _, by decide, init⟩, rfl, rfl⟩ appendTwo fact
      exact ⟨w, reach, of_decide_eq_true done, archiveLaw_of_reachable reach⟩

end Law
end CS162.Pintos.Archive
