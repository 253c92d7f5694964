import CS162.Pintos.FileSystemDirectory

/-!
What the calls on inodes and on the free map do while every allocation succeeds. The list
of open inodes is taken by itself: of an inode that is opened or closed no more is known
than that its sectors are marked.
-/

namespace CS162.Pintos.FileSystem
open CS162.Library

/-- Every allocation succeeds. -/
def Granted (s : FileSys) : Prop := ∀ k, s.grants k = true

section
variable {s s' : FileSys} {p k size offset : Nat} {i f : Inode} {buffer : Library.Memory}

theorem Granted.malloc (h : Granted s) : Granted s.malloc.2 := fun k => h (k + 1)

theorem Granted.first (h : Granted s) : s.malloc.1 = true := h 0

section Transfers
variable (memory : s.malloc.1 = true) (found : s.inodes p = some i)
  (onDisk : OnDisk s.device i.data)
include memory found onDisk

theorem readAt_granted (buffer : Library.Memory) (size offset : Nat) :
    s.readAt p buffer size offset = .ok (bytesLeft i.data size offset,
      buffer.copy 0 (fileBytes s.device i.data) offset (bytesLeft i.data size offset),
      s.malloc.2) := by
  obtain ⟨n, failed, ran, _, all⟩ : ∃ n failed, inodeReadAt s.device i s.malloc.1 buffer size
      offset = .ok (n, failed, buffer.copy 0 (fileBytes s.device i.data) offset n) ∧
      n ≤ bytesLeft i.data size offset ∧ (n = bytesLeft i.data size offset ↔ failed = false) :=
    inodeReadAt_spec onDisk s.malloc.1 buffer
  have done : n = bytesLeft i.data size offset := by
    apply all.mpr
    rw [memory, inodeReadAt] at ran
    exact transfer_granted ran
  subst done
  have ran : inodeReadAt s.malloc.2.device i s.malloc.1 buffer size offset = _ := ran
  simp only [FileSys.readAt, inode_eq found, bind, Except.bind, ran, onDevice]
  rfl

theorem writeAt_granted (allowed : i.denyWriteCnt = 0) (buffer : Library.Memory)
    (size offset : Nat) :
    ∃ d', s.writeAt p buffer size offset =
        .ok (bytesLeft i.data size offset, { s.malloc.2 with device := d' }) ∧
      Written s.device i.data buffer offset (bytesLeft i.data size offset) d' ∧
      d'.size = s.device.size ∧
      (size < sectorSize → bytesLeft i.data size offset = 0 → d' = s.device) := by
  obtain ⟨n, failed, d', ran, written, _, all⟩ : ∃ n failed d', inodeWriteAt s.device i s.malloc.1
      buffer size offset = .ok (n, failed, d') ∧ Written s.device i.data buffer offset n d' ∧
      n ≤ bytesLeft i.data size offset ∧ (n = bytesLeft i.data size offset ↔ failed = false) :=
    inodeWriteAt_spec onDisk allowed s.malloc.1 buffer
  have done : n = bytesLeft i.data size offset := by
    apply all.mpr
    rw [memory, inodeWriteAt, if_neg (by rw [allowed]; exact not_not_intro rfl)] at ran
    exact transfer_granted ran
  subst done
  refine ⟨d', ?_, written, size_of_inodeWriteAt ran, fun small => (inodeWriteAt_small small ran).2⟩
  have ran : inodeWriteAt s.malloc.2.device i s.malloc.1 buffer size offset = _ := ran
  simp only [FileSys.writeAt, inode_eq found, bind, Except.bind, ran, onDevice]
  rfl

end Transfers

section FreeMap

/-- `free_map_file` is open and has room for the free map. -/
structure MapFits (s : FileSys) (f : Inode) : Prop extends MapReady s f where
  room : byteCnt s.freeMap.size ≤ f.data.length

theorem MapFits.congr (h : MapFits s f) (kept : Kept s s') (size : s'.device.size = s.device.size)
    (bits : s'.freeMap.size = s.freeMap.size) : MapFits s' f where
  toMapReady := h.toMapReady.congr kept size
  room := bits ▸ h.room

theorem bitmapWrite_granted {file : File} (granted : Granted s)
    (opened : s.inodes file.inode = some f) (onDisk : OnDisk s.device f.data)
    (allowed : f.denyWriteCnt = 0) (room : byteCnt s.freeMap.size ≤ f.data.length) :
    ∃ s', s.bitmapWrite file = .ok (true, s') ∧ Touches f.data s s' ∧ s'.freeMap = s.freeMap ∧
      Saved s' f.data ∧ Granted s' := by
  obtain ⟨d', ran, written, size, _⟩ := writeAt_granted granted.first opened onDisk allowed
    (mapBytes s.freeMap) (byteCnt s.freeMap.size) 0
  have whole : bytesLeft f.data (byteCnt s.freeMap.size) 0 = byteCnt s.freeMap.size :=
    Nat.min_eq_left room
  rw [whole] at ran written
  refine ⟨{ s.malloc.2 with device := d' }, ?_, ⟨⟨rfl, rfl, rfl, rfl, rfl⟩, size, rfl,
    written.others⟩, rfl, ?_, granted.malloc⟩
  · simp only [FileSys.bitmapWrite, ran, bind, Except.bind, beq_self_eq_true]
    rfl
  · intro pos inside
    have byte : fileBytes d' f.data pos = _ := congrFun written.bytes pos
    have inside : pos < byteCnt s.freeMap.size := inside
    rw [Memory.copy, if_pos (by omega), Nat.zero_add] at byte
    exact byte

/-- `free_map_allocate` fails only if there is no such run, and changes nothing then. -/
theorem freeMapAllocate_granted (granted : Granted s) (ready : MapFits s f) (cnt : Nat) :
    ∃ result s', s.freeMapAllocate cnt = .ok (result, s') ∧ Granted s' ∧
      match result with
      | none => s' = s
      | some start => Touches f.data s s' ∧ Taken s.freeMap s'.freeMap start cnt ∧
          Saved s' f.data := by
  obtain none | ⟨start, map, done, inside, size, free, test⟩ :=
    s.freeMap.scanAndFlip_spec cnt false
  · refine ⟨.none, s, ?_, granted, rfl⟩
    rw [FileSys.freeMapAllocate, none]
  · have taken : Taken s.freeMap map start cnt := .of_test inside free test
    obtain ⟨file, opens, opened⟩ := ready.opened
    obtain ⟨s', ran, touches, same, saved, granted'⟩ := bitmapWrite_granted
      (s := { s with freeMap := map }) granted opened ready.onDisk ready.allowed (size ▸ ready.room)
    refine ⟨some start, s', ?_, granted', (Touches.map f.data size).trans touches, ?_, saved⟩
    · rw [opens] at ran
      simp only [FileSys.freeMapAllocate, done, opens, bind, Except.bind, ran]
      rfl
    · rw [same]
      exact taken

theorem freeMapRelease_granted (granted : Granted s) (ready : MapFits s f) (start cnt : Nat)
    (inside : start + cnt ≤ s.freeMap.size) (marked : ∀ r, InRun start cnt r → Marked s.freeMap r) :
    ∃ s', s.freeMapRelease start cnt = .ok s' ∧ Granted s' ∧ Touches f.data s s' ∧
      (∀ r, Marked s'.freeMap r ↔ Marked s.freeMap r ∧ ¬ InRun start cnt r) ∧ Saved s' f.data := by
  obtain ⟨file, opens, opened⟩ := ready.opened
  obtain ⟨map, set, size, test⟩ := Bitmap.setMultiple_spec (b := s.freeMap) false inside
  obtain ⟨s', ran, touches, same, saved, granted'⟩ := bitmapWrite_granted
    (s := { s with freeMap := map }) granted opened ready.onDisk ready.allowed (size ▸ ready.room)
  refine ⟨s', ?_, granted', (Touches.map f.data size).trans touches, fun r => ?_, saved⟩
  · rw [opens] at ran
    have all := Bitmap.all_eq_true inside fun r lower upper => marked r ⟨lower, upper⟩
    simp only [FileSys.freeMapRelease, all, if_true, set, opens, bind, Except.bind, ran]
    rfl
  · rw [Marked, same, test]
    split
    next run => exact iff_of_false Bool.false_ne_true fun left => left.2 run
    next run => exact (and_iff_left run).symm

/-- `inode_create` on a sector of the device fails only for want of sectors, and changes
nothing then. -/
theorem inodeCreate_granted (granted : Granted s) (ready : MapFits s f)
    (sizes : s.freeMap.size = s.device.size) (inside : k < s.device.size) (length : Nat) :
    ∃ created s', s.inodeCreate k length = .ok (created, s') ∧ Granted s' ∧
      (created = false → Asked s s') := by
  have ready₁ : MapFits s.malloc.2 f := ready.congr (Kept.malloc s) rfl rfl
  obtain ⟨result, s₁, ran, granted₁, effect⟩ :=
    freeMapAllocate_granted granted.malloc ready₁ (bytesToSectors length)
  simp only [FileSys.inodeCreate, granted.first, if_true, ran, bind, Except.bind]
  cases result with
  | none =>
      have same : s₁ = s.malloc.2 := effect
      subst same
      exact ⟨false, _, rfl, granted.malloc, fun _ => Asked.malloc s⟩
  | some start =>
      obtain ⟨touches, taken, _⟩ := effect
      have size₁ : s₁.device.size = s.device.size := touches.size
      have room : start + bytesToSectors length ≤ s.freeMap.size := taken.inside
      obtain ⟨d₁, wrote, sizeD, _⟩ := blockWrite_spec (d := s₁.device) (k := k)
        (toSector ⟨start, length⟩) (by omega)
      obtain ⟨d₂, zeroed, _⟩ := zeroSectors_spec (d := d₁) start (bytesToSectors length) (by omega)
      refine ⟨true, { s₁ with device := d₂ }, ?_, granted₁, fun no => (by cases no)⟩
      simp only [wrote, onDevice, zeroed]
      rfl

end FreeMap

section Table

/-- The open inodes are listed, one for each sector, and have openers. -/
structure Table (s : FileSys) : Prop where
  unique : ∀ p q i j, s.inodes p = some i → s.inodes q = some j → i.sector = j.sector → p = q
  listed : ∀ p, p ∈ s.openInodes ↔ s.inodes p ≠ none
  nodup : s.openInodes.Nodup
  fresh : ∀ p, s.nextInode ≤ p → s.inodes p = none
  counted : ∀ p i, s.inodes p = some i → 0 < i.openCnt

theorem Sound.table {openers : List Nat} (h : Sound s openers) : Table s where
  unique := h.unique
  listed := h.listed
  nodup := h.nodup
  fresh p new := (h.fresh p new).1
  counted p i found := by
    rw [h.counted p i found, List.count_pos_iff, h.openers, found]
    exact Option.some_ne_none i

theorem Table.congr (h : Table s) (kept : Kept s s') : Table s' := by
  constructor
  case unique => rw [kept.inodes]; exact h.unique
  case listed => rw [kept.inodes, kept.openInodes]; exact h.listed
  case nodup => rw [kept.openInodes]; exact h.nodup
  case fresh => rw [kept.inodes, kept.nextInode]; exact h.fresh
  case counted => rw [kept.inodes]; exact h.counted

theorem Table.set (h : Table s) {j : Inode} (found : s.inodes p = some i)
    (sector : j.sector = i.sector) (opened : 0 < j.openCnt) : Table (s.setInode p (some j)) := by
  have old {q : Nat} {x : Inode} (now : (s.setInode p (some j)).inodes q = some x) :
      ∃ y, s.inodes q = some y ∧ y.sector = x.sector ∧ 0 < x.openCnt := by
    rw [setInode_inodes] at now
    split at now
    next same =>
      cases now
      exact ⟨i, same ▸ found, sector.symm, opened⟩
    next => exact ⟨x, now, rfl, h.counted q x now⟩
  have none_iff (q : Nat) : (s.setInode p (some j)).inodes q = none ↔ s.inodes q = none := by
    rw [setInode_inodes]
    split
    next same => simp [same, found]
    next => rfl
  constructor
  case unique =>
    intro q q' x x' now now' same
    obtain ⟨y, was, eq, _⟩ := old now
    obtain ⟨y', was', eq', _⟩ := old now'
    exact h.unique q q' y y' was was' (by rw [eq, eq', same])
  case listed => exact fun q => (h.listed q).trans (not_congr (none_iff q).symm)
  case nodup => exact h.nodup
  case fresh => exact fun q new => (none_iff q).mpr (h.fresh q new)
  case counted =>
    intro q x now
    obtain ⟨_, _, _, opened⟩ := old now
    exact opened

/-- The inode of a sector got another opener, or its first one. -/
structure OpenedAs (s s' : FileSys) (k p : Nat) (i : Inode) : Prop where
  device : s'.device = s.device
  freeMap : s'.freeMap = s.freeMap
  mapFile : s'.freeMapFile = s.freeMapFile
  inodes : s'.inodes = Function.update s.inodes p (some i)
  sector : i.sector = k
  origin : (s.inodes p = none ∧ i = ⟨k, 1, false, 0, dataOf s.device k⟩ ∧ ¬ Opened s k) ∨
    ∃ j, s.inodes p = some j ∧ i = { j with openCnt := j.openCnt + 1 }

/-- `inode_open` of a sector of the device. -/
theorem Table.openInode (h : Table s) (inside : k < s.device.size) :
    ∃ result s', s.inodeOpen k = .ok (result, s') ∧ Table s' ∧
      (Granted s → Granted s' ∧ result ≠ none) ∧
      (result = none → Asked s s') ∧ ∀ p, result = some p → ∃ i, OpenedAs s s' k p i := by
  cases search : s.openInodes.find? fun p => (s.inodes p).any fun i => i.sector == k with
  | some p =>
      have here := List.find?_some search
      obtain ⟨j, found, sector⟩ := (Option.any_eq_true ..).mp here
      have reopened : s.inodeReopen p = s.setInode p (some { j with openCnt := j.openCnt + 1 }) := by
        rw [FileSys.inodeReopen, found]
        rfl
      refine ⟨some p, s.inodeReopen p, ?_, ?_, fun granted => ⟨granted, Option.some_ne_none p⟩,
        fun no => (by cases no), ?_⟩
      · simp only [FileSys.inodeOpen, search]
      · rw [reopened]
        exact h.set found rfl (Nat.succ_pos _)
      · intro q same
        cases same
        refine ⟨{ j with openCnt := j.openCnt + 1 }, rfl, rfl, rfl, ?_, by simpa using sector,
          .inr ⟨j, found, rfl⟩⟩
        rw [reopened]
        rfl
  | none =>
      have closed : ¬ Opened s k := by
        intro opened
        obtain ⟨p, i, found, sector⟩ := opened
        have listed := (h.listed p).mpr (by rw [found]; exact Option.some_ne_none i)
        have other := List.find?_eq_none.mp search p listed
        simp [found, sector] at other
      simp only [FileSys.inodeOpen, search]
      cases memory : s.malloc.1 with
      | false =>
          exact ⟨none, s.malloc.2, rfl, h.congr (Kept.malloc s),
            fun granted => absurd (granted.first.symm.trans memory) Bool.noConfusion,
            fun _ => Asked.malloc s, fun _ no => (by cases no)⟩
      | true =>
          have new : s.inodes s.nextInode = none := h.fresh _ (Nat.le_refl _)
          have read : blockRead s.malloc.2.device k = .ok (s.device.sectors k) :=
            if_neg (Nat.not_le.mpr inside)
          let i : Inode := ⟨k, 1, false, 0, dataOf s.device k⟩
          let s' : FileSys := { s.malloc.2.setInode s.nextInode (some i) with
            openInodes := s.nextInode :: s.openInodes, nextInode := s.nextInode + 1 }
          have get (q : Nat) : s'.inodes q = if q = s.nextInode then some i else s.inodes q :=
            setInode_inodes ..
          refine ⟨some s.nextInode, s', ?_, ?_,
            fun granted => ⟨granted.malloc, Option.some_ne_none _⟩, fun no => (by cases no), ?_⟩
          · simp only [if_true, read, onDevice, bind, Except.bind]
            rfl
          · constructor
            case unique =>
              intro q q' x x' now now' same
              rw [get] at now now'
              split at now
              next first =>
                cases now
                split at now'
                next second => rw [first, second]
                next => exact absurd ⟨q', x', now', same.symm⟩ closed
              next =>
                split at now'
                next =>
                  cases now'
                  exact absurd ⟨q, x, now, same⟩ closed
                next => exact h.unique q q' x x' now now' same
            case listed =>
              intro q
              rw [get]
              split
              next first => simp [s', first]
              next other => simpa [s', other] using h.listed q
            case nodup => exact List.nodup_cons.mpr ⟨fun old => (h.listed _).mp old new, h.nodup⟩
            case fresh =>
              intro q old
              have above : s.nextInode < q := old
              rw [get, if_neg (Nat.ne_of_gt above)]
              exact h.fresh q (Nat.le_of_lt above)
            case counted =>
              intro q x now
              rw [get] at now
              split at now
              next =>
                cases now
                exact Nat.one_pos
              next => exact h.counted q x now
          · intro q same
            cases same
            exact ⟨i, rfl, rfl, rfl, rfl, rfl, .inl ⟨new, rfl, closed⟩⟩

theorem Table.openGranted (h : Table s) (granted : Granted s) (inside : k < s.device.size) :
    ∃ p i s', s.inodeOpen k = .ok (some p, s') ∧ Table s' ∧ Granted s' ∧ OpenedAs s s' k p i := by
  obtain ⟨result, s', ran, table, memory, _, opened⟩ := h.openInode inside
  obtain ⟨granted', some⟩ := memory granted
  obtain ⟨p, rfl⟩ := Option.ne_none_iff_exists'.mp some
  obtain ⟨i, opened⟩ := opened p rfl
  exact ⟨p, i, s', ran, table, granted', opened⟩

theorem Table.drop (h : Table s) (inodes : s'.inodes = Function.update s.inodes p none)
    (openInodes : s'.openInodes = s.openInodes.erase p) (next : s'.nextInode = s.nextInode) :
    Table s' := by
  have get (q : Nat) : s'.inodes q = if q = p then none else s.inodes q := by
    rw [inodes, Function.update_apply]
  have old {q : Nat} {x : Inode} (now : s'.inodes q = some x) : s.inodes q = some x := by
    rw [get] at now
    split at now
    next => cases now
    next => exact now
  constructor
  case unique => exact fun q q' x x' now now' => h.unique q q' x x' (old now) (old now')
  case listed =>
    intro q
    rw [openInodes, h.nodup.mem_erase_iff, get]
    split
    next same => simp [same]
    next other => simpa [other] using h.listed q
  case nodup => exact openInodes ▸ h.nodup.erase p
  case fresh =>
    intro q new
    rw [get]
    split
    next => rfl
    next => exact h.fresh q (next ▸ new)
  case counted => exact fun q x now => h.counted q x (old now)

/-- Closing an inode that was not removed, or that has other openers, leaves the disk alone. -/
theorem Table.closeKept (h : Table s) (found : s.inodes p = some i)
    (kept : ¬ (i.removed = true ∧ i.openCnt = 1)) :
    ∃ s', s.inodeClose (some p) = .ok s' ∧ Table s' ∧ s'.inodes = Function.update s.inodes p
        (if i.openCnt = 1 then none else some { i with openCnt := i.openCnt - 1 }) ∧
      s'.device = s.device ∧ s'.freeMap = s.freeMap ∧ s'.freeMapFile = s.freeMapFile ∧
      s'.grants = s.grants := by
  have counted := h.counted p i found
  simp only [FileSys.inodeClose, inode_eq found, bind, Except.bind]
  by_cases last : i.openCnt = 1
  · have flag : ¬ i.removed = true := fun flag => kept ⟨flag, last⟩
    have zero : i.openCnt - 1 = 0 := by omega
    rw [if_pos zero, if_neg flag]
    have both (x : Option Inode) : Function.update (Function.update s.inodes p x) p none =
        Function.update s.inodes p none := Function.update_idem ..
    refine ⟨_, rfl, h.drop (both _) rfl rfl, ?_, rfl, rfl, rfl, rfl⟩
    rw [if_pos last]
    exact both _
  · have more : ¬ i.openCnt - 1 = 0 := by omega
    rw [if_neg more]
    refine ⟨_, rfl, h.set found rfl (Nat.pos_of_ne_zero more), ?_, rfl, rfl, rfl, rfl⟩
    rw [if_neg last]
    rfl

/-- What closing an inode does: the last close of a removed one frees its sectors. -/
structure Closed (s s' : FileSys) (p : Nat) (i f : Inode) : Prop where
  mapFile : s'.freeMapFile = s.freeMapFile
  inodes : s'.inodes = Function.update s.inodes p
    (if i.openCnt = 1 then none else some { i with openCnt := i.openCnt - 1 })
  size : s'.device.size = s.device.size
  bits : s'.freeMap.size = s.freeMap.size
  others : ∀ r, ¬ f.data.Has r → s'.device.sectors r = s.device.sectors r
  freed : i.removed = true → i.openCnt = 1 →
    (∀ r, Marked s'.freeMap r ↔ Marked s.freeMap r ∧ r ≠ i.sector ∧ ¬ i.data.Has r) ∧
      Saved s' f.data
  same : ¬ (i.removed = true ∧ i.openCnt = 1) → s'.freeMap = s.freeMap ∧ s'.device = s.device

/-- `inode_close`, of an inode that is not the free map's. -/
theorem Table.closeInode (h : Table s) (granted : Granted s) (ready : MapFits s f)
    (found : s.inodes p = some i) (other : ∀ file, s.freeMapFile = some file → file.inode ≠ p)
    (marked : i.removed = true → i.openCnt = 1 → Marked s.freeMap i.sector ∧
      i.data.start + bytesToSectors i.data.length ≤ s.freeMap.size ∧
      ∀ r, i.data.Has r → Marked s.freeMap r ∧ r ≠ i.sector) :
    ∃ s', s.inodeClose (some p) = .ok s' ∧ Table s' ∧ Granted s' ∧ Closed s s' p i f := by
  by_cases released : i.removed = true ∧ i.openCnt = 1
  · obtain ⟨flag, last⟩ := released
    let j : Inode := { i with openCnt := i.openCnt - 1 }
    have zero : i.openCnt - 1 = 0 := by omega
    have both (x : Option Inode) : Function.update (Function.update s.inodes p x) p none =
        Function.update s.inodes p none := Function.update_idem ..
    -- The inode is off the list while its sectors are released.
    let s₁ : FileSys := { s.setInode p (some j) with openInodes := s.openInodes.erase p }
    have ready₁ : MapFits s₁ f := by
      obtain ⟨file, opens, opened⟩ := ready.opened
      refine ⟨⟨⟨file, opens, ?_⟩, ready.onDisk, ready.allowed⟩, ready.room⟩
      exact (Function.update_of_ne (other file opens) ..).trans opened
    obtain ⟨here, inside, data⟩ := marked flag last
    obtain ⟨s₂, ran₂, granted₂, touches₂, marks₂, _⟩ := freeMapRelease_granted (s := s₁) granted ready₁
      i.sector 1 (Nat.succ_le_of_lt (Bitmap.lt_of_test here)) fun r run => by
        rwa [show r = i.sector by have := run.1; have := run.2; omega]
    have bits₂ : s₂.freeMap.size = s.freeMap.size := touches₂.bits
    obtain ⟨s₃, ran₃, granted₃, touches₃, marks₃, saved⟩ := freeMapRelease_granted granted₂
      (ready₁.congr touches₂.toKept touches₂.size touches₂.bits) i.data.start
      (bytesToSectors i.data.length) (bits₂ ▸ inside) fun r run => by
        apply (marks₂ r).mpr
        refine ⟨(data r run).1, fun first => (data r run).2 ?_⟩
        have := first.1
        have := first.2
        omega
    have touches := touches₂.trans touches₃
    let s₄ : FileSys := { s₃.setInode p none with
      events := .released p i.sector i.data :: s₃.events }
    have inodes₄ : s₄.inodes = Function.update s.inodes p none := by
      show Function.update s₃.inodes p none = _
      rw [touches.inodes]
      exact both _
    refine ⟨s₄, ?_, h.drop inodes₄ touches.openInodes touches.nextInode, granted₃, ?_⟩
    · have ran₂ : FileSys.freeMapRelease { s.setInode p (some j) with
        openInodes := s.openInodes.erase p } i.sector 1 = .ok s₂ := ran₂
      simp only [FileSys.inodeClose, inode_eq found, bind, Except.bind, if_pos zero, if_pos flag]
      simp only [FileSys.setInode, j] at ran₂ ⊢
      simp only [ran₂, ran₃]
      rfl
    · constructor
      case mapFile => exact touches.mapFile
      case inodes => rw [inodes₄, if_pos last]
      case size => exact touches.size
      case bits => exact touches.bits
      case others => exact touches.others
      case freed =>
        intro _ _
        refine ⟨fun r => ?_, saved⟩
        apply (marks₃ r).trans
        rw [marks₂ r, and_assoc]
        refine and_congr_right fun _ => and_congr ?_ Iff.rfl
        simp only [InRun]
        omega
      case same => exact fun stays => absurd ⟨flag, last⟩ stays
  · obtain ⟨s', closed, table, inodes, device, map, mapFile, grants⟩ := h.closeKept found released
    refine ⟨s', closed, table, fun k => grants ▸ granted k, mapFile, inodes, by rw [device],
      by rw [map], fun _ _ => by rw [device], fun flag last => absurd ⟨flag, last⟩ released,
      fun _ => ⟨map, device⟩⟩

/-- A disk with the free map at sector 2, an inode of 100 bytes at sector 4, and sector 6 set
aside. -/
def sampleHost : FileSys where
  device := ⟨8, fun k => if k = 4 then toSector ⟨5, 100⟩ else fun _ => 0⟩
  freeMap := ⟨[true, true, true, false, true, true, true, false]⟩
  freeMapFile := some ⟨0, 0⟩
  inodes p := if p = 0 then some ⟨freeMapSector, 1, false, 0, ⟨2, 4⟩⟩ else none
  openInodes := [0]
  nextInode := 1
  grants _ := true
  junk _ := 0
  events := []

theorem sampleHost_inodes (found : sampleHost.inodes p = some i) :
    p = 0 ∧ i = ⟨freeMapSector, 1, false, 0, ⟨2, 4⟩⟩ := by
  by_cases first : p = 0
  · subst first
    exact ⟨rfl, (Option.some.inj found).symm⟩
  · rw [show sampleHost.inodes p = none from if_neg first] at found
    cases found

theorem sampleHost_table : Table sampleHost := by
  constructor
  case unique =>
    intro p q i j now now' _
    rw [(sampleHost_inodes now).1, (sampleHost_inodes now').1]
  case listed =>
    intro p
    by_cases first : p = 0
    · simp [sampleHost, first]
    · simp [sampleHost, first]
  case nodup => decide
  case fresh =>
    intro p new
    exact if_neg (Nat.ne_of_gt new)
  case counted =>
    intro p i found
    rw [(sampleHost_inodes found).2]
    exact Nat.one_pos

end Table

end
end CS162.Pintos.FileSystem
