import Mathlib.Data.List.TakeWhile
import CS162.Library.ByteMemory
import CS162.Library.SlotTable
import CS162.Pintos.InodesGranted

/-!
The entries of any directory, read and written exactly. Slot `j` lies at `entrySize * j`
of the directory's file, and may straddle two sectors. A loop over the entries ends at the
first short read, which means the end of the file as long as there is memory.
-/

namespace CS162.Pintos.FileSystem
open CS162.Library

/-- What an entry says: its name and its sector, if it is in use. -/
def entryOf (e : Library.Memory) : Option (List UInt8 × Nat) :=
  if inUse e then some (entryName e, entrySector e) else none

/-- The entry in a slot, by the bytes of the directory. -/
def entry (m : Library.Memory) (j : Nat) : Option (List UInt8 × Nat) :=
  entryOf fun x => m (entrySize * j + x)

namespace FileSys

/-- The loop of `dir_readdir`: the name, and the position that it leaves. -/
def readdirFrom (dir : Nat) : (rounds pos : Nat) → FileSys →
    Except Panic (Option (List UInt8) × Nat × FileSys)
  | 0, pos, s => .ok (none, pos, s)
  | rounds + 1, pos, s => do
      let (n, e, s) ← s.readAt dir s.junk entrySize pos
      if n = entrySize then
        if inUse e then return (some ((entryName e).take nameMax), pos + entrySize, s)
        else readdirFrom dir rounds (pos + entrySize) s
      else return (none, pos, s)

/-- `dir_readdir`, from the position of the open directory. -/
def dirReaddir (s : FileSys) (dir pos : Nat) : Except Panic (Option (List UInt8) × Nat × FileSys) :=
  readdirFrom dir (s.entryRounds dir) pos s

/-- A number of calls of `dir_readdir`, one behind the other. -/
def readdirs (dir : Nat) : (calls pos : Nat) → FileSys →
    Except Panic (List (Option (List UInt8)) × FileSys)
  | 0, _, s => .ok ([], s)
  | calls + 1, pos, s => do
      let (name, pos, s) ← s.dirReaddir dir pos
      let (names, s) ← readdirs dir calls pos s
      return (name :: names, s)

end FileSys

/-- The names that `dir_readdir` makes of the entries from slot `j` on. -/
def listed (m : Library.Memory) (n j : Nat) : List (List UInt8) :=
  (SlotTable.rest (entry m) n j).map fun b => b.1.take nameMax

/-- A directory of `n` entries is open. -/
structure DirAt (s : FileSys) (p n : Nat) (i : Inode) : Prop where
  found : s.inodes p = some i
  onDisk : OnDisk s.device i.data
  allowed : i.denyWriteCnt = 0
  length : i.data.length = n * entrySize

section
variable {s s' : FileSys} {p n j k : Nat} {i : Inode} {e e' m m' : Library.Memory}
  {name : List UInt8}

theorem entryOf_congr (same : Memory.SameOn 0 entrySize e e') : entryOf e' = entryOf e := by
  have text : entryName e' = entryName e := by
    rw [entryName, entryName, Memory.readBytes_congr (same.mono (by decide) (by decide))]
  have sector : entrySector e' = entrySector e :=
    Memory.load_congr (same.mono (Nat.le_refl 0) (by decide))
  rw [entryOf, entryOf, inUse, inUse, same 19 (by decide) (by decide), text, sector]

theorem entry_congr (same : Memory.SameOn (entrySize * j) entrySize m m') :
    entry m' j = entry m j := by
  apply entryOf_congr
  intro x _ inside
  exact same _ (Nat.le_add_right ..) (by omega)

theorem listed_next (inside : j < n) :
    listed m n j = (entry m j).toList.map (fun b => b.1.take nameMax) ++ listed m n (j + 1) := by
  rw [listed, SlotTable.rest_next inside, List.map_append]
  rfl

theorem listed_end : listed m n n = [] := by
  rw [listed, SlotTable.rest_end (Nat.le_refl n)]
  rfl

theorem DirAt.congr (h : DirAt s p n i) (inodes : s'.inodes p = s.inodes p)
    (size : s'.device.size = s.device.size) : DirAt s' p n i where
  found := inodes.trans h.found
  onDisk := ⟨size ▸ h.onDisk.fits, size ▸ h.onDisk.device⟩
  allowed := h.allowed
  length := h.length

theorem DirAt.asked (h : DirAt s p n i) (asked : Asked s s') : DirAt s' p n i :=
  h.congr (congrFun asked.inodes p) (congrArg Disk.size asked.device)

theorem DirAt.rounds (h : DirAt s p n i) : s.entryRounds p = n + 1 := by
  simp only [FileSys.entryRounds, h.found, h.length]
  rw [Nat.mul_div_cancel n (by decide)]

theorem DirAt.read (h : DirAt s p n i) (buffer : Library.Memory) (j : Nat) :
    ∃ k e, s.readAt p buffer entrySize (entrySize * j) = .ok (k, e, s.malloc.2) ∧
      (k = entrySize ↔ j < n ∧ s.malloc.1 = true) ∧
      (k = entrySize → entryOf e = entry (fileBytes s.device i.data) j) := by
  obtain ⟨k, failed, ran, most, all⟩ : ∃ k failed, inodeReadAt s.device i s.malloc.1 buffer
      entrySize (entrySize * j) = .ok (k, failed, buffer.copy 0 (fileBytes s.device i.data)
        (entrySize * j) k) ∧ k ≤ bytesLeft i.data entrySize (entrySize * j) ∧
      (k = bytesLeft i.data entrySize (entrySize * j) ↔ failed = false) :=
    inodeReadAt_spec h.onDisk s.malloc.1 buffer
  have length := h.length
  refine ⟨k, buffer.copy 0 (fileBytes s.device i.data) (entrySize * j) k, ?_, ⟨?_, ?_⟩, ?_⟩
  · have ran : inodeReadAt s.malloc.2.device i s.malloc.1 buffer entrySize (entrySize * j) = _ := ran
    simp only [FileSys.readAt, inode_eq h.found, bind, Except.bind, ran, onDevice]
    rfl
  · intro whole
    subst whole
    refine ⟨?_, ?_⟩
    · simp only [bytesLeft, entrySize] at most length
      omega
    · by_contra denied
      rw [Bool.eq_false_of_not_eq_true denied, inodeReadAt] at ran
      exact absurd (transfer_denied (.inr (by decide)) ran) (by decide)
  · intro readable
    rw [readable.2, inodeReadAt] at ran
    have done := all.mpr (transfer_granted ran)
    simp only [bytesLeft, entrySize] at done length readable ⊢
    omega
  · intro whole
    subst whole
    apply entryOf_congr
    intro x _ inside
    rw [Memory.copy, if_pos ⟨Nat.zero_le x, inside⟩, Nat.sub_zero]

/-- `lookup` finds the first entry of the name. With memory it finds nothing only if there
is none. -/
theorem DirAt.lookupFrom (h : DirAt s p n i) (name : List UInt8) (rounds j : Nat) :
    ∃ found s', FileSys.lookupFrom p name rounds (entrySize * j) s = .ok (found, s') ∧
      Asked s s' ∧ (Granted s → Granted s') ∧
      (∀ e ofs, found = some (e, ofs) → ∃ k < n, ofs = entrySize * k ∧ entryOf e =
        some (name, entrySector e) ∧ entry (fileBytes s.device i.data) k = entryOf e ∧
        ∀ l, j ≤ l → l < k → ∀ sector, entry (fileBytes s.device i.data) l ≠ some (name, sector)) ∧
      (Granted s → n < j + rounds → found = none → ∀ k, j ≤ k → k < n → ∀ sector,
        entry (fileBytes s.device i.data) k ≠ some (name, sector)) := by
  induction rounds generalizing s j with
  | zero =>
      refine ⟨none, s, rfl, Asked.refl s, id, (fun _ _ none => by cases none), ?_⟩
      intro _ few _ k lower upper
      omega
  | succ rounds ih =>
      obtain ⟨size, e, ran, full, bytes⟩ := h.read s.junk j
      simp only [FileSys.lookupFrom, ran, bind, Except.bind]
      split
      next all =>
        have inside := (full.mp all).1
        have same := bytes all
        split
        next hit =>
          have named : entryOf e = some (name, entrySector e) := by
            rw [entryOf, if_pos hit.1, hit.2]
          refine ⟨_, _, rfl, Asked.malloc s, Granted.malloc, ?_, fun _ _ none => by cases none⟩
          intro e' ofs eq
          cases eq
          refine ⟨j, inside, rfl, named, same.symm, ?_⟩
          intro l lower upper
          omega
        next miss =>
          have other (sector : Nat) : entry (fileBytes s.device i.data) j ≠ some (name, sector) := by
            intro here
            rw [← same, entryOf] at here
            split at here
            next used =>
              cases here
              exact miss ⟨used, rfl⟩
            next => cases here
          obtain ⟨found, s', rest, asked, memory, hit, none⟩ := ih (h.asked (Asked.malloc s)) (j + 1)
          refine ⟨found, s', rest, (Asked.malloc s).trans asked, fun granted => memory granted.malloc,
            ?_, ?_⟩
          · intro e' ofs eq
            obtain ⟨k, below, place, named, here, before⟩ := hit e' ofs eq
            refine ⟨k, below, place, named, here, ?_⟩
            intro l lower upper
            by_cases first : l = j
            · exact first ▸ other
            · exact before l (by omega) upper
          · intro granted enough missing k lower upper
            by_cases first : k = j
            · exact first ▸ other
            · exact none granted.malloc (by omega) missing k (by omega) upper
      next short =>
        refine ⟨none, _, rfl, Asked.malloc s, Granted.malloc, (fun _ _ none => by cases none), ?_⟩
        intro granted _ _ k lower upper
        exact absurd (full.mpr ⟨by omega, granted.first⟩) short

/-- The loop of `dir_add` stops at the first free slot, or at the end. -/
theorem DirAt.freeSlotFrom (h : DirAt s p n i) (granted : Granted s) (rounds j : Nat)
    (e : Library.Memory) (enough : n < j + rounds) (start : j ≤ n) :
    ∃ e' k s', FileSys.freeSlotFrom p rounds (entrySize * j) e s = .ok (e', entrySize * k, s') ∧
      Asked s s' ∧ Granted s' ∧ k ≤ n ∧
      (k < n → entry (fileBytes s.device i.data) k = none) ∧
      ∀ l, j ≤ l → l < k → entry (fileBytes s.device i.data) l ≠ none := by
  induction rounds generalizing s j e with
  | zero => omega
  | succ rounds ih =>
      obtain ⟨size, e', ran, full, bytes⟩ := h.read e j
      simp only [FileSys.freeSlotFrom, ran, bind, Except.bind]
      split
      next used =>
        have inside := (full.mp used.1).1
        have same := bytes used.1
        obtain ⟨e'', k, s', rest, asked, memory, most, free, taken⟩ :=
          ih (h.asked (Asked.malloc s)) granted.malloc (j + 1) e' (by omega) inside
        refine ⟨e'', k, s', rest, (Asked.malloc s).trans asked, memory, most, free, ?_⟩
        intro l lower upper
        by_cases first : l = j
        · rw [first, ← same, entryOf, if_pos used.2]
          exact Option.some_ne_none _
        · exact taken l (by omega) upper
      next stop =>
        refine ⟨e', j, s.malloc.2, rfl, Asked.malloc s, granted.malloc, start, ?_, ?_⟩
        · intro inside
          have all := full.mpr ⟨inside, granted.first⟩
          rw [← bytes all, entryOf, if_neg fun used => stop ⟨all, used⟩]
        · intro l lower upper
          omega

/-- `dir_readdir` goes on to the next entry that is in use. -/
theorem DirAt.readdirFrom (h : DirAt s p n i) (granted : Granted s) (rounds j : Nat)
    (enough : n < j + rounds) (start : j ≤ n) :
    ∃ found k s', FileSys.readdirFrom p rounds (entrySize * j) s = .ok (found, entrySize * k, s') ∧
      Asked s s' ∧ Granted s' ∧ k ≤ n ∧ (found = none → k = n) ∧
      listed (fileBytes s.device i.data) n j =
        found.toList ++ listed (fileBytes s.device i.data) n k := by
  induction rounds generalizing s j with
  | zero => omega
  | succ rounds ih =>
      obtain ⟨size, e, ran, full, bytes⟩ := h.read s.junk j
      simp only [FileSys.readdirFrom, ran, bind, Except.bind]
      split
      next all =>
        have inside := (full.mp all).1
        have same := bytes all
        rw [listed_next inside, ← same]
        split
        next used =>
          refine ⟨_, j + 1, _, rfl, Asked.malloc s, granted.malloc, inside, fun no => (by cases no), ?_⟩
          rw [entryOf, if_pos used]
          rfl
        next free =>
          obtain ⟨found, k, s', rest, asked, memory, most, none, names⟩ :=
            ih (h.asked (Asked.malloc s)) granted.malloc (j + 1) (by omega) inside
          refine ⟨found, k, s', rest, (Asked.malloc s).trans asked, memory, most, none, ?_⟩
          rw [entryOf, if_neg free]
          exact names
      next short =>
        have last : j = n := by
          by_contra other
          exact short (full.mpr ⟨Nat.lt_of_le_of_ne start other, granted.first⟩)
        exact ⟨none, j, _, rfl, Asked.malloc s, granted.malloc, start, fun _ => last, rfl⟩

/-- The calls list the entries in use in their order, and nothing from then on. -/
theorem DirAt.readdirs (h : DirAt s p n i) (granted : Granted s) (calls j : Nat) (start : j ≤ n) :
    ∃ s', FileSys.readdirs p calls (entrySize * j) s = .ok
        (((listed (fileBytes s.device i.data) n j).map some ++
          List.replicate calls none).take calls, s') ∧
      Asked s s' ∧ Granted s' := by
  induction calls generalizing s j with
  | zero => exact ⟨s, rfl, Asked.refl s, granted⟩
  | succ calls ih =>
      obtain ⟨found, k, s₁, ran, asked, granted₁, most, none, names⟩ :=
        h.readdirFrom granted (s.entryRounds p) j (by rw [h.rounds]; omega) start
      have ran : s.dirReaddir p (entrySize * j) = _ := ran
      obtain ⟨s₂, rest, asked₂, granted₂⟩ := ih (h.asked asked) granted₁ k most
      refine ⟨s₂, ?_, asked.trans asked₂, granted₂⟩
      simp only [FileSys.readdirs, ran, bind, Except.bind, rest, asked.device, names]
      cases found with
      | none =>
          rw [none rfl, listed_end, List.replicate_succ]
          simp only [Option.toList_none, List.map_nil, List.nil_append, List.append_nil,
            List.take_succ_cons]
          rfl
      | some name =>
          simp only [Option.toList_some, List.map_cons,
            List.cons_append, List.nil_append, List.take_succ_cons]
          have enough (l : List (Option (List UInt8))) : (l ++ List.replicate (calls + 1) Option.none).take
              calls = (l ++ List.replicate calls Option.none).take calls := by
            rw [List.replicate_succ', ← List.append_assoc]
            apply List.take_append_of_le_length
            simp
          rw [enough]
          rfl

/-- Writing a slot changes the entry in it and nothing else, or nothing at all. -/
theorem DirAt.write (h : DirAt s p n i) (e : Library.Memory) (j : Nat) :
    ∃ k s', s.writeAt p e entrySize (entrySize * j) = .ok (k, s') ∧ Kept s s' ∧
      s'.grants = s.malloc.2.grants ∧ s'.freeMap = s.freeMap ∧ s'.device.size = s.device.size ∧
      (∀ sector, ¬ i.data.Has sector → s'.device.sectors sector = s.device.sectors sector) ∧
      (k = entrySize ↔ j < n ∧ s.malloc.1 = true) ∧
      (k = entrySize → entry (fileBytes s'.device i.data) =
        Function.update (entry (fileBytes s.device i.data)) j (entryOf e)) ∧
      (k ≠ entrySize → s'.device = s.device) := by
  obtain ⟨k, failed, d', ran, written, most, all⟩ : ∃ k failed d', inodeWriteAt s.device i s.malloc.1
      e entrySize (entrySize * j) = .ok (k, failed, d') ∧
      Written s.device i.data e (entrySize * j) k d' ∧
      k ≤ bytesLeft i.data entrySize (entrySize * j) ∧
      (k = bytesLeft i.data entrySize (entrySize * j) ↔ failed = false) :=
    inodeWriteAt_spec h.onDisk h.allowed s.malloc.1 e
  have length := h.length
  obtain ⟨fails, nothing⟩ := inodeWriteAt_small (by decide) ran
  have moved := ran
  rw [inodeWriteAt, if_neg (by rw [h.allowed]; exact not_not_intro rfl)] at moved
  refine ⟨k, { s.malloc.2 with device := d' }, ?_, ⟨rfl, rfl, rfl, rfl, rfl⟩, rfl, rfl,
    size_of_inodeWriteAt ran, written.others, ⟨?_, ?_⟩, ?_, ?_⟩
  · have ran : inodeWriteAt s.malloc.2.device i s.malloc.1 e entrySize (entrySize * j) = _ := ran
    simp only [FileSys.writeAt, inode_eq h.found, bind, Except.bind, ran, onDevice]
    rfl
  · intro whole
    subst whole
    refine ⟨?_, ?_⟩
    · simp only [bytesLeft, entrySize] at most length
      omega
    · by_contra denied
      rw [Bool.eq_false_of_not_eq_true denied] at moved
      exact absurd (transfer_denied (.inr (by decide)) moved) (by decide)
  · intro writable
    rw [writable.2] at moved
    have done := all.mpr (transfer_granted moved)
    simp only [bytesLeft, entrySize] at done length writable ⊢
    omega
  · intro whole
    subst whole
    funext l
    have bytes : fileBytes d' i.data = _ := written.bytes
    rw [Function.update_apply, bytes]
    split
    next same =>
      subst same
      apply entryOf_congr
      intro x _ below
      simp only [Memory.copy]
      rw [if_pos (by omega), Nat.add_sub_cancel_left, Nat.zero_add]
    next other =>
      apply entry_congr
      intro x lower upper
      apply if_neg
      intro both
      apply other
      simp only [entrySize] at *
      omega
  · intro short
    apply nothing
    by_cases done : k = bytesLeft i.data entrySize (entrySize * j)
    · simp only [bytesLeft, entrySize] at *
      omega
    · exact fails (by simpa [done] using all)

/-- The entry that `dir_add` fills in. -/
theorem entryOf_fillEntry (text : (0 : UInt8) ∉ name) (short : name.length ≤ nameMax)
    (bound : k < 2 ^ 32) : entryOf (fillEntry e name k) = some (name, k) := by
  have room : (name ++ [0]).length ≤ 15 := by
    rw [List.length_append, List.length_singleton]
    exact Nat.succ_le_succ short
  have flag : fillEntry e name k 19 = 1 := by
    rw [fillEntry, Memory.store_sameOff 19 (by omega),
      Memory.writeBytes_sameOff 19 (by omega), Memory.fill_apply (by omega) (by omega)]
  have sector : entrySector (fillEntry e name k) = k := Memory.load_store_self bound
  have bytes : (fillEntry e name k).field ⟨4, 15⟩ = name ++ [0] ++ ((e.fill 19 1 1).field ⟨4, 15⟩).drop
      (name ++ [0]).length :=
    (Memory.field_congr (Memory.store_sameOff.sameOn (.inr (Nat.le_refl 4)))).trans
      (Memory.field_put (m := e.fill 19 1 1) (f := ⟨4, 15⟩) room)
  have whole : name.takeWhile (fun b => b ≠ 0) = name := by
    apply List.takeWhile_eq_self_iff.mpr
    intro b inside
    simpa using fun zero : b = 0 => text (zero ▸ inside)
  have read : entryName (fillEntry e name k) = name := by
    show ((fillEntry e name k).field ⟨4, 15⟩).takeWhile (fun b => b ≠ 0) = name
    rw [bytes, List.append_assoc, List.takeWhile_append, whole, if_pos rfl, List.singleton_append,
      List.takeWhile_cons_of_neg (by decide), List.append_nil]
  rw [entryOf, inUse, flag, read, sector]
  rfl

end
end CS162.Pintos.FileSystem
