import CS162.Pintos.DirectoryState

/-!
The calls of directory.c on a directory of `n` entries, exactly: what each of them answers,
and what becomes of the entries.
-/

namespace CS162.Pintos.FileSystem
open CS162.Library

def namesOf (s : FileSys) (data : InodeDisk) (n : Nat) : List UInt8 → Option Nat :=
  SlotTable.toMap (slots s data) n

theorem Base.removeInode {s : FileSys} {p q n : Nat} {data map : InodeDisk} {i : Inode}
    (h : Base s p n data map) (found : s.inodes q = some i) (strange : ¬ Own s p q)
    (here : Marked s.freeMap i.sector)
    (inside : i.data.start + bytesToSectors i.data.length ≤ s.device.size)
    (marked : ∀ r, i.data.Has r → Marked s.freeMap r ∧ r ≠ i.sector) :
    ∃ s₁ s₂, s.inodeRemove q = .ok s₁ ∧ s₁.inodeClose (some q) = .ok s₂ ∧ Base s₂ p n data map ∧
      s₂.freeMapFile = s.freeMapFile ∧ s₂.device.size = s.device.size ∧
      (∀ r, ¬ map.Has r → s₂.device.sectors r = s.device.sectors r) ∧
      (∀ q', q' ≠ q → s₂.inodes q' = s.inodes q') ∧
      (∀ i', s₂.inodes q = some i' → i'.sector = i.sector) ∧
      ∀ r, Marked s.freeMap r → r ≠ i.sector → ¬ i.data.Has r → Marked s₂.freeMap r := by
  let j : Inode := { i with removed := true }
  let s₁ : FileSys := { s.setInode q (some j) with
    events := .removed q i.sector i.data :: s.events }
  have table₁ : Table s₁ :=
    have set := h.table.set (j := j) found rfl (h.table.counted q i found)
    ⟨set.unique, set.listed, set.nodup, set.fresh, set.counted⟩
  have found₁ : s₁.inodes q = some j := Function.update_self ..
  have others₁ (q' : Nat) (other : q' ≠ q) : s₁.inodes q' = s.inodes q' :=
    Function.update_of_ne other ..
  have own {q' : Nat} (own : Own s p q') : q' ≠ q := fun eq => strange (eq ▸ own)
  have base₁ : Base s₁ p n data map :=
    h.next h.granted table₁ rfl rfl rfl fun q' mine => .of_eq (others₁ q' (own mine))
  obtain ⟨f, ready, rfl⟩ := base₁.ready
  obtain ⟨s₂, closed, table₂, granted₂, c⟩ := table₁.closeInode base₁.granted ready found₁
    (fun file opens same => strange (.inr ⟨file, opens, same⟩)) fun _ _ =>
      ⟨here, by rw [base₁.sizes]; exact inside, marked⟩
  have others₂ (q' : Nat) (other : q' ≠ q) : s₂.inodes q' = s.inodes q' := by
    rw [c.inodes, Function.update_of_ne other, others₁ q' other]
  refine ⟨s₁, s₂, ?_, closed, ?_, c.mapFile, c.size, c.others, others₂, ?_, ?_⟩
  · simp only [FileSys.inodeRemove, inode_eq found, bind, Except.bind]
    rfl
  · exact h.next granted₂ table₂ c.size c.bits c.mapFile fun q' mine =>
      .of_eq (others₂ q' (own mine))
  · intro i' now
    rw [c.inodes, Function.update_self] at now
    split at now
    next => cases now
    next =>
      cases now
      rfl
  · intro r was first rest
    by_cases freed : i.openCnt = 1
    · exact ((c.freed rfl freed).1 r).mpr ⟨was, first, rest⟩
    · rw [(c.same fun both => freed both.2).1]
      exact was

namespace Directory
variable {s s' : FileSys} {p q n j k : Nat} {data map : InodeDisk} {i : Inode} {e : Library.Memory}
  {name : List UInt8}

theorem lookup (h : Directory s p n data map) (name : List UInt8) :
    ∃ found s', s.lookup p name = .ok (found, s') ∧ Asked s s' ∧ Granted s' ∧
      (found = none → namesOf s data n name = none) ∧
      ∀ e ofs, found = some (e, ofs) → ∃ j < n, ofs = entrySize * j ∧
        slots s data j = some (name, entrySector e) := by
  obtain ⟨i, dir, rfl⟩ := h.dir
  obtain ⟨found, s', ran, asked, memory, hit, miss⟩ := dir.lookupFrom name (s.entryRounds p) 0
  refine ⟨found, s', ran, asked, memory h.granted, ?_, ?_⟩
  · intro none
    apply SlotTable.toMap_eq_none.mpr
    intro j inside
    exact miss h.granted (by rw [dir.rounds]; omega) none j (Nat.zero_le j) inside
  · intro e ofs some
    obtain ⟨j, inside, place, named, same, _⟩ := hit e ofs some
    exact ⟨j, inside, place, same.trans named⟩

/-- An entry of the directory is written, and the sectors that the entries name are as they
should be. -/
theorem write (h : Directory s p n data map) (e : Library.Memory) (j : Nat) :
    ∃ size s', s.writeAt p e entrySize (entrySize * j) = .ok (size, s') ∧ Kept s s' ∧
      Base s' p n data map ∧ s'.freeMap = s.freeMap ∧ s'.device.size = s.device.size ∧
      (∀ r, ¬ data.Has r → s'.device.sectors r = s.device.sectors r) ∧
      (j < n → size = entrySize ∧
        slots s' data = Function.update (slots s data) j (entryOf e)) ∧
      (j = n → size ≠ entrySize ∧ Asked s s') := by
  obtain ⟨i, dir, rfl⟩ := h.dir
  obtain ⟨size, s', ran, kept, grants, map, sizes, others, full, wrote, nothing⟩ := dir.write e j
  have granted : Granted s' := by
    intro k
    rw [grants]
    exact h.granted (k + 1)
  refine ⟨size, s', ran, kept, ?_, map, sizes, others, ?_, ?_⟩
  · exact h.toBase.next granted (h.table.congr kept) sizes (by rw [map]) kept.mapFile
      fun q _ => .of_eq (congrFun kept.inodes q)
  · intro room
    have whole := full.mpr ⟨room, h.granted.first⟩
    exact ⟨whole, wrote whole⟩
  · intro atEnd
    have short : size ≠ entrySize := fun whole => Nat.ne_of_lt (full.mp whole).1 atEnd
    exact ⟨short, kept, nothing short, map⟩

/-- `dir_add` binds a name to the sector of an inode that no entry names. -/
theorem add (h : Directory s p n data map) (text : (0 : UInt8) ∉ name)
    (new : Files s p data map fun x => Bound s data n x ∨ x = k) (unbound : ¬ Bound s data n k) :
    ∃ added s', s.dirAdd p name k = .ok (added, s') ∧ Directory s' p n data map ∧
      (added = true ↔ ValidName name ∧ namesOf s data n name = none ∧
        {x | namesOf s data n x ≠ none}.ncard < n) ∧
      (added = true → namesOf s' data n = Function.update (namesOf s data n) name (some k)) ∧
      (added = false → Asked s s') := by
  rw [FileSys.dirAdd]
  split
  next bad =>
    refine ⟨false, s, rfl, h, ?_, fun no => (by cases no), fun _ => Asked.refl s⟩
    refine iff_of_false Bool.false_ne_true fun good => ?_
    cases bad with
    | inl empty => exact good.1.1 empty
    | inr long => exact Nat.not_le_of_lt long good.1.2
  next good =>
    have valid : ValidName name :=
      ⟨fun empty => good (.inl empty), Nat.le_of_not_lt fun long => good (.inr long)⟩
    obtain ⟨found, s₁, looked, asked, granted₁, miss, hit⟩ := h.lookup name
    have h₁ := h.asked asked granted₁
    simp only [looked, bind, Except.bind]
    cases found with
    | some place =>
        obtain ⟨e, ofs⟩ := place
        obtain ⟨j, inside, _, here⟩ := hit e ofs rfl
        refine ⟨false, s₁, rfl, h₁, ?_, fun no => (by cases no), fun _ => asked⟩
        refine iff_of_false Bool.false_ne_true fun free => ?_
        exact SlotTable.toMap_eq_none.mp free.2.1 j inside _ here
    | none =>
        have absent := miss rfl
        obtain ⟨i, dir, same⟩ := h₁.dir
        obtain ⟨e, j, s₂, ran, asked₂, granted₂, most, free, taken⟩ :=
          dir.freeSlotFrom granted₁ (s₁.entryRounds p) 0 s₁.junk (by rw [dir.rounds]; omega)
            (Nat.zero_le n)
        have ran : FileSys.freeSlotFrom p (s₁.entryRounds p) 0 s₁.junk s₁ = _ := ran
        have both := asked.trans asked₂
        have h₂ := h.asked both granted₂
        have free : j < n → slots s data j = none := by
          rw [← asked.slots]
          exact same ▸ free
        have taken : ∀ l < j, slots s data l ≠ none := by
          rw [← asked.slots]
          exact fun l upper => same ▸ taken l (Nat.zero_le l) upper
        obtain ⟨size, s₃, wrote, kept, base, map₃, sizes, others, whole, full⟩ :=
          h₂.write (fillEntry e name k) j
        simp only [ran, wrote]
        by_cases room : j < n
        · -- A free slot was found, and the entry fits.
          obtain ⟨rfl, slots₃⟩ := whole room
          have bound : k < 2 ^ 32 := by
            have marked := Bitmap.lt_of_test (new.marked (.inr rfl))
            obtain ⟨i, dir, _⟩ := h.dir
            have := dir.onDisk.device
            have := h.sizes
            omega
          rw [entryOf_fillEntry text valid.2 bound, both.slots] at slots₃
          have fresh : ∀ l < n, ∀ other, slots s data l ≠ some (other, k) :=
            fun l hl other here => unbound ⟨l, hl, other, here⟩
          have named {x : Nat} (now : Bound s₃ data n x) : Bound s data n x ∨ x = k := by
            obtain ⟨l, hl, other, here⟩ := now
            rw [slots₃, Function.update_apply] at here
            split at here
            next =>
              cases here
              exact .inr rfl
            next => exact .inl ⟨l, hl, other, here⟩
          refine ⟨true, s₃, ?_, ?_, ?_, ?_, fun no => (by cases no)⟩
          · rw [beq_self_eq_true]
            rfl
          · constructor
            case toBase => exact base
            case entries =>
              rw [slots₃]
              exact h.entries.bind room (free room) valid absent fresh
            case files =>
              apply (new.asked both).next (fun x => named) sizes kept.mapFile
              case sectors => exact fun x now => others x (new.off x (named now)).1
              case marks => exact fun _ _ _ marked => map₃ ▸ marked
              case inodes => exact fun q j now _ => .inl ⟨j, kept.inodes ▸ now, rfl, rfl⟩
          · refine iff_of_true rfl ⟨valid, absent, ?_⟩
            exact (SlotTable.ncard_lt_iff h.entries.distinct).mpr ⟨j, room, free room⟩
          · intro _
            rw [namesOf, slots₃]
            exact (h.entries.distinct.bind room (free room) absent).2
        · have atEnd : j = n := Nat.le_antisymm most (Nat.not_lt.mp room)
          obtain ⟨short, asked₃⟩ := full atEnd
          have all := both.trans asked₃
          refine ⟨false, s₃, ?_, h.asked all base.granted, ?_, fun no => (by cases no),
            fun _ => all⟩
          · rw [beq_false_of_ne short]
            rfl
          · refine iff_of_false Bool.false_ne_true fun free => ?_
            obtain ⟨l, hl, none⟩ := (SlotTable.ncard_lt_iff h.entries.distinct).mp free.2.2
            exact taken l (atEnd ▸ hl) none

theorem openEntry (h : Directory s p n data map) (named : Bound s data n k) :
    ∃ q i s', s.inodeOpen k = .ok (some q, s') ∧ Directory s' p n data map ∧
      s'.inodes = Function.update s.inodes q (some i) ∧ i.sector = k ∧
      i.data = dataOf s.device k ∧ ¬ Own s p q ∧ s'.device = s.device ∧ s'.freeMap = s.freeMap ∧
      s'.freeMapFile = s.freeMapFile := by
  have inside : k < s.device.size := h.sizes ▸ Bitmap.lt_of_test (h.files.marked named)
  obtain ⟨q, i, s', ran, table, granted, device, map', mapFile, inodes, sector, origin⟩ :=
    h.table.openGranted h.granted inside
  have known : i.data = dataOf s.device k ∧ ¬ Own s p q := by
    cases origin with
    | inl new =>
        obtain ⟨closed, rfl, _⟩ := new
        exact ⟨rfl, fun own => h.found own closed⟩
    | inr old =>
        obtain ⟨j, found, rfl⟩ := old
        cases sector
        exact h.files.cached q j found named
  have same : slots s' data = slots s data := by rw [slots, slots, device]
  refine ⟨q, i, s', ran, ?_, inodes, sector, known.1, known.2, device, map', mapFile⟩
  constructor
  case toBase =>
    apply h.toBase.next granted table (by rw [device]) (by rw [map']) mapFile
    intro q' own
    apply SameInode.of_eq
    rw [inodes]
    apply Function.update_of_ne
    intro eq
    exact known.2 (eq ▸ own)
  case entries => exact same ▸ h.entries
  case files =>
    rw [Bound.congr fun j _ => congrFun same j]
    apply h.files.next (fun _ named => named) (by rw [device]) mapFile
    case sectors => exact fun x _ => by rw [device]
    case marks => exact fun _ _ _ marked => map' ▸ marked
    case inodes =>
      intro q' j' now _
      rw [inodes, Function.update_apply] at now
      split at now
      next eq =>
        cases now
        exact .inr ⟨sector ▸ known.1, eq ▸ known.2⟩
      next => exact .inl ⟨j', now, rfl, rfl⟩

theorem find (h : Directory s p n data map) (name : List UInt8) :
    ∃ found s', s.dirLookup p name = .ok (found, s') ∧ Directory s' p n data map ∧
      namesOf s' data n = namesOf s data n ∧
      (found.bind fun q => (s'.inodes q).map Inode.sector) = namesOf s data n name ∧
      (found = none → Asked s s') ∧ ∀ q, found = some q → s'.inodes q ≠ none := by
  obtain ⟨found, s₁, looked, asked, granted₁, miss, hit⟩ := h.lookup name
  have h₁ := h.asked asked granted₁
  have names₁ : namesOf s₁ data n = namesOf s data n := by rw [namesOf, namesOf, asked.slots]
  simp only [FileSys.dirLookup, looked, bind, Except.bind]
  cases found with
  | none =>
      exact ⟨none, s₁, rfl, h₁, names₁, (miss rfl).symm, fun _ => asked, fun _ no => (by cases no)⟩
  | some place =>
      obtain ⟨e, ofs⟩ := place
      obtain ⟨j, inside, _, here⟩ := hit e ofs rfl
      have named : Bound s₁ data n (entrySector e) := ⟨j, inside, name, asked.slots ▸ here⟩
      obtain ⟨q, i, s₂, ran, h₂, inodes, sector, _, _, device, _⟩ := h₁.openEntry named
      have opened : s₂.inodes q = some i := by rw [inodes, Function.update_self]
      refine ⟨some q, s₂, ran, h₂, ?_, ?_, fun no => (by cases no), ?_⟩
      · rw [← names₁, namesOf, namesOf, slots, slots, device]
      · rw [Option.bind_some, opened, Option.map_some, sector]
        exact ((SlotTable.toMap_eq_some h.entries.distinct).mpr ⟨j, inside, here⟩).symm
      · intro q' same
        cases same
        rw [opened]
        exact Option.some_ne_none i

/-- `dir_remove` unbinds a name and releases the inode, unless somebody has it open. -/
theorem remove (h : Directory s p n data map) (name : List UInt8) :
    ∃ removed s', s.dirRemove p name = .ok (removed, s') ∧ Directory s' p n data map ∧
      (removed = true ↔ namesOf s data n name ≠ none) ∧
      (removed = true → namesOf s' data n = Function.update (namesOf s data n) name none) ∧
      (removed = false → Asked s s') := by
  obtain ⟨found, s₁, looked, asked, granted₁, miss, hit⟩ := h.lookup name
  have h₁ := h.asked asked granted₁
  simp only [FileSys.dirRemove, looked, bind, Except.bind]
  cases found with
  | none =>
      exact ⟨false, s₁, rfl, h₁, iff_of_false Bool.false_ne_true fun bound => bound (miss rfl),
        fun no => (by cases no), fun _ => asked⟩
  | some place =>
      obtain ⟨e, ofs⟩ := place
      obtain ⟨j, inside, rfl, here⟩ := hit e ofs rfl
      have here₁ : slots s₁ data j = some (name, entrySector e) := asked.slots ▸ here
      have named : Bound s₁ data n (entrySector e) := ⟨j, inside, name, here₁⟩
      obtain ⟨q, i, s₂, opened, h₂, inodes₂, sector, known, strange, device₂, map₂, file₂⟩ :=
        h₁.openEntry named
      obtain ⟨size, s₃, wrote, kept, base₃, map₃, sizes₃, others₃, whole, _⟩ :=
        h₂.write (e.fill 19 1 0) j
      obtain ⟨rfl, slots₃⟩ := whole inside
      have blank : entryOf (e.fill 19 1 0) = none := by
        rw [entryOf, inUse, Memory.fill_apply (by omega) (by omega)]
        rfl
      have slots₂ : slots s₂ data = slots s data := by
        rw [← asked.slots, slots, slots, device₂]
      rw [blank, slots₂] at slots₃
      have found₃ : s₃.inodes q = some i := by rw [kept.inodes, inodes₂, Function.update_self]
      have files₁ := h₁.files
      have map₃₁ : s₃.freeMap = s₁.freeMap := map₃.trans map₂
      have file₃₁ : s₃.freeMapFile = s₁.freeMapFile := kept.mapFile.trans file₂
      have size₃₁ : s₃.device.size = s₁.device.size := by rw [sizes₃, device₂]
      have mine {r : Nat} (has : i.data.Has r) :
          Holds s₁.device (Bound s₁ data n) (.data, entrySector e) r :=
        ⟨named, by rw [Has, ← known]; exact has⟩
      obtain ⟨s₄, s₅, removed, closed, base₅, file₅, size₅, others₅, inodes₅, left₅, marks₅⟩ :=
        base₃.removeInode found₃ (fun own => strange ((Own.congr file₃₁).mp own))
          (by rw [map₃₁, sector]; exact files₁.marked named)
          (by rw [size₃₁, known]; exact (files₁.onDisk _ named).fits) fun r has => by
            refine ⟨map₃₁ ▸ files₁.backed.used_of_held _ r (mine has), fun same => ?_⟩
            cases files₁.backed.injective _ (.inode, entrySector e) r (mine has)
              ⟨named, same.trans sector⟩
      have length : data.length = n * entrySize := by
        obtain ⟨i, dir, rfl⟩ := h.dir
        exact dir.length
      have slots₅ : ∀ l < n, slots s₅ data l = Function.update (slots s data) j none l := by
        rw [← slots₃]
        exact slots_congr length fun r has => others₅ r (base₃.apart r has)
      have named₅ {x : Nat} (now : Bound s₅ data n x) :
          Bound s₁ data n x ∧ x ≠ entrySector e := by
        obtain ⟨l, hl, other, there⟩ := now
        rw [slots₅ l hl, Function.update_apply] at there
        split at there
        next => cases there
        next differ =>
          refine ⟨⟨l, hl, other, asked.slots ▸ there⟩, fun same => differ ?_⟩
          exact h.entries.once l hl j inside other name _ (same ▸ there) here
      have unbound := h.entries.distinct.unbind inside here
      refine ⟨true, s₅, ?_, ⟨base₅, ?_, ?_⟩, ?_, ?_, fun no => (by cases no)⟩
      · simp only [opened, wrote, if_true, removed, closed]
        rfl
      · exact (h.entries.unbind inside here).congr slots₅
      · apply files₁.next (fun x now => (named₅ now).1) (size₅.trans size₃₁) (file₅.trans file₃₁)
        case sectors =>
          intro x now
          rw [others₅ x (files₁.off x (named₅ now).1).2, others₃ x (files₁.off x (named₅ now).1).1,
            device₂]
        case marks =>
          intro o r held was
          refine marks₅ r (map₃₁ ▸ was) (fun same => ?_) fun has => ?_
          · have both := files₁.backed.injective o (.inode, entrySector e) r
              ⟨(named₅ held.1).1, held.2⟩ ⟨named, same.trans sector⟩
            exact (named₅ held.1).2 (congrArg Prod.snd both)
          · have both := files₁.backed.injective o (.data, entrySector e) r
              ⟨(named₅ held.1).1, held.2⟩ (mine has)
            exact (named₅ held.1).2 (congrArg Prod.snd both)
        case inodes =>
          intro q' j' now bound
          have other : q' ≠ q := by
            intro same
            subst same
            exact (named₅ bound).2 ((left₅ j' now).trans sector)
          refine .inl ⟨j', ?_, rfl, rfl⟩
          rw [inodes₅ q' other, kept.inodes, inodes₂, Function.update_of_ne other] at now
          exact now
      · refine iff_of_true rfl ?_
        rw [namesOf, (SlotTable.toMap_eq_some h.entries.distinct).mpr ⟨j, inside, here⟩]
        exact Option.some_ne_none _
      · intro _
        rw [namesOf, SlotTable.toMap_congr slots₅]
        exact unbound.2

end Directory
end CS162.Pintos.FileSystem
