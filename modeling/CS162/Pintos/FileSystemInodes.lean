import Mathlib.Data.List.Count
import CS162.Pintos.FileSystemInvariant

/-!
What opening, closing, removing and creating an inode does to the invariant. The last
close of a removed inode is the only call that clears marks.
-/

namespace CS162.Pintos.FileSystem
open CS162.Library

/-- The marks that are cleared are those of the inodes that are released. -/
def Frees (s s' : FileSys) : Prop :=
  ∃ new, s'.events = new ++ s.events ∧ ∀ r, Marked s.freeMap r →
    (¬ Marked s'.freeMap r ↔ ∃ p k data, .released p k data ∈ new ∧ (r = k ∨ data.Has r))

/-- Whatever is open under an old pointer was open under it before. -/
structure Follows (s s' : FileSys) : Prop where
  next : s.nextInode ≤ s'.nextInode
  sector : ∀ q i', s'.inodes q = some i' → q < s.nextInode →
    ∃ i, s.inodes q = some i ∧ i.sector = i'.sector

/-- Nothing is released. -/
structure Keeps (s s' : FileSys) : Prop where
  events : s'.events = s.events
  marks : ∀ r, Marked s.freeMap r → Marked s'.freeMap r

section Relations
variable {s s' s'' : FileSys}

theorem Follows.refl (s : FileSys) : Follows s s := ⟨Nat.le_refl _, fun _ i found _ => ⟨i, found, rfl⟩⟩

theorem Follows.trans (h : Follows s s') (h' : Follows s' s'') : Follows s s'' where
  next := Nat.le_trans h.next h'.next
  sector q i'' found old := by
    obtain ⟨i', found', same'⟩ := h'.sector q i'' found (Nat.lt_of_lt_of_le old h.next)
    obtain ⟨i, was, same⟩ := h.sector q i' found' old
    exact ⟨i, was, same.trans same'⟩

theorem Kept.follows (h : Kept s s') : Follows s s' where
  next := Nat.le_of_eq h.nextInode.symm
  sector _ i found _ := ⟨i, h.inodes ▸ found, rfl⟩

theorem Keeps.refl (s : FileSys) : Keeps s s := ⟨rfl, fun _ marked => marked⟩

theorem Keeps.trans (h : Keeps s s') (h' : Keeps s' s'') : Keeps s s'' :=
  ⟨h'.events.trans h.events, fun r marked => h'.marks r (h.marks r marked)⟩

theorem Keeps.of_same (events : s'.events = s.events) (map : s'.freeMap = s.freeMap) : Keeps s s' :=
  ⟨events, fun _ marked => map ▸ marked⟩

theorem Keeps.frees (h : Keeps s s') : Frees s s' := by
  refine ⟨[], h.events, fun r marked => iff_of_false (fun gone => gone (h.marks r marked)) ?_⟩
  rintro ⟨_, _, _, none, _⟩
  cases none

theorem Keeps.trans_frees (h : Keeps s s') (h' : Frees s' s'') : Frees s s'' := by
  obtain ⟨new, events, released⟩ := h'
  exact ⟨new, events.trans (congrArg _ h.events), fun r marked => released r (h.marks r marked)⟩

theorem Frees.of_removed (h : Frees s' s'') {p k : Nat} {data : InodeDisk}
    (events : s'.events = .removed p k data :: s.events) (map : s'.freeMap = s.freeMap) :
    Frees s s'' := by
  obtain ⟨new, eq, released⟩ := h
  refine ⟨new ++ [.removed p k data], by simp [eq, events], fun r marked => ?_⟩
  rw [released r (map ▸ marked)]
  simp

theorem Frees.trans_same (h : Frees s s') (events : s''.events = s'.events)
    (map : s''.freeMap = s'.freeMap) : Frees s s'' := by
  obtain ⟨new, eq, released⟩ := h
  exact ⟨new, events.trans eq, map ▸ released⟩

end Relations

section Openers
variable {s s' : FileSys} {openers openers' : List Nat} {p q k : Nat} {i : Inode}

theorem Sound.perm (h : Sound s openers) (same : openers.Perm openers') : Sound s openers' :=
  ⟨h.layout, h.cached, h.unique, fun p i found => (same.count_eq p) ▸ h.counted p i found,
    fun p => same.mem_iff.symm.trans (h.openers p), h.nodup, h.listed, h.fresh, h.removed,
    h.marked, h.released, h.history, h.mapFile⟩

theorem setInode_opened (i' : Inode) (found : s.inodes p = some i) (sector : i'.sector = i.sector) (k : Nat) :
    Opened (s.setInode p (some i')) k ↔ Opened s k := by
  constructor
  · rintro ⟨q, j, now, eq⟩
    rw [setInode_inodes] at now
    split at now
    next same =>
      cases now
      exact ⟨p, i, found, sector ▸ eq⟩
    next => exact ⟨q, j, now, eq⟩
  · rintro ⟨q, j, was, eq⟩
    by_cases same : q = p
    · subst same
      cases found.symm.trans was
      exact ⟨q, i', by rw [setInode_inodes, if_pos rfl], sector.trans eq⟩
    · exact ⟨q, j, by rw [setInode_inodes, if_neg same, was], eq⟩

theorem Sound.recount (h : Sound s openers) (found : s.inodes p = some i) {cnt : Nat}
    (count : cnt = openers'.count p) (some : p ∈ openers')
    (others : ∀ q, q ≠ p → openers'.count q = openers.count q) :
    Sound (s.setInode p (.some { i with openCnt := cnt })) openers' := by
  have get (q : Nat) : (s.setInode p (.some { i with openCnt := cnt })).inodes q =
      if q = p then .some { i with openCnt := cnt } else s.inodes q := setInode_inodes ..
  -- Every inode is an old one, up to its count.
  have old {q : Nat} {j : Inode}
      (now : (s.setInode p (.some { i with openCnt := cnt })).inodes q = .some j) :
      ∃ j' n, s.inodes q = .some j' ∧ j = { j' with openCnt := n } := by
    rw [get] at now
    split at now
    next same =>
      cases now
      exact ⟨i, cnt, same ▸ found, rfl⟩
    next => exact ⟨j, j.openCnt, now, rfl⟩
  have none_iff (q : Nat) :
      (s.setInode p (.some { i with openCnt := cnt })).inodes q = none ↔ s.inodes q = none := by
    rw [get]
    split
    next same => simp [same, found]
    next => rfl
  constructor
  case layout =>
    refine Live.congr (fun k => ?_) h.layout
    exact or_congr_right (or_congr_right (or_congr_right (setInode_opened { i with openCnt := cnt } found rfl k)))
  case cached =>
    intro q j now
    obtain ⟨j', n, was, rfl⟩ := old now
    exact h.cached q j' was
  case unique =>
    intro q q' j j' now now' same
    obtain ⟨_, _, was, rfl⟩ := old now
    obtain ⟨_, _, was', rfl⟩ := old now'
    exact h.unique q q' _ _ was was' same
  case counted =>
    intro q j now
    rw [get] at now
    split at now
    next same =>
      cases now
      exact same ▸ count
    next other => rw [others q other, h.counted q j now]
  case openers =>
    intro q
    rw [ne_eq, none_iff]
    by_cases same : q = p
    · rw [same, found]
      simpa using some
    · rw [← ne_eq, ← h.openers, ← List.count_pos_iff, others q same, List.count_pos_iff]
  case nodup => exact h.nodup
  case listed =>
    intro q
    rw [ne_eq, none_iff]
    exact h.listed q
  case fresh =>
    intro q bound
    rw [none_iff]
    exact h.fresh q bound
  case removed =>
    intro q j now removed
    obtain ⟨_, _, was, rfl⟩ := old now
    have := h.removed q _ was removed
    exact this
  case marked =>
    intro q j now removed
    obtain ⟨_, _, was, rfl⟩ := old now
    have := h.marked q _ was removed
    exact this
  case released =>
    intro q
    exact (h.released q).trans (if_congr (and_congr_right fun _ => (none_iff q).symm) rfl rfl)
  case history => exact h.history
  case mapFile =>
    obtain ⟨f, j, file, opened, sector⟩ := h.mapFile
    by_cases same : f.inode = p
    · rw [same, found] at opened
      cases opened
      exact ⟨f, { i with openCnt := cnt }, file, by rw [get, if_pos same], sector⟩
    · exact ⟨f, j, file, by rw [get, if_neg same, opened], sector⟩

theorem Sound.reopen (h : Sound s openers) (found : s.inodes p = some i) :
    Sound (s.inodeReopen p) (p :: openers) := by
  rw [FileSys.inodeReopen, found, Option.map_some]
  refine h.recount found ?_ List.mem_cons_self fun q other => ?_
  · rw [List.count_cons_self, h.counted p i found]
  · rw [List.count_cons_of_ne (Ne.symm other)]

theorem Sound.openNew (h : Sound s openers) (alive : Live s k) (closed : ¬ Opened s k) :
    Sound { s.setInode s.nextInode (some ⟨k, 1, false, 0, dataOf s.device k⟩) with
      openInodes := s.nextInode :: s.openInodes, nextInode := s.nextInode + 1 }
      (s.nextInode :: openers) := by
  have unused := h.fresh s.nextInode (Nat.le_refl _)
  have get (q : Nat) : (s.setInode s.nextInode (some ⟨k, 1, false, 0, dataOf s.device k⟩)).inodes q =
      if q = s.nextInode then some ⟨k, 1, false, 0, dataOf s.device k⟩ else s.inodes q :=
    setInode_inodes ..
  have free : s.nextInode ∉ openers := fun mine => (h.openers _).mp mine unused.1
  have old {q : Nat} {j : Inode}
      (now : (s.setInode s.nextInode (some ⟨k, 1, false, 0, dataOf s.device k⟩)).inodes q = some j) :
      q = s.nextInode ∧ j = ⟨k, 1, false, 0, dataOf s.device k⟩ ∨
        q ≠ s.nextInode ∧ s.inodes q = some j := by
    rw [get] at now
    split at now
    next same => exact .inl ⟨same, (Option.some.inj now).symm⟩
    next other => exact .inr ⟨other, now⟩
  have some_iff (q : Nat) :
      (s.setInode s.nextInode (some ⟨k, 1, false, 0, dataOf s.device k⟩)).inodes q ≠ none ↔
        q = s.nextInode ∨ s.inodes q ≠ none := by
    rw [get]
    split
    next same => simp [same]
    next other => simp [other]
  constructor
  case layout =>
    refine Live.congr (fun k' => ?_) h.layout
    rw [Live, Live]
    constructor
    · rintro (map | root | link | ⟨q, j, now, sector⟩)
      · exact .inl map
      · exact .inr (.inl root)
      · exact .inr (.inr (.inl link))
      · obtain ⟨_, rfl⟩ | ⟨_, was⟩ := old now
        · exact sector ▸ alive
        · exact .inr (.inr (.inr ⟨q, j, was, sector⟩))
    · rintro (map | root | link | ⟨q, j, was, sector⟩)
      · exact .inl map
      · exact .inr (.inl root)
      · exact .inr (.inr (.inl link))
      · refine .inr (.inr (.inr ⟨q, j, (get q).trans ?_, sector⟩))
        rw [if_neg, was]
        rintro rfl
        rw [unused.1] at was
        cases was
  case cached =>
    intro q j now
    obtain ⟨_, rfl⟩ | ⟨_, was⟩ := old now
    · exact ⟨rfl, rfl⟩
    · exact h.cached q j was
  case unique =>
    intro q q' j j' now now' same
    obtain ⟨here, rfl⟩ | ⟨_, was⟩ := old now
    · obtain ⟨here', rfl⟩ | ⟨_, was'⟩ := old now'
      · rw [here, here']
      · exact absurd ⟨q', j', was', same.symm⟩ closed
    · obtain ⟨here', rfl⟩ | ⟨_, was'⟩ := old now'
      · exact absurd ⟨q, j, was, same⟩ closed
      · exact h.unique q q' j j' was was' same
  case counted =>
    intro q j now
    obtain ⟨rfl, rfl⟩ | ⟨other, was⟩ := old now
    · rw [List.count_cons_self, List.count_eq_zero.mpr free]
    · rw [List.count_cons_of_ne (Ne.symm other), h.counted q j was]
  case openers =>
    intro q
    rw [some_iff, List.mem_cons, h.openers]
  case nodup => exact List.nodup_cons.mpr ⟨fun mine => (h.listed _).mp mine unused.1, h.nodup⟩
  case listed =>
    intro q
    rw [some_iff, List.mem_cons, h.listed]
  case fresh =>
    intro q bound
    have := h.fresh q (Nat.le_of_succ_le bound)
    refine ⟨?_, this.2⟩
    rw [show _ = _ from get q, if_neg (Nat.ne_of_gt bound), this.1]
  case removed =>
    intro q j now removed
    obtain ⟨_, rfl⟩ | ⟨_, was⟩ := old now
    · cases removed
    · exact h.removed q j was removed
  case marked =>
    intro q j now removed
    obtain ⟨rfl, _⟩ | ⟨_, was⟩ := old now
    · exact absurd (unused.2.symm.trans removed) Bool.false_ne_true
    · exact h.marked q j was removed
  case released =>
    intro q
    refine (h.released q).trans (if_congr (and_congr_right fun removed => ?_) rfl rfl)
    rw [show _ = _ from get q]
    split
    next same =>
      subst same
      rw [unused.2] at removed
      cases removed
    next => rfl
  case history => exact h.history
  case mapFile =>
    obtain ⟨f, j, file, was, sector⟩ := h.mapFile
    refine ⟨f, j, file, (get _).trans ?_, sector⟩
    rw [if_neg, was]
    intro same
    rw [same, unused.1] at was
    cases was

/-- What is open stays open. -/
def StayOpen (s s' : FileSys) : Prop :=
  ∀ q i, s.inodes q = some i → ∃ i', s'.inodes q = some i' ∧ i'.sector = i.sector

theorem Follows.of_update (found : s.inodes p = some i) {x : Option Inode}
    (same : ∀ i', x = some i' → i'.sector = i.sector)
    (inodes : s'.inodes = Function.update s.inodes p x) (next : s'.nextInode = s.nextInode) :
    Follows s s' where
  next := Nat.le_of_eq next.symm
  sector q j now _ := by
    rw [inodes, Function.update_apply] at now
    split at now
    next here => exact ⟨i, here ▸ found, (same j now).symm⟩
    next => exact ⟨j, now, rfl⟩

theorem inodeOpen_spec (h : Sound s openers) (alive : Live s k) :
    ∃ result s', s.inodeOpen k = .ok (result, s') ∧ s'.device = s.device ∧
      s'.freeMap = s.freeMap ∧ s'.events = s.events ∧ Follows s s' ∧ StayOpen s s' ∧
      match result with
      | none => Sound s' openers
      | some p => Sound s' (p :: openers) ∧ ∃ i, s'.inodes p = some i ∧ i.sector = k := by
  have inside : ¬ k ≥ s.device.size := Nat.not_le.mpr (h.layout.lt_size alive)
  cases search : s.openInodes.find? fun p => (s.inodes p).any fun i => i.sector == k with
  | some p =>
      have here := List.find?_some search
      obtain ⟨i, found, sector⟩ := (Option.any_eq_true ..).mp here
      have inodes : (s.inodeReopen p).inodes =
          Function.update s.inodes p (some { i with openCnt := i.openCnt + 1 }) := by
        rw [FileSys.inodeReopen, found]
        rfl
      refine ⟨some p, s.inodeReopen p, ?_, rfl, rfl, rfl, .of_update found (fun j eq => ?_) inodes rfl,
        fun q j was => ?_, h.reopen found, { i with openCnt := i.openCnt + 1 }, ?_,
        by simpa using sector⟩
      · simp only [FileSys.inodeOpen, search]
      · cases eq
        rfl
      · rw [inodes, Function.update_apply]
        split
        next same =>
          cases (same ▸ found).symm.trans was
          exact ⟨_, rfl, rfl⟩
        next => exact ⟨j, was, rfl⟩
      · rw [inodes, Function.update_self]
  | none =>
      have closed : ¬ Opened s k := by
        rintro ⟨p, i, found, sector⟩
        have listed := (h.listed p).mpr (by rw [found]; exact Option.some_ne_none i)
        have := List.find?_eq_none.mp search p listed
        simp [found, sector] at this
      simp only [FileSys.inodeOpen, search]
      cases granted : s.malloc.1 with
      | false =>
          exact ⟨none, s.malloc.2, rfl, rfl, rfl, rfl, (Kept.malloc s).follows, fun _ i was => ⟨i, was, rfl⟩,
            h.malloc⟩
      | true =>
          refine ⟨some s.nextInode, _, ?_, ?_, ?_, ?_, ?_, ?_, h.malloc.openNew alive closed, _,
            Function.update_self .., rfl⟩
          · have read : blockRead s.malloc.2.device k = .ok (s.device.sectors k) := if_neg inside
            simp only [read, onDevice, bind, Except.bind]
            rfl
          · rfl
          · rfl
          · rfl
          · refine ⟨Nat.le_succ _, fun q j now old => ⟨j, ?_, rfl⟩⟩
            exact (Function.update_of_ne (Nat.ne_of_lt old) ..).symm.trans now
          · intro q j was
            refine ⟨j, (Function.update_of_ne ?_ ..).trans was, rfl⟩
            rintro rfl
            cases (h.fresh s.nextInode (Nat.le_refl _)).1.symm.trans was

theorem live_drop (list : List Nat) (events : List Event) (k : Nat) :
    Live { s.setInode p none with openInodes := list, events := events } k ↔
      k = freeMapSector ∨ k = rootDirSector ∨ Linked s.device k ∨
        ∃ q i, q ≠ p ∧ s.inodes q = some i ∧ i.sector = k := by
  refine or_congr_right (or_congr_right (or_congr_right ?_))
  refine exists_congr fun q => exists_congr fun i => ?_
  rw [← and_assoc]
  refine and_congr_left fun _ => ?_
  rw [show _ = _ from setInode_inodes ..]
  split
  next same => simp [same]
  next other => simp [other]

theorem Sound.drop (h : Sound s openers) (found : s.inodes p = some i) (last : openers.count p = 1)
    (stays : ∀ f, s.freeMapFile = some f → f.inode ∈ openers.erase p) :
    Sound { s.setInode p none with
      openInodes := s.openInodes.erase p
      events := if i.removed then .released p i.sector i.data :: s.events else s.events }
      (openers.erase p) := by
  have gone : p ∉ openers.erase p := by
    rw [← List.count_eq_zero, List.count_erase_self, last]
  have get (q : Nat) : (s.setInode p none).inodes q = if q = p then none else s.inodes q :=
    setInode_inodes ..
  have old {q : Nat} {j : Inode} (now : (s.setInode p none).inodes q = some j) :
      q ≠ p ∧ s.inodes q = some j := by
    rw [get] at now
    split at now
    next => cases now
    next other => exact ⟨other, now⟩
  have some_iff (q : Nat) : (s.setInode p none).inodes q ≠ none ↔ q ≠ p ∧ s.inodes q ≠ none := by
    rw [get]
    split
    next same => simp [same]
    next other => simp [other]
  have removes (q : Nat) : (if i.removed then .released p i.sector i.data :: s.events
      else s.events).any (Event.removes q) = s.events.any (Event.removes q) := by
    split
    next => simp [Event.removes]
    next => rfl
  have removed_mem (e : Event) (inside : e ∈ s.events) : e ∈ (if i.removed then
      .released p i.sector i.data :: s.events else s.events) := by
    split
    next => exact List.mem_cons_of_mem _ inside
    next => exact inside
  constructor
  case layout =>
    refine h.layout.mono (fun k alive => ?_) (.inl rfl) (.inr (.inl rfl)) fun k link =>
      .inr (.inr (.inl link))
    refine ((live_drop ..).mp alive).imp_right fun rest => rest.imp_right fun rest =>
      rest.imp_right ?_
    rintro ⟨q, j, _, was, sector⟩
    exact ⟨q, j, was, sector⟩
  case cached => exact fun q j now => h.cached q j (old now).2
  case unique => exact fun q q' j j' now now' => h.unique q q' j j' (old now).2 (old now').2
  case counted =>
    intro q j now
    rw [List.count_erase_of_ne (old now).1, h.counted q j (old now).2]
  case openers =>
    intro q
    rw [some_iff]
    by_cases same : q = p
    · rw [same]
      exact iff_of_false gone fun left => left.1 rfl
    · rw [List.mem_erase_of_ne same, h.openers]
      exact (and_iff_right same).symm
  case nodup => exact h.nodup.erase p
  case listed =>
    intro q
    rw [some_iff, h.nodup.mem_erase_iff, h.listed]
  case fresh =>
    intro q bound
    have := h.fresh q bound
    refine ⟨(get q).trans ?_, (removes q).trans this.2⟩
    split
    next => rfl
    next => exact this.1
  case removed =>
    intro q j now removed
    obtain ⟨inside, rest⟩ := h.removed q j (old now).2 removed
    exact ⟨removed_mem _ inside, rest⟩
  case marked =>
    intro q j now removed
    exact h.marked q j (old now).2 ((removes q).symm.trans removed)
  case released =>
    intro q
    have before := h.released q
    by_cases same : q = p
    · subst same
      rw [if_neg (by simp [found])] at before
      have none : (s.setInode q none).inodes q = none := (get q).trans (if_pos rfl)
      cases flag : i.removed with
      | true =>
          have inside := (h.removed q i found flag).1
          have any : s.events.any (Event.removes q) = true :=
            List.any_eq_true.mpr ⟨_, inside, by simp [Event.removes]⟩
          simp [none, any, before, Event.removes, Event.releases]
      | false =>
          have any : s.events.any (Event.removes q) = false := by
            by_contra some
            rw [Bool.not_eq_false] at some
            rw [h.marked q i found some] at flag
            cases flag
          simp [any, before]
    · have count : (if i.removed then .released p i.sector i.data :: s.events
          else s.events).countP (Event.releases q) = s.events.countP (Event.releases q) := by
        split
        next => simp [Event.releases, Ne.symm same]
        next => rfl
      refine count.trans (before.trans (if_congr ?_ rfl rfl))
      rw [removes]
      refine and_congr_right fun _ => ?_
      rw [show _ = _ from get q, if_neg same]
  case history =>
    intro q k data inside
    split at inside
    next flag =>
      cases List.mem_cons.mp inside with
      | inl new =>
          cases new
          exact removed_mem _ (h.removed p i found flag).1
      | inr before => exact removed_mem _ (h.history q k data before)
    next => exact removed_mem _ (h.history q k data inside)
  case mapFile =>
    obtain ⟨f, j, file, opened, sector⟩ := h.mapFile
    refine ⟨f, j, file, (get _).trans ?_, sector⟩
    rw [if_neg, opened]
    intro same
    exact gone (same ▸ stays f file)

/-- The sectors of a removed inode are released, whichever way its pointer changed. -/
theorem Sound.release (h : Sound s openers) (found : s.inodes p = some i)
    (flag : i.removed = true) (i' : Option Inode) (list : List Nat) :
    ∃ s₁ s₂, { s with inodes := Function.update s.inodes p i', openInodes := list }.freeMapRelease i.sector 1 = .ok s₁ ∧
      s₁.freeMapRelease i.data.start (bytesToSectors i.data.length) = .ok s₂ ∧
      Touches (dataOf s.device freeMapSector)
        { s with inodes := Function.update s.inodes p i', openInodes := list } s₂ ∧
      ∀ r, Marked s₂.freeMap r ↔ Marked s.freeMap r ∧ ¬ (r = i.sector ∨ i.data.Has r) := by
  obtain ⟨f, j, file, opened, sector⟩ := h.mapFile
  have alive := Sound.live_of_opened found
  have data : dataOf s.device i.sector = i.data := (h.cached p i found).1.symm
  have apart : f.inode ≠ p := by
    intro same
    rw [same, found] at opened
    cases opened
    have := (h.removed p i found flag).2.1
    rw [sector] at this
    cases this
  have ready : MapReady { s with inodes := Function.update s.inodes p i', openInodes := list } j := by
    refine ⟨⟨f, file, (Function.update_apply ..).trans ?_⟩, h.onDisk opened, (h.cached _ j opened).2⟩
    rw [if_neg apart, opened]
  have same : j.data = dataOf s.device freeMapSector := by rw [(h.cached _ j opened).1, sector]
  have only {r : Nat} (run : InRun i.sector 1 r) : r = i.sector := by
    have := run.1
    have := run.2
    omega
  have bound := h.layout.lt_size alive
  have size := h.layout.size
  obtain ⟨s₁, first, touches, marks⟩ := freeMapRelease_spec ready i.sector 1
    (show i.sector + 1 ≤ s.freeMap.size by omega) fun r run =>
      only run ▸ h.layout.holds_inode alive
  have fits := (h.onDisk found).fits
  obtain ⟨s₂, second, touches', marks'⟩ := freeMapRelease_spec
    (ready.congr touches.toKept touches.size)
    i.data.start (bytesToSectors i.data.length)
    (by rw [touches.bits]; exact fits.trans (Nat.le_of_eq size.symm)) fun r run => by
      have has : i.data.Has r := run
      refine (marks r).mpr ⟨h.layout.holds_data alive (data ▸ has), fun first => ?_⟩
      rw [only first, ← data] at has
      exact h.layout.inode_apart alive alive has
  refine ⟨s₁, s₂, first, second, same ▸ touches.trans touches', fun r => ?_⟩
  rw [marks', marks, and_assoc, ← not_or]
  refine and_congr_right fun _ => not_congr (or_congr ⟨only, ?_⟩ Iff.rfl)
  rintro rfl
  exact ⟨Nat.le_refl _, Nat.lt_succ_self _⟩

theorem Sound.closeRemoved (h : Sound s openers) (found : s.inodes p = some i)
    (flag : i.removed = true) (last : openers.count p = 1)
    (stays : ∀ f, s.freeMapFile = some f → f.inode ∈ openers.erase p) (i' : Option Inode) :
    ∃ s₁ s₂, { s with
        inodes := Function.update s.inodes p i'
        openInodes := s.openInodes.erase p }.freeMapRelease i.sector 1 = .ok s₁ ∧
      s₁.freeMapRelease i.data.start (bytesToSectors i.data.length) = .ok s₂ ∧
      Sound { s₂.setInode p none with events := .released p i.sector i.data :: s₂.events }
        (openers.erase p) ∧ s₂.events = s.events ∧ s₂.nextInode = s.nextInode ∧
      s₂.inodes = Function.update s.inodes p i' ∧
      ∀ r, Marked s₂.freeMap r ↔ Marked s.freeMap r ∧ ¬ (r = i.sector ∨ i.data.Has r) := by
  obtain ⟨s₁, s₂, first, second, touches, marks⟩ := h.release found flag i' (s.openInodes.erase p)
  refine ⟨s₁, s₂, first, second, ?_, touches.events, touches.nextInode, touches.inodes, marks⟩
  have dropped := h.drop found last stays
  rw [flag] at dropped
  have t : Touches (dataOf s.device freeMapSector)
      { s.setInode p none with
        openInodes := s.openInodes.erase p
        events := .released p i.sector i.data :: s.events }
      { s₂.setInode p none with events := .released p i.sector i.data :: s₂.events } := by
    refine ⟨⟨touches.mapFile, ?_, touches.openInodes, touches.nextInode,
      congrArg (List.cons _) touches.events⟩, touches.size, touches.bits, touches.others⟩
    exact (congrArg (Function.update · p none) touches.inodes).trans (Function.update_idem ..)
  refine (dropped.touch (.inl rfl) (by decide) t fun o r held marked => ?_).1
  -- What another inode owns is not released.
  obtain ⟨part, k⟩ := o
  obtain ⟨_, file, unlinked⟩ := h.removed p i found flag
  have alive := Sound.live_of_opened found
  have other : k ≠ i.sector := by
    rintro rfl
    obtain map | root | link | ⟨q, j, apart, was, sector⟩ := (live_drop ..).mp held.1
    · rw [show i.sector = 0 from map] at file
      cases file
    · rw [show i.sector = 1 from root] at file
      exact absurd file (by decide)
    · exact unlinked link
    · exact apart (h.unique q p j i was found sector)
  have before : Live s k := by
    refine ((live_drop ..).mp held.1).imp_right fun rest => rest.imp_right fun rest =>
      rest.imp_right ?_
    rintro ⟨q, j, _, was, sector⟩
    exact ⟨q, j, was, sector⟩
  have mine (part' : Part) (has : Has s.device (part', i.sector) r) : False := by
    have same := h.layout.backed.injective _ (part', i.sector) r ⟨before, held.2⟩ ⟨alive, has⟩
    exact other (Prod.mk.inj same).2
  refine (marks r).mpr ⟨marked, ?_⟩
  rintro (sector | data)
  · exact mine .inode sector
  · refine mine .data ?_
    rw [Has, ← (h.cached p i found).1]
    exact data

/-- An opener leaves. Nothing is released unless it is the last one of a removed inode. -/
theorem inodeClose_spec (h : Sound s openers) (found : s.inodes p = some i)
    (stays : ∀ f, s.freeMapFile = some f → f.inode ∈ openers.erase p) :
    ∃ s', s.inodeClose (some p) = .ok s' ∧ Sound s' (openers.erase p) ∧ Frees s s' ∧
      Follows s s' ∧ (∀ q, q ≠ p → s'.inodes q = s.inodes q) ∧
      (i.removed = false → s'.events = s.events ∧ s'.freeMap = s.freeMap ∧ s'.device = s.device) := by
  have count := h.counted p i found
  have positive : 0 < openers.count p := by
    rw [List.count_pos_iff, h.openers, found]
    exact Option.some_ne_none i
  simp only [FileSys.inodeClose, inode_eq found, bind, Except.bind]
  by_cases last : i.openCnt - 1 = 0
  · have once : openers.count p = 1 := by omega
    rw [if_pos last]
    cases flag : i.removed with
    | false =>
        have dropped := h.drop found once stays
        rw [flag] at dropped
        refine ⟨{ s.setInode p none with openInodes := s.openInodes.erase p }, ?_, dropped,
          (Keeps.of_same rfl rfl).frees, .of_update found (fun _ none => by cases none) rfl rfl,
          fun q other => Function.update_of_ne other .., fun _ => ⟨rfl, rfl, rfl⟩⟩
        simp only [Bool.false_eq_true, if_false, FileSys.setInode, Function.update_idem]
        rfl
    | true =>
        obtain ⟨s₁, s₂, first, second, sound, events, next, inodes, marks⟩ :=
          h.closeRemoved found flag once stays (some { i with openCnt := i.openCnt - 1 })
        refine ⟨{ s₂.setInode p none with events := .released p i.sector i.data :: s₂.events }, ?_,
          sound, ⟨[.released p i.sector i.data], congrArg _ events, fun r marked => ?_⟩,
          .of_update found (x := none) (fun _ none => by cases none) ?_ next, fun q other => ?_,
          fun no => by cases no⟩
        · rw [flag] at first
          simp only [if_true, FileSys.setInode, first, second]
          rfl
        · refine (not_congr (marks r)).trans ?_
          rw [not_and_not_right]
          constructor
          · exact fun gone => ⟨p, i.sector, i.data, List.mem_singleton_self _, gone marked⟩
          · rintro ⟨_, _, _, inside, has⟩ _
            cases List.mem_singleton.mp inside
            exact has
        · exact (congrArg (Function.update · p none) inodes).trans (Function.update_idem ..)
        · refine (Function.update_of_ne other ..).trans ?_
          rw [inodes, Function.update_of_ne other]
  · rw [if_neg last]
    refine ⟨_, rfl, ?_, (Keeps.of_same rfl rfl).frees,
      .of_update found (x := some { i with openCnt := i.openCnt - 1 })
        (fun _ eq => Option.some.inj eq ▸ rfl) rfl rfl,
      fun q other => Function.update_of_ne other .., fun _ => ⟨rfl, rfl, rfl⟩⟩
    refine h.recount found ?_ ?_ fun q other => List.count_erase_of_ne other
    · rw [List.count_erase_self, count]
    · rw [← List.count_pos_iff, List.count_erase_self]
      omega

end Openers
section Remove
variable {s : FileSys} {openers : List Nat} {p : Nat} {i : Inode}

theorem inodeRemove_spec (h : Sound s openers) (found : s.inodes p = some i)
    (file : 2 ≤ i.sector) (unlinked : ¬ Linked s.device i.sector) :
    ∃ s', s.inodeRemove p = .ok s' ∧ Sound s' openers ∧ s'.freeMap = s.freeMap ∧
      s'.events = .removed p i.sector i.data :: s.events ∧ Follows s s' ∧
      s'.inodes p = some { i with removed := true } ∧ ∀ q, q ≠ p → s'.inodes q = s.inodes q := by
  have get (q : Nat) : Function.update s.inodes p (some { i with removed := true }) q =
      if q = p then some { i with removed := true } else s.inodes q := Function.update_apply ..
  have old {q : Nat} {j : Inode}
      (now : Function.update s.inodes p (some { i with removed := true }) q = some j) :
      ∃ j' b, s.inodes q = some j' ∧ j = { j' with removed := b } ∧
        (q = p ∧ b = true ∨ q ≠ p ∧ b = j'.removed) := by
    rw [get] at now
    split at now
    next same =>
      cases now
      exact ⟨i, true, same ▸ found, rfl, .inl ⟨same, rfl⟩⟩
    next other => exact ⟨j, j.removed, now, rfl, .inr ⟨other, rfl⟩⟩
  have none_iff (q : Nat) : Function.update s.inodes p (some { i with removed := true }) q = none ↔
      s.inodes q = none := by
    rw [get]
    split
    next same => simp [same, found]
    next => rfl
  refine ⟨{ s.setInode p (some { i with removed := true }) with
    events := .removed p i.sector i.data :: s.events }, ?_, ?_, rfl, rfl,
    .of_update found (x := some { i with removed := true })
      (fun _ eq => Option.some.inj eq ▸ rfl) rfl rfl, Function.update_self ..,
    fun _ other => Function.update_of_ne other ..⟩
  · simp only [FileSys.inodeRemove, inode_eq found, bind, Except.bind]
    rfl
  constructor
  case layout =>
    refine Live.congr (fun k => ?_) h.layout
    exact or_congr_right (or_congr_right (or_congr_right
      (setInode_opened { i with removed := true } found rfl k)))
  case cached =>
    intro q j now
    obtain ⟨j', _, was, rfl, _⟩ := old now
    exact h.cached q j' was
  case unique =>
    intro q q' j j' now now' same
    obtain ⟨_, _, was, rfl, _⟩ := old now
    obtain ⟨_, _, was', rfl, _⟩ := old now'
    exact h.unique q q' _ _ was was' same
  case counted =>
    intro q j now
    obtain ⟨j', _, was, rfl, _⟩ := old now
    exact h.counted q j' was
  case openers => exact fun q => (h.openers q).trans (not_congr (none_iff q).symm)
  case nodup => exact h.nodup
  case listed => exact fun q => (h.listed q).trans (not_congr (none_iff q).symm)
  case fresh =>
    intro q bound
    have := h.fresh q bound
    refine ⟨(none_iff q).mpr this.1, ?_⟩
    have other : p ≠ q := by
      rintro rfl
      rw [found] at this
      cases this.1
    simp [Event.removes, this.2, other]
  case removed =>
    intro q j now removed
    obtain ⟨j', b, was, rfl, ⟨rfl, _⟩ | ⟨_, rfl⟩⟩ := old now
    · cases found.symm.trans was
      exact ⟨List.mem_cons_self, file, unlinked⟩
    · have := h.removed q j' was removed
      exact ⟨List.mem_cons_of_mem _ this.1, this.2⟩
  case marked =>
    intro q j now removed
    obtain ⟨j', b, was, rfl, ⟨_, rfl⟩ | ⟨other, rfl⟩⟩ := old now
    · rfl
    · refine h.marked q j' was ?_
      simpa [Event.removes, Ne.symm other] using removed
  case released =>
    intro q
    have count : (Event.removed p i.sector i.data :: s.events).countP (Event.releases q) =
        s.events.countP (Event.releases q) := by simp [Event.releases]
    refine count.trans ((h.released q).trans (if_congr ?_ rfl rfl))
    refine (and_congr_left fun gone => ?_).trans (and_congr_right fun _ => (none_iff q).symm)
    have other : p ≠ q := by
      rintro rfl
      rw [found] at gone
      cases gone
    simp [Event.removes, other]
  case history =>
    intro q k data inside
    cases List.mem_cons.mp inside with
    | inl new => cases new
    | inr before => exact List.mem_cons_of_mem _ (h.history q k data before)
  case mapFile =>
    obtain ⟨f, j, mapFile, opened, sector⟩ := h.mapFile
    by_cases same : f.inode = p
    · rw [same, found] at opened
      cases opened
      rw [sector] at file
      cases file
    · exact ⟨f, j, mapFile, ((get _).trans (if_neg same)).trans opened, sector⟩

end Remove

section Create
variable {s : FileSys} {openers : List Nat} {k : Nat}

theorem blockWrite_spec {d : Disk} (contents : Sector) (inside : k < d.size) :
    ∃ d', blockWrite d k contents = .ok d' ∧ d'.size = d.size ∧ d'.sectors k = contents ∧
      ∀ r, r ≠ k → d'.sectors r = d.sectors r :=
  ⟨_, if_neg (Nat.not_le.mpr inside), rfl, Function.update_self ..,
    fun _ other => Function.update_of_ne other ..⟩

theorem zeroSectors_spec {d : Disk} (start n : Nat) (inside : start + n ≤ d.size) :
    ∃ d', FileSys.zeroSectors d start n = .ok d' ∧ d'.size = d.size ∧
      (∀ r, InRun start n r → d'.sectors r = fun _ => 0) ∧
      ∀ r, ¬ InRun start n r → d'.sectors r = d.sectors r := by
  induction n with
  | zero => exact ⟨d, rfl, rfl, fun r run => absurd run.2 (Nat.not_lt.mpr run.1), fun _ _ => rfl⟩
  | succ n ih =>
      obtain ⟨d', done, size, zeros, others⟩ := ih (by omega)
      obtain ⟨d'', wrote, size', here, others'⟩ := blockWrite_spec (d := d') (k := start + n)
        (fun _ => 0) (by omega)
      refine ⟨d'', ?_, size'.trans size, fun r run => ?_, fun r outside => ?_⟩
      · simp only [FileSys.zeroSectors, done, bind, Except.bind]
        exact wrote
      · by_cases last : r = start + n
        · rw [last, here]
        · rw [others' r last, zeros r ⟨run.1, by have := run.2; omega⟩]
      · rw [others' r, others r]
        · exact fun run => outside ⟨run.1, by have := run.2; omega⟩
        · rintro rfl
          exact outside ⟨by omega, by omega⟩

/-- A sector that is marked and belongs to nobody. -/
structure Reserved (s : FileSys) (k : Nat) : Prop where
  marked : Marked s.freeMap k
  unheld : ∀ o, ¬ Holds s.device (Live s) o k

theorem Sound.touchMap {s' : FileSys} (h : Sound s openers)
    (t : Touches (dataOf s.device freeMapSector) s s')
    (marks : ∀ r, Marked s.freeMap r → Marked s'.freeMap r) :
    Sound s' openers ∧ (∀ k, Linked s'.device k ↔ Linked s.device k) ∧
      ∀ o r, Holds s'.device (Live s') o r ↔ Holds s.device (Live s) o r := by
  have alive : Live s freeMapSector := .inl rfl
  obtain ⟨sound, links⟩ := h.touch alive (by decide) t fun _ r _ => marks r
  exact ⟨sound, links, t.toKept.holds links fun k alive' =>
    t.others k (h.layout.inode_apart alive' alive)⟩

theorem Sound.create {s₁ : FileSys} {start length : Nat} (h : Sound s openers)
    (reserved : Reserved s k) (bound : length < 2 ^ 31)
    (t : Touches (dataOf s.device freeMapSector) s s₁)
    (taken : Taken s.freeMap s₁.freeMap start (bytesToSectors length)) :
    ∃ d₁ d₂, blockWrite s₁.device k (toSector ⟨start, length⟩) = .ok d₁ ∧
      FileSys.zeroSectors d₁ start (bytesToSectors length) = .ok d₂ ∧
      Sound { s₁ with device := d₂ } openers ∧ Reserved { s₁ with device := d₂ } k ∧
      Spare d₂ s₁.freeMap (Live { s₁ with device := d₂ }) k := by
  have marks (r : Nat) (marked : Marked s.freeMap r) : Marked s₁.freeMap r :=
    (taken.marks r).mpr (.inr marked)
  have deviceSize := h.layout.device
  have mapSize := h.layout.size
  have inside := taken.inside
  have below : k < s.device.size := mapSize ▸ Bitmap.lt_of_test reserved.marked
  have size₁ := t.size
  obtain ⟨d₁, wrote, sizeD, here, elsewhere⟩ := blockWrite_spec (d := s₁.device) (k := k)
    (toSector ⟨start, length⟩) (by omega)
  obtain ⟨d₂, zeroed, size₂, _, others⟩ := zeroSectors_spec (d := d₁) start
    (bytesToSectors length) (by omega)
  have outside : ¬ InRun start (bytesToSectors length) k :=
    fun run => taken.free k run reserved.marked
  have mine : dataOf d₂ k = ⟨start, length⟩ := by
    rw [dataOf, others k outside, here]
    exact ofSector_toSector (show start < 2 ^ 32 by omega) (show length < 2 ^ 32 by omega)
  have same {r : Nat} (marked : Marked s.freeMap r) (other : r ≠ k)
      (apart : ¬ (dataOf s.device freeMapSector).Has r) : d₂.sectors r = s.device.sectors r := by
    rw [others r fun run => taken.free r run marked, elsewhere r other, t.others r apart]
  have alive : Live s freeMapSector := .inl rfl
  have inodes (k' : Nat) (alive' : Live s k') : d₂.sectors k' = s.device.sectors k' := by
    refine same (h.layout.holds_inode alive') ?_ (h.layout.inode_apart alive' alive)
    rintro rfl
    exact reserved.unheld (.inode, k') ⟨alive', rfl⟩
  have kept : Kept s { s₁ with device := d₂ } := ⟨t.mapFile, t.inodes, t.openInodes, t.nextInode,
    t.events⟩
  obtain ⟨sound, links⟩ := h.rewrite kept (size₂.trans (sizeD.trans size₁)) t.bits inodes (fun r has => by
    refine same (h.layout.holds_data h.layout.root has) ?_ fun has' => ?_
    · rintro rfl
      exact reserved.unheld (.data, rootDirSector) ⟨h.layout.root, has⟩
    · cases h.layout.data_apart alive h.layout.root has' has) fun _ r _ => marks r
  have holds := kept.holds links inodes
  have unheld (o : Part × Nat) : ¬ Holds d₂ (Live { s₁ with device := d₂ }) o k :=
    fun held => reserved.unheld o ((holds o k).mp held)
  have has_run {r : Nat} (has : (dataOf d₂ k).Has r) : InRun start (bytesToSectors length) r := by
    rw [mine] at has
    exact has
  refine ⟨d₁, d₂, wrote, zeroed, sound, ⟨marks k reserved.marked, unheld⟩, ?_, ?_, ?_⟩
  · rw [mine]
    exact ⟨show start + bytesToSectors length ≤ d₂.size by omega, by omega⟩
  · exact backed_one (marks k reserved.marked)
      (fun r has => (taken.marks r).mpr (.inl (has_run has))) fun has => outside (has_run has)
  · rintro o ⟨part, k'⟩ r held ⟨rfl, has⟩
    have before := (holds o r).mp held
    cases part with
    | inode => exact reserved.unheld o (has ▸ before)
    | data => exact taken.free r (has_run has) (h.layout.backed.used_of_held o r before)

theorem inodeCreate_spec (h : Sound s openers) (reserved : Reserved s k) {length : Nat}
    (bound : length < 2 ^ 31) :
    ∃ done s', s.inodeCreate k length = .ok (done, s') ∧ Kept s s' ∧ Sound s' openers ∧
      (∀ r, Marked s.freeMap r → Marked s'.freeMap r) ∧ Reserved s' k ∧
      (done = true → Spare s'.device s'.freeMap (Live s') k) := by
  rw [FileSys.inodeCreate]
  cases granted : s.malloc.1 with
  | false =>
      exact ⟨false, s.malloc.2, by simp only [granted]; rfl, Kept.malloc s, h.malloc,
        fun _ marked => marked, ⟨reserved.marked, reserved.unheld⟩, fun no => by cases no⟩
  | true =>
      obtain ⟨i, ready, data⟩ := h.malloc.mapReady
      obtain ⟨result, s₁, ran, touches, allocated, _⟩ :=
        freeMapAllocate_spec (bytesToSectors length) (.inr ready)
      rw [data] at touches
      simp only [granted, ran, if_true, bind, Except.bind]
      cases result with
      | none =>
          have marks := fun r => (allocated r).mpr
          obtain ⟨sound, links, holds⟩ := h.malloc.touchMap touches marks
          exact ⟨false, s₁, rfl, (Kept.malloc s).trans touches.toKept, sound, marks,
            ⟨marks k reserved.marked, fun o held => reserved.unheld o ((holds o k).mp held)⟩,
            fun no => by cases no⟩
      | some start =>
          obtain ⟨d₁, d₂, wrote, zeroed, sound, reserved', spare⟩ :=
            h.malloc.create ⟨reserved.marked, reserved.unheld⟩ bound touches allocated
          refine ⟨true, { s₁ with device := d₂ }, ?_, ⟨touches.mapFile, touches.inodes,
            touches.openInodes, touches.nextInode, touches.events⟩, sound,
            fun r marked => (allocated.marks r).mpr (.inr marked), reserved', fun _ => spare⟩
          simp only [wrote, onDevice, zeroed]
          rfl

end Create
end CS162.Pintos.FileSystem
