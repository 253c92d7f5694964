import CS162.Pintos.FileSystemDirectory

/-!
The calls of filesys.c keep the invariant, whether they succeed or not, and stop at
no assertion.
-/

namespace CS162.Pintos.FileSystem
open CS162.Library

/-- A file that is not the free map or the root directory is open. -/
def FileAt (s : FileSys) (q : Nat) : Prop := ∃ i, s.inodes q = some i ∧ 2 ≤ i.sector

section
variable {s s' : FileSys} {openers : List Nat} {p q : Nat} {name : List UInt8}

theorem FileAt.ne_root (file : FileAt s q) (root : RootAt s p) : q ≠ p := by
  rintro rfl
  obtain ⟨i, found, bound⟩ := file
  obtain ⟨j, found', sector⟩ := root
  cases found.symm.trans found'
  rw [sector] at bound
  exact absurd bound (by decide)

theorem closeFile (h : Sound s openers) (file : FileAt s q) :
    ∃ s', s.inodeClose (some q) = .ok s' ∧ Sound s' (openers.erase q) ∧ Frees s s' ∧
      Follows s s' := by
  obtain ⟨i, found, bound⟩ := file
  have other : i.sector ≠ freeMapSector := Nat.ne_of_gt (Nat.lt_of_lt_of_le Nat.two_pos bound)
  obtain ⟨s', closed, sound, frees, follows, _⟩ := inodeClose_spec h found (h.stays found other)
  exact ⟨s', closed, sound, frees, follows⟩

/-- `file_open` passes its opener on, or leaves it. -/
theorem fileOpen_spec (h : Sound s (q :: openers)) (file : FileAt s q) :
    ∃ result s', s.fileOpen (some q) = .ok (result, s') ∧ Frees s s' ∧ Follows s s' ∧
      match result with
      | none => Sound s' openers
      | some f => f.inode = q ∧ Sound s' (q :: openers) ∧ FileAt s' q := by
  rw [FileSys.fileOpen]
  cases granted : s.malloc.1 with
  | true =>
      refine ⟨some ⟨q, 0⟩, s.malloc.2, ?_, (Keeps.of_same rfl rfl).frees, (Kept.malloc s).follows, rfl,
        h.malloc, file⟩
      simp only [granted]
      rfl
  | false =>
      obtain ⟨s', closed, sound, frees, follows⟩ := closeFile h.malloc (file : FileAt s.malloc.2 q)
      rw [List.erase_cons_head] at sound
      refine ⟨none, s', ?_, frees, (Kept.malloc s).follows.trans follows, sound⟩
      simp only [granted, closed, bind, Except.bind]
      rfl

theorem filesysOpen_spec (h : Sound s openers) (name : List UInt8) :
    ∃ result s', s.filesysOpen name = .ok (result, s') ∧ Frees s s' ∧ Follows s s' ∧
      match result with
      | none => Sound s' openers
      | some f => Sound s' (f.inode :: openers) ∧ FileAt s' f.inode := by
  obtain ⟨dir, s₁, opened, events₁, map₁, _, follows₁, sound₁⟩ := dirOpenRoot_spec h
  have keeps₁ : Keeps s s₁ := .of_same events₁ map₁
  simp only [FileSys.filesysOpen, opened, bind, Except.bind]
  cases dir with
  | none =>
      refine ⟨none, s₁.malloc.2, ?_, keeps₁.frees, follows₁.trans (Kept.malloc s₁).follows,
        Sound.malloc sound₁⟩
      rw [FileSys.fileOpen]
      rfl
  | some p =>
      obtain ⟨sound₁, root₁⟩ := sound₁
      obtain ⟨found, s₂, looked, events₂, map₂, follows₂, root₂, sound₂⟩ :=
        dirLookup_spec sound₁ root₁ name
      have keeps₂ := keeps₁.trans (.of_same events₂ map₂)
      simp only [looked]
      cases found with
      | none =>
          obtain ⟨s₃, closed, sound₃, events₃, map₃, _, follows₃, _⟩ := dirClose_spec sound₂ root₂
          refine ⟨none, s₃.malloc.2, ?_, (keeps₂.trans (.of_same events₃ map₃)).frees,
            ((follows₁.trans follows₂).trans follows₃).trans (Kept.malloc s₃).follows,
            Sound.malloc sound₃⟩
          simp only [closed, FileSys.fileOpen]
          rfl
      | some q =>
          obtain ⟨sound₂, file₂⟩ := sound₂
          obtain ⟨s₃, closed, sound₃, events₃, map₃, _, follows₃, others⟩ :=
            dirClose_spec (sound₂.perm (.swap ..)) root₂
          have file₃ : FileAt s₃ q := by
            rw [FileAt, others q (FileAt.ne_root file₂ root₂)]
            exact file₂
          obtain ⟨result, s₄, ran, frees, follows₄, sound₄⟩ := fileOpen_spec sound₃ file₃
          refine ⟨result, s₄, ?_, (keeps₂.trans (.of_same events₃ map₃)).trans_frees frees,
            ((follows₁.trans follows₂).trans follows₃).trans follows₄, ?_⟩
          · simp only [closed, ran]
          · cases result with
            | none => exact sound₄
            | some f =>
                obtain ⟨rfl, sound₄, file₄⟩ := sound₄
                exact ⟨sound₄, file₄⟩

theorem filesysRemove_spec (h : Sound s openers) (name : List UInt8) :
    ∃ success s', s.filesysRemove name = .ok (success, s') ∧ Frees s s' ∧ Follows s s' ∧
      Sound s' openers := by
  obtain ⟨dir, s₁, opened, events₁, map₁, _, follows₁, sound₁⟩ := dirOpenRoot_spec h
  have keeps₁ : Keeps s s₁ := .of_same events₁ map₁
  simp only [FileSys.filesysRemove, opened, bind, Except.bind]
  cases dir with
  | none => exact ⟨false, s₁, rfl, keeps₁.frees, follows₁, sound₁⟩
  | some p =>
      obtain ⟨sound₁, root₁⟩ := sound₁
      obtain ⟨success, s₂, removed, sound₂, frees, follows₂, root₂⟩ := dirRemove_spec sound₁ root₁ name
      obtain ⟨s₃, closed, sound₃, events₃, map₃, _, follows₃, _⟩ := dirClose_spec sound₂ root₂
      refine ⟨success, s₃, ?_, (keeps₁.trans_frees frees).trans_same events₃ map₃,
        (follows₁.trans follows₂).trans follows₃, sound₃⟩
      simp only [removed, closed]
      rfl

theorem releaseReserved {k : Nat} (h : Sound s openers) (reserved : Reserved s k) :
    ∃ s', s.freeMapRelease k 1 = .ok s' ∧ Kept s s' ∧ Sound s' openers ∧
      ∀ r, Marked s'.freeMap r ↔ Marked s.freeMap r ∧ r ≠ k := by
  obtain ⟨i, ready, data⟩ := h.mapReady
  have only (r : Nat) : InRun k 1 r ↔ r = k := by
    simp only [InRun]
    omega
  obtain ⟨s', released, touches, marks⟩ := freeMapRelease_spec ready k 1
    (Bitmap.lt_of_test reserved.marked) fun r run => (only r).mp run ▸ reserved.marked
  rw [data] at touches
  refine ⟨s', released, touches.toKept, ?_, fun r => (marks r).trans ?_⟩
  · refine (h.touch (.inl rfl) (by decide) touches fun o r held marked => (marks r).mpr ?_).1
    exact ⟨marked, fun run => reserved.unheld o ((only r).mp run ▸ held)⟩
  · rw [only]

theorem reserve (h : Sound s openers) :
    ∃ sector s', s.freeMapAllocate 1 = .ok (sector, s') ∧ Kept s s' ∧ Sound s' openers ∧
      (∀ r, Marked s.freeMap r → Marked s'.freeMap r) ∧
      ∀ k, sector = some k → Reserved s' k ∧ ¬ Marked s.freeMap k ∧ 2 ≤ k := by
  obtain ⟨i, ready, data⟩ := h.mapReady
  obtain ⟨sector, s', ran, touches, allocated, _⟩ := freeMapAllocate_spec 1 (.inr ready)
  rw [data] at touches
  cases sector with
  | none =>
      have marks (r : Nat) := (allocated r).mpr
      obtain ⟨sound, _⟩ := h.touchMap touches marks
      exact ⟨none, s', ran, touches.toKept, sound, marks, fun _ none => by cases none⟩
  | some k =>
      have taken : Taken s.freeMap s'.freeMap k 1 := allocated
      have marks (r : Nat) (marked : Marked s.freeMap r) : Marked s'.freeMap r :=
        (taken.marks r).mpr (.inr marked)
      obtain ⟨sound, _, holds⟩ := h.touchMap touches marks
      have run : InRun k 1 k := ⟨Nat.le_refl _, Nat.lt_succ_self _⟩
      have free := taken.free k run
      refine ⟨some k, s', ran, touches.toKept, sound, marks, fun k' same => ?_⟩
      cases same
      refine ⟨⟨(taken.marks k).mpr (.inl run), fun o held => ?_⟩, free, ?_⟩
      · exact free (h.layout.backed.used_of_held o k ((holds o k).mp held))
      · have first : k ≠ freeMapSector := fun same => free (same ▸ h.layout.holds_inode (.inl rfl))
        have second : k ≠ rootDirSector :=
          fun same => free (same ▸ h.layout.holds_inode (.inr (.inl rfl)))
        simp only [freeMapSector, rootDirSector] at first second
        omega

/-- What `filesys_create` does behind the reservation of a sector. -/
theorem createAt_spec {k : Nat} (h : Sound s openers) (root : RootAt s p) (reserved : Reserved s k)
    (file : 2 ≤ k) (name : List UInt8) {initialSize : Nat} (bound : initialSize < 2 ^ 31) :
    ∃ created s₁ added s₂ s₃, s.inodeCreate k initialSize = .ok (created, s₁) ∧
      (if created then s₁.dirAdd p name k else pure (false, s₁)) = .ok (added, s₂) ∧
      (if ¬ added ∧ k ≠ 0 then s₂.freeMapRelease k 1 else pure s₂) = .ok s₃ ∧
      Kept s s₃ ∧ Sound s₃ openers ∧
      ∀ r, r ≠ k → Marked s.freeMap r → Marked s₃.freeMap r := by
  obtain ⟨created, s₁, made, kept₁, sound₁, marks₁, reserved₁, spare⟩ :=
    inodeCreate_spec h reserved bound
  obtain ⟨added, s₂, add, kept₂, sound₂, map₂, left⟩ : ∃ added s₂,
      (if created then s₁.dirAdd p name k else pure (false, s₁)) = .ok (added, s₂) ∧ Kept s₁ s₂ ∧
      Sound s₂ openers ∧ s₂.freeMap = s₁.freeMap ∧ (added = false → Reserved s₂ k) := by
    cases created with
    | true => exact dirAdd_spec sound₁ (kept₁.rootAt root) reserved₁ (spare rfl) file name
    | false => exact ⟨false, s₁, rfl, Kept.refl s₁, sound₁, rfl, fun _ => reserved₁⟩
  have marks₂ (r : Nat) (marked : Marked s.freeMap r) : Marked s₂.freeMap r :=
    map₂ ▸ marks₁ r marked
  cases added with
  | true =>
      exact ⟨created, s₁, true, s₂, s₂, made, add, by simp; rfl, kept₁.trans kept₂, sound₂,
        fun r _ => marks₂ r⟩
  | false =>
      obtain ⟨s₃, released, kept₃, sound₃, marks₃⟩ := releaseReserved sound₂ (left rfl)
      have positive : k ≠ 0 := Nat.ne_of_gt (Nat.lt_of_lt_of_le Nat.two_pos file)
      refine ⟨created, s₁, false, s₂, s₃, made, add, ?_, (kept₁.trans kept₂).trans kept₃, sound₃,
        fun r other marked => (marks₃ r).mpr ⟨marks₂ r marked, other⟩⟩
      simp [positive, released]

theorem filesysCreate_spec (h : Sound s openers) (name : List UInt8) {initialSize : Nat}
    (bound : initialSize < 2 ^ 31) :
    ∃ success s', s.filesysCreate name initialSize = .ok (success, s') ∧ Keeps s s' ∧
      Follows s s' ∧ Sound s' openers := by
  obtain ⟨dir, s₁, opened, events₁, map₁, _, follows₁, sound₁⟩ := dirOpenRoot_spec h
  have keeps₁ : Keeps s s₁ := .of_same events₁ map₁
  simp only [FileSys.filesysCreate, opened, bind, Except.bind]
  cases dir with
  | none => exact ⟨false, s₁, rfl, keeps₁, follows₁, sound₁⟩
  | some p =>
      obtain ⟨sound₁, root₁⟩ := sound₁
      obtain ⟨sector, s₂, allocated, kept₂, sound₂, marks₂, reserved⟩ := reserve sound₁
      have root₂ := kept₂.rootAt root₁
      simp only [allocated]
      cases sector with
      | none =>
          obtain ⟨s₃, closed, sound₃, events₃, map₃, _, follows₃, _⟩ := dirClose_spec sound₂ root₂
          refine ⟨false, s₃, by simp only [closed]; rfl, ?_, (follows₁.trans kept₂.follows).trans follows₃,
            sound₃⟩
          exact (keeps₁.trans ⟨kept₂.events, marks₂⟩).trans (.of_same events₃ map₃)
      | some k =>
          obtain ⟨reserved, free, file⟩ := reserved k rfl
          obtain ⟨created, s₃, added, s₄, s₅, made, add, left, kept₅, sound₅, marks₅⟩ :=
            createAt_spec sound₂ root₂ reserved file name bound
          obtain ⟨s₆, closed, sound₆, events₆, map₆, _, follows₆, _⟩ :=
            dirClose_spec sound₅ (kept₅.rootAt root₂)
          have follows₅ := (follows₁.trans kept₂.follows).trans kept₅.follows
          refine ⟨added, s₆, ?_, ?_, follows₅.trans follows₆, sound₆⟩
          · simp only [made]
            split at add
            all_goals
              split at left
            next yes failed =>
              simp only [if_pos yes, add, if_pos failed, left, closed]
              rfl
            next yes kept =>
              cases left
              simp only [if_pos yes, add, if_neg kept, pure, Except.pure, closed]
            next no failed =>
              cases add
              simp only [if_neg no, pure, Except.pure, if_pos failed, left, closed]
            next no kept =>
              cases add
              cases left
              simp only [if_neg no, pure, Except.pure, if_neg kept, closed]
          · -- The sector was free before, so its mark is none of those to be kept.
            have keeps₅ : Keeps s₁ s₅ := by
              refine ⟨kept₅.events.trans kept₂.events, fun r marked => marks₅ r ?_ (marks₂ r marked)⟩
              rintro rfl
              exact free marked
            exact (keeps₁.trans keeps₅).trans (.of_same events₆ map₆)

end
end CS162.Pintos.FileSystem
