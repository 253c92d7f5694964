import CS162.Library.Ownership
import CS162.Pintos.PageWords

/-!
The words of a page directory and its tables represent a `PageDir` (userprog/pagedir.c):
`lookup_page` and the operations on entries do on the words what they do there. What
carries this is who owns which page: the directory, the tables and the mapped frames are
distinct pages in use, and none of them is a table of the kernel.
-/

namespace CS162.Pintos.PageWords
open CS162.Library CS162.Pintos

/-- Who holds a page: `table i` is the one that entry `i` of the directory points to, `frame n` the
one that is mapped at page number `n`. -/
inductive Slot where
  | directory
  | kernel
  | table (i : Nat)
  | frame (n : Nat)

namespace Ram
variable (r : Ram) (pd : Nat)

/-- The user entries of a directory. -/
def pagedir : PageDir := fun i =>
  if i < pdNo physBase ∧ r.words pd i ≠ 0 then
    some fun j => toPte (r.words (pageOf (r.words pd i)) j)
  else none

def Holds : Slot → Nat → Prop
  | .directory, page => page = pd
  | .kernel, page => ∃ i, pdNo physBase ≤ i ∧ i < 1024 ∧ isSet (r.words pd i) pteP ∧
      pageOf (r.words pd i) = page
  | .table i, page => i < pdNo physBase ∧ r.words pd i ≠ 0 ∧ pageOf (r.words pd i) = page
  | .frame n, page => ∃ pte, entry (r.pagedir pd) n = some pte ∧ pte.frame = page

/-- The page, and whether it may be written and used by user programs, that the processor
translates an address to. -/
def translate (va : Nat) : Option (Nat × Bool × Bool) :=
  let pde := toPte (r.words pd (pdNo va))
  let pte := toPte (r.words pde.frame (ptNo va))
  if pde.present ∧ pte.present then
    some (pte.frame, pde.writable && pte.writable, pde.user && pte.user)
  else none

/-- The pages that are mapped, each with its frame and whether it may be written. -/
def mapping (n : Nat) : Option (Nat × Bool) :=
  (entry (r.pagedir pd) n).map fun pte => (pte.frame, pte.writable)

end Ram

/-- What holds of a directory, `boot` being the memory at its creation. -/
structure WellFormed (boot r : Ram) (pd : Nat) : Prop where
  created : pd ≠ r.initPageDir
  tables : ∀ i < pdNo physBase, r.words pd i = 0 ∨ ∃ pt < 2 ^ 18, r.words pd i = pdeCreate pt
  user : ∀ n pte, entry (r.pagedir pd) n = some pte → pte.user = true
  owned : Backed (r.Holds pd) fun page => r.used page = true
  directory : ∀ i, pdNo physBase ≤ i → r.words pd i = boot.words boot.initPageDir i
  kernel : ∀ page, r.Holds pd .kernel page → r.words page = boot.words page

section Walk
variable {r r' boot : Ram} {pd va : Nat} {w : Word}

theorem pdNo_lt (user : va < physBase) : pdNo va < pdNo physBase := by
  simp only [pdNo, physBase] at *
  omega

theorem words_setWord (page i : Nat) (w : Word) : (r.setWord page i w).words =
    Function.update r.words page (Function.update (r.words page) i w) := rfl

theorem words_setWord_of_ne {page other : Nat} (i : Nat) (w : Word) (ne : other ≠ page) :
    (r.setWord page i w).words other = r.words other := by
  rw [words_setWord, Function.update_of_ne ne]

theorem pagedir_congr (dir : ∀ i < pdNo physBase, r'.words pd i = r.words pd i)
    (tables : ∀ i page, r.Holds pd (.table i) page → r'.words page = r.words page) :
    r'.pagedir pd = r.pagedir pd := by
  funext i
  simp only [Ram.pagedir]
  by_cases there : i < pdNo physBase ∧ r.words pd i ≠ 0
  · rw [dir i there.1, if_pos there, if_pos there, tables i _ ⟨there.1, there.2, rfl⟩]
  · by_cases user : i < pdNo physBase
    · rw [dir i user, if_neg there, if_neg there]
    · rw [if_neg there, if_neg fun found => user found.1]

theorem holds_congr (dir : r'.words pd = r.words pd)
    (tables : ∀ i page, r.Holds pd (.table i) page → r'.words page = r.words page) :
    r'.Holds pd = r.Holds pd := by
  have same : r'.pagedir pd = r.pagedir pd := pagedir_congr (fun i _ => by rw [dir]) tables
  funext slot page
  cases slot <;> simp only [Ram.Holds, dir, same]

theorem lookup_pagedir (user : va < physBase) : Pintos.lookupPage (r.pagedir pd) va =
    if r.words pd (pdNo va) = 0 then none
    else some (toPte (r.words (pageOf (r.words pd (pdNo va))) (ptNo va))) := by
  rw [Pintos.lookupPage, Ram.pagedir]
  by_cases missing : r.words pd (pdNo va) = 0
  · rw [if_neg fun there => there.2 missing, if_pos missing, Option.map_none]
  · rw [if_pos ⟨pdNo_lt user, missing⟩, if_neg missing, Option.map_some]

namespace WellFormed
variable (h : WellFormed boot r pd)
include h

theorem table_ne_directory {i page : Nat} (table : r.Holds pd (.table i) page) : page ≠ pd := by
  intro same
  cases h.owned.injective _ _ page table (show r.Holds pd .directory page from same)

theorem isSet_directory {i : Nat} (user : i < pdNo physBase) (there : r.words pd i ≠ 0) :
    isSet (r.words pd i) pteP = true := by
  cases h.tables i user with
  | inl zero => exact absurd zero there
  | inr table =>
      obtain ⟨pt, fits, made⟩ := table
      rw [made]
      exact (toPte_pdeCreate (Nat.lt_trans fits (by decide))).1

/-- `lookup_page` finds the table of the page, if it has one. -/
theorem lookupPage (user : va < physBase) : r.lookupPage pd va =
    some (if r.words pd (pdNo va) = 0 then none
      else some (pageOf (r.words pd (pdNo va)), ptNo va)) := by
  rw [Ram.lookupPage]
  by_cases missing : r.words pd (pdNo va) = 0
  · simp only [missing, if_true]
  · simp only [missing, if_false, h.isSet_directory (pdNo_lt user) missing, if_true]

end WellFormed

theorem pagedir_setWord (h : WellFormed boot r pd) (user : va < physBase)
    (there : r.words pd (pdNo va) ≠ 0) (w : Word) :
    (r.setWord (pageOf (r.words pd (pdNo va))) (ptNo va) w).pagedir pd =
      setPte (r.pagedir pd) va (toPte w) := by
  have table : r.Holds pd (.table (pdNo va)) (pageOf (r.words pd (pdNo va))) :=
    ⟨pdNo_lt user, there, rfl⟩
  have apart := h.table_ne_directory table
  funext i
  simp only [setPte]
  by_cases same : i = pdNo va
  · rw [same, Function.update_self, Ram.pagedir, Ram.pagedir, words_setWord_of_ne _ _ apart.symm,
      if_pos ⟨pdNo_lt user, there⟩, if_pos ⟨pdNo_lt user, there⟩, Option.map_some, words_setWord,
      Function.update_self]
    congr 1
    funext j
    by_cases slot : j = ptNo va
    · rw [slot, Function.update_self, Function.update_self]
    · rw [Function.update_of_ne slot, Function.update_of_ne slot]
  · rw [Function.update_of_ne same, Ram.pagedir, Ram.pagedir, words_setWord_of_ne _ _ apart.symm]
    by_cases found : i < pdNo physBase ∧ r.words pd i ≠ 0
    · have other : pageOf (r.words pd i) ≠ pageOf (r.words pd (pdNo va)) := by
        intro equal
        have mine : r.Holds pd (.table i) (pageOf (r.words pd (pdNo va))) := ⟨found.1, found.2, equal⟩
        cases h.owned.injective _ _ _ mine table
        exact same rfl
      rw [if_pos found, if_pos found, words_setWord_of_ne _ _ other]
    · rw [if_neg found, if_neg found]

/-- What is written elsewhere, and taken and given back by others, is nothing to the directory. -/
theorem WellFormed.others (h : WellFormed boot r pd) (init : r'.initPageDir = r.initPageDir)
    (kept : ∀ slot page, r.Holds pd slot page → r'.used page = true)
    (dir : r'.words pd = r.words pd)
    (tables : ∀ i page, r.Holds pd (.table i) page → r'.words page = r.words page)
    (kernel : ∀ page, r.Holds pd .kernel page → r'.words page = r.words page) :
    WellFormed boot r' pd ∧ r'.pagedir pd = r.pagedir pd := by
  have same : r'.pagedir pd = r.pagedir pd := pagedir_congr (fun i _ => by rw [dir]) tables
  have holds : r'.Holds pd = r.Holds pd := holds_congr dir tables
  refine ⟨⟨?_, ?_, ?_, ?_, ?_, ?_⟩, same⟩
  · rw [init]
    exact h.created
  · rw [dir]
    exact h.tables
  · rw [same]
    exact h.user
  · rw [holds]
    exact ⟨kept, h.owned.injective⟩
  · rw [dir]
    exact h.directory
  · rw [holds]
    intro page held
    rw [kernel page held]
    exact h.kernel page held

/-- The pages that programs see may be written, and the other ones that are held may not. -/
theorem WellFormed.elsewhere (h : WellFormed boot r pd) (init : r'.initPageDir = r.initPageDir)
    (words : ∀ slot page, r.Holds pd slot page → (∀ n, slot ≠ .frame n) → r'.words page = r.words page)
    (kept : ∀ slot page, r.Holds pd slot page → r'.used page = true) : WellFormed boot r' pd := by
  have dir : r'.words pd = r.words pd := words .directory pd rfl fun n => Slot.noConfusion
  have tables : ∀ i page, r.Holds pd (.table i) page → r'.words page = r.words page :=
    fun i page held => words (.table i) page held fun n => Slot.noConfusion
  have kernel : ∀ page, r.Holds pd .kernel page → r'.words page = r.words page :=
    fun page held => words .kernel page held fun n => Slot.noConfusion
  exact (h.others init kept dir tables kernel).1

theorem WellFormed.unheld {page : Nat} (h : WellFormed boot r pd) (free : r.used page = false) (slot : Slot) :
    ¬ r.Holds pd slot page := by
  intro held
  have used : r.used page = true := h.owned.used_of_held slot page held
  rw [free] at used
  cases used

end Walk

section Entries
variable {r boot : Ram} {pd va : Nat} {w : Word}

theorem entry_setWord (h : WellFormed boot r pd) (user : va < physBase)
    (there : r.words pd (pdNo va) ≠ 0) (w : Word) :
    entry ((r.setWord (pageOf (r.words pd (pdNo va))) (ptNo va) w).pagedir pd) =
      Function.update (entry (r.pagedir pd)) (pgNo va)
        (if (toPte w).present then some (toPte w) else none) := by
  rw [pagedir_setWord h user there, entry_setPte]
  rw [Ram.pagedir, if_pos ⟨pdNo_lt user, there⟩, Option.isSome_some]

/-- An entry may be written that leads nowhere, or to a frame that is mapped nowhere else. -/
theorem WellFormed.setWord (h : WellFormed boot r pd) (user : va < physBase)
    (there : r.words pd (pdNo va) ≠ 0)
    (fresh : (toPte w).present = true → (toPte w).user = true ∧ r.used (toPte w).frame = true ∧
      ∀ slot, r.Holds pd slot (toPte w).frame → slot = .frame (pgNo va)) :
    WellFormed boot (r.setWord (pageOf (r.words pd (pdNo va))) (ptNo va) w) pd := by
  have table : r.Holds pd (.table (pdNo va)) (pageOf (r.words pd (pdNo va))) :=
    ⟨pdNo_lt user, there, rfl⟩
  have dir : (r.setWord (pageOf (r.words pd (pdNo va))) (ptNo va) w).words pd = r.words pd :=
    words_setWord_of_ne _ _ (h.table_ne_directory table).symm
  have entries := entry_setWord h user there w
  have holds : ∀ slot page,
      (r.setWord (pageOf (r.words pd (pdNo va))) (ptNo va) w).Holds pd slot page →
        r.Holds pd slot page ∨
          slot = .frame (pgNo va) ∧ (toPte w).present = true ∧ page = (toPte w).frame := by
    intro slot page held
    cases slot with
    | directory => exact .inl held
    | kernel | table _ =>
        simp only [Ram.Holds, dir] at held
        exact .inl held
    | frame n =>
        obtain ⟨pte, mapped, frame⟩ := held
        rw [entries] at mapped
        by_cases here : n = pgNo va
        · rw [here, Function.update_self] at mapped
          split at mapped
          next present =>
            cases mapped
            exact .inr ⟨congrArg Slot.frame here, present, frame.symm⟩
          next => cases mapped
        · rw [Function.update_of_ne here] at mapped
          exact .inl ⟨pte, mapped, frame⟩
  refine ⟨h.created, ?_, ?_, ?_, ?_, ?_⟩
  · rw [dir]
    exact h.tables
  · intro n pte mapped
    rw [entries] at mapped
    by_cases here : n = pgNo va
    · rw [here, Function.update_self] at mapped
      split at mapped
      next present =>
        cases mapped
        exact (fresh present).1
      next => cases mapped
    · rw [Function.update_of_ne here] at mapped
      exact h.user n pte mapped
  · by_cases present : (toPte w).present = true
    · obtain ⟨-, mine, alone⟩ := fresh present
      refine h.owned.hold (fun _ _ _ used => used) mine alone fun slot page held => ?_
      exact (holds slot page held).imp_right fun new => ⟨new.1, new.2.2⟩
    · refine h.owned.mono (fun slot page held => ?_) fun _ _ _ used => used
      exact (holds slot page held).resolve_right fun new => present new.2.1
  · rw [dir]
    exact h.directory
  · intro page held
    have old : r.Holds pd .kernel page := by
      cases holds .kernel page held with
      | inl old => exact old
      | inr new => cases new.1
    have apart : page ≠ pageOf (r.words pd (pdNo va)) := by
      intro same
      rw [same] at old
      cases h.owned.injective _ _ _ old table
    rw [words_setWord_of_ne _ _ apart]
    exact h.kernel page old

end Entries

section Tables
variable {r r' boot : Ram} {pd va pt : Nat} {grant : Option Nat} {contents : Nat → Word}

theorem pallocGetPage_eq_some (got : r.pallocGetPage grant contents = some (pt, r')) :
    grant = some pt ∧ pt < r.pages ∧ r.used pt = false ∧
      r' = { r with
        words := Function.update r.words pt contents
        used := Function.update r.used pt true } := by
  simp only [Ram.pallocGetPage] at got
  split at got
  next => cases got
  next page =>
    split at got
    next free =>
      cases got
      exact ⟨rfl, free.1, free.2, rfl⟩
    next => cases got

variable (contents) in
theorem pallocGetPage_isSome : (r.pallocGetPage grant contents).isSome = true ↔
    ∃ page, grant = some page ∧ page < r.pages ∧ r.used page = false := by
  cases grant with
  | none => simp [Ram.pallocGetPage]
  | some page =>
      by_cases free : page < r.pages ∧ r.used page = false
      · simp [Ram.pallocGetPage, free]
      · simp [Ram.pallocGetPage, free]

/-- What a new table changes: entry `i` of the directory, and a page that was free. -/
structure TableMade (r after : Ram) (pd i pt : Nat) : Prop where
  directory : after.words pd = Function.update (r.words pd) i (pdeCreate pt)
  table : after.words pt = fun _ => 0
  others : ∀ page, page ≠ pd → page ≠ pt → after.words page = r.words page
  used : after.used = Function.update r.used pt true
  init : after.initPageDir = r.initPageDir

theorem tableMade_of_got {i : Nat} (got : r.pallocGetPage grant (fun _ => 0) = some (pt, r')) (apart : pt ≠ pd) :
    TableMade r (r'.setWord pd i (pdeCreate pt)) pd i pt := by
  obtain ⟨-, -, -, rfl⟩ := pallocGetPage_eq_some got
  constructor
  case directory =>
    rw [words_setWord, Function.update_self]
    simp only [Function.update_of_ne apart.symm]
  case table =>
    rw [words_setWord_of_ne _ _ apart]
    exact Function.update_self ..
  case others =>
    intro page ne ne'
    rw [words_setWord_of_ne _ _ ne]
    exact Function.update_of_ne ne' ..
  case used => rfl
  case init => rfl

namespace TableMade
variable {after : Ram} (made : TableMade r after pd (pdNo va) pt) (h : WellFormed boot r pd)
  (user : va < physBase) (unheld : ∀ slot, ¬ r.Holds pd slot pt) (small : pt < 2 ^ 20)
include made h user unheld small

/-- The new table is empty, and the other ones are the ones that were there. -/
theorem pagedir : after.pagedir pd = Function.update (r.pagedir pd) (pdNo va) (some fun _ => Pte.zero) := by
  obtain ⟨present, leads, found⟩ := toPte_pdeCreate small
  funext i
  rw [Ram.pagedir, made.directory]
  by_cases same : i = pdNo va
  · rw [same, Function.update_self, Function.update_self, if_pos ⟨pdNo_lt user, found⟩, leads, made.table]
    simp only [toPte_zero]
  · rw [Function.update_of_ne same, Function.update_of_ne same, Ram.pagedir]
    by_cases there : i < pdNo physBase ∧ r.words pd i ≠ 0
    · have mine : r.Holds pd (.table i) (pageOf (r.words pd i)) := ⟨there.1, there.2, rfl⟩
      have other : pageOf (r.words pd i) ≠ pt := fun same => unheld (.table i) (same ▸ mine)
      rw [if_pos there, if_pos there, made.others _ (h.table_ne_directory mine) other]
    · rw [if_neg there, if_neg there]

theorem entries (missing : r.words pd (pdNo va) = 0) : entry (after.pagedir pd) = entry (r.pagedir pd) := by
  have made : Pintos.lookupPageCreate (r.pagedir pd) va ⟨none, true⟩ = some (after.pagedir pd) := by
    rw [made.pagedir h user unheld small, Pintos.lookupPageCreate, Ram.pagedir,
      if_neg fun there => there.2 missing]
    rfl
  exact (entry_lookupPageCreate made).1

theorem holds (missing : r.words pd (pdNo va) = 0) (slot : Slot) (page : Nat)
    (held : after.Holds pd slot page) : r.Holds pd slot page ∨ slot = .table (pdNo va) ∧ page = pt := by
  cases slot with
  | directory => exact .inl held
  | kernel =>
      obtain ⟨i, high, low, set, leads⟩ := held
      have other : i ≠ pdNo va := (Nat.lt_of_lt_of_le (pdNo_lt user) high).ne'
      rw [made.directory, Function.update_of_ne other] at set leads
      exact .inl ⟨i, high, low, set, leads⟩
  | table i =>
      obtain ⟨low, there, leads⟩ := held
      by_cases same : i = pdNo va
      · rw [made.directory, same, Function.update_self, (toPte_pdeCreate small).2.1] at leads
        exact .inr ⟨congrArg Slot.table same, leads.symm⟩
      · rw [made.directory, Function.update_of_ne same] at there leads
        exact .inl ⟨low, there, leads⟩
  | frame n =>
      simp only [Ram.Holds, made.entries h user unheld small missing] at held
      exact .inl held

end TableMade

theorem WellFormed.newTable (h : WellFormed boot r pd) (user : va < physBase)
    (missing : r.words pd (pdNo va) = 0)
    (got : r.pallocGetPage grant (fun _ => 0) = some (pt, r')) :
    WellFormed boot (r'.setWord pd (pdNo va) (pdeCreate pt)) pd ∧
      entry ((r'.setWord pd (pdNo va) (pdeCreate pt)).pagedir pd) = entry (r.pagedir pd) ∧
      ∀ slot page, (r'.setWord pd (pdNo va) (pdeCreate pt)).Holds pd slot page →
        r.Holds pd slot page ∨ slot = .table (pdNo va) ∧ page = pt := by
  obtain ⟨-, inside, free, -⟩ := pallocGetPage_eq_some got
  have small : pt < 2 ^ 18 := Nat.lt_of_lt_of_le inside r.fits
  have fits : pt < 2 ^ 20 := Nat.lt_trans small (by decide)
  have unheld := h.unheld free
  have apart : pt ≠ pd := fun same => unheld .directory same
  have made : TableMade r _ pd (pdNo va) pt := tableMade_of_got got apart
  have entries := made.entries h user unheld fits missing
  have holds := made.holds h user unheld fits missing
  refine ⟨⟨?_, ?_, ?_, ?_, ?_, ?_⟩, entries, holds⟩
  · rw [made.init]
    exact h.created
  · intro i low
    rw [made.directory]
    by_cases same : i = pdNo va
    · rw [same, Function.update_self]
      exact .inr ⟨pt, small, rfl⟩
    · rw [Function.update_of_ne same]
      exact h.tables i low
  · rw [entries]
    exact h.user
  · rw [made.used]
    refine h.owned.hold (fun slot page old used => ?_) ?_ (fun slot old => absurd old (unheld slot)) holds
    · have ne : page ≠ pt := fun same => unheld slot (same ▸ old)
      rw [Function.update_of_ne ne]
      exact used
    · rw [Function.update_self]
  · intro i high
    have other : i ≠ pdNo va := (Nat.lt_of_lt_of_le (pdNo_lt user) high).ne'
    rw [made.directory, Function.update_of_ne other]
    exact h.directory i high
  · intro page held
    have old : r.Holds pd .kernel page := by
      cases holds .kernel page held with
      | inl old => exact old
      | inr new => cases new.1
    have ne : page ≠ pd := by
      intro same
      cases h.owned.injective _ _ page old (show r.Holds pd .directory page from same)
    have ne' : page ≠ pt := fun same => unheld .kernel (same ▸ old)
    rw [made.others page ne ne']
    exact h.kernel page old

end Tables

section Operations
variable {r boot : Ram} {pd va frame : Nat} {writable : Bool} {grant : Option Nat} {flag : Word}

/-- `lookup_page` with `create` finds the page's table or makes one, unless it gets no page for it. -/
theorem WellFormed.lookupPageCreate (h : WellFormed boot r pd) (user : va < physBase)
    (grant : Option Nat) :
    (∃ r', r.lookupPageCreate pd va grant =
        some (some (pageOf (r'.words pd (pdNo va)), ptNo va), r') ∧
      WellFormed boot r' pd ∧ r'.words pd (pdNo va) ≠ 0 ∧
      entry (r'.pagedir pd) = entry (r.pagedir pd) ∧
      (r.words pd (pdNo va) ≠ 0 ∨ ∃ pt, grant = some pt ∧ pt < r.pages ∧ r.used pt = false) ∧
      ∀ page, r.used page = true → r'.used page = true ∧
        ∀ slot, r'.Holds pd slot page → r.Holds pd slot page) ∨
    r.lookupPageCreate pd va grant = some (none, r) ∧
      ¬ (r.words pd (pdNo va) ≠ 0 ∨ ∃ pt, grant = some pt ∧ pt < r.pages ∧ r.used pt = false) := by
  have notKernel : ¬ ¬ va < physBase := not_not.mpr user
  by_cases missing : r.words pd (pdNo va) = 0
  · simp only [Ram.lookupPageCreate, if_neg notKernel, if_pos missing]
    cases got : r.pallocGetPage grant fun _ => 0 with
    | none =>
        right
        refine ⟨rfl, fun able => ?_⟩
        cases able with
        | inl there => exact there missing
        | inr able =>
            rw [← pallocGetPage_isSome fun _ => 0, got] at able
            cases able
    | some found =>
        obtain ⟨pt, r'⟩ := found
        left
        obtain ⟨keeps, entries, holds⟩ := h.newTable user missing got
        obtain ⟨granted, inside, free, taken⟩ := pallocGetPage_eq_some got
        have small : pt < 2 ^ 18 := Nat.lt_of_lt_of_le inside r.fits
        have table := toPte_pdeCreate (Nat.lt_trans small (by decide : 2 ^ 18 < 2 ^ 20))
        have there : (r'.setWord pd (pdNo va) (pdeCreate pt)).words pd (pdNo va) = pdeCreate pt := by
          rw [words_setWord, Function.update_self, Function.update_self]
        refine ⟨r'.setWord pd (pdNo va) (pdeCreate pt), ?_, keeps, ?_, entries,
          .inr ⟨pt, granted, inside, free⟩, ?_⟩
        · rw [there, table.2.1]
        · rw [there]
          exact table.2.2
        · intro page used
          have ne : page ≠ pt := by
            intro same
            rw [same, free] at used
            cases used
          refine ⟨?_, fun slot held => ?_⟩
          · rw [taken]
            exact (Function.update_of_ne ne ..).trans used
          · exact (holds slot page held).resolve_right fun new => ne new.2
  · left
    refine ⟨r, ?_, h, missing, rfl, .inl missing, fun page used => ⟨used, fun _ held => held⟩⟩
    rw [Ram.lookupPageCreate, if_neg notKernel, if_neg missing, h.lookupPage user, if_neg missing]
    rfl

theorem entry_pagedir (user : va < physBase) (there : r.words pd (pdNo va) ≠ 0) :
    entry (r.pagedir pd) (pgNo va) =
      if isSet (r.words (pageOf (r.words pd (pdNo va))) (ptNo va)) pteP then
        some (toPte (r.words (pageOf (r.words pd (pdNo va))) (ptNo va)))
      else none := by
  rw [entry, ← lookupPage_eq, lookup_pagedir user, if_neg there, Option.filter_some]
  rfl

theorem entry_pagedir_none (user : va < physBase) (missing : r.words pd (pdNo va) = 0) :
    entry (r.pagedir pd) (pgNo va) = none := by
  rw [entry, ← lookupPage_eq, lookup_pagedir user, if_pos missing, Option.filter_none]

/-- A page is mapped to a frame that the directory does not hold, unless its table cannot be made. -/
theorem WellFormed.pagedirSetPage (h : WellFormed boot r pd) (aligned : pgOfs va = 0)
    (user : va < physBase) (unmapped : entry (r.pagedir pd) (pgNo va) = none)
    (inside : frame < r.pages) (used : r.used frame = true)
    (spare : ∀ slot, ¬ r.Holds pd slot frame) (writable : Bool) (grant : Option Nat) :
    ∃ ok r', r.pagedirSetPage pd va (ptov frame) writable grant = some (ok, r') ∧
      WellFormed boot r' pd ∧
      (ok = true ↔
        r.words pd (pdNo va) ≠ 0 ∨ ∃ pt, grant = some pt ∧ pt < r.pages ∧ r.used pt = false) ∧
      entry (r'.pagedir pd) = if ok then
        Function.update (entry (r.pagedir pd)) (pgNo va) (some (Pintos.pteCreateUser frame writable))
      else entry (r.pagedir pd) := by
  have fits := r.fits
  have number : (ptov frame - physBase) / pgsize = frame := by
    simp only [ptov, physBase, pgsize]
    omega
  have asserts : ¬ (pgOfs va ≠ 0 ∨ pgOfs (ptov frame) ≠ 0 ∨ ¬ va < physBase ∨ ptov frame < physBase ∨
      ¬ (ptov frame - physBase) / pgsize < r.pages ∨ pd = r.initPageDir) := by
    rw [number]
    have start : pgOfs (ptov frame) = 0 := by
      simp only [pgOfs, ptov, physBase, pgsize]
      omega
    have kernel : ¬ ptov frame < physBase := by
      simp only [ptov]
      omega
    simp only [aligned, start, user, kernel, inside, h.created, ne_eq, not_true_eq_false, or_self,
      not_false_eq_true]
  rw [Ram.pagedirSetPage, if_neg asserts, number]
  cases h.lookupPageCreate user grant with
  | inl made =>
      obtain ⟨r', found, keeps, there, same, able, more⟩ := made
      have absent : isSet (r'.words (pageOf (r'.words pd (pdNo va))) (ptNo va)) pteP = false := by
        rw [← same, entry_pagedir user there] at unmapped
        split at unmapped
        next => cases unmapped
        next absent => exact Bool.eq_false_iff.mpr absent
      have pte : toPte (pteCreateUser frame writable) = Pintos.pteCreateUser frame writable := by
        apply toPte_pteCreateUser
        omega
      simp only [found, absent, Bool.false_eq_true, if_false]
      refine ⟨true, _, rfl, keeps.setWord user there fun _ => ?_, ⟨fun _ => able, fun _ => rfl⟩, ?_⟩
      · rw [pte]
        exact ⟨rfl, (more frame used).1, fun slot held =>
          absurd ((more frame used).2 slot held) (spare slot)⟩
      · rw [entry_setWord keeps user there, pte, same]
        rfl
  | inr failed =>
      simp only [failed.1]
      refine ⟨false, r, rfl, h, ⟨fun ok => absurd ok Bool.false_ne_true,
        fun able => absurd able failed.2⟩, ?_⟩
      rw [if_neg Bool.false_ne_true]

theorem WellFormed.pagedirGetPage (h : WellFormed boot r pd) (user : va < physBase) :
    r.pagedirGetPage pd va =
      some ((entry (r.pagedir pd) (pgNo va)).map fun pte => ptov pte.frame + pgOfs va) := by
  rw [Ram.pagedirGetPage, if_neg (not_not.mpr user), h.lookupPage user]
  by_cases missing : r.words pd (pdNo va) = 0
  · rw [if_pos missing, entry_pagedir_none user missing]
    rfl
  · rw [if_neg missing, entry_pagedir user missing]
    simp only [Option.map_some, Option.bind_some]
    split <;> rfl

theorem WellFormed.pagedirClearPage (h : WellFormed boot r pd) (aligned : pgOfs va = 0)
    (user : va < physBase) :
    ∃ r', r.pagedirClearPage pd va = some r' ∧ WellFormed boot r' pd ∧
      entry (r'.pagedir pd) = Function.update (entry (r.pagedir pd)) (pgNo va) none := by
  have asserts : ¬ (pgOfs va ≠ 0 ∨ ¬ va < physBase) := by
    simp only [aligned, user, ne_eq, not_true_eq_false, or_self, not_false_eq_true]
  rw [Ram.pagedirClearPage, if_neg asserts, h.lookupPage user]
  by_cases missing : r.words pd (pdNo va) = 0
  · rw [if_pos missing]
    refine ⟨r, rfl, h, (Function.update_eq_self_iff.mpr ?_).symm⟩
    rw [entry_pagedir_none user missing]
  · rw [if_neg missing]
    simp only [Option.map_some]
    by_cases present : isSet (r.words (pageOf (r.words pd (pdNo va))) (ptNo va)) pteP
    · rw [if_pos present]
      refine ⟨_, rfl, h.setWord user missing fun set => ?_, ?_⟩
      · rw [toPte_clear] at set
        cases set
      · rw [entry_setWord h user missing, toPte_clear]
        rfl
    · rw [if_neg present]
      refine ⟨r, rfl, h, (Function.update_eq_self_iff.mpr ?_).symm⟩
      rw [entry_pagedir user missing, if_neg present]

theorem WellFormed.pagedirSet (h : WellFormed boot r pd) (status : IsStatus flag)
    (user : va < physBase) (value : Bool) :
    ∃ r', r.pagedirSet flag pd va value = some r' ∧ WellFormed boot r' pd ∧
      entry (r'.pagedir pd) = Function.update (entry (r.pagedir pd)) (pgNo va)
        ((entry (r.pagedir pd) (pgNo va)).map fun pte => setStatus flag pte value) := by
  rw [Ram.pagedirSet, h.lookupPage user]
  by_cases missing : r.words pd (pdNo va) = 0
  · rw [if_pos missing, entry_pagedir_none user missing]
    refine ⟨r, rfl, h, (Function.update_eq_self_iff.mpr ?_).symm⟩
    rw [entry_pagedir_none user missing]
    rfl
  · rw [if_neg missing]
    simp only [Option.map_some]
    have old := entry_pagedir user missing
    generalize r.words (pageOf (r.words pd (pdNo va))) (ptNo va) = w at old ⊢
    have same : (setStatus flag (toPte w) value).present = isSet w pteP ∧
        (setStatus flag (toPte w) value).user = (toPte w).user ∧
        (setStatus flag (toPte w) value).frame = (toPte w).frame := by
      rw [setStatus]
      split <;> exact ⟨rfl, rfl, rfl⟩
    refine ⟨_, rfl, h.setWord user missing fun set => ?_, ?_⟩
    · rw [toPte_status status, same.1] at set
      rw [if_pos set] at old
      have held : r.Holds pd (.frame (pgNo va)) (toPte w).frame := ⟨toPte w, old, rfl⟩
      rw [toPte_status status, same.2.1, same.2.2]
      exact ⟨h.user _ _ old, h.owned.used_of_held _ _ held, fun slot other =>
        h.owned.injective slot _ _ other held⟩
    · rw [entry_setWord h user missing, toPte_status status, same.1, old]
      split <;> rfl

end Operations
end CS162.Pintos.PageWords
