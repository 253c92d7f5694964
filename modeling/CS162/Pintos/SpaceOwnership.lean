import CS162.Pintos.Loader
import CS162.Pintos.Sbrk

/-!
Who owns the pages that a process takes from the two pools. Each frame belongs to
one entry of a page table, and each kernel page is the directory or one of its
tables. Every step of a load keeps this, whether it succeeds or not, and
`pagedir_destroy` gives back exactly these pages, each once.
-/

namespace CS162.Pintos
open CS162.Library

/-- The kernel pages of an address space: its directory, and a page for each of
the tables. -/
def kernelHeld (s : AddressSpace) : Option Nat → Option Nat
  | none => some s.dirPage
  | some i => if (s.mem.pagedir i).isSome then some (s.tablePage i) else none

/-- The pools are in use by `frames` and `pages` and by the address space. -/
structure SpaceOwned (frames pages : Nat → Prop) (s : AddressSpace) : Prop where
  frames : Owns frames (frameOf s.mem) fun frame => s.mem.used frame = true
  kernel : Owns pages (kernelHeld s) fun page => s.kernel page = true
  user : ∀ i, pdNo physBase ≤ i → s.mem.pagedir i = none

section Directory
variable {pd pd' : PageDir} {va kpage : Nat} {writable : Bool} {grant : Grant}

/-- A mapping that was added: no page was there, and a table was made if there was
none. -/
theorem pagedirSetPage_of_ok (h : pagedirSetPage pd va kpage writable grant = .ok (true, pd')) :
    va < physBase ∧ entry pd (pgNo va) = none ∧
      entry pd' = Function.update (entry pd) (pgNo va) (some (pteCreateUser kpage writable)) ∧
      (∀ i, (pd' i).isSome ↔ (pd i).isSome ∨ i = pdNo va) ∧
      ((pd (pdNo va)).isNone → grant.table = true) := by
  unfold pagedirSetPage at h
  split at h
  · cases h
  · split at h
    · cases h
    · next user =>
        split at h
        · cases h
        · next made created =>
            split at h
            · cases h
            · next absent =>
                cases h
                obtain ⟨same, table⟩ := entry_lookupPageCreate created
                refine ⟨not_not.mp user, ?_, ?_, fun i => ?_, fun missing => ?_⟩
                · rw [← same, entry, ← lookupPage_eq, Option.filter_eq_none_iff]
                  intro pte found present
                  rw [found] at absent
                  exact absent present
                · rw [entry_setPte table, same]
                  rfl
                · unfold lookupPageCreate at created
                  by_cases here : i = pdNo va
                  · subst here
                    simp [setPte, table]
                  · simp only [setPte, Function.update_of_ne here, here, or_false]
                    split at created
                    · cases created
                      exact Iff.rfl
                    · split at created
                      · cases created
                        rw [Function.update_of_ne here]
                      · cases created
                · unfold lookupPageCreate at created
                  rw [Option.isNone_iff_eq_none.mp missing] at created
                  simp only at created
                  split at created
                  · assumption
                  · cases created

theorem pagedirSetPage_of_refused (h : pagedirSetPage pd va kpage writable grant = .ok (false, pd')) :
    pd' = pd := by
  unfold pagedirSetPage at h
  repeat' split at h
  all_goals first | cases h; rfl | cases h

end Directory

section Steps
variable {F K : Nat → Prop} {s s' : AddressSpace} {m : Memory} {kpage upage : Nat} {writable done : Bool}
variable {grant : PageGrant}

theorem kernelHeld_congr (dir : s'.dirPage = s.dirPage) (tables : s'.tablePage = s.tablePage)
    (pages : ∀ i, (s'.mem.pagedir i).isSome ↔ (s.mem.pagedir i).isSome) :
    kernelHeld s' = kernelHeld s := by
  funext slot
  cases slot with
  | none => exact congrArg some dir
  | some i => simp only [kernelHeld, tables, pages]

theorem SpaceOwned.palloc (h : SpaceOwned F K s) {zero : Bool}
    (granted : pallocGetPage s.mem zero grant.frameGrant = some (kpage, m)) :
    SpaceOwned (fun frame => frame = kpage ∨ F frame) K { s with mem := m } ∧ ¬ F kpage := by
  obtain ⟨free, rfl⟩ := pallocGetPage_eq_some granted
  refine ⟨⟨h.frames.grow (by simp [free]) fun frame => ?_, h.kernel, h.user⟩, fun old => ?_⟩
  · by_cases same : frame = kpage <;> simp [same]
  · have used := (h.frames.used_iff kpage).mpr (.inl old)
    rw [free] at used
    cases used

theorem SpaceOwned.contents (h : SpaceOwned F K s) (frames : Nat → Nat → UInt8) :
    SpaceOwned F K { s with mem := { s.mem with frames := frames } } :=
  ⟨h.frames, h.kernel, h.user⟩

theorem SpaceOwned.failAfterFree (h : SpaceOwned (fun frame => frame = kpage ∨ F frame) K s)
    (new : ¬ F kpage) (freed : failAfterFree s kpage = .ok (done, s')) : SpaceOwned F K s' := by
  unfold Pintos.failAfterFree pallocFreePage at freed
  split at freed
  · cases freed
  · next m given =>
      simp only at given
      split at given
      · cases given
        cases freed
        refine ⟨h.frames.shrink new fun frame => ?_, h.kernel, h.user⟩
        by_cases same : frame = kpage <;> simp [same]
      · cases given

theorem SpaceOwned.setPage (h : SpaceOwned (fun frame => frame = kpage ∨ F frame) K s)
    (new : ¬ F kpage) (set : s.setPage upage kpage writable grant = .ok (done, s')) :
    if done then SpaceOwned F K s' else SpaceOwned (fun frame => frame = kpage ∨ F frame) K s' := by
  unfold AddressSpace.setPage at set
  simp only at set
  split at set
  · cases set
  · next made pd mapped =>
      cases set
      cases done with
      | false =>
          rw [pagedirSetPage_of_refused mapped, if_neg Bool.false_ne_true]
          unfold AddressSpace.withTable
          split
          · exact h
          · rw [if_neg (by simp)]
            exact h
      | true =>
          obtain ⟨user, unmapped, entries, tables, needed⟩ := pagedirSetPage_of_ok mapped
          rw [if_pos rfl]
          have frames : Owns F (frameOf { s.mem with pagedir := pd })
              fun frame => s.mem.used frame = true := by
            refine (h.frames.hold (i := pgNo upage) new ?_).congr (fun n => ?_) fun _ => Iff.rfl
            · rw [frameOf, unmapped]
              rfl
            · rw [frameOf, entries]
              by_cases same : n = pgNo upage
              · rw [same, Function.update_self, Function.update_self]
                rfl
              · rw [Function.update_of_ne same, Function.update_of_ne same, frameOf]
          have below : pdNo upage < pdNo physBase := by
            unfold pdNo physBase
            unfold physBase at user
            omega
          have outside (i : Nat) (hi : pdNo physBase ≤ i) : pd i = none := by
            have absent := h.user i hi
            rw [← Option.not_isSome_iff_eq_none, tables, absent]
            simp
            omega
          by_cases missing : (s.mem.pagedir (pdNo upage)).isNone
          · have table := needed missing
            obtain ⟨page, found⟩ := Option.isSome_iff_exists.mp table
            have free : s.kernel page = false := by
              rw [kernelPage, Option.filter_eq_some_iff] at found
              simpa using found.2
            have added : (pd (pdNo upage)).isSome := (tables _).mpr (.inr rfl)
            rw [found]
            unfold AddressSpace.withTable
            simp only
            rw [if_pos ⟨missing, added⟩]
            refine ⟨frames, ?_, outside⟩
            refine (h.kernel.take (i := some (pdNo upage)) (r := page) (by simp [free]) ?_
              fun other => ?_).congr (fun slot => ?_) fun _ => Iff.rfl
            · simp [kernelHeld, Option.isNone_iff_eq_none.mp missing]
            · by_cases same : other = page <;> simp [same]
            · cases slot with
              | none => simp [kernelHeld]
              | some i =>
                  by_cases same : i = pdNo upage
                  · simp [kernelHeld, same, added]
                  · simp [kernelHeld, same, tables]
          · have present : (s.mem.pagedir (pdNo upage)).isSome := by
              simpa [Option.isSome_iff_ne_none] using missing
            have kept : (s.withTable pd upage (kernelPage s.kernel grant.table)) =
                { s with mem := { s.mem with pagedir := pd } } := by
              unfold AddressSpace.withTable
              split
              · rfl
              · rw [if_neg fun h => missing h.1]
            rw [kept]
            have pages : kernelHeld { s with mem := { s.mem with pagedir := pd } } = kernelHeld s := by
              refine kernelHeld_congr rfl rfl fun i => ?_
              rw [tables]
              constructor
              · rintro (old | rfl)
                · exact old
                · exact present
              · exact .inl
            exact ⟨frames, h.kernel.congr (congrFun pages) fun _ => Iff.rfl, outside⟩

theorem SpaceOwned.installPage (h : SpaceOwned (fun frame => frame = kpage ∨ F frame) K s)
    (new : ¬ F kpage) (installed : installPage s upage kpage writable grant = .ok (done, s')) :
    if done then SpaceOwned F K s' else SpaceOwned (fun frame => frame = kpage ∨ F frame) K s' := by
  unfold Pintos.installPage at installed
  split at installed
  · cases installed
  · cases installed
    simpa using h
  · exact h.setPage new installed

theorem SpaceOwned.loadPages {file : ExecFile} {grants : Nat → PageGrant}
    {pages pos readBytes i : Nat} (h : SpaceOwned F K s)
    (loaded : loadPages file writable grants pages pos upage readBytes i s = .ok (done, s')) :
    SpaceOwned F K s' := by
  induction pages generalizing pos upage readBytes i s with
  | zero =>
      cases loaded
      exact h
  | succ pages ih =>
      rw [Pintos.loadPages] at loaded
      split at loaded
      · cases loaded
        exact h
      · next kpage m granted =>
          obtain ⟨taken, new⟩ := h.palloc granted
          simp only at loaded
          generalize (if readBytes < pgsize then readBytes else pgsize) = part at loaded
          split at loaded
          · exact taken.failAfterFree new loaded
          · have filled := taken.contents (Function.update m.frames kpage fun offset =>
              (fileRead file pos part (grants i).read).getD offset 0)
            split at loaded
            · cases loaded
            · next installed => exact (filled.installPage new installed).failAfterFree new loaded
            · next installed => exact ih (filled.installPage new installed) loaded

theorem SpaceOwned.loadSegment {file : ExecFile} {ofs readBytes zeroBytes : Nat}
    {grants : Nat → PageGrant} (h : SpaceOwned F K s)
    (loaded : loadSegment s file ofs upage readBytes zeroBytes writable grants = .ok (done, s')) :
    SpaceOwned F K s' := by
  unfold Pintos.loadSegment at loaded
  split at loaded
  · cases loaded
  · split at loaded
    · cases loaded
    · split at loaded
      · cases loaded
      · split at loaded
        · cases loaded
        · exact h.loadPages loaded

theorem SpaceOwned.loadPhdr {file : ExecFile} {phdr : Phdr} {grants : Nat → PageGrant}
    (h : SpaceOwned F K s) (loaded : loadPhdr file phdr grants s = .ok (done, s')) :
    SpaceOwned F K s' := by
  unfold Pintos.loadPhdr at loaded
  split at loaded
  · exact h.loadSegment loaded
  · exact h.loadSegment loaded

theorem SpaceOwned.setupStack (h : SpaceOwned F K s)
    (loaded : setupStack s grant = .ok (done, s')) : SpaceOwned F K s' := by
  unfold Pintos.setupStack at loaded
  split at loaded
  · cases loaded
    exact h
  · next granted =>
      obtain ⟨taken, new⟩ := h.palloc granted
      split at loaded
      · cases loaded
      · next installed =>
          cases loaded
          exact taken.installPage new installed
      · next installed => exact (taken.installPage new installed).failAfterFree new loaded

theorem SpaceOwned.finishLoad {ehdr : Ehdr} {grants : LoadGrants} {start : Option Start}
    (h : SpaceOwned F K s) (loaded : finishLoad ehdr grants s = .ok (start, s')) :
    SpaceOwned F K s' := by
  unfold Pintos.finishLoad at loaded
  split at loaded
  · cases loaded
  · next stack =>
      cases loaded
      exact h.setupStack stack
  · next stack =>
      cases loaded
      exact h.setupStack stack

theorem SpaceOwned.create {used : Nat → Bool} {frames : Nat → Nat → UInt8} {kernel : Nat → Bool}
    {page : Option Nat} (created : pagedirCreate used frames kernel page = some s) :
    SpaceOwned (fun frame => used frame = true) (fun page => kernel page = true) s := by
  unfold pagedirCreate at created
  split at created
  · cases created
  · next page found =>
      cases created
      rw [kernelPage, Option.filter_eq_some_iff] at found
      have free : kernel page = false := by simpa using found.2
      refine ⟨?_, ?_, fun _ _ => rfl⟩
      · exact (Owns.empty _).congr (fun n => by simp [frameOf, entry, pageAt]) fun _ => Iff.rfl
      · refine ((Owns.empty _).take (i := none) (r := page) (by simp [free]) rfl fun other => ?_).congr
          (fun slot => ?_) fun _ => Iff.rfl
        · by_cases same : other = page <;> simp [same]
        · cases slot <;> simp [kernelHeld]

end Steps

/-- A property that every segment keeps, whether it is loaded or refused, is kept by
the loop over the program headers. -/
theorem loadPhdrs_keep {σ : Type} {file : ExecFile} {stops : Nat → Option Nat}
    {segment : Nat → Phdr → σ → Except Fault (Bool × σ)} (P : σ → Prop)
    (keep : ∀ i phdr state done state', P state → segment i phdr state = .ok (done, state') → P state')
    {left i : Nat} {fileOfs : Int} {state state' : σ} {done : Bool} (base : P state)
    (h : loadPhdrs file stops segment left i fileOfs state = .ok (done, state')) : P state' := by
  induction left generalizing i fileOfs state with
  | zero =>
      cases h
      exact base
  | succ left ih =>
      rw [loadPhdrs] at h
      split at h
      · cases h
        exact base
      · split at h
        · cases h
          exact base
        · split at h
          · split at h
            · split at h
              · cases h
              · next refused =>
                  cases h
                  exact keep _ _ _ _ _ base refused
              · next loaded => exact ih (keep _ _ _ _ _ base loaded) h
            · cases h
              exact base
          · exact ih base h

section Destroy
variable {F K : Nat → Prop} {s s' : AddressSpace} {m : Memory}

/-- The frames of the pages from page `a` on. -/
def framesFrom (m : Memory) (a n : Nat) : Option Nat := if n < a then none else frameOf m n

/-- The kernel pages of the directory and of its tables from entry `i` on. -/
def kernelFrom (s : AddressSpace) (i : Nat) : Option Nat → Option Nat
  | none => some s.dirPage
  | some k => if k < i then none else kernelHeld s (some k)

theorem framesFrom_succ {a : Nat} (empty : frameOf m a = none) :
    framesFrom m (a + 1) = framesFrom m a := by
  funext n
  unfold framesFrom
  by_cases same : n = a
  · rw [same, empty]
    simp
  · have : n < a + 1 ↔ n < a := by omega
    simp only [this]

/-- `pagedir_destroy` frees the frames of one table. -/
theorem freeFrames_spec {i left j : Nat} {pt : Nat → Pte} (table : m.pagedir i = some pt)
    (bound : left + j = 1024)
    (owns : Owns F (framesFrom m (1024 * i + j)) fun frame => m.used frame = true) :
    ∃ m', freeFrames pt left j m = .ok m' ∧ m'.pagedir = m.pagedir ∧
      Owns F (framesFrom m (1024 * (i + 1))) fun frame => m'.used frame = true := by
  induction left generalizing j m with
  | zero =>
      refine ⟨m, rfl, rfl, ?_⟩
      have stop : 1024 * (i + 1) = 1024 * i + j := by omega
      rw [stop]
      exact owns
  | succ left ih =>
      have here : entry m.pagedir (1024 * i + j) = if (pt j).present then some (pt j) else none := by
        rw [entry, pageAt, show (1024 * i + j) / 1024 = i by omega,
          show (1024 * i + j) % 1024 = j by omega, table, Option.map_some, Option.filter_some]
      rw [freeFrames]
      split
      · next present =>
          rw [if_pos present] at here
          have held : framesFrom m (1024 * i + j) (1024 * i + j) = some (pt j).frame := by
            rw [framesFrom, if_neg (Nat.lt_irrefl _), frameOf, here]
            rfl
          have used := owns.used_of_held held
          have freed : pallocFreePage m (some (pt j).frame) = .ok { m with
              used := Function.update m.used (pt j).frame false
              frames := Function.update m.frames (pt j).frame fun _ => 0xcc } := if_pos used
          simp only [freed]
          refine ih table (by omega) ((owns.release held fun frame => ?_).congr (fun n => ?_)
            fun _ => Iff.rfl)
          · by_cases same : frame = (pt j).frame <;> simp [same]
          · by_cases same : n = 1024 * i + j
            · simp [framesFrom, same, ← Nat.add_assoc]
            · rw [Function.update_of_ne same]
              have : n < 1024 * i + (j + 1) ↔ n < 1024 * i + j := by omega
              simp only [framesFrom, this]
              rfl
      · next absent =>
          rw [if_neg absent] at here
          refine ih table (by omega) ?_
          rw [← Nat.add_assoc, framesFrom_succ (by rw [frameOf, here]; rfl)]
          exact owns

/-- The tables from entry `i` on are freed, with their frames. -/
theorem destroyTables_spec {left i : Nat} (bound : left + i = pdNo physBase)
    (user : ∀ k, pdNo physBase ≤ k → s.mem.pagedir k = none)
    (frames : Owns F (framesFrom s.mem (1024 * i)) fun frame => s.mem.used frame = true)
    (kernel : Owns K (kernelFrom s i) fun page => s.kernel page = true) :
    ∃ s', destroyTables left i s = .ok s' ∧ s'.dirPage = s.dirPage ∧
      (∀ frame, s'.mem.used frame = true ↔ F frame) ∧
      ∀ page, s'.kernel page = true ↔ page = s.dirPage ∨ K page := by
  induction left generalizing i s with
  | zero =>
      refine ⟨s, rfl, rfl, fun frame => ?_, fun page => ?_⟩
      · rw [frames.used_iff]
        refine or_iff_left ?_
        rintro ⟨n, held⟩
        unfold framesFrom at held
        split at held
        · cases held
        · rw [frameOf, entry, pageAt, user _ (by omega)] at held
          cases held
      · rw [kernel.used_iff, or_comm]
        refine or_congr ⟨?_, ?_⟩ Iff.rfl
        · rintro ⟨_ | k, held⟩
          · exact (Option.some.inj held).symm
          · simp only [kernelFrom, kernelHeld] at held
            split at held
            · cases held
            · rw [user k (by omega)] at held
              cases held
        · rintro rfl
          exact ⟨none, rfl⟩
  | succ left ih =>
      rw [destroyTables]
      split
      · next missing =>
          refine ih (by omega) user ?_ ?_
          · refine frames.congr (fun n => ?_) fun _ => Iff.rfl
            unfold framesFrom
            by_cases inside : n / 1024 = i
            · have absent : frameOf s.mem n = none := by
                rw [frameOf, entry, pageAt, inside, missing]
                rfl
              simp only [absent, ite_self]
            · have : n < 1024 * (i + 1) ↔ n < 1024 * i := by omega
              simp only [this]
          · refine kernel.congr (fun slot => ?_) fun _ => Iff.rfl
            cases slot with
            | none => rfl
            | some k =>
                by_cases same : k = i
                · simp [kernelFrom, kernelHeld, same, missing]
                · have : k < i + 1 ↔ k < i := by omega
                  simp only [kernelFrom, this]
      · next pt table =>
          have entries : 1024 + 0 = 1024 := rfl
          obtain ⟨m, freed, dir, frames'⟩ := freeFrames_spec table entries frames
          have held : kernelFrom s i (some i) = some (s.tablePage i) := by
            simp [kernelFrom, kernelHeld, table]
          have used := kernel.used_of_held held
          have kernelFreed : freeKernelPage { s with mem := m } (s.tablePage i) = .ok
              { s with
                mem := m
                kernel := Function.update s.kernel (s.tablePage i) false } := if_pos used
          simp only [freed, kernelFreed]
          refine ih (by omega) (fun k hk => by rw [dir]; exact user k hk) ?_ ?_
          · refine frames'.congr (fun n => ?_) fun _ => Iff.rfl
            rw [framesFrom, framesFrom, frameOf, frameOf, dir]
          · refine (kernel.release held fun page => ?_).congr (fun slot => ?_) fun _ => Iff.rfl
            · by_cases same : page = s.tablePage i <;> simp [same]
            · cases slot with
              | none => rfl
              | some k =>
                  by_cases same : k = i
                  · simp [kernelFrom, same]
                  · have : k < i + 1 ↔ k < i := by omega
                    simp [kernelFrom, kernelHeld, same, this, dir]

/-- Destroying a directory gives back what its address space owned, and nothing
that is in use stays in use or is freed besides. -/
theorem pagedirDestroy_spec (h : SpaceOwned F K s) : ∃ s', pagedirDestroy s = .ok s' ∧
    (∀ frame, s'.mem.used frame = true ↔ F frame) ∧ ∀ page, s'.kernel page = true ↔ K page := by
  have entries : pdNo physBase + 0 = pdNo physBase := rfl
  obtain ⟨s₁, tables, dir, frames, kernel⟩ := destroyTables_spec entries h.user
    (h.frames.congr (fun n => by simp [framesFrom]) fun _ => Iff.rfl)
    (h.kernel.congr (fun slot => by cases slot <;> simp [kernelFrom, kernelHeld]) fun _ => Iff.rfl)
  have used : s₁.kernel s₁.dirPage = true := by
    rw [kernel, dir]
    exact .inl rfl
  refine ⟨{ s₁ with kernel := Function.update s₁.kernel s₁.dirPage false }, ?_, frames, fun page => ?_⟩
  · unfold pagedirDestroy
    rw [tables]
    exact if_pos used
  · by_cases same : page = s.dirPage
    · have outside : ¬ K s.dirPage := h.kernel.apart none _ rfl
      simp [same, dir, outside]
    · simp [dir, same, kernel]

end Destroy
end CS162.Pintos
