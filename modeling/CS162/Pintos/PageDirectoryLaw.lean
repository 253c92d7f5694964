import Mathlib.Data.List.Nodup
import CS162.Library.Transition
import CS162.Pintos.PageWordsRefine

/-!
What a page directory is for (userprog/pagedir.c): a map from the pages of a process to
frames, which the operations change only at their page and which never touches what the
kernel has mapped. `pagedir_destroy` gives back what the directory holds, once.
Other code takes and gives back pages and writes to its own, in any order.
-/

namespace CS162.Pintos.PageWords
open CS162.Library CS162.Pintos

/-- Memory after pages were given back. -/
def Ram.without (r : Ram) (gone : List Nat) : Ram :=
  { r with
    words := fun page => if page ∈ gone then fun _ => 0xcccccccc else r.words page
    used := fun page => r.used page && decide (page ∉ gone)
    freed := r.freed ++ gone }

/-- The frames in a table from entry `j` on. -/
def framesFrom (r : Ram) (pt j left : Nat) : List Nat :=
  ((List.range' j left).filter fun j => isSet (r.words pt j) pteP).map fun j => pageOf (r.words pt j)

/-- The pages below entry `i` of a directory. -/
def pagesBelow (r : Ram) (pd i : Nat) : List Nat :=
  if isSet (r.words pd i) pteP then
    framesFrom r (pageOf (r.words pd i)) 0 1024 ++ [pageOf (r.words pd i)]
  else []

/-- The pages below the entries of a directory from `i` on. -/
def pagesFrom (r : Ram) (pd i left : Nat) : List Nat := (List.range' i left).flatMap (pagesBelow r pd)

section Free
variable {r r' : Ram} {pt pd page : Nat}

theorem without_nil : r.without [] = r := by
  simp [Ram.without]

theorem without_without (r : Ram) (gone more : List Nat) :
    (r.without gone).without more = r.without (gone ++ more) := by
  simp only [Ram.without, List.append_assoc, List.mem_append, Ram.mk.injEq, true_and, and_true]
  refine ⟨funext fun page => ?_, funext fun page => ?_⟩
  · by_cases first : page ∈ gone <;> by_cases second : page ∈ more <;> simp [first, second]
  · by_cases first : page ∈ gone <;> by_cases second : page ∈ more <;> simp [first, second]

theorem words_without {gone : List Nat} (stays : page ∉ gone) :
    (r.without gone).words page = r.words page :=
  if_neg stays

theorem used_without {gone : List Nat} (stays : page ∉ gone) :
    (r.without gone).used page = r.used page := by
  simp [Ram.without, stays]

theorem pallocFreePage_eq (used : r.used page = true) : r.pallocFreePage page = some (r.without [page]) := by
  rw [Ram.pallocFreePage, if_pos used, Option.some_inj, Ram.without, Ram.mk.injEq]
  refine ⟨rfl, rfl, funext fun other => ?_, funext fun other => ?_, rfl⟩
  · by_cases same : other = page <;> simp [same]
  · by_cases same : other = page <;> simp [same]

theorem framesFrom_congr (same : r'.words pt = r.words pt) (j left : Nat) :
    framesFrom r' pt j left = framesFrom r pt j left := by
  simp only [framesFrom, same]

theorem framesFrom_succ (r : Ram) (pt j left : Nat) : framesFrom r pt j (left + 1) =
    if isSet (r.words pt j) pteP then pageOf (r.words pt j) :: framesFrom r pt (j + 1) left
    else framesFrom r pt (j + 1) left := by
  rw [framesFrom, List.range'_succ, List.filter_cons]
  split <;> rfl

theorem freeFrames_eq {left j : Nat} (once : (framesFrom r pt j left).Nodup)
    (apart : pt ∉ framesFrom r pt j left) (used : ∀ page ∈ framesFrom r pt j left, r.used page = true) :
    freeFrames pt left j r = some (r.without (framesFrom r pt j left)) := by
  induction left generalizing j r with
  | zero => exact congrArg some without_nil.symm
  | succ left ih =>
      rw [framesFrom_succ] at once apart used ⊢
      rw [freeFrames]
      by_cases present : isSet (r.words pt j) pteP = true
      · simp only [if_pos present, List.nodup_cons, List.mem_cons, not_or, forall_eq_or_imp] at once apart used ⊢
        have rest : framesFrom (r.without [pageOf (r.words pt j)]) pt (j + 1) left =
            framesFrom r pt (j + 1) left :=
          framesFrom_congr (words_without fun mem => apart.1 (List.mem_singleton.mp mem)) _ _
        rw [pallocFreePage_eq used.1, Option.bind_some, ih, rest, without_without, List.singleton_append]
        · rw [rest]
          exact once.2
        · rw [rest]
          exact apart.2
        · rw [rest]
          intro page mem
          have stays : page ∉ [pageOf (r.words pt j)] := by
            intro here
            rw [List.mem_singleton.mp here] at mem
            exact once.1 mem
          rw [used_without stays]
          exact used.2 page mem
      · simp only [if_neg present] at once apart used ⊢
        exact ih once apart used

theorem pagesFrom_succ (r : Ram) (pd i left : Nat) :
    pagesFrom r pd i (left + 1) = pagesBelow r pd i ++ pagesFrom r pd (i + 1) left := by
  rw [pagesFrom, List.range'_succ, List.flatMap_cons]
  rfl

/-- What is given back meanwhile does not change what is below the entries that come. -/
theorem pagesFrom_without {gone : List Nat} {i left : Nat} (stays : pd ∉ gone)
    (apart : List.Disjoint gone (pagesFrom r pd i left)) :
    pagesFrom (r.without gone) pd i left = pagesFrom r pd i left := by
  apply List.flatMap_congr
  intro k mem
  rw [pagesBelow, pagesBelow, words_without stays]
  split
  next present =>
    have below : pageOf (r.words pd k) ∈ pagesFrom r pd i left := by
      rw [pagesFrom, List.mem_flatMap]
      refine ⟨k, mem, ?_⟩
      rw [pagesBelow, if_pos present]
      exact List.mem_append_right _ (List.mem_singleton_self _)
    rw [framesFrom_congr (words_without fun here => apart here below)]
  next => rfl

theorem freeTables_eq {left i : Nat} (once : (pagesFrom r pd i left).Nodup)
    (apart : pd ∉ pagesFrom r pd i left) (used : ∀ page ∈ pagesFrom r pd i left, r.used page = true) :
    freeTables pd left i r = some (r.without (pagesFrom r pd i left)) := by
  induction left generalizing i r with
  | zero => exact congrArg some without_nil.symm
  | succ left ih =>
      rw [pagesFrom_succ] at once apart used ⊢
      simp only [List.nodup_append', List.mem_append, not_or] at once apart
      have here : ∀ page ∈ pagesBelow r pd i, r.used page = true :=
        fun page mem => used page (List.mem_append_left _ mem)
      have later : ∀ page ∈ pagesFrom r pd (i + 1) left, r.used page = true :=
        fun page mem => used page (List.mem_append_right _ mem)
      have rest := pagesFrom_without apart.1 once.2.2
      have next : freeTables pd left (i + 1) (r.without (pagesBelow r pd i)) =
          some (r.without (pagesBelow r pd i ++ pagesFrom r pd (i + 1) left)) := by
        rw [ih, rest, without_without]
        · rw [rest]
          exact once.2.1
        · rw [rest]
          exact apart.2
        · rw [rest]
          intro page mem
          rw [used_without fun gone => once.2.2 gone mem]
          exact later page mem
      rw [freeTables]
      by_cases present : isSet (r.words pd i) pteP = true
      · have below : pagesBelow r pd i =
            framesFrom r (pageOf (r.words pd i)) 0 1024 ++ [pageOf (r.words pd i)] := if_pos present
        rw [if_pos present]
        rw [below] at once here
        obtain ⟨⟨frames, -, table⟩, -, -⟩ := by simpa only [List.nodup_append'] using once
        have outside : pageOf (r.words pd i) ∉ framesFrom r (pageOf (r.words pd i)) 0 1024 :=
          fun mem => table mem (List.mem_singleton_self _)
        have freed := freeFrames_eq frames outside fun page mem => here page (List.mem_append_left _ mem)
        have kept : (r.without (framesFrom r (pageOf (r.words pd i)) 0 1024)).used
            (pageOf (r.words pd i)) = true := by
          rw [used_without outside]
          exact here _ (List.mem_append_right _ (List.mem_singleton_self _))
        simp only [freed, pallocFreePage_eq kept, without_without, Option.bind_eq_bind, Option.bind_some]
        rw [← below]
        exact next
      · have below : pagesBelow r pd i = [] := if_neg present
        rw [below, without_nil] at next
        rw [if_neg present, below]
        exact next

end Free

section Destroy
variable {r boot : Ram} {pd page : Nat}

theorem mem_framesFrom {pt : Nat} : page ∈ framesFrom r pt 0 1024 ↔
    ∃ j < 1024, isSet (r.words pt j) pteP = true ∧ pageOf (r.words pt j) = page := by
  simp only [framesFrom, List.mem_map, List.mem_filter, List.mem_range'_1, Nat.zero_le, Nat.zero_add,
    true_and, and_assoc]

theorem holds_frame {i j : Nat} (below : i < pdNo physBase) (there : r.words pd i ≠ 0)
    (inside : j < 1024) : r.Holds pd (.frame (1024 * i + j)) page ↔
      isSet (r.words (pageOf (r.words pd i)) j) pteP = true ∧
        pageOf (r.words (pageOf (r.words pd i)) j) = page := by
  have table : (1024 * i + j) / 1024 = i := by omega
  have index : (1024 * i + j) % 1024 = j := by omega
  simp only [Ram.Holds, entry, pageAt, table, index, Ram.pagedir, if_pos (And.intro below there),
    Option.map_some, Option.filter_some]
  constructor
  · intro held
    obtain ⟨pte, mapped, frame⟩ := held
    split at mapped
    next present =>
      cases mapped
      exact ⟨present, frame⟩
    next => cases mapped
  · intro held
    exact ⟨_, if_pos held.1, held.2⟩

theorem table_of_frame {n : Nat} (held : r.Holds pd (.frame n) page) :
    n / 1024 < pdNo physBase ∧ r.words pd (n / 1024) ≠ 0 := by
  obtain ⟨pte, mapped, -⟩ := held
  by_cases there : n / 1024 < pdNo physBase ∧ r.words pd (n / 1024) ≠ 0
  · exact there
  · rw [entry, pageAt, Ram.pagedir, if_neg there, Option.map_none, Option.filter_none] at mapped
    cases mapped

namespace WellFormed
variable (h : WellFormed boot r pd)
include h

theorem mem_pagesBelow {i : Nat} (below : i < pdNo physBase) : page ∈ pagesBelow r pd i ↔
    r.Holds pd (.table i) page ∨ ∃ j < 1024, r.Holds pd (.frame (1024 * i + j)) page := by
  rw [pagesBelow]
  by_cases missing : r.words pd i = 0
  · have absent : isSet (r.words pd i) pteP = false := by
      rw [missing]
      rfl
    rw [absent, if_neg Bool.false_ne_true]
    refine ⟨fun mem => absurd mem List.not_mem_nil, fun held => ?_⟩
    cases held with
    | inl table => exact absurd missing table.2.1
    | inr frame =>
        obtain ⟨j, inside, held⟩ := frame
        have there := (table_of_frame held).2
        rw [show (1024 * i + j) / 1024 = i by omega] at there
        exact absurd missing there
  · rw [h.isSet_directory below missing, if_pos rfl, List.mem_append, List.mem_singleton,
      mem_framesFrom, or_comm]
    refine or_congr ⟨fun same => ⟨below, missing, same.symm⟩, fun held => held.2.2.symm⟩ ?_
    refine exists_congr fun j => and_congr_right fun inside => ?_
    rw [holds_frame below missing inside]

theorem nodup_pagesBelow {i : Nat} (below : i < pdNo physBase) : (pagesBelow r pd i).Nodup := by
  rw [pagesBelow]
  by_cases missing : r.words pd i = 0
  · rw [missing, show isSet 0 pteP = false by rfl, if_neg Bool.false_ne_true]
    exact List.nodup_nil
  · rw [h.isSet_directory below missing, if_pos rfl, List.nodup_append']
    refine ⟨?_, List.nodup_singleton _, ?_⟩
    · apply List.Nodup.map_on
      · intro j mem k mem' same
        simp only [List.mem_filter, List.mem_range'_1] at mem mem'
        have inside : j < 1024 := by omega
        have inside' : k < 1024 := by omega
        have held := (holds_frame below missing inside).mpr ⟨mem.2, rfl⟩
        have held' := (holds_frame below missing inside').mpr ⟨mem'.2, same.symm⟩
        have := Slot.frame.inj (h.owned.injective _ _ _ held held')
        omega
      · exact List.Nodup.filter _ List.nodup_range'
    · intro frame mem table
      rw [mem_framesFrom] at mem
      obtain ⟨j, inside, mapped⟩ := mem
      rw [List.mem_singleton] at table
      have held := (holds_frame below missing inside).mpr mapped
      cases h.owned.injective _ (.table i) _ held ⟨below, missing, table.symm⟩

theorem nodup_pagesFrom : (pagesFrom r pd 0 (pdNo physBase)).Nodup := by
  rw [pagesFrom, List.nodup_flatMap]
  refine ⟨fun i mem => ?_, ?_⟩
  · rw [List.mem_range'_1] at mem
    exact h.nodup_pagesBelow (by omega)
  · refine List.Pairwise.imp_of_mem ?_ (List.nodup_range' (s := 0) (n := pdNo physBase))
    intro i k mem mem' differ page below below'
    rw [List.mem_range'_1] at mem mem'
    cases (h.mem_pagesBelow (by omega)).mp below with
    | inl table =>
        cases (h.mem_pagesBelow (by omega)).mp below' with
        | inl table' =>
            cases h.owned.injective _ _ _ table table'
            exact differ rfl
        | inr frame =>
            obtain ⟨j, -, held⟩ := frame
            cases h.owned.injective _ _ _ table held
    | inr frame =>
        obtain ⟨j, inside, held⟩ := frame
        cases (h.mem_pagesBelow (by omega)).mp below' with
        | inl table' => cases h.owned.injective _ _ _ held table'
        | inr frame' =>
            obtain ⟨j', inside', held'⟩ := frame'
            have := Slot.frame.inj (h.owned.injective _ _ _ held held')
            omega

theorem mem_pagesFrom : page ∈ pagesFrom r pd 0 (pdNo physBase) ↔
    (∃ i, r.Holds pd (.table i) page) ∨ ∃ n, r.Holds pd (.frame n) page := by
  rw [pagesFrom, List.mem_flatMap]
  constructor
  · intro mem
    obtain ⟨i, inside, below⟩ := mem
    rw [List.mem_range'_1] at inside
    cases (h.mem_pagesBelow (by omega)).mp below with
    | inl table => exact .inl ⟨i, table⟩
    | inr frame =>
        obtain ⟨j, -, held⟩ := frame
        exact .inr ⟨_, held⟩
  · intro held
    cases held with
    | inl table =>
        obtain ⟨i, held⟩ := table
        refine ⟨i, ?_, (h.mem_pagesBelow held.1).mpr (.inl held)⟩
        rw [List.mem_range'_1]
        have := held.1
        omega
    | inr frame =>
        obtain ⟨n, held⟩ := frame
        have below := (table_of_frame held).1
        refine ⟨n / 1024, ?_, (h.mem_pagesBelow below).mpr (.inr ⟨n % 1024, by omega, ?_⟩)⟩
        · rw [List.mem_range'_1]
          omega
        · rw [show 1024 * (n / 1024) + n % 1024 = n by omega]
          exact held

/-- `pagedir_destroy` gives back the mapped frames, the tables and the directory, each once. -/
theorem pagedirDestroy : ∃ gone, pagedirDestroy r (some pd) = some (r.without gone) ∧ gone.Nodup ∧
    ∀ page, page ∈ gone ↔ page = pd ∨ (∃ i, r.Holds pd (.table i) page) ∨
      ∃ n, r.Holds pd (.frame n) page := by
  have outside : pd ∉ pagesFrom r pd 0 (pdNo physBase) := by
    intro mem
    have directory : r.Holds pd .directory pd := rfl
    cases h.mem_pagesFrom.mp mem with
    | inl table =>
        obtain ⟨i, held⟩ := table
        cases h.owned.injective _ _ _ directory held
    | inr frame =>
        obtain ⟨n, held⟩ := frame
        cases h.owned.injective _ _ _ directory held
  have used : ∀ page ∈ pagesFrom r pd 0 (pdNo physBase), r.used page = true := by
    intro page mem
    cases h.mem_pagesFrom.mp mem with
    | inl table =>
        obtain ⟨i, held⟩ := table
        exact h.owned.used_of_held _ _ held
    | inr frame =>
        obtain ⟨n, held⟩ := frame
        exact h.owned.used_of_held _ _ held
  have kept : (r.without (pagesFrom r pd 0 (pdNo physBase))).used pd = true := by
    rw [used_without outside]
    exact h.owned.used_of_held .directory pd rfl
  refine ⟨pagesFrom r pd 0 (pdNo physBase) ++ [pd], ?_, ?_, fun page => ?_⟩
  · rw [PageWords.pagedirDestroy, if_neg h.created, freeTables_eq h.nodup_pagesFrom outside used,
      Option.bind_some, pallocFreePage_eq kept, without_without]
  · rw [List.nodup_append']
    refine ⟨h.nodup_pagesFrom, List.nodup_singleton pd, fun page mem same => ?_⟩
    rw [List.mem_singleton.mp same] at mem
    exact outside mem
  · rw [List.mem_append, List.mem_singleton, h.mem_pagesFrom, or_comm]

end WellFormed
end Destroy

/-- Memory as `paging_init` leaves it. -/
structure Boots (boot : Ram) : Prop where
  user : ∀ i < pdNo physBase, boot.words boot.initPageDir i = 0
  used : boot.used boot.initPageDir = true
  kernel : ∀ page, boot.Holds boot.initPageDir .kernel page → boot.used page = true

/-- A directory in memory, and the memory at its creation. -/
structure Space where
  ram : Ram
  pd : Nat
  boot : Ram

namespace Space
variable (s : Space)

def mapping : Nat → Option (Nat × Bool) := s.ram.mapping s.pd

/-- A page that was taken and that the directory does not hold. -/
def Spare (page : Nat) : Prop :=
  page < s.ram.pages ∧ s.ram.used page = true ∧ ∀ slot, ¬ s.ram.Holds s.pd slot page

/-- `lookup_page` has a table for the page, or a free page to make one. -/
def HasTable (va : Nat) (grant : Option Nat) : Prop :=
  s.ram.words s.pd (pdNo va) ≠ 0 ∨
    ∃ page, grant = some page ∧ page < s.ram.pages ∧ s.ram.used page = false

end Space

/-- Other code takes a page, gives one back or writes to one; or an operation is called. -/
inductive Event where
  | takePage (page : Nat) (contents : Nat → Word)
  | freePage (page : Nat)
  | write (page i : Nat) (w : Word)
  | setPage (upage frame : Nat) (writable : Bool) (grant : Option Nat)
  | clearPage (upage : Nat)
  | setDirty (upage : Nat) (value : Bool)
  | setAccessed (upage : Nat) (value : Bool)

/-- What an event makes of memory, under what its caller promises. -/
def Space.Runs (s : Space) : Event → Ram → Prop
  | .takePage page contents, r => s.ram.pallocGetPage (some page) contents = some (page, r)
  | .freePage page, r => s.Spare page ∧ s.ram.pallocFreePage page = some r
  | .write page i w, r =>
      (∀ slot, s.ram.Holds s.pd slot page → ∃ n, slot = .frame n) ∧ r = s.ram.setWord page i w
  | .setPage upage frame writable grant, r =>
      pgOfs upage = 0 ∧ upage < physBase ∧ s.mapping (pgNo upage) = none ∧ s.Spare frame ∧
        ∃ ok, s.ram.pagedirSetPage s.pd upage (ptov frame) writable grant = some (ok, r)
  | .clearPage upage, r =>
      pgOfs upage = 0 ∧ upage < physBase ∧ s.ram.pagedirClearPage s.pd upage = some r
  | .setDirty upage value, r =>
      upage < physBase ∧ s.ram.pagedirSetDirty s.pd upage value = some r
  | .setAccessed upage value, r =>
      upage < physBase ∧ s.ram.pagedirSetAccessed s.pd upage value = some r

/-- A directory from `pagedir_create` on. -/
def pageDirectory : System Space Event where
  init s := Boots s.boot ∧ ∃ grant, s.boot.pagedirCreate grant = some (s.pd, s.ram)
  step s e s' := s.Runs e s'.ram ∧ s'.pd = s.pd ∧ s'.boot = s.boot

/-- The directory represents `mapping`, and the operations are those on a map. -/
structure Refines (s : Space) : Prop where
  translates : ∀ va < physBase,
    s.ram.translate s.pd va = (s.mapping (pgNo va)).map fun m => (m.1, m.2, true)
  kernel : ∀ va, physBase ≤ va → va < 2 ^ 32 →
    s.ram.translate s.pd va = s.boot.translate s.boot.initPageDir va
  get : ∀ va < physBase, s.ram.pagedirGetPage s.pd va =
    some ((s.mapping (pgNo va)).map fun m => ptov m.1 + pgOfs va)
  set : ∀ upage frame writable grant, pgOfs upage = 0 → upage < physBase →
    s.mapping (pgNo upage) = none → s.Spare frame →
    ∃ ok r, s.ram.pagedirSetPage s.pd upage (ptov frame) writable grant = some (ok, r) ∧
      (ok = true ↔ s.HasTable upage grant) ∧ r.mapping s.pd =
        if ok then Function.update s.mapping (pgNo upage) (some (frame, writable)) else s.mapping
  clear : ∀ upage, pgOfs upage = 0 → upage < physBase →
    ∃ r, s.ram.pagedirClearPage s.pd upage = some r ∧
      r.mapping s.pd = Function.update s.mapping (pgNo upage) none
  status : ∀ upage flag value, upage < physBase → IsStatus flag →
    ∃ r, s.ram.pagedirSet flag s.pd upage value = some r ∧ r.mapping s.pd = s.mapping ∧
      (s.mapping (pgNo upage) ≠ none → r.pagedirIs flag s.pd upage = some value)
  destroy : ∃ r gone, pagedirDestroy s.ram (some s.pd) = some r ∧
    r.freed = s.ram.freed ++ gone ∧ gone.Nodup ∧
    (∀ page, page ∈ gone ↔ page = s.pd ∨
      (∃ i < pdNo physBase, s.ram.words s.pd i ≠ 0 ∧ pageOf (s.ram.words s.pd i) = page) ∨
      ∃ n m, s.mapping n = some m ∧ m.1 = page) ∧
    ∀ page, r.used page = (s.ram.used page && decide (page ∉ gone))

section Runs
variable {r boot : Ram} {s s' : Space} {e : Event} {pd va : Nat}

theorem wellFormed_of_init (init : pageDirectory.init s) : WellFormed s.boot s.ram s.pd := by
  obtain ⟨boots, grant, created⟩ := init
  obtain ⟨-, inside, free, made⟩ := pallocGetPage_eq_some created
  have dir : s.ram.words s.pd = s.boot.words s.boot.initPageDir := by
    rw [made]
    exact Function.update_self ..
  have empty : ∀ n, entry (s.ram.pagedir s.pd) n = none := by
    intro n
    have missing : ¬ (n / 1024 < pdNo physBase ∧ s.ram.words s.pd (n / 1024) ≠ 0) := by
      intro there
      rw [dir] at there
      exact there.2 (boots.user _ there.1)
    rw [entry, pageAt, Ram.pagedir, if_neg missing]
    rfl
  have kernel : ∀ page, s.ram.Holds s.pd .kernel page → s.boot.used page = true ∧ page ≠ s.pd := by
    intro page held
    simp only [Ram.Holds, dir] at held
    have used : s.boot.used page = true := boots.kernel page held
    refine ⟨used, fun same => ?_⟩
    rw [same, free] at used
    cases used
  have none : ∀ slot page, s.ram.Holds s.pd slot page → slot = .directory ∨ slot = .kernel := by
    intro slot page held
    cases slot with
    | directory => exact .inl rfl
    | kernel => exact .inr rfl
    | table i =>
        simp only [Ram.Holds, dir] at held
        exact absurd (boots.user i held.1) held.2.1
    | frame n =>
        obtain ⟨pte, mapped, -⟩ := held
        rw [empty n] at mapped
        cases mapped
  have kernels : Backed (fun slot page => slot = .kernel ∧ s.ram.Holds s.pd slot page)
      fun page => s.boot.used page = true := by
    refine ⟨fun slot page held => ?_, fun slot slot' page held held' => held.1.trans held'.1.symm⟩
    obtain ⟨rfl, held⟩ := held
    exact (kernel page held).1
  refine ⟨?_, ?_, ?_, ?_, ?_, ?_⟩
  · intro same
    have used := boots.used
    rw [made] at same
    rw [← show s.pd = s.boot.initPageDir from same, free] at used
    cases used
  · intro i below
    rw [dir]
    exact .inl (boots.user i below)
  · intro n pte mapped
    rw [empty n] at mapped
    cases mapped
  · refine kernels.hold (i := .directory) (r := s.pd) ?_ ?_ ?_ ?_
    · intro slot page held used
      rw [made]
      exact (Function.update_of_ne (kernel page (held.1 ▸ held.2)).2 ..).trans used
    · rw [made]
      exact Function.update_self ..
    · intro slot held
      exact absurd rfl (kernel s.pd (held.1 ▸ held.2)).2
    · intro slot page held
      cases none slot page held with
      | inl directory =>
          rw [directory] at held
          exact .inr ⟨directory, held⟩
      | inr table => exact .inl ⟨table, held⟩
  · intro i _
    rw [dir]
  · intro page held
    rw [made]
    exact Function.update_of_ne (kernel page held).2 ..

theorem wellFormed_of_runs (h : WellFormed boot s.ram s.pd) (runs : s.Runs e r) :
    WellFormed boot r s.pd := by
  cases e with
  | takePage page contents =>
      obtain ⟨-, inside, free, taken⟩ := pallocGetPage_eq_some runs
      have other : ∀ slot held, s.ram.Holds s.pd slot held → held ≠ page :=
        fun slot held holds same => h.unheld free slot (same ▸ holds)
      apply h.elsewhere
      · rw [taken]
      · intro slot held holds _
        rw [taken]
        exact Function.update_of_ne (other slot held holds) ..
      · intro slot held holds
        rw [taken]
        exact (Function.update_of_ne (other slot held holds) ..).trans (h.owned.used_of_held slot held holds)
  | freePage page =>
      obtain ⟨spare, freed⟩ := runs
      rw [pallocFreePage_eq spare.2.1] at freed
      cases freed
      have stays : ∀ slot held, s.ram.Holds s.pd slot held → held ∉ [page] := by
        intro slot held holds gone
        rw [List.mem_singleton.mp gone] at holds
        exact spare.2.2 slot holds
      apply h.elsewhere
      · rfl
      · intro slot held holds _
        exact words_without (stays slot held holds)
      · intro slot held holds
        rw [used_without (stays slot held holds)]
        exact h.owned.used_of_held slot held holds
  | write page i w =>
      obtain ⟨data, written⟩ := runs
      rw [written]
      apply h.elsewhere
      · rfl
      · intro slot held holds table
        have ne : held ≠ page := by
          intro same
          rw [same] at holds
          obtain ⟨n, frame⟩ := data slot holds
          exact table n frame
        exact words_setWord_of_ne _ _ ne
      · exact h.owned.used_of_held
  | setPage upage frame writable grant =>
      obtain ⟨aligned, user, unmapped, spare, ok, set⟩ := runs
      rw [Space.mapping, Ram.mapping, Option.map_eq_none_iff] at unmapped
      obtain ⟨ok', r', set', keeps, -, -⟩ :=
        h.pagedirSetPage aligned user unmapped spare.1 spare.2.1 spare.2.2 writable grant
      rw [set'] at set
      cases set
      exact keeps
  | clearPage upage =>
      obtain ⟨aligned, user, cleared⟩ := runs
      obtain ⟨r', cleared', keeps, -⟩ := h.pagedirClearPage aligned user
      rw [cleared'] at cleared
      cases cleared
      exact keeps
  | setDirty upage value =>
      obtain ⟨user, set⟩ := runs
      obtain ⟨r', set', keeps, -⟩ := h.pagedirSet (.inl rfl) user value
      rw [Ram.pagedirSetDirty, set'] at set
      cases set
      exact keeps
  | setAccessed upage value =>
      obtain ⟨user, set⟩ := runs
      obtain ⟨r', set', keeps, -⟩ := h.pagedirSet (.inr rfl) user value
      rw [Ram.pagedirSetAccessed, set'] at set
      cases set
      exact keeps

theorem wellFormed_of_reachable (h : pageDirectory.Reachable s) : WellFormed s.boot s.ram s.pd := by
  refine h.invariant (I := fun s => WellFormed s.boot s.ram s.pd) (fun s => wellFormed_of_init)
    fun s e s' keeps step => ?_
  obtain ⟨runs, same, boot⟩ := step
  rw [same, boot]
  exact wellFormed_of_runs keeps runs

theorem spare_of_takePage {page : Nat} {contents : Nat → Word} (h : pageDirectory.Reachable s)
    (took : s.Runs (.takePage page contents) r) : Space.Spare ⟨r, s.pd, s.boot⟩ page := by
  have keeps := wellFormed_of_reachable h
  obtain ⟨-, inside, free, taken⟩ := pallocGetPage_eq_some took
  have unheld := keeps.unheld free
  have words : ∀ slot other, s.ram.Holds s.pd slot other → r.words other = s.ram.words other := by
    intro slot other held
    have ne : other ≠ page := by
      intro same
      rw [same] at held
      exact unheld slot held
    rw [taken]
    exact Function.update_of_ne ne ..
  refine ⟨?_, ?_, ?_⟩
  · rw [taken]
    exact inside
  · rw [taken]
    exact Function.update_self ..
  · rw [show Ram.Holds r s.pd = s.ram.Holds s.pd from
      holds_congr (words .directory s.pd rfl) fun i => words (.table i)]
    exact unheld

theorem WellFormed.translate (h : WellFormed boot r pd) (user : va < physBase) :
    r.translate pd va = (r.mapping pd (pgNo va)).map fun m => (m.1, m.2, true) := by
  simp only [Ram.translate, Ram.mapping]
  cases h.tables (pdNo va) (pdNo_lt user) with
  | inl missing =>
      rw [entry_pagedir_none user missing, missing, toPte_zero]
      rfl
  | inr table =>
      obtain ⟨pt, fits, made⟩ := table
      have fits : pt < 2 ^ 20 := Nat.lt_trans fits (by decide)
      have found : r.words pd (pdNo va) ≠ 0 := by
        rw [made]
        exact (toPte_pdeCreate fits).2.2
      have mapped := entry_pagedir user found
      have allows := h.user (pgNo va)
      rw [made, (toPte_pdeCreate fits).2.1] at mapped
      rw [made, toPte_pdeCreate_eq fits]
      simp only [true_and, Bool.true_and]
      rw [mapped] at allows ⊢
      by_cases present : isSet (r.words pt (ptNo va)) pteP = true
      · rw [if_pos present] at allows ⊢
        rw [if_pos (show (toPte (r.words pt (ptNo va))).present = true from present),
          allows _ rfl, Option.map_some, Option.map_some]
      · rw [if_neg present, if_neg (show ¬ (toPte (r.words pt (ptNo va))).present = true from present)]
        rfl

theorem WellFormed.translate_kernel (h : WellFormed boot r pd) (kernel : physBase ≤ va)
    (inside : va < 2 ^ 32) : r.translate pd va = boot.translate boot.initPageDir va := by
  have high : pdNo physBase ≤ pdNo va := Nat.div_le_div_right kernel
  have low : pdNo va < 1024 := by
    simp only [pdNo]
    omega
  have same := h.directory (pdNo va) high
  simp only [Ram.translate, ← same]
  by_cases present : (toPte (r.words pd (pdNo va))).present = true
  · rw [h.kernel (toPte (r.words pd (pdNo va))).frame ⟨pdNo va, high, low, present, rfl⟩]
  · rw [if_neg fun both => present both.1, if_neg fun both => present both.1]

theorem WellFormed.pagedirIs {flag : Word} {pte : Pte} (h : WellFormed boot r pd) (user : va < physBase)
    (status : IsStatus flag) {value : Bool}
    (mapped : entry (r.pagedir pd) (pgNo va) = some (setStatus flag pte value)) :
    r.pagedirIs flag pd va = some value := by
  rw [Ram.pagedirIs, h.lookupPage user]
  by_cases missing : r.words pd (pdNo va) = 0
  · rw [entry_pagedir_none user missing] at mapped
    cases mapped
  · rw [entry_pagedir user missing] at mapped
    rw [if_neg missing]
    split at mapped
    next =>
      have same := Option.some.inj mapped
      simp only [Option.map_some, Option.any_some, Option.some_inj]
      cases status with
      | inl dirty =>
          subst dirty
          rw [setStatus, if_pos rfl] at same
          exact congrArg Pte.dirty same
      | inr accessed =>
          have other : pteA ≠ pteD := by decide
          subst accessed
          rw [setStatus, if_neg other] at same
          exact congrArg Pte.accessed same
    next => cases mapped

/-- Every directory that the kernel makes is a map from pages to frames: whatever operations were
called and whatever other code did meanwhile, each operation does there what it does on a map. -/
theorem pageDirectory_refines (h : pageDirectory.Reachable s) : Refines s := by
  have keeps := wellFormed_of_reachable h
  constructor
  case translates => exact fun va user => keeps.translate user
  case kernel => exact fun va kernel inside => keeps.translate_kernel kernel inside
  case get =>
    intro va user
    rw [keeps.pagedirGetPage user, Space.mapping, Ram.mapping, Option.map_map]
    rfl
  case set =>
    intro upage frame writable grant aligned user unmapped spare
    rw [Space.mapping, Ram.mapping, Option.map_eq_none_iff] at unmapped
    obtain ⟨ok, r, set, -, able, entries⟩ :=
      keeps.pagedirSetPage aligned user unmapped spare.1 spare.2.1 spare.2.2 writable grant
    refine ⟨ok, r, set, able, funext fun n => ?_⟩
    rw [Ram.mapping, entries]
    cases ok with
    | false => rfl
    | true =>
        rw [if_pos rfl, if_pos rfl]
        exact Function.apply_update (fun _ => Option.map _) ..
  case clear =>
    intro upage aligned user
    obtain ⟨r, cleared, -, entries⟩ := keeps.pagedirClearPage aligned user
    refine ⟨r, cleared, funext fun n => ?_⟩
    rw [Ram.mapping, entries]
    exact Function.apply_update (fun _ => Option.map _) ..
  case status =>
    intro upage flag value user status
    obtain ⟨r, set, after, entries⟩ := keeps.pagedirSet status user value
    refine ⟨r, set, funext fun n => ?_, fun mapped => ?_⟩
    · rw [Ram.mapping, entries, Space.mapping, Ram.mapping]
      by_cases here : n = pgNo upage
      · rw [here, Function.update_self, Option.map_map]
        congr 1
        funext pte
        simp only [Function.comp_apply, setStatus]
        split <;> rfl
      · rw [Function.update_of_ne here]
    · obtain ⟨m, found⟩ := Option.ne_none_iff_exists'.mp mapped
      rw [Space.mapping, Ram.mapping, Option.map_eq_some_iff] at found
      obtain ⟨pte, found, -⟩ := found
      apply after.pagedirIs user status
      rw [entries, Function.update_self, found, Option.map_some]
  case destroy =>
    obtain ⟨gone, freed, once, all⟩ := keeps.pagedirDestroy
    refine ⟨_, gone, freed, rfl, once, fun page => ?_, fun page => rfl⟩
    rw [all]
    refine or_congr_right (or_congr Iff.rfl (exists_congr fun n => ?_))
    rw [Space.mapping, Ram.mapping]
    constructor
    · intro held
      obtain ⟨pte, mapped, frame⟩ := held
      exact ⟨_, by rw [mapped]; rfl, frame⟩
    · intro held
      obtain ⟨m, mapped, frame⟩ := held
      rw [Option.map_eq_some_iff] at mapped
      obtain ⟨pte, mapped, made⟩ := mapped
      rw [← made] at frame
      exact ⟨pte, mapped, frame⟩

/-- Memory of 16 pages, of which the kernel has mapped the first 8. -/
def smallBoot : Ram where
  pages := 16
  fits := by decide
  initPageDir := 1
  words page i :=
    if page = 1 ∧ i = 768 then pdeCreate 2
    else if page = 2 ∧ i < 8 then pteCreateKernel i true
    else 0
  used page := page = 1 || page = 2
  freed := []

theorem smallBoot_boots : Boots smallBoot := by
  refine ⟨fun i below => ?_, rfl, fun page held => ?_⟩
  · have other : ¬ (1 = 1 ∧ i = 768) := by
      simp only [pdNo, physBase] at below
      omega
    have data : ¬ (1 = 2 ∧ i < 8) := by omega
    exact (if_neg other).trans (if_neg data)
  · obtain ⟨i, -, -, set, leads⟩ := held
    by_cases here : i = 768
    · subst here
      rw [← leads]
      decide
    · have data : ¬ (1 = 2 ∧ i < 8) := by omega
      have zero : smallBoot.words smallBoot.initPageDir i = 0 :=
        (if_neg fun both => here both.2).trans (if_neg data)
      rw [zero] at set
      exact absurd set (by decide)

/-- A directory in page 3 of it. -/
def smallCreated : Space where
  ram := { smallBoot with
    words := Function.update smallBoot.words 3 (smallBoot.words 1)
    used := Function.update smallBoot.used 3 true }
  pd := 3
  boot := smallBoot

/-- A process has taken page 4. -/
def smallSpace : Space where
  ram := { smallCreated.ram with
    words := Function.update smallCreated.ram.words 4 fun _ => 0
    used := Function.update smallCreated.ram.used 4 true }
  pd := 3
  boot := smallBoot

/-- The process maps page 4 at 0x8048000, and finds it there. -/
theorem pageDirectory_refines_of_set : ∃ s, pageDirectory.Reachable s ∧
    s.ram.pagedirGetPage s.pd 0x8048123 = some (some (ptov 4 + 0x123)) := by
  have created : pageDirectory.Reachable smallCreated := .init ⟨smallBoot_boots, some 3, rfl⟩
  have took : smallCreated.Runs (.takePage 4 fun _ => 0) smallSpace.ram := rfl
  have taken : pageDirectory.Reachable smallSpace := created.step ⟨took, rfl, rfl⟩
  have unmapped : smallSpace.mapping (pgNo 0x8048000) = none := by
    have got := (pageDirectory_refines taken).get 0x8048000 (by decide)
    rw [show smallSpace.ram.pagedirGetPage smallSpace.pd 0x8048000 = some none by rfl] at got
    exact Option.map_eq_none_iff.mp (Option.some.inj got).symm
  obtain ⟨ok, r, set, able, mapped⟩ := (pageDirectory_refines taken).set 0x8048000 4 true (some 5)
    rfl (by decide) unmapped (spare_of_takePage created took)
  have reached : pageDirectory.Reachable ⟨r, 3, smallBoot⟩ :=
    taken.step (a := .setPage 0x8048000 4 true (some 5))
      ⟨⟨rfl, by decide, unmapped, spare_of_takePage created took, ok, set⟩, rfl, rfl⟩
  refine ⟨_, reached, ?_⟩
  rw [if_pos (able.mpr (.inr ⟨5, rfl, by decide, rfl⟩))] at mapped
  have found : Space.mapping ⟨r, 3, smallBoot⟩ (pgNo 0x8048123) = some (4, true) := by
    rw [Space.mapping, show Ram.mapping r 3 = _ from mapped]
    exact Function.update_self ..
  rw [(pageDirectory_refines reached).get 0x8048123 (by decide), found]
  rfl

end Runs
end CS162.Pintos.PageWords
