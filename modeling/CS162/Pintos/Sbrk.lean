import CS162.Library.MachineInt
import CS162.Pintos.Paging
import CS162.Library.Ownership

/-!
The heap system call (hw-memory Pintos: `allocate`, `unallocate` and
`syscall_sbrk` of syscall.c), and what its page loops do to the mapped pages and
to the pool.

The page loops count in an `int`; `size` is the `ptrdiff_t` they compare it with.
The pool answers the request for the loop's page `i` by `grants i`. A process
also stores into its pages between its calls, which sets the accessed and dirty
bits; a store to a page it may not write ends it.

Pages are named by their numbers. The pages of a region hold frames of the
pool, each its own, beside the frames that were in use from the start; unmapping
gives the frame back and mapping takes a free one.
-/

namespace CS162.Pintos
open CS162.Library

/-- The fields of `struct thread` that the system call uses. -/
structure Thread where
  mem : Memory
  heapStart : Nat
  heapBreak : Nat

def unallocateFrom (start : Nat) (size : Int) (i : Nat) (m : Memory) : Except Fault Memory :=
  if (pgsize : Int) * i > intMax then .error .intOverflow
  else if (pgsize : Int) * i ≤ size then
    let upage := (start + pgsize * i) % 2 ^ 32
    match pagedirGetPage m.pagedir upage with
    | .error fault => .error fault
    | .ok kpage =>
        match pallocFreePage m kpage with
        | .error fault => .error fault
        | .ok m =>
            match pagedirClearPage m.pagedir upage with
            | .error fault => .error fault
            | .ok pd => unallocateFrom start size (i + 1) { m with pagedir := pd }
  else .ok m
termination_by (size + 1 - pgsize * i).toNat
decreasing_by
  simp only [pgsize] at *
  omega

/-- `unallocate`, with `stop` for its parameter `end`. -/
def unallocate (m : Memory) (start stop : Nat) : Except Fault Memory :=
  unallocateFrom start (toInt32 (stop - start)) 0 m

/-- `true` stands for the result 1. -/
def allocateFrom (start : Nat) (size : Int) (grants : Nat → Grant) (i : Nat) (m : Memory) :
    Except Fault (Bool × Memory) :=
  if (pgsize : Int) * i > intMax then .error .intOverflow
  else if (pgsize : Int) * i ≤ size then
    let upage := (start + pgsize * i) % 2 ^ 32
    match pallocGetPage m true (grants i) with
    | none =>
        match unallocateFrom start size 0 m with
        | .error fault => .error fault
        | .ok m => .ok (true, m)
    | some (kpage, m) =>
        match pagedirSetPage m.pagedir upage kpage true (grants i) with
        | .error fault => .error fault
        | .ok (false, pd) =>
            match pallocFreePage { m with pagedir := pd } (some kpage) with
            | .error fault => .error fault
            | .ok m =>
                match unallocateFrom start size 0 m with
                | .error fault => .error fault
                | .ok m => .ok (true, m)
        | .ok (true, pd) => allocateFrom start size grants (i + 1) { m with pagedir := pd }
  else .ok (false, m)
termination_by (size + 1 - pgsize * i).toNat
decreasing_by
  simp only [pgsize] at *
  omega

def allocate (m : Memory) (start stop : Nat) (grants : Nat → Grant) :
    Except Fault (Bool × Memory) :=
  allocateFrom start (toInt32 (stop - start)) grants 0 m

/-- `(void*)-1` -/
def sbrkFailed : Nat := 2 ^ 32 - 1

def syscallSbrk (t : Thread) (increment : Int) (grants : Nat → Grant) :
    Except Fault (Nat × Thread) :=
  let prev := t.heapBreak
  let new := toUInt32 (toInt32 t.heapBreak + increment)
  if toInt32 new < toInt32 t.heapStart then .ok (sbrkFailed, t)
  else
    let prevPage := pgRoundDown (toUInt32 (prev - 1))
    let newPage := pgRoundDown (toUInt32 (new - 1))
    if increment = 0 then .ok (prev, t)
    else if increment > 0 then
      if prev = t.heapStart ∨ prevPage ≠ newPage then
        match allocate t.mem (toUInt32 (prevPage + pgsize)) newPage grants with
        | .error fault => .error fault
        | .ok (true, m) => .ok (sbrkFailed, { t with mem := m })
        | .ok (false, m) => .ok (prev, { t with mem := m, heapBreak := new })
      else .ok (prev, { t with heapBreak := new })
    else if new = t.heapStart ∨ prevPage ≠ newPage then
      match unallocate t.mem (toUInt32 (newPage + pgsize)) prevPage with
      | .error fault => .error fault
      | .ok m => .ok (prev, { t with mem := m, heapBreak := new })
    else .ok (prev, { t with heapBreak := new })

/-- The process stores a byte. -/
def userStore (t : Thread) (addr : Nat) (byte : UInt8) : Option Thread :=
  match lookupPage t.mem.pagedir addr with
  | none => none
  | some pte =>
      if addr < physBase ∧ pte.present ∧ pte.user ∧ pte.writable then
        some { t with
          mem.pagedir := setPte t.mem.pagedir addr { pte with accessed := true, dirty := true }
          mem.frames := Function.update t.mem.frames pte.frame
            (Function.update (t.mem.frames pte.frame) (pgOfs addr) byte) }
      else none

/-- The frame of page number `n`. -/
def frameOf (m : Memory) (n : Nat) : Option Nat := (entry m.pagedir n).map Pte.frame

/-- The frames that the pages of a region hold. -/
def heldBy (R : Nat → Prop) [DecidablePred R] (m : Memory) (n : Nat) : Option Nat :=
  if R n then frameOf m n else none

/-- The region's pages and the frames in use from the start make up the pool. -/
abbrev Accounts (base : Nat → Prop) (R : Nat → Prop) [DecidablePred R] (m : Memory) : Prop :=
  Owns base (heldBy R m) fun frame => m.used frame = true

/-- Frames in use before and after have kept their contents. -/
def KeepsContents (m m' : Memory) : Prop :=
  ∀ frame, m.used frame = true → m'.used frame = true → m'.frames frame = m.frames frame

/-- The entries without those of the pages from `a` up to `b`. -/
def clearPages (a b : Nat) (entries : Nat → Option Pte) (n : Nat) : Option Pte :=
  if a ≤ n ∧ n < b then none else entries n

section
variable {R : Nat → Prop} [DecidablePred R] {base : Nat → Prop} {m m' : Memory} {n frame : Nat}

theorem heldBy_of_mem (h : R n) : heldBy R m n = frameOf m n := if_pos h

theorem heldBy_eq_update (entry' : Option Pte) (hn : R n)
    (set : entry m'.pagedir = Function.update (entry m.pagedir) n entry') :
    heldBy R m' = Function.update (heldBy R m) n (entry'.map Pte.frame) := by
  funext k
  by_cases same : k = n
  · rw [same, Function.update_self, heldBy_of_mem hn, frameOf, set, Function.update_self]
  · rw [Function.update_of_ne same, heldBy, heldBy, frameOf, frameOf, set,
      Function.update_of_ne same]

theorem heldBy_congr (same : entry m'.pagedir = entry m.pagedir) : heldBy R m' = heldBy R m := by
  funext k
  rw [heldBy, heldBy, frameOf, frameOf, same]

theorem Accounts.used_of_frameOf (h : Accounts base R m) (hn : R n) (hf : frameOf m n = some frame) :
    m.used frame = true :=
  h.used_of_held (by rw [heldBy_of_mem hn, hf])

end

section Store
variable {pd : PageDir} {va : Nat} {t t' : Thread} {byte : UInt8}

theorem isSome_setPte (pte : Pte) (i : Nat) : (setPte pd va pte i).isSome ↔ (pd i).isSome := by
  rw [setPte, Function.update_apply]
  split
  next same => rw [same, Option.isSome_map]
  next => rfl

theorem userStore_of_some (stored : userStore t va byte = some t') :
    t'.heapStart = t.heapStart ∧ t'.heapBreak = t.heapBreak ∧ t'.mem.used = t.mem.used ∧
      (∀ n, frameOf t'.mem n = frameOf t.mem n) ∧
      ∀ i, (t'.mem.pagedir i).isSome ↔ (t.mem.pagedir i).isSome := by
  rw [userStore] at stored
  split at stored
  next => cases stored
  next pte found =>
    split at stored
    next allowed =>
      cases stored
      refine ⟨rfl, rfl, rfl, fun n => ?_, isSome_setPte _⟩
      have mapped : entry t.mem.pagedir (pgNo va) = some pte := by
        rw [entry, ← lookupPage_eq, found, Option.filter_some, if_pos allowed.2.1]
      have table : (t.mem.pagedir (pdNo va)).isSome := by
        rw [lookupPage, Option.map_eq_some_iff] at found
        obtain ⟨pt, here, -⟩ := found
        rw [here]
        rfl
      have entries := entry_setPte table { pte with accessed := true, dirty := true }
      rw [frameOf, entries, frameOf]
      by_cases here : n = pgNo va
      · rw [here, Function.update_self, if_pos allowed.2.1, mapped]
        rfl
      · rw [Function.update_of_ne here]
    next => cases stored

end Store

section Address
variable {a i : Nat}

theorem pageAddr_eq (inside : a + i < 0xc0000) : (pgsize * a + pgsize * i) % 2 ^ 32 = pgsize * (a + i) := by
  unfold pgsize
  omega

theorem pgOfs_pageAddr (n : Nat) : pgOfs (pgsize * n) = 0 := Nat.mul_mod_right ..

theorem pgNo_pageAddr (n : Nat) : pgNo (pgsize * n) = n := Nat.mul_div_cancel_left _ (by decide)

theorem pageAddr_lt (inside : a < 0xc0000) : pgsize * a < physBase := by
  unfold pgsize physBase
  omega

end Address

section Loops
variable {R : Nat → Prop} [DecidablePred R] {base : Nat → Prop} {m : Memory}
variable {a count i : Nat} {size : Int}

/-- One round of `unallocate`. -/
theorem unallocate_page {n : Nat} (accounts : Accounts base R m) (hn : R n) (user : n < 0xc0000) :
    ∃ m₁ pd, pallocFreePage m (frameOf m n) = .ok m₁ ∧
      pagedirClearPage m₁.pagedir (pgsize * n) = .ok pd ∧
      entry pd = Function.update (entry m.pagedir) n none ∧
      Accounts base R { m₁ with pagedir := pd } ∧ KeepsContents m m₁ ∧
      ∀ frame, m₁.used frame = true → m.used frame = true := by
  obtain ⟨pd, cleared, entries⟩ :=
    pagedirClearPage_spec m.pagedir (pgOfs_pageAddr n) (pageAddr_lt user)
  rw [pgNo_pageAddr] at entries
  cases held : frameOf m n with
  | none =>
      refine ⟨m, pd, rfl, cleared, entries, ?_, fun frame _ _ => rfl, fun _ h => h⟩
      have same : entry pd = entry m.pagedir := by
        rw [entries, Function.update_eq_self_iff]
        exact (Option.map_eq_none_iff.mp held).symm
      exact accounts.congr (congrFun (heldBy_congr same)) fun _ => Iff.rfl
  | some frame =>
      have used := accounts.used_of_frameOf hn held
      refine ⟨_, pd, if_pos used, cleared, entries, ?_, fun other _ h => ?_, fun other h => ?_⟩
      · have slots : heldBy R { m with pagedir := pd } = Function.update (heldBy R m) n none :=
          heldBy_eq_update none hn entries
        refine (accounts.release (i := n) (by rw [heldBy_of_mem hn, held]) fun other => ?_).congr
          (congrFun slots) fun _ => Iff.rfl
        by_cases same : other = frame
        · simp [same]
        · simp [same]
      · by_cases same : other = frame
        · simp [same] at h
        · exact Function.update_of_ne same ..
      · by_cases same : other = frame
        · rw [same]
          exact used
        · simpa [same] using h

/-- `unallocate` unmaps the pages from `a + i` up to `a + count`. -/
theorem unallocateFrom_spec (accounts : Accounts base R m)
    (inside : ∀ n, a ≤ n → n < a + count → R n) (user : a + count ≤ 0xc0000)
    (fits : (pgsize : Int) * count ≤ intMax) (span : size = (pgsize : Int) * count - pgsize)
    (start : i ≤ count) :
    ∃ m', unallocateFrom (pgsize * a) size i m = .ok m' ∧
      entry m'.pagedir = clearPages (a + i) (a + count) (entry m.pagedir) ∧
      Accounts base R m' ∧ KeepsContents m m' ∧
      ∀ frame, m'.used frame = true → m.used frame = true := by
  induction left : count - i generalizing i m with
  | zero =>
      refine ⟨m, ?_, ?_, accounts, fun frame _ _ => rfl, fun _ h => h⟩
      · rw [unallocateFrom, if_neg, if_neg]
        · unfold pgsize at *
          omega
        · unfold pgsize at *
          omega
      · funext n
        rw [clearPages, if_neg (by omega)]
  | succ left ih =>
      have page := pageAddr_eq (a := a) (i := i) (by omega)
      obtain ⟨m₁, pd, freed, cleared, entries, accounts₁, kept, less⟩ :=
        unallocate_page accounts (inside (a + i) (by omega) (by omega)) (by omega)
      obtain ⟨m', done, entries', accounts', kept', less'⟩ :=
        ih (m := { m₁ with pagedir := pd }) (i := i + 1) accounts₁ (by omega) (by omega)
      refine ⟨m', ?_, ?_, accounts', fun frame before after => ?_, fun frame h => less _ (less' _ h)⟩
      · have got : pagedirGetPage m.pagedir (pgsize * (a + i)) = .ok (frameOf m (a + i)) := by
          rw [pagedirGetPage_spec (pageAddr_lt (by omega)), pgNo_pageAddr]
          rfl
        rw [unallocateFrom, if_neg, if_pos]
        · simp only [page, got, freed, cleared]
          exact done
        · unfold pgsize at *
          omega
        · unfold pgsize at *
          omega
      · rw [entries']
        funext n
        simp only [clearPages, entries]
        by_cases same : n = a + i
        · simp [same]
          omega
        · rw [Function.update_of_ne same]
          have : a + (i + 1) ≤ n ∧ n < a + count ↔ a + i ≤ n ∧ n < a + count := by omega
          simp only [this]
      · rw [kept' frame (less' _ after) after, kept frame before (less' _ after)]

/-- What the result of `allocate` says of the pages from `first` up to `last`. -/
def Allocated (first last : Nat) (m m' : Memory) : Prop :=
  (∀ n, ¬(first ≤ n ∧ n < last) → entry m'.pagedir n = entry m.pagedir n) ∧
    ∀ n, first ≤ n → n < last → ∃ frame, entry m'.pagedir n = some (pteCreateUser frame true) ∧
      m'.frames frame = fun _ => 0

theorem take_page {n frame : Nat} {pd : PageDir} (accounts : Accounts base R m) (hn : R n)
    (unmapped : entry m.pagedir n = none) (free : m.used frame = false)
    (entries : entry pd = Function.update (entry m.pagedir) n (some (pteCreateUser frame true))) :
    Accounts base R
      { pagedir := pd
        used := Function.update m.used frame true
        frames := Function.update m.frames frame fun _ => 0 } := by
  have empty : heldBy R m n = none := by rw [heldBy_of_mem hn, frameOf, unmapped]; rfl
  refine (accounts.take (i := n) (r := frame) (by simp [free]) empty fun other => ?_).congr
    (congrFun (heldBy_eq_update (some (pteCreateUser frame true)) hn entries)) fun _ => Iff.rfl
  by_cases same : other = frame <;> simp [same]

theorem giveBack_page {frame : Nat} (accounts : Accounts base R m) (free : m.used frame = false) :
    ∃ m₁, pallocFreePage
        { m with
          used := Function.update m.used frame true
          frames := Function.update m.frames frame fun _ => 0 } (some frame) = .ok m₁ ∧
      m₁.pagedir = m.pagedir ∧ Accounts base R m₁ ∧ KeepsContents m m₁ ∧ m₁.used = m.used := by
  have same : Function.update (Function.update m.used frame true) frame false = m.used := by
    rw [Function.update_idem, Function.update_eq_self_iff, free]
  refine ⟨_, if_pos (Function.update_self ..), rfl, ?_, fun other used _ => ?_, same⟩
  · exact accounts.congr (fun _ => rfl) fun other => by rw [same]
  · have differ : other ≠ frame := fun equal => by simp [equal, free] at used
    simp only [Function.update_of_ne differ]

/-- `allocate` maps zeroed frames of its own at all pages from `a + i` up to
`a + count`, or reports that it could not and leaves none from `a` on mapped. -/
theorem allocateFrom_spec (grants : Nat → Grant) (accounts : Accounts base R m)
    (inside : ∀ n, a ≤ n → n < a + count → R n) (user : a + count ≤ 0xc0000)
    (fits : (pgsize : Int) * count ≤ intMax) (span : size = (pgsize : Int) * count - pgsize)
    (start : i ≤ count) (unmapped : ∀ n, a + i ≤ n → n < a + count → entry m.pagedir n = none) :
    ∃ failed m', allocateFrom (pgsize * a) size grants i m = .ok (failed, m') ∧
      Accounts base R m' ∧ KeepsContents m m' ∧
      (failed = true → entry m'.pagedir = clearPages a (a + count) (entry m.pagedir)) ∧
      (failed = false → Allocated (a + i) (a + count) m m') := by
  induction left : count - i generalizing i m with
  | zero =>
      refine ⟨false, m, ?_, accounts, fun frame _ _ => rfl, nofun, fun _ =>
        ⟨fun n _ => rfl, fun n lower upper => absurd upper (by omega)⟩⟩
      rw [allocateFrom, if_neg, if_neg]
      · unfold pgsize at *
        omega
      · unfold pgsize at *
        omega
  | succ left ih =>
      have page := pageAddr_eq (a := a) (i := i) (by omega)
      have rollback (m₁ : Memory) (accounts₁ : Accounts base R m₁) :=
        unallocateFrom_spec (i := 0) accounts₁ inside user fits span (by omega)
      have round : ¬ (pgsize : Int) * i > intMax ∧ (pgsize : Int) * i ≤ size := by
        unfold pgsize at *
        omega
      have hn := inside (a + i) (by omega) (by omega)
      have empty := unmapped (a + i) (by omega) (by omega)
      rw [allocateFrom, if_neg round.1, if_pos round.2, page]
      cases granted : pallocGetPage m true (grants i) with
      | none =>
          obtain ⟨m', done, entries, accounts', kept, -⟩ := rollback m accounts
          exact ⟨true, m', by simp only [done], accounts', kept, fun _ => entries, nofun⟩
      | some got =>
          obtain ⟨frame, m₁⟩ := got
          obtain ⟨free, rfl⟩ := pallocGetPage_eq_some granted
          have mapping := pagedirSetPage_spec frame true (grants i) (pgOfs_pageAddr (a + i))
            (pageAddr_lt (by omega)) (by rw [pgNo_pageAddr]; exact empty)
          obtain refused | ⟨pd, mapped, entries⟩ := mapping
          · -- No page table: the frame goes back before the pages do.
            obtain ⟨m₁, freed, pages, accounts₁, contents, same⟩ := giveBack_page accounts free
            obtain ⟨m', done, entries, accounts', kept, -⟩ := rollback m₁ accounts₁
            refine ⟨true, m', ?_, accounts', fun other before after => ?_, fun _ => ?_, nofun⟩
            · simp only [refused, if_true, freed, done]
            · rw [kept other (by rw [same, before]) after, contents other before (by rw [same, before])]
            · rw [entries, pages, Nat.add_zero]
          · rw [pgNo_pageAddr] at entries
            have accounts₁ := take_page accounts hn empty free entries
            have later : ∀ n, a + (i + 1) ≤ n → n < a + count → entry pd n = none := by
              intro n lower upper
              rw [entries, Function.update_of_ne (by omega)]
              exact unmapped n (by omega) upper
            obtain ⟨failed, m', done, accounts', kept, rolled, mappedAll⟩ :=
              ih accounts₁ (by omega) later (by omega)
            refine ⟨failed, m', ?_, accounts', fun other before after => ?_, fun hf => ?_, fun hf => ?_⟩
            · simp only [mapped]
              exact done
            · have differ : other ≠ frame := fun equal => by simp [equal, free] at before
              rw [kept other (by simp [differ, before]) after]
              exact Function.update_of_ne differ ..
            · rw [rolled hf]
              funext n
              simp only [clearPages, entries]
              by_cases same : n = a + i
              · rw [if_pos (by omega), if_pos (by omega)]
              · rw [Function.update_of_ne same]
            · obtain ⟨others, fresh⟩ := mappedAll hf
              have here : entry m'.pagedir (a + i) = some (pteCreateUser frame true) := by
                rw [others (a + i) (by omega), entries, Function.update_self]
              refine ⟨fun n outside => ?_, fun n lower upper => ?_⟩
              · rw [others n (by omega), entries, Function.update_of_ne (by omega)]
              · by_cases same : n = a + i
                · subst same
                  refine ⟨frame, here, ?_⟩
                  have used := accounts'.used_of_frameOf hn (by rw [frameOf, here]; rfl)
                  rw [kept frame (by simp) used]
                  exact Function.update_self ..
                · exact fresh n (by omega) upper

/-- The pools have a free frame of its own for each page of the loop, and for the page tables. -/
structure PagesGranted (used : Nat → Bool) (grants : Nat → Grant) (count : Nat) : Prop where
  free : ∀ k < count, ∃ frame, (grants k).frame = some frame ∧ used frame = false ∧ (grants k).table = true
  apart : ∀ j k, j < k → k < count → (grants j).frame ≠ (grants k).frame

theorem pagedirSetPage_granted {pd : PageDir} {va : Nat} {grant : Grant} (kpage : Nat) (writable : Bool)
    (aligned : pgOfs va = 0) (user : va < physBase) (unmapped : entry pd (pgNo va) = none)
    (table : grant.table = true) : ∃ pd', pagedirSetPage pd va kpage writable grant = .ok (true, pd') ∧
      entry pd' = Function.update (entry pd) (pgNo va) (some (pteCreateUser kpage writable)) := by
  obtain refused | set := pagedirSetPage_spec kpage writable grant aligned user unmapped
  · have made : (lookupPageCreate pd va grant).isSome := by
      rw [lookupPageCreate]
      split
      · rfl
      · rw [if_pos table]
        rfl
    obtain ⟨pd', made⟩ := Option.isSome_iff_exists.mp made
    simp only [pagedirSetPage, aligned, user, ne_eq, not_true_eq_false, if_false, made] at refused
    split at refused <;> cases refused
  · exact set

/-- `allocate` succeeds if the pools grant all it asks for. -/
theorem allocateFrom_granted {grants : Nat → Grant} (user : a + count ≤ 0xc0000)
    (fits : (pgsize : Int) * count ≤ intMax) (span : size = (pgsize : Int) * count - pgsize) (start : i ≤ count)
    (unmapped : ∀ n, a + i ≤ n → n < a + count → entry m.pagedir n = none)
    (free : ∀ k, i ≤ k → k < count →
      ∃ frame, (grants k).frame = some frame ∧ m.used frame = false ∧ (grants k).table = true)
    (apart : ∀ j k, j < k → k < count → (grants j).frame ≠ (grants k).frame) :
    ∃ m', allocateFrom (pgsize * a) size grants i m = .ok (false, m') := by
  induction left : count - i generalizing i m with
  | zero =>
      refine ⟨m, ?_⟩
      rw [allocateFrom, if_neg, if_neg]
      · unfold pgsize at *
        omega
      · unfold pgsize at *
        omega
  | succ left ih =>
      have page := pageAddr_eq (a := a) (i := i) (by omega)
      have round : ¬ (pgsize : Int) * i > intMax ∧ (pgsize : Int) * i ≤ size := by
        unfold pgsize at *
        omega
      obtain ⟨frame, answer, unused, table⟩ := free i (Nat.le_refl i) (by omega)
      have got : pallocGetPage m true (grants i) = some (frame,
          { m with
            used := Function.update m.used frame true
            frames := Function.update m.frames frame fun _ => 0 }) := by
        simp only [pallocGetPage, answer, unused, if_true]
        rfl
      obtain ⟨pd, mapped, entries⟩ := pagedirSetPage_granted frame true (pgOfs_pageAddr (a + i))
        (pageAddr_lt (by omega)) (by rw [pgNo_pageAddr]; exact unmapped _ (by omega) (by omega)) table
      rw [pgNo_pageAddr] at entries
      have later (n : Nat) (lower : a + (i + 1) ≤ n) (upper : n < a + count) : entry pd n = none := by
        rw [entries, Function.update_of_ne (by omega)]
        exact unmapped n (by omega) upper
      have others (k : Nat) (lower : i + 1 ≤ k) (upper : k < count) : ∃ other, (grants k).frame = some other ∧
          Function.update m.used frame true other = false ∧ (grants k).table = true := by
        obtain ⟨other, answer', unused', table'⟩ := free k (by omega) upper
        have differ : other ≠ frame := fun same => apart i k lower upper (answer.trans (same ▸ answer'.symm))
        exact ⟨other, answer', (Function.update_of_ne differ ..).trans unused', table'⟩
      let m₁ : Memory :=
        { m with
          pagedir := pd
          used := Function.update m.used frame true
          frames := Function.update m.frames frame fun _ => 0 }
      obtain ⟨m', done⟩ := ih (m := m₁) (by omega) later others (by omega)
      refine ⟨m', ?_⟩
      rw [allocateFrom, if_neg round.1, if_pos round.2, page]
      simp only [got, mapped]
      exact done

end Loops
end CS162.Pintos
