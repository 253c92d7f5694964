import CS162.Library.Ownership
import CS162.Library.Transition
import CS162.Library.MachineInt
import CS162.Pintos.Paging

/-!
Page directories as the processor sees them (proj-pregame: userprog/pagedir.c,
threads/pte.h): pages of physical memory that hold 1024 words each, a word being the
address bits of a page with flags below them. Pages go by their physical numbers, so a
pointer to one is not null, and `palloc` answers a request with a page of RAM that is not
in use, or with none. A failing `ASSERT` is `none`. Flushing the TLB leaves no trace.
-/

namespace CS162.Pintos.PageWords
open CS162.Pintos

abbrev Word := BitVec 32

def pteP : Word := 0x1
def pteW : Word := 0x2
def pteU : Word := 0x4
def pteA : Word := 0x20
def pteD : Word := 0x40
def pteAddr : Word := 0xfffff000

/-- A flag of a word. -/
def isSet (w flag : Word) : Bool := w &&& flag != 0

/-- `pde_get_pt` and `pte_get_page`, as the number of the page. -/
def pageOf (w : Word) : Nat := (w &&& pteAddr).toNat / pgsize

/-- `pde_create`, for the table in a page. -/
def pdeCreate (pt : Nat) : Word := BitVec.ofNat 32 (pgsize * pt) ||| pteU ||| pteP ||| pteW

def pteCreateKernel (page : Nat) (writable : Bool) : Word :=
  BitVec.ofNat 32 (pgsize * page) ||| pteP ||| if writable then pteW else 0

def pteCreateUser (page : Nat) (writable : Bool) : Word := pteCreateKernel page writable ||| pteU

/-- The address at which the kernel has a physical page. -/
def ptov (page : Nat) : Nat := physBase + pgsize * page

/-- Physical memory: `init_ram_pages` pages, which the kernel maps at the end of the address space.
`freed` are the pages that were given back, in order. -/
structure Ram where
  pages : Nat
  fits : pages ≤ 2 ^ 18
  initPageDir : Nat
  words : Nat → Nat → Word
  used : Nat → Bool
  freed : List Nat

namespace Ram
variable (r : Ram)

def setWord (page i : Nat) (w : Word) : Ram :=
  { r with words := Function.update r.words page (Function.update (r.words page) i w) }

/-- `palloc_get_page`, with what is in the page then. -/
def pallocGetPage (grant : Option Nat) (contents : Nat → Word) : Option (Nat × Ram) :=
  match grant with
  | none => none
  | some page =>
      if page < r.pages ∧ r.used page = false then
        some (page, { r with
          words := Function.update r.words page contents
          used := Function.update r.used page true })
      else none

def pallocFreePage (page : Nat) : Option Ram :=
  if r.used page then
    some { r with
      words := Function.update r.words page fun _ => 0xcccccccc
      used := Function.update r.used page false
      freed := r.freed ++ [page] }
  else none

/-- `pagedir_create`: a copy of `init_page_dir`. -/
def pagedirCreate (grant : Option Nat) : Option (Nat × Ram) :=
  r.pallocGetPage grant (r.words r.initPageDir)

/-- `lookup_page` without `create`: the table and the entry in it. -/
def lookupPage (pd va : Nat) : Option (Option (Nat × Nat)) :=
  let pde := r.words pd (pdNo va)
  if pde = 0 then some none
  else if isSet pde pteP then some (some (pageOf pde, ptNo va)) else none

/-- `lookup_page` with `create`. -/
def lookupPageCreate (pd va : Nat) (grant : Option Nat) : Option (Option (Nat × Nat) × Ram) :=
  if ¬ va < physBase then none
  else if r.words pd (pdNo va) = 0 then
    match r.pallocGetPage grant fun _ => 0 with
    | none => some (none, r)
    | some (pt, r) => some (some (pt, ptNo va), r.setWord pd (pdNo va) (pdeCreate pt))
  else (r.lookupPage pd va).map fun entry => (entry, r)

def pagedirSetPage (pd upage kpage : Nat) (writable : Bool) (grant : Option Nat) :
    Option (Bool × Ram) :=
  if pgOfs upage ≠ 0 ∨ pgOfs kpage ≠ 0 ∨ ¬ upage < physBase ∨ kpage < physBase ∨
      ¬ (kpage - physBase) / pgsize < r.pages ∨ pd = r.initPageDir then none
  else
    match r.lookupPageCreate pd upage grant with
    | none => none
    | some (none, r) => some (false, r)
    | some (some (pt, i), r) =>
        if isSet (r.words pt i) pteP then none
        else some (true, r.setWord pt i (pteCreateUser ((kpage - physBase) / pgsize) writable))

/-- `pagedir_get_page`: the kernel's address of the byte, if there is one. -/
def pagedirGetPage (pd uaddr : Nat) : Option (Option Nat) :=
  if ¬ uaddr < physBase then none
  else (r.lookupPage pd uaddr).map fun entry =>
    entry.bind fun e =>
      if isSet (r.words e.1 e.2) pteP then some (ptov (pageOf (r.words e.1 e.2)) + pgOfs uaddr)
      else none

def pagedirClearPage (pd upage : Nat) : Option Ram :=
  if pgOfs upage ≠ 0 ∨ ¬ upage < physBase then none
  else (r.lookupPage pd upage).map fun entry =>
    match entry with
    | none => r
    | some (pt, i) =>
        if isSet (r.words pt i) pteP then r.setWord pt i (r.words pt i &&& ~~~ pteP) else r

/-- `pagedir_is_dirty` and `pagedir_is_accessed`. -/
def pagedirIs (flag : Word) (pd vpage : Nat) : Option Bool :=
  (r.lookupPage pd vpage).map fun entry => entry.any fun e => isSet (r.words e.1 e.2) flag

/-- `pagedir_set_dirty` and `pagedir_set_accessed`. -/
def pagedirSet (flag : Word) (pd vpage : Nat) (value : Bool) : Option Ram :=
  (r.lookupPage pd vpage).map fun entry =>
    match entry with
    | none => r
    | some (pt, i) =>
        r.setWord pt i (if value then r.words pt i ||| flag else r.words pt i &&& ~~~ flag)

def pagedirIsDirty : Nat → Nat → Option Bool := r.pagedirIs pteD

def pagedirSetDirty : Nat → Nat → Bool → Option Ram := r.pagedirSet pteD

def pagedirIsAccessed : Nat → Nat → Option Bool := r.pagedirIs pteA

def pagedirSetAccessed : Nat → Nat → Bool → Option Ram := r.pagedirSet pteA

end Ram

/-- `pagedir_destroy`: the loop over a table's entries from entry `j` on. -/
def freeFrames (pt : Nat) : (left j : Nat) → Ram → Option Ram
  | 0, _, r => some r
  | left + 1, j, r =>
      if isSet (r.words pt j) pteP then
        (r.pallocFreePage (pageOf (r.words pt j))).bind (freeFrames pt left (j + 1))
      else freeFrames pt left (j + 1) r

/-- `pagedir_destroy`: the loop over the directory's entries from entry `i` on. -/
def freeTables (pd : Nat) : (left i : Nat) → Ram → Option Ram
  | 0, _, r => some r
  | left + 1, i, r =>
      if isSet (r.words pd i) pteP then do
        let pt := pageOf (r.words pd i)
        let r ← freeFrames pt 1024 0 r
        let r ← r.pallocFreePage pt
        freeTables pd left (i + 1) r
      else freeTables pd left (i + 1) r

def pagedirDestroy (r : Ram) : Option Nat → Option Ram
  | none => some r
  | some pd =>
      if pd = r.initPageDir then none
      else (freeTables pd (pdNo physBase) 0 r).bind fun r => r.pallocFreePage pd

/-- What the processor makes of an entry. -/
def toPte (w : Word) : Pte :=
  ⟨isSet w pteP, isSet w pteW, isSet w pteU, isSet w pteA, isSet w pteD, pageOf w⟩

section Words
variable {w v : Word} {k page : Nat} {writable : Bool}

theorem isSet_twoPow (w : Word) (inside : k < 32) : isSet w (BitVec.twoPow 32 k) = w.getLsbD k :=
  Library.and_twoPow_ne_zero w inside

theorem isSet_pteP (w : Word) : isSet w pteP = w.getLsbD 0 := by
  rw [show pteP = BitVec.twoPow 32 0 by decide, isSet_twoPow w (by decide)]

theorem pageOf_eq (w : Word) : pageOf w = (w >>> 12).toNat := by
  have mask : ∀ i < 32, pteAddr.getLsbD i = decide (12 ≤ i) := by decide
  have shift : (w &&& pteAddr) >>> 12 = w >>> 12 := by
    apply BitVec.eq_of_getLsbD_eq
    intro i _
    rw [BitVec.getLsbD_ushiftRight, BitVec.getLsbD_ushiftRight, BitVec.getLsbD_and]
    by_cases inside : 12 + i < 32
    · rw [mask _ inside, decide_eq_true (Nat.le_add_right 12 i), Bool.and_true]
    · rw [BitVec.getLsbD_of_ge w _ (by omega), Bool.false_and]
  rw [pageOf, ← shift, BitVec.toNat_ushiftRight, Nat.shiftRight_eq_div_pow]
  rfl

theorem pageOf_or (low : v >>> 12 = 0#32) : pageOf (w ||| v) = pageOf w := by
  rw [pageOf_eq, pageOf_eq, BitVec.ushiftRight_or_distrib, low, BitVec.or_zero]

theorem pageOf_and (high : v >>> 12 = 0xfffff#32) : pageOf (w &&& v) = pageOf w := by
  have mask : ∀ i < 32, (0xfffff#32).getLsbD i = decide (i < 20) := by decide
  rw [pageOf_eq, pageOf_eq, BitVec.ushiftRight_and_distrib, high]
  congr 1
  apply BitVec.eq_of_getLsbD_eq
  intro i inside
  rw [BitVec.getLsbD_and, mask i inside, BitVec.getLsbD_ushiftRight]
  by_cases small : i < 20
  · rw [decide_eq_true small, Bool.and_true]
  · rw [BitVec.getLsbD_of_ge w _ (by omega), Bool.false_and]

theorem pageOf_ofNat (fits : page < 2 ^ 20) : pageOf (BitVec.ofNat 32 (pgsize * page)) = page := by
  rw [pageOf_eq, BitVec.toNat_ushiftRight, Nat.shiftRight_eq_div_pow, BitVec.toNat_ofNat, pgsize]
  omega

theorem getLsbD_ofNat_page (page : Nat) (small : k < 12) :
    (BitVec.ofNat 32 (pgsize * page)).getLsbD k = false := by
  have high : ¬ 12 ≤ k := by omega
  rw [BitVec.getLsbD_ofNat, show pgsize = 2 ^ 12 from rfl, Nat.testBit_two_pow_mul,
    decide_eq_false high, Bool.false_and, Bool.and_false]

theorem toPte_eq (w : Word) : toPte w =
    ⟨w.getLsbD 0, w.getLsbD 1, w.getLsbD 2, w.getLsbD 5, w.getLsbD 6, pageOf w⟩ := by
  rw [toPte, isSet_pteP, show pteW = BitVec.twoPow 32 1 by decide, isSet_twoPow w (by decide),
    show pteU = BitVec.twoPow 32 2 by decide, isSet_twoPow w (by decide),
    show pteA = BitVec.twoPow 32 5 by decide, isSet_twoPow w (by decide),
    show pteD = BitVec.twoPow 32 6 by decide, isSet_twoPow w (by decide)]

theorem toPte_zero : toPte 0 = Pte.zero := by decide

theorem toPte_pteCreateUser (fits : page < 2 ^ 20) :
    toPte (pteCreateUser page writable) = Pintos.pteCreateUser page writable := by
  have at_page : pageOf (pteCreateUser page writable) = page := by
    rw [pteCreateUser, pteCreateKernel, pageOf_or (by decide), pageOf_or (by cases writable <;> decide),
      pageOf_or (by decide), pageOf_ofNat fits]
  rw [toPte_eq, at_page, Pintos.pteCreateUser]
  simp only [pteCreateUser, pteCreateKernel, BitVec.getLsbD_or, getLsbD_ofNat_page page, Nat.reduceLT]
  cases writable <;> rfl

theorem toPte_pdeCreate (fits : page < 2 ^ 20) : isSet (pdeCreate page) pteP = true ∧
    pageOf (pdeCreate page) = page ∧ pdeCreate page ≠ 0 := by
  have set : isSet (pdeCreate page) pteP = true := by
    rw [isSet_pteP, pdeCreate, BitVec.getLsbD_or, BitVec.getLsbD_or, show pteP.getLsbD 0 = true by decide,
      Bool.or_true, Bool.true_or]
  refine ⟨set, ?_, fun none => ?_⟩
  · rw [pdeCreate, pageOf_or (by decide), pageOf_or (by decide), pageOf_or (by decide), pageOf_ofNat fits]
  · rw [none] at set
    exact absurd set (by decide)

/-- User programs may use and write what is in a table, as far as its entries allow. -/
theorem toPte_pdeCreate_eq (fits : page < 2 ^ 20) :
    toPte (pdeCreate page) = ⟨true, true, true, false, false, page⟩ := by
  rw [toPte_eq, (toPte_pdeCreate fits).2.1]
  simp only [pdeCreate, BitVec.getLsbD_or, getLsbD_ofNat_page page, Nat.reduceLT]
  rfl

/-- The flags that the processor sets. -/
def IsStatus (flag : Word) : Prop := flag = pteD ∨ flag = pteA

/-- What one of them is for. -/
def setStatus (flag : Word) (pte : Pte) (value : Bool) : Pte :=
  if flag = pteD then { pte with dirty := value } else { pte with accessed := value }

theorem toPte_or (low : v >>> 12 = 0#32) : toPte (w ||| v) =
    ⟨w.getLsbD 0 || v.getLsbD 0, w.getLsbD 1 || v.getLsbD 1, w.getLsbD 2 || v.getLsbD 2,
      w.getLsbD 5 || v.getLsbD 5, w.getLsbD 6 || v.getLsbD 6, pageOf w⟩ := by
  rw [toPte_eq, pageOf_or low]
  simp only [BitVec.getLsbD_or]

theorem toPte_and (high : v >>> 12 = 0xfffff#32) : toPte (w &&& v) =
    ⟨w.getLsbD 0 && v.getLsbD 0, w.getLsbD 1 && v.getLsbD 1, w.getLsbD 2 && v.getLsbD 2,
      w.getLsbD 5 && v.getLsbD 5, w.getLsbD 6 && v.getLsbD 6, pageOf w⟩ := by
  rw [toPte_eq, pageOf_and high]
  simp only [BitVec.getLsbD_and]

theorem toPte_clear (w : Word) : toPte (w &&& ~~~ pteP) = { toPte w with present := false } := by
  rw [toPte_and (by decide), toPte_eq, show (~~~ pteP).getLsbD 0 = false by decide,
    show (~~~ pteP).getLsbD 1 = true by decide, show (~~~ pteP).getLsbD 2 = true by decide,
    show (~~~ pteP).getLsbD 5 = true by decide, show (~~~ pteP).getLsbD 6 = true by decide]
  simp only [Bool.and_true, Bool.and_false]

theorem toPte_status {flag : Word} (status : IsStatus flag) (w : Word) (value : Bool) :
    toPte (if value then w ||| flag else w &&& ~~~ flag) = setStatus flag (toPte w) value := by
  cases status with
  | inl dirty =>
      subst dirty
      rw [setStatus, if_pos rfl]
      cases value with
      | true =>
          rw [if_pos rfl, toPte_or (by decide), toPte_eq, show pteD.getLsbD 0 = false by decide,
            show pteD.getLsbD 1 = false by decide, show pteD.getLsbD 2 = false by decide,
            show pteD.getLsbD 5 = false by decide, show pteD.getLsbD 6 = true by decide]
          simp only [Bool.or_false, Bool.or_true]
      | false =>
          rw [if_neg Bool.false_ne_true, toPte_and (by decide), toPte_eq,
            show (~~~ pteD).getLsbD 0 = true by decide, show (~~~ pteD).getLsbD 1 = true by decide,
            show (~~~ pteD).getLsbD 2 = true by decide, show (~~~ pteD).getLsbD 5 = true by decide,
            show (~~~ pteD).getLsbD 6 = false by decide]
          simp only [Bool.and_true, Bool.and_false]
  | inr accessed =>
      subst accessed
      have other : pteA ≠ pteD := by decide
      rw [setStatus, if_neg other]
      cases value with
      | true =>
          rw [if_pos rfl, toPte_or (by decide), toPte_eq, show pteA.getLsbD 0 = false by decide,
            show pteA.getLsbD 1 = false by decide, show pteA.getLsbD 2 = false by decide,
            show pteA.getLsbD 5 = true by decide, show pteA.getLsbD 6 = false by decide]
          simp only [Bool.or_false, Bool.or_true]
      | false =>
          rw [if_neg Bool.false_ne_true, toPte_and (by decide), toPte_eq,
            show (~~~ pteA).getLsbD 0 = true by decide, show (~~~ pteA).getLsbD 1 = true by decide,
            show (~~~ pteA).getLsbD 2 = true by decide, show (~~~ pteA).getLsbD 5 = false by decide,
            show (~~~ pteA).getLsbD 6 = true by decide]
          simp only [Bool.and_true, Bool.and_false]

end Words
end CS162.Pintos.PageWords
