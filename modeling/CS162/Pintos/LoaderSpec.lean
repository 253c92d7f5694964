import CS162.Library.MachineInt
import CS162.Pintos.Loader
import CS162.Pintos.Sbrk

/-!
What the loader leaves in the page directory: the pages of each loadable segment
with the bytes of the file, no two segments on one page, and the stack page.
-/

namespace CS162.Pintos
open CS162.Library

def Phdr.firstPage (s : Phdr) : Nat := pgNo s.vaddr

/-- The number of pages of a segment. -/
def Phdr.pages (s : Phdr) : Nat := pagesTo (pgOfs s.vaddr + s.memsz)

def Phdr.Covers (s : Phdr) (n : Nat) : Prop := s.firstPage ≤ n ∧ n < s.firstPage + s.pages

/-- What `validate_segment` says of a segment's addresses. -/
structure Phdr.Valid (s : Phdr) : Prop where
  same : s.offset % pgsize = s.vaddr % pgsize
  file : s.filesz ≤ s.memsz
  above : pgsize ≤ s.vaddr
  nonempty : 0 < s.memsz
  below : s.vaddr + s.memsz < physBase

/-- The program headers that the loop of `load` reads. -/
def headersFrom (file : ExecFile) : Nat → Nat → List Phdr
  | 0, _ => []
  | left + 1, ofs => readPhdr (file.read ofs Phdr.size) :: headersFrom file left (ofs + Phdr.size)

def loadable (phdrs : List Phdr) : List Phdr := phdrs.filter fun s => s.type = ptLoad

/-- The loadable segments of an executable. -/
def ExecFile.segments (file : ExecFile) : List Phdr :=
  let ehdr := readEhdr (file.read 0 Ehdr.size)
  loadable (headersFrom file ehdr.phnum ehdr.phoff)

/-- Pages from page `a` on were unmapped and hold bytes of the file now. -/
structure PagesLoaded (file : ExecFile) (writable : Bool) (a pages pos readBytes : Nat)
    (m m' : Memory) : Prop where
  before : ∀ n, a ≤ n → n < a + pages → entry m.pagedir n = none
  others : ∀ n, ¬(a ≤ n ∧ n < a + pages) → entry m'.pagedir n = entry m.pagedir n
  loaded : ∀ j, j < pages → ∃ frame, entry m'.pagedir (a + j) = some (pteCreateUser frame writable) ∧
    m.used frame = false ∧ m'.used frame = true ∧ ∀ offset, offset < pgsize →
      m'.frames frame offset =
        if pgsize * j + offset < readBytes then file.bytes.getD (pos + (pgsize * j + offset)) 0 else 0
  enough : readBytes ≤ pgsize * pages → readBytes = 0 ∨ pos + readBytes ≤ file.bytes.length
  kept : ∀ frame, m.used frame = true → m'.used frame = true ∧ m'.frames frame = m.frames frame

theorem fileRead_of_length {file : ExecFile} {pos size : Nat} {stop : Option Nat}
    (whole : (fileRead file pos size stop).length = size) :
    fileRead file pos size stop = file.read pos size := by
  cases stop with
  | none => rfl
  | some count =>
      have most : (file.read pos size).length ≤ size := List.length_take_le ..
      simp only [fileRead, List.length_take] at *
      exact List.take_of_length_le (by omega)

theorem read_getD {file : ExecFile} {pos size offset : Nat} :
    (file.read pos size).getD offset 0 =
      if offset < size then file.bytes.getD (pos + offset) 0 else 0 := by
  simp only [ExecFile.read, List.getD_eq_getElem?_getD, List.getElem?_take, List.getElem?_drop]
  split <;> rfl

theorem pagesLoaded_succ {file : ExecFile} {writable : Bool} {a pages pos readBytes part frame : Nat}
    {m m' : Memory} {pd : PageDir} (free : m.used frame = false)
    (whole : (file.read pos part).length = part)
    (size : (if readBytes < pgsize then readBytes else pgsize) = part)
    (before : entry m.pagedir a = none)
    (entries : entry pd = Function.update (entry m.pagedir) a (some (pteCreateUser frame writable)))
    (rest : PagesLoaded file writable (a + 1) pages (pos + part) (readBytes - part)
      { pagedir := pd
        used := Function.update m.used frame true
        frames := Function.update m.frames frame fun offset => (file.read pos part).getD offset 0 }
      m') :
    PagesLoaded file writable a (pages + 1) pos readBytes m m' := by
  have differ {other : Nat} (used : m.used other = true) : other ≠ frame := by
    rintro rfl
    rw [free] at used
    cases used
  have inside : part = 0 ∨ pos + part ≤ file.bytes.length := by
    rw [ExecFile.read, List.length_take, List.length_drop] at whole
    omega
  have bounds : (readBytes < pgsize ∧ part = readBytes) ∨ (pgsize ≤ readBytes ∧ part = pgsize) := by
    split at size
    · exact .inl ⟨‹_›, size.symm⟩
    · exact .inr ⟨by omega, size.symm⟩
  clear size
  refine ⟨fun n lower upper => ?_, fun n outside => ?_, fun j hj => ?_, fun fits => ?_,
    fun other used => ?_⟩
  · by_cases same : n = a
    · rw [same]
      exact before
    · have later := rest.before n (by omega) (by omega)
      simpa only [entries, Function.update_of_ne same] using later
  · rw [rest.others n (by omega)]
    simp only [entries]
    exact Function.update_of_ne (by omega) ..
  · cases j with
    | zero =>
        have here := rest.others a (by omega)
        simp only [entries, Function.update_self] at here
        obtain ⟨used, same⟩ := rest.kept frame (Function.update_self ..)
        refine ⟨frame, here, free, used, fun offset bound => ?_⟩
        simp only [same, Function.update_self, read_getD, Nat.mul_zero, Nat.zero_add]
        have : offset < part ↔ offset < readBytes := by omega
        simp only [this]
    | succ j =>
        obtain ⟨other, mapped, unused, used, contents⟩ := rest.loaded j (by omega)
        have apart : other ≠ frame := by
          rintro rfl
          simp at unused
        simp only [Function.update_of_ne apart] at unused
        refine ⟨other, by rw [← mapped]; congr 1; omega, unused, used, fun offset bound => ?_⟩
        rw [contents offset bound]
        by_cases more : readBytes < pgsize
        · rw [if_neg (by omega), if_neg (by rw [Nat.mul_succ]; omega)]
        · have full : part = pgsize := by omega
          have more : pgsize * j + offset < readBytes - part ↔
              pgsize * (j + 1) + offset < readBytes := by
            rw [Nat.mul_succ]
            omega
          have place : pos + part + (pgsize * j + offset) =
              pos + (pgsize * (j + 1) + offset) := by
            rw [Nat.mul_succ]
            omega
          simp only [more, place]
  · rw [Nat.mul_succ] at fits
    have later := rest.enough (by omega)
    omega
  · have := differ used
    obtain ⟨still, same⟩ := rest.kept other (by simp [this, used])
    exact ⟨still, by rw [same]; exact Function.update_of_ne this ..⟩

theorem field_lt (header : List UInt8) (offset width : Nat) :
    field header offset width < 256 ^ width := by
  refine (ofBytes_lt _).trans_le (Nat.pow_le_pow_right (by decide) ?_)
  rw [List.length_take]
  exact Nat.min_le_left ..

section Segment
variable {file : ExecFile} {phdr : Phdr} {m m' : Memory} {s s' : AddressSpace} {kpage n : Nat}
variable {writable : Bool} {grant : PageGrant}

theorem valid_of_validateSegment (h : validateSegment phdr file = true)
    (narrow : phdr.memsz < 2 ^ 32) : phdr.Valid := by
  unfold validateSegment at h
  repeat' split at h
  all_goals cases h
  refine ⟨by omega, by omega, by omega, by omega, ?_⟩
  unfold physBase at *
  omega

theorem withTable_mem (pd : PageDir) (upage : Nat) (page : Option Nat) :
    (s.withTable pd upage page).mem = { s.mem with pagedir := pd } := by
  unfold AddressSpace.withTable
  split
  · rfl
  · simp only
    split <;> rfl

theorem installPage_of_ok (user : n < 0xc0000)
    (h : installPage s (pgsize * n) kpage writable grant = .ok (true, s')) :
    entry s.mem.pagedir n = none ∧ ∃ pd, s'.mem = { s.mem with pagedir := pd } ∧
      entry pd = Function.update (entry s.mem.pagedir) n (some (pteCreateUser kpage writable)) := by
  unfold installPage at h
  rw [pagedirGetPage_spec (pageAddr_lt user), pgNo_pageAddr] at h
  cases before : entry s.mem.pagedir n with
  | some pte =>
      rw [before] at h
      cases h
  | none =>
      rw [before] at h
      have mapping := pagedirSetPage_spec kpage writable
        ⟨none, (kernelPage s.kernel grant.table).isSome⟩ (pgOfs_pageAddr n) (pageAddr_lt user)
        (by rw [pgNo_pageAddr]; exact before)
      simp only [Option.map_none, AddressSpace.setPage] at h
      obtain refused | ⟨pd, mapped, entries⟩ := mapping
      · rw [refused] at h
        cases h
      · rw [mapped] at h
        cases h
        rw [pgNo_pageAddr] at entries
        exact ⟨rfl, pd, withTable_mem .., entries⟩

theorem failAfterFree_ne : failAfterFree s kpage ≠ .ok (true, s') := by
  unfold failAfterFree
  split <;> simp

theorem loadPages_of_ok {grants : Nat → PageGrant} {pages pos a readBytes i : Nat}
    (user : a + pages ≤ 0xc0000)
    (h : loadPages file writable grants pages pos (pgsize * a) readBytes i s = .ok (true, s')) :
    PagesLoaded file writable a pages pos readBytes s.mem s'.mem := by
  induction pages generalizing pos a readBytes i s with
  | zero =>
      cases h
      refine ⟨fun n lower upper => absurd upper (by omega), fun _ _ => rfl,
        fun j hj => absurd hj (Nat.not_lt_zero j), fun none_left => .inl (by omega),
        fun _ used => ⟨used, rfl⟩⟩
  | succ pages ih =>
      rw [loadPages] at h
      split at h
      · cases h
      · next kpage m₁ granted =>
          obtain ⟨free, rfl⟩ := pallocGetPage_eq_some granted
          simp only [Bool.false_eq_true, if_false] at h
          generalize size : (if readBytes < pgsize then readBytes else pgsize) = part at h
          split at h
          · exact absurd h failAfterFree_ne
          · next whole =>
              rw [fileRead_of_length (not_not.mp whole)] at h whole
              split at h
              · cases h
              · exact absurd h failAfterFree_ne
              · next s₂ installed =>
                  have next_page : (pgsize * a + pgsize) % 2 ^ 32 = pgsize * (a + 1) := by
                    unfold pgsize
                    omega
                  rw [next_page] at h
                  obtain ⟨before, pd, mem₂, entries⟩ := installPage_of_ok (by omega) installed
                  have rest := ih (by omega) h
                  rw [mem₂] at rest
                  exact pagesLoaded_succ free (not_not.mp whole) size before entries rest

/-- The file offset of a segment's first page, and the bytes read from there on. -/
def Phdr.filePage (s : Phdr) : Nat := s.offset - s.offset % pgsize

def Phdr.readBytes (s : Phdr) : Nat := if s.filesz > 0 then pgOfs s.vaddr + s.filesz else 0

theorem Phdr.Valid.pages_lt (valid : phdr.Valid) : phdr.firstPage + phdr.pages ≤ 0xc0000 := by
  have below := valid.below
  simp only [Phdr.firstPage, Phdr.pages, pagesTo, pgOfs, pgNo, pgsize, physBase] at *
  omega

theorem Phdr.memPage_eq (phdr : Phdr) : phdr.vaddr - phdr.vaddr % pgsize = pgsize * phdr.firstPage := by
  simp only [Phdr.firstPage, pgNo, pgsize]
  omega

theorem Phdr.roundUp_eq (phdr : Phdr) :
    roundUp (phdr.vaddr % pgsize + phdr.memsz) pgsize = pgsize * phdr.pages := by
  rw [roundUp, Phdr.pages, pagesTo, pgOfs, Nat.mul_comm]

theorem Phdr.Valid.readBytes_le (valid : phdr.Valid) : phdr.readBytes ≤ pgsize * phdr.pages := by
  have file_le := valid.file
  simp only [Phdr.readBytes, Phdr.pages, pagesTo, pgOfs, pgsize]
  split <;> omega

theorem Phdr.filePage_aligned (phdr : Phdr) : phdr.filePage % pgsize = 0 ∧ phdr.filePage ≤ phdr.offset := by
  simp only [Phdr.filePage, pgsize]
  omega

/-- What `load` passes on, in pages. -/
theorem loadPhdr_eq (file : ExecFile) (phdr : Phdr) (grants : Nat → PageGrant) (s : AddressSpace) :
    loadPhdr file phdr grants s = loadSegment s file phdr.filePage (pgsize * phdr.firstPage)
      phdr.readBytes (pgsize * phdr.pages - phdr.readBytes) phdr.writable grants := by
  rw [loadPhdr, phdr.memPage_eq, phdr.roundUp_eq]
  simp only [Phdr.readBytes, Phdr.filePage, pgOfs]
  split
  · rfl
  · rfl

theorem loadPhdr_of_ok {grants : Nat → PageGrant} (valid : phdr.Valid)
    (h : loadPhdr file phdr grants s = .ok (true, s')) :
    PagesLoaded file phdr.writable phdr.firstPage phdr.pages phdr.filePage phdr.readBytes
      s.mem s'.mem := by
  rw [loadPhdr_eq, loadSegment, Nat.add_sub_cancel' valid.readBytes_le, if_neg (by simp),
    if_neg (by simp [pgOfs_pageAddr])] at h
  split at h
  · cases h
  · split at h
    · cases h
    · rw [Nat.mul_div_cancel_left _ (by decide : 0 < pgsize)] at h
      exact loadPages_of_ok valid.pages_lt h

end Segment

section Program
variable {file : ExecFile} {segs : List Phdr} {phdr : Phdr} {m m' : Memory}

/-- A segment's pages, with the bytes that `load_segment` puts there. -/
structure ImageAt (file : ExecFile) (s : Phdr) (m : Memory) : Prop where
  pages : ∀ j, j < s.pages → ∃ frame,
    entry m.pagedir (s.firstPage + j) = some (pteCreateUser frame s.writable) ∧
    m.used frame = true ∧ ∀ offset, offset < pgsize →
      m.frames frame offset = if pgsize * j + offset < s.readBytes then
        file.bytes.getD (s.filePage + (pgsize * j + offset)) 0 else 0
  enough : s.readBytes = 0 ∨ s.filePage + s.readBytes ≤ file.bytes.length

/-- The segments are in memory, each on pages of its own, and nothing else is. -/
structure Placed (file : ExecFile) (segs : List Phdr) (m : Memory) : Prop where
  valid : ∀ s ∈ segs, s.Valid
  images : ∀ s ∈ segs, ImageAt file s m
  apart : segs.Pairwise fun s s' => ∀ n, s.Covers n → ¬ s'.Covers n
  only : ∀ n, (entry m.pagedir n).isSome → ∃ s ∈ segs, s.Covers n

theorem ImageAt.mapped {s : Phdr} (h : ImageAt file s m) {n : Nat} (covers : s.Covers n) :
    ∃ frame, entry m.pagedir n = some (pteCreateUser frame s.writable) := by
  obtain ⟨frame, mapped, -⟩ := h.pages (n - s.firstPage) (by have := covers.1; have := covers.2; omega)
  rw [Nat.add_sub_cancel' covers.1] at mapped
  exact ⟨frame, mapped⟩

theorem Placed.nil {used : Nat → Bool} {frames : Nat → Nat → UInt8} :
    Placed file [] ⟨fun _ => none, used, frames⟩ :=
  ⟨by simp, by simp, .nil, fun n h => by simp [entry, pageAt] at h⟩

/-- Memory that keeps the entries of a segment's pages and what its frames hold. -/
theorem ImageAt.keep {s : Phdr} (h : ImageAt file s m)
    (entries : ∀ n, s.Covers n → entry m'.pagedir n = entry m.pagedir n)
    (kept : ∀ frame, m.used frame = true → m'.used frame = true ∧ m'.frames frame = m.frames frame) :
    ImageAt file s m' where
  enough := h.enough
  pages j hj := by
    obtain ⟨frame, mapped, used, contents⟩ := h.pages j hj
    obtain ⟨used', same⟩ := kept frame used
    refine ⟨frame, ?_, used', by rw [same]; exact contents⟩
    rw [entries _ ⟨Nat.le_add_right .., Nat.add_lt_add_left hj _⟩, mapped]

theorem Placed.add (h : Placed file segs m) (valid : phdr.Valid)
    (loaded : PagesLoaded file phdr.writable phdr.firstPage phdr.pages phdr.filePage phdr.readBytes
      m m') : Placed file (segs ++ [phdr]) m' := by
  have apart (s : Phdr) (hs : s ∈ segs) (n : Nat) (covers : s.Covers n) : ¬ phdr.Covers n := by
    intro covers'
    obtain ⟨frame, mapped⟩ := (h.images s hs).mapped covers
    rw [loaded.before n covers'.1 covers'.2] at mapped
    cases mapped
  refine ⟨?_, ?_, ?_, fun n some => ?_⟩
  · simp only [List.mem_append, List.mem_singleton]
    rintro s (hs | rfl)
    · exact h.valid s hs
    · exact valid
  · simp only [List.mem_append, List.mem_singleton]
    rintro s (hs | rfl)
    · exact (h.images s hs).keep (fun n covers => loaded.others n (apart s hs n covers)) loaded.kept
    · refine ⟨fun j hj => ?_, loaded.enough valid.readBytes_le⟩
      obtain ⟨frame, mapped, -, used, contents⟩ := loaded.loaded j hj
      exact ⟨frame, mapped, used, contents⟩
  · refine List.pairwise_append.mpr ⟨h.apart, List.pairwise_singleton .., ?_⟩
    intro s hs s' hs'
    rw [List.mem_singleton] at hs'
    subst hs'
    exact apart s hs
  · by_cases covers : phdr.Covers n
    · exact ⟨phdr, by simp, covers⟩
    · rw [loaded.others n covers] at some
      obtain ⟨s, hs, covers⟩ := h.only n some
      exact ⟨s, List.mem_append_left _ hs, covers⟩

/-- Induction over the program headers of a successful load: `P` says what holds
of the segments loaded so far. -/
theorem loadPhdrs_induction {σ : Type} {segment : Nat → Phdr → σ → Except Fault (Bool × σ)}
    (P : List Phdr → σ → Prop)
    (step : ∀ i phdr state state' segs, P segs state → phdr.Valid →
      segment i phdr state = .ok (true, state') → P (segs ++ [phdr]) state')
    {stops : Nat → Option Nat} {left i : Nat} {fileOfs : Int} {state state' : σ} (base : P segs state)
    (h : loadPhdrs file stops segment left i fileOfs state = .ok (true, state')) :
    P (segs ++ loadable (headersFrom file left fileOfs.toNat)) state' := by
  induction left generalizing i fileOfs state segs with
  | zero =>
      cases h
      simpa [loadable, headersFrom] using base
  | succ left ih =>
      simp only [loadPhdrs] at h
      split at h
      · cases h
      · next phdr found =>
          unfold phdrAt at found
          split at found
          · cases found
          · next inside =>
              simp only at found
              split at found
              · cases found
              · next whole =>
                rw [fileRead_of_length (not_not.mp whole)] at found
                cases found
                have next_ofs : (fileOfs + Phdr.size).toNat = fileOfs.toNat + Phdr.size := by
                  unfold Phdr.size
                  omega
                rw [headersFrom, loadable]
                split at h
                · cases h
                · split at h
                  · next load =>
                      split at h
                      · next accepted =>
                          split at h
                          · cases h
                          · cases h
                          · next state₁ done =>
                              have valid := valid_of_validateSegment accepted (field_lt ..)
                              have := ih (step _ _ _ _ _ base valid done) h
                              rw [List.filter_cons_of_pos (by simpa using load), ← loadable]
                              rwa [next_ofs, List.append_assoc] at this
                      · cases h
                  · next other =>
                      have := ih base h
                      rw [List.filter_cons_of_neg (by simpa using other), ← loadable]
                      rwa [next_ofs] at this

theorem segments_induction {σ : Type} {segment : Nat → Phdr → σ → Except Fault (Bool × σ)}
    (P : List Phdr → σ → Prop)
    (step : ∀ i phdr state state' segs, P segs state → phdr.Valid →
      segment i phdr state = .ok (true, state') → P (segs ++ [phdr]) state')
    {ehdr : Ehdr} {stop : Option Nat} {stops : Nat → Option Nat} {state state' : σ}
    (accepted : acceptedHeader file stop = some ehdr) (base : P [] state)
    (h : loadPhdrs file stops segment ehdr.phnum 0 (toInt32 ehdr.phoff) state = .ok (true, state')) :
    P file.segments state' := by
  have all := loadPhdrs_induction P step base h
  have header : readEhdr (file.read 0 Ehdr.size) = ehdr := by
    unfold acceptedHeader at accepted
    simp only at accepted
    split at accepted
    · cases accepted
    · next whole =>
        rw [not_or, not_not] at whole
        rw [fileRead_of_length whole.1] at accepted
        exact Option.some.inj accepted
  rw [List.nil_append] at all
  rw [ExecFile.segments, header]
  cases count : ehdr.phnum with
  | zero => simpa only [count, headersFrom] using all
  | succ left =>
      have narrow : ehdr.phoff < 2 ^ 32 := by
        rw [← header]
        exact field_lt ..
      have first : 0 ≤ toInt32 ehdr.phoff := by
        rw [count, loadPhdrs] at h
        split at h
        · cases h
        · next found =>
            unfold phdrAt at found
            split at found
            · cases found
            · omega
      have same : (toInt32 ehdr.phoff).toNat = ehdr.phoff := by
        unfold toInt32 at *
        omega
      simpa only [count, same] using all

/-- The number of the stack page. -/
def stackPage : Nat := 0xbffff

/-- The stack page was unmapped and is a zeroed frame now. -/
structure StackMapped (m m' : Memory) : Prop where
  before : entry m.pagedir stackPage = none
  mapped : ∃ frame, entry m'.pagedir =
      Function.update (entry m.pagedir) stackPage (some (pteCreateUser frame true)) ∧
    m.used frame = false ∧ m'.used frame = true ∧ m'.frames frame = fun _ => 0
  kept : ∀ frame, m.used frame = true → m'.used frame = true ∧ m'.frames frame = m.frames frame

theorem finishLoad_of_ok {ehdr : Ehdr} {grants : LoadGrants} {s s' : AddressSpace} {start : Start}
    (h : finishLoad ehdr grants s = .ok (some start, s')) :
    start = ⟨ehdr.entry, physBase - 20⟩ ∧ StackMapped s.mem s'.mem := by
  unfold finishLoad setupStack at h
  cases granted : pallocGetPage s.mem true grants.stack.frameGrant with
  | none =>
      rw [granted] at h
      cases h
  | some got =>
      obtain ⟨frame, m₁⟩ := got
      obtain ⟨free, rfl⟩ := pallocGetPage_eq_some granted
      have place : physBase - pgsize = pgsize * stackPage := rfl
      simp only [granted, place] at h
      split at h
      · cases h
      · cases h
      · next s₁ done =>
          cases h
          split at done
          · cases done
          · next s₂ installed =>
              cases done
              obtain ⟨before, pd, mem, entries⟩ := installPage_of_ok (by decide) installed
              refine ⟨rfl, before, ⟨frame, ?_, free, ?_, ?_⟩, fun other used => ?_⟩
              · rw [mem]
                exact entries
              · simp [mem]
              · simp [mem]
              · have differ : other ≠ frame := by
                  rintro rfl
                  rw [free] at used
                  cases used
                simp [mem, differ, used]
          · exact absurd done failAfterFree_ne

/-- What a successful load leaves: the segments, the stack page and nothing else. -/
structure Finished (file : ExecFile) (segs : List Phdr) (m : Memory) : Prop where
  valid : ∀ s ∈ segs, s.Valid
  images : ∀ s ∈ segs, ImageAt file s m
  apart : segs.Pairwise fun s s' => ∀ n, s.Covers n → ¬ s'.Covers n
  offStack : ∀ s ∈ segs, ¬ s.Covers stackPage
  only : ∀ n, (entry m.pagedir n).isSome → n = stackPage ∨ ∃ s ∈ segs, s.Covers n
  stack : ∃ frame, entry m.pagedir stackPage = some (pteCreateUser frame true) ∧
    m.frames frame = fun _ => 0

theorem Placed.finish (h : Placed file segs m) (stack : StackMapped m m') : Finished file segs m' := by
  obtain ⟨frame, entries, -, -, zeroed⟩ := stack.mapped
  have offStack (s : Phdr) (hs : s ∈ segs) : ¬ s.Covers stackPage := by
    intro covers
    obtain ⟨other, mapped⟩ := (h.images s hs).mapped covers
    rw [stack.before] at mapped
    cases mapped
  have others {n : Nat} (differ : n ≠ stackPage) : entry m'.pagedir n = entry m.pagedir n := by
    rw [entries, Function.update_of_ne differ]
  refine ⟨h.valid, fun s hs => ?_, h.apart, offStack, fun n mapped => ?_, frame, ?_, zeroed⟩
  · refine (h.images s hs).keep (fun n covers => others ?_) stack.kept
    rintro rfl
    exact offStack s hs covers
  · by_cases top : n = stackPage
    · exact .inl top
    · rw [others top] at mapped
      exact .inr (h.only n mapped)
  · rw [entries, Function.update_self]

theorem Finished.mapped_iff (h : Finished file segs m) {n : Nat} :
    (entry m.pagedir n).isSome ↔ n = stackPage ∨ ∃ s ∈ segs, s.Covers n := by
  refine ⟨h.only n, ?_⟩
  rintro (rfl | ⟨s, hs, covers⟩)
  · obtain ⟨frame, mapped, -⟩ := h.stack
    rw [mapped]
    rfl
  · obtain ⟨frame, mapped⟩ := (h.images s hs).mapped covers
    rw [mapped]
    rfl

end Program
end CS162.Pintos
