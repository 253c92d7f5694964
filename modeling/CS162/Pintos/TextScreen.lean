import Mathlib.Data.Nat.Bitwise
import CS162.Library.Transition
import CS162.Pintos.MemMove
import CS162.Pintos.Paging

/-!
The text screen (devices/vga.c), and the page that it shows. The screen is its framebuffer, 25
rows of 80 characters with their attributes, the cursor, and the registers of the display's
controller; a character that does not fit scrolls it by a copy within the framebuffer. The page has
rows without end and is never moved.

`vga_putc` runs with interrupts off but for the time of a beep, in which it has nothing to do.
-/

namespace CS162.Pintos.Vga
open CS162.Library

def colCnt : Nat := 80

def rowCnt : Nat := 25

/-- `ptov (0xb8000)`. -/
def fb : Nat := 0xc00b8000

/-- A character and its attribute. -/
abbrev Cell := UInt8 × UInt8

def grayOnBlack : UInt8 := 0x07

/-- What `clear_row` writes. -/
def blank : Cell := (0x20, grayOnBlack)

/-- `&fb[y][x]`. -/
def cellAddr (y x : Nat) : Nat := fb + 2 * (colCnt * y + x)

def cell (m : Library.Memory) (y x : Nat) : Cell := (m (cellAddr y x), m (cellAddr y x + 1))

def setCell (m : Library.Memory) (y x : Nat) (c : Cell) : Library.Memory :=
  Function.update (Function.update m (cellAddr y x) c.1) (cellAddr y x + 1) c.2

/-- The statics of vga.c, with the registers that the port 0x3d4 gives access to. -/
structure Screen where
  mem : Library.Memory
  cx : Nat
  cy : Nat
  inited : Bool
  crtc : UInt8 → UInt8

/-- The first `n` rounds of the loop of `clear_row`. -/
def clearCols (y : Nat) : (n : Nat) → Library.Memory → Library.Memory
  | 0, m => m
  | n + 1, m => setCell (clearCols y n m) y n blank

def clearRow (y : Nat) (m : Library.Memory) : Library.Memory := clearCols y colCnt m

/-- The first `n` rounds of the loop of `cls`. -/
def clearRows : (n : Nat) → Library.Memory → Library.Memory
  | 0, m => m
  | n + 1, m => clearRow n (clearRows n m)

namespace Screen
variable (s : Screen)

/-- `outw (0x3d4, value)`: the low byte is the number of a register. -/
def outw (value : Nat) : Screen :=
  { s with crtc := Function.update s.crtc (UInt8.ofNat value) (UInt8.ofNat (value / 256)) }

def moveCursor : Screen :=
  let cp := (s.cx + colCnt * s.cy) % 2 ^ 16
  (s.outw (0x0e ||| (cp &&& 0xff00))).outw (0x0f ||| (cp <<< 8))

/-- Where the display has its cursor. -/
def hardwareCursor : Nat := ((s.crtc 0x0e).toNat <<< 8) ||| (s.crtc 0x0f).toNat

/-- `init`, with `find_cursor`. -/
def init : Screen :=
  if s.inited then s
  else { s with cx := s.hardwareCursor % colCnt, cy := s.hardwareCursor / colCnt, inited := true }

def cls : Screen := { s with mem := clearRows rowCnt s.mem, cx := 0, cy := 0 }.moveCursor

/-- `newline`. No result is a failed ASSERT in `memmove`. -/
def newline : Option Screen :=
  let s := { s with cx := 0, cy := s.cy + 1 }
  if rowCnt ≤ s.cy then do
    let (m, _) ← Strings.memmove s.mem (cellAddr 0 0) (cellAddr 1 0) (2 * colCnt * (rowCnt - 1))
    return { s with cy := rowCnt - 1, mem := clearRow (rowCnt - 1) m }
  else some s

/-- The `default` case of `vga_putc`. -/
def putChar (c : UInt8) : Option Screen :=
  let s := { s with mem := setCell s.mem s.cy s.cx (c, grayOnBlack), cx := s.cx + 1 }
  if colCnt ≤ s.cx then s.newline else some s

/-- The case of a tab. -/
def putTab : Option Screen :=
  let s := { s with cx := roundUp (s.cx + 1) 8 }
  if colCnt ≤ s.cx then s.newline else some s

/-- The `switch` of `vga_putc`. -/
def dispatch (c : UInt8) : Option Screen :=
  if c = 0x0a then s.newline
  else if c = 0x0c then some s.cls
  else if c = 0x08 then some { s with cx := s.cx - 1 }
  else if c = 0x0d then some { s with cx := 0 }
  else if c = 0x09 then s.putTab
  else if c = 0x07 then some s
  else s.putChar c

def vgaPutc (c : UInt8) : Option Screen := do
  let s ← s.init.dispatch c
  return s.moveCursor

end Screen

/-- Rows without end, with a place for the next character. -/
structure Page where
  cell : Nat → Nat → Cell
  row : Nat
  col : Nat

namespace Page
variable (p : Page)

def newline : Page := { p with row := p.row + 1, col := 0 }

def wrap : Page := if colCnt ≤ p.col then p.newline else p

def putChar (c : UInt8) : Page :=
  { p with
    cell := fun y x => if y = p.row ∧ x = p.col then (c, grayOnBlack) else p.cell y x
    col := p.col + 1 }.wrap

/-- What a character does to a page. A form feed begins a new one, a tab goes on to the next column
that eight divides. -/
def putc (c : UInt8) : Page :=
  if c = 0x0a then p.newline
  else if c = 0x0c then ⟨fun _ _ => blank, 0, 0⟩
  else if c = 0x08 then { p with col := p.col - 1 }
  else if c = 0x0d then { p with col := 0 }
  else if c = 0x09 then { p with col := 8 * (p.col / 8 + 1) }.wrap
  else if c = 0x07 then p
  else p.putChar c

/-- The first row on the screen: the cursor's is the last one, or the page begins on the screen. -/
def top : Nat := p.row - (rowCnt - 1)

end Page

section Cells
variable {m : Library.Memory} {y x y' x' n : Nat} {c : Cell}

theorem cellAddr_inj (inside : x < colCnt) (inside' : x' < colCnt) (same : cellAddr y x = cellAddr y' x') :
    y = y' ∧ x = x' := by
  simp only [cellAddr, colCnt] at *
  omega

theorem cell_setCell (inside : x < colCnt) (inside' : x' < colCnt) :
    cell (setCell m y x c) y' x' = if y' = y ∧ x' = x then c else cell m y' x' := by
  split
  next here =>
    obtain ⟨rfl, rfl⟩ := here
    rw [cell, setCell, Function.update_self, Function.update_of_ne (by omega), Function.update_self]
  next other =>
    have apart : cellAddr y' x' ≠ cellAddr y x := by
      intro same
      exact other (cellAddr_inj inside' inside same)
    have steps : cellAddr y' x' ≠ cellAddr y x + 1 ∧ cellAddr y' x' + 1 ≠ cellAddr y x := by
      simp only [cellAddr]
      omega
    rw [cell, setCell, Function.update_of_ne steps.1, Function.update_of_ne apart, Function.update_of_ne (by omega),
      Function.update_of_ne steps.2]
    rfl

theorem cell_clearCols (within : n ≤ colCnt) (inside : x' < colCnt) :
    cell (clearCols y n m) y' x' = if y' = y ∧ x' < n then blank else cell m y' x' := by
  induction n with
  | zero => rw [if_neg (by omega), clearCols]
  | succ n ih =>
      rw [clearCols, cell_setCell within inside, ih (Nat.le_of_succ_le within)]
      by_cases row : y' = y
      · by_cases last : x' = n
        · rw [if_pos ⟨row, last⟩, if_pos ⟨row, by omega⟩]
        · rw [if_neg (by omega)]
          by_cases before : x' < n
          · rw [if_pos ⟨row, before⟩, if_pos ⟨row, by omega⟩]
          · rw [if_neg (by omega), if_neg (by omega)]
      · rw [if_neg (by omega), if_neg (by omega), if_neg (by omega)]

theorem cell_clearRow (inside : x' < colCnt) :
    cell (clearRow y m) y' x' = if y' = y then blank else cell m y' x' := by
  rw [clearRow, cell_clearCols (Nat.le_refl _) inside]
  by_cases row : y' = y
  · rw [if_pos ⟨row, inside⟩, if_pos row]
  · rw [if_neg (by omega), if_neg row]

theorem cell_clearRows (inside : x' < colCnt) :
    cell (clearRows n m) y' x' = if y' < n then blank else cell m y' x' := by
  induction n with
  | zero => rw [if_neg (Nat.not_lt_zero _), clearRows]
  | succ n ih =>
      rw [clearRows, cell_clearRow inside, ih]
      by_cases last : y' = n
      · rw [if_pos last, if_pos (by omega)]
      · rw [if_neg last]
        by_cases before : y' < n
        · rw [if_pos before, if_pos (by omega)]
        · rw [if_neg before, if_neg (by omega)]

/-- The rows that were scrolled. -/
def scrolled (m : Library.Memory) : Library.Memory :=
  m.copy (cellAddr 0 0) m (cellAddr 1 0) (2 * colCnt * (rowCnt - 1))

theorem scrolled_apply {a : Nat} (lower : cellAddr 0 0 ≤ a) (upper : a < cellAddr (rowCnt - 1) 0) :
    scrolled m a = m (a + 2 * colCnt) := by
  have within : a < cellAddr 0 0 + 2 * colCnt * (rowCnt - 1) := by
    simp only [cellAddr, colCnt, rowCnt] at *
    omega
  have source : cellAddr 1 0 + (a - cellAddr 0 0) = a + 2 * colCnt := by
    simp only [cellAddr, colCnt] at *
    omega
  rw [scrolled, Library.Memory.copy, if_pos ⟨lower, within⟩, source]

theorem cell_scrolled (inside : x < colCnt) (above : y < rowCnt - 1) : cell (scrolled m) y x = cell m (y + 1) x := by
  have next : cellAddr (y + 1) x = cellAddr y x + 2 * colCnt := by
    rw [cellAddr, cellAddr, Nat.mul_succ]
    omega
  have within : cellAddr 0 0 ≤ cellAddr y x ∧ cellAddr y x + 1 < cellAddr (rowCnt - 1) 0 := by
    simp only [cellAddr, colCnt, rowCnt] at *
    omega
  rw [cell, scrolled_apply within.1 (by omega), scrolled_apply (by omega) within.2, cell, next, Nat.add_right_comm]

/-- The bytes of the framebuffer. -/
def fbSize : Nat := 2 * colCnt * rowCnt

theorem setCell_sameOff (inside : x < colCnt) (on : y < rowCnt) :
    Library.Memory.SameOff fb fbSize m (setCell m y x c) := by
  intro a outside
  simp only [colCnt, rowCnt, fbSize] at inside on outside
  rw [setCell, Function.update_of_ne, Function.update_of_ne]
  all_goals
    simp only [cellAddr, colCnt]
    omega

theorem clearCols_sameOff (within : n ≤ colCnt) (on : y < rowCnt) :
    Library.Memory.SameOff fb fbSize m (clearCols y n m) := by
  induction n with
  | zero => exact fun _ _ => rfl
  | succ n ih => exact (ih (Nat.le_of_succ_le within)).trans (setCell_sameOff within on)

theorem clearRows_sameOff (within : n ≤ rowCnt) : Library.Memory.SameOff fb fbSize m (clearRows n m) := by
  induction n with
  | zero => exact fun _ _ => rfl
  | succ n ih =>
      exact (ih (Nat.le_of_succ_le within)).trans (clearCols_sameOff (Nat.le_refl _) within)

theorem scrolled_sameOff : Library.Memory.SameOff fb fbSize m (scrolled m) := by
  intro a outside
  simp only [fbSize, colCnt, rowCnt] at outside
  rw [scrolled, Library.Memory.copy, if_neg]
  simp only [cellAddr, colCnt, rowCnt]
  omega

end Cells

section Cursor
variable {s : Screen} {a b : Nat}

theorem or_shift (small : a < 256) : a ||| (b <<< 8) = 256 * b + a := by
  have bits : a < 2 ^ 8 := small
  rw [Nat.or_comm, ← Nat.shiftLeft_add_eq_or_of_lt bits, Nat.shiftLeft_eq, Nat.mul_comm]

theorem and_high (small : a < 2 ^ 16) : a &&& 0xff00 = (a / 256) <<< 8 := by
  have mask : (0xff00 : Nat) = (2 ^ 8 - 1) <<< 8 := rfl
  have byte : (256 : Nat) = 2 ^ 8 := rfl
  apply Nat.eq_of_testBit_eq
  intro i
  rw [mask, byte, Nat.testBit_and, Nat.testBit_shiftLeft, Nat.testBit_shiftLeft, Nat.testBit_two_pow_sub_one,
    Nat.testBit_div_two_pow]
  by_cases low : 8 ≤ i
  · rw [Nat.sub_add_cancel low]
    by_cases high : i - 8 < 8
    · simp [low, high]
    · have above : a < 2 ^ i := lt_of_lt_of_le small (Nat.pow_le_pow_right (by decide) (by omega))
      simp [Nat.testBit_lt_two_pow above]
  · simp [low]

/-- The display has its cursor where `move_cursor` puts it. -/
theorem hardwareCursor_moveCursor (on : s.cx + colCnt * s.cy < 2 ^ 16) :
    s.moveCursor.hardwareCursor = s.cx + colCnt * s.cy := by
  generalize place : s.cx + colCnt * s.cy = cp at on
  have high : UInt8.ofNat (0x0e ||| (cp &&& 0xff00)) = 0x0e ∧
      UInt8.ofNat ((0x0e ||| (cp &&& 0xff00)) / 256) = UInt8.ofNat (cp / 256) := by
    have index : (256 * (cp / 256) + 0x0e) % 2 ^ 8 = 0x0e := by omega
    have data : (256 * (cp / 256) + 0x0e) / 256 = cp / 256 := by omega
    rw [and_high on, or_shift (by decide), data]
    exact ⟨UInt8.toNat_inj.mp (UInt8.toNat_ofNat'.trans index), rfl⟩
  have low : UInt8.ofNat (0x0f ||| (cp <<< 8)) = 0x0f ∧ UInt8.ofNat ((0x0f ||| (cp <<< 8)) / 256) = UInt8.ofNat cp := by
    have index : (256 * cp + 0x0f) % 2 ^ 8 = 0x0f := by omega
    have data : (256 * cp + 0x0f) / 256 = cp := by omega
    rw [or_shift (by decide), data]
    exact ⟨UInt8.toNat_inj.mp (UInt8.toNat_ofNat'.trans index), rfl⟩
  simp only [Screen.moveCursor, place, Nat.mod_eq_of_lt on, Screen.hardwareCursor, Screen.outw, high, low]
  rw [Function.update_of_ne (by decide), Function.update_self, Function.update_self, Nat.or_comm,
    or_shift (UInt8.toNat_lt _), UInt8.toNat_ofNat', UInt8.toNat_ofNat']
  omega

end Cursor

section Refinement
variable {s s' : Screen} {p : Page} {c : UInt8} {text : List UInt8}

/-- The rows of the page that are on the screen, and where the cursor is among them. What the page
has below the screen is blank. -/
structure Rows (s : Screen) (p : Page) : Prop where
  row : p.top + s.cy = p.row
  cells : ∀ y < rowCnt, ∀ x < colCnt, cell s.mem y x = p.cell (p.top + y) x
  below : ∀ y, p.top + rowCnt ≤ y → ∀ x < colCnt, p.cell y x = blank

structure Shows (s : Screen) (p : Page) : Prop where
  rows : Rows s p
  col : s.cx = p.col
  inside : p.col < colCnt

/-- The screen shows the page now, and nothing but the framebuffer and the cursor has changed. -/
structure Becomes (s s' : Screen) (p : Page) : Prop where
  shows : Shows s' p
  inited : s'.inited = s.inited
  off : Library.Memory.SameOff fb fbSize s.mem s'.mem

theorem Rows.on (h : Rows s p) : s.cy < rowCnt := by
  have row := h.row
  rw [Page.top, rowCnt] at row
  rw [rowCnt]
  omega

/-- At the last row of the screen the page goes up by one, above it it stays. -/
theorem Rows.newline (h : Rows s p) : ∃ s', s.newline = some s' ∧ Becomes s s' p.newline := by
  have row := h.row
  have on := h.on
  simp only [Screen.newline]
  split
  next last =>
    have source : cellAddr 0 0 ≠ 0 ∧ cellAddr 1 0 ≠ 0 := by
      simp only [cellAddr, fb]
      omega
    have moved : Strings.memmove s.mem (cellAddr 0 0) (cellAddr 1 0) (2 * colCnt * (rowCnt - 1)) =
        some (scrolled s.mem, _) := Strings.memmove_eq (.inl source.1) (.inl source.2)
    have up : p.newline.top = p.top + 1 := by
      simp only [Page.top, Page.newline, rowCnt] at *
      omega
    let s₁ : Screen := { s with cx := 0, cy := rowCnt - 1, mem := clearRow (rowCnt - 1) (scrolled s.mem) }
    refine ⟨s₁, by rw [moved]; rfl, ⟨⟨?_, fun y within x inside => ?_, fun y below x inside => ?_⟩, rfl, ?_⟩, rfl, ?_⟩
    · show p.newline.top + (rowCnt - 1) = p.row + 1
      omega
    · show cell (clearRow (rowCnt - 1) (scrolled s.mem)) y x = p.cell (p.newline.top + y) x
      rw [cell_clearRow inside, up]
      split
      next bottom => exact (h.below _ (by omega) x inside).symm
      next other =>
        rw [cell_scrolled inside (by omega), h.cells (y + 1) (by omega) x inside, Nat.add_assoc, Nat.add_comm 1 y]
    · exact h.below y (by omega) x inside
    · show 0 < colCnt
      decide
    · exact scrolled_sameOff.trans (clearCols_sameOff (Nat.le_refl _) (by decide))
  next more =>
    have stays : p.newline.top = p.top := by
      simp only [Page.top, Page.newline, rowCnt] at *
      omega
    refine ⟨_, rfl, ⟨⟨?_, fun y within x inside => ?_, fun y below x inside => ?_⟩, rfl, ?_⟩, rfl, fun _ _ => rfl⟩
    · show p.newline.top + (s.cy + 1) = p.row + 1
      omega
    · rw [stays]
      exact h.cells y within x inside
    · exact h.below y (by omega) x inside
    · show 0 < colCnt
      decide

theorem Rows.wrap (h : Rows s p) (col : s.cx = p.col) :
    ∃ s', (if colCnt ≤ s.cx then s.newline else some s) = some s' ∧ Becomes s s' p.wrap := by
  rw [Page.wrap, col]
  split
  next => exact h.newline
  next inside => exact ⟨s, rfl, ⟨h, col, Nat.lt_of_not_le inside⟩, rfl, fun _ _ => rfl⟩

theorem Shows.putChar (h : Shows s p) : ∃ s', s.putChar c = some s' ∧ Becomes s s' (p.putChar c) := by
  have inside := h.inside
  have on := h.rows.on
  have col := h.col
  let s₁ : Screen := { s with mem := setCell s.mem s.cy s.cx (c, grayOnBlack), cx := s.cx + 1 }
  let p₁ : Page :=
    { p with
      cell := fun y x => if y = p.row ∧ x = p.col then (c, grayOnBlack) else p.cell y x
      col := p.col + 1 }
  have rows : Rows s₁ p₁ := by
    refine ⟨h.rows.row, fun y within x left => ?_, fun y below x left => ?_⟩
    · show cell (setCell s.mem s.cy s.cx (c, grayOnBlack)) y x =
        if p.top + y = p.row ∧ x = p.col then (c, grayOnBlack) else p.cell (p.top + y) x
      rw [cell_setCell (by omega) left, h.rows.cells y within x left, ← col, ← h.rows.row]
      simp only [Nat.add_left_cancel_iff]
    · have under : y ≠ p.row := by
        have row := h.rows.row
        have below : p.top + rowCnt ≤ y := below
        omega
      show (if y = p.row ∧ x = p.col then (c, grayOnBlack) else p.cell y x) = blank
      rw [if_neg fun here => under here.1, h.rows.below y below x left]
  obtain ⟨s', done, shows, inited, off⟩ := rows.wrap (congrArg (· + 1) col)
  refine ⟨s', done, shows, inited, ?_⟩
  exact (setCell_sameOff (by omega) on).trans off

theorem Shows.putTab (h : Shows s p) :
    ∃ s', s.putTab = some s' ∧ Becomes s s' { p with col := 8 * (p.col / 8 + 1) }.wrap := by
  let s₁ : Screen := { s with cx := roundUp (s.cx + 1) 8 }
  let p₁ : Page := { p with col := 8 * (p.col / 8 + 1) }
  have rows : Rows s₁ p₁ := ⟨h.rows.row, h.rows.cells, h.rows.below⟩
  have stop : roundUp (s.cx + 1) 8 = 8 * (p.col / 8 + 1) := by
    rw [roundUp, h.col]
    omega
  obtain ⟨s', done, shows, inited, off⟩ := rows.wrap stop
  exact ⟨s', done, shows, inited, off⟩

theorem Shows.dispatch (h : Shows s p) (c : UInt8) :
    ∃ s', s.dispatch c = some s' ∧ Becomes s s' (p.putc c) := by
  have inside := h.inside
  have stays : Library.Memory.SameOff fb fbSize s.mem s.mem := fun _ _ => rfl
  have rows := h.rows
  rw [Screen.dispatch, Page.putc]
  split
  next => exact rows.newline
  next =>
    split
    next =>
      refine ⟨s.cls, rfl, ⟨⟨rfl, fun y within x left => ?_, fun _ _ _ _ => rfl⟩, rfl, by decide⟩, rfl, ?_⟩
      · exact (cell_clearRows left).trans (if_pos within)
      · exact clearRows_sameOff (Nat.le_refl _)
    next =>
      split
      next =>
        refine ⟨_, rfl, ⟨⟨rows.row, rows.cells, rows.below⟩, congrArg (· - 1) h.col, ?_⟩, rfl, stays⟩
        exact Nat.lt_of_le_of_lt (Nat.sub_le _ _) inside
      next =>
        split
        next => exact ⟨_, rfl, ⟨⟨rows.row, rows.cells, rows.below⟩, rfl, Nat.zero_lt_of_lt inside⟩, rfl, stays⟩
        next =>
          split
          next => exact h.putTab
          next =>
            split
            next => exact ⟨s, rfl, h, rfl, stays⟩
            next => exact h.putChar

/-- The cursor of the display is where the next character goes. -/
structure Settled (s : Screen) (p : Page) : Prop where
  shows : Shows s p
  inited : s.inited = true
  cursor : s.hardwareCursor = s.cx + colCnt * s.cy

theorem Shows.moveCursor (h : Shows s p) : s.moveCursor.hardwareCursor = s.cx + colCnt * s.cy := by
  have on := h.rows.on
  have inside := h.inside
  have col := h.col
  apply hardwareCursor_moveCursor
  simp only [colCnt, rowCnt] at *
  omega

theorem Settled.vgaPutc (h : Settled s p) (c : UInt8) : ∃ s', s.vgaPutc c = some s' ∧ Settled s' (p.putc c) ∧
    Library.Memory.SameOff fb fbSize s.mem s'.mem := by
  obtain ⟨s', done, shows, inited, off⟩ := h.shows.dispatch c
  have ready : s.init = s := by rw [Screen.init, if_pos h.inited]
  refine ⟨s'.moveCursor, ?_, ⟨⟨⟨shows.rows.row, shows.rows.cells, shows.rows.below⟩, shows.col, shows.inside⟩,
    inited.trans h.inited, shows.moveCursor⟩, off⟩
  rw [Screen.vgaPutc, ready, done]
  rfl

/-- What the display showed before the first character. -/
def firstPage (s : Screen) : Page where
  cell y x := if y < rowCnt then cell s.mem y x else blank
  row := s.hardwareCursor / colCnt
  col := s.hardwareCursor % colCnt

theorem settled_init (first : s.inited = false) (on : s.hardwareCursor < colCnt * rowCnt) :
    Settled s.init (firstPage s) := by
  have row : s.hardwareCursor / colCnt < rowCnt := Nat.div_lt_of_lt_mul on
  have atTop : (firstPage s).top = 0 := by
    simp only [Page.top, firstPage, rowCnt] at *
    omega
  have started : s.init =
      { s with cx := s.hardwareCursor % colCnt, cy := s.hardwareCursor / colCnt, inited := true } := by
    rw [Screen.init, if_neg (by simp [first])]
  rw [started]
  refine ⟨⟨⟨?_, fun y within x _ => ?_, fun y below x _ => ?_⟩, rfl, Nat.mod_lt _ (by decide)⟩, rfl, ?_⟩
  · rw [atTop, Nat.zero_add]
    rfl
  · rw [atTop, Nat.zero_add]
    exact (if_pos within).symm
  · exact if_neg (by omega)
  · exact (Nat.mod_add_div s.hardwareCursor colCnt).symm

/-- The characters of a text, one after the other. -/
def Page.puts (p : Page) (text : List UInt8) : Page := text.foldl Page.putc p

theorem Settled.puts (h : Settled s p) (text : List UInt8) : ∃ s', System.exec Screen.vgaPutc s text = some s' ∧
    Settled s' (p.puts text) ∧ Library.Memory.SameOff fb fbSize s.mem s'.mem := by
  induction text generalizing s p with
  | nil => exact ⟨s, rfl, h, fun _ _ => rfl⟩
  | cons c text ih =>
      obtain ⟨s₁, put, settled, off⟩ := h.vgaPutc c
      obtain ⟨s₂, ran, settled₂, off₂⟩ := ih settled
      refine ⟨s₂, ?_, settled₂, off.trans off₂⟩
      rw [System.exec, put]
      exact ran

theorem exec_init (s : Screen) (text : List UInt8) :
    (System.exec Screen.vgaPutc s text).map Screen.init = (System.exec Screen.vgaPutc s.init text).map Screen.init := by
  have inited : s.init.inited = true := by
    rw [Screen.init]
    split
    next done => exact done
    next => rfl
  have again : s.init.init = s.init := if_pos inited
  cases text with
  | nil => exact congrArg some again.symm
  | cons c text => rw [System.exec, System.exec, Screen.vgaPutc, Screen.vgaPutc, again]

theorem exec_of_init {s₁ : Screen} (ran : System.exec Screen.vgaPutc s.init text = some s₁) (ready : s₁.inited = true) :
    ∃ s', System.exec Screen.vgaPutc s text = some s' ∧ s'.init = s₁ := by
  have same := exec_init s text
  rw [ran] at same
  obtain ⟨s', ran', same⟩ := Option.map_eq_some_iff.mp same
  have again : s₁.init = s₁ := if_pos ready
  exact ⟨s', ran', same.trans again⟩

theorem init_mem (s : Screen) : s.init.mem = s.mem := by
  rw [Screen.init]
  split
  next => rfl
  next => rfl

/-- Whatever is put, the screen shows the page, the display has its cursor where the next character
goes, and nothing outside of the framebuffer is written. -/
theorem screen_shows_page (first : s.inited = false) (on : s.hardwareCursor < colCnt * rowCnt) (text : List UInt8) :
    ∃ s', System.exec Screen.vgaPutc s text = some s' ∧ Settled s'.init ((firstPage s).puts text) ∧
      Library.Memory.SameOff fb fbSize s.mem s'.mem := by
  obtain ⟨s₁, ran, settled, off⟩ := (settled_init first on).puts text
  obtain ⟨s', ran', same⟩ := exec_of_init ran settled.inited
  refine ⟨s', ran', same ▸ settled, fun a outside => ?_⟩
  rw [← init_mem s', same, off a outside, init_mem s]

end Refinement

/-- The cursor is in the last place of the screen. -/
def corner : Screen := ⟨fun _ => 0, 0, 0, false, fun i => if i = 0x0e then 0x07 else 0xcf⟩

theorem screen_shows_page_of_corner : ∃ s', System.exec Screen.vgaPutc corner [65, 9, 66] = some s' ∧
    Settled s'.init ((firstPage corner).puts [65, 9, 66]) ∧ Library.Memory.SameOff fb fbSize corner.mem s'.mem :=
  screen_shows_page rfl (by decide) _

section Texts
variable {s : Screen} {p : Page} {c : UInt8} {text : List UInt8} {x y : Nat}

/-- A character that is not a control character of the screen. -/
def Plain (c : UInt8) : Prop := c ∉ [0x0a, 0x0c, 0x08, 0x0d, 0x09, 0x07]

instance (c : UInt8) : Decidable (Plain c) := inferInstanceAs (Decidable (_ ∉ _))

/-- The place of the next character, in the order in which a page is read. -/
def Page.place (p : Page) : Nat := colCnt * p.row + p.col

theorem Page.putc_plain (plain : Plain c) : p.putc c = p.putChar c := by
  simp only [Plain, List.mem_cons, List.not_mem_nil, or_false, not_or] at plain
  obtain ⟨lf, ff, bs, cr, tab, bel⟩ := plain
  rw [putc, if_neg lf, if_neg ff, if_neg bs, if_neg cr, if_neg tab, if_neg bel]

theorem Page.putChar_place (inside : p.col < colCnt) :
    (p.putChar c).place = p.place + 1 ∧ (p.putChar c).col < colCnt := by
  simp only [putChar, wrap]
  split
  next late =>
    simp only [place, newline, colCnt] at *
    omega
  next more =>
    simp only [place, colCnt] at *
    omega

theorem Page.putChar_cell (inside : p.col < colCnt) (on : x < colCnt) :
    (p.putChar c).cell y x = if colCnt * y + x = p.place then (c, grayOnBlack) else p.cell y x := by
  have same : (p.putChar c).cell y x = if y = p.row ∧ x = p.col then (c, grayOnBlack) else p.cell y x := by
    simp only [putChar, wrap]
    split
    next => rfl
    next => rfl
  have here : (y = p.row ∧ x = p.col) ↔ colCnt * y + x = p.place := by
    simp only [place, colCnt] at *
    omega
  rw [same]
  simp only [here]

/-- A text stands on the page in the order in which it is read, and only there. -/
theorem Page.puts_plain (plain : ∀ c ∈ text, Plain c) (inside : p.col < colCnt) :
    (p.puts text).place = p.place + text.length ∧ (p.puts text).col < colCnt ∧
      ∀ y x, x < colCnt → (p.puts text).cell y x =
        if p.place ≤ colCnt * y + x then
          (text[colCnt * y + x - p.place]?.map fun c => (c, grayOnBlack)).getD (p.cell y x)
        else p.cell y x := by
  induction text generalizing p with
  | nil =>
      refine ⟨rfl, inside, fun y x _ => ?_⟩
      rw [List.getElem?_nil, Option.map_none, Option.getD_none, ite_self]
      rfl
  | cons c text ih =>
      obtain ⟨plain, rest⟩ := List.forall_mem_cons.mp plain
      obtain ⟨next, inside'⟩ := putChar_place (c := c) inside
      have first : p.puts (c :: text) = (p.putChar c).puts text := by
        rw [puts, List.foldl_cons, putc_plain plain, puts]
      obtain ⟨place, col, cells⟩ := ih rest inside'
      rw [first]
      refine ⟨by rw [place, next, List.length_cons]; omega, col, fun y x on => ?_⟩
      rw [cells y x on, next, putChar_cell inside on]
      by_cases here : colCnt * y + x = p.place
      · rw [if_neg (by omega), if_pos here, if_pos (by omega), here, Nat.sub_self, List.getElem?_cons_zero]
        rfl
      · rw [if_neg here]
        by_cases later : p.place + 1 ≤ colCnt * y + x
        · obtain ⟨k, far⟩ := Nat.exists_eq_add_of_lt later
          rw [if_pos later, if_pos (Nat.le_of_succ_le later), far, show p.place + k + 1 - p.place = k + 1 by omega,
            List.getElem?_cons_succ, show p.place + k + 1 - (p.place + 1) = k by omega]
        · rw [if_neg later, if_neg (by omega)]

/-- A text without control characters can be read on the screen: of each character that has not
been scrolled off, the place in the text says where it stands. -/
theorem text_on_screen (first : s.inited = false) (on : s.hardwareCursor < colCnt * rowCnt)
    (plain : ∀ c ∈ text, Plain c) : ∃ s', System.exec Screen.vgaPutc s text = some s' ∧
      ∀ i (h : i < text.length),
        let place := s.hardwareCursor + i
        let top := (s.hardwareCursor + text.length) / colCnt - (rowCnt - 1)
        top ≤ place / colCnt → cell s'.mem (place / colCnt - top) (place % colCnt) = (text[i], grayOnBlack) := by
  obtain ⟨s₁, ran₁, settled, _⟩ := (settled_init first on).puts text
  obtain ⟨s', ran, rfl⟩ := exec_of_init ran₁ settled.inited
  have col : (firstPage s).col < colCnt := Nat.mod_lt _ (by decide)
  have start : (firstPage s).place = s.hardwareCursor := Nat.div_add_mod s.hardwareCursor colCnt
  obtain ⟨place, _, cells⟩ := Page.puts_plain (p := firstPage s) plain col
  have mem := init_mem s'
  refine ⟨s', ran, fun i h => ?_⟩
  intro at_ top shown
  have rows := settled.shows.rows
  have last : ((firstPage s).puts text).row = (s.hardwareCursor + text.length) / colCnt := by
    rw [← start, ← place, Page.place, Nat.mul_add_div (by decide), Nat.div_eq_of_lt settled.shows.inside, Nat.add_zero]
  have top_eq : ((firstPage s).puts text).top = top := by rw [Page.top, last]
  have on' : at_ / colCnt - top < rowCnt := by
    have upper : at_ / colCnt ≤ (s.hardwareCursor + text.length) / colCnt := Nat.div_le_div_right (by omega)
    simp only [rowCnt, top] at *
    omega
  have left : at_ % colCnt < colCnt := Nat.mod_lt _ (by decide)
  have stands : colCnt * (at_ / colCnt) + at_ % colCnt = s.hardwareCursor + i := Nat.div_add_mod at_ colCnt
  rw [← mem, rows.cells _ on' _ left, top_eq, Nat.add_sub_cancel' shown, cells _ _ left, stands, start,
    if_pos (Nat.le_add_right _ _), Nat.add_sub_cancel_left, List.getElem?_eq_getElem h]
  rfl

theorem text_on_screen_of_corner : ∃ s', System.exec Screen.vgaPutc corner [65, 66] = some s' ∧
    cell s'.mem 23 79 = (65, grayOnBlack) ∧ cell s'.mem 24 0 = (66, grayOnBlack) := by
  have plain : ∀ c ∈ ([65, 66] : List UInt8), Plain c :=
    List.forall_mem_cons.mpr ⟨by decide, List.forall_mem_singleton.mpr (by decide)⟩
  have cursor : corner.hardwareCursor = 1999 := rfl
  obtain ⟨s', ran, reads⟩ := text_on_screen (s := corner) rfl (by decide) plain
  rw [cursor] at reads
  exact ⟨s', ran, reads 0 (by decide) (by decide), reads 1 (by decide) (by decide)⟩

end Texts
end CS162.Pintos.Vga
