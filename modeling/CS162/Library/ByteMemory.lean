import Mathlib.Tactic.Ring

/-!
Byte-addressed memory: little-endian loads and stores of fixed width, filling
and copying, and which later reads each of them leaves alone.

Records of fixed-width fields: what is put into a field and what is read from it.
A field keeps its bytes when another one is written.
-/

namespace CS162.Library

abbrev Memory := Nat → UInt8

namespace Memory

/-- The number in the `n` bytes at `a`, least significant byte first. -/
def load (m : Memory) (a : Nat) : Nat → Nat
  | 0 => 0
  | n + 1 => (m a).toNat + 256 * load m (a + 1) n

/-- Store the low `n` bytes of `v` at `a`. -/
def store (m : Memory) (a n v : Nat) : Memory :=
  fun x => if a ≤ x ∧ x < a + n then UInt8.ofNat (v / 256 ^ (x - a)) else m x

def fill (m : Memory) (a n : Nat) (v : UInt8) : Memory :=
  fun x => if a ≤ x ∧ x < a + n then v else m x

def readBytes (m : Memory) (a : Nat) : Nat → List UInt8
  | 0 => []
  | n + 1 => m a :: readBytes m (a + 1) n

def writeBytes (m : Memory) (a : Nat) (bytes : List UInt8) : Memory :=
  fun x => if a ≤ x then bytes.getD (x - a) (m x) else m x

/-- Copy the `n` bytes at `b` of another memory to `a`. -/
def copy (m : Memory) (a : Nat) (src : Memory) (b n : Nat) : Memory :=
  fun x => if a ≤ x ∧ x < a + n then src (b + (x - a)) else m x

/-- The two memories agree outside the `n` bytes at `a`. -/
def SameOff (a n : Nat) (m m' : Memory) : Prop := ∀ x, x < a ∨ a + n ≤ x → m' x = m x

/-- The two memories agree on the `n` bytes at `a`. -/
def SameOn (a n : Nat) (m m' : Memory) : Prop := ∀ x, a ≤ x → x < a + n → m' x = m x

variable {m m' m'' : Memory} {a b n k v : Nat}

@[simp] theorem copy_zero (src : Memory) : m.copy a src b 0 = m := by
  funext x
  exact if_neg (by omega)

theorem copy_copy (src : Memory) (a b n k : Nat) :
    (m.copy a src b n).copy (a + n) src (b + n) k = m.copy a src b (n + k) := by
  funext x
  simp only [copy]
  by_cases first : a ≤ x ∧ x < a + n
  · rw [if_neg (by omega), if_pos first, if_pos (by omega)]
  · by_cases second : a + n ≤ x ∧ x < a + n + k
    · rw [if_pos second, if_pos (by omega), show b + n + (x - (a + n)) = b + (x - a) by omega]
    · rw [if_neg second, if_neg first, if_neg (by omega)]

theorem copy_congr {src src' : Memory} (same : ∀ x, x < n → src (b + x) = src' (k + x)) :
    m.copy a src b n = m.copy a src' k n := by
  funext x
  simp only [copy]
  split
  · exact same _ (by omega)
  · rfl

theorem SameOn.refl : SameOn a n m m := fun _ _ _ => rfl

theorem SameOn.trans (h : SameOn a n m m') (h' : SameOn a n m' m'') : SameOn a n m m'' :=
  fun x lower upper => (h' x lower upper).trans (h x lower upper)

theorem SameOn.mono (h : SameOn a n m m') (lower : a ≤ b) (upper : b + k ≤ a + n) :
    SameOn b k m m' :=
  fun x hl hu => h x (by omega) (by omega)

theorem SameOff.sameOn (h : SameOff a n m m') (apart : b + k ≤ a ∨ a + n ≤ b) :
    SameOn b k m m' :=
  fun x hl hu => h x (by omega)

theorem SameOff.trans (h : SameOff a n m m') (h' : SameOff a n m' m'') : SameOff a n m m'' :=
  fun x hx => (h' x hx).trans (h x hx)

theorem SameOff.mono (h : SameOff a n m m') (lower : b ≤ a) (upper : a + n ≤ b + k) :
    SameOff b k m m' :=
  fun x hx => h x (by omega)

theorem store_sameOff : SameOff a n m (m.store a n v) := by
  intro x hx
  simp only [store]
  rw [if_neg (by omega)]

theorem fill_sameOff {byte : UInt8} : SameOff a n m (m.fill a n byte) := by
  intro x hx
  simp only [fill]
  rw [if_neg (by omega)]

theorem fill_apply {byte : UInt8} {x : Nat} (lower : a ≤ x) (upper : x < a + n) :
    m.fill a n byte x = byte := by
  simp [fill, lower, upper]

theorem writeBytes_sameOff {bytes : List UInt8} :
    SameOff a bytes.length m (m.writeBytes a bytes) := by
  intro x hx
  simp only [writeBytes]
  split
  next lower =>
    rw [List.getD_eq_getElem?_getD, List.getElem?_eq_none (by omega)]
    rfl
  next => rfl

theorem load_congr (h : SameOn a n m m') : m'.load a n = m.load a n := by
  induction n generalizing a with
  | zero => rfl
  | succ n ih =>
      simp only [load]
      rw [h a (Nat.le_refl a) (by omega), ih (h.mono (by omega) (by omega))]

theorem load_store_apart (apart : b + k ≤ a ∨ a + n ≤ b) :
    (m.store a n v).load b k = m.load b k :=
  load_congr (store_sameOff.sameOn apart)

theorem load_store_tail (j : Nat) (hj : j + k = n) :
    (m.store a n v).load (a + j) k = v / 256 ^ j % 256 ^ k := by
  induction k generalizing j with
  | zero => simp [load, Nat.mod_one]
  | succ k ih =>
      have inside : a ≤ a + j ∧ a + j < a + n := by omega
      have byte : (m.store a n v (a + j)).toNat = v / 256 ^ j % 256 := by
        simp only [store, if_pos inside, Nat.add_sub_cancel_left]
        exact UInt8.toNat_ofNat' ..
      rw [load, byte, Nat.add_assoc, ih (j + 1) (by omega), Nat.pow_succ 256 j,
        ← Nat.div_div_eq_div_mul, Nat.pow_succ' (m := 256), Nat.mod_mul]

theorem load_store_self (hv : v < 256 ^ n) : (m.store a n v).load a n = v := by
  have := load_store_tail (m := m) (a := a) (v := v) (k := n) 0 (Nat.zero_add n)
  simpa [Nat.mod_eq_of_lt hv] using this

@[simp] theorem readBytes_length : (m.readBytes a n).length = n := by
  induction n generalizing a with
  | zero => rfl
  | succ n ih => simp [readBytes, ih]

theorem readBytes_congr (h : SameOn a n m m') : m'.readBytes a n = m.readBytes a n := by
  induction n generalizing a with
  | zero => rfl
  | succ n ih =>
      simp only [readBytes]
      rw [h a (Nat.le_refl a) (by omega), ih (h.mono (by omega) (by omega))]

theorem readBytes_add (k : Nat) :
    m.readBytes a (n + k) = m.readBytes a n ++ m.readBytes (a + n) k := by
  induction n generalizing a with
  | zero => rw [Nat.zero_add, Nat.add_zero, readBytes, List.nil_append]
  | succ n ih =>
      rw [Nat.succ_add, readBytes, readBytes, ih, List.cons_append, Nat.add_right_comm, Nat.add_assoc a n 1]

theorem readBytes_shift (h : ∀ x < n, m' (b + x) = m (a + x)) :
    m'.readBytes b n = m.readBytes a n := by
  induction n generalizing a b with
  | zero => rfl
  | succ n ih =>
      have first := h 0 (Nat.succ_pos n)
      rw [readBytes, readBytes, show m' b = m a from first, ih]
      intro x inside
      rw [Nat.add_assoc, Nat.add_assoc, Nat.add_comm 1 x]
      exact h (x + 1) (Nat.succ_lt_succ inside)

theorem take_readBytes (less : k ≤ n) : (m.readBytes a n).take k = m.readBytes a k := by
  obtain ⟨rest, rfl⟩ := Nat.exists_eq_add_of_le less
  rw [readBytes_add, List.take_append_of_le_length (Nat.le_of_eq readBytes_length.symm)]
  exact List.take_of_length_le (Nat.le_of_eq readBytes_length)

theorem getElem?_readBytes {i : Nat} (inside : i < n) : (m.readBytes a n)[i]? = some (m (a + i)) := by
  induction n generalizing a i with
  | zero => exact absurd inside (Nat.not_lt_zero i)
  | succ n ih =>
      cases i with
      | zero => rfl
      | succ i =>
          rw [readBytes, List.getElem?_cons_succ, ih (Nat.lt_of_succ_lt_succ inside)]
          rw [Nat.add_right_comm, Nat.add_assoc]

theorem writeBytes_readBytes {i : Nat} (inside : i < n) :
    m.writeBytes b (m'.readBytes a n) (b + i) = m' (a + i) := by
  rw [writeBytes, if_pos (Nat.le_add_right b i), Nat.add_sub_cancel_left, List.getD_eq_getElem?_getD,
    getElem?_readBytes inside, Option.getD_some]

end Memory

/-- A field, by its offset in the record and its width. -/
structure Field where
  ofs : Nat
  width : Nat

/-- The fields have no byte in common. -/
def Field.Apart (f g : Field) : Prop := f.ofs + f.width ≤ g.ofs ∨ g.ofs + g.width ≤ f.ofs

instance (f g : Field) : Decidable (f.Apart g) := inferInstanceAs (Decidable (_ ∨ _))

namespace Memory
variable {m m' : Memory} {f g : Field} {bytes : List UInt8}

def field (m : Memory) (f : Field) : List UInt8 := m.readBytes f.ofs f.width

def put (m : Memory) (f : Field) (bytes : List UInt8) : Memory := m.writeBytes f.ofs bytes

/-- A string and the zero behind it, cut off at the end of the field. -/
def putString (m : Memory) (f : Field) (s : List UInt8) : Memory :=
  m.put f (s.take (f.width - 1) ++ [0])

theorem writeBytes_apply (a : Nat) (bytes : List UInt8) (x : Nat) :
    m.writeBytes a bytes x =
      if a ≤ x then if h : x - a < bytes.length then bytes.get ⟨x - a, h⟩ else m x else m x := by
  simp only [writeBytes]
  split
  next =>
    rw [List.getD_eq_getElem?_getD]
    split
    next inside => rw [List.getElem?_eq_getElem inside]; rfl
    next outside => rw [List.getElem?_eq_none (Nat.not_lt.mp outside)]; rfl
  next => rfl

theorem getElem_readBytes {a n i : Nat} (h : i < (m.readBytes a n).length) :
    (m.readBytes a n)[i] = m (a + i) := by
  induction n generalizing a i with
  | zero => exact absurd h (Nat.not_lt_zero i)
  | succ n ih =>
      cases i with
      | zero => rfl
      | succ i =>
          simp only [readBytes, List.getElem_cons_succ, ih]
          rw [Nat.add_right_comm, Nat.add_assoc]

@[simp] theorem length_field : (m.field f).length = f.width := readBytes_length

theorem getElem_field {i : Nat} (h : i < (m.field f).length) : (m.field f)[i] = m (f.ofs + i) :=
  getElem_readBytes h

theorem field_congr (same : SameOn f.ofs f.width m m') : m'.field f = m.field f :=
  readBytes_congr same

theorem field_put (fits : bytes.length ≤ f.width) :
    (m.put f bytes).field f = bytes ++ (m.field f).drop bytes.length := by
  apply List.ext_getElem
  · simp only [length_field, List.length_append, List.length_drop]
    omega
  · intro i inside _
    rw [getElem_field, put, writeBytes_apply, if_pos (Nat.le_add_right ..), List.getElem_append]
    simp only [Nat.add_sub_cancel_left]
    split
    next => rfl
    next long =>
      rw [List.getElem_drop, getElem_field]
      congr 1
      omega

theorem put_sameOff (fits : bytes.length ≤ f.width) : SameOff f.ofs f.width m (m.put f bytes) :=
  writeBytes_sameOff.mono (Nat.le_refl _) (by omega)

theorem field_put_apart (fits : bytes.length ≤ f.width) (apart : f.Apart g) :
    (m.put f bytes).field g = m.field g :=
  field_congr ((put_sameOff fits).sameOn apart.symm)

theorem length_putString (pos : 0 < f.width) (s : List UInt8) :
    (s.take (f.width - 1) ++ [0]).length ≤ f.width := by
  simp only [List.length_append, List.length_take, List.length_singleton]
  omega

theorem putString_sameOff (pos : 0 < f.width) (s : List UInt8) :
    SameOff f.ofs f.width m (m.putString f s) := put_sameOff (length_putString pos s)

theorem field_putString_apart (pos : 0 < f.width) (s : List UInt8) (apart : f.Apart g) :
    (m.putString f s).field g = m.field g := field_put_apart (length_putString pos s) apart

theorem field_putString {s : List UInt8} (fits : s.length < f.width) :
    (m.putString f s).field f = s ++ 0 :: (m.field f).drop (s.length + 1) := by
  have whole : s.take (f.width - 1) = s := List.take_of_length_le (by omega)
  have room : (s ++ [0]).length ≤ f.width := by
    rw [List.length_append, List.length_singleton]
    exact fits
  rw [putString, whole, field_put room]
  simp

theorem field_fill_zero {a n : Nat} (lower : a ≤ f.ofs) (upper : f.ofs + f.width ≤ a + n) :
    (m.fill a n 0).field f = List.replicate f.width 0 := by
  apply List.ext_getElem
  · rw [length_field, List.length_replicate]
  · intro i inside _
    rw [length_field] at inside
    rw [getElem_field, List.getElem_replicate, fill_apply (by omega) (by omega)]

end Memory
end CS162.Library
