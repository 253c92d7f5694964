import Mathlib.Data.Finite.Prod
import Mathlib.Dynamics.PeriodicPts.Lemmas
import CS162.Library.LittleEndian

/-!
The pseudo-random number generator (proj-pregame: lib/random.c), which is RC4. Its table is a
function of the index, which is a byte.
-/

namespace CS162.Pintos.Random
open CS162.Library Function

section Model

/-- The table and the two indices, `s_i` and `s_j`. -/
structure State where
  s : UInt8 → UInt8
  i : UInt8
  j : UInt8

/-- `swap_byte` of two elements of the table. -/
def swapByte (s : UInt8 → UInt8) (a b : UInt8) : UInt8 → UInt8 :=
  fun k => if k = a then s b else if k = b then s a else s k

/-- The second loop of `random_init`, over these indices. -/
def mix (seedp : Nat → UInt8) : List Nat → (s : UInt8 → UInt8) → (j : UInt8) → UInt8 → UInt8
  | [], s, _ => s
  | i :: rest, s, j =>
      let j := j + (s (UInt8.ofNat i) + seedp (i % 4))
      mix seedp rest (swapByte s (UInt8.ofNat i) j) j

/-- `random_init`, which reads the seed byte by byte. -/
def randomInit (seed : UInt32) : State where
  s := mix (fun k => (toBytes 4 seed.toNat).getD k 0) (List.range 256) id 0
  i := 0
  j := 0

/-- The two indices and the table after one byte. -/
def step (r : State) : State :=
  let i := r.i + 1
  let j := r.j + r.s i
  ⟨swapByte r.s i j, i, j⟩

/-- The byte that goes with this state. -/
def output (r : State) : UInt8 := r.s (r.s r.i + r.s r.j)

/-- The loop of `random_bytes`. -/
def bytes : Nat → State → List UInt8 × State
  | 0, r => ([], r)
  | size + 1, r =>
      let r := step r
      let (buf, r') := bytes size r
      (output r :: buf, r')

/-- `random_bytes`; before the first call of `random_init` there is no state. -/
def randomBytes (r : Option State) (size : Nat) : List UInt8 × Option State :=
  let (buf, r) := bytes size (r.getD (randomInit 0))
  (buf, some r)

/-- One request after the other. -/
def requests : Option State → List Nat → List (List UInt8) × Option State
  | r, [] => ([], r)
  | r, size :: sizes =>
      let (buf, r) := randomBytes r size
      let (bufs, r) := requests r sizes
      (buf :: bufs, r)

end Model

section Table
variable {s : UInt8 → UInt8} {r : State}

theorem swapByte_eq_comp (s : UInt8 → UInt8) (a b : UInt8) : swapByte s a b = s ∘ Equiv.swap a b := by
  funext k
  rw [swapByte, comp_apply, Equiv.swap_apply_def]
  split
  · rfl
  · split <;> rfl

theorem bijective_swapByte (h : Bijective s) (a b : UInt8) : Bijective (swapByte s a b) := by
  rw [swapByte_eq_comp]
  exact h.comp (Equiv.swap a b).bijective

theorem swapByte_swapByte (s : UInt8 → UInt8) (a b : UInt8) : swapByte (swapByte s a b) a b = s := by
  rw [swapByte_eq_comp, swapByte_eq_comp, comp_assoc, ← Equiv.coe_trans, Equiv.swap_swap]
  rfl

theorem bijective_mix {seedp : Nat → UInt8} {indices : List Nat} {j : UInt8} (h : Bijective s) :
    Bijective (mix seedp indices s j) := by
  induction indices generalizing s j with
  | nil => exact h
  | cons i rest ih => exact ih (bijective_swapByte h _ _)

theorem bijective_randomInit (seed : UInt32) : Bijective (randomInit seed).s := by
  simp only [randomInit]
  exact bijective_mix bijective_id

theorem bijective_iterate (h : Bijective r.s) (n : Nat) : Bijective (step^[n] r).s := by
  induction n with
  | zero => exact h
  | succ n ih =>
      rw [iterate_succ_apply']
      exact bijective_swapByte ih _ _

end Table

section Stream
variable {r : State}

theorem step_injective : Injective step := by
  intro r r' same
  obtain ⟨s, i, j⟩ := r
  obtain ⟨s', i', j'⟩ := r'
  simp only [step, State.mk.injEq] at same
  obtain ⟨table, first, second⟩ := same
  have i_eq : i = i' := (UInt8.add_left_inj 1).mp first
  rw [← second, ← i_eq] at table
  have s_eq : s = s' := by
    have undone := congrArg (fun t => swapByte t (i + 1) (j + s (i + 1))) table
    simpa only [swapByte_swapByte] using undone
  subst i_eq s_eq
  rw [(UInt8.add_left_inj _).mp second]

instance finiteByte : Finite UInt8 := Finite.of_injective UInt8.toFin fun _ _ same => UInt8.toFin_inj.mp same

instance finiteState : Finite State :=
  Finite.of_injective (fun r => (r.s, r.i, r.j)) fun r r' same => by
    cases r
    cases r'
    cases same
    rfl

/-- The bytes that a seed gives, one after the other. -/
def stream (seed : UInt32) (n : Nat) : UInt8 := output (step^[n + 1] (randomInit seed))

theorem bytes_eq (size : Nat) (r : State) :
    bytes size r = ((List.range size).map fun n => output (step^[n + 1] r), step^[size] r) := by
  induction size generalizing r with
  | zero => rfl
  | succ size ih =>
      rw [bytes, ih, List.range_succ_eq_map, List.map_cons, List.map_map]
      rfl

theorem requests_eq (sizes : List Nat) (r : State) : (requests (some r) sizes).2 = some (step^[sizes.sum] r) ∧
    (requests (some r) sizes).1.map List.length = sizes ∧
    (requests (some r) sizes).1.flatten = (List.range sizes.sum).map fun n => output (step^[n + 1] r) := by
  induction sizes generalizing r with
  | nil => exact ⟨rfl, rfl, rfl⟩
  | cons size sizes ih =>
      obtain ⟨after, lengths, texts⟩ := ih (step^[size] r)
      rw [requests, randomBytes, Option.getD_some, bytes_eq]
      refine ⟨?_, ?_, ?_⟩
      · rw [List.sum_cons, Nat.add_comm size, iterate_add_apply]
        exact after
      · rw [List.map_cons, lengths, List.length_map, List.length_range]
      · rw [List.flatten_cons, texts, List.sum_cons, List.range_add, List.map_append, List.map_map]
        congr 1
        apply List.map_congr_left
        intro n _
        rw [comp_apply, ← iterate_add_apply]
        congr 2
        omega

/-- However the bytes are asked for, each request returns as many as it asks for, and one after the other they are
one stream, which depends on the seed alone. It repeats from its first byte on, and after a whole period the state
is again what `random_init` has left; the table is a permutation of the bytes at all times. Without a call of
`random_init` the seed is 0. -/
theorem stream_of_requests (seed : UInt32) :
    (∃ period > 0, (∀ n, stream seed (n + period) = stream seed n) ∧
      ∀ sizes : List Nat, ∃ r, (requests (some (randomInit seed)) sizes).2 = some r ∧
        (requests (some (randomInit seed)) sizes).1.map List.length = sizes ∧
        (requests (some (randomInit seed)) sizes).1.flatten = (List.range sizes.sum).map (stream seed) ∧
        Bijective r.s ∧ (period ∣ sizes.sum → r = randomInit seed)) ∧
    ∀ sizes, sizes ≠ [] → requests none sizes = requests (some (randomInit 0)) sizes := by
  obtain ⟨period, pos, again⟩ := step_injective.mem_periodicPts (randomInit seed)
  refine ⟨⟨period, pos, fun n => ?_, fun sizes => ?_⟩, fun sizes some_request => ?_⟩
  · rw [stream, Nat.add_right_comm, iterate_add_apply, again.eq, stream]
  · obtain ⟨after, lengths, texts⟩ := requests_eq sizes (randomInit seed)
    refine ⟨_, after, lengths, texts, bijective_iterate (bijective_randomInit seed) _, fun whole => ?_⟩
    obtain ⟨rounds, total⟩ := whole
    rw [total]
    exact again.mul_const rounds
  · cases sizes with
    | nil => exact absurd rfl some_request
    | cons size sizes => rfl

end Stream
end CS162.Pintos.Random
