import CS162.MapReduce.TaskHandler

/-!
The vertex-degree application (hw-map-reduce: vertex_degree.c). Its keys are the
bytes of an `int`, so most of them contain zero bytes.

The file's contents are read as a string; the end of the list and a zero byte
both end it, and neither is a digit. The sum of the values does not overflow.
-/

namespace CS162.MapReduce
open CS162.Library

def isspace (c : UInt8) : Bool := c = 0x20 || (0x09 ≤ c && c ≤ 0x0d)

def isdigit (c : UInt8) : Bool := 0x30 ≤ c && c ≤ 0x39

/-- The sign that `strtol` reads, and what follows it. -/
def strtolSign : List UInt8 → Int × List UInt8
  | 0x2d :: s => (-1, s)
  | 0x2b :: s => (1, s)
  | s => (1, s)

/-- `strtol` in base 10: the number and what follows it, or `none` where it
reads nothing. -/
def strtol (s : List UInt8) : Option (Int × List UInt8) :=
  let (sign, s) := strtolSign (s.dropWhile isspace)
  let digits := s.takeWhile isdigit
  if digits = [] then none
  else
    let n : Nat := digits.foldl (fun n c => 10 * n + (c.toNat - 0x30)) 0
    some (max (-2 ^ 63) (min (2 ^ 63 - 1) (sign * n)), s.dropWhile isdigit)

def getPair (contents : List UInt8) : Option ((Int × Int) × List UInt8) :=
  match strtol contents with
  | none => none
  | some (a, next) =>
      match strtol next with
      | none => none
      | some (b, next) => some ((toInt32 a, toInt32 b), next)

theorem strtolSign_length_le (s : List UInt8) : (strtolSign s).2.length ≤ s.length := by
  unfold strtolSign
  split <;> simp

theorem strtol_length_lt {s next : List UInt8} {a : Int} (h : strtol s = some (a, next)) :
    next.length < s.length := by
  have sign := strtolSign_length_le (s.dropWhile isspace)
  have spaces := (List.dropWhile_sublist isspace (l := s)).length_le
  simp only [strtol] at h
  split at h
  · cases h
  · next digits =>
      cases h
      have parts := congrArg List.length
        (List.takeWhile_append_dropWhile (p := isdigit) (l := (strtolSign (s.dropWhile isspace)).2))
      have := List.length_pos_iff.mpr digits
      rw [List.length_append] at parts
      omega

theorem getPair_length_lt {contents next : List UInt8} {p : Int × Int}
    (h : getPair contents = some (p, next)) : next.length < contents.length := by
  unfold getPair at h
  split at h
  · cases h
  · next first =>
      split at h
      · cases h
      · next second =>
          cases h
          exact (strtol_length_lt second).trans (strtol_length_lt first)

def getPairs (contents : List UInt8) : List (Int × Int) :=
  match _ : getPair contents with
  | none => []
  | some (p, next) => p :: getPairs next
termination_by contents.length
decreasing_by exact getPair_length_lt ‹_›

theorem getPairs_of_none {contents : List UInt8} (h : getPair contents = none) :
    getPairs contents = [] := by
  rw [getPairs]
  split
  · rfl
  · next read => rw [h] at read; cases read

theorem getPairs_of_some {contents next : List UInt8} {p : Int × Int}
    (h : getPair contents = some (p, next)) : getPairs contents = p :: getPairs next := by
  rw [getPairs]
  split
  · next read => rw [h] at read; cases read
  · next read => rw [h] at read; cases read; rfl

/-- The bytes of an `int` in memory. -/
def intBuffer (x : Int) : Buffer where
  bytes := toBytes 4 (toUInt32 x)
  fits := by
    rw [toBytes_length]
    decide

def vertexDegreeMap (input : KeyValue) (_aux : Buffer) : List KeyValue :=
  (getPairs input.value.bytes).flatMap fun p =>
    [⟨intBuffer p.1, intBuffer 1⟩, ⟨intBuffer p.2, intBuffer 1⟩]

def vertexDegreeReduce (key : Buffer) (input : List KeyValue) (_aux : Buffer) : KeyValue where
  key := key
  value := intBuffer (input.map fun kv => toInt32 (ofBytes (kv.value.bytes.take 4))).sum

def vertexDegree : App where
  map := vertexDegreeMap
  reduce := vertexDegreeReduce

end CS162.MapReduce
