import CS162.Pintos.KernelMemoryFrames

/-!
What the callers of malloc.c get, over whole runs: `malloc` and `calloc` give enough room unless a
size wraps, and `realloc` keeps the bytes that the old block has. A size that wraps gets a block
of one page, which is a block like any other for the heap, so these runs go on.
-/

namespace CS162.Pintos.KernelHeap
open CS162.Library Memory

/-- The heap does not know what was asked for. -/
def Block.unsized (x : Block) : Block := ⟨x.ptr, 0⟩

def KernelWorld.Steady (w : KernelWorld) : Prop :=
  Consistent ⟨w.kernel.heap, w.live.map Block.unsized, w.foreign⟩

section Calls
variable {k k' : Kernel} {live : List Block} {foreign : List Nat} {p : Option Nat} {size b n : Nat}

theorem room_eq (sized : k.heap.blockSize b = .ok n) : k.room b = n := by
  rw [Kernel.room, sized]

theorem Kernel.Keeps.room_eq (keeps : k.Keeps k' b) : k'.room b = k.room b := by
  rw [Kernel.room, Kernel.room, keeps.room]

/-- What `malloc` of any size gives, and the state after it. -/
structure Mallocs (k : Kernel) (live : List Block) (foreign : List Nat) (size : Nat)
    (p : Option Nat) (k' : Kernel) : Prop where
  run : k.malloc size = some (p, k')
  steady : Consistent (World.add ⟨k.heap, live, foreign⟩ (p, k'.heap) 0)
  keeps : ∀ x ∈ live, k.Keeps k' x.ptr
  memory : p.isSome = true ↔ k.heap.HasMemory size
  room : ∀ b, p = some b → ∃ n, k'.heap.blockSize b = .ok n ∧ n + arenaSize < 2 ^ 32 ∧
    (size ≤ n ↔ size + 11 < 2 ^ 32)

theorem Kernel.mallocs (size : Nat) (c : Consistent ⟨k.heap, live, foreign⟩) (bounded : size < 2 ^ 32) :
    ∃ p k', Mallocs k live foreign size p k' := by
  obtain ⟨⟨p, h'⟩, run, c', room⟩ := c.malloc_any bounded
  obtain ⟨k', done, same, keeps⟩ := Kernel.malloc_keeps c run
  subst same
  refine ⟨p, k', done, c', keeps, malloc_isSome run, fun b new => ?_⟩
  obtain ⟨n, sized, enough⟩ := room b new
  subst new
  obtain ⟨n', _, sized', _, small, _⟩ := c'.sound.blockSize (x := ⟨b, 0⟩) List.mem_cons_self
  have sized' : k'.heap.blockSize b = .ok n' := sized'
  cases sized.symm.trans sized'
  exact ⟨n, sized, small, enough⟩

theorem memset_eq (sized : k.heap.blockSize b = .ok n) (byte : UInt8) (size : Nat) :
    k.memset b byte size =
      if size ≤ n then some { k with mem := k.mem.fill b size byte } else none := by
  rw [Kernel.memset, sized]
  rfl

theorem memcpy_eq {dst src m : Nat} (room : k.heap.blockSize dst = .ok n)
    (sized : k.heap.blockSize src = .ok m) (size : Nat) :
    k.memcpy dst src size = if size ≤ n ∧ size ≤ m then
      some { k with mem := k.mem.copy dst k.mem src size } else none := by
  rw [Kernel.memcpy, room, sized]
  rfl

/-- `calloc` fails early, like `malloc`, or clears as much as the product wrapped to. -/
theorem Kernel.calloc_cases (c : Consistent ⟨k.heap, live, foreign⟩) (a b : Nat) :
    ((a * b % 2 ^ 32 < a ∨ a * b % 2 ^ 32 < b) ∧ k.calloc a b = some (none, k)) ∨
    ¬ (a * b % 2 ^ 32 < a ∨ a * b % 2 ^ 32 < b) ∧ ∃ p k',
      Mallocs k live foreign (a * b % 2 ^ 32) p k' ∧
      (p = none ∧ k.calloc a b = some (none, k') ∨
        ∃ q n, p = some q ∧ k'.heap.blockSize q = .ok n ∧ n + arenaSize < 2 ^ 32 ∧
          (a * b % 2 ^ 32 ≤ n ↔ a * b % 2 ^ 32 + 11 < 2 ^ 32) ∧
          k.calloc a b = if a * b % 2 ^ 32 ≤ n then
            some (some q, { k' with mem := k'.mem.fill q (a * b % 2 ^ 32) 0 }) else none) := by
  have bounded : a * b % 2 ^ 32 < 2 ^ 32 := Nat.mod_lt _ (Nat.two_pow_pos 32)
  simp only [Kernel.calloc]
  generalize a * b % 2 ^ 32 = size at bounded ⊢
  by_cases small : size < a ∨ size < b
  · rw [if_pos small]
    exact .inl ⟨small, rfl⟩
  · rw [if_neg small]
    obtain ⟨p, k', m⟩ := Kernel.mallocs _ c bounded
    refine .inr ⟨small, p, k', m, ?_⟩
    simp only [m.run, bind, Option.bind]
    cases p with
    | none => exact .inl ⟨rfl, rfl⟩
    | some q =>
        obtain ⟨n, sized, less, enough⟩ := m.room q rfl
        refine .inr ⟨q, n, rfl, sized, less, enough, ?_⟩
        by_cases fits : size ≤ n
        · simp only [memset_eq sized, if_pos fits]
          rfl
        · simp only [memset_eq sized, if_neg fits]

theorem Mallocs.fresh {q : Nat} (m : Mallocs k live foreign size (some q) k') :
    q ∉ live.map Block.ptr := by
  have unique := m.steady.sound.unique
  rw [World.add, List.map_cons, List.nodup_cons] at unique
  exact unique.1

/-- What `realloc` of a block in use does, if the new block has room for what is copied. -/
structure Reallocs (k k' : Kernel) (live : List Block) (foreign : List Nat) (b q n s : Nat) : Prop where
  steady : Consistent ⟨k'.heap, (⟨q, 0⟩ :: live).filter fun x => some x.ptr ≠ some b, foreign⟩
  freed : ∃ h, h.free (some b) = .ok k'.heap ∧ Consistent ⟨h, ⟨q, 0⟩ :: live, foreign⟩ ∧
    h.blockSize b = k.heap.blockSize b
  keeps : ∀ x ∈ live, x.ptr ≠ b → k.Keeps k' x.ptr
  room : k'.heap.blockSize q = .ok n
  copied : ∀ i < s, k'.mem (q + i) = k.mem (b + i)

theorem Kernel.realloc_cases (c : Consistent ⟨k.heap, live, foreign⟩) (used : b ∈ live.map Block.ptr)
    (some_bytes : size ≠ 0) (bounded : size < 2 ^ 32) :
    ∃ p k₁, Mallocs k live foreign size p k₁ ∧
      (p = none ∧ k.realloc (some b) size = some (none, k₁) ∨
        ∃ q n m, p = some q ∧ k₁.heap.blockSize q = .ok n ∧ k.heap.blockSize b = .ok m ∧
          (size ≤ n ↔ size + 11 < 2 ^ 32) ∧
          if min size m ≤ n then ∃ k', k.realloc (some b) size = some (some q, k') ∧
            Reallocs k k' live foreign b q n (min size m)
          else k.realloc (some b) size = none) := by
  obtain ⟨p, k₁, m⟩ := Kernel.mallocs _ c bounded
  refine ⟨p, k₁, m, ?_⟩
  simp only [Kernel.realloc, if_neg some_bytes, m.run, bind, Option.bind]
  cases p with
  | none => exact .inl ⟨rfl, rfl⟩
  | some q =>
      obtain ⟨x, inside, rfl⟩ := List.mem_map.mp used
      obtain ⟨old, _, sized, _⟩ := c.sound.blockSize inside
      have sized : k.heap.blockSize x.ptr = .ok old := sized
      have sized₁ : k₁.heap.blockSize x.ptr = .ok old := (m.keeps x inside).room.trans sized
      obtain ⟨n, room, _, enough⟩ := m.room q rfl
      refine .inr ⟨q, n, old, rfl, room, sized, enough, ?_⟩
      have least : (if size < old then size else old) = min size old := by
        rw [Nat.min_def]
        split <;> split <;> omega
      simp only [sized₁, Except.toOption, memcpy_eq room sized₁, least]
      have c₁ : Consistent ⟨k₁.heap, ⟨q, 0⟩ :: live, foreign⟩ := m.steady
      have fresh := m.fresh
      have differ : q ≠ x.ptr := fun same => fresh (same ▸ used)
      split
      next fits =>
        rw [if_pos ⟨fits, Nat.min_le_right size old⟩]
        let k₂ : Kernel := { k₁ with mem := k₁.mem.copy q k₁.mem x.ptr (min size old) }
        have c₂ : Consistent ⟨k₂.heap, ⟨q, 0⟩ :: live, foreign⟩ := c₁
        obtain ⟨k₃, freed, same, keeps⟩ := Kernel.free_keeps c₂ (List.mem_cons_of_mem _ used)
        obtain ⟨h', freed', c₃⟩ := Consistent.free c₂ (p := some x.ptr)
          fun b eq => Option.some.inj eq ▸ List.mem_cons_of_mem _ used
        cases same.symm.trans freed'
        have kept := keeps ⟨q, 0⟩ List.mem_cons_self differ
        refine ⟨k₃, by simp only [k₂] at freed; simp only [freed]; rfl, c₃, ?_, fun y live other => ?_,
          kept.room.trans room, fun i less => ?_⟩
        · exact ⟨k₂.heap, same, c₂, (m.keeps x inside).room⟩
        · refine (m.keeps y live).trans ?_
          have copied : k₁.Keeps k₂ y.ptr → k₁.Keeps k₃ y.ptr :=
            fun kept => kept.trans (keeps y (List.mem_cons_of_mem _ live) other)
          refine copied ⟨rfl, fun n' sized' z lower upper => ?_⟩
          have aside : q ≠ y.ptr := fun same => fresh (same ▸ List.mem_map_of_mem live)
          have beside : q + n ≤ y.ptr ∨ y.ptr + n' ≤ q :=
            c₁.disjoint (x := ⟨q, 0⟩) (y := y) List.mem_cons_self (List.mem_cons_of_mem _ live)
              aside room sized'
          simp only [k₂, copy]
          rw [if_neg (by omega)]
        · have moved : k₃.mem (q + i) = k₂.mem (q + i) :=
            kept.same n room (q + i) (Nat.le_add_right q i)
              (Nat.add_lt_add_left (Nat.lt_of_lt_of_le less fits) q)
          have same : k₁.mem (x.ptr + i) = k.mem (x.ptr + i) :=
            (m.keeps x inside).same old sized (x.ptr + i) (Nat.le_add_right _ i) (by omega)
          rw [moved, ← same]
          show (if q ≤ q + i ∧ q + i < q + min size old then _ else _) = _
          rw [if_pos ⟨Nat.le_add_right q i, Nat.add_lt_add_left less q⟩, Nat.add_sub_cancel_left]
      next short => rw [if_neg fun both => short both.1]

end Calls

section Run
variable {w w' : KernelWorld} {e : Event}

theorem mem_ptrs {b : Nat} : b ∈ (w.live.map Block.unsized).map Block.ptr ↔ b ∈ w.ptrs := by
  rw [List.map_map]
  rfl

theorem map_unsized_filter (p : Option Nat) :
    (w.live.filter fun x => some x.ptr ≠ p).map Block.unsized =
      (w.live.map Block.unsized).filter fun x => some x.ptr ≠ p := by
  rw [List.filter_map]
  rfl

/-- A step: blocks in use are old, with the room they had, or have the room that was asked for. -/
structure KernelWorld.Stepped (w w' : KernelWorld) : Prop where
  steady : w'.Steady
  origin : ∀ x ∈ w'.live, x ∈ w.live ∧ w'.kernel.room x.ptr = w.kernel.room x.ptr ∨
    (x.size + 11 < 2 ^ 32 → x.size ≤ w'.kernel.room x.ptr)

theorem KernelWorld.Stepped.add {k : Kernel} {p : Option Nat} {size : Nat}
    (c : Consistent (World.add ⟨w.kernel.heap, w.live.map Block.unsized, w.foreign⟩ (p, k.heap) 0))
    (keeps : ∀ x ∈ w.live.map Block.unsized, w.kernel.Keeps k x.ptr)
    (room : ∀ b, p = some b → size + 11 < 2 ^ 32 → size ≤ k.room b) : w.Stepped (w.add (p, k) size) := by
  have old (x : Block) (live : x ∈ w.live) : x ∈ w.live ∧ k.room x.ptr = w.kernel.room x.ptr :=
    ⟨live, (keeps x.unsized (List.mem_map_of_mem live)).room_eq⟩
  cases p with
  | none => exact ⟨c, fun x live => .inl (old x live)⟩
  | some b =>
      refine ⟨c, fun x live => ?_⟩
      cases List.mem_cons.mp live with
      | inl new =>
          subst new
          exact .inr (room b rfl)
      | inr live => exact .inl (old x live)

theorem KernelWorld.Stepped.malloc {k : Kernel} {p : Option Nat} {size : Nat}
    (m : Mallocs w.kernel (w.live.map Block.unsized) w.foreign size p k) :
    w.Stepped (w.add (p, k) size) := by
  refine .add m.steady m.keeps fun b same fits => ?_
  obtain ⟨n, sized, _, enough⟩ := m.room b same
  rw [room_eq sized]
  exact enough.mpr fits

theorem KernelWorld.Steady.calloc (c : w.Steady) {a b : Nat}
    (run : w.perform (.call (.calloc a b)) = some w') : w.Stepped w' := by
  have c' : Consistent ⟨w.kernel.heap, w.live.map Block.unsized, w.foreign⟩ := c
  obtain ⟨_, done⟩ | ⟨_, p, k, m, ⟨none, done⟩ | ⟨q, n, some, sized, _, enough, done⟩⟩ :=
    Kernel.calloc_cases c' a b
  · simp only [KernelWorld.perform, done] at run
    cases run
    exact ⟨c, fun x live => .inl ⟨live, rfl⟩⟩
  · simp only [KernelWorld.perform, done] at run
    cases run
    subst none
    refine ⟨m.steady, fun x live => .inl ⟨live, ?_⟩⟩
    exact (m.keeps x.unsized (List.mem_map_of_mem live)).room_eq
  · simp only [KernelWorld.perform, done] at run
    subst some
    split at run
    next fits =>
      cases run
      have keeps : ∀ x ∈ w.live.map Block.unsized, w.kernel.Keeps k x.ptr := m.keeps
      refine ⟨m.steady, fun x live => ?_⟩
      cases List.mem_cons.mp live with
      | inl new =>
          subst new
          refine .inr fun small => ?_
          have small : a * b + 11 < 2 ^ 32 := small
          show a * b ≤ k.room q
          rw [Nat.mod_eq_of_lt (by omega)] at fits
          rw [room_eq sized]
          exact fits
      | inr live => exact .inl ⟨live, (keeps x.unsized (List.mem_map_of_mem live)).room_eq⟩
    next => cases run

theorem KernelWorld.Steady.free (c : w.Steady) {k : Kernel} {p : Option Nat}
    (used : ∀ b, p = some b → b ∈ w.ptrs) (run : w.kernel.free p = some k) :
    w.Stepped { w.drop p with kernel := k } := by
  have c : Consistent ⟨w.kernel.heap, w.live.map Block.unsized, w.foreign⟩ := c
  have used' : ∀ b, p = some b → b ∈ (w.live.map Block.unsized).map Block.ptr :=
    fun b same => mem_ptrs.mpr (used b same)
  obtain ⟨h', freed, c'⟩ := Consistent.free c used'
  rw [← map_unsized_filter] at c'
  cases p with
  | none =>
      cases run
      cases freed
      exact ⟨c', fun x live => .inl ⟨List.mem_of_mem_filter live, rfl⟩⟩
  | some b =>
      obtain ⟨k', done, same, keeps⟩ := Kernel.free_keeps c (used' b rfl)
      cases run.symm.trans done
      cases same.symm.trans freed
      refine ⟨c', fun x live => ?_⟩
      obtain ⟨live, other⟩ := List.mem_filter.mp live
      have kept := keeps x.unsized (List.mem_map_of_mem live) (by simpa [Block.unsized] using other)
      exact .inl ⟨live, kept.room_eq⟩

theorem KernelWorld.Steady.realloc (c : w.Steady) {old : Option Nat} {size : Nat}
    (used : ∀ b, old = some b → b ∈ w.ptrs) (bounded : size < 2 ^ 32)
    (run : w.perform (.call (.realloc old size)) = some w') : w.Stepped w' := by
  have c' : Consistent ⟨w.kernel.heap, w.live.map Block.unsized, w.foreign⟩ := c
  rw [KernelWorld.perform] at run
  by_cases empty : size = 0
  · rw [Kernel.realloc, if_pos empty] at run
    cases freed : w.kernel.free old with
    | none =>
        rw [freed] at run
        cases run
    | some k =>
        rw [freed] at run
        simp only [bind, Option.bind, empty, true_or, if_true] at run
        cases run
        exact c.free used freed
  · cases old with
    | none =>
        obtain ⟨p, k, m⟩ := Kernel.mallocs _ c' bounded
        have same : w.drop none = w := by
          rw [KernelWorld.drop, List.filter_eq_self.mpr fun x _ => by simp]
        have done : w.kernel.realloc none size = some (p, k) := by
          simp only [Kernel.realloc, if_neg empty, m.run]
          rfl
        rw [done] at run
        simp only [bind, Option.bind, same, ite_self] at run
        cases run
        exact .malloc m
    | some b =>
        obtain ⟨p, k₁, m, ⟨none, done⟩ | ⟨q, n, old, some, _, _, enough, rest⟩⟩ :=
          Kernel.realloc_cases c' (mem_ptrs.mpr (used b rfl)) empty bounded
        · rw [done] at run
          simp only [bind, Option.bind, empty, Option.isSome_none, Bool.false_eq_true, or_self, if_false]
            at run
          cases run
          subst none
          exact .malloc m
        · split at rest
          next =>
            obtain ⟨k', done, moved⟩ := rest
            rw [done] at run
            simp only [bind, Option.bind, Option.isSome_some, or_true, if_true] at run
            cases run
            subst some
            have differ : q ≠ b := fun same => m.fresh (same ▸ mem_ptrs.mpr (used b rfl))
            have steady := moved.steady
            rw [List.filter_cons, if_pos (by simpa using differ), ← map_unsized_filter] at steady
            refine ⟨steady, fun x live => ?_⟩
            cases List.mem_cons.mp live with
            | inl new =>
                subst new
                refine .inr fun fits => ?_
                show size ≤ k'.room q
                rw [room_eq moved.room]
                exact enough.mpr fits
            | inr live =>
                obtain ⟨live, other⟩ := List.mem_filter.mp live
                have kept := moved.keeps x.unsized (List.mem_map_of_mem live)
                  (by simpa [Block.unsized] using other)
                exact .inl ⟨live, kept.room_eq⟩
          next =>
            rw [rest] at run
            cases run

theorem KernelWorld.Steady.perform (c : w.Steady) (fine : w.allows e = true)
    (run : w.perform e = some w') : w.Stepped w' := by
  have c' : Consistent ⟨w.kernel.heap, w.live.map Block.unsized, w.foreign⟩ := c
  cases e with
  | store addr byte =>
      cases run
      exact ⟨c, fun x live => .inl ⟨live, rfl⟩⟩
  | call a =>
    cases a with
    | malloc size =>
        obtain ⟨p, k, m⟩ := Kernel.mallocs size c' (by simpa [KernelWorld.allows] using fine)
        simp only [KernelWorld.perform, m.run] at run
        cases run
        exact .malloc m
    | calloc a b =>
        exact c.calloc run
    | realloc old size =>
        simp only [KernelWorld.allows, Bool.and_eq_true, decide_eq_true_eq, Option.all_eq_true] at fine
        exact c.realloc fine.2 fine.1 run
    | free p =>
        simp only [KernelWorld.allows, Option.all_eq_true, decide_eq_true_eq] at fine
        cases freed : w.kernel.free p with
        | none =>
            simp only [KernelWorld.perform, freed] at run
            cases run
        | some k =>
            simp only [KernelWorld.perform, freed] at run
            cases run
            exact c.free fine freed
    | takePages cnt =>
        obtain ⟨u, done, c''⟩ := Consistent.perform c' (a := .takePages cnt) rfl
        simp only [KernelWorld.perform] at run
        simp only [World.perform] at done
        split at run
        next => cases run
        next got =>
          cases run
          rw [got] at done
          cases done
          exact ⟨c'', fun x live => .inl ⟨live, rfl⟩⟩
        next got =>
          cases run
          rw [got] at done
          cases done
          exact ⟨c'', fun x live => .inl ⟨live, rfl⟩⟩
    | givePage page =>
        have theirs : page ∈ w.foreign := by simpa [KernelWorld.allows] using fine
        obtain ⟨u, done, c''⟩ := Consistent.perform c' (a := .givePage page) (decide_eq_true theirs)
        simp only [World.perform] at done
        split at done
        next => cases done
        next pool freed =>
          cases done
          simp only [KernelWorld.perform, Kernel.pallocFreeMultiple_eq freed] at run
          cases run
          have gone : w.kernel.heap.arena page = none := by
            by_contra some
            obtain ⟨a, there⟩ := Option.ne_none_iff_exists'.mp some
            exact c'.shares.apart page page (c'.sound.covers_self there) theirs
          have same : { w.kernel.heap with pool := pool }.setArena page none =
              { w.kernel.heap with pool := pool } := by
            rw [Heap.setArena, ← gone, Function.update_eq_self]
          rw [same]
          exact ⟨c'', fun x live => .inl ⟨live, rfl⟩⟩

/-- Every block has the room that was asked for, unless the size wrapped. -/
def KernelWorld.Served (w : KernelWorld) : Prop :=
  ∀ x ∈ w.live, x.size + 11 < 2 ^ 32 → x.size ≤ w.kernel.room x.ptr

theorem steady_served_of_reachable (h : kernelMemory.Reachable w) : w.Steady ∧ w.Served := by
  refine h.invariant (I := fun w => w.Steady ∧ w.Served) (fun w start => ?_) fun w e w' c step => ?_
  · obtain ⟨descs, gone, idle, used⟩ := start
    have idle : w.live = [] := idle
    refine ⟨started_consistent ⟨descs, gone, ?_, used⟩, fun x live => ?_⟩
    · show w.live.map Block.unsized = []
      rw [idle]
      rfl
    · rw [idle] at live
      cases live
  · have step : w.next e = some w' := step
    rw [KernelWorld.next] at step
    split at step
    next fine =>
      have stepped := c.1.perform fine step
      refine ⟨stepped.steady, fun x live fits => ?_⟩
      cases stepped.origin x live with
      | inl old =>
          rw [old.2]
          exact c.2 x old.1 fits
      | inr new => exact new fits
    next => cases step

theorem steady_of_reachable (h : kernelMemory.Reachable w) : w.Steady :=
  (steady_served_of_reachable h).1

end Run

/-- A null pointer, or room for so many bytes. -/
def KernelWorld.MallocServes (w : KernelWorld) (size : Nat) : Prop :=
  ∃ p k, w.kernel.malloc size = some (p, k) ∧ ∀ q, p = some q → size ≤ k.room q

/-- A null pointer, or room for the product, all zeros. -/
def KernelWorld.CallocServes (w : KernelWorld) (a b : Nat) : Prop :=
  ∃ p k, w.kernel.calloc a b = some (p, k) ∧ ∀ q, p = some q →
    a * b ≤ k.room q ∧ ∀ i < a * b, k.mem (q + i) = 0

section Serves
variable {w : KernelWorld}

theorem KernelWorld.Steady.mallocServes_iff (c : w.Steady) {size : Nat} (bounded : size < 2 ^ 32) :
    w.MallocServes size ↔ size + 11 < 2 ^ 32 ∨ ¬ w.kernel.heap.HasMemory size := by
  obtain ⟨p, k, m⟩ := Kernel.mallocs _ c bounded
  have exact_case : w.MallocServes size ↔ ∀ q, p = some q → size ≤ k.room q := by
    constructor
    · intro serves
      obtain ⟨p', k', run, room⟩ := serves
      cases run.symm.trans m.run
      exact room
    · exact fun room => ⟨p, k, m.run, room⟩
  rw [exact_case, ← m.memory]
  cases p with
  | none => exact iff_of_true (fun q same => by cases same) (.inr (by simp))
  | some q =>
      obtain ⟨n, sized, _, enough⟩ := m.room q rfl
      rw [or_iff_left (by simp), ← enough]
      constructor
      · intro room
        have := room q rfl
        rwa [room_eq sized] at this
      · intro fits q' same
        cases same
        rwa [room_eq sized]

theorem KernelWorld.Steady.callocServes_iff (c : w.Steady) (a b : Nat) :
    w.CallocServes a b ↔ a * b + 11 < 2 ^ 32 ∨ a * b % 2 ^ 32 < a ∨ a * b % 2 ^ 32 < b ∨
      ¬ w.kernel.heap.HasMemory (a * b % 2 ^ 32) := by
  obtain ⟨caught, done⟩ | ⟨missed, p, k, m, none | some⟩ := Kernel.calloc_cases c a b
  · refine iff_of_true ⟨none, w.kernel, done, fun q same => by cases same⟩ (.inr ?_)
    exact caught.elim .inl fun less => .inr (.inl less)
  · obtain ⟨none, done⟩ := none
    subst none
    refine iff_of_true ⟨.none, k, done, fun q same => by cases same⟩ (.inr (.inr (.inr ?_)))
    rw [← m.memory]
    exact Bool.false_ne_true
  · obtain ⟨q, n, rfl, sized, small, enough, done⟩ := some
    have memory : w.kernel.heap.HasMemory (a * b % 2 ^ 32) := m.memory.mp rfl
    constructor
    · intro serves
      obtain ⟨p', k', run, room⟩ := serves
      rw [done] at run
      split at run
      next fits =>
        cases run
        have room : a * b ≤ k.room q := (room q rfl).1
        rw [room_eq sized] at room
        have whole : a * b % 2 ^ 32 = a * b := Nat.mod_eq_of_lt (by omega)
        rw [whole] at enough fits
        exact .inl (enough.mp fits)
      next => cases run
    · intro fine
      have fits : a * b + 11 < 2 ^ 32 := by
        obtain fits | less | less | none := fine
        · exact fits
        · exact absurd (.inl less) missed
        · exact absurd (.inr less) missed
        · exact absurd memory none
      have whole : a * b % 2 ^ 32 = a * b := Nat.mod_eq_of_lt (by omega)
      have enough := enough.mpr (by rw [whole]; exact fits)
      rw [whole] at enough done
      refine ⟨some q, { k with mem := k.mem.fill q (a * b) 0 }, by rw [done, if_pos enough], ?_⟩
      intro q' same
      cases same
      refine ⟨?_, fun i inside => fill_apply (Nat.le_add_right q i) (Nat.add_lt_add_left inside q)⟩
      show a * b ≤ k.room q
      rw [room_eq sized]
      exact enough

end Serves

/-- `malloc` and `calloc` serve a request if and only if the size and what is added to round it up do
not wrap, or the product is seen to wrap, or there is no memory for what it wraps to. -/
theorem kernelHeap_serves_iff {w : KernelWorld} (h : kernelMemory.Reachable w) :
    (∀ size < 2 ^ 32,
      (w.MallocServes size ↔ size + 11 < 2 ^ 32 ∨ ¬ w.kernel.heap.HasMemory size)) ∧
    ∀ a < 2 ^ 32, ∀ b < 2 ^ 32, (w.CallocServes a b ↔
      a * b + 11 < 2 ^ 32 ∨ a * b % 2 ^ 32 < a ∨ a * b % 2 ^ 32 < b ∨
        ¬ w.kernel.heap.HasMemory (a * b % 2 ^ 32)) :=
  ⟨fun _ bounded => (steady_of_reachable h).mallocServes_iff bounded,
    fun a _ b _ => (steady_of_reachable h).callocServes_iff a b⟩

/-- A machine with `n` free pages for the heap. -/
def freshKernel (n : Nat) : KernelWorld :=
  ⟨⟨⟨mallocInit, fun _ => none, ⟨1, ⟨List.replicate n false⟩, Nat.one_pos⟩⟩, fun _ => 0, 0⟩, [], []⟩

theorem freshKernel_unused (n i : Nat) : ¬ (freshKernel n).kernel.heap.pool.Used i := by
  intro used
  have set : (List.replicate n false).getD (i - 1) false = true := used.2
  rw [List.getD_eq_getElem?_getD, List.getElem?_getD_replicate_default_eq] at set
  exact Bool.false_ne_true set

theorem freshKernel_started (n : Nat) : KernelStarted (freshKernel n) :=
  ⟨rfl, fun _ => rfl, rfl, fun i => iff_of_false (freshKernel_unused n i) List.not_mem_nil⟩

theorem freshKernel_hasRun {n cnt : Nat} (some_pages : 0 < cnt) (fits : cnt ≤ n) :
    (freshKernel n).kernel.heap.pool.HasRun cnt := by
  refine ⟨some_pages, 1, Nat.le_refl 1, ?_, fun i _ _ => freshKernel_unused n i⟩
  show 1 + cnt ≤ 1 + (List.replicate n false).length
  rw [List.length_replicate]
  exact Nat.add_le_add_left fits 1

theorem kernelHeap_serves_of_fresh : kernelMemory.Reachable (freshKernel 64) ∧
    (freshKernel 64).MallocServes 1000 ∧ (freshKernel 64).CallocServes 100 10 := by
  have start : kernelMemory.Reachable (freshKernel 64) := .init (freshKernel_started 64)
  obtain ⟨mallocs, callocs⟩ := kernelHeap_serves_iff start
  exact ⟨start, (mallocs 1000 (by decide)).mpr (.inl (by decide)),
    (callocs 100 (by decide) 10 (by decide)).mpr (.inl (by decide))⟩

/-- The largest size gets one page, and 65537 times 65537 bytes are cleared in 131073. -/
theorem not_serves_of_fresh : kernelMemory.Reachable (freshKernel 64) ∧
    ¬ (freshKernel 64).MallocServes (2 ^ 32 - 1) ∧ ¬ (freshKernel 64).CallocServes 65537 65537 := by
  have start : kernelMemory.Reachable (freshKernel 64) := .init (freshKernel_started 64)
  have steady := steady_of_reachable start
  have memory {size : Nat} (cnt : Nat) (some_bytes : 0 < size) (large : 1024 < size)
      (pages : (size + arenaSize + pgSize - 1) % 2 ^ 32 / pgSize = cnt) (some_pages : 0 < cnt)
      (fits : cnt ≤ 64) : (freshKernel 64).kernel.heap.HasMemory size := by
    have none : (freshKernel 64).kernel.heap.descs.findIdx? (fun desc => desc.blockSize ≥ size) = none := by
      rw [List.findIdx?_eq_none_iff]
      intro desc inside
      have bound : ∀ desc ∈ mallocInit, desc.blockSize ≤ 1024 := by decide
      have := bound desc inside
      simp only [ge_iff_le, decide_eq_false_iff_not]
      omega
    refine ⟨some_bytes, ?_⟩
    rw [none]
    show Pool.HasRun _ _
    rw [pages]
    exact freshKernel_hasRun some_pages fits
  refine ⟨start, fun serves => ?_, fun serves => ?_⟩
  · cases (steady.mallocServes_iff (by decide)).mp serves with
    | inl fits => exact absurd fits (by decide)
    | inr none => exact none (memory 1 (by decide) (by decide) (by decide) (by decide) (by decide))
  · obtain fits | less | less | none := (steady.callocServes_iff 65537 65537).mp serves
    · exact absurd fits (by decide)
    · exact absurd less (by decide)
    · exact absurd less (by decide)
    · exact none (memory 33 (by decide) (by decide) (by decide) (by decide) (by decide))

/-- A caller may hold the block: it is on no free list, or a big one. -/
def Heap.InUse (h : Heap) (b : Nat) : Prop :=
  (∃ (d : Nat) (desc : Desc), h.descs[d]? = some desc ∧ h.IsBlock d b ∧ b ∉ desc.freeList) ∨
    ∃ a, h.arena (b / pgSize) = some a ∧ a.desc = none ∧ b % pgSize = arenaSize

/-- A block of `n` bytes is back: once on its free list, or with its pages in the pool. -/
def Heap.Freed (h : Heap) (b n : Nat) : Prop :=
  (∃ (d : Nat) (desc : Desc), h.descs[d]? = some desc ∧ h.IsBlock d b ∧ desc.freeList.count b = 1) ∨
    h.arena (b / pgSize) = none ∧ ∀ y, b ≤ y → y < b + n → ¬ h.pool.Used (y / pgSize)

section Freed
variable {h h' : Heap} {live live' : List Block} {foreign : List Nat} {page r n : Nat} {x : Block}

theorem Sound.inUse (s : Sound h live none) (used : x ∈ live) : h.InUse x.ptr := by
  obtain ⟨d, desc, found, block, _⟩ | ⟨a, there, big, offset, _⟩ := s.held x used
  · exact .inl ⟨d, desc, found, block, (s.split d desc x.ptr found block).mp (List.mem_map_of_mem used)⟩
  · exact .inr ⟨a, there, big, offset⟩

theorem Consistent.unused_of_gone (c : Consistent ⟨h, live, foreign⟩)
    (c' : Consistent ⟨h', live', foreign⟩) (gone : h'.arena page = none)
    (others : ∀ q, q ≠ page → h'.arena q = h.arena q) (mine : h.Covers page r) : ¬ h'.pool.Used r := by
  intro used
  cases (c'.shares.used_iff r).mp used with
  | inl theirs => exact c.shares.apart page r mine theirs
  | inr covered =>
      obtain ⟨q, a, there, inside⟩ := covered
      by_cases same : q = page
      · rw [same, gone] at there
        cases there
      · rw [others q same] at there
        exact same (c.shares.injective q page r ⟨a, there, inside⟩ mine)

theorem Consistent.freed (c : Consistent ⟨h, live, foreign⟩) (inside : x ∈ live)
    (sized : h.blockSize x.ptr = .ok n) (run : h.free (some x.ptr) = .ok h') : h'.Freed x.ptr n := by
  have s := c.sound
  have used := List.mem_map_of_mem (f := Block.ptr) inside
  obtain ⟨h₁, freed, c'⟩ := Consistent.free c (p := some x.ptr) fun b eq => Option.some.inj eq ▸ used
  cases run.symm.trans freed
  have pages (gone : h'.arena (x.ptr / pgSize) = none)
      (others : ∀ q, q ≠ x.ptr / pgSize → h'.arena q = h.arena q) : h'.Freed x.ptr n :=
    .inr ⟨gone, fun y lower upper =>
      c.unused_of_gone c' gone others (s.covers_byte inside sized lower upper)⟩
  obtain ⟨d, desc, found, block, _⟩ | ⟨a, there, big, offset, _⟩ := s.held x inside
  · obtain ⟨⟨owner, cnt⟩, there, small, arena⟩ := s.blockToArena_small block
    cases small
    simp only [Heap.free, arena, bind, Except.bind, descAt_eq found] at run
    split at run
    next =>
      split at run
      next =>
        have listed : ((h.setList d (x.ptr :: desc.freeList)).setArena (x.ptr / pgSize)
            (some ⟨some d, cnt + 1⟩)).descs[d]? = some { desc with freeList := x.ptr :: desc.freeList } :=
          setList_self found _
        obtain ⟨pool, rest, _, same, _⟩ := Kernel.freeArena_eq (k := ⟨_, fun _ => 0, 0⟩) run listed
        rw [same] at pages ⊢
        refine pages (by rw [setArena_get, if_pos rfl]) fun q other => ?_
        rw [setArena_get, if_neg other]
        exact (setArena_get q _).trans (if_neg other)
      next => cases run
    next =>
      cases run
      have unlisted := (s.split d desc x.ptr found block).mp used
      refine .inl ⟨d, _, setList_self found _, (relist_isBlock _ there (cnt + 1) d x.ptr).mpr block, ?_⟩
      rw [List.count_cons_self, List.count_eq_zero.mpr unlisted]
  · simp only [Heap.free, s.blockToArena_big there big offset, bind, Except.bind, big] at run
    split at run
    next => cases run
    next =>
      cases run
      refine pages (by rw [setArena_get, if_pos rfl]) fun q other => ?_
      rw [setArena_get, if_neg other]

end Freed

/-- What `realloc` of a block in use promises: the old bytes in the new block and the old block
back, or all as it was; and every other block as it was. -/
def KernelWorld.Reallocates (w : KernelWorld) (x : Block) (size : Nat) : Prop :=
  ∃ p k, w.kernel.realloc (some x.ptr) size = some (p, k) ∧
    (∀ y ∈ w.live, y.ptr ≠ x.ptr → k.heap.InUse y.ptr ∧ w.kernel.Keeps k y.ptr) ∧
    match p with
    | none => k.heap.InUse x.ptr ∧ w.kernel.Keeps k x.ptr
    | some q => k.heap.InUse q ∧ q ∉ w.ptrs ∧ k.heap.Freed x.ptr (w.kernel.room x.ptr) ∧
        (k.bytes q).take (min x.size size) = (w.kernel.bytes x.ptr).take (min x.size size)

theorem KernelWorld.Steady.reallocates_iff {w : KernelWorld} (c : w.Steady) {x : Block}
    (used : x ∈ w.live) {size : Nat} (some_bytes : 0 < size) (fits : size + arenaSize < 2 ^ 32) :
    w.Reallocates x size ↔
      ¬ w.kernel.heap.HasMemory size ∨ min x.size size ≤ w.kernel.room x.ptr := by
  have header : arenaSize = 12 := rfl
  have c' : Consistent ⟨w.kernel.heap, w.live.map Block.unsized, w.foreign⟩ := c
  have unsized {y : Block} (live : y ∈ w.live) : y.unsized ∈ w.live.map Block.unsized :=
    List.mem_map_of_mem live
  have ptr : x.ptr ∈ (w.live.map Block.unsized).map Block.ptr := mem_ptrs.mpr (List.mem_map_of_mem used)
  obtain ⟨p, k₁, m, ⟨none, done⟩ | ⟨q, n, old, some, room, sized, enough, rest⟩⟩ :=
    Kernel.realloc_cases c' ptr (Nat.pos_iff_ne_zero.mp some_bytes) (by omega)
  · subst none
    refine iff_of_true ⟨.none, k₁, done, fun y live _ => ?_, ?_⟩ (.inl fun memory => ?_)
    · exact ⟨m.steady.sound.inUse (x := y.unsized) (unsized live), m.keeps y.unsized (unsized live)⟩
    · exact ⟨m.steady.sound.inUse (x := x.unsized) (unsized used), m.keeps x.unsized (unsized used)⟩
    · exact Bool.false_ne_true (m.memory.mpr memory)
  · subst some
    have large := enough.mpr (by omega)
    rw [if_pos (by omega)] at rest
    obtain ⟨k, done, moved⟩ := rest
    have memory : w.kernel.heap.HasMemory size := m.memory.mp rfl
    have new : (k.bytes q).take (min x.size size) = k.mem.readBytes q (min x.size size) := by
      rw [Kernel.bytes, room_eq moved.room]
      exact take_readBytes (by omega)
    rw [or_iff_right (fun none => none memory)]
    constructor
    · intro realloced
      obtain ⟨p', k', run, _, moved'⟩ := realloced
      cases run.symm.trans done
      have lengths := congrArg List.length moved'.2.2.2
      rw [new, readBytes_length, List.length_take, Kernel.bytes, readBytes_length] at lengths
      omega
    · intro had
      refine ⟨some q, k, done, fun y live other => ?_, ?_, fun old => m.fresh (mem_ptrs.mpr old), ?_, ?_⟩
      · have kept : y.unsized ∈ (⟨q, 0⟩ :: w.live.map Block.unsized).filter
            fun z => some z.ptr ≠ some x.ptr := by
          refine List.mem_filter.mpr ⟨List.mem_cons_of_mem _ (unsized live), ?_⟩
          simpa [Block.unsized] using other
        exact ⟨moved.steady.sound.inUse (x := y.unsized) kept, moved.keeps y.unsized (unsized live) other⟩
      · have differ : q ≠ x.ptr := fun same => m.fresh (same ▸ ptr)
        have kept : (⟨q, 0⟩ : Block) ∈ (⟨q, 0⟩ :: w.live.map Block.unsized).filter
            fun z => some z.ptr ≠ some x.ptr :=
          List.mem_filter.mpr ⟨List.mem_cons_self, by simpa using differ⟩
        exact moved.steady.sound.inUse kept
      · obtain ⟨h₂, freed, c₂, same⟩ := moved.freed
        rw [room_eq sized]
        exact c₂.freed (x := x.unsized) (List.mem_cons_of_mem _ (unsized used)) (same.trans sized) freed
      · rw [new, Kernel.bytes, take_readBytes had]
        rw [room_eq sized] at had
        exact readBytes_shift fun i less => moved.copied i (by omega)

/-- `realloc` keeps its promise if and only if the size of the old block had not wrapped, or the new
size fits into the block that it got, or there is no memory. -/
theorem kernelRealloc_preserves_iff {w : KernelWorld} (h : kernelMemory.Reachable w) {x : Block}
    (used : x ∈ w.live) {size : Nat} (some_bytes : 0 < size) (fits : size + arenaSize < 2 ^ 32) :
    w.Reallocates x size ↔ x.size + 11 < 2 ^ 32 ∨ size ≤ w.kernel.room x.ptr ∨
      ¬ w.kernel.heap.HasMemory size := by
  obtain ⟨steady, served⟩ := steady_served_of_reachable h
  have header : arenaSize = 12 := rfl
  rw [steady.reallocates_iff used some_bytes fits]
  constructor
  · intro had
    cases had with
    | inl none => exact .inr (.inr none)
    | inr had =>
        by_cases wrapped : x.size + 11 < 2 ^ 32
        · exact .inl wrapped
        · exact .inr (.inl (by omega))
  · intro fine
    obtain small | less | none := fine
    · exact .inr (Nat.le_trans (Nat.min_le_left _ _) (served x used small))
    · exact .inr (Nat.le_trans (Nat.min_le_right _ _) less)
    · exact .inl none

theorem kernelRealloc_preserves_of_growth : ∃ w x, kernelMemory.Reachable w ∧ x ∈ w.live ∧
    x.size = 100 ∧ w.Reallocates x 3000 := by
  obtain ⟨w, reach, ends⟩ := System.exists_reachable KernelStarted KernelWorld.next
    (fun w : KernelWorld => decide (⟨4108, 100⟩ ∈ w.live)) (freshKernel_started 4)
    [.call (.malloc 100)] (by decide)
  have used : (⟨4108, 100⟩ : Block) ∈ w.live := of_decide_eq_true ends
  exact ⟨w, _, reach, used, rfl,
    (kernelRealloc_preserves_iff reach used (by decide) (by decide)).mpr (.inl (by decide))⟩

/-- A block for the largest size but seven bytes has one page; five thousand bytes cannot be kept. -/
theorem not_reallocates_of_wrapped : ∃ w x, kernelMemory.Reachable w ∧ x ∈ w.live ∧
    x.size = 2 ^ 32 - 8 ∧ ¬ w.Reallocates x 5000 := by
  obtain ⟨w, reach, ends⟩ := System.exists_reachable KernelStarted KernelWorld.next
    (fun w : KernelWorld => decide (⟨4108, 2 ^ 32 - 8⟩ ∈ w.live ∧ w.kernel.room 4108 = 4084 ∧
      w.kernel.heap.descs = mallocInit ∧ w.kernel.heap.pool.base = 1 ∧
      w.kernel.heap.pool.usedMap = ⟨[true, false, false, false]⟩))
    (freshKernel_started 4) [.call (.malloc (2 ^ 32 - 8))] (by decide +kernel)
  obtain ⟨used, room, descs, base, map⟩ := of_decide_eq_true ends
  refine ⟨w, _, reach, used, rfl, fun kept => ?_⟩
  have memory : w.kernel.heap.HasMemory 5000 := by
    refine ⟨by decide, ?_⟩
    rw [descs, show mallocInit.findIdx? (fun desc => desc.blockSize ≥ 5000) = none by decide]
    refine ⟨by decide, 2, ?_, ?_, fun i lower upper used => ?_⟩
    · rw [base]
      decide
    · rw [base, map]
      decide
    · have two : i = 2 ∨ i = 3 := by
        have pages : (5000 + arenaSize + pgSize - 1) % 2 ^ 32 / pgSize = 2 := by decide
        omega
      have set := used.2
      rw [base, map] at set
      cases two with
      | inl second => subst second; exact absurd set (by decide)
      | inr third => subst third; exact absurd set (by decide)
  obtain none | less := ((steady_of_reachable reach).reallocates_iff used (by decide) (by decide)).mp kept
  · exact none memory
  · have room : w.kernel.room (⟨4108, 2 ^ 32 - 8⟩ : Block).ptr = 4084 := room
    rw [room] at less
    exact absurd less (by decide)

end CS162.Pintos.KernelHeap
