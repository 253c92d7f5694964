import Mathlib.Data.List.Basic
import Mathlib.Logic.Function.Basic
import CS162.Library.LittleEndian

/-!
Partitions of a block device (devices/partition.c, devices/block.c), and when a scan for them
ends. A device is its size and what its sectors hold; numbers of sectors have 32 bits. A scan
ends with the number of the last partition and the partitions it registered, in order. `none`
is a kernel that panics or, with every amount of fuel, one that never comes back; memory is
allocated. What is printed is left out.

Because every table is read from sector 0, an extended partition shows the scan the master boot
record again, now with its entries counted from the partition's sector: the scan ends only
where these lead past the end of the device.
-/

namespace CS162.Pintos.Device
open CS162.Library

/-- `enum block_type`; an IDE disk is `raw`. -/
inductive BlockType where
  | kernel
  | filesys
  | scratch
  | swap
  | raw
  | foreign
  deriving DecidableEq

abbrev Sector := Nat → UInt8

/-- The fields of `struct block` that a partition needs, with what the device holds. -/
structure Block where
  size : Nat
  fits : size < 2 ^ 32
  type : BlockType
  contents : Nat → Sector

/-- An addition of `block_sector_t`s. -/
def sectorAdd (a b : Nat) : Nat := (a + b) % 2 ^ 32

namespace Block

def blockRead (dev : Block) (sector : Nat) : Option Sector :=
  if sector ≥ dev.size then none else some (dev.contents sector)

def blockWrite (dev : Block) (sector : Nat) (buffer : Sector) : Option Block :=
  if sector ≥ dev.size ∨ dev.type = .foreign then none
  else some { dev with contents := Function.update dev.contents sector buffer }

end Block

/-- A field of a sector. -/
def field (pt : Sector) (pos width : Nat) : Nat := ofBytes ((List.range' pos width).map pt)

/-- The fields of a `struct partition_table_entry` that are read. -/
structure PartitionTableEntry where
  type : Nat
  offset : Nat
  size : Nat

/-- Entry `i` of a table, which is behind 446 bytes of loader. -/
def partitionAt (pt : Sector) (i : Nat) : PartitionTableEntry where
  type := field pt (446 + 16 * i + 4) 1
  offset := field pt (446 + 16 * i + 8) 4
  size := field pt (446 + 16 * i + 12) 4

def partitions (pt : Sector) : List PartitionTableEntry := (List.range 4).map (partitionAt pt)

def signature (pt : Sector) : Nat := field pt 510 2

namespace PartitionTableEntry

def isEmpty (e : PartitionTableEntry) : Bool := e.size == 0 || e.type == 0

def isExtended (e : PartitionTableEntry) : Bool :=
  e.type == 0x05 || e.type == 0x0f || e.type == 0x85 || e.type == 0xc5

end PartitionTableEntry

def blockTypeOf (partType : Nat) : BlockType :=
  if partType = 0x20 then .kernel
  else if partType = 0x21 then .filesys
  else if partType = 0x22 then .scratch
  else if partType = 0x23 then .swap
  else .foreign

structure Place where
  type : BlockType
  start : Nat
  size : Nat
  deriving DecidableEq

/-- `struct partition` on the device that is scanned, with what it is registered under. -/
structure Partition extends Place where
  partNr : Nat

/-- `part_nr`, and what was registered so far. -/
structure Scan where
  partNr : Nat
  registered : List Partition

def foundPartition (dev : Block) (partType start size : Nat) (scan : Scan) : Scan :=
  if start ≥ dev.size then scan
  else if sectorAdd start size < start ∨ sectorAdd start size > dev.size then scan
  else { scan with registered := scan.registered ++ [⟨⟨blockTypeOf partType, start, size⟩, scan.partNr⟩] }

/-- `read_partition_table`, to a depth of `fuel`. -/
def readPartitionTable (dev : Block) : (fuel sector primaryExtendedSector : Nat) → Scan → Option Scan
  | 0, _, _, _ => none
  | fuel + 1, sector, primaryExtendedSector, scan =>
      if sector ≥ dev.size then some scan
      else
        -- the table is read from sector 0, whatever `sector` is
        (dev.blockRead 0).bind fun pt =>
          if signature pt ≠ 0xaa55 then some scan
          else
            (partitions pt).foldlM
              (fun scan e =>
                if e.isEmpty then some scan
                else if e.isExtended then
                  if sector = 0 then readPartitionTable dev fuel e.offset e.offset scan
                  else
                    readPartitionTable dev fuel (sectorAdd e.offset primaryExtendedSector)
                      primaryExtendedSector scan
                else
                  some (foundPartition dev e.type (sectorAdd e.offset sector) e.size
                    { scan with partNr := scan.partNr + 1 }))
              scan

def partitionScan (dev : Block) (fuel : Nat) : Option Scan := readPartitionTable dev fuel 0 0 ⟨0, []⟩

def partitionRead (dev : Block) (p : Partition) (sector : Nat) : Option Sector :=
  dev.blockRead (sectorAdd p.start sector)

def partitionWrite (dev : Block) (p : Partition) (sector : Nat) (buffer : Sector) : Option Block :=
  dev.blockWrite (sectorAdd p.start sector) buffer

/-- The offsets of the extended partitions in a table. -/
def links (pt : Sector) : List Nat :=
  ((partitions pt).filter fun e => !e.isEmpty && e.isExtended).map PartitionTableEntry.offset

def Block.HasTable (dev : Block) (sector : Nat) : Prop :=
  sector < dev.size ∧ signature (dev.contents sector) = 0xaa55

instance (dev : Block) (sector : Nat) : Decidable (dev.HasTable sector) :=
  inferInstanceAs (Decidable (_ ∧ _))

/-- Where the extended partitions of the master boot record would lead from one another. -/
def Block.LinksEnd (dev : Block) : Prop :=
  ∀ x ∈ links (dev.contents 0), x < dev.size →
    x ≠ 0 ∧ ∀ y ∈ links (dev.contents 0), dev.size ≤ sectorAdd y x

def Block.place (dev : Block) (e : PartitionTableEntry) (start : Nat) : List Place :=
  if start + e.size ≤ dev.size then [⟨blockTypeOf e.type, start, e.size⟩] else []

/-- What one entry stands for: nothing, the partitions of an extended one, or a partition. -/
def Block.entryPlaces (dev : Block) (start : PartitionTableEntry → Nat) (logical : List Place)
    (e : PartitionTableEntry) : List Place :=
  if e.isEmpty then [] else if e.isExtended then logical else dev.place e (start e)

def Block.tablePlaces (dev : Block) (pt : Sector) (start : PartitionTableEntry → Nat)
    (logical : List Place) : List Place :=
  (partitions pt).flatMap (dev.entryPlaces start logical)

section Arithmetic
variable {a b : Nat} {pt : Sector} {e : PartitionTableEntry}

theorem sectorAdd_lt (a b : Nat) : sectorAdd a b < 2 ^ 32 := Nat.mod_lt _ (by decide)

theorem sectorAdd_of_lt (fits : a + b < 2 ^ 32) : sectorAdd a b = a + b := Nat.mod_eq_of_lt fits

theorem field_lt (pt : Sector) (pos width : Nat) : field pt pos width < 256 ^ width := by
  have bound := ofBytes_lt ((List.range' pos width).map pt)
  rw [List.length_map, List.length_range'] at bound
  exact bound

theorem bounds_of_mem (mem : e ∈ partitions pt) : e.offset < 2 ^ 32 ∧ e.size < 2 ^ 32 := by
  rw [partitions, List.mem_map] at mem
  obtain ⟨i, -, made⟩ := mem
  rw [← made]
  exact ⟨field_lt pt _ 4, field_lt pt _ 4⟩

theorem mem_links {x : Nat} : x ∈ links pt ↔
    ∃ e ∈ partitions pt, e.isEmpty = false ∧ e.isExtended = true ∧ e.offset = x := by
  simp only [links, List.mem_map, List.mem_filter, Bool.and_eq_true, Bool.not_eq_true', and_assoc]

end Arithmetic

/-- A step of the scan that registers these partitions, all of them inside the device. -/
def Finds (dev : Block) (step : Scan → Option Scan) (places : List Place) : Prop :=
  ∀ scan, ∃ n ps, step scan = some ⟨n, scan.registered ++ ps⟩ ∧
    ps.map Partition.toPlace = places ∧ ∀ p ∈ ps, p.start + p.size ≤ dev.size

section Finds
variable {dev : Block} {α : Type}

theorem finds_nothing : Finds dev some [] := by
  intro scan
  refine ⟨scan.partNr, [], ?_, rfl, nofun⟩
  rw [List.append_nil]

theorem finds_foldlM {step : Scan → α → Option Scan} {places : α → List Place} {l : List α}
    (each : ∀ a ∈ l, Finds dev (fun scan => step scan a) (places a)) :
    Finds dev (fun scan => l.foldlM step scan) (l.flatMap places) := by
  induction l with
  | nil => exact finds_nothing
  | cons a l ih =>
      intro scan
      obtain ⟨n, ps, first, here, inside⟩ := each a (List.mem_cons_self ..) scan
      obtain ⟨n', ps', rest, there, inside'⟩ :=
        ih (fun b mem => each b (List.mem_cons_of_mem _ mem)) ⟨n, scan.registered ++ ps⟩
      refine ⟨n', ps ++ ps', ?_, ?_, ?_⟩
      · beta_reduce at first rest ⊢
        rw [List.foldlM_cons, first, ← List.append_assoc]
        exact rest
      · rw [List.map_append, here, there, List.flatMap_cons]
      · intro p mem
        cases List.mem_append.mp mem with
        | inl old => exact inside p old
        | inr new => exact inside' p new

/-- A partition is registered if it lies inside the device; the checks see where an end wraps. -/
theorem finds_foundPartition {e : PartitionTableEntry} {start : Nat} (low : start < 2 ^ 32)
    (small : e.size < 2 ^ 32) (some_sectors : e.isEmpty = false) :
    Finds dev (fun scan => some (foundPartition dev e.type start e.size
      { scan with partNr := scan.partNr + 1 })) (dev.place e start) := by
  intro scan
  have fits := dev.fits
  have pos : 0 < e.size := by
    rw [PartitionTableEntry.isEmpty, Bool.or_eq_false_iff, beq_eq_false_iff_ne] at some_sectors
    exact Nat.pos_of_ne_zero some_sectors.1
  rw [Block.place]
  by_cases inside : start + e.size ≤ dev.size
  · have before : ¬ start ≥ dev.size := by omega
    have sum : sectorAdd start e.size = start + e.size :=
      sectorAdd_of_lt (Nat.lt_of_le_of_lt inside fits)
    have ends : ¬ (sectorAdd start e.size < start ∨ sectorAdd start e.size > dev.size) := by
      rw [sum]
      omega
    simp only [foundPartition, if_neg before, if_neg ends, if_pos inside]
    refine ⟨_, [⟨⟨blockTypeOf e.type, start, e.size⟩, scan.partNr + 1⟩], rfl, rfl, ?_⟩
    intro p mem
    rw [List.mem_singleton.mp mem]
    exact inside
  · have dropped : foundPartition dev e.type start e.size { scan with partNr := scan.partNr + 1 } =
        { scan with partNr := scan.partNr + 1 } := by
      rw [foundPartition]
      by_cases past : start ≥ dev.size
      · rw [if_pos past]
      · have ends : sectorAdd start e.size < start ∨ sectorAdd start e.size > dev.size := by
          rw [sectorAdd]
          omega
        rw [if_neg past, if_pos ends]
    beta_reduce
    rw [dropped, if_neg inside]
    refine ⟨scan.partNr + 1, [], ?_, rfl, nofun⟩
    rw [List.append_nil]

theorem readPartitionTable_past {sector primary fuel : Nat} (past : dev.size ≤ sector) (scan : Scan) :
    readPartitionTable dev (fuel + 1) sector primary scan = some scan := by
  rw [readPartitionTable, if_pos past]

theorem readPartitionTable_inside {sector primary fuel : Nat} (table : dev.HasTable 0)
    (inside : sector < dev.size) (scan : Scan) :
    readPartitionTable dev (fuel + 1) sector primary scan = (partitions (dev.contents 0)).foldlM
      (fun scan e =>
        if e.isEmpty then some scan
        else if e.isExtended then
          if sector = 0 then readPartitionTable dev fuel e.offset e.offset scan
          else readPartitionTable dev fuel (sectorAdd e.offset primary) primary scan
        else some (foundPartition dev e.type (sectorAdd e.offset sector) e.size
          { scan with partNr := scan.partNr + 1 })) scan := by
  have valid : ¬ signature (dev.contents 0) ≠ 0xaa55 := not_not.mpr table.2
  rw [readPartitionTable, if_neg (Nat.not_le.mpr inside), Block.blockRead,
    if_neg (Nat.not_le.mpr table.1), Option.bind_some, if_neg valid]

theorem finds_table {sector primary fuel : Nat} (logical : PartitionTableEntry → List Place)
    (table : dev.HasTable 0) (inside : sector < dev.size)
    (below : ∀ e ∈ partitions (dev.contents 0), e.isEmpty = false → e.isExtended = true →
      Finds dev (fun scan =>
        if sector = 0 then readPartitionTable dev fuel e.offset e.offset scan
        else readPartitionTable dev fuel (sectorAdd e.offset primary) primary scan) (logical e)) :
    Finds dev (readPartitionTable dev (fuel + 1) sector primary)
      ((partitions (dev.contents 0)).flatMap fun e =>
        dev.entryPlaces (fun e => sectorAdd e.offset sector) (logical e) e) := by
  intro scan
  rw [readPartitionTable_inside table inside]
  refine finds_foldlM (fun e mem => ?_) scan
  rw [Block.entryPlaces]
  cases empty : e.isEmpty with
  | true => exact finds_nothing
  | false =>
      cases extended : e.isExtended with
      | true => exact below e mem empty extended
      | false => exact finds_foundPartition (sectorAdd_lt ..) (bounds_of_mem mem).2 empty

end Finds

/-- What the scan finds where it takes the master boot record for the table in a sector. -/
def Block.again (dev : Block) (sector : Nat) : List Place :=
  if sector < dev.size then
    dev.tablePlaces (dev.contents 0) (fun e => sectorAdd e.offset sector) []
  else []

section Ends
variable {dev : Block} {x y : Nat}

theorem finds_again (table : dev.HasTable 0) (ends : dev.LinksEnd) (mem : x ∈ links (dev.contents 0))
    (fuel : Nat) : Finds dev (readPartitionTable dev (fuel + 2) x x) (dev.again x) := by
  rw [Block.again]
  by_cases inside : x < dev.size
  · obtain ⟨other, past⟩ := ends x mem inside
    rw [if_pos inside]
    refine finds_table (fun _ => []) table inside fun e here empty extended => ?_
    have linked : e.offset ∈ links (dev.contents 0) := mem_links.mpr ⟨e, here, empty, extended, rfl⟩
    simp only [if_neg other, readPartitionTable_past (past e.offset linked)]
    exact finds_nothing
  · rw [if_neg inside]
    intro scan
    rw [readPartitionTable_past (Nat.le_of_not_lt inside)]
    exact finds_nothing scan

theorem finds_partitionScan (table : dev.HasTable 0) (ends : dev.LinksEnd) (fuel : Nat) :
    Finds dev (readPartitionTable dev (fuel + 3) 0 0)
      ((partitions (dev.contents 0)).flatMap fun e =>
        dev.entryPlaces (fun e => sectorAdd e.offset 0) (dev.again e.offset) e) := by
  refine finds_table (fun e => dev.again e.offset) table table.1 fun e here empty extended => ?_
  simp only [if_true]
  exact finds_again table ends (mem_links.mpr ⟨e, here, empty, extended, rfl⟩) fuel

theorem foldlM_none {α σ : Type} {step : σ → α → Option σ} {l : List α} {a : α} (mem : a ∈ l)
    (never : ∀ s, step s a = none) (s : σ) : l.foldlM step s = none := by
  induction l generalizing s with
  | nil => cases mem
  | cons b l ih =>
      rw [List.foldlM_cons]
      cases List.mem_cons.mp mem with
      | inl here =>
          rw [← here, never]
          rfl
      | inr there =>
          cases step s b with
          | none => rfl
          | some s' => exact ih there s'

/-- Where each table leads to another of the same kind, a scan does not come back. -/
theorem readPartitionTable_diverges (table : dev.HasTable 0) (loop : Nat → Nat → Prop)
    (inside : ∀ sector primary, loop sector primary → sector < dev.size)
    (leads : ∀ sector primary, loop sector primary → ∃ y ∈ links (dev.contents 0),
      if sector = 0 then loop y y else loop (sectorAdd y primary) primary)
    (fuel sector primary : Nat) (here : loop sector primary) (scan : Scan) :
    readPartitionTable dev fuel sector primary scan = none := by
  induction fuel generalizing sector primary scan with
  | zero => rfl
  | succ fuel ih =>
      rw [readPartitionTable_inside table (inside sector primary here)]
      obtain ⟨y, mem, next⟩ := leads sector primary here
      obtain ⟨e, entry, empty, extended, offset⟩ := mem_links.mp mem
      refine foldlM_none entry (fun scan => ?_) scan
      simp only [empty, extended, offset, Bool.false_eq_true, if_false, if_true]
      by_cases root : sector = 0
      · rw [if_pos root] at next ⊢
        exact ih y y next scan
      · rw [if_neg root] at next ⊢
        exact ih (sectorAdd y primary) primary next scan

theorem linksEnd_of_terminates (table : dev.HasTable 0) {fuel : Nat} {scan : Scan}
    (done : partitionScan dev fuel = some scan) : dev.LinksEnd := by
  intro x mem inside
  constructor
  · intro root
    have leads : ∀ sector primary : Nat, sector = 0 → ∃ y ∈ links (dev.contents 0),
        if sector = 0 then y = 0 else sectorAdd y primary = 0 := by
      intro sector primary here
      refine ⟨x, mem, ?_⟩
      rw [if_pos here]
      exact root
    have starts : ∀ sector primary : Nat, sector = 0 → sector < dev.size := by
      intro sector primary here
      rw [here]
      exact table.1
    have never := readPartitionTable_diverges table (fun sector _ => sector = 0) starts leads fuel 0 0
      rfl ⟨0, []⟩
    rw [partitionScan, never] at done
    cases done
  · intro y mem'
    refine Nat.le_of_not_lt fun back => ?_
    let loop (sector primary : Nat) : Prop :=
      sector = 0 ∨ primary = x ∧ (sector = x ∨ sector = sectorAdd y x)
    have starts : ∀ sector primary, loop sector primary → sector < dev.size := by
      intro sector primary here
      rcases here with root | ⟨-, first | again⟩
      · rw [root]
        exact table.1
      · rw [first]
        exact inside
      · rw [again]
        exact back
    have leads : ∀ sector primary, loop sector primary → ∃ y ∈ links (dev.contents 0),
        if sector = 0 then loop y y else loop (sectorAdd y primary) primary := by
      intro sector primary here
      by_cases root : sector = 0
      · refine ⟨x, mem, ?_⟩
        rw [if_pos root]
        exact .inr ⟨rfl, .inl rfl⟩
      · refine ⟨y, mem', ?_⟩
        obtain ⟨same, -⟩ := here.resolve_left root
        rw [if_neg root, same]
        exact .inr ⟨rfl, .inr rfl⟩
    have never := readPartitionTable_diverges table loop starts leads fuel 0 0 (.inl rfl) ⟨0, []⟩
    rw [partitionScan, never] at done
    cases done

/-- The scan of a device ends if there is no table in sector 0, or if no extended partition in it
leads back into the device. -/
theorem partitionScan_terminates_iff (dev : Block) :
    (∃ fuel, (partitionScan dev fuel).isSome) ↔ ¬ dev.HasTable 0 ∨ dev.LinksEnd := by
  constructor
  · intro terminates
    obtain ⟨fuel, some⟩ := terminates
    obtain ⟨scan, done⟩ := Option.isSome_iff_exists.mp some
    by_cases table : dev.HasTable 0
    · exact .inr (linksEnd_of_terminates table done)
    · exact .inl table
  · intro able
    by_cases table : dev.HasTable 0
    · obtain ⟨n, ps, done, -⟩ := finds_partitionScan table (able.resolve_left (not_not.mpr table)) 0 ⟨0, []⟩
      refine ⟨3, ?_⟩
      rw [partitionScan, done]
      rfl
    · refine ⟨1, ?_⟩
      rw [partitionScan, readPartitionTable]
      by_cases empty : 0 ≥ dev.size
      · rw [if_pos empty]
        rfl
      · have invalid : signature (dev.contents 0) ≠ 0xaa55 :=
          fun valid => table ⟨Nat.lt_of_not_le empty, valid⟩
        rw [if_neg empty, Block.blockRead, if_neg empty, Option.bind_some, if_pos invalid]
        rfl

end Ends

/-- From the table in a sector on, the links lead through these tables. All links of extended
tables count from the sector of the first. -/
inductive Leads (dev : Block) (primary : Nat) : Nat → List Nat → Prop where
  | last {sector : Nat} : links (dev.contents sector) = [] → Leads dev primary sector []
  | next {sector offset : Nat} {tables : List Nat} : links (dev.contents sector) = [offset] →
      dev.HasTable (offset + primary) → Leads dev primary (offset + primary) tables →
      Leads dev primary sector ((offset + primary) :: tables)

/-- A device whose links form a chain, through these tables. -/
def Block.Chain (dev : Block) : List Nat → Prop
  | [] => links (dev.contents 0) = []
  | x :: tables => links (dev.contents 0) = [x] ∧ dev.HasTable x ∧ Leads dev x x tables

/-- The logical partitions of a chain, each counted from the sector of its own table. -/
def Block.logical (dev : Block) : List Nat → List Place
  | [] => []
  | x :: tables => dev.tablePlaces (dev.contents x) (fun e => e.offset + x) (dev.logical tables)

/-- The partitions of a device, in the order of its tables' entries. -/
def Block.expected (dev : Block) (tables : List Nat) : List Place :=
  dev.tablePlaces (dev.contents 0) PartitionTableEntry.offset (dev.logical tables)

/-- A partition is a window on the device. -/
def Window (dev : Block) (p : Partition) : Prop :=
  ∀ sector < p.size, p.start + sector < dev.size ∧
    partitionRead dev p sector = some (dev.contents (p.start + sector)) ∧
    ∀ buffer, dev.type ≠ .foreign → partitionWrite dev p sector buffer =
      some { dev with contents := Function.update dev.contents (p.start + sector) buffer }

/-- The scan registers the partitions of the device, and they are windows on it. -/
def FindsRight (dev : Block) (tables : List Nat) : Prop :=
  ∃ fuel scan, partitionScan dev fuel = some scan ∧
    scan.registered.map Partition.toPlace = dev.expected tables ∧ ∀ p ∈ scan.registered, Window dev p

section Chain
variable {dev : Block} {tables : List Nat} {x : Nat}

theorem window_of_inside {p : Partition} (inside : p.start + p.size ≤ dev.size) : Window dev p := by
  intro sector below
  have fits := dev.fits
  have there : p.start + sector < dev.size := by omega
  have sum : sectorAdd p.start sector = p.start + sector :=
    sectorAdd_of_lt (Nat.lt_trans there fits)
  have low : ¬ p.start + sector ≥ dev.size := Nat.not_le.mpr there
  refine ⟨there, ?_, fun buffer own => ?_⟩
  · rw [partitionRead, sum, Block.blockRead, if_neg low]
  · rw [partitionWrite, sum, Block.blockWrite, if_neg fun either => either.elim low own]

variable (dev) in
theorem tablePlaces_split {pt : Sector} (link : links pt = [x]) (start : PartitionTableEntry → Nat) :
    ∃ front back, ∀ logical : PartitionTableEntry → List Place, ∃ e : PartitionTableEntry, e.offset = x ∧
      ((partitions pt).flatMap fun e => dev.entryPlaces start (logical e) e) =
        front ++ (logical e ++ back) := by
  rw [links, List.map_eq_singleton_iff] at link
  obtain ⟨e, only, offset⟩ := link
  obtain ⟨front, back, split, before, here, after⟩ := List.filter_eq_cons_iff.mp only
  rw [List.filter_eq_nil_iff] at after
  have unlinked : ∀ (l : List PartitionTableEntry), (∀ e ∈ l, ¬ (!e.isEmpty && e.isExtended) = true) →
      ∀ logical : PartitionTableEntry → List Place,
        (l.flatMap fun e => dev.entryPlaces start (logical e) e) = l.flatMap (dev.entryPlaces start []) := by
    intro l none logical
    apply List.flatMap_congr
    intro e mem
    have other := none e mem
    rw [Block.entryPlaces, Block.entryPlaces]
    cases empty : e.isEmpty with
    | true => rfl
    | false =>
        rw [empty, Bool.not_false, Bool.true_and] at other
        rw [if_neg other, if_neg other]
  refine ⟨front.flatMap (dev.entryPlaces start []), back.flatMap (dev.entryPlaces start []),
    fun logical => ⟨e, offset, ?_⟩⟩
  rw [Bool.and_eq_true, Bool.not_eq_true'] at here
  rw [split, List.flatMap_append, List.flatMap_cons, unlinked front before, unlinked back after,
    Block.entryPlaces, here.1, here.2, if_neg Bool.false_ne_true, if_pos rfl]

theorem foldlM_mono {α σ : Type} {step step' : σ → α → Option σ}
    (more : ∀ s a t, step s a = some t → step' s a = some t) {l : List α} {s t : σ}
    (done : l.foldlM step s = some t) : l.foldlM step' s = some t := by
  induction l generalizing s with
  | nil => exact done
  | cons a l ih =>
      rw [List.foldlM_cons, Option.bind_eq_bind, Option.bind_eq_some_iff] at done ⊢
      obtain ⟨s', first, rest⟩ := done
      exact ⟨s', more s a s' first, ih rest⟩

theorem readPartitionTable_mono (table : dev.HasTable 0) {fuel sector primary : Nat} {scan after : Scan}
    (done : readPartitionTable dev fuel sector primary scan = some after) (more : Nat) :
    readPartitionTable dev (fuel + more) sector primary scan = some after := by
  induction fuel generalizing sector primary scan after with
  | zero => cases done
  | succ fuel ih =>
      rw [Nat.add_right_comm]
      by_cases inside : sector < dev.size
      · rw [readPartitionTable_inside table inside] at done ⊢
        refine foldlM_mono (fun scan e after here => ?_) done
        split at here
        next empty =>
          rw [if_pos empty]
          exact here
        next occupied =>
          rw [if_neg occupied]
          split at here
          next extended =>
            rw [if_pos extended]
            split at here
            next root =>
              rw [if_pos root]
              exact ih here
            next other =>
              rw [if_neg other]
              exact ih here
          next primary =>
            rw [if_neg primary]
            exact here
      · rw [readPartitionTable_past (Nat.le_of_not_lt inside)] at done ⊢
        exact done

theorem registered_of_partitionScan (table : dev.HasTable 0) {fuel : Nat} {scan : Scan}
    (done : partitionScan dev fuel = some scan) :
    scan.registered.map Partition.toPlace = ((partitions (dev.contents 0)).flatMap fun e =>
        dev.entryPlaces PartitionTableEntry.offset (dev.again e.offset) e) ∧
      ∀ p ∈ scan.registered, Window dev p := by
  obtain ⟨n, ps, found, places, inside⟩ :=
    finds_partitionScan table (linksEnd_of_terminates table done) fuel ⟨0, []⟩
  have deeper := readPartitionTable_mono table done 3
  rw [found, Option.some_inj] at deeper
  rw [← deeper, List.nil_append, places]
  refine ⟨?_, fun p mem => window_of_inside (inside p mem)⟩
  apply List.flatMap_congr
  intro e mem
  have whole : sectorAdd e.offset 0 = e.offset := sectorAdd_of_lt (bounds_of_mem mem).1
  rw [Block.entryPlaces, Block.entryPlaces, whole]

/-- The scan of a device whose links form a chain finds its partitions if there is no extended one,
or if the master boot record, counted from the sector of the extended one, ends the scan and
gives the partitions of the chain. -/
theorem partitionScan_finds_iff (table : dev.HasTable 0) (chain : dev.Chain tables) :
    FindsRight dev tables ↔ ∀ x rest, tables = x :: rest →
      dev.size ≤ sectorAdd x x ∧ dev.again x = dev.logical tables := by
  cases tables with
  | nil =>
      refine ⟨fun _ => nofun, fun _ => ?_⟩
      have none : links (dev.contents 0) = [] := chain
      have ends : dev.LinksEnd := by
        intro x mem
        rw [none] at mem
        cases mem
      obtain ⟨n, ps, done, -⟩ := finds_partitionScan table ends 0 ⟨0, []⟩
      obtain ⟨places, windows⟩ := registered_of_partitionScan table done
      refine ⟨3, _, done, places.trans ?_, windows⟩
      apply List.flatMap_congr
      intro e mem
      rw [Block.entryPlaces, Block.entryPlaces, Block.logical]
      cases empty : e.isEmpty with
      | true => rfl
      | false =>
          cases extended : e.isExtended with
          | true =>
              have linked : e.offset ∈ links (dev.contents 0) :=
                mem_links.mpr ⟨e, mem, empty, extended, rfl⟩
              rw [none] at linked
              cases linked
          | false => rfl
  | cons x rest =>
      obtain ⟨link, there, -⟩ := chain
      obtain ⟨front, back, split⟩ := tablePlaces_split dev link PartitionTableEntry.offset
      have found : ((partitions (dev.contents 0)).flatMap fun e =>
          dev.entryPlaces PartitionTableEntry.offset (dev.again e.offset) e) =
            front ++ (dev.again x ++ back) := by
        obtain ⟨e, offset, places⟩ := split fun e => dev.again e.offset
        rw [places, offset]
      have expected : dev.expected (x :: rest) = front ++ (dev.logical (x :: rest) ++ back) := by
        obtain ⟨e, -, places⟩ := split fun _ => dev.logical (x :: rest)
        exact places
      constructor
      · intro right
        obtain ⟨fuel, scan, done, places, -⟩ := right
        have ends := linksEnd_of_terminates table done
        rw [(registered_of_partitionScan table done).1, found, expected, List.append_right_inj,
          List.append_left_inj] at places
        intro y rest' same
        cases same
        have mem : x ∈ links (dev.contents 0) := by
          rw [link]
          exact List.mem_singleton_self x
        exact ⟨(ends x mem there.1).2 x mem, places⟩
      · intro able
        obtain ⟨past, same⟩ := able x rest rfl
        have ends : dev.LinksEnd := by
          intro y mem _
          rw [link, List.mem_singleton] at mem
          have pos := table.1
          refine ⟨fun root => ?_, fun z mem' => ?_⟩
          · rw [← mem, root, sectorAdd_of_lt (by decide)] at past
            omega
          · rw [link, List.mem_singleton] at mem'
            rw [mem, mem']
            exact past
        obtain ⟨n, ps, done, -⟩ := finds_partitionScan table ends 0 ⟨0, []⟩
        obtain ⟨places, windows⟩ := registered_of_partitionScan table done
        refine ⟨3, _, done, ?_, windows⟩
        rw [places, found, expected, same]

end Chain

section Disks

def tableOf (type offset size : UInt8) : Sector := fun i =>
  (List.lookup i [(450, type), (454, offset), (458, size), (510, 0x55), (511, 0xaa)]).getD 0

/-- A disk with one primary partition, a file system. -/
def plainDisk : Block where
  size := 1000
  fits := by decide
  type := .raw
  contents := fun _ => tableOf 0x21 1 50

/-- A disk with an extended partition at sector 63, and a file system in it. -/
def extendedDisk : Block where
  size := 1000
  fits := by decide
  type := .raw
  contents := fun sector => if sector = 0 then tableOf 0x05 63 100 else tableOf 0x21 1 50

theorem extendedDisk_chain : extendedDisk.HasTable 0 ∧ extendedDisk.Chain [63] :=
  ⟨by decide, by decide, by decide, .last (by decide)⟩

/-- The scan of the disk with an extended partition does not come back. -/
theorem extendedDisk_diverges : ¬ ∃ fuel, (partitionScan extendedDisk fuel).isSome := by
  intro terminates
  obtain ⟨fuel, some⟩ := terminates
  obtain ⟨scan, done⟩ := Option.isSome_iff_exists.mp some
  have ends := linksEnd_of_terminates extendedDisk_chain.1 done 63 (by decide) (by decide)
  exact absurd (ends.2 63 (by decide)) (by decide)

/-- So its file system is not found. -/
theorem extendedDisk_not_found :
    extendedDisk.HasTable 0 ∧ extendedDisk.Chain [63] ∧ ¬ FindsRight extendedDisk [63] := by
  refine ⟨extendedDisk_chain.1, extendedDisk_chain.2, fun right => ?_⟩
  obtain ⟨fuel, scan, done, -⟩ := right
  have ends := linksEnd_of_terminates extendedDisk_chain.1 done 63 (by decide) (by decide)
  exact absurd (ends.2 63 (by decide)) (by decide)

/-- The primary partition is found. -/
theorem plainDisk_found :
    FindsRight plainDisk [] ∧ plainDisk.expected [] = [⟨.filesys, 1, 50⟩] := by
  refine ⟨?_, by decide⟩
  have chain : plainDisk.Chain [] := (by decide : links (plainDisk.contents 0) = [])
  apply (partitionScan_finds_iff (by decide) chain).mpr
  intro x rest none
  cases none

end Disks
end CS162.Pintos.Device
