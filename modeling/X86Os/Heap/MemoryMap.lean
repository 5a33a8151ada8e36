import X86Os.Heap.Setup

/-!
# The memory map of the boot loader

The loop of `pmm_setup` goes from entry to entry by the size that each of them
has. The end of the map is added up in 32 bits, and `avaible_mem` is an `int`
that gets 64-bit lengths.
-/

namespace X86Os.Heap

open Library.Memory
set_option autoImplicit false

def mmapEntryAt (m : Mem) (mmap : Word) : MultibootMmapEntry where
  size := load32 m mmap
  addr := load64 m (mmap + 4)
  len := load64 m (mmap + 12)
  type := load32 m (mmap + 20)

/-- The loop of `pmm_setup`, with the places where it has been. -/
def scanLoop (m : Mem) (stop : Word) : Nat → Word → Scan → Option (List Word × Scan)
  | 0, _, _ => none
  | fuel + 1, mmap, s =>
    if mmap < stop then
      (scanLoop m stop fuel (mmap + load32 m mmap + 4) (scanEntry s (mmapEntryAt m mmap))).map
        fun r => (mmap :: r.1, r.2)
    else some ([], s)

def pmmScan (m : Mem) (mmapAddr mmapLength : Word) (fuel : Nat) : Option (List Word × Scan) :=
  scanLoop m (mmapAddr + mmapLength) fuel mmapAddr ⟨⟨0, 0, 0, 0⟩, 0⟩

def entryPlaces : Word → List MultibootMmapEntry → List Word
  | _, [] => []
  | a, e :: es => a :: entryPlaces (a + e.size + 4) es

/-- The bytes that the entries take up with their size fields. -/
def mapSize (entries : List MultibootMmapEntry) : Nat :=
  (entries.map fun e => e.size.toNat + 4).sum

structure EntriesAt (m : Mem) (a : Word) (entries : List MultibootMmapEntry) : Prop where
  sizes : ∀ e ∈ entries, 20 ≤ e.size.toNat
  read : (entryPlaces a entries).map (mmapEntryAt m) = entries
  fits : a.toNat + mapSize entries ≤ 2 ^ 32

structure MultibootMap where
  mem : Mem
  mmapAddr : Word
  mmapLength : Word
  entries : List MultibootMmapEntry
  placed : EntriesAt mem mmapAddr entries
  length : mmapLength.toNat = mapSize entries

def available (entries : List MultibootMmapEntry) : List MultibootMmapEntry :=
  entries.filter fun e => e.type = multibootMemoryAvailable

def availableSize (entries : List MultibootMmapEntry) : Nat :=
  ((available entries).map fun e => e.len.toNat).sum

/-- The loop visits every entry once and in order, finds the first longest one and adds up what is
AVAILABLE. -/
def MultibootMap.ScanOk (map : MultibootMap) : Prop :=
  ∃ fuel visited scan, pmmScan map.mem map.mmapAddr map.mmapLength fuel = some (visited, scan) ∧
    visited = entryPlaces map.mmapAddr map.entries ∧
    (available map.entries ≠ [] → FirstLongest map.entries scan.big) ∧
    scan.avaibleMem.toInt = availableSize map.entries

variable {m : Mem} {a stop : Word} {e : MultibootMmapEntry} {entries : List MultibootMmapEntry}
variable {s scan : Scan} {visited : List Word} {fuel : Nat}

/-! ## The walk -/

theorem mapSize_cons : mapSize (e :: entries) = e.size.toNat + 4 + mapSize entries := by
  rw [mapSize, List.map_cons, List.sum_cons, ← mapSize]

namespace EntriesAt

theorem head (placed : EntriesAt m a (e :: entries)) : mmapEntryAt m a = e :=
  (List.cons.inj placed.read).1

theorem next_toNat (below : a.toNat + mapSize (e :: entries) < 2 ^ 32) :
    (a + e.size + 4).toNat = a.toNat + (e.size.toNat + 4) := by
  have four : (4 : Word).toNat = 4 := rfl
  rw [mapSize_cons] at below
  rw [BitVec.toNat_add, BitVec.toNat_add, four]
  omega

theorem tail (placed : EntriesAt m a (e :: entries)) (below : a.toNat + mapSize (e :: entries) < 2 ^ 32) :
    EntriesAt m (a + e.size + 4) entries := by
  refine ⟨(List.forall_mem_cons.mp placed.sizes).2, (List.cons.inj placed.read).2, ?_⟩
  rw [next_toNat below]
  rw [mapSize_cons] at below
  omega

/-- With a test for the end that does not wrap around, the walk takes one round for every entry. -/
theorem scanLoop_eq (placed : EntriesAt m a entries) (ends : a.toNat + mapSize entries = stop.toNat) :
    scanLoop m stop fuel a s =
      if entries.length < fuel then some (entryPlaces a entries, entries.foldl scanEntry s)
      else none := by
  induction entries generalizing a s fuel with
  | nil =>
    obtain rfl : a = stop := BitVec.eq_of_toNat_eq ends
    cases fuel with
    | zero => rfl
    | succ fuel =>
      rw [scanLoop, if_neg (BitVec.lt_irrefl a), List.length_nil, if_pos (Nat.succ_pos fuel)]
      rfl
  | cons e entries ih =>
    have below : a.toNat + mapSize (e :: entries) < 2 ^ 32 := ends ▸ stop.isLt
    have more : a < stop := by
      rw [mapSize_cons] at ends
      rw [BitVec.lt_def]
      omega
    have ends' : (a + e.size + 4).toNat + mapSize entries = stop.toNat := by
      rw [mapSize_cons] at ends
      rw [next_toNat below]
      omega
    have size : load32 m a = e.size := congrArg MultibootMmapEntry.size placed.head
    cases fuel with
    | zero => rfl
    | succ fuel =>
      rw [scanLoop, if_pos more, size, placed.head, ih (placed.tail below) ends', List.length_cons]
      simp only [Nat.succ_lt_succ_iff]
      split <;> rfl

end EntriesAt

/-! ## The sum -/

theorem scanEntry_avaibleMem : (scanEntry s e).avaibleMem =
    s.avaibleMem + if e.type = multibootMemoryAvailable then e.len.setWidth 32 else 0 := by
  rw [scanEntry]
  split
  · dsimp only
    split <;> rfl
  · exact (add_zero _).symm

theorem availableSize_cons : availableSize (e :: entries) =
    (if e.type = multibootMemoryAvailable then e.len.toNat else 0) + availableSize entries := by
  rw [availableSize, available, List.filter_cons]
  split
  next is =>
    rw [if_pos (of_decide_eq_true is), List.map_cons, List.sum_cons]
    rfl
  next other =>
    rw [if_neg (fun is => other (decide_eq_true is)), zero_add]
    rfl

theorem foldl_avaibleMem (entries : List MultibootMmapEntry) (s : Scan) :
    (entries.foldl scanEntry s).avaibleMem = s.avaibleMem + BitVec.ofNat 32 (availableSize entries) := by
  induction entries generalizing s with
  | nil => exact (add_zero _).symm
  | cons e entries ih =>
    rw [List.foldl_cons, ih, scanEntry_avaibleMem, availableSize_cons, BitVec.ofNat_add, add_assoc]
    split
    · rw [BitVec.ofNat_toNat]
    · rfl

theorem toInt_ofNat_iff (n : Nat) : (BitVec.ofNat 32 n).toInt = n ↔ n < 2 ^ 31 := by
  rw [BitVec.toInt_eq_toNat_cond, BitVec.toNat_ofNat]
  split <;> omega

/-! ## The whole scan -/

/-- Entries without a length are never taken, so `big` stays as it was. -/
theorem scanMap_firstLongest :
    (available entries ≠ [] → FirstLongest entries (scanMap entries).big) ↔
      (available entries ≠ [] → ∃ e ∈ available entries, 0 < e.len.toNat) := by
  refine imp_congr_right fun _ => ⟨fun first => ?_, fun ⟨e, mem, positive⟩ => ?_⟩
  · obtain ⟨-, kept⟩ | ⟨e, found, longer, -⟩ := foldl_scan_big entries ⟨⟨0, 0, 0, 0⟩, 0⟩
    · have zero : (scanMap entries).big.type = 0 := congrArg MultibootMmapEntry.type kept
      exact absurd (zero.symm.trans first.mem.2) (by decide)
    · refine ⟨e, List.mem_filter.mpr ⟨found.mem.1, by simpa using found.mem.2⟩, ?_⟩
      exact Nat.zero_lt_of_lt (BitVec.lt_def.mp longer)
  · obtain ⟨mem, is⟩ := List.mem_filter.mp mem
    exact scanMap_big ⟨e, mem, by simpa using is, positive⟩

/-- A map up to the last byte of memory is not scanned at all. -/
theorem scanLoop_wrapped {places : List Word} (run : scanLoop m 0 fuel a s = some (places, scan)) :
    places = [] := by
  cases fuel with
  | zero => cases run
  | succ fuel =>
    have never : ¬a < 0 := BitVec.not_lt_zero
    rw [scanLoop, if_neg never] at run
    exact (Prod.mk.inj (Option.some.inj run)).1.symm

namespace MultibootMap

variable {map : MultibootMap}

theorem end_le (map : MultibootMap) : map.mmapAddr.toNat + map.mmapLength.toNat ≤ 2 ^ 32 :=
  map.length ▸ map.placed.fits

theorem end_lt (none : map.entries = []) : map.mmapAddr.toNat + map.mmapLength.toNat < 2 ^ 32 := by
  rw [map.length, none]
  exact map.mmapAddr.isLt

theorem pmmScan_eq (below : map.mmapAddr.toNat + map.mmapLength.toNat < 2 ^ 32) :
    pmmScan map.mem map.mmapAddr map.mmapLength fuel =
      if map.entries.length < fuel then
        some (entryPlaces map.mmapAddr map.entries, scanMap map.entries)
      else none := by
  have ends : map.mmapAddr.toNat + mapSize map.entries = (map.mmapAddr + map.mmapLength).toNat := by
    rw [← map.length, BitVec.toNat_add, Nat.mod_eq_of_lt below]
  exact map.placed.scanLoop_eq ends

theorem below_of_visited (run : pmmScan map.mem map.mmapAddr map.mmapLength fuel = some (visited, scan))
    (every : visited = entryPlaces map.mmapAddr map.entries) :
    map.mmapAddr.toNat + map.mmapLength.toNat < 2 ^ 32 := by
  by_contra above
  have wraps : map.mmapAddr + map.mmapLength = 0 := by
    have whole := map.end_le
    have zero : (0 : Word).toNat = 0 := rfl
    apply BitVec.eq_of_toNat_eq
    rw [BitVec.toNat_add, zero]
    omega
  rw [pmmScan, wraps] at run
  have nowhere := scanLoop_wrapped run
  cases some : map.entries with
  | nil => exact above (end_lt some)
  | cons e entries =>
    rw [every, some] at nowhere
    cases nowhere

/-- The scan is right if and only if the end of the map does not wrap around, some AVAILABLE entry has
a length, and there is less than 2 GiB of AVAILABLE memory. -/
theorem scan_ok_iff (map : MultibootMap) : map.ScanOk ↔
    (map.entries = [] ∨ map.mmapAddr.toNat + map.mmapLength.toNat < 2 ^ 32) ∧
      (available map.entries ≠ [] → ∃ e ∈ available map.entries, 0 < e.len.toNat) ∧
      availableSize map.entries < 2 ^ 31 := by
  have sum : (scanMap map.entries).avaibleMem = BitVec.ofNat 32 (availableSize map.entries) := by
    rw [scanMap, foldl_avaibleMem]
    exact zero_add _
  rw [← scanMap_firstLongest, ← toInt_ofNat_iff, ← sum]
  constructor
  · rintro ⟨fuel, visited, scan, run, every, first, total⟩
    have below := below_of_visited run every
    rw [pmmScan_eq below, Option.ite_none_right_eq_some] at run
    obtain ⟨-, rfl⟩ := Prod.mk.inj (Option.some.inj run.2)
    exact ⟨.inr below, first, total⟩
  · rintro ⟨ends, first, total⟩
    refine ⟨map.entries.length + 1, _, _, ?_, rfl, first, total⟩
    rw [pmmScan_eq (ends.elim end_lt id), if_pos (Nat.lt_succ_self _)]

end MultibootMap

def twoGigabytes : MultibootMap where
  mem := storeBytes (fun _ => 0) 0x9000
    [20, 0, 0, 0, 0, 0, 0x10, 0, 0, 0, 0, 0, 0, 0, 0, 0x80, 0, 0, 0, 0, 1, 0, 0, 0]
  mmapAddr := 0x9000
  mmapLength := 24
  entries := [⟨20, 0x100000, 0x80000000, 1⟩]
  placed := by
    refine ⟨by decide, ?_, by decide⟩
    simp only [entryPlaces, List.map_cons, List.map_nil, mmapEntryAt, List.cons.injEq, and_true,
      MultibootMmapEntry.mk.injEq]
    decide
  length := rfl

/-- `avaible_mem` is negative. -/
theorem scan_overflows : ¬twoGigabytes.ScanOk := by
  rintro ⟨fuel, visited, scan, run, every, -, total⟩
  rw [MultibootMap.pmmScan_eq (by decide), Option.ite_none_right_eq_some] at run
  obtain ⟨-, rfl⟩ := Prod.mk.inj (Option.some.inj run.2)
  exact absurd total (by decide)

end X86Os.Heap
