import Mathlib.Order.CompletePartialOrder
import Mathlib.Order.Interval.Set.Disjoint
import X86Os.Heap.Malloc

/-!
# The choice of the heap region in pmm_setup

The scan takes the first of the longest AVAILABLE entries of the memory map. If
that entry begins where the kernel does, the kernel is cut off its front, but the
length is reduced by a difference of `int` pointers, a fourth of the size of the
kernel. No other entry is cut, and the entry may lie above 4 GiB.
-/

namespace X86Os.Heap

open Library.Memory
set_option autoImplicit false

def multibootMemoryAvailable : BitVec 32 := 1

structure Scan where
  big : MultibootMmapEntry
  avaibleMem : Word

def scanEntry (s : Scan) (mmap : MultibootMmapEntry) : Scan :=
  if mmap.type = multibootMemoryAvailable then
    let s := { s with avaibleMem := s.avaibleMem + mmap.len.setWidth 32 }
    if mmap.len > s.big.len then { s with big := mmap } else s
  else s

def scanMap (map : List MultibootMmapEntry) : Scan := map.foldl scanEntry ⟨⟨0, 0, 0, 0⟩, 0⟩

/-- `&kernel_start`, as base/link.ld places it. -/
def kernelStart : Word := 0x100000

/-- `&kernel_end - &kernel_start`, in steps of `sizeof(int)`. -/
def kernelInts (kernelEnd : Word) : Word := (kernelEnd - kernelStart).sdiv 4

def cutKernel (kernelEnd : Word) (big : MultibootMmapEntry) : MultibootMmapEntry :=
  if big.addr = kernelStart.setWidth 64 then
    { big with
      addr := kernelEnd.setWidth 64
      len := big.len - (kernelInts kernelEnd).signExtend 64 }
  else big

def heapRegion (map : List MultibootMmapEntry) (kernelEnd : Word) : MultibootMmapEntry :=
  cutKernel kernelEnd (scanMap map).big

def MultibootMmapEntry.range (e : MultibootMmapEntry) : Set Nat :=
  Set.Ico e.addr.toNat (e.addr.toNat + e.len.toNat)

def kernelImage (kernelEnd : Word) : Set Nat := Set.Ico kernelStart.toNat kernelEnd.toNat

structure RegionOk (map : List MultibootMmapEntry) (kernelEnd : Word) (big : MultibootMmapEntry) :
    Prop where
  inside : ∃ e ∈ map, e.type = multibootMemoryAvailable ∧ big.range ⊆ e.range
  spares : Disjoint big.range (kernelImage kernelEnd)
  low : big.addr.toNat + big.len.toNat ≤ 2 ^ 32

def FirstLongest (map : List MultibootMmapEntry) (e : MultibootMmapEntry) : Prop :=
  ∃ before after, map = before ++ e :: after ∧ e.type = multibootMemoryAvailable ∧
    (∀ x ∈ before, x.type = multibootMemoryAvailable → x.len < e.len) ∧
    ∀ x ∈ after, x.type = multibootMemoryAvailable → x.len ≤ e.len

/-- When the region is chosen well: the entry neither begins with the kernel nor meets it nor
reaches above 4 GiB, or other AVAILABLE memory happens to stand behind the wrong length. -/
def ChosenWell (map : List MultibootMmapEntry) (kernelEnd : Word) (e : MultibootMmapEntry) : Prop :=
  (e.addr ≠ kernelStart.setWidth 64 ∧ Disjoint e.range (kernelImage kernelEnd) ∧
    e.addr.toNat + e.len.toNat ≤ 2 ^ 32) ∨
  (e.addr = kernelStart.setWidth 64 ∧
    ∃ stop, stop = kernelEnd.toNat + (e.len - (kernelInts kernelEnd).signExtend 64).toNat ∧
      stop ≤ 2 ^ 32 ∧
      ∃ e' ∈ map, e'.type = multibootMemoryAvailable ∧ Set.Ico kernelEnd.toNat stop ⊆ e'.range)

variable {map l : List MultibootMmapEntry} {kernelEnd : Word} {e x : MultibootMmapEntry} {s : Scan}

theorem scanEntry_big : (scanEntry s x).big =
    if x.type = multibootMemoryAvailable ∧ s.big.len < x.len then x else s.big := by
  unfold scanEntry
  split
  next available =>
    dsimp only
    by_cases longer : s.big.len < x.len
    · rw [if_pos longer, if_pos ⟨available, longer⟩]
    · rw [if_neg longer, if_neg fun both => longer both.2]
  next other => rw [if_neg fun both => other both.1]

/-- The scan keeps its entry unless a longer one follows; then it ends at the first longest. -/
theorem foldl_scan_big (map : List MultibootMmapEntry) (s : Scan) :
    ((∀ x ∈ map, x.type = multibootMemoryAvailable → x.len ≤ s.big.len) ∧
      (map.foldl scanEntry s).big = s.big) ∨
    ∃ e, FirstLongest map e ∧ s.big.len < e.len ∧ (map.foldl scanEntry s).big = e := by
  induction map generalizing s with
  | nil => exact .inl ⟨by simp, rfl⟩
  | cons x map ih =>
    rw [List.foldl_cons]
    have step := scanEntry_big (s := s) (x := x)
    by_cases taken : x.type = multibootMemoryAvailable ∧ s.big.len < x.len
    · rw [if_pos taken] at step
      obtain ⟨most, last⟩ | ⟨e, ⟨before, after, rfl, available, first, rest⟩, longer, last⟩ :=
        ih (scanEntry s x)
      · rw [step] at most last
        exact .inr ⟨x, ⟨[], map, rfl, taken.1, by simp, most⟩, taken.2, last⟩
      · rw [step] at longer
        refine .inr ⟨e, ⟨x :: before, after, rfl, available, ?_, rest⟩,
          BitVec.lt_trans taken.2 longer, last⟩
        exact List.forall_mem_cons.mpr ⟨fun _ => longer, first⟩
    · rw [if_neg taken] at step
      have spared : x.type = multibootMemoryAvailable → x.len ≤ s.big.len :=
        fun available => BitVec.not_lt.mp fun longer => taken ⟨available, longer⟩
      obtain ⟨most, last⟩ | ⟨e, ⟨before, after, rfl, available, first, rest⟩, longer, last⟩ :=
        ih (scanEntry s x)
      · rw [step] at most last
        exact .inl ⟨List.forall_mem_cons.mpr ⟨spared, most⟩, last⟩
      · rw [step] at longer
        refine .inr ⟨e, ⟨x :: before, after, rfl, available, ?_, rest⟩, longer, last⟩
        exact List.forall_mem_cons.mpr
          ⟨fun available => BitVec.lt_def.mpr ((BitVec.le_def.mp (spared available)).trans_lt longer), first⟩

/-- With an AVAILABLE entry of positive length the scan finds the first longest one. -/
theorem scanMap_big (positive : ∃ x ∈ map, x.type = multibootMemoryAvailable ∧ 0 < x.len.toNat) :
    FirstLongest map (scanMap map).big := by
  obtain ⟨most, _⟩ | ⟨e, first, _, last⟩ := foldl_scan_big map ⟨⟨0, 0, 0, 0⟩, 0⟩
  · obtain ⟨x, mem, available, positive⟩ := positive
    have zero : x.len.toNat ≤ 0 := BitVec.le_def.mp (most x mem available)
    omega
  · rw [scanMap, last]
    exact first

theorem FirstLongest.mem (first : FirstLongest map e) :
    e ∈ map ∧ e.type = multibootMemoryAvailable := by
  obtain ⟨before, after, rfl, available, _⟩ := first
  exact ⟨by simp, available⟩

theorem regionOk_uncut (first : FirstLongest map e) (elsewhere : e.addr ≠ kernelStart.setWidth 64) :
    RegionOk map kernelEnd (cutKernel kernelEnd e) ↔
      Disjoint e.range (kernelImage kernelEnd) ∧ e.addr.toNat + e.len.toNat ≤ 2 ^ 32 := by
  rw [cutKernel, if_neg elsewhere]
  constructor
  · intro ok
    exact ⟨ok.spares, ok.low⟩
  · rintro ⟨spares, low⟩
    obtain ⟨mem, available⟩ := first.mem
    exact ⟨⟨e, mem, available, subset_rfl⟩, spares, low⟩

theorem kernelEnd_toNat : (kernelEnd.setWidth 64).toNat = kernelEnd.toNat :=
  BitVec.toNat_setWidth_of_le (by decide)

theorem regionOk_cut (here : e.addr = kernelStart.setWidth 64) :
    RegionOk map kernelEnd (cutKernel kernelEnd e) ↔
      ∃ stop, stop = kernelEnd.toNat + (e.len - (kernelInts kernelEnd).signExtend 64).toNat ∧
        stop ≤ 2 ^ 32 ∧
        ∃ e' ∈ map, e'.type = multibootMemoryAvailable ∧ Set.Ico kernelEnd.toNat stop ⊆ e'.range := by
  rw [cutKernel, if_pos here]
  constructor
  · rintro ⟨inside, _, low⟩
    simp only [MultibootMmapEntry.range, kernelEnd_toNat] at inside low
    exact ⟨_, rfl, low, inside⟩
  · rintro ⟨stop, rfl, low, inside⟩
    refine ⟨?_, ?_, ?_⟩
    · simpa only [MultibootMmapEntry.range, kernelEnd_toNat] using inside
    · rw [Set.disjoint_left]
      rintro x ⟨above, _⟩ ⟨_, below⟩
      rw [kernelEnd_toNat] at above
      exact absurd below (Nat.not_lt.mpr above)
    · rwa [kernelEnd_toNat]

/-- Given an AVAILABLE entry that is longer than the kernel, the region is right if and only
if the first longest entry is chosen well. -/
theorem region_ok_iff
    (bigger : ∃ x ∈ map, x.type = multibootMemoryAvailable ∧
      kernelEnd.toNat - kernelStart.toNat < x.len.toNat) :
    ∃ e, FirstLongest map e ∧
      (RegionOk map kernelEnd (heapRegion map kernelEnd) ↔ ChosenWell map kernelEnd e) := by
  obtain ⟨x, mem, available, longer⟩ := bigger
  have first := scanMap_big ⟨x, mem, available, Nat.zero_lt_of_lt longer⟩
  refine ⟨_, first, ?_⟩
  rw [heapRegion, ChosenWell]
  by_cases here : (scanMap map).big.addr = kernelStart.setWidth 64
  · rw [regionOk_cut here]
    simp [here]
  · rw [regionOk_uncut first here]
    simp [here]

theorem kernelInts_toNat (order : kernelStart.toNat ≤ kernelEnd.toNat)
    (small : kernelEnd.toNat - kernelStart.toNat < 2 ^ 31) :
    ((kernelInts kernelEnd).signExtend 64).toNat = (kernelEnd.toNat - kernelStart.toNat) / 4 := by
  have size : (kernelEnd - kernelStart).toNat = kernelEnd.toNat - kernelStart.toNat :=
    BitVec.toNat_sub_of_le (BitVec.le_def.mpr order)
  have positive : (kernelEnd - kernelStart).msb = false := by
    rw [BitVec.msb_eq_false_iff_two_mul_lt, size]
    omega
  have quotient : kernelInts kernelEnd = (kernelEnd - kernelStart) / 4 := by
    rw [kernelInts, BitVec.sdiv_eq, positive]
    rfl
  have value : (kernelInts kernelEnd).toNat = (kernelEnd.toNat - kernelStart.toNat) / 4 := by
    rw [quotient, BitVec.toNat_udiv, size]
    rfl
  have sign : (kernelInts kernelEnd).msb = false := by
    rw [BitVec.msb_eq_false_iff_two_mul_lt, value]
    omega
  rw [BitVec.signExtend_eq_setWidth_of_msb_false sign, BitVec.toNat_setWidth_of_le (by decide), value]

/-- What is cut off the length is too little: the region ends behind its entry. -/
theorem cut_exceeds (here : e.addr = kernelStart.setWidth 64)
    (order : kernelStart.toNat + 4 ≤ kernelEnd.toNat)
    (small : kernelEnd.toNat - kernelStart.toNat < 2 ^ 31)
    (longer : kernelEnd.toNat - kernelStart.toNat < e.len.toNat) :
    ¬ (cutKernel kernelEnd e).range ⊆ e.range := by
  intro inside
  have ints := kernelInts_toNat (by omega) small
  have start : e.addr.toNat = kernelStart.toNat := by rw [here]; rfl
  have length : (e.len - (kernelInts kernelEnd).signExtend 64).toNat =
      e.len.toNat - (kernelEnd.toNat - kernelStart.toNat) / 4 := by
    rw [BitVec.toNat_sub_of_le (BitVec.le_def.mpr (by omega)), ints]
  have behind : e.addr.toNat + e.len.toNat ∈ (cutKernel kernelEnd e).range := by
    rw [cutKernel, if_pos here, MultibootMmapEntry.range, Set.mem_Ico]
    dsimp only
    rw [kernelEnd_toNat, length, start]
    omega
  exact absurd (inside behind).2 (lt_irrefl _)

/-- 127 MiB from the kernel on. -/
def sampleEntry : MultibootMmapEntry := ⟨20, 0x100000, 0x7F00000, 1⟩

/-- Low memory, the entry of the kernel, a longer reserved one and the longest AVAILABLE one. -/
def sampleMap : List MultibootMmapEntry :=
  [⟨20, 0, 0x9FC00, 1⟩, ⟨20, 0x100000, 0x100000, 1⟩, ⟨20, 0x200000, 0x9000000, 2⟩,
    ⟨20, 0x9200000, 0x7E00000, 1⟩]

theorem sampleMap_longest (first : FirstLongest sampleMap e) : e = ⟨20, 0x9200000, 0x7E00000, 1⟩ := by
  obtain ⟨before, after, split, available, earlier, later⟩ := first
  have most : ∀ x ∈ sampleMap, x.type = multibootMemoryAvailable → x.len ≤ e.len := by
    intro x mem isAvailable
    rw [split] at mem
    rcases List.mem_append.mp mem with mem | mem
    · exact BitVec.le_of_lt (earlier x mem isAvailable)
    · obtain rfl | mem := List.mem_cons.mp mem
      · exact BitVec.le_refl _
      · exact later x mem isAvailable
  have long := most ⟨20, 0x9200000, 0x7E00000, 1⟩ (by simp [sampleMap]) rfl
  have mem : e ∈ sampleMap := split ▸ List.mem_append_right before List.mem_cons_self
  simp only [sampleMap, List.mem_cons, List.not_mem_nil, or_false] at mem
  rcases mem with rfl | rfl | rfl | rfl
  · exact absurd long (by decide)
  · exact absurd long (by decide)
  · exact absurd available (by decide)
  · rfl

theorem region_ok_sample : RegionOk sampleMap 0x180000 (heapRegion sampleMap 0x180000) := by
  obtain ⟨e, first, ok⟩ := @region_ok_iff sampleMap 0x180000
    ⟨⟨20, 0x9200000, 0x7E00000, 1⟩, by simp [sampleMap], rfl, by decide⟩
  obtain rfl := sampleMap_longest first
  refine ok.mpr (.inl ⟨by decide, ?_, by decide⟩)
  exact Set.Ico_disjoint_Ico.mpr (by decide)

/-- A kernel of 1 MiB at the front of the only entry: the region ends 768 KiB behind it. -/
theorem region_misses :
    sampleEntry.type = multibootMemoryAvailable ∧
    kernelImage 0x200000 ⊆ sampleEntry.range ∧
    ¬ RegionOk [sampleEntry] 0x200000 (heapRegion [sampleEntry] 0x200000) := by
  refine ⟨rfl, ?_, ?_⟩
  · exact Set.Ico_subset_Ico le_rfl (by decide)
  · rintro ⟨⟨e, mem, _, inside⟩, _, _⟩
    obtain rfl := List.mem_singleton.mp mem
    exact cut_exceeds rfl (by decide) (by decide) (by decide) inside

end X86Os.Heap
