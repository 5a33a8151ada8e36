import Mathlib.Logic.Relation
import X86Os.Heap.Malloc

/-!
# Where the walk of malloc goes

The walk passes from header to header. Under the bound that no stride leaves the
32-bit address space the visited positions increase, each block ends before
the next position, and a write that spares the headers leaves the walk alone.
-/

namespace X86Os.Heap

open Library.Memory Relation
set_option autoImplicit false

variable {big : MultibootMmapEntry} {m m' : Mem} {d e x : Word}

def WalkStep (big : MultibootMmapEntry) (m : Mem) (d e : Word) : Prop :=
  inRegion big d = true ∧ checkMagic m d = true ∧ e = nextHeader m d

/-- The loop head of some call of `malloc` holds the pointer `d`. -/
def Visited (big : MultibootMmapEntry) (m : Mem) (d : Word) : Prop :=
  ReflTransGen (WalkStep big m) (firstHeader big) d

structure Header (big : MultibootMmapEntry) (m : Mem) (d : Word) : Prop where
  visited : Visited big m d
  inRegion : inRegion big d = true
  magic : checkMagic m d = true

/-- The end of the block at `d`, not reduced to 32 bits. -/
def blockEnd (m : Mem) (d : Word) : Nat := d.toNat + 28 * ((blockSize m d).toNat + 28)

/-- No stride on the walk leaves the 32-bit address space. -/
def StridesFit (big : MultibootMmapEntry) (m : Mem) : Prop :=
  ∀ d, Header big m d → blockEnd m d < 2 ^ 32

theorem nextHeader_toNat (fits : blockEnd m d < 2 ^ 32) : (nextHeader m d).toNat = blockEnd m d := by
  have step : (28 : Word).toNat = 28 := rfl
  rw [blockEnd] at fits
  simp only [nextHeader, advance, sizeofAllocStruct, BitVec.toNat_add, BitVec.toNat_mul, step,
    blockEnd]
  omega

theorem Header.step (header : Header big m d) : WalkStep big m d (nextHeader m d) :=
  ⟨header.inRegion, header.magic, rfl⟩

theorem Header.next (header : Header big m d) : Visited big m (nextHeader m d) :=
  header.visited.tail header.step

theorem walkStep_rightUnique : Relator.RightUnique (WalkStep big m) := by
  rintro d e e' ⟨_, _, rfl⟩ ⟨_, _, rfl⟩
  rfl

theorem path_order (fits : StridesFit big m) (visited : Visited big m d)
    (path : ReflTransGen (WalkStep big m) d e) :
    d = e ∨ Header big m d ∧ blockEnd m d ≤ e.toNat := by
  induction path with
  | refl => exact .inl rfl
  | @tail b c path step ih =>
    obtain ⟨region, magic, rfl⟩ := step
    have header : Header big m b := ⟨visited.trans path, region, magic⟩
    have hb := fits b header
    have next := nextHeader_toNat hb
    rcases ih with rfl | ⟨hd, le⟩
    · exact .inr ⟨header, next.ge⟩
    · have grows : b.toNat ≤ blockEnd m b := Nat.le_add_right _ _
      exact .inr ⟨hd, le.trans (grows.trans next.ge)⟩

/-- Of two visited positions one is a header whose block ends before the other. -/
theorem visited_order (fits : StridesFit big m) (hd : Visited big m d) (he : Visited big m e) :
    d = e ∨ (Header big m d ∧ blockEnd m d ≤ e.toNat) ∨ (Header big m e ∧ blockEnd m e ≤ d.toNat) := by
  rcases ReflTransGen.total_of_right_unique walkStep_rightUnique hd he with path | path
  · exact (path_order fits hd path).imp_right .inl
  · exact (path_order fits he path).elim (fun h => .inl h.symm) fun h => .inr (.inr h)

theorem path_from_unmarked (unmarked : checkMagic m d = false)
    (path : ReflTransGen (WalkStep big m) d e) : e = d := by
  rcases ReflTransGen.cases_head path with rfl | ⟨_, ⟨_, magic, _⟩, _⟩
  · rfl
  · rw [unmarked] at magic
    cases magic

theorem firstHeader_toNat (low : big.addr.toNat + 28 < 2 ^ 32) :
    (firstHeader big).toNat = big.addr.toNat + 28 := by
  have h28 : (28 : BitVec 64).toNat = 28 := rfl
  rw [firstHeader, BitVec.toNat_setWidth, BitVec.toNat_add]
  omega

theorem firstHeader_le (fits : StridesFit big m) (hd : Visited big m d) :
    (firstHeader big).toNat ≤ d.toNat := by
  rcases path_order fits .refl hd with rfl | ⟨_, le⟩
  · exact le_rfl
  · exact (Nat.le_add_right _ _).trans le

theorem Visited.transfer
    (same : ∀ d, Header big m d → checkMagic m' d = true ∧ blockSize m' d = blockSize m d)
    (visited : Visited big m d) : Visited big m' d := by
  induction visited with
  | refl => exact .refl
  | @tail b c path step ih =>
    obtain ⟨region, magic, rfl⟩ := step
    obtain ⟨magic', size⟩ := same b ⟨path, region, magic⟩
    refine ih.tail ⟨region, magic', ?_⟩
    rw [nextHeader, nextHeader, size]

theorem Header.transfer
    (same : ∀ d, Header big m d → checkMagic m' d = true ∧ blockSize m' d = blockSize m d)
    (header : Header big m d) : Header big m' d :=
  ⟨header.visited.transfer same, header.inRegion, (same d header).1⟩

theorem checkMagic_congr (same : ∀ k : Word, 12 ≤ k.toNat → k.toNat < 18 → m' (d + k) = m (d + k)) :
    checkMagic m' d = checkMagic m d := by
  rw [checkMagic, checkMagic, same 12 (by decide) (by decide), same 13 (by decide) (by decide),
    same 14 (by decide) (by decide), same 15 (by decide) (by decide),
    same 16 (by decide) (by decide), same 17 (by decide) (by decide)]

theorem blockSize_congr (same : ∀ k : Word, 8 ≤ k.toNat → k.toNat < 12 → m' (d + k) = m (d + k)) :
    blockSize m' d = blockSize m d := by
  apply load32_congr
  intro k hk
  have sum : (8 + k).toNat = 8 + k.toNat := by
    rw [BitVec.toNat_add]
    bv_omega
  rw [add_assoc]
  exact same (8 + k) (by omega) (by omega)

end X86Os.Heap
