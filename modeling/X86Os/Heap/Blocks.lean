import X86Os.Heap.Walk

/-!
# What one call of malloc or free does to the blocks

A call of `malloc` fails, claims a free block, or writes a header where the walk
ended; a call of `free` clears at most one byte. The headers of the other blocks
are spared each time.
-/

namespace X86Os.Heap

open Library.Memory Relation
set_option autoImplicit false

variable {big : MultibootMmapEntry} {m : Mem} {h h' : HeapState} {d e q x p stale : Word}
  {size : BitVec 64}

/-- How the walk got to `d` decides what its variable `prev` holds there. -/
def Precedes (big : MultibootMmapEntry) (m : Mem) (stale prev d : Word) : Prop :=
  (prev = stale ∧ d = firstHeader big) ∨ (Header big m prev ∧ nextHeader m prev = d)

inductive MallocResult (big : MultibootMmapEntry) (stale : Word) (size : BitVec 64)
    (h : HeapState) : Word → HeapState → Prop
  | failed : MallocResult big stale size h mallocFailed h
  | reused {d : Word} (header : Header big h.mem d) (isFree : allocated h.mem d = false)
      (large : size ≤ (blockSize h.mem d).signExtend 64) :
      MallocResult big stale size h (advance d sizeofAllocStruct)
        { h with mem := store8 h.mem d 1 }
  | fresh {d prev : Word} (visited : Visited big h.mem d) (region : inRegion big d = true)
      (unmarked : checkMagic h.mem d = false) (room : hasRoom big d size = true)
      (before : Precedes big h.mem stale prev d) :
      MallocResult big stale size h (d + 4 * sizeofAllocStruct) (writeHeader h d prev size)

theorem mallocLoop_result {fuel : Nat} {prev : Word} (visited : Visited big h.mem d)
    (before : Precedes big h.mem stale prev d)
    (run : mallocLoop big size h fuel d prev = some (p, h')) :
    MallocResult big stale size h p h' := by
  induction fuel generalizing d prev with
  | zero => cases run
  | succ fuel ih =>
    rw [mallocLoop] at run
    split at run
    · rename_i region
      split at run
      · rename_i magic
        have header : Header big h.mem d := ⟨visited, region, magic⟩
        split at run
        · rename_i suits
          rw [Bool.and_eq_true, Bool.not_eq_true', decide_eq_true_eq] at suits
          obtain ⟨rfl, rfl⟩ := Prod.mk.inj (Option.some.inj run)
          exact .reused header suits.1 suits.2
        · exact ih header.next (.inr ⟨header, rfl⟩) run
      · rename_i unmarked
        split at run
        · rename_i room
          obtain ⟨rfl, rfl⟩ := Prod.mk.inj (Option.some.inj run)
          exact .fresh visited region (Bool.eq_false_iff.mpr unmarked) room before
        · obtain ⟨rfl, rfl⟩ := Prod.mk.inj (Option.some.inj run)
          exact .failed
    · obtain ⟨rfl, rfl⟩ := Prod.mk.inj (Option.some.inj run)
      exact .failed

theorem malloc_result {fuel : Nat} (run : malloc big fuel stale size h = some (p, h')) :
    MallocResult big stale size h p h' :=
  mallocLoop_result .refl (.inl ⟨rfl, rfl⟩) run

theorem offset_toNat {k : Word} (bound : d.toNat + k.toNat < 2 ^ 32) :
    (d + k).toNat = d.toNat + k.toNat := by
  rw [BitVec.toNat_add, Nat.mod_eq_of_lt bound]

theorem blockEnd_ge (m : Mem) (d : Word) : d.toNat + 784 ≤ blockEnd m d := by
  rw [blockEnd]
  omega

theorem header_offset_toNat (fits : blockEnd m d < 2 ^ 32) {k : Word} (hk : k.toNat < 784) :
    (d + k).toNat = d.toNat + k.toNat := by
  have := blockEnd_ge m d
  exact offset_toNat (by omega)

theorem writeHeader_outside (own : ¬Covers d 28 x) (link : ¬Covers (q + 24) 4 x) :
    (writeHeader h d q size).mem x = h.mem x := by
  have part {j : Word} {n : Nat} (inside : j.toNat + n ≤ 28) : ¬Covers (d + j) n x :=
    fun covered => own (covered.whole inside)
  have zero : x ≠ d := by
    rintro rfl
    simp [Covers] at own
  simp only [writeHeader, setSignature]
  rw [store32_outside (part (by decide)), store32_outside (part (by decide)),
    storeBytes_outside (part (by decide)), store32_outside link,
    store32_outside (part (by decide)), store8_other zero]

theorem writeHeader_size : blockSize (writeHeader h d q size).mem d = size.setWidth 32 := by
  simp only [blockSize, writeHeader]
  refine (load32_congr fun k hk => store32_outside ?_).trans (load32_store32 _ _ _)
  rw [add_assoc, covers_add_add, covers_iff (by decide), BitVec.toNat_add]
  bv_omega

theorem writeHeader_counts : (writeHeader h d q size).allocId ≠ h.allocId := by
  intro same
  have one : h.allocId + 1 = h.allocId + 0 := by rw [add_zero]; exact same
  exact absurd (add_left_cancel one) (by decide)

theorem setSignature_magic : checkMagic (setSignature m d) d = true := by
  have byte (k : Word) (hk : k.toNat < 6) : setSignature m d (d + 12 + k) = magicBytes[k.toNat] :=
    storeBytes_add hk
  have b0 := byte 0 (by decide)
  rw [add_zero] at b0
  rw [checkMagic, b0, show d + 13 = d + 12 + 1 by ring, byte 1 (by decide),
    show d + 14 = d + 12 + 2 by ring, byte 2 (by decide), show d + 15 = d + 12 + 3 by ring,
    byte 3 (by decide), show d + 16 = d + 12 + 4 by ring, byte 4 (by decide),
    show d + 17 = d + 12 + 5 by ring, byte 5 (by decide)]
  rfl

theorem checkMagic_store32 {j v : Word} (low : j.toNat + 4 ≤ 12) :
    checkMagic (store32 m (d + j) v) d = checkMagic m d := by
  apply checkMagic_congr
  intro k hk _
  apply store32_outside
  rw [covers_add_add, covers_iff (by omega)]
  omega

theorem writeHeader_magic : checkMagic (writeHeader h d q size).mem d = true := by
  rw [writeHeader, checkMagic_store32 (by decide), checkMagic_store32 (by decide), setSignature_magic]

theorem writeHeader_allocated (link : ¬Covers (q + 24) 4 d) :
    allocated (writeHeader h d q size).mem d = true := by
  have part {j : Word} {n : Nat} (low : 0 < j.toNat) (high : j.toNat + n ≤ 28) :
      ¬Covers (d + j) n d := by
    rw [Covers, show d - (d + j) = -j by ring, BitVec.toNat_neg]
    omega
  simp only [allocated, writeHeader, setSignature]
  rw [store32_outside (part (by decide) (by decide)), store32_outside (part (by decide) (by decide)),
    storeBytes_outside (part (by decide) (by decide)), store32_outside link,
    store32_outside (part (by decide) (by decide)), store8_same]
  rfl

theorem block_unique (fits : StridesFit big m) (hd : Header big m d) (he : Header big m e)
    (inD : d.toNat ≤ x.toNat ∧ x.toNat < blockEnd m d)
    (inE : e.toNat ≤ x.toNat ∧ x.toNat < blockEnd m e) : d = e := by
  rcases visited_order fits hd.visited he.visited with same | ⟨_, le⟩ | ⟨_, le⟩
  · exact same
  · omega
  · omega

theorem header_offset_mem (fits : StridesFit big m) (header : Header big m e) {k : Word}
    (hk : k.toNat < 784) : e.toNat ≤ (e + k).toNat ∧ (e + k).toNat < blockEnd m e := by
  have := blockEnd_ge m e
  rw [header_offset_toNat (fits e header) hk]
  omega

theorem header_ne_interior (fits : StridesFit big m) (hd : Header big m d) (he : Header big m e)
    (low : d.toNat + 28 ≤ x.toNat) (high : x.toNat < blockEnd m d) {k : Word} (hk : k.toNat < 28) :
    e + k ≠ x := by
  rintro rfl
  have same := block_unique fits hd he ⟨by omega, high⟩ (header_offset_mem fits he (by omega))
  subst same
  rw [header_offset_toNat (fits d hd) (by omega)] at low
  omega

theorem header_ne_flag (fits : StridesFit big m) (hd : Header big m d) (he : Header big m e)
    {k : Word} (hk : k.toNat < 28) (other : d ≠ e ∨ 0 < k.toNat) : e + k ≠ d := by
  rintro rfl
  have inE := header_offset_mem fits he (show k.toNat < 784 by omega)
  have same := block_unique fits hd he ⟨le_rfl, by have := blockEnd_ge m (e + k); omega⟩ inE
  have sum := header_offset_toNat (fits e he) (show k.toNat < 784 by omega)
  rw [same] at sum
  exact other.elim (fun ne => ne same) fun pos => by omega

theorem header_before_unmarked (fits : StridesFit big m) (visited : Visited big m d)
    (unmarked : checkMagic m d = false) (header : Header big m e) : blockEnd m e ≤ d.toNat := by
  rcases visited_order fits header.visited visited with rfl | ⟨_, le⟩ | ⟨hd, _⟩
  · exact absurd header.magic (by simp [unmarked])
  · exact le
  · exact absurd hd.magic (by simp [unmarked])

/-- The fresh path writes no magic, size or flag byte of an existing block. -/
theorem writeHeader_spares (fits : StridesFit big h.mem) (visited : Visited big h.mem d)
    (unmarked : checkMagic h.mem d = false) (before : Precedes big h.mem stale q d)
    (room : d.toNat + 28 ≤ 2 ^ 32) (header : Header big h.mem e) {k : Word} (hk : k.toNat < 18) :
    (writeHeader h d q size).mem (e + k) = h.mem (e + k) := by
  have he := blockEnd_ge h.mem e
  have byte := header_offset_toNat (fits e header) (show k.toNat < 784 by omega)
  have ends := header_before_unmarked fits visited unmarked header
  apply writeHeader_outside
  · rw [covers_iff room]
    omega
  · rcases before with ⟨_, rfl⟩ | ⟨hq, rfl⟩
    · have := firstHeader_le fits header.visited
      omega
    · have hqEnd := fits q hq
      rw [nextHeader_toNat hqEnd] at ends
      rcases visited_order fits header.visited hq.visited with rfl | ⟨_, le⟩ | ⟨_, le⟩
      · rw [covers_add_add, covers_iff (by decide)]
        bv_omega
      · have ge := blockEnd_ge h.mem q
        have link := header_offset_toNat hqEnd (show (24 : Word).toNat < 784 by decide)
        have : (24 : Word).toNat = 24 := rfl
        rw [covers_iff (by omega)]
        omega
      · omega

end X86Os.Heap
