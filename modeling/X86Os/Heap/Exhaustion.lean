import X86Os.Heap.Payload
import X86Os.Heap.Progress

/-!
# Whether malloc gives up too early

The strides use up 28 times the bytes that the blocks take, so `malloc` gives up
while most of the region is free. A single call is refused rightly on a condition
on the blocks of its walk; a list of requests on the fresh heap is served as long
as each position that the strides lead to passes the two tests.
-/

namespace X86Os.Heap

open Library.Memory Library.Runs Relation
set_option autoImplicit false

variable {big : MultibootMmapEntry} {m m₀ : Mem} {h h' h₀ : HeapState} {d e p stale : Word}
variable {l : List Word} {size : BitVec 64} {fuel : Nat} {reqs : List (Word × BitVec 64)}

structure Exhausted (big : MultibootMmapEntry) (m : Mem) (l : List Word) (size : BitVec 64) :
    Prop where
  free : ∀ d ∈ l, allocated m d = false → (blockSize m d).toNat < size.toNat
  full : big.len.toNat < (l.map fun d => 28 + (blockSize m d).toNat).sum + 28 + size.toNat

/-- A call fails only if no block on the walk can serve it and the region has no room left. -/
def FailsWhenExhausted (big : MultibootMmapEntry) (size : BitVec 64) (h : HeapState)
    (l : List Word) : Prop :=
  ∀ fuel stale h', malloc big fuel stale size h = some (mallocFailed, h') →
    Exhausted big h.mem l size

/-- The requests, each with the stale `prev` of its call, are served one after the other. -/
inductive FullyServed (big : MultibootMmapEntry) : HeapState → List (Word × BitVec 64) → Prop
  | nil {h : HeapState} : FullyServed big h []
  | cons {h h' : HeapState} {stale p : Word} {size : BitVec 64} {fuel : Nat}
      {reqs : List (Word × BitVec 64)} (run : malloc big fuel stale size h = some (p, h'))
      (success : p ≠ mallocFailed) (rest : FullyServed big h' reqs) :
      FullyServed big h ((stale, size) :: reqs)

def behindBlock (d : Word) (size : BitVec 64) : Word :=
  advance d (size.setWidth 32 + sizeofAllocStruct)

/-- Each position that the strides lead to passes the loop test and has room for its request. -/
def Lands (big : MultibootMmapEntry) : Word → List (Word × BitVec 64) → Prop
  | _, [] => True
  | d, (_, size) :: reqs =>
    (inRegion big d = true ∧ hasRoom big d size = true) ∧ Lands big (behindBlock d size) reqs

/-- No stride but the last one leaves the address space, and no position has a leftover magic. -/
def Unspoiled (big : MultibootMmapEntry) (m₀ : Mem) : Word → List (Word × BitVec 64) → Prop
  | _, [] => True
  | d, (_, size) :: reqs =>
    (inRegion big d = true → (big.addr.toNat ≤ d.toNat ∧
      d.toNat + 18 ≤ big.addr.toNat + big.len.toNat) ∧ checkMagic m₀ d = false) ∧
    (reqs ≠ [] → d.toNat + 28 * (size.toNat + 28) < 2 ^ 32) ∧
    Unspoiled big m₀ (behindBlock d size) reqs

theorem too_small (tight : suits m size d = false) (isFree : allocated m d = false) :
    (blockSize m d).toNat < size.toNat := by
  rw [suits, isFree, Bool.not_false, Bool.true_and, decide_eq_false_iff_not, BitVec.not_le] at tight
  exact (signExtend_ge _).trans_lt (BitVec.lt_def.mp tight)

/-! ## One call -/

/-- A request is refused rightly if and only if a free block serves it, or the frontier has room
for it, or the region is exhausted anyway. -/
theorem failsWhenExhausted_iff (low : big.addr.toNat + big.len.toNat ≤ 2 ^ 32)
    (blocks : Blocks big h.mem (firstHeader big) l e) :
    FailsWhenExhausted big size h l ↔
      (∃ d ∈ l, suits h.mem size d = true) ∨
      (inRegion big (frontier big h.mem l) = true ∧
        hasRoom big (frontier big h.mem l) size = true) ∨
      big.len.toNat < (l.map fun d => 28 + (blockSize h.mem d).toNat).sum + 28 + size.toNat := by
  have ends : frontier big h.mem l = e := blocks.walked.end_eq.symm
  rw [ends]
  constructor
  · intro right
    by_cases served : ∃ d ∈ l, suits h.mem size d = true
    · exact .inl served
    by_cases room : inRegion big e = true ∧ hasRoom big e size = true
    · exact .inr (.inl room)
    have tight : ∀ b ∈ l, suits h.mem size b = false := by
      intro b hb
      exact Bool.eq_false_iff.mpr fun fits => served ⟨b, hb, fits⟩
    have run : mallocLoop big size h (l.length + 1) (firstHeader big) 0 = some (outcome big size h 0 l e) :=
      mallocLoop_returns blocks (Nat.lt_succ_self l.length)
    have failed : (outcome big size h 0 l e).1 = mallocFailed :=
      (outcome_failed_iff low blocks).mpr ⟨tight, room⟩
    refine .inr (.inr (right (l.length + 1) 0 (outcome big size h 0 l e).2 ?_).full)
    rw [malloc, run, ← failed]
  · intro condition fuel stale h' run
    have result := mallocLoop_outcome blocks run
    obtain ⟨tight, noRoom⟩ := (outcome_failed_iff low blocks).mp (congrArg Prod.fst result).symm
    refine ⟨fun d hd isFree => too_small (tight d hd) isFree, ?_⟩
    obtain ⟨d, hd, fits⟩ | room | full := condition
    · rw [tight d hd] at fits
      cases fits
    · exact absurd room noRoom
    · exact full

/-- A walk without an end never refuses. -/
theorem malloc_refuses_at_end (low : big.addr.toNat + big.len.toNat ≤ 2 ^ 32)
    (run : malloc big fuel stale size h = some (mallocFailed, h')) :
    ∃ l e, Blocks big h.mem (firstHeader big) l e := by
  obtain ⟨d, last, ⟨l, walked, _⟩, round⟩ := mallocLoop_arrives arrives_first run
  refine ⟨l, d, walked.blocks fun region => Bool.eq_false_iff.mpr fun magic => ?_⟩
  rw [mallocLoop_block region magic] at round
  split at round
  next =>
    have failed := congrArg Prod.fst (Option.some.inj round)
    exact offset_ne_failed (inRegion_low low region) (by decide) failed
  next => cases round

/-! ## Lists of requests on a fresh heap -/

structure Filled (big : MultibootMmapEntry) (m₀ : Mem) (h : HeapState) (l : List Word) (e : Word) :
    Prop where
  laid : Laid big m₀ h.mem l e
  taken : ∀ b ∈ l, allocated h.mem b = true

theorem Filled.tight (filled : Filled big m₀ h l e) : ∀ b ∈ l, suits h.mem size b = false := by
  intro b hb
  rw [suits, filled.taken b hb]
  rfl

theorem Filled.place (filled : Filled big m₀ h l e) (blocks : Blocks big h.mem (firstHeader big) l e)
    (harmless : e = firstHeader big → ∀ x, Covers (stale + 24) 4 x → ¬HeapByte big x)
    (region : inRegion big e = true) (bound : e.toNat + 28 * (size.toNat + 28) < 2 ^ 32) :
    Filled big m₀ (writeHeader h e (l.getLastD stale) size) (l ++ [e]) (behindBlock e size) := by
  have fits := filled.laid.stridesFit blocks
  have before : Precedes big h.mem stale (l.getLastD stale) e :=
    filled.laid.walked.precedes .refl (.inl ⟨rfl, rfl⟩)
  have ends : nextHeader (writeHeader h e (l.getLastD stale) size).mem e = behindBlock e size := by
    rw [nextHeader, writeHeader_size, behindBlock]
  refine ⟨ends ▸ filled.laid.place blocks harmless region bound, fun b mem => ?_⟩
  obtain old | new := List.mem_append.mp mem
  · rw [fresh_spares_flag size fits filled.laid.walked.path (blocks.ends region) before (by omega)
      (filled.laid.walked.header .refl old)]
    exact filled.taken b old
  · rw [List.mem_singleton.mp new]
    refine writeHeader_allocated (link_spares_flag fits before fun first covered => ?_)
    exact harmless first e covered (.inr (by simp [← first, Covers]))

theorem behindBlock_toNat (bound : d.toNat + 28 * (size.toNat + 28) < 2 ^ 32) :
    (behindBlock d size).toNat = d.toNat + 28 * (size.toNat + 28) := by
  have step : (28 : Word).toNat = 28 := rfl
  have narrow : (size.setWidth 32).toNat = size.toNat := by
    rw [BitVec.toNat_setWidth]
    exact Nat.mod_eq_of_lt (by omega)
  simp only [behindBlock, advance, sizeofAllocStruct, BitVec.toNat_add, BitVec.toNat_mul, step, narrow]
  omega

theorem fullyServed_cons : FullyServed big h ((stale, size) :: reqs) ↔
    ∃ fuel p h', malloc big fuel stale size h = some (p, h') ∧ p ≠ mallocFailed ∧
      FullyServed big h' reqs := by
  constructor
  · intro served
    cases served with
    | cons run success rest => exact ⟨_, _, _, run, success, rest⟩
  · rintro ⟨fuel, p, h', run, success, rest⟩
    exact .cons run success rest

theorem Filled.served_iff (low : big.addr.toNat + big.len.toNat ≤ 2 ^ 32)
    (filled : Filled big (setupRoot big h₀).mem h l e)
    (unspoiled : Unspoiled big h₀.mem e reqs)
    (harmless : ∀ r ∈ reqs.head?, e = firstHeader big → ∀ x, Covers (r.1 + 24) 4 x → ¬HeapByte big x) :
    FullyServed big h reqs ↔ Lands big e reqs := by
  induction reqs generalizing h l e with
  | nil => exact iff_of_true .nil trivial
  | cons request reqs ih =>
    obtain ⟨stale, size⟩ := request
    obtain ⟨clear, bound, later⟩ := unspoiled
    have blocks : Blocks big h.mem (firstHeader big) l e := by
      refine filled.laid.walked.blocks fun region => ?_
      obtain ⟨⟨above, below⟩, unmarked⟩ := clear region
      rw [filled.laid.leftover low region above below, unmarked]
    have spared := harmless (stale, size) rfl
    -- The next position lies behind the first one, so its link has a header to go to.
    have rest (region : inRegion big e = true) :
        FullyServed big (writeHeader h e (l.getLastD stale) size) reqs ↔
          Lands big (behindBlock e size) reqs := by
      obtain none | some := eq_or_ne reqs []
      · subst none
        exact iff_of_true .nil trivial
      have first := filled.laid.walked.above filled.laid.fits
      have next := behindBlock_toNat (bound some)
      refine ih (filled.place blocks spared region (bound some)) later fun r _ same => ?_
      rw [same] at next
      omega
    rw [fullyServed_cons]
    constructor
    · rintro ⟨fuel, p, h', run, success, more⟩
      have result := mallocLoop_outcome blocks run
      rw [outcome_tight filled.tight] at result
      split at result
      next passes =>
        obtain ⟨rfl, rfl⟩ := Prod.mk.inj result
        obtain ⟨region, room⟩ := Bool.and_eq_true_iff.mp passes
        exact ⟨⟨region, room⟩, (rest region).mp more⟩
      next => exact absurd (congrArg Prod.fst result) success
    · rintro ⟨⟨region, room⟩, lands⟩
      have run : malloc big (l.length + 1) stale size h = some (outcome big size h stale l e) :=
        mallocLoop_returns blocks (Nat.lt_succ_self l.length)
      rw [outcome_tight filled.tight, region, room, Bool.and_self, if_pos rfl] at run
      have success : e + 4 * sizeofAllocStruct ≠ mallocFailed :=
        offset_ne_failed (inRegion_low low region) (by decide)
      exact ⟨_, _, _, run, success, (rest region).mpr lands⟩

theorem filled_setupRoot : Filled big (setupRoot big h₀).mem (setupRoot big h₀) [] (firstHeader big) :=
  ⟨⟨.here, by simp, fun _ _ _ => rfl⟩, by simp⟩

/-- Whatever the heap looks like, a request is refused rightly if and only if a free block serves
it, or the frontier has room for it, or the region is exhausted anyway; a walk without an end
refuses nothing. A list of requests on the fresh heap is served if and only if each position
passes the two tests, as long as the strides fit and nothing is left over where they lead. -/
theorem malloc_exhausted_iff (low : big.addr.toNat + big.len.toNat ≤ 2 ^ 32) :
    (∀ h l e size, Blocks big h.mem (firstHeader big) l e → (FailsWhenExhausted big size h l ↔
      (∃ d ∈ l, suits h.mem size d = true) ∨
      (inRegion big (frontier big h.mem l) = true ∧
        hasRoom big (frontier big h.mem l) size = true) ∨
      big.len.toNat < (l.map fun d => 28 + (blockSize h.mem d).toNat).sum + 28 + size.toNat)) ∧
    (∀ h, (∀ l e, ¬Blocks big h.mem (firstHeader big) l e) →
      ∀ fuel stale size h', malloc big fuel stale size h ≠ some (mallocFailed, h')) ∧
    ∀ h₀ reqs, Unspoiled big h₀.mem (firstHeader big) reqs →
      (∀ r ∈ reqs.head?, ∀ x, Covers (r.1 + 24) 4 x → ¬HeapByte big x) →
      (FullyServed big (setupRoot big h₀) reqs ↔ Lands big (firstHeader big) reqs) := by
  refine ⟨fun h l e size blocks => failsWhenExhausted_iff low blocks, ?_, ?_⟩
  · intro h endless fuel stale size h' run
    obtain ⟨l, e, blocks⟩ := malloc_refuses_at_end low run
    exact endless l e blocks
  · intro h₀ reqs unspoiled harmless
    exact filled_setupRoot.served_iff low unspoiled fun r hr _ => harmless r hr

/-- One block of 1200 bytes, and 32 KiB are gone. -/
theorem small_block : ∃ h, malloc smallRegion 1 0x1000 1200 (setupRoot smallRegion zeroedHeap) =
      some (0x20008C, h) ∧
    Blocks smallRegion h.mem (firstHeader smallRegion) [0x20001C] 0x20866C ∧
    allocated h.mem 0x20001C = true ∧ blockSize h.mem 0x20001C = 1200 := by
  have facts : (malloc smallRegion 1 0x1000 1200 (setupRoot smallRegion zeroedHeap)).any fun r =>
      r.1 = 0x20008C && checkMagic r.2.mem 0x20001C && allocated r.2.mem 0x20001C &&
        blockSize r.2.mem 0x20001C = 1200 := by
    decide +kernel
  obtain ⟨⟨p, h⟩, served, facts⟩ := (Option.any_eq_true _ _).mp facts
  simp only [Bool.and_eq_true, decide_eq_true_eq] at facts
  obtain ⟨⟨⟨rfl, magic⟩, taken⟩, size⟩ := facts
  have next : nextHeader h.mem 0x20001C = 0x20866C := by
    rw [nextHeader, size]
    decide
  have rest : Blocks smallRegion h.mem (nextHeader h.mem 0x20001C) [] 0x20866C := by
    rw [next]
    exact .stop fun region => absurd region (by decide)
  exact ⟨h, served, .block (by decide) magic rest, taken, size⟩

theorem small_harmless (x : Word) (covered : Covers (0x1000 + 24) 4 x) : ¬HeapByte smallRegion x :=
  stale_spares (by decide) (by decide) covered

theorem malloc_exhausted_small : ∃ h, malloc smallRegion 1 0x1000 1200 (setupRoot smallRegion zeroedHeap) =
      some (0x20008C, h) ∧
    FailsWhenExhausted smallRegion 40000 h [0x20001C] ∧
    ¬FailsWhenExhausted smallRegion 0 h [0x20001C] ∧
    FullyServed smallRegion (setupRoot smallRegion zeroedHeap) [(0x1000, 16), (0x1000, 24)] := by
  obtain ⟨single, _, list⟩ := @malloc_exhausted_iff smallRegion (by decide)
  obtain ⟨h, served, blocks, taken, size⟩ := small_block
  refine ⟨h, served, ?_, ?_, ?_⟩
  · refine (single _ _ _ _ blocks).mpr (.inr (.inr ?_))
    rw [List.map_singleton, List.sum_singleton, size]
    decide
  · rw [single _ _ _ _ blocks, frontier, List.map_singleton, List.sum_singleton, stride,
      List.map_singleton, List.sum_singleton, size]
    rintro (⟨d, mem, fits⟩ | ⟨region, _⟩ | full)
    · rw [List.mem_singleton.mp mem, suits, taken] at fits
      cases fits
    · exact absurd region (by decide)
    · exact absurd full (by decide)
  · refine (list zeroedHeap _ ?_ ?_).mpr ⟨by decide, by decide, trivial⟩
    · exact ⟨fun _ => ⟨by decide, rfl⟩, fun _ => by decide, fun _ => ⟨by decide, rfl⟩, by simp, trivial⟩
    · rintro _ ⟨⟩
      exact small_harmless

/-- One block of 1200 bytes, and the next request is refused in an empty region. -/
theorem malloc_gives_up :
    (∃ s, (heapSystem smallRegion zeroedHeap).Reach anyStep s ∧
      ∃ l e, Blocks smallRegion s.heap.mem (firstHeader smallRegion) l e ∧
        ¬ FailsWhenExhausted smallRegion 0 s.heap l) ∧
    ¬FullyServed smallRegion (setupRoot smallRegion zeroedHeap) [(0x1000, 1200), (0x1000, 0)] := by
  obtain ⟨h, served, blocks, taken, size⟩ := small_block
  constructor
  · refine ⟨⟨h, [(0x20008C, 1200)]⟩, .next (.start rfl) trivial (HeapStep.malloc served),
      _, _, blocks, fun right => ?_⟩
    have refused : malloc smallRegion 2 0x1000 0 h = some (outcome smallRegion 0 h 0x1000 [0x20001C] 0x20866C) :=
      mallocLoop_returns blocks (by decide)
    have failed : (outcome smallRegion 0 h 0x1000 [0x20001C] 0x20866C).1 = mallocFailed := by
      refine (outcome_failed_iff (by decide) blocks).mpr ⟨fun b mem => ?_, by decide⟩
      rw [List.mem_singleton.mp mem, suits, taken]
      rfl
    have full := (right 2 0x1000 _ (refused.trans (congrArg some (Prod.ext failed rfl)))).full
    rw [List.map_singleton, List.sum_singleton, size] at full
    exact absurd full (by decide)
  · have unspoiled : Unspoiled smallRegion zeroedHeap.mem (firstHeader smallRegion)
        [(0x1000, 1200), (0x1000, 0)] :=
      ⟨fun _ => ⟨by decide, rfl⟩, fun _ => by decide, fun region => absurd region (by decide),
        by simp, trivial⟩
    have harmless : ∀ r ∈ [((0x1000 : Word), (1200 : BitVec 64)), (0x1000, 0)].head?,
        firstHeader smallRegion = firstHeader smallRegion →
          ∀ x, Covers (r.1 + 24) 4 x → ¬HeapByte smallRegion x := by
      rintro _ ⟨⟩ _
      exact small_harmless
    rw [filled_setupRoot.served_iff (by decide) unspoiled harmless]
    rintro ⟨_, ⟨region, _⟩, _⟩
    exact absurd region (by decide)

end X86Os.Heap
