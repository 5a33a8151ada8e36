import X86Os.Heap.Release
import X86Os.Heap.Setup

/-!
# Whether the walk of malloc makes progress

The walk moves 28 bytes for each byte of a block, in 32 bits. A block of 2^30 - 28
bytes has a stride of zero, so the next call stays on it for ever. As long as
the strides of the blocks that are placed fit, the memory where the walk ends
is as it was found, and every header on the walk is one that malloc placed.
-/

namespace X86Os.Heap

open Library.Memory Library.Owners Library.Runs Relation
set_option autoImplicit false

/-- The walk moves up from each header, and the next call returns whatever it asks for. -/
structure WalkAdvances (big : MultibootMmapEntry) (h : HeapState) : Prop where
  increases : ∀ d, Header big h.mem d → d.toNat < (nextHeader h.mem d).toNat
  ends : ∀ size stale, ∃ fuel r, malloc big fuel stale size h = some r

/-- Wherever the walk tests for a header, all bytes of the magic lie in the region. -/
def TestsInside (big : MultibootMmapEntry) (m : Mem) : Prop :=
  ∀ d, Visited big m d → inRegion big d = true →
    big.addr.toNat ≤ d.toNat ∧ d.toNat + 18 ≤ big.addr.toNat + big.len.toNat

/-- The condition on a step: the walk tests inside the region, and a request served at its end
places no block whose stride leaves the 32-bit address space. The first link hits no heap byte. -/
structure StridesPlaced (big : MultibootMmapEntry) (s : Session) (call : HeapCall) : Prop where
  tests : TestsInside big s.heap.mem
  placed : ∀ stale size, call = .malloc stale size → ∀ d, Visited big s.heap.mem d →
    inRegion big d = true → checkMagic s.heap.mem d = false → hasRoom big d size = true →
    d.toNat + 28 * (size.toNat + 28) < 2 ^ 32
  stale : StaleHarmless big s call

variable {big : MultibootMmapEntry} {m m' m₀ : Mem} {h h' h₀ : HeapState} {d e x p stale : Word}
variable {l : List Word} {size : BitVec 64} {b : Byte} {s t : Session} {call : HeapCall}

/-- The blocks `l` that were placed so far, with untouched memory from the end of the walk on. -/
structure Laid (big : MultibootMmapEntry) (m₀ m : Mem) (l : List Word) (e : Word) : Prop where
  walked : Walked big m (firstHeader big) l e
  fits : ∀ b ∈ l, blockEnd m b < 2 ^ 32
  behind : ∀ x : Word, e.toNat ≤ x.toNat → x.toNat ∈ big.range → m x = m₀ x

theorem setupRoot_behind (low : big.addr.toNat + 28 ≤ 2 ^ 32) (behind : big.addr.toNat + 28 ≤ x.toNat) :
    (setupRoot big h₀).mem x = h₀.mem x := by
  have root : (big.addr.setWidth 32).toNat = big.addr.toNat := by
    rw [BitVec.toNat_setWidth, Nat.mod_eq_of_lt (by omega)]
  have away {k : Word} {n : Nat} (inside : k.toNat + n ≤ 28) :
      ¬Covers (big.addr.setWidth 32 + k) n x := by
    intro covered
    obtain rfl | some := Nat.eq_zero_or_pos n
    · exact absurd covered (Nat.not_lt_zero _)
    have place : (big.addr.setWidth 32 + k).toNat = big.addr.toNat + k.toNat := by
      rw [offset_toNat (by omega), root]
    rw [covers_iff (by omega)] at covered
    omega
  have other : x ≠ big.addr.setWidth 32 := by
    rintro rfl
    omega
  simp only [setupRoot, setSignature]
  rw [store32_outside (away (by decide)), store32_outside (away (by decide)),
    store32_outside (away (by decide)), store32_outside (away (by decide)), store8_other other,
    storeBytes_outside (away (by decide)), store8_other other]

theorem Walked.above (walked : Walked big m d l e) (fits : ∀ b ∈ l, blockEnd m b < 2 ^ 32) :
    d.toNat ≤ e.toNat := by
  induction walked with
  | here => exact le_rfl
  | @block d e l region magic rest ih =>
    obtain ⟨first, others⟩ := List.forall_mem_cons.mp fits
    have next := nextHeader_toNat first
    have ge := blockEnd_ge m d
    exact le_trans (by omega) (ih others)

/-- Where the walk ends, nothing was written since `pmm_setup`. -/
theorem Laid.leftover (low : big.addr.toNat + big.len.toNat ≤ 2 ^ 32)
    (laid : Laid big (setupRoot big h₀).mem m l e) (region : inRegion big e = true)
    (above : big.addr.toNat ≤ e.toNat) (below : e.toNat + 18 ≤ big.addr.toNat + big.len.toNat) :
    checkMagic m e = checkMagic h₀.mem e := by
  have half := inRegion_low low region
  have first := laid.walked.above laid.fits
  rw [firstHeader_toNat (by omega)] at first
  refine checkMagic_congr fun k from12 to18 => ?_
  have place : (e + k).toNat = e.toNat + k.toNat := offset_toNat (by omega)
  rw [laid.behind (e + k) (by omega) ⟨by omega, by omega⟩, setupRoot_behind (by omega) (by omega)]

/-- The end of the walk carries no magic. -/
theorem Laid.blocks (magicFree : MagicFree big h₀.mem)
    (low : big.addr.toNat + big.len.toNat ≤ 2 ^ 32) (laid : Laid big (setupRoot big h₀).mem m l e)
    (tests : TestsInside big m) : Blocks big m (firstHeader big) l e := by
  refine laid.walked.blocks fun region => ?_
  obtain ⟨above, below⟩ := tests e laid.walked.path region
  have half := inRegion_low low region
  have h12 : (12 : Word).toNat = 12 := rfl
  have place : (e + 12).toNat = e.toNat + 12 := offset_toNat (by omega)
  have unmarked := magicFree (e + 12) (by omega) (by omega)
  rw [add_sub_cancel_right] at unmarked
  rw [laid.leftover low region above below, unmarked]

theorem Laid.stridesFit (laid : Laid big m₀ m l e) (blocks : Blocks big m (firstHeader big) l e) :
    StridesFit big m :=
  fun d header => laid.fits d (mem_of_header blocks header)

theorem Laid.store (laid : Laid big m₀ m l e) (blocks : Blocks big m (firstHeader big) l e)
    (header : Header big m d) (inside : x.toNat < blockEnd m d)
    (kept : ∀ a, Header big m a →
      checkMagic (store8 m x b) a = true ∧ blockSize (store8 m x b) a = blockSize m a) :
    Laid big m₀ (store8 m x b) l e where
  walked := laid.walked.transfer fun a mem => kept a (laid.walked.header .refl mem)
  fits a mem := by
    rw [blockEnd, (kept a (laid.walked.header .refl mem)).2]
    exact laid.fits a mem
  behind y above range := by
    have before := laid.walked.behind (laid.stridesFit blocks) .refl (mem_of_header blocks header)
    have other : y ≠ x := by
      rintro rfl
      omega
    rw [store8_other other]
    exact laid.behind y above range

theorem Laid.flag (laid : Laid big m₀ m l e) (blocks : Blocks big m (firstHeader big) l e)
    (header : Header big m d) : Laid big m₀ (store8 m d b) l e := by
  have ge := blockEnd_ge m d
  exact laid.store blocks header (by omega) (flag_kept (laid.stridesFit blocks) header)

theorem Laid.interior (laid : Laid big m₀ m l e) (blocks : Blocks big m (firstHeader big) l e)
    (header : Header big m d) (low : d.toNat + 28 ≤ x.toNat) (high : x.toNat < blockEnd m d) :
    Laid big m₀ (store8 m x b) l e :=
  laid.store blocks header high (interior_kept (laid.stridesFit blocks) header low high)

theorem Laid.place (laid : Laid big m₀ h.mem l e) (blocks : Blocks big h.mem (firstHeader big) l e)
    (harmless : e = firstHeader big → ∀ x, Covers (stale + 24) 4 x → ¬HeapByte big x)
    (region : inRegion big e = true)
    (bound : e.toNat + 28 * (size.toNat + 28) < 2 ^ 32) :
    Laid big m₀ (writeHeader h e (l.getLastD stale) size).mem (l ++ [e])
      (nextHeader (writeHeader h e (l.getLastD stale) size).mem e) := by
  have fits := laid.stridesFit blocks
  have visited : Visited big h.mem e := laid.walked.path
  have before : Precedes big h.mem stale (l.getLastD stale) e :=
    laid.walked.precedes .refl (.inl ⟨rfl, rfl⟩)
  have kept := fresh_kept size fits visited (blocks.ends region) before (by omega)
  have own : blockEnd (writeHeader h e (l.getLastD stale) size).mem e =
      e.toNat + 28 * (size.toNat + 28) := by
    rw [blockEnd, writeHeader_size, BitVec.toNat_setWidth, Nat.mod_eq_of_lt (by omega)]
  constructor
  case walked =>
    exact (laid.walked.transfer fun a mem => kept a (laid.walked.header .refl mem)).snoc region
      writeHeader_magic
  case fits =>
    intro a mem
    obtain old | new := List.mem_append.mp mem
    · rw [blockEnd, (kept a (laid.walked.header .refl old)).2]
      exact laid.fits a old
    · rw [List.mem_singleton.mp new, own]
      exact bound
  case behind =>
    intro x above range
    rw [nextHeader_toNat (by omega), own] at above
    rw [writeHeader_outside]
    · exact laid.behind x (by omega) range
    · rw [covers_iff (by omega)]
      omega
    · intro linked
      obtain ⟨same, first⟩ | ⟨hq, next⟩ := before
      · rw [same] at linked
        exact harmless first x linked (.inl range)
      · have ends := nextHeader_toNat (fits _ hq)
        have ge := blockEnd_ge h.mem (l.getLastD stale)
        have link := header_offset_toNat (fits _ hq) (show (24 : Word).toNat < 784 by decide)
        have h24 : (24 : Word).toNat = 24 := rfl
        have small := fits _ hq
        rw [next] at ends
        rw [covers_iff (by omega)] at linked
        omega

theorem Laid.malloc {fuel : Nat} (laid : Laid big m₀ h.mem l e)
    (blocks : Blocks big h.mem (firstHeader big) l e)
    (harmless : inRegion big e = true → hasRoom big e size = true → e = firstHeader big →
      ∀ x, Covers (stale + 24) 4 x → ¬HeapByte big x)
    (placed : inRegion big e = true → hasRoom big e size = true →
      e.toNat + 28 * (size.toNat + 28) < 2 ^ 32)
    (run : malloc big fuel stale size h = some (p, h')) : ∃ l e, Laid big m₀ h'.mem l e := by
  cases malloc_served blocks run with
  | reused mem => exact ⟨l, e, laid.flag blocks (laid.walked.header .refl mem)⟩
  | fresh _ region room =>
    exact ⟨_, _, laid.place blocks (harmless region room) region (placed region room)⟩
  | failed => exact ⟨l, e, laid⟩

theorem Laid.free {r : LiveRange} (laid : Laid big m₀ m l e)
    (blocks : Blocks big m (firstHeader big) l e) (owns : Owns big m r d) :
    Laid big m₀ (free m r.1) l e := by
  rcases owns.place with fresh | reused
  · rw [free_of_fresh owns fresh]
    exact laid.flag blocks owns.header
  · rcases free_of_reused (laid.stridesFit blocks) owns.header reused with same | ⟨eq, low, high⟩
    · rwa [same]
    · rw [eq]
      exact laid.interior blocks owns.header low high

def Session.Laid (big : MultibootMmapEntry) (m₀ : Mem) (s : Session) : Prop :=
  (∃ l e, Heap.Laid big m₀ s.heap.mem l e) ∧ EachOwned (Owns big s.heap.mem) s.live

theorem laid_step (magicFree : MagicFree big h₀.mem)
    (low : big.addr.toNat + big.len.toNat ≤ 2 ^ 32) (kept : s.Laid big (setupRoot big h₀).mem)
    (condition : StridesPlaced big s call) (step : HeapStep big s call t) :
    t.Laid big (setupRoot big h₀).mem := by
  obtain ⟨⟨l, e, laid⟩, owned⟩ := kept
  have blocks := laid.blocks magicFree low condition.tests
  have bounded : StridesBounded big s call := ⟨laid.stridesFit blocks, condition.placed⟩
  refine ⟨?_, step_owned ⟨bounded, condition.stale⟩ owned step⟩
  cases step with
  | malloc run =>
    refine laid.malloc blocks (fun region room first => ?_) (fun region room => ?_) run
    · subst first
      exact condition.stale _ _ rfl region (blocks.ends region) room
    · exact condition.placed _ _ rfl e laid.walked.path region (blocks.ends region) room
  | @free h l₁ l₂ p size =>
    obtain ⟨d, owns⟩ := owned.exists_owner (List.mem_append_right l₁ List.mem_cons_self)
    exact ⟨l, e, laid.free (r := (p, size)) blocks owns⟩
  | store mem inside =>
    obtain ⟨d, owns⟩ := owned.exists_owner mem
    obtain ⟨above, below⟩ := owns.interior bounded.1 inside
    exact ⟨l, e, laid.interior blocks owns.header above below⟩

/-- In a run that places only blocks whose strides fit, the walk makes progress and every next
call returns. -/
theorem walk_advances (magicFree : MagicFree big h₀.mem)
    (low : big.addr.toNat + big.len.toNat ≤ 2 ^ 32)
    (run : (heapSystem big h₀).Reach (StridesPlaced big) s) (tests : TestsInside big s.heap.mem) :
    WalkAdvances big s.heap := by
  have kept : s.Laid big (setupRoot big h₀).mem := by
    apply run.invariant (I := fun s => s.Laid big (setupRoot big h₀).mem)
    · rintro s rfl
      exact ⟨⟨[], firstHeader big, .here, by simp, fun _ _ _ => rfl⟩, .nil⟩
    · intro s call t _ kept condition step
      exact laid_step magicFree low kept condition step
  obtain ⟨⟨l, e, laid⟩, _⟩ := kept
  have blocks := laid.blocks magicFree low tests
  constructor
  case increases =>
    intro d header
    rw [nextHeader_toNat (laid.stridesFit blocks d header)]
    have ge := blockEnd_ge s.heap.mem d
    omega
  case ends =>
    intro size stale
    exact ⟨l.length + 1, _, mallocLoop_returns blocks (Nat.lt_succ_self _)⟩

theorem walk_advances_two_blocks :
    ∃ s, (heapSystem sampleRegion zeroedHeap).Reach (StridesPlaced sampleRegion) s ∧
      s.live = [(0x20055C, 24), (0x20008C, 16)] ∧ WalkAdvances sampleRegion s.heap := by
  obtain ⟨h, h', served, block, again, blocks⟩ := sample_mallocs
  have start : StridesPlaced sampleRegion ⟨setupRoot sampleRegion zeroedHeap, []⟩
      (.malloc 0x1000 16) := by
    refine ⟨fun d visited _ => ?_, sample_bounded.2, sampleRegion_harmless⟩
    obtain rfl := path_from_unmarked sample_unmarked visited
    decide
  have next : StridesPlaced sampleRegion ⟨h, [(0x20008C, 16)]⟩ (.malloc 0x1000 24) := by
    refine ⟨fun d visited _ => ?_, block.bounded.2, sampleRegion_harmless⟩
    rcases block.visited visited with rfl | rfl <;> decide
  have run : (heapSystem sampleRegion zeroedHeap).Reach (StridesPlaced sampleRegion)
      ⟨h', [(0x20055C, 24), (0x20008C, 16)]⟩ :=
    .next (.next (.start rfl) start (HeapStep.malloc served)) next (HeapStep.malloc again)
  refine ⟨_, run, rfl, walk_advances (fun _ _ _ => rfl) (by decide) run fun d visited _ => ?_⟩
  rcases blocks.visited visited with rfl | rfl | rfl <;> decide

/-- Two gigabytes less 32 MiB from 2 MiB on. -/
def largeRegion : MultibootMmapEntry := ⟨20, 0x200000, 0x7E000000, 1⟩

theorem mallocLoop_stays {fuel : Nat} {prev : Word} (region : inRegion big d = true)
    (magic : checkMagic h.mem d = true) (tight : suits h.mem size d = false)
    (here : nextHeader h.mem d = d) : mallocLoop big size h fuel d prev = none := by
  induction fuel generalizing prev with
  | zero => rfl
  | succ fuel ih => rw [mallocLoop_block region magic, tight, if_neg Bool.false_ne_true, here, ih]

/-- Behind a block of a gigabyte less 28 bytes the next call walks in place. -/
theorem walk_stays : MagicFree largeRegion zeroedHeap.mem ∧
    largeRegion.addr.toNat + largeRegion.len.toNat ≤ 2 ^ 32 ∧
    ∃ s, (heapSystem largeRegion zeroedHeap).Reach anyStep s ∧ ¬WalkAdvances largeRegion s.heap := by
  have facts : (malloc largeRegion 1 0x1000 0x3FFFFFE4 (setupRoot largeRegion zeroedHeap)).any fun r =>
      r.1 = 0x20008C && checkMagic r.2.mem 0x20001C && !suits r.2.mem 1 0x20001C &&
        decide (nextHeader r.2.mem 0x20001C = 0x20001C) := by
    decide +kernel
  obtain ⟨⟨p, h⟩, served, facts⟩ := (Option.any_eq_true _ _).mp facts
  simp only [Bool.and_eq_true, Bool.not_eq_true', decide_eq_true_eq] at facts
  obtain ⟨⟨⟨rfl, magic⟩, tight⟩, here⟩ := facts
  have run : (heapSystem largeRegion zeroedHeap).Reach anyStep ⟨h, [(0x20008C, 0x3FFFFFE4)]⟩ :=
    .next (.start rfl) trivial (HeapStep.malloc served)
  refine ⟨fun _ _ _ => rfl, by decide, _, run, fun advances => ?_⟩
  obtain ⟨fuel, r, returned⟩ := advances.ends 1 0
  have hangs : mallocLoop largeRegion 1 h fuel (firstHeader largeRegion) 0 = none :=
    mallocLoop_stays (by decide) magic tight here
  rw [malloc, hangs] at returned
  cases returned

end X86Os.Heap
