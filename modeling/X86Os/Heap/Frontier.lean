import X86Os.Heap.Disjointness

/-!
# Where malloc gives up

The blocks on the walk decide what a call does: it claims the first free block
that is large enough, or it places a block where the walk ends, or it fails. The
walk ends 28 times as far from the start of the region as the headers and sizes
of its blocks add up to, so most of the region is never used.
-/

namespace X86Os.Heap

open Library.Memory Library.Runs Relation
set_option autoImplicit false

variable {big : MultibootMmapEntry} {m : Mem} {h h' : HeapState} {d e prev stale : Word}
variable {l : List Word} {size : BitVec 64} {fuel : Nat} {r : Word × HeapState}

/-- The headers of the walk from a position on, and the position where it ends. -/
inductive Blocks (big : MultibootMmapEntry) (m : Mem) : Word → List Word → Word → Prop
  | stop {d : Word} (ends : inRegion big d = true → checkMagic m d = false) : Blocks big m d [] d
  | block {d e : Word} {l : List Word} (region : inRegion big d = true)
      (magic : checkMagic m d = true) (rest : Blocks big m (nextHeader m d) l e) :
      Blocks big m d (d :: l) e

/-- The walk from a position through the headers `l`, which may go on from `e`. -/
inductive Walked (big : MultibootMmapEntry) (m : Mem) : Word → List Word → Word → Prop
  | here {d : Word} : Walked big m d [] d
  | block {d e : Word} {l : List Word} (region : inRegion big d = true)
      (magic : checkMagic m d = true) (rest : Walked big m (nextHeader m d) l e) :
      Walked big m d (d :: l) e

theorem Walked.blocks (walked : Walked big m d l e)
    (ends : inRegion big e = true → checkMagic m e = false) : Blocks big m d l e := by
  induction walked with
  | here => exact .stop ends
  | block region magic _ ih => exact .block region magic (ih ends)

theorem Blocks.walked (blocks : Blocks big m d l e) : Walked big m d l e := by
  induction blocks with
  | stop => exact .here
  | block region magic _ ih => exact .block region magic ih

theorem Blocks.ends (blocks : Blocks big m d l e) (region : inRegion big e = true) :
    checkMagic m e = false := by
  induction blocks with
  | stop ends => exact ends region
  | block _ _ _ ih => exact ih region

theorem Walked.path (walked : Walked big m d l e) : ReflTransGen (WalkStep big m) d e := by
  induction walked with
  | here => exact .refl
  | block region magic _ ih => exact .head ⟨region, magic, rfl⟩ ih

theorem Walked.header (walked : Walked big m d l e) (visited : Visited big m d) {b : Word}
    (mem : b ∈ l) : Header big m b := by
  induction walked with
  | here => cases mem
  | block region magic _ ih =>
    obtain rfl | mem := List.mem_cons.mp mem
    · exact ⟨visited, region, magic⟩
    · exact ih (visited.tail ⟨region, magic, rfl⟩) mem

theorem Walked.transfer {m' : Mem} (walked : Walked big m d l e)
    (same : ∀ b ∈ l, checkMagic m' b = true ∧ blockSize m' b = blockSize m b) :
    Walked big m' d l e := by
  induction walked with
  | here => exact .here
  | @block d e l region magic rest ih =>
    obtain ⟨⟨magic', size⟩, others⟩ := List.forall_mem_cons.mp same
    refine .block region magic' ?_
    rw [nextHeader, size]
    exact ih others

theorem Walked.snoc (walked : Walked big m d l e) (region : inRegion big e = true)
    (magic : checkMagic m e = true) : Walked big m d (l ++ [e]) (nextHeader m e) := by
  induction walked with
  | here => exact .block region magic .here
  | block region' magic' _ ih => exact .block region' magic' (ih region magic)

def suits (m : Mem) (size : BitVec 64) (d : Word) : Bool :=
  !allocated m d && size ≤ (blockSize m d).signExtend 64

/-- What a call does when the walk from its position meets the blocks `l` and ends at `e`. -/
def outcome (big : MultibootMmapEntry) (size : BitVec 64) (h : HeapState) (prev : Word)
    (l : List Word) (e : Word) : Word × HeapState :=
  match l.find? (suits h.mem size) with
  | some d => (advance d sizeofAllocStruct, { h with mem := store8 h.mem d 1 })
  | none =>
    if inRegion big e && hasRoom big e size then
      (e + 4 * sizeofAllocStruct, writeHeader h e (l.getLastD prev) size)
    else (mallocFailed, h)

theorem outcome_suits (fits : suits h.mem size d = true) : outcome big size h prev (d :: l) e =
    (advance d sizeofAllocStruct, { h with mem := store8 h.mem d 1 }) := by
  rw [outcome, List.find?_cons_of_pos fits]

theorem outcome_pass (tight : suits h.mem size d = false) :
    outcome big size h prev (d :: l) e = outcome big size h d l e := by
  rw [outcome, outcome, List.find?_cons_of_neg (by simp [tight]), List.getLastD_cons]

theorem outcome_tight (tight : ∀ b ∈ l, suits h.mem size b = false) :
    outcome big size h prev l e =
      if inRegion big e && hasRoom big e size then
        (e + 4 * sizeofAllocStruct, writeHeader h e (l.getLastD prev) size)
      else (mallocFailed, h) := by
  have none : l.find? (suits h.mem size) = none :=
    List.find?_eq_none.mpr fun b hb => by rw [tight b hb]; exact Bool.false_ne_true
  rw [outcome, none]

theorem mallocLoop_stop (ends : inRegion big d = true → checkMagic h.mem d = false) :
    mallocLoop big size h (fuel + 1) d prev = some (outcome big size h prev [] d) := by
  rw [mallocLoop, outcome, List.find?_nil]
  by_cases region : inRegion big d = true
  · rw [if_pos region, ends region, if_neg Bool.false_ne_true, region, Bool.true_and]
    by_cases room : hasRoom big d size = true
    · simp only [if_pos room]
      rfl
    · simp only [if_neg room]
  · simp only [Bool.eq_false_iff.mpr region, Bool.false_and, if_neg Bool.false_ne_true]

theorem mallocLoop_block (region : inRegion big d = true) (magic : checkMagic h.mem d = true) :
    mallocLoop big size h (fuel + 1) d prev =
      if suits h.mem size d then
        some (advance d sizeofAllocStruct, { h with mem := store8 h.mem d 1 })
      else mallocLoop big size h fuel (nextHeader h.mem d) d := by
  rw [mallocLoop, if_pos region, if_pos magic]
  rfl

theorem mallocLoop_outcome (blocks : Blocks big h.mem d l e)
    (run : mallocLoop big size h fuel d prev = some r) : r = outcome big size h prev l e := by
  induction blocks generalizing fuel prev with
  | stop ends =>
    cases fuel with
    | zero => cases run
    | succ fuel =>
      rw [mallocLoop_stop ends] at run
      exact (Option.some.inj run).symm
  | @block d e l region magic rest ih =>
    cases fuel with
    | zero => cases run
    | succ fuel =>
      rw [mallocLoop_block region magic] at run
      split at run
      next fits =>
        rw [outcome_suits fits]
        exact (Option.some.inj run).symm
      next tight =>
        rw [outcome_pass (Bool.eq_false_iff.mpr tight)]
        exact ih run

theorem mallocLoop_returns (blocks : Blocks big h.mem d l e) (enough : l.length < fuel) :
    mallocLoop big size h fuel d prev = some (outcome big size h prev l e) := by
  induction blocks generalizing fuel prev with
  | stop ends =>
    cases fuel with
    | zero => exact absurd enough (Nat.not_lt_zero _)
    | succ fuel => exact mallocLoop_stop ends
  | @block d e l region magic rest ih =>
    cases fuel with
    | zero => exact absurd enough (Nat.not_lt_zero _)
    | succ fuel =>
      rw [mallocLoop_block region magic]
      split
      next fits => rw [outcome_suits fits]
      next tight =>
        rw [outcome_pass (Bool.eq_false_iff.mpr tight)]
        exact ih (Nat.lt_of_succ_lt_succ enough)

inductive Served (big : MultibootMmapEntry) (stale : Word) (size : BitVec 64) (h : HeapState)
    (l : List Word) (e : Word) : Word → HeapState → Prop
  | reused {d : Word} (mem : d ∈ l) :
      Served big stale size h l e (advance d sizeofAllocStruct) { h with mem := store8 h.mem d 1 }
  | fresh (tight : ∀ b ∈ l, suits h.mem size b = false) (region : inRegion big e = true)
      (room : hasRoom big e size = true) :
      Served big stale size h l e (e + 4 * sizeofAllocStruct) (writeHeader h e (l.getLastD stale) size)
  | failed : Served big stale size h l e mallocFailed h

theorem malloc_served {p : Word} (blocks : Blocks big h.mem (firstHeader big) l e)
    (run : malloc big fuel stale size h = some (p, h')) : Served big stale size h l e p h' := by
  have result := mallocLoop_outcome blocks run
  rw [outcome] at result
  cases found : l.find? (suits h.mem size) with
  | some d =>
    rw [found] at result
    obtain ⟨rfl, rfl⟩ := Prod.mk.inj result
    exact .reused (List.mem_of_find?_eq_some found)
  | none =>
    rw [found] at result
    dsimp only at result
    split at result
    next served =>
      obtain ⟨region, room⟩ := Bool.and_eq_true_iff.mp served
      obtain ⟨rfl, rfl⟩ := Prod.mk.inj result
      refine .fresh (fun b hb => ?_) region room
      exact Bool.eq_false_iff.mpr (List.find?_eq_none.mp found b hb)
    next =>
      obtain ⟨rfl, rfl⟩ := Prod.mk.inj result
      exact .failed

def stride (m : Mem) (d : Word) : Word := 28 * (blockSize m d + 28)

/-- Where the walk ends: the strides add up behind the first header, in 32 bits. -/
def frontier (big : MultibootMmapEntry) (m : Mem) (l : List Word) : Word :=
  firstHeader big + (l.map (stride m)).sum

theorem Walked.end_eq (walked : Walked big m d l e) : e = d + (l.map (stride m)).sum := by
  induction walked with
  | here => simp
  | @block d e l region magic rest ih =>
    rw [ih, List.map_cons, List.sum_cons, nextHeader, advance, stride, sizeofAllocStruct]
    ring

theorem mem_of_path (blocks : Blocks big m d l e) {b : Word}
    (path : ReflTransGen (WalkStep big m) d b) (region : inRegion big b = true)
    (magic : checkMagic m b = true) : b ∈ l := by
  induction blocks with
  | stop ends =>
    obtain rfl | ⟨_, ⟨region', magic', rfl⟩, _⟩ := ReflTransGen.cases_head path
    · rw [ends region] at magic
      cases magic
    · rw [ends region'] at magic'
      cases magic'
  | block _ _ _ ih =>
    obtain rfl | ⟨_, ⟨_, _, rfl⟩, path⟩ := ReflTransGen.cases_head path
    · exact List.mem_cons_self
    · exact List.mem_cons_of_mem _ (ih path)

theorem Walked.behind (fits : StridesFit big m) (walked : Walked big m d l e)
    (visited : Visited big m d) {b : Word} (mem : b ∈ l) : blockEnd m b ≤ e.toNat := by
  induction walked with
  | here => cases mem
  | @block d e l region magic rest ih =>
    have header : Header big m d := ⟨visited, region, magic⟩
    obtain rfl | mem := List.mem_cons.mp mem
    · have next := nextHeader_toNat (fits b header)
      obtain same | ⟨_, le⟩ := path_order fits header.next rest.path
      · rw [← same, next]
      · have := blockEnd_ge m (nextHeader m b)
        omega
    · exact ih header.next mem

theorem Walked.precedes (walked : Walked big m d l e) (visited : Visited big m d)
    (before : Precedes big m stale prev d) : Precedes big m stale (l.getLastD prev) e := by
  induction walked generalizing prev with
  | here => exact before
  | @block d e l region magic rest ih =>
    have header : Header big m d := ⟨visited, region, magic⟩
    rw [List.getLastD_cons]
    exact ih header.next (.inr ⟨header, rfl⟩)

theorem mem_of_header (blocks : Blocks big m (firstHeader big) l e) (header : Header big m d) :
    d ∈ l :=
  mem_of_path blocks header.visited header.inRegion header.magic

theorem blocks_exist (fits : StridesFit big m) (visited : Visited big m d) :
    ∃ l e, Blocks big m d l e := by
  induction room : 2 ^ 32 - d.toNat using Nat.strongRecOn generalizing d with
  | ind n ih =>
    by_cases header : inRegion big d = true ∧ checkMagic m d = true
    · have hd : Header big m d := ⟨visited, header.1, header.2⟩
      have next := nextHeader_toNat (fits d hd)
      have ge := blockEnd_ge m d
      have lt := (nextHeader m d).isLt
      obtain ⟨l, e, rest⟩ := ih _ (by omega) hd.next rfl
      exact ⟨d :: l, e, .block header.1 header.2 rest⟩
    · exact ⟨[], d, .stop fun region => Bool.eq_false_iff.mpr fun magic => header ⟨region, magic⟩⟩

theorem stop_toNat (low : big.addr.toNat + big.len.toNat ≤ 2 ^ 32) :
    big.stop.toNat = big.addr.toNat + big.len.toNat := by
  rw [MultibootMmapEntry.stop, BitVec.toNat_add, Nat.mod_eq_of_lt (by omega)]

theorem inRegion_signExtend (low : big.addr.toNat + big.len.toNat ≤ 2 ^ 32)
    (region : inRegion big d = true) :
    (d.signExtend 64).toNat < big.addr.toNat + big.len.toNat := by
  rw [← stop_toNat low]
  exact BitVec.lt_def.mp (of_decide_eq_true region)

/-- Positions that pass the loop test of a region below 4 GiB lie below 2 GiB. -/
theorem inRegion_low (low : big.addr.toNat + big.len.toNat ≤ 2 ^ 32)
    (region : inRegion big d = true) : d.toNat < 2 ^ 31 := by
  have below := inRegion_signExtend low region
  by_contra high
  have sign : d.msb = true := BitVec.msb_eq_true_iff_two_mul_ge.mpr (by omega)
  rw [BitVec.toNat_signExtend, sign] at below
  have width : (d.setWidth 64).toNat = d.toNat := BitVec.toNat_setWidth_of_le (by decide)
  rw [width] at below
  simp only [if_true] at below
  omega

theorem signExtend_ge (w : Word) : w.toNat ≤ (w.signExtend 64).toNat := by
  have width : (w.setWidth 64).toNat = w.toNat := BitVec.toNat_setWidth_of_le (by decide)
  rw [BitVec.toNat_signExtend, width]
  exact Nat.le_add_right ..

theorem inRegion_below (low : big.addr.toNat + big.len.toNat ≤ 2 ^ 32)
    (region : inRegion big d = true) : d.toNat < big.addr.toNat + big.len.toNat :=
  (signExtend_ge d).trans_lt (inRegion_signExtend low region)

theorem offset_ne_failed {k : Word} (low : d.toNat < 2 ^ 31) (small : k.toNat < 2 ^ 30) :
    d + k ≠ mallocFailed := by
  intro same
  have sum := congrArg BitVec.toNat same
  rw [offset_toNat (by omega)] at sum
  have failed : mallocFailed.toNat = 2 ^ 32 - 1 := rfl
  omega

theorem outcome_failed_iff (low : big.addr.toNat + big.len.toNat ≤ 2 ^ 32)
    (blocks : Blocks big h.mem d l e) : (outcome big size h prev l e).1 = mallocFailed ↔
      (∀ b ∈ l, suits h.mem size b = false) ∧ ¬ (inRegion big e = true ∧ hasRoom big e size = true) := by
  induction blocks generalizing prev with
  | @stop d ends =>
    rw [outcome, List.find?_nil]
    simp only [← Bool.and_eq_true]
    split
    next served =>
      have region : inRegion big d = true := (Bool.and_eq_true_iff.mp served).1
      refine iff_of_false (offset_ne_failed (inRegion_low low region) (by decide)) ?_
      exact fun both => both.2 served
    next unserved => exact iff_of_true rfl ⟨by simp, unserved⟩
  | @block d e l region magic rest ih =>
    by_cases fits : suits h.mem size d = true
    · rw [outcome_suits fits]
      refine iff_of_false (offset_ne_failed (inRegion_low low region) (by decide)) ?_
      intro both
      rw [both.1 d List.mem_cons_self] at fits
      cases fits
    · have tight := Bool.eq_false_iff.mpr fits
      rw [outcome_pass tight, ih, List.forall_mem_cons]
      simp only [tight, true_and]

theorem SampleBlock.blocks (block : SampleBlock h) :
    Blocks sampleRegion h.mem (firstHeader sampleRegion) [firstHeader sampleRegion] 0x2004EC := by
  have next : nextHeader h.mem (firstHeader sampleRegion) = 0x2004EC := by
    rw [nextHeader, block.size]
    decide
  refine .block (by decide) block.magic ?_
  rw [next]
  exact .stop fun _ => block.ends

theorem SampleBlock.tight (block : SampleBlock h) :
    ∀ b ∈ [firstHeader sampleRegion], suits h.mem size b = false := by
  intro b mem
  rw [List.mem_singleton.mp mem, suits, block.taken]
  rfl

end X86Os.Heap
