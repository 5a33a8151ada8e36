import Mathlib.Data.List.Find
import X86Os.Heap.Frontier
import X86Os.Heap.Setup

/-!
# Two boots on different memory

`pmm_setup` clears nothing, so headers of an earlier boot and an uninitialised
link pointer can steer `malloc`. A table of blocks says what the heap would do
if it ignored the old contents. As long as no old header is met and the stale
link stays inside the region, every boot follows the table, so two boots agree.
-/

namespace X86Os.Heap

open Library.Memory Library.Runs Relation
set_option autoImplicit false

inductive BootCall
  | malloc (size : BitVec 64)
  | free (p : Word)

/-- A boot with the pointers it returned, last one first, and the headers it wrote. -/
structure Boot where
  heap : HeapState
  returned : List Word
  blocks : List Word

/-- One call; `stale` is what its uninitialised local holds. -/
def bootCall (big : MultibootMmapEntry) (fuel : Nat) (stale : Word) :
    BootCall → Boot → Option Boot
  | .malloc size, b => (malloc big fuel stale size b.heap).map fun r =>
    { heap := r.2
      returned := r.1 :: b.returned
      blocks := if r.2.allocId = b.heap.allocId then b.blocks
        else b.blocks ++ [r.1 - 4 * sizeofAllocStruct] }
  | .free p, b => some { b with heap := { b.heap with mem := free b.heap.mem p } }

def Boot.fresh (big : MultibootMmapEntry) (h : HeapState) : Boot := ⟨setupRoot big h, [], []⟩

/-- Two boots make the same calls; the label carries the two stale locals. -/
def twoBoots (big : MultibootMmapEntry) (h₁ h₂ : HeapState) :
    System (Boot × Boot) (BootCall × Word × Word) where
  init s := s = (.fresh big h₁, .fresh big h₂)
  step s a t := ∃ fuel, bootCall big fuel a.2.1 a.1 s.1 = some t.1 ∧
    bootCall big fuel a.2.2 a.1 s.2 = some t.2

/-- The boots returned the same pointers, and each wrote inside the region only. -/
structure BootsAgree (big : MultibootMmapEntry) (h₁ h₂ : HeapState) (s : Boot × Boot) : Prop where
  returned : s.1.returned = s.2.returned
  left : ∀ x : Word, x.toNat ∉ big.range → s.1.heap.mem x = (setupRoot big h₁).mem x
  right : ∀ x : Word, x.toNat ∉ big.range → s.2.heap.mem x = (setupRoot big h₂).mem x

structure RegionFits (big : MultibootMmapEntry) : Prop where
  low : big.addr.toNat + big.len.toNat ≤ 2 ^ 32
  root : 28 < big.len.toNat

/-- The condition on one boot before a call: strides as in `StridesBounded`, no header on the
walk or in front of a freed pointer that this boot did not write, and a stale link that hits
neither memory outside the region nor the flag of the first block. -/
structure Undisturbed (big : MultibootMmapEntry) (b : Boot) (call : BootCall) (stale : Word) :
    Prop where
  fits : StridesFit big b.heap.mem
  bounded : ∀ size, call = .malloc size → ∀ d, Visited big b.heap.mem d → inRegion big d = true →
    checkMagic b.heap.mem d = false → hasRoom big d size = true →
    d.toNat + 28 * (size.toNat + 28) < 2 ^ 32
  known : ∀ d, Header big b.heap.mem d → d ∈ b.blocks
  freed : ∀ p, call = .free p → checkMagic b.heap.mem (p - 4 * sizeofAllocStruct) = true →
    p - 4 * sizeofAllocStruct ∈ b.blocks
  link : ∀ size, call = .malloc size → inRegion big (firstHeader big) = true →
    checkMagic b.heap.mem (firstHeader big) = false → hasRoom big (firstHeader big) size = true →
    ∀ x, Covers (stale + 24) 4 x → x.toNat ∈ big.range ∧ x ≠ firstHeader big

/-! ## The table of blocks -/

structure Block where
  start : Word
  taken : Bool
  size : Word

structure Table where
  blocks : List Block
  returned : List Word

def Block.serves (size : BitVec 64) (b : Block) : Bool :=
  !b.taken && size ≤ b.size.signExtend 64

def setTaken (d : Word) (taken : Bool) (l : List Block) : List Block :=
  l.map fun b => if b.start = d then { b with taken } else b

def tableEnd (big : MultibootMmapEntry) (l : List Block) : Word :=
  firstHeader big + (l.map fun b => 28 * (b.size + 28)).sum

def Table.call (big : MultibootMmapEntry) : BootCall → Table → Table
  | .malloc size, t =>
    match t.blocks.find? (Block.serves size) with
    | some b => ⟨setTaken b.start true t.blocks, advance b.start sizeofAllocStruct :: t.returned⟩
    | none =>
      if inRegion big (tableEnd big t.blocks) && hasRoom big (tableEnd big t.blocks) size then
        ⟨t.blocks ++ [⟨tableEnd big t.blocks, true, size.setWidth 32⟩],
          (tableEnd big t.blocks + 4 * sizeofAllocStruct) :: t.returned⟩
      else { t with returned := mallocFailed :: t.returned }
  | .free p, t => { t with blocks := setTaken (p - 4 * sizeofAllocStruct) false t.blocks }

variable {big : MultibootMmapEntry} {m m' m₀ : Mem} {h h' h₁ h₂ : HeapState} {d e p stale : Word}
variable {l : List Word} {size : BitVec 64} {fuel : Nat} {t : Table} {b b' : Boot} {call : BootCall}

structure Follows (big : MultibootMmapEntry) (m₀ : Mem) (t : Table) (b : Boot) : Prop where
  walked : Walked big b.heap.mem (firstHeader big) (t.blocks.map Block.start) (tableEnd big t.blocks)
  flags : ∀ c ∈ t.blocks, allocated b.heap.mem c.start = c.taken
  sizes : ∀ c ∈ t.blocks, blockSize b.heap.mem c.start = c.size
  returned : b.returned = t.returned
  written : b.blocks = t.blocks.map Block.start
  outside : ∀ x : Word, x.toNat ∉ big.range → b.heap.mem x = m₀ x

theorem Follows.header (follows : Follows big m₀ t b) {c : Block} (mem : c ∈ t.blocks) :
    Header big b.heap.mem c.start :=
  follows.walked.header .refl (List.mem_map_of_mem mem)

/-- Undisturbed, the walk ends behind the blocks of the table. -/
theorem Follows.walk (follows : Follows big m₀ t b) (ok : Undisturbed big b call stale) :
    Blocks big b.heap.mem (firstHeader big) (t.blocks.map Block.start) (tableEnd big t.blocks) := by
  refine follows.walked.blocks fun region => ?_
  by_contra magic
  have header : Header big b.heap.mem (tableEnd big t.blocks) :=
    ⟨follows.walked.path, region, Bool.eq_true_of_not_eq_false magic⟩
  have mem := ok.known _ header
  rw [follows.written] at mem
  have := follows.walked.behind ok.fits .refl mem
  have := blockEnd_ge b.heap.mem (tableEnd big t.blocks)
  omega

theorem Follows.find (follows : Follows big m₀ t b) :
    (t.blocks.map Block.start).find? (suits b.heap.mem size) =
      (t.blocks.find? (Block.serves size)).map Block.start := by
  rw [List.find?_map]
  congr 1
  apply List.find?_congr
  intro c mem
  rw [Function.comp_apply, suits, follows.flags c mem, follows.sizes c mem, Block.serves]

theorem setTaken_start {taken : Bool} {l : List Block} :
    (setTaken d taken l).map Block.start = l.map Block.start := by
  rw [setTaken, List.map_map]
  apply List.map_congr_left
  intro c _
  rw [Function.comp_apply]
  split <;> rfl

theorem setTaken_end {taken : Bool} {l : List Block} :
    tableEnd big (setTaken d taken l) = tableEnd big l := by
  rw [tableEnd, tableEnd, setTaken, List.map_map]
  congr 2
  apply List.map_congr_left
  intro c _
  rw [Function.comp_apply]
  split <;> rfl

theorem tableEnd_snoc {l : List Block} {c : Block} :
    tableEnd big (l ++ [c]) = advance (tableEnd big l) (c.size + 28) := by
  rw [tableEnd, List.map_append, List.sum_append, List.map_singleton, List.sum_singleton, ← add_assoc]
  rfl

theorem setTaken_same {taken : Bool} {l : List Block} (same : ∀ c ∈ l, c.start = d → c.taken = taken) :
    setTaken d taken l = l := by
  rw [setTaken]
  conv_rhs => rw [← List.map_id l]
  apply List.map_congr_left
  intro c mem
  split
  next start => rw [← same c mem start, id]
  next => rfl

theorem mem_setTaken {taken : Bool} {l : List Block} {c : Block} (mem : c ∈ setTaken d taken l) :
    ∃ a ∈ l, c.start = a.start ∧ c.size = a.size ∧ c.taken = if a.start = d then taken else a.taken := by
  obtain ⟨a, ha, rfl⟩ := List.mem_map.mp mem
  refine ⟨a, ha, ?_⟩
  split <;> exact ⟨rfl, rfl, rfl⟩

theorem visited_range (region : RegionFits big) (fits : StridesFit big m) (visited : Visited big m d)
    (inside : inRegion big d = true) : d.toNat ∈ big.range := by
  have first := firstHeader_le fits visited
  have := region.low
  have := region.root
  rw [firstHeader_toNat (by omega)] at first
  exact ⟨by omega, inRegion_below region.low inside⟩

theorem placed_range (region : RegionFits big) (fits : StridesFit big m) (visited : Visited big m d)
    (inside : inRegion big d = true) (room : hasRoom big d size = true)
    (bound : d.toNat + 28 * (size.toNat + 28) < 2 ^ 32) {x : Word} (covered : Covers d 28 x) :
    x.toNat ∈ big.range := by
  obtain ⟨above, _⟩ := visited_range region fits visited inside
  have low := region.low
  have behind : (d + 28).toNat = d.toNat + 28 := offset_toNat (by simp; omega)
  rw [hasRoom, Bool.not_eq_true', decide_eq_false_iff_not, gt_iff_lt, BitVec.lt_def, stop_toNat low,
    sizeofAllocStruct, BitVec.toNat_add, BitVec.toNat_setWidth, behind] at room
  rw [covers_iff (by omega)] at covered
  exact ⟨by omega, by omega⟩

theorem link_range (region : RegionFits big) (fits : StridesFit big m) {prev : Word}
    (inside : inRegion big d = true) (before : Precedes big m stale prev d)
    (first : d = firstHeader big → ∀ x, Covers (stale + 24) 4 x → x.toNat ∈ big.range)
    {x : Word} (covered : Covers (prev + 24) 4 x) : x.toNat ∈ big.range := by
  rcases before with ⟨rfl, start⟩ | ⟨hq, next⟩
  · exact first start x covered
  · obtain ⟨above, _⟩ := visited_range region fits hq.visited hq.inRegion
    have ends := nextHeader_toNat (fits prev hq)
    have ge := blockEnd_ge m prev
    have link := header_offset_toNat (fits prev hq) (show (24 : Word).toNat < 784 by decide)
    have below := inRegion_below region.low inside
    have h24 : (24 : Word).toNat = 24 := rfl
    have hEnd := fits prev hq
    rw [next] at ends
    rw [covers_iff (by omega)] at covered
    exact ⟨by omega, by omega⟩

theorem Follows.flag (region : RegionFits big) (follows : Follows big m₀ t b)
    (fits : StridesFit big b.heap.mem) (header : Header big b.heap.mem d) (taken : Bool) {v : Byte}
    (value : (v != 0) = taken) (returned : List Word) :
    Follows big m₀ ⟨setTaken d taken t.blocks, returned⟩
      ⟨⟨store8 b.heap.mem d v, b.heap.allocId⟩, returned, b.blocks⟩ := by
  have kept := flag_kept (b := v) fits header
  constructor
  · rw [setTaken_start, setTaken_end]
    exact follows.walked.transfer fun c hc => kept c (follows.walked.header .refl hc)
  · intro c mem
    obtain ⟨a, ha, start, _, flag⟩ := mem_setTaken mem
    rw [start, flag, allocated]
    dsimp only
    split
    next same => rw [same, store8_same, value]
    next other =>
      rw [store8_other other]
      exact follows.flags a ha
  · intro c mem
    obtain ⟨a, ha, start, size, _⟩ := mem_setTaken mem
    rw [start, size, (kept _ (follows.header ha)).2]
    exact follows.sizes a ha
  · rfl
  · rw [setTaken_start]
    exact follows.written
  · intro x outside
    dsimp only
    rw [store8_other]
    · exact follows.outside x outside
    · rintro rfl
      exact outside (visited_range region fits header.visited header.inRegion)

theorem Follows.place (region : RegionFits big) (follows : Follows big m₀ t b)
    (ok : Undisturbed big b (.malloc size) stale) {prev : Word}
    (inside : inRegion big (tableEnd big t.blocks) = true)
    (room : hasRoom big (tableEnd big t.blocks) size = true)
    (before : Precedes big b.heap.mem stale prev (tableEnd big t.blocks)) (returned : List Word) :
    Follows big m₀ ⟨t.blocks ++ [⟨tableEnd big t.blocks, true, size.setWidth 32⟩], returned⟩
      ⟨writeHeader b.heap (tableEnd big t.blocks) prev size, returned,
        b.blocks ++ [tableEnd big t.blocks]⟩ := by
  have visited : Visited big b.heap.mem (tableEnd big t.blocks) := follows.walked.path
  have unmarked := (follows.walk ok).ends inside
  have bound := ok.bounded size rfl _ visited inside unmarked room
  have kept := fresh_kept size ok.fits visited unmarked before (by omega)
  have link (first : tableEnd big t.blocks = firstHeader big) (x : Word)
      (covered : Covers (stale + 24) 4 x) : x.toNat ∈ big.range ∧ x ≠ firstHeader big := by
    rw [first] at inside unmarked room
    exact ok.link size rfl inside unmarked room x covered
  have own : blockSize (writeHeader b.heap (tableEnd big t.blocks) prev size).mem
      (tableEnd big t.blocks) = size.setWidth 32 := writeHeader_size
  have walked := (follows.walked.transfer fun c hc => kept c (follows.walked.header .refl hc)).snoc
    inside writeHeader_magic
  constructor
  · rw [nextHeader, own] at walked
    rw [List.map_append, List.map_singleton, tableEnd_snoc]
    exact walked
  · intro c mem
    obtain old | new := List.mem_append.mp mem
    · rw [fresh_spares_flag size ok.fits visited unmarked before (by omega) (follows.header old)]
      exact follows.flags c old
    · obtain rfl := List.mem_singleton.mp new
      apply writeHeader_allocated
      apply link_spares_flag ok.fits before
      intro first covered
      exact (link first _ covered).2 first
  · intro c mem
    obtain old | new := List.mem_append.mp mem
    · rw [(kept _ (follows.header old)).2]
      exact follows.sizes c old
    · obtain rfl := List.mem_singleton.mp new
      exact own
  · rfl
  · rw [List.map_append, List.map_singleton, follows.written]
  · intro x outside
    rw [writeHeader_outside]
    · exact follows.outside x outside
    · exact fun covered => outside (placed_range region ok.fits visited inside room bound covered)
    · intro covered
      exact outside (link_range region ok.fits inside before (fun first x hx => (link first x hx).1)
        covered)

theorem Follows.malloc (region : RegionFits big) (follows : Follows big m₀ t b)
    (ok : Undisturbed big b (.malloc size) stale)
    (run : bootCall big fuel stale (.malloc size) b = some b') :
    Follows big m₀ (t.call big (.malloc size)) b' := by
  obtain ⟨⟨p, h'⟩, served, rfl⟩ := Option.map_eq_some_iff.mp run
  have result := mallocLoop_outcome (follows.walk ok) served
  rw [outcome, follows.find] at result
  rw [Table.call]
  cases found : t.blocks.find? (Block.serves size) with
  | some c =>
    rw [found] at result
    obtain ⟨rfl, rfl⟩ := Prod.mk.inj result
    have header := follows.header (List.mem_of_find?_eq_some found)
    dsimp only
    rw [if_pos rfl, follows.returned]
    exact follows.flag region ok.fits header true rfl _
  | none =>
    rw [found] at result
    dsimp only [Option.map_none] at result ⊢
    split at result
    next room =>
      obtain ⟨rfl, rfl⟩ := Prod.mk.inj result
      obtain ⟨inside, room⟩ := Bool.and_eq_true_iff.mp room
      have counted : (writeHeader b.heap (tableEnd big t.blocks)
          ((t.blocks.map Block.start).getLastD stale) size).allocId ≠ b.heap.allocId :=
        writeHeader_counts
      rw [if_neg counted, free_fresh, if_pos (by rw [inside, room]; rfl), follows.returned]
      exact follows.place region ok inside room
        (follows.walked.precedes .refl (.inl ⟨rfl, rfl⟩)) _
    next full =>
      obtain ⟨rfl, rfl⟩ := Prod.mk.inj result
      rw [if_neg full, if_pos rfl, follows.returned]
      exact { follows with returned := rfl }

theorem Follows.free (region : RegionFits big) (follows : Follows big m₀ t b)
    (ok : Undisturbed big b (.free p) stale)
    (run : bootCall big fuel stale (.free p) b = some b') :
    Follows big m₀ (t.call big (.free p)) b' := by
  obtain rfl := Option.some.inj run
  rw [Table.call, ← follows.returned]
  dsimp only [Heap.free]
  split
  next magic =>
    have mem := ok.freed p rfl magic
    rw [follows.written] at mem
    have header := follows.walked.header .refl mem
    split
    next taken => exact follows.flag region ok.fits header false rfl _
    next isFree =>
      rw [setTaken_same]
      · exact { follows with returned := rfl }
      · intro c hc start
        rw [← follows.flags c hc, start]
        exact Bool.eq_false_iff.mpr isFree
  next unmarked =>
    rw [setTaken_same]
    · exact { follows with returned := rfl }
    · intro c hc start
      have magic := (follows.header hc).magic
      rw [start] at magic
      exact absurd magic unmarked

theorem Follows.step (region : RegionFits big) (follows : Follows big m₀ t b)
    (ok : Undisturbed big b call stale) (run : bootCall big fuel stale call b = some b') :
    Follows big m₀ (t.call big call) b' := by
  cases call with
  | malloc size => exact follows.malloc region ok run
  | free p => exact follows.free region ok run

/-- An undisturbed call returns, whatever fuel is left over. -/
theorem Follows.returns (follows : Follows big m₀ t b) (ok : Undisturbed big b call stale)
    (enough : t.blocks.length < fuel) : ∃ b', bootCall big fuel stale call b = some b' := by
  cases call with
  | malloc size =>
    refine ⟨_, Option.map_eq_some_iff.mpr ⟨_, mallocLoop_returns (follows.walk ok) ?_, rfl⟩⟩
    rwa [List.length_map]
  | free p => exact ⟨_, rfl⟩

theorem follows_start : Follows big (setupRoot big h).mem ⟨[], []⟩ (.fresh big h) where
  walked := by
    have first : tableEnd big [] = firstHeader big := add_zero _
    rw [first]
    exact .here
  flags _ mem := absurd mem List.not_mem_nil
  sizes _ mem := absurd mem List.not_mem_nil
  returned := rfl
  written := rfl
  outside _ _ := rfl

theorem reach_follows (region : RegionFits big) {s : Boot × Boot}
    (run : (twoBoots big h₁ h₂).Reach
      (fun s a => Undisturbed big s.1 a.1 a.2.1 ∧ Undisturbed big s.2 a.1 a.2.2) s) :
    ∃ t, Follows big (setupRoot big h₁).mem t s.1 ∧ Follows big (setupRoot big h₂).mem t s.2 := by
  apply run.invariant
    (I := fun s => ∃ t, Follows big (setupRoot big h₁).mem t s.1 ∧
      Follows big (setupRoot big h₂).mem t s.2)
  · rintro s rfl
    exact ⟨⟨[], []⟩, follows_start, follows_start⟩
  · rintro s a s' _ ⟨t, left, right⟩ ⟨okLeft, okRight⟩ ⟨fuel, runLeft, runRight⟩
    exact ⟨t.call big a.1, left.step region okLeft runLeft, right.step region okRight runRight⟩

/-- Boots whose calls are undisturbed return the same pointers and write inside the region only,
and no such call hangs. -/
theorem boots_agree (region : RegionFits big) {s : Boot × Boot}
    (run : (twoBoots big h₁ h₂).Reach
      (fun s a => Undisturbed big s.1 a.1 a.2.1 ∧ Undisturbed big s.2 a.1 a.2.2) s) :
    BootsAgree big h₁ h₂ s ∧ ∀ a : BootCall × Word × Word, Undisturbed big s.1 a.1 a.2.1 →
      Undisturbed big s.2 a.1 a.2.2 → ∃ s', (twoBoots big h₁ h₂).step s a s' := by
  obtain ⟨t, left, right⟩ := reach_follows region run
  refine ⟨⟨left.returned.trans right.returned.symm, left.outside, right.outside⟩, ?_⟩
  intro a okLeft okRight
  obtain ⟨b₁, runLeft⟩ := left.returns okLeft (Nat.lt_succ_self _)
  obtain ⟨b₂, runRight⟩ := right.returns okRight (Nat.lt_succ_self _)
  exact ⟨(b₁, b₂), t.blocks.length + 1, runLeft, runRight⟩

/-- Half a gigabyte in which an earlier boot left some byte that is no header. -/
def usedHeap : HeapState := ⟨store8 (fun _ => 0) 0x300000 0x55, 0⟩

theorem sample_undisturbed (unmarked : checkMagic (setupRoot sampleRegion h).mem
    (firstHeader sampleRegion) = false) :
    Undisturbed sampleRegion (.fresh sampleRegion h) (.malloc 16) 0x200000 where
  fits d header := by
    obtain rfl := path_from_unmarked unmarked header.visited
    cases unmarked.symm.trans header.magic
  bounded := by
    rintro _ ⟨⟩ d visited _ _ _
    obtain rfl := path_from_unmarked unmarked visited
    decide
  known d header := by
    obtain rfl := path_from_unmarked unmarked header.visited
    cases unmarked.symm.trans header.magic
  freed := by
    rintro _ ⟨⟩
  link := by
    rintro _ ⟨⟩ _ _ _ x covered
    rw [covers_iff (by decide)] at covered
    have link : ((0x200000 + 24 : Word)).toNat = 0x200018 := rfl
    refine ⟨⟨?_, ?_⟩, ?_⟩
    · have addr : sampleRegion.addr.toNat = 0x200000 := rfl
      omega
    · have stop : sampleRegion.addr.toNat + sampleRegion.len.toNat = 0x1FE00000 := rfl
      omega
    · rintro rfl
      have first : (firstHeader sampleRegion).toNat = 0x20001C := rfl
      omega

theorem sample_boot (h : HeapState) (mem : h ∈ [zeroedHeap, usedHeap]) :
    ∃ b, bootCall sampleRegion 1 0x200000 (.malloc 16) (.fresh sampleRegion h) = some b ∧
      b.returned = [0x20008C] ∧ b.blocks = [0x20001C] ∧ SampleBlock b.heap := by
  have facts : [zeroedHeap, usedHeap].all fun h =>
      (bootCall sampleRegion 1 0x200000 (.malloc 16) (.fresh sampleRegion h)).any fun b =>
        b.returned = [0x20008C] && b.blocks = [0x20001C] && (b.heap.allocId = 2 &&
          checkMagic b.heap.mem (firstHeader sampleRegion) &&
          allocated b.heap.mem (firstHeader sampleRegion) &&
          blockSize b.heap.mem (firstHeader sampleRegion) = 16 && !checkMagic b.heap.mem 0x2004EC) := by
    decide +kernel
  obtain ⟨b, run, facts⟩ := (Option.any_eq_true _ _).mp (List.all_eq_true.mp facts h mem)
  simp only [Bool.and_eq_true, Bool.not_eq_true', decide_eq_true_eq] at facts
  obtain ⟨⟨returned, blocks⟩, ⟨⟨⟨counter, magic⟩, taken⟩, size⟩, ends⟩ := facts
  exact ⟨b, run, returned, blocks, counter, magic, taken, size, ends⟩

theorem SampleBlock.undisturbed (block : SampleBlock b.heap) (blocks : b.blocks = [0x20001C]) :
    Undisturbed sampleRegion b (.malloc 24) stale where
  fits := block.fits
  bounded := by
    rintro _ ⟨⟩ d visited _ _ _
    rcases block.visited visited with rfl | rfl <;> decide
  known d header := by
    rcases block.visited header.visited with rfl | rfl
    · rw [blocks]
      exact List.mem_singleton_self _
    · cases block.ends.symm.trans header.magic
  freed := by
    rintro _ ⟨⟩
  link := by
    rintro _ _ _ unmarked
    cases block.magic.symm.trans unmarked

theorem boots_agree_two_blocks : ∃ s, s.1.returned = [0x20055C, 0x20008C] ∧
    BootsAgree sampleRegion zeroedHeap usedHeap s := by
  have region : RegionFits sampleRegion := ⟨by decide, by decide⟩
  have okLeft : Undisturbed sampleRegion (.fresh sampleRegion zeroedHeap) (.malloc 16) 0x200000 :=
    sample_undisturbed sample_unmarked
  have okRight : Undisturbed sampleRegion (.fresh sampleRegion usedHeap) (.malloc 16) 0x200000 :=
    sample_undisturbed (by decide +kernel)
  have start : (twoBoots sampleRegion zeroedHeap usedHeap).Reach
      (fun s a => Undisturbed sampleRegion s.1 a.1 a.2.1 ∧ Undisturbed sampleRegion s.2 a.1 a.2.2)
      (.fresh sampleRegion zeroedHeap, .fresh sampleRegion usedHeap) := .start rfl
  obtain ⟨b₁, runLeft, returned₁, blocks₁, left⟩ := sample_boot zeroedHeap (by simp)
  obtain ⟨b₂, runRight, _, blocks₂, right⟩ := sample_boot usedHeap (by simp)
  have first : (twoBoots sampleRegion zeroedHeap usedHeap).step
      (.fresh sampleRegion zeroedHeap, .fresh sampleRegion usedHeap)
      (.malloc 16, 0x200000, 0x200000) (b₁, b₂) := ⟨1, runLeft, runRight⟩
  have once := start.next ⟨okLeft, okRight⟩ first
  -- The second block is placed behind the first one in both boots, whatever `prev` holds.
  have ok₁ : Undisturbed sampleRegion b₁ (.malloc 24) 0x1000 := left.undisturbed blocks₁
  have ok₂ : Undisturbed sampleRegion b₂ (.malloc 24) 0x2000 := right.undisturbed blocks₂
  obtain ⟨⟨c₁, c₂⟩, second⟩ := (boots_agree region once).2 (.malloc 24, 0x1000, 0x2000) ok₁ ok₂
  have twice := once.next ⟨ok₁, ok₂⟩ second
  refine ⟨(c₁, c₂), ?_, (boots_agree region twice).1⟩
  obtain ⟨fuel, run, _⟩ := second
  obtain ⟨r, served, rfl⟩ := Option.map_eq_some_iff.mp run
  have placed := congrArg Prod.fst (mallocLoop_outcome left.blocks served)
  rw [outcome_tight left.tight, if_pos (by decide)] at placed
  dsimp only at placed ⊢
  rw [placed, returned₁]
  decide

/-- What an earlier boot leaves behind that served one request of no bytes. -/
def rebootedHeap : HeapState := ⟨setSignature (store8 (fun _ => 0) 0x20001C 1) 0x20001C, 0⟩

theorem rebootedHeap_outside (x : Word) (outside : x.toNat ∉ sampleRegion.range) :
    rebootedHeap.mem x = 0 := by
  have first : (0x20001C : Word).toNat = 0x20001C := rfl
  have addr : sampleRegion.addr.toNat = 0x200000 := rfl
  have stop : sampleRegion.addr.toNat + sampleRegion.len.toNat = 0x1FE00000 := rfl
  have away (a : Word) (n : Nat) (above : 0x200000 ≤ a.toNat) (below : a.toNat + n ≤ 0x1FE00000) :
      ¬Covers a n x := by
    intro covered
    rw [covers_iff (by omega)] at covered
    exact outside ⟨by omega, by omega⟩
  have magic := away (0x20001C + 12) 6 (by decide) (by decide)
  have flag := away 0x20001C 1 (by decide) (by decide)
  exact (storeBytes_outside magic).trans (storeBytes_outside flag)

/-- The boot behind another one passes over the header that is still there. -/
theorem boots_differ : ¬∀ big h₁ h₂, RegionFits big → h₁.allocId = h₂.allocId →
    (∀ x : Word, x.toNat ∉ big.range → h₁.mem x = h₂.mem x) →
    ∀ s, (twoBoots big h₁ h₂).Reach anyStep s → BootsAgree big h₁ h₂ s := by
  have facts : (bootCall sampleRegion 2 0x1000 (.malloc 16) (.fresh sampleRegion zeroedHeap)).any
      fun b₁ => b₁.returned = [0x20008C] &&
        (bootCall sampleRegion 2 0x1000 (.malloc 16) (.fresh sampleRegion rebootedHeap)).any
          fun b₂ => b₂.returned = [0x20039C] := by
    decide +kernel
  intro claim
  obtain ⟨b₁, runLeft, facts⟩ := (Option.any_eq_true _ _).mp facts
  obtain ⟨left, facts⟩ := Bool.and_eq_true_iff.mp facts
  obtain ⟨b₂, runRight, right⟩ := (Option.any_eq_true _ _).mp facts
  have start : (twoBoots sampleRegion zeroedHeap rebootedHeap).Reach anyStep
      (.fresh sampleRegion zeroedHeap, .fresh sampleRegion rebootedHeap) := .start rfl
  have step : (twoBoots sampleRegion zeroedHeap rebootedHeap).step
      (.fresh sampleRegion zeroedHeap, .fresh sampleRegion rebootedHeap)
      (.malloc 16, 0x1000, 0x1000) (b₁, b₂) := ⟨2, runLeft, runRight⟩
  have run := start.next trivial step
  have same := (claim sampleRegion zeroedHeap rebootedHeap ⟨by decide, by decide⟩ rfl
    (fun x outside => (rebootedHeap_outside x outside).symm) _ run).returned
  have left : b₁.returned = [0x20008C] := of_decide_eq_true left
  have right : b₂.returned = [0x20039C] := of_decide_eq_true right
  rw [left, right] at same
  exact absurd same (by decide)

end X86Os.Heap
