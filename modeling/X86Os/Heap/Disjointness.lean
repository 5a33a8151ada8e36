import X86Os.Heap.Blocks
import X86Os.Library.Owners
import X86Os.Library.Runs

/-!
# Live ranges over whole runs

A session is the heap together with the ranges that malloc handed out and that
were not freed. Between the calls the owners of the ranges store any bytes in
them. Each live range lies behind the header of an allocated block of its own,
as long as no stride of the walk leaves the 32-bit address space.
-/

namespace X86Os.Heap

open Library.Memory Library.Owners Library.Runs Relation
set_option autoImplicit false

variable {big : MultibootMmapEntry} {m m' : Mem} {h₀ : HeapState} {d e x : Word}

/-- A pointer returned by `malloc` with the size asked for. -/
abbrev LiveRange := Word × BitVec 64

structure Session where
  heap : HeapState
  live : List LiveRange

/-- `stale` is what the uninitialised `prev` of the call holds. -/
inductive HeapCall
  | malloc (stale : Word) (size : BitVec 64)
  | free (p : Word)
  | store (x : Word) (b : Byte)

def HeapByte (big : MultibootMmapEntry) (x : Word) : Prop :=
  (big.addr.toNat ≤ x.toNat ∧ x.toNat < big.addr.toNat + big.len.toNat) ∨
    Covers (firstHeader big) 28 x

inductive HeapStep (big : MultibootMmapEntry) : Session → HeapCall → Session → Prop
  | malloc {h h' : HeapState} {live : List LiveRange} {size : BitVec 64} {fuel : Nat}
      {stale p : Word} (run : malloc big fuel stale size h = some (p, h')) :
      HeapStep big ⟨h, live⟩ (.malloc stale size)
        ⟨h', if p = mallocFailed then live else (p, size) :: live⟩
  | free {h : HeapState} {l₁ l₂ : List LiveRange} {p : Word} {size : BitVec 64} :
      HeapStep big ⟨h, l₁ ++ (p, size) :: l₂⟩ (.free p) ⟨{ h with mem := free h.mem p }, l₁ ++ l₂⟩
  | store {h : HeapState} {live : List LiveRange} {r : LiveRange} {x : Word} {b : Byte}
      (owned : r ∈ live) (inside : Covers r.1 r.2.toNat x) :
      HeapStep big ⟨h, live⟩ (.store x b) ⟨{ h with mem := store8 h.mem x b }, live⟩

/-- Runs from `pmm_setup` on the region `big`, whatever memory held before. -/
def heapSystem (big : MultibootMmapEntry) (h₀ : HeapState) : System Session HeapCall where
  init s := s = ⟨setupRoot big h₀, []⟩
  step := HeapStep big

structure Separated (big : MultibootMmapEntry) (s : Session) : Prop where
  ranges : s.live.Pairwise fun a b => ∀ x, Covers a.1 a.2.toNat x → ¬Covers b.1 b.2.toNat x
  headers : ∀ r ∈ s.live, ∀ d, Header big s.heap.mem d → ∀ x, Covers d 28 x → ¬Covers r.1 r.2.toNat x

/-- The condition on a step: no header on the walk has a stride that leaves the
address space, and a request served at the end of the walk creates no such header. -/
def StridesBounded (big : MultibootMmapEntry) (s : Session) (call : HeapCall) : Prop :=
  StridesFit big s.heap.mem ∧ ∀ stale size, call = .malloc stale size → ∀ d,
    Visited big s.heap.mem d → inRegion big d = true → checkMagic s.heap.mem d = false →
    hasRoom big d size = true → d.toNat + 28 * (size.toNat + 28) < 2 ^ 32

/-- The condition on a call that places the first block: the link that it writes through its
uninitialised `prev` hits no heap byte. -/
def StaleHarmless (big : MultibootMmapEntry) (s : Session) (call : HeapCall) : Prop :=
  ∀ stale size, call = .malloc stale size → inRegion big (firstHeader big) = true →
    checkMagic s.heap.mem (firstHeader big) = false → hasRoom big (firstHeader big) size = true →
    ∀ x, Covers (stale + 24) 4 x → ¬HeapByte big x

structure SafeCall (big : MultibootMmapEntry) (s : Session) (call : HeapCall) : Prop where
  bounded : StridesBounded big s call
  stale : StaleHarmless big s call

structure Owns (big : MultibootMmapEntry) (m : Mem) (r : LiveRange) (d : Word) : Prop where
  header : Header big m d
  taken : allocated m d = true
  place : r.1 = d + 4 * sizeofAllocStruct ∨ r.1 = advance d sizeofAllocStruct
  large : r.2.toNat ≤ (blockSize m d).toNat

theorem place_toNat {p : Word} (fits : blockEnd m d < 2 ^ 32)
    (place : p = d + 4 * sizeofAllocStruct ∨ p = advance d sizeofAllocStruct) :
    p.toNat = d.toNat + 112 ∨ p.toNat = d.toNat + 784 := by
  rcases place with rfl | rfl
  · exact .inl (header_offset_toNat fits (by decide))
  · exact .inr (offset_toNat ((blockEnd_ge m d).trans_lt fits))

theorem place_unique {p : Word} (fits : StridesFit big m) (hd : Header big m d) (he : Header big m e)
    (atD : p = d + 4 * sizeofAllocStruct ∨ p = advance d sizeofAllocStruct)
    (atE : p = e + 4 * sizeofAllocStruct ∨ p = advance e sizeofAllocStruct) : d = e := by
  have nd := place_toNat (fits d hd) atD
  have ne := place_toNat (fits e he) atE
  have := blockEnd_ge m d
  have := blockEnd_ge m e
  rcases visited_order fits hd.visited he.visited with same | ⟨_, le⟩ | ⟨_, le⟩
  · exact same
  · omega
  · omega

theorem place_interior {r : LiveRange} (fits : blockEnd m d < 2 ^ 32)
    (place : r.1 = d + 4 * sizeofAllocStruct ∨ r.1 = advance d sizeofAllocStruct)
    (large : r.2.toNat ≤ (blockSize m d).toNat) (covered : Covers r.1 r.2.toNat x) :
    d.toNat + 28 ≤ x.toNat ∧ x.toNat < blockEnd m d := by
  have offset := place_toNat fits place
  rw [blockEnd] at fits ⊢
  rw [covers_iff (by omega)] at covered
  omega

theorem Owns.interior {r : LiveRange} (fits : StridesFit big m) (owns : Owns big m r d)
    (covered : Covers r.1 r.2.toNat x) : d.toNat + 28 ≤ x.toNat ∧ x.toNat < blockEnd m d :=
  place_interior (fits d owns.header) owns.place owns.large covered

theorem Owns.transfer {r : LiveRange}
    (same : ∀ e, Header big m e → checkMagic m' e = true ∧ blockSize m' e = blockSize m e)
    (taken : allocated m' d = true) (owns : Owns big m r d) : Owns big m' r d where
  header := owns.header.transfer same
  taken := taken
  place := owns.place
  large := (same d owns.header).2 ▸ owns.large

theorem header_kept
    (bytes : ∀ e, Header big m e → ∀ k : Word, 8 ≤ k.toNat → k.toNat < 18 → m' (e + k) = m (e + k)) :
    ∀ e, Header big m e → checkMagic m' e = true ∧ blockSize m' e = blockSize m e := by
  intro e header
  constructor
  · rw [checkMagic_congr fun k low high => bytes e header k (by omega) high]
    exact header.magic
  · exact blockSize_congr fun k low high => bytes e header k low (by omega)

theorem separated_of_owned {s : Session} (fits : StridesFit big s.heap.mem)
    (owned : EachOwned (Owns big s.heap.mem) s.live) : Separated big s := by
  constructor
  · apply owned.pairwise
    intro a b d e ownsA ownsB ne x inA inB
    have hA := ownsA.interior fits inA
    have hB := ownsB.interior fits inB
    exact ne (block_unique fits ownsA.header ownsB.header ⟨by omega, hA.2⟩ ⟨by omega, hB.2⟩)
  · intro r hr e header x inHeader inRange
    obtain ⟨d, owns⟩ := owned.exists_owner hr
    obtain ⟨low, high⟩ := owns.interior fits inRange
    have ne := header_ne_interior fits owns.header header low high (k := x - e) inHeader
    exact ne (by ring)

theorem interior_spares {b : Byte} {k : Word} (fits : StridesFit big m) (hd : Header big m d)
    (he : Header big m e) (low : d.toNat + 28 ≤ x.toNat) (high : x.toNat < blockEnd m d)
    (hk : k.toNat < 28) : store8 m x b (e + k) = m (e + k) :=
  store8_other (header_ne_interior fits hd he low high hk)

theorem interior_kept {b : Byte} (fits : StridesFit big m) (hd : Header big m d)
    (low : d.toNat + 28 ≤ x.toNat) (high : x.toNat < blockEnd m d) :
    ∀ e, Header big m e →
      checkMagic (store8 m x b) e = true ∧ blockSize (store8 m x b) e = blockSize m e :=
  header_kept fun _ he _ _ hk => interior_spares fits hd he low high (by omega)

theorem owned_interior {live : List LiveRange} {b : Byte} (fits : StridesFit big m)
    (hd : Header big m d) (low : d.toNat + 28 ≤ x.toNat) (high : x.toNat < blockEnd m d)
    (owned : EachOwned (Owns big m) live) : EachOwned (Owns big (store8 m x b)) live := by
  apply owned.imp
  intro r e owns
  refine owns.transfer (interior_kept fits hd low high) ?_
  have flag := interior_spares (b := b) (k := 0) fits hd owns.header low high (by decide)
  rw [add_zero] at flag
  rw [allocated, flag]
  exact owns.taken

theorem flag_kept {b : Byte} (fits : StridesFit big m) (hd : Header big m d) :
    ∀ e, Header big m e →
      checkMagic (store8 m d b) e = true ∧ blockSize (store8 m d b) e = blockSize m e :=
  header_kept fun e he k low high =>
    store8_other (header_ne_flag fits hd he (show k.toNat < 28 by omega) (.inr (by omega)))

/-- The flag byte of a block may change when no live range owns this block. -/
theorem owned_flag {live : List LiveRange} {b : Byte} (fits : StridesFit big m)
    (hd : Header big m d) (owned : EachOwned (fun r e => Owns big m r e ∧ e ≠ d) live) :
    EachOwned (Owns big (store8 m d b)) live := by
  apply owned.imp
  rintro r e ⟨owns, ne⟩
  refine owns.transfer (flag_kept fits hd) ?_
  rw [allocated, store8_other ne]
  exact owns.taken

theorem size_le_of_signExtend {size : BitVec 64} (fits : blockEnd m d < 2 ^ 32)
    (large : size ≤ (blockSize m d).signExtend 64) : size.toNat ≤ (blockSize m d).toNat := by
  rw [blockEnd] at fits
  have sign : (blockSize m d).msb = false := by
    rw [BitVec.msb_eq_false_iff_two_mul_lt]
    omega
  rw [BitVec.signExtend_eq_setWidth_of_msb_false sign, BitVec.le_def, BitVec.toNat_setWidth] at large
  omega

theorem owned_reused {live : List LiveRange} {size : BitVec 64} (fits : StridesFit big m)
    (header : Header big m d) (isFree : allocated m d = false)
    (large : size ≤ (blockSize m d).signExtend 64) (owned : EachOwned (Owns big m) live) :
    EachOwned (Owns big (store8 m d 1)) ((advance d sizeofAllocStruct, size) :: live) := by
  have others : EachOwned (fun r e => Owns big m r e ∧ e ≠ d) live := by
    apply owned.imp
    intro r e owns
    refine ⟨owns, ?_⟩
    rintro rfl
    rw [owns.taken] at isFree
    cases isFree
  have kept := flag_kept (b := 1) fits header
  apply (owned_flag fits header others).cons
  · refine ⟨header.transfer kept, ?_, .inr rfl, ?_⟩
    · rw [allocated, store8_same]
      rfl
    · rw [(kept d header).2]
      exact size_le_of_signExtend (fits d header) large
  · intro r hr again
    obtain ⟨e, owns, ne⟩ := others.exists_owner hr
    exact ne (place_unique fits owns.header header owns.place again.place)

theorem fresh_kept {h : HeapState} {stale prev : Word} (size : BitVec 64)
    (fits : StridesFit big h.mem) (visited : Visited big h.mem d)
    (unmarked : checkMagic h.mem d = false) (before : Precedes big h.mem stale prev d)
    (room : d.toNat + 28 ≤ 2 ^ 32) : ∀ e, Header big h.mem e →
      checkMagic (writeHeader h d prev size).mem e = true ∧
        blockSize (writeHeader h d prev size).mem e = blockSize h.mem e :=
  header_kept fun _ he _ _ hk => writeHeader_spares fits visited unmarked before room he hk

theorem fresh_spares_flag {h : HeapState} {stale prev : Word} (size : BitVec 64)
    (fits : StridesFit big h.mem) (visited : Visited big h.mem d)
    (unmarked : checkMagic h.mem d = false) (before : Precedes big h.mem stale prev d)
    (room : d.toNat + 28 ≤ 2 ^ 32) (header : Header big h.mem e) :
    allocated (writeHeader h d prev size).mem e = allocated h.mem e := by
  have flag : (writeHeader h d prev size).mem (e + 0) = h.mem (e + 0) :=
    writeHeader_spares fits visited unmarked before room header (by decide)
  rw [add_zero] at flag
  rw [allocated, flag, allocated]

/-- The link that the fresh path writes does not hit the flag of its block. -/
theorem link_spares_flag {stale prev : Word} (fits : StridesFit big m)
    (before : Precedes big m stale prev d)
    (harmless : d = firstHeader big → ¬Covers (stale + 24) 4 d) : ¬Covers (prev + 24) 4 d := by
  rcases before with ⟨rfl, first⟩ | ⟨hq, next⟩
  · exact harmless first
  · have hqEnd := fits prev hq
    have ge := blockEnd_ge m prev
    have link := header_offset_toNat hqEnd (show (24 : Word).toNat < 784 by decide)
    have h24 : (24 : Word).toNat = 24 := rfl
    rw [covers_iff (by omega), ← next, nextHeader_toNat hqEnd]
    omega

theorem owned_fresh {h : HeapState} {live : List LiveRange} {size : BitVec 64} {stale prev : Word}
    (fits : StridesFit big h.mem) (visited : Visited big h.mem d) (region : inRegion big d = true)
    (unmarked : checkMagic h.mem d = false) (before : Precedes big h.mem stale prev d)
    (harmless : d = firstHeader big → ∀ x, Covers (stale + 24) 4 x → ¬HeapByte big x)
    (room : d.toNat + 28 * (size.toNat + 28) < 2 ^ 32) (owned : EachOwned (Owns big h.mem) live) :
    EachOwned (Owns big (writeHeader h d prev size).mem)
      ((d + 4 * sizeofAllocStruct, size) :: live) := by
  have kept := fresh_kept size fits visited unmarked before (by omega)
  have stored : blockSize (writeHeader h d prev size).mem d = BitVec.ofNat 32 size.toNat := writeHeader_size
  have sizeNat : (blockSize (writeHeader h d prev size).mem d).toNat = size.toNat := by
    rw [stored, BitVec.toNat_ofNat]
    omega
  have old : EachOwned (Owns big (writeHeader h d prev size).mem) live := by
    apply owned.imp
    intro r e owns
    refine owns.transfer kept ?_
    rw [fresh_spares_flag size fits visited unmarked before (by omega) owns.header]
    exact owns.taken
  apply old.cons
  · refine ⟨⟨visited.transfer kept, region, writeHeader_magic⟩, writeHeader_allocated ?_, .inl rfl,
      sizeNat.ge⟩
    apply link_spares_flag fits before
    intro first covered
    exact harmless first d covered (.inr (by simp [← first, Covers]))
  · intro r hr again
    obtain ⟨e, owns⟩ := owned.exists_owner hr
    have ends := header_before_unmarked fits visited unmarked owns.header
    have ge := blockEnd_ge h.mem e
    have atE := place_toNat (fits e owns.header) owns.place
    have atD := place_toNat (d := d) (m := (writeHeader h d prev size).mem)
      (by rw [blockEnd, sizeNat]; exact room) again.place
    omega

theorem free_fresh (d : Word) : d + 4 * sizeofAllocStruct - 4 * sizeofAllocStruct = d := by ring

theorem free_reused (d : Word) : advance d sizeofAllocStruct - 4 * sizeofAllocStruct = d + 672 := by
  rw [advance, sizeofAllocStruct, add_sub_assoc]
  rfl

theorem free_block (magic : checkMagic m d = true) (taken : allocated m d = true) :
    free m (d + 4 * sizeofAllocStruct) = store8 m d 0 := by
  simp only [free, free_fresh, magic, taken, if_true]

theorem free_of_fresh {r : LiveRange} (owns : Owns big m r d)
    (fresh : r.1 = d + 4 * sizeofAllocStruct) : free m r.1 = store8 m d 0 := by
  rw [fresh, free_block owns.header.magic owns.taken]

theorem free_of_reused {p : Word} (fits : StridesFit big m) (hd : Header big m d)
    (reused : p = advance d sizeofAllocStruct) :
    free m p = m ∨ free m p = store8 m (d + 672) 0 ∧ d.toNat + 28 ≤ (d + 672).toNat ∧
      (d + 672).toNat < blockEnd m d := by
  have inside := header_offset_toNat (fits d hd) (show (672 : Word).toNat < 784 by decide)
  have h672 : (672 : Word).toNat = 672 := rfl
  have ge := blockEnd_ge m d
  simp only [free, reused, free_reused]
  split
  · split
    · exact .inr ⟨rfl, by omega, by omega⟩
    · exact .inl rfl
  · exact .inl rfl

theorem owned_free {l₁ l₂ : List LiveRange} {p : Word} {size : BitVec 64} (fits : StridesFit big m)
    (owned : EachOwned (Owns big m) (l₁ ++ (p, size) :: l₂)) :
    EachOwned (Owns big (free m p)) (l₁ ++ l₂) := by
  obtain ⟨d, owns, rest⟩ := owned.remove
  have kept : EachOwned (Owns big m) (l₁ ++ l₂) := rest.imp fun _ _ h => h.1
  rcases owns.place with fresh | reused
  · rw [free_of_fresh owns fresh]
    exact owned_flag fits owns.header rest
  · rcases free_of_reused fits owns.header reused with same | ⟨eq, low, high⟩
    · rwa [same]
    · rw [eq]
      exact owned_interior fits owns.header low high kept

theorem owned_malloc {h h' : HeapState} {live : List LiveRange} {size : BitVec 64}
    {stale p : Word} (guard : SafeCall big ⟨h, live⟩ (.malloc stale size))
    (owned : EachOwned (Owns big h.mem) live) (result : MallocResult big stale size h p h') :
    EachOwned (Owns big h'.mem) (if p = mallocFailed then live else (p, size) :: live) := by
  have fits : StridesFit big h.mem := guard.bounded.1
  have both : h' = h ∧ p = mallocFailed ∨ EachOwned (Owns big h'.mem) ((p, size) :: live) := by
    cases result with
    | failed => exact .inl ⟨rfl, rfl⟩
    | reused header isFree large => exact .inr (owned_reused fits header isFree large owned)
    | fresh visited region unmarked room before =>
      have bound := guard.bounded.2 stale size rfl _ visited region unmarked room
      refine .inr (owned_fresh fits visited region unmarked before ?_ bound owned)
      rintro rfl
      exact guard.stale stale size rfl region unmarked room
  split
  · exact both.elim (fun same => same.1 ▸ owned) EachOwned.tail
  · rename_i success
    exact both.resolve_left fun failed => success failed.2

theorem step_owned {s t : Session} {call : HeapCall} (guard : SafeCall big s call)
    (owned : EachOwned (Owns big s.heap.mem) s.live) (step : HeapStep big s call t) :
    EachOwned (Owns big t.heap.mem) t.live := by
  cases step with
  | malloc run => exact owned_malloc guard owned (malloc_result run)
  | free => exact owned_free guard.bounded.1 owned
  | store mem inside =>
    obtain ⟨d, owns⟩ := owned.exists_owner mem
    obtain ⟨low, high⟩ := owns.interior guard.bounded.1 inside
    exact owned_interior guard.bounded.1 owns.header low high owned

/-- In a run without overflowing strides, whose first link hits no heap byte, no live range meets
another one or a header. -/
theorem live_ranges_separated {s : Session} (run : (heapSystem big h₀).Reach (SafeCall big) s)
    (fits : StridesFit big s.heap.mem) : Separated big s := by
  have owned : EachOwned (Owns big s.heap.mem) s.live := by
    apply run.invariant (I := fun s => EachOwned (Owns big s.heap.mem) s.live)
    · rintro s rfl
      exact .nil
    · intro s call t _ owned guard step
      exact step_owned guard owned step
  exact separated_of_owned fits owned

/-- Half a gigabyte from 2 MiB on, as a boot loader reports it. -/
def sampleRegion : MultibootMmapEntry := ⟨20, 0x200000, 0x1FC00000, 1⟩

def smallRegion : MultibootMmapEntry := ⟨20, 0x200000, 0x8000, 1⟩

def zeroedHeap : HeapState := ⟨fun _ => 0, 0⟩

/-- A stale pointer to low memory hits no byte of a region further up. -/
theorem stale_spares (start : 0x2000 ≤ big.addr.toNat) (low : big.addr.toNat + 56 ≤ 2 ^ 32)
    (covered : Covers (0x1000 + 24) 4 x) : ¬HeapByte big x := by
  rw [covers_iff (by decide)] at covered
  have stale : ((0x1000 + 24 : Word)).toNat = 0x1018 := rfl
  have first : (firstHeader big).toNat = big.addr.toNat + 28 := firstHeader_toNat (by omega)
  rintro (⟨le, _⟩ | inHeader)
  · omega
  · rw [covers_iff (by omega)] at inHeader
    omega

/-- The sample region with one block of 16 bytes, the second header that was written. -/
structure SampleBlock (h : HeapState) : Prop where
  counter : h.allocId = 2
  magic : checkMagic h.mem (firstHeader sampleRegion) = true
  taken : allocated h.mem (firstHeader sampleRegion) = true
  size : blockSize h.mem (firstHeader sampleRegion) = 16
  ends : checkMagic h.mem 0x2004EC = false

/-- A memory where the walk goes on through a second block of 24 bytes. -/
structure SampleBlocks (m : Mem) : Prop where
  first : blockSize m (firstHeader sampleRegion) = 16
  second : blockSize m 0x2004EC = 24
  ends : checkMagic m 0x200A9C = false

theorem sample_mallocs : ∃ h h',
    malloc sampleRegion 1 0x1000 16 (setupRoot sampleRegion zeroedHeap) = some (0x20008C, h) ∧
      SampleBlock h ∧
    malloc sampleRegion 2 0x1000 24 h = some (0x20055C, h') ∧ SampleBlocks h'.mem := by
  have facts : (malloc sampleRegion 1 0x1000 16 (setupRoot sampleRegion zeroedHeap)).any fun r =>
      r.1 = 0x20008C && (r.2.allocId = 2 && checkMagic r.2.mem (firstHeader sampleRegion) &&
        allocated r.2.mem (firstHeader sampleRegion) && blockSize r.2.mem (firstHeader sampleRegion) = 16 &&
        !checkMagic r.2.mem 0x2004EC) &&
      (malloc sampleRegion 2 0x1000 24 r.2).any fun q =>
        q.1 = 0x20055C && (blockSize q.2.mem (firstHeader sampleRegion) = 16 &&
          blockSize q.2.mem 0x2004EC = 24 && !checkMagic q.2.mem 0x200A9C) := by
    decide +kernel
  obtain ⟨⟨p, h⟩, served, facts⟩ := (Option.any_eq_true _ _).mp facts
  simp only [Bool.and_eq_true, Bool.not_eq_true', decide_eq_true_eq] at facts
  obtain ⟨⟨rfl, ⟨⟨⟨counter, magic⟩, taken⟩, size⟩, ends⟩, rest⟩ := facts
  obtain ⟨⟨q, h'⟩, again, facts⟩ := (Option.any_eq_true _ _).mp rest
  simp only [Bool.and_eq_true, Bool.not_eq_true', decide_eq_true_eq] at facts
  obtain ⟨rfl, ⟨size₁, size₂⟩, ends₂⟩ := facts
  exact ⟨h, h', served, ⟨counter, magic, taken, size, ends⟩, again, ⟨size₁, size₂, ends₂⟩⟩

theorem sample_unmarked : checkMagic (setupRoot sampleRegion zeroedHeap).mem (firstHeader sampleRegion) =
    false := by
  decide +kernel

theorem sample_first {m : Mem} {d : Word} (size : blockSize m (firstHeader sampleRegion) = 16)
    (visited : Visited sampleRegion m d) : d = firstHeader sampleRegion ∨
      ReflTransGen (WalkStep sampleRegion m) 0x2004EC d := by
  rcases ReflTransGen.cases_head visited with same | ⟨e, ⟨_, _, rfl⟩, path⟩
  · exact .inl same.symm
  · rw [nextHeader, size] at path
    exact .inr path

theorem SampleBlock.visited {h : HeapState} {d : Word} (block : SampleBlock h)
    (visited : Visited sampleRegion h.mem d) : d = firstHeader sampleRegion ∨ d = 0x2004EC :=
  (sample_first block.size visited).imp_right (path_from_unmarked block.ends)

theorem SampleBlocks.visited {m : Mem} {d : Word} (blocks : SampleBlocks m)
    (visited : Visited sampleRegion m d) :
    d = firstHeader sampleRegion ∨ d = 0x2004EC ∨ d = 0x200A9C := by
  refine (sample_first blocks.first visited).imp_right fun path => ?_
  rcases ReflTransGen.cases_head path with same | ⟨e, ⟨_, _, rfl⟩, path⟩
  · exact .inl same.symm
  · rw [nextHeader, blocks.second] at path
    exact .inr (path_from_unmarked blocks.ends path)

theorem SampleBlock.fits {h : HeapState} (block : SampleBlock h) : StridesFit sampleRegion h.mem := by
  intro d header
  rcases block.visited header.visited with rfl | rfl
  · rw [blockEnd, block.size]
    decide
  · cases block.ends.symm.trans header.magic

theorem SampleBlocks.fits {m : Mem} (blocks : SampleBlocks m) : StridesFit sampleRegion m := by
  intro d header
  rcases blocks.visited header.visited with rfl | rfl | rfl
  · rw [blockEnd, blocks.first]
    decide
  · rw [blockEnd, blocks.second]
    decide
  · cases blocks.ends.symm.trans header.magic

theorem sample_bounded {stale : Word} :
    StridesBounded sampleRegion ⟨setupRoot sampleRegion zeroedHeap, []⟩ (.malloc stale 16) := by
  have first : (firstHeader sampleRegion).toNat = 0x20001C := rfl
  constructor
  · intro d header
    obtain rfl := path_from_unmarked sample_unmarked header.visited
    cases sample_unmarked.symm.trans header.magic
  · rintro _ _ ⟨⟩ d visited _ _ _
    obtain rfl := path_from_unmarked sample_unmarked visited
    rw [first]
    decide

theorem SampleBlock.bounded {h : HeapState} {live : List LiveRange} (block : SampleBlock h) :
    StridesBounded sampleRegion ⟨h, live⟩ (.malloc 0x1000 24) := by
  refine ⟨block.fits, ?_⟩
  rintro _ _ ⟨⟩ d visited _ _ _
  rcases block.visited visited with rfl | rfl <;> decide

theorem sampleRegion_harmless {s : Session} {size : BitVec 64} :
    StaleHarmless sampleRegion s (.malloc 0x1000 size) := by
  rintro _ _ ⟨⟩ _ _ _ x covered
  exact stale_spares (by decide) (by decide) covered

theorem live_ranges_separated_two_blocks :
    ∃ s, (heapSystem sampleRegion zeroedHeap).Reach (SafeCall sampleRegion) s ∧
      s.live = [(0x20055C, 24), (0x20008C, 16)] ∧ Separated sampleRegion s := by
  obtain ⟨h, h', served, block, again, blocks⟩ := sample_mallocs
  have first : (heapSystem sampleRegion zeroedHeap).Reach (SafeCall sampleRegion)
      ⟨h, [(0x20008C, 16)]⟩ :=
    .next (.start rfl) ⟨sample_bounded, sampleRegion_harmless⟩ (HeapStep.malloc served)
  have second : (heapSystem sampleRegion zeroedHeap).Reach (SafeCall sampleRegion)
      ⟨h', [(0x20055C, 24), (0x20008C, 16)]⟩ :=
    .next first ⟨block.bounded, sampleRegion_harmless⟩ (HeapStep.malloc again)
  exact ⟨_, second, rfl, live_ranges_separated second blocks.fits⟩

/-- No six bytes of the region read as the magic of a header. -/
def MagicFree (big : MultibootMmapEntry) (m : Mem) : Prop :=
  ∀ x : Word, big.addr.toNat ≤ x.toNat → x.toNat + 6 ≤ big.addr.toNat + big.len.toNat →
    checkMagic m (x - 12) = false

/-- The second block lands 24 bytes behind the first one, whose stride wrapped. -/
theorem sample_overlap :
    ∃ h₁ h₂, malloc sampleRegion 1 0x1000 153391662 (setupRoot sampleRegion zeroedHeap) =
      some (0x20008C, h₁) ∧ malloc sampleRegion 2 0x1000 153391662 h₁ = some (0x2000A4, h₂) := by
  have first : (malloc sampleRegion 1 0x1000 153391662 (setupRoot sampleRegion zeroedHeap)).map Prod.fst =
      some 0x20008C := by
    decide +kernel
  have second : ((malloc sampleRegion 1 0x1000 153391662 (setupRoot sampleRegion zeroedHeap)).bind
      fun r => malloc sampleRegion 2 0x1000 153391662 r.2).map Prod.fst = some 0x2000A4 := by
    decide +kernel
  obtain ⟨⟨p, h₁⟩, run₁, rfl⟩ := Option.map_eq_some_iff.mp first
  rw [run₁, Option.bind_some] at second
  obtain ⟨⟨q, h₂⟩, run₂, rfl⟩ := Option.map_eq_some_iff.mp second
  exact ⟨h₁, h₂, run₁, run₂⟩

theorem live_ranges_overlap :
    ¬∀ (big : MultibootMmapEntry) (h₀ : HeapState), MagicFree big h₀.mem →
      ∀ s, (heapSystem big h₀).Reach (StaleHarmless big) s → Separated big s := by
  intro claim
  obtain ⟨h₁, h₂, first, second⟩ := sample_overlap
  have run : (heapSystem sampleRegion zeroedHeap).Reach (StaleHarmless sampleRegion)
      ⟨h₂, [(0x2000A4, 153391662), (0x20008C, 153391662)]⟩ :=
    .next (.next (.start rfl) sampleRegion_harmless (HeapStep.malloc first)) sampleRegion_harmless
      (HeapStep.malloc second)
  have separated := (claim sampleRegion zeroedHeap (fun _ _ _ => rfl) _ run).ranges
  rw [List.pairwise_cons] at separated
  exact separated.1 _ List.mem_cons_self 0x2000A4 (by decide) (by decide)

end X86Os.Heap
