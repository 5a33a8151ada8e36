import X86Os.Heap.Payload
import X86Os.Libc.Memcpy

/-!
# laihost_realloc

The AML interpreter grows and shrinks its blocks with `laihost_realloc`, which
copies the whole old block whatever the new size is, and looks at no answer of
`malloc`. It frees with the kernel's `free`, which only takes back blocks that
were placed fresh.
-/

namespace X86Os.Heap

open Library.Memory Library.Owners Library.Runs Libc
set_option autoImplicit false

def laihostRealloc (big : MultibootMmapEntry) (fuel : Nat) (stale ptr : Word)
    (newSize oldSize : BitVec 64) (h : HeapState) : Option (Word × HeapState) := do
  let (n, h) ← malloc big fuel stale newSize h
  let m := memcpy h.mem n ptr (oldSize.setWidth 32)
  return (n, { h with mem := free m ptr })

/-- Where `free(NULL)` looks for a header. -/
def nullHeader : Word := 0 - 4 * sizeofAllocStruct

/-- The old block at `ptr`, with its header at `block`, has moved to `n`; `m₁` is the memory behind
`malloc` and `m₂` the one at the end. -/
structure Reallocated (s : Session) (block ptr : Word) (newSize oldSize : BitVec 64) (n : Word)
    (m₁ m₂ : Mem) : Prop where
  contents : ∀ k < min oldSize.toNat newSize.toNat,
    m₂ (n + BitVec.ofNat 32 k) = s.heap.mem (ptr + BitVec.ofNat 32 k)
  copied : ∀ x, Covers n (oldSize.setWidth 32).toNat x → Covers n newSize.toNat x
  frame : ∀ x, ¬Covers n newSize.toNat x → (ptr ≠ 0 → x ≠ block) → m₂ x = m₁ x
  others : ∀ r ∈ s.live, r.1 ≠ ptr → ∀ x, Covers r.1 r.2.toNat x → m₂ x = s.heap.mem x
  released : ptr ≠ 0 → allocated m₂ block = false

/-- The block moves, or there is no memory for it, null comes back and nothing is changed. -/
def ReallocOk (big : MultibootMmapEntry) (stale : Word) (s : Session) (block ptr : Word)
    (newSize oldSize : BitVec 64) : Prop :=
  ∃ fuel n h₁ result h₂, malloc big fuel stale newSize s.heap = some (n, h₁) ∧
    laihostRealloc big fuel stale ptr newSize oldSize s.heap = some (result, h₂) ∧
    if n = mallocFailed then result = 0 ∧ h₂.mem = s.heap.mem
    else result = n ∧ Reallocated s block ptr newSize oldSize n h₁.mem h₂.mem

/-- The link that a first call writes through its uninitialised `prev` hits no byte that
`free(NULL)` reads. -/
def NullSpared (big : MultibootMmapEntry) (stale : Word) (size : BitVec 64) (m : Mem) : Prop :=
  inRegion big (firstHeader big) = true → checkMagic m (firstHeader big) = false →
    hasRoom big (firstHeader big) size = true →
    ∀ k : Word, k.toNat < 18 → ¬Covers (stale + 24) 4 (nullHeader + k)

variable {big : MultibootMmapEntry} {m m' : Mem} {h h' h₀ h₁ : HeapState} {d e x n p ptr stale : Word}
variable {size newSize oldSize : BitVec 64} {live : List LiveRange} {r : LiveRange} {fuel : Nat}
variable {s : Session} {block : Word}

theorem laihostRealloc_eq (served : malloc big fuel stale newSize h = some (n, h₁)) :
    laihostRealloc big fuel stale ptr newSize oldSize h =
      some (n, { h₁ with mem := free (memcpy h₁.mem n ptr (oldSize.setWidth 32)) ptr }) := by
  rw [laihostRealloc, served]
  rfl

/-! ## When malloc has an answer -/

theorem reallocOk_iff : ReallocOk big stale s block ptr newSize oldSize ↔
    ∃ d n, (Answer big s.heap.mem newSize d n ∧ n ≠ mallocFailed) ∧
      ∃ fuel h₁, malloc big fuel stale newSize s.heap = some (n, h₁) ∧
        Reallocated s block ptr newSize oldSize n h₁.mem
          (free (memcpy h₁.mem n ptr (oldSize.setWidth 32)) ptr) := by
  constructor
  · rintro ⟨fuel, n, h₁, _, _, served, called, ok⟩
    rw [laihostRealloc_eq served] at called
    cases called
    split at ok
    next failed =>
      subst failed
      exact absurd ok.1 (by decide)
    next success =>
      obtain ⟨d, answer, _⟩ := answer_of_malloc served success
      exact ⟨d, n, ⟨answer, success⟩, fuel, h₁, served, ok.2⟩
  · rintro ⟨d, n, ⟨_, success⟩, fuel, h₁, served, ok⟩
    refine ⟨fuel, n, h₁, _, _, served, laihostRealloc_eq served, ?_⟩
    rw [if_neg success]
    exact ⟨rfl, ok⟩

/-! ## What malloc leaves alone -/

/-- A call changes no byte behind the header of a block. -/
theorem malloc_interior (bounded : StridesBounded big ⟨h, live⟩ (.malloc stale size))
    (result : MallocResult big stale size h p h') (header : Header big h.mem e)
    (low : e.toNat + 28 ≤ x.toNat) (high : x.toNat < blockEnd h.mem e) : h'.mem x = h.mem x := by
  have fits : StridesFit big h.mem := bounded.1
  cases result with
  | failed => rfl
  | @reused d claimed isFree =>
    refine store8_other ?_
    rintro rfl
    have away := header_ne_interior fits header claimed low high (k := 0) (by decide)
    exact away (add_zero x)
  | @fresh d prev visited region unmarked room before =>
    have bound := bounded.2 stale size rfl d visited region unmarked room
    have ends := header_before_unmarked fits visited unmarked header
    refine writeHeader_outside ?_ ?_
    · rw [covers_iff (by omega)]
      omega
    · rcases before with ⟨_, rfl⟩ | ⟨hq, _⟩
      · have first := firstHeader_le fits header.visited
        have ge := blockEnd_ge h.mem e
        omega
      · intro covered
        have place : (x - (prev + 24)).toNat < 4 := covered
        have index : (24 + (x - (prev + 24))).toNat < 28 := by
          rw [BitVec.toNat_add]
          bv_omega
        exact header_ne_interior fits header hq low high index (by ring)

/-- What is read at the null header is what was there before the call. -/
theorem malloc_spares_null (bounded : StridesBounded big ⟨h, live⟩ (.malloc stale size))
    (spared : NullSpared big stale size h.mem) (result : MallocResult big stale size h p h')
    {k : Word} (hk : k.toNat < 18) : h'.mem (nullHeader + k) = h.mem (nullHeader + k) := by
  have fits : StridesFit big h.mem := bounded.1
  have null : nullHeader.toNat = 2 ^ 32 - 112 := rfl
  have place : (nullHeader + k).toNat = 2 ^ 32 - 112 + k.toNat := by
    rw [offset_toNat (by omega), null]
  have below {e : Word} (header : Header big h.mem e) : e.toNat + 28 ≤ 2 ^ 32 - 112 := by
    have ends := fits e header
    have ge := blockEnd_ge h.mem e
    omega
  cases result with
  | failed => rfl
  | @reused d claimed isFree =>
    have low := below claimed
    refine store8_other ?_
    rintro rfl
    omega
  | @fresh d prev visited region unmarked room before =>
    have bound := bounded.2 stale size rfl d visited region unmarked room
    refine writeHeader_outside ?_ ?_
    · rw [covers_iff (by omega)]
      omega
    · rcases before with ⟨rfl, rfl⟩ | ⟨hq, _⟩
      · exact spared region unmarked room k hk
      · have low := below hq
        have link : (prev + 24).toNat = prev.toNat + 24 :=
          offset_toNat (by have h24 : (24 : Word).toNat = 24 := rfl; omega)
        rw [covers_iff (by omega)]
        omega

/-! ## Ranges and their blocks -/

structure Holds (m : Mem) (r : LiveRange) (d : Word) : Prop where
  fits : blockEnd m d < 2 ^ 32
  magic : checkMagic m d = true
  taken : allocated m d = true
  place : r.1 = d + 4 * sizeofAllocStruct ∨ r.1 = advance d sizeofAllocStruct
  large : r.2.toNat ≤ (blockSize m d).toNat

def Beside (m : Mem) (d e : Word) : Prop := blockEnd m d ≤ e.toNat ∨ blockEnd m e ≤ d.toNat

namespace Holds

variable (holds : Holds m r d)

include holds

theorem interior (covered : Covers r.1 r.2.toNat x) :
    d.toNat + 28 ≤ x.toNat ∧ x.toNat < blockEnd m d :=
  place_interior holds.fits holds.place holds.large covered

/-- The range of a block meets no header, its own or another one's. -/
theorem spares_header {k : Word} (fits : blockEnd m e < 2 ^ 32) (apart : d = e ∨ Beside m d e)
    (hk : k.toNat < 28) : ¬Covers r.1 r.2.toNat (e + k) := by
  intro covered
  obtain ⟨low, high⟩ := holds.interior covered
  have place := header_offset_toNat fits (show k.toNat < 784 by omega)
  have ge := blockEnd_ge m e
  rcases apart with rfl | before | behind <;> omega

theorem apart (other : Holds m (n, size) e) (beside : Beside m e d)
    (covered : Covers r.1 r.2.toNat x) : ¬Covers n size.toNat x := by
  intro again
  have first := holds.interior covered
  have second := other.interior again
  rcases beside with before | behind <;> omega

theorem ne_null : r.1 ≠ 0 := by
  intro null
  have behind := place_toNat holds.fits holds.place
  have zero : r.1.toNat = 0 := by rw [null]; rfl
  omega

/-- The size of a block is counted in 32 bits, so the `int` of `memcpy` keeps it. -/
theorem narrow : (r.2.setWidth 32).toNat = r.2.toNat := by
  have large := holds.large
  have inside := holds.fits
  rw [blockEnd] at inside
  rw [BitVec.toNat_setWidth]
  exact Nat.mod_eq_of_lt (by omega)

end Holds

structure Grown (big : MultibootMmapEntry) (s : Session) (m₁ : Mem) (n : Word) (size : BitVec 64)
    (d : Word) : Prop where
  holds : Holds m₁ (n, size) d
  rest : ∀ r ∈ s.live, ∃ e, Owns big s.heap.mem r e ∧ Holds m₁ r e ∧ Beside m₁ d e
  ends : ∀ e, Header big s.heap.mem e → blockEnd m₁ e = blockEnd s.heap.mem e
  kept : ∀ r ∈ s.live, ∀ x, Covers r.1 r.2.toNat x → m₁ x = s.heap.mem x

/-- A block that keeps its header holds what it held. -/
theorem Owns.holds (fits : StridesFit big m) (owns : Owns big m r e)
    (kept : checkMagic m' e = true ∧ blockSize m' e = blockSize m e)
    (flag : allocated m' e = allocated m e) : Holds m' r e where
  fits := by
    rw [blockEnd, kept.2]
    exact fits e owns.header
  magic := kept.1
  taken := flag.trans owns.taken
  place := owns.place
  large := kept.2 ▸ owns.large

theorem reused_grown (fits : StridesFit big h.mem) (owned : EachOwned (Owns big h.mem) live)
    (header : Header big h.mem d) (isFree : allocated h.mem d = false)
    (large : size ≤ (blockSize h.mem d).signExtend 64)
    (kept : ∀ r ∈ live, ∀ x, Covers r.1 r.2.toNat x → store8 h.mem d 1 x = h.mem x) :
    Grown big ⟨h, live⟩ (store8 h.mem d 1) (advance d sizeofAllocStruct) size d := by
  have same := flag_kept (b := 1) fits header
  refine ⟨?_, fun r hr => ?_, fun e he => by rw [blockEnd, blockEnd, (same e he).2], kept⟩
  · refine ⟨?_, (same d header).1, ?_, .inr rfl, ?_⟩
    · rw [blockEnd, (same d header).2]
      exact fits d header
    · rw [allocated, store8_same]
      rfl
    · rw [(same d header).2]
      exact size_le_of_signExtend (fits d header) large
  · obtain ⟨e, owns⟩ := owned.exists_owner hr
    have other : e ≠ d := by
      rintro rfl
      exact absurd (owns.taken.symm.trans isFree) (by decide)
    refine ⟨e, owns, owns.holds fits (same e owns.header) (congrArg (· != 0) (store8_other other)), ?_⟩
    rw [Beside, blockEnd, blockEnd, (same d header).2, (same e owns.header).2]
    rcases visited_order fits header.visited owns.header.visited with eq | ⟨_, le⟩ | ⟨_, le⟩
    · exact absurd eq.symm other
    · exact .inl le
    · exact .inr le

theorem fresh_grown {prev : Word} (fits : StridesFit big h.mem)
    (owned : EachOwned (Owns big h.mem) live) (visited : Visited big h.mem d)
    (unmarked : checkMagic h.mem d = false) (before : Precedes big h.mem stale prev d)
    (harmless : d = firstHeader big → ∀ x, Covers (stale + 24) 4 x → ¬HeapByte big x)
    (bound : d.toNat + 28 * (size.toNat + 28) < 2 ^ 32)
    (kept : ∀ r ∈ live, ∀ x, Covers r.1 r.2.toNat x →
      (writeHeader h d prev size).mem x = h.mem x) :
    Grown big ⟨h, live⟩ (writeHeader h d prev size).mem (d + 4 * sizeofAllocStruct) size d := by
  have sizeNat : (blockSize (writeHeader h d prev size).mem d).toNat = size.toNat := by
    rw [writeHeader_size, BitVec.toNat_setWidth]
    exact Nat.mod_eq_of_lt (by omega)
  have same := fresh_kept size fits visited unmarked before (by omega)
  refine ⟨⟨?_, writeHeader_magic, writeHeader_allocated ?_, .inl rfl, sizeNat.ge⟩, fun r hr => ?_,
    fun e he => by rw [blockEnd, blockEnd, (same e he).2], kept⟩
  · rw [blockEnd, sizeNat]
    exact bound
  · apply link_spares_flag fits before
    intro first covered
    exact harmless first d covered (.inr (by simp [← first, Covers]))
  · obtain ⟨e, owns⟩ := owned.exists_owner hr
    have flag := fresh_spares_flag size fits visited unmarked before (by omega) owns.header
    refine ⟨e, owns, owns.holds fits (same e owns.header) flag, .inr ?_⟩
    rw [blockEnd, (same e owns.header).2]
    exact header_before_unmarked fits visited unmarked owns.header

theorem malloc_grown (guard : SafeCall big s (.malloc stale newSize))
    (owned : EachOwned (Owns big s.heap.mem) s.live)
    (served : malloc big fuel stale newSize s.heap = some (n, h₁)) (success : n ≠ mallocFailed) :
    ∃ d, Grown big s h₁.mem n newSize d := by
  have result := malloc_result served
  have kept : ∀ r ∈ s.live, ∀ x, Covers r.1 r.2.toNat x → h₁.mem x = s.heap.mem x := by
    intro r hr x covered
    obtain ⟨e, old⟩ := owned.exists_owner hr
    obtain ⟨low, high⟩ := old.interior guard.bounded.1 covered
    exact malloc_interior guard.bounded result old.header low high
  cases result with
  | failed => exact absurd rfl success
  | @reused d header isFree large =>
    exact ⟨d, reused_grown guard.bounded.1 owned header isFree large kept⟩
  | @fresh d prev visited region unmarked room before =>
    refine ⟨d, fresh_grown guard.bounded.1 owned visited unmarked before ?_
      (guard.bounded.2 stale newSize rfl d visited region unmarked room) kept⟩
    rintro rfl
    exact guard.stale stale newSize rfl region unmarked room

/-! ## The copy and the release -/

theorem Reallocated.small (ok : Reallocated s block ptr newSize oldSize n m m')
    (num : (oldSize.setWidth 32).toNat = oldSize.toNat) : oldSize.toNat ≤ newSize.toNat := by
  by_contra shrinks
  have stray := ok.copied (n + BitVec.ofNat 32 newSize.toNat)
    (by rw [covers_add, num, BitVec.toNat_ofNat]; omega)
  rw [covers_add, BitVec.toNat_ofNat] at stray
  omega

namespace Grown

theorem old_block {o : Origin} (fits : StridesFit big s.heap.mem)
    (grown : Grown big s m n newSize d) (hr : (ptr, oldSize) ∈ s.live)
    (known : Known big s.heap.mem ptr o) :
    Owns big s.heap.mem (ptr, oldSize) o.block ∧ Holds m (ptr, oldSize) o.block ∧
      Beside m d o.block := by
  obtain ⟨e, old, holds, beside⟩ := grown.rest _ hr
  have place := known.place
  obtain rfl : e = o.block := by
    refine place_unique fits old.header known.header old.place ?_
    split at place
    next => exact .inl place
    next => exact .inr place
  exact ⟨old, holds, beside⟩

theorem ordered (fits : StridesFit big s.heap.mem) (grown : Grown big s m n newSize d) {a b : Word}
    (ha : Header big s.heap.mem a) (hb : Header big s.heap.mem b) : a = b ∨ Beside m a b := by
  rw [Beside, grown.ends a ha, grown.ends b hb]
  exact (visited_order fits ha.visited hb.visited).imp_right (Or.imp And.right And.right)

/-- The copy leaves the header of every live block alone. -/
theorem copied_header (ptr : Word) {num k : Word} (grown : Grown big s m n newSize d)
    (small : num.toNat ≤ newSize.toNat) (fits : blockEnd m e < 2 ^ 32) (beside : Beside m d e)
    (hk : k.toNat < 28) : memcpy m n ptr num (e + k) = m (e + k) :=
  memcpy_outside fun covered =>
    grown.holds.spares_header fits (.inr beside) hk (Nat.lt_of_lt_of_le covered small)

theorem copied_flag (ptr : Word) {num : Word} (grown : Grown big s m n newSize d)
    (small : num.toNat ≤ newSize.toNat) (fits : blockEnd m e < 2 ^ 32) (beside : Beside m d e) :
    allocated (memcpy m n ptr num) e = allocated m e := by
  have flag : memcpy m n ptr num (e + 0) = m (e + 0) :=
    grown.copied_header ptr small fits beside (by decide)
  rw [add_zero] at flag
  rw [allocated, flag, allocated]

theorem copied_magic (ptr : Word) {num : Word} (grown : Grown big s m n newSize d)
    (small : num.toNat ≤ newSize.toNat) (fits : blockEnd m e < 2 ^ 32) (beside : Beside m d e) :
    checkMagic (memcpy m n ptr num) e = checkMagic m e :=
  checkMagic_congr fun _ _ high => grown.copied_header ptr small fits beside (by omega)

theorem fresh_of_moved {o : Origin} (grown : Grown big s m n newSize d)
    (place : ptr = if o.fresh then o.block + 4 * sizeofAllocStruct else advance o.block sizeofAllocStruct)
    (old : Holds m (ptr, oldSize) o.block) (beside : Beside m d o.block)
    (small : (oldSize.setWidth 32).toNat ≤ newSize.toNat)
    (ok : Reallocated s o.block ptr newSize oldSize n m (free (memcpy m n ptr (oldSize.setWidth 32)) ptr)) :
    o.fresh = true := by
  by_contra reused
  rw [if_neg reused] at place
  have taken := (grown.copied_flag ptr small old.fits beside).trans old.taken
  have away : o.block ≠ ptr - 4 * sizeofAllocStruct := by
    rw [place, free_reused]
    intro same
    have none : (0 : Word) = 672 := add_left_cancel ((add_zero _).trans same)
    exact absurd none (by decide)
  have released := ok.released old.ne_null
  obtain same | cleared := free_cases (memcpy m n ptr (oldSize.setWidth 32)) ptr
  · rw [same, taken] at released
    cases released
  · rw [cleared, allocated, store8_other away] at released
    exact absurd (released.symm.trans taken) (by decide)

theorem moved_of_fresh (fits : StridesFit big s.heap.mem) (grown : Grown big s m n newSize d)
    (hr : (ptr, oldSize) ∈ s.live) (owns : Owns big s.heap.mem (ptr, oldSize) block)
    (old : Holds m (ptr, oldSize) block) (beside : Beside m d block)
    (small : oldSize.toNat ≤ newSize.toNat) (place : ptr = block + 4 * sizeofAllocStruct) :
    Reallocated s block ptr newSize oldSize n m (free (memcpy m n ptr (oldSize.setWidth 32)) ptr) := by
  have num : (oldSize.setWidth 32).toNat = oldSize.toNat := old.narrow
  have narrow : (oldSize.setWidth 32).toNat ≤ newSize.toNat := num.trans_le small
  have magic := (grown.copied_magic ptr narrow old.fits beside).trans old.magic
  have taken := (grown.copied_flag ptr narrow old.fits beside).trans old.taken
  have freed : free (memcpy m n ptr (oldSize.setWidth 32)) ptr =
      store8 (memcpy m n ptr (oldSize.setWidth 32)) block 0 := by
    have released := free_block magic taken
    rwa [← place] at released
  have notBlock {r : LiveRange} {e x : Word} (holds : Holds m r e) (apart : e = block ∨ Beside m e block)
      (covered : Covers r.1 r.2.toNat x) : x ≠ block := by
    rintro rfl
    have spared := holds.spares_header old.fits apart (k := 0) (by decide)
    rw [add_zero] at spared
    exact spared covered
  rw [freed]
  constructor
  case contents =>
    intro k hk
    have hk : k < oldSize.toNat := Nat.lt_of_lt_of_le hk (Nat.min_le_left ..)
    have index : (BitVec.ofNat 32 k).toNat = k := by
      rw [BitVec.toNat_ofNat]
      exact Nat.mod_eq_of_lt (by omega)
    have source : Covers ptr oldSize.toNat (ptr + BitVec.ofNat 32 k) := by
      rw [covers_add, index]
      exact hk
    have target : Covers n newSize.toNat (n + BitVec.ofNat 32 k) := by
      rw [covers_add, index]
      omega
    rw [store8_other (notBlock grown.holds (.inr beside) target), memcpy, num,
      copyBytes_inside (by omega) hk, grown.kept _ hr _ source]
    intro early
    have within : k ≤ newSize.toNat := by omega
    exact old.apart grown.holds beside source (Nat.lt_of_lt_of_le early within)
  case copied =>
    intro x covered
    exact Nat.lt_of_lt_of_le covered narrow
  case frame =>
    intro x outside elsewhere
    rw [store8_other (elsewhere old.ne_null), memcpy_outside]
    exact fun covered => outside (Nat.lt_of_lt_of_le covered narrow)
  case others =>
    intro r mem _ x covered
    obtain ⟨e, owner, holds, apart⟩ := grown.rest r mem
    have order := grown.ordered fits owner.header owns.header
    rw [store8_other (notBlock holds order covered), memcpy_outside, grown.kept r mem x covered]
    intro again
    exact holds.apart grown.holds apart covered (Nat.lt_of_lt_of_le again narrow)
  case released =>
    intro _
    rw [allocated, store8_same]
    rfl

/-- The copy is right if the old block fits, the release if it was placed fresh. -/
theorem moved_iff {o : Origin} (fits : StridesFit big s.heap.mem) (grown : Grown big s m n newSize d)
    (hr : (ptr, oldSize) ∈ s.live) (known : Known big s.heap.mem ptr o) :
    Reallocated s o.block ptr newSize oldSize n m (free (memcpy m n ptr (oldSize.setWidth 32)) ptr) ↔
      oldSize.toNat ≤ newSize.toNat ∧ o.fresh = true := by
  obtain ⟨owns, old, beside⟩ := grown.old_block fits hr known
  have num : (oldSize.setWidth 32).toNat = oldSize.toNat := old.narrow
  constructor
  · intro ok
    have small := ok.small num
    exact ⟨small, grown.fresh_of_moved known.place old beside (num.trans_le small) ok⟩
  · rintro ⟨small, fresh⟩
    have place := known.place
    rw [if_pos fresh] at place
    exact grown.moved_of_fresh fits hr owns old beside small place

/-- Without an old block nothing is copied, and `free(NULL)` must not find a header. -/
theorem null_iff (grown : Grown big s m n newSize d) :
    Reallocated s block 0 newSize 0 n m (free (memcpy m n 0 ((0 : BitVec 64).setWidth 32)) 0) ↔
      (checkMagic m nullHeader = true → allocated m nullHeader = true →
        Covers n newSize.toNat nullHeader) := by
  have uncopied : memcpy m n 0 ((0 : BitVec 64).setWidth 32) = m := rfl
  have freed : free m 0 = if checkMagic m nullHeader then
      if allocated m nullHeader then store8 m nullHeader 0 else m else m := rfl
  rw [uncopied, freed]
  constructor
  · intro ok magic taken
    by_contra outside
    have same := ok.frame nullHeader outside (absurd rfl)
    rw [if_pos magic, if_pos taken, store8_same] at same
    rw [allocated, ← same] at taken
    cases taken
  · intro spared
    have unchanged (x : Word) (outside : ¬Covers n newSize.toNat x) :
        (if checkMagic m nullHeader then
          if allocated m nullHeader then store8 m nullHeader 0 else m else m) x = m x := by
      split
      next magic =>
        split
        next taken =>
          refine store8_other ?_
          rintro rfl
          exact outside (spared magic taken)
        next => rfl
      next => rfl
    constructor
    case contents =>
      intro k hk
      exact absurd hk (by simp)
    case copied =>
      intro x covered
      exact absurd covered (Nat.not_lt_zero _)
    case frame => exact fun x outside _ => unchanged x outside
    case others =>
      intro r mem _ x covered
      obtain ⟨e, _, holds, apart⟩ := grown.rest r mem
      rw [unchanged x (holds.apart grown.holds apart covered), grown.kept r mem x covered]
    case released => exact fun some => absurd rfl some

end Grown

theorem null_kept (bounded : StridesBounded big ⟨h, live⟩ (.malloc stale size))
    (spared : NullSpared big stale size h.mem) (result : MallocResult big stale size h p h') :
    checkMagic h'.mem nullHeader = checkMagic h.mem nullHeader ∧
      allocated h'.mem nullHeader = allocated h.mem nullHeader := by
  have byte (k : Word) (hk : k.toNat < 18) := malloc_spares_null bounded spared result hk
  refine ⟨checkMagic_congr fun k _ high => byte k high, ?_⟩
  have flag := byte 0 (by decide)
  rw [add_zero] at flag
  rw [allocated, flag, allocated]

/-- In a run of safe calls a block is moved as it should be if and only if the request has an
answer, the block does not shrink and was placed fresh, and `free(NULL)` finds no header. -/
theorem realloc_ok_iff {s : Session × (Word → Origin)}
    (run : (originSystem big h₀).Reach (fun s call => SafeCall big s.1 call) s)
    (guard : SafeCall big s.1 (.malloc stale newSize))
    (spared : ptr = 0 → NullSpared big stale newSize s.1.heap.mem)
    (old : (ptr, oldSize) ∈ s.1.live ∨ ptr = 0 ∧ oldSize = 0) :
    ReallocOk big stale s.1 (s.2 ptr).block ptr newSize oldSize ↔
      ∃ d n, (Answer big s.1.heap.mem newSize d n ∧ n ≠ mallocFailed) ∧
        (ptr ≠ 0 → oldSize.toNat ≤ newSize.toNat ∧ (s.2 ptr).fresh = true) ∧
        (ptr = 0 → checkMagic s.1.heap.mem nullHeader = true →
          allocated s.1.heap.mem nullHeader = true → Covers n newSize.toNat nullHeader) := by
  obtain ⟨owned, known⟩ := reach_recorded run
  have fits : StridesFit big s.1.heap.mem := guard.bounded.1
  have moved {n : Word} {fuel : Nat} {h₁ : HeapState} (success : n ≠ mallocFailed)
      (served : malloc big fuel stale newSize s.1.heap = some (n, h₁)) :
      Reallocated s.1 (s.2 ptr).block ptr newSize oldSize n h₁.mem
          (free (memcpy h₁.mem n ptr (oldSize.setWidth 32)) ptr) ↔
        (ptr ≠ 0 → oldSize.toNat ≤ newSize.toNat ∧ (s.2 ptr).fresh = true) ∧
        (ptr = 0 → checkMagic s.1.heap.mem nullHeader = true →
          allocated s.1.heap.mem nullHeader = true → Covers n newSize.toNat nullHeader) := by
    obtain ⟨d, grown⟩ := malloc_grown guard owned served success
    obtain hr | ⟨rfl, rfl⟩ := old
    · rw [grown.moved_iff fits hr (known _ hr)]
      obtain ⟨e, owner, _⟩ := grown.rest _ hr
      have notNull : ptr ≠ 0 := (owner.holds fits ⟨owner.header.magic, rfl⟩ rfl).ne_null
      exact ⟨fun ok => ⟨fun _ => ok, fun null => absurd null notNull⟩, fun both => both.1 notNull⟩
    · obtain ⟨magic, flag⟩ := null_kept guard.bounded (spared rfl) (malloc_result served)
      rw [grown.null_iff, magic, flag]
      exact ⟨fun free => ⟨absurd rfl, fun _ => free⟩, fun both => both.2 rfl⟩
  rw [reallocOk_iff]
  constructor
  · rintro ⟨d, n, ⟨answer, success⟩, fuel, h₁, served, ok⟩
    exact ⟨d, n, ⟨answer, success⟩, (moved success served).mp ok⟩
  · rintro ⟨d, n, ⟨answer, success⟩, condition⟩
    obtain ⟨fuel, h₁, served, _⟩ := malloc_of_answer answer stale
    exact ⟨d, n, ⟨answer, success⟩, fuel, h₁, served, (moved success served).mpr condition⟩

theorem sample_answer {h : HeapState} (block : SampleBlock h) :
    Answer sampleRegion h.mem 24 0x2004EC 0x20055C := by
  exact .fresh ⟨_, block.blocks.walked, block.tight⟩ (by decide) block.ends (by decide)

/-- Sixteen bytes become twenty-four: they are copied, and the old block is free again. -/
theorem realloc_ok_grows : ∃ s : Session × (Word → Origin), (originSystem sampleRegion zeroedHeap).Reach
      (fun s call => SafeCall sampleRegion s.1 call) s ∧ s.1.live = [(0x20008C, 16)] ∧
    ReallocOk sampleRegion 0x1000 s.1 0x20001C 0x20008C 24 16 := by
  obtain ⟨s, run, live, block, origin⟩ := sample_reach
  have guard : SafeCall sampleRegion s.1 (.malloc 0x1000 24) := ⟨block.bounded, sampleRegion_harmless⟩
  have some : (0x20008C : Word) ≠ 0 := by decide
  have moved : ReallocOk sampleRegion 0x1000 s.1 (s.2 0x20008C).block 0x20008C 24 16 :=
    (realloc_ok_iff run guard (absurd · some) (.inl (live ▸ List.mem_cons_self))).mpr
      ⟨_, _, ⟨sample_answer block, by decide⟩, fun _ => ⟨by decide, congrArg Origin.fresh origin⟩,
        (absurd · some)⟩
  rw [origin] at moved
  exact ⟨s, run, live, moved⟩

/-- Sixteen bytes become eight, and the copy still moves sixteen. -/
theorem realloc_overruns : ∃ s : Session × (Word → Origin), (originSystem sampleRegion zeroedHeap).Reach
      (fun s call => SafeCall sampleRegion s.1 call) s ∧ s.1.live = [(0x20008C, 16)] ∧
    ∀ stale, ¬ReallocOk sampleRegion stale s.1 (s.2 0x20008C).block 0x20008C 8 16 := by
  obtain ⟨s, run, live, _⟩ := sample_reach
  refine ⟨s, run, live, ?_⟩
  intro stale ok
  obtain ⟨_, n, _, _, _, _, moved⟩ := reallocOk_iff.mp ok
  have copied := moved.copied (n + 8)
  rw [covers_add, covers_add] at copied
  exact absurd (copied (by decide)) (by decide)

end X86Os.Heap
