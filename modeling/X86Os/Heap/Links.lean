import X86Os.Heap.Release
import X86Os.Library.PointerList

/-!
# The links between the blocks

`malloc` links a new block behind the header that its walk met last. The walk that
places the first block has met none: its `prev` is uninitialised, and `root` is
linked to no block. The `next` of a new block is whatever memory held there.
-/

namespace X86Os.Heap

open Library.Memory Library.Runs Library.PointerList Relation
set_option autoImplicit false

def rootHeader (big : MultibootMmapEntry) : Word := big.addr.setWidth 32

def prevOf (m : Mem) (d : Word) : Word := load32 m (d + 20)

def nextOf (m : Mem) (d : Word) : Word := load32 m (d + 24)

/-- Following `next` from `root` visits the blocks `l` by increasing address, and then ends or
returns to `root`. On the way `prev` undoes `next`. -/
structure BlockChain (big : MultibootMmapEntry) (m : Mem) (l : List Word) : Prop where
  order : l.Pairwise fun a b => a.toNat < b.toNat
  next : ∃ stop, Segment (nextOf m) (rootHeader big) (rootHeader big :: l) stop ∧
    (stop = rootHeader big ∨ stop = 0 ∧ 0 ∉ l)
  prev : ∀ a ∈ rootHeader big :: l, ∀ b ∈ rootHeader big :: l, b ≠ 0 → nextOf m a = b → prevOf m b = a

/-- A session with the blocks that `malloc` has created, in this order. -/
structure BlockSession extends Session where
  created : List Word

/-- `stale` is what the uninitialised `prev` of the call holds. -/
inductive BlockCall
  | malloc (stale : Word) (size : BitVec 64)
  | free (p : Word)

def BlockCall.heapCall : BlockCall → HeapCall
  | malloc stale size => .malloc stale size
  | free p => .free p

def createdBy (h h' : HeapState) (p : Word) : List Word :=
  if (originOf h h' p).fresh then [(originOf h h' p).block] else []

inductive BlockStep (big : MultibootMmapEntry) : BlockSession → BlockCall → BlockSession → Prop
  | malloc {h h' : HeapState} {live : List LiveRange} {created : List Word} {size : BitVec 64}
      {fuel : Nat} {stale p : Word} (run : malloc big fuel stale size h = some (p, h')) :
      BlockStep big ⟨⟨h, live⟩, created⟩ (.malloc stale size)
        ⟨⟨h', if p = mallocFailed then live else (p, size) :: live⟩, created ++ createdBy h h' p⟩
  | free {h : HeapState} {l₁ l₂ : List LiveRange} {created : List Word} {p : Word}
      {size : BitVec 64} :
      BlockStep big ⟨⟨h, l₁ ++ (p, size) :: l₂⟩, created⟩ (.free p)
        ⟨⟨{ h with mem := free h.mem p }, l₁ ++ l₂⟩, created⟩

/-- Runs of `malloc` and `free` from `pmm_setup` on, whatever memory and `prev` held before. -/
def blockSystem (big : MultibootMmapEntry) (h₀ : HeapState) : System BlockSession BlockCall where
  init s := s = ⟨⟨setupRoot big h₀, []⟩, []⟩
  step := BlockStep big

/-- The chain from `root` has every block that was created, and each one once. -/
def LinksBlocks (big : MultibootMmapEntry) (s : BlockSession) : Prop :=
  ∃ l, l.Perm s.created ∧ BlockChain big s.heap.mem l

structure Places (big : MultibootMmapEntry) (m : Mem) (size : BitVec 64) (l : List Word) (d : Word) :
    Prop where
  walked : Walked big m (firstHeader big) l d
  tight : ∀ b ∈ l, suits m size b = false
  region : inRegion big d = true
  unmarked : checkMagic m d = false
  room : hasRoom big d size = true

/-- The condition on a step: a new block comes behind the created ones, the uninitialised `prev`
of the first one is `root` by chance, and the `next` of each is a leftover null. -/
structure Linkable (big : MultibootMmapEntry) (s : BlockSession) (call : BlockCall) : Prop where
  bounded : StridesBounded big s.toSession call.heapCall
  linked : ∀ stale size, call = .malloc stale size → ∀ l d, Places big s.heap.mem size l d →
    l = s.created ∧ (l = [] → stale = rootHeader big) ∧ d ≠ 0 ∧ nextOf s.heap.mem d = 0

/-- The uninitialised `prev` leaves the `next` of `root` alone. -/
structure Misses (big : MultibootMmapEntry) (s : BlockSession) (call : BlockCall) : Prop where
  bounded : StridesBounded big s.toSession call.heapCall
  misses : ∀ stale size, call = .malloc stale size → ∀ k : Word, k.toNat < 4 →
    ¬Covers (stale + 24) 4 (rootHeader big + (24 + k))

variable {big : MultibootMmapEntry} {m m' : Mem} {h h' h₀ : HeapState} {a b d e q x p stale : Word}
variable {l created : List Word} {size : BitVec 64} {live : List LiveRange} {fuel n : Nat}
variable {s t : BlockSession} {call : BlockCall} {r : LiveRange} {j k : Word}

/-! ## Headers apart -/

def Apart (a b : Word) : Prop := ∀ j : Word, j.toNat < 28 → ¬Covers b 28 (a + j)

theorem Apart.symm (apart : Apart a b) : Apart b a := by
  intro j hj covered
  apply apart (b + j - a) covered
  rw [show a + (b + j - a) = b + j by ring, covers_add]
  exact hj

theorem Apart.part (apart : Apart a b) (hj : j.toNat < 28) (hk : k.toNat + n ≤ 28) :
    ¬Covers (b + k) n (a + j) := fun covered => apart j hj (covered.whole hk)

theorem firstHeader_eq : firstHeader big = rootHeader big + 28 := by
  rw [firstHeader, rootHeader, BitVec.setWidth_add _ _ (by decide)]
  rfl

theorem root_ne (first : (firstHeader big).toNat ≤ d.toNat) (room : d.toNat + 784 < 2 ^ 32)
    (hj : j.toNat ≤ 672) (hk : k.toNat < 28) : rootHeader big + k ≠ d + j := by
  intro same
  have sums := congrArg BitVec.toNat same
  have h28 : (28 : Word).toNat = 28 := rfl
  have root := (rootHeader big).isLt
  rw [firstHeader_eq, BitVec.toNat_add] at first
  rw [BitVec.toNat_add, BitVec.toNat_add] at sums
  omega

theorem root_apart (first : (firstHeader big).toNat ≤ d.toNat) (room : d.toNat + 784 < 2 ^ 32) :
    Apart (rootHeader big) d := by
  intro k hk covered
  have inside : (rootHeader big + k - d).toNat < 28 := covered
  exact root_ne first room (j := rootHeader big + k - d) (by omega) hk (by ring)

theorem header_apart (fits : StridesFit big m) (ha : Header big m a) (hb : Header big m b)
    (ne : a ≠ b) : Apart a b := by
  intro j hj covered
  have small := fits b hb
  have ge := blockEnd_ge m b
  rw [covers_iff (by omega)] at covered
  have inA := header_offset_mem fits ha (show j.toNat < 784 by omega)
  exact ne (block_unique fits ha hb inA ⟨covered.1, by omega⟩)

theorem unmarked_apart (fits : StridesFit big m) (visited : Visited big m d)
    (unmarked : checkMagic m d = false) (room : d.toNat + 28 ≤ 2 ^ 32) (header : Header big m a) :
    Apart a d := by
  intro j hj covered
  have ends := header_before_unmarked fits visited unmarked header
  have inside := header_offset_mem fits header (show j.toNat < 784 by omega)
  rw [covers_iff room] at covered
  omega

/-! ## The words of a link -/

structure SameLinks (m m' : Mem) (a : Word) : Prop where
  next : nextOf m' a = nextOf m a
  prev : prevOf m' a = prevOf m a

theorem load32_kept
    (same : ∀ k : Word, k.toNat < 4 → m' (a + (j + k)) = m (a + (j + k))) :
    load32 m' (a + j) = load32 m (a + j) := by
  apply load32_congr
  intro k hk
  rw [add_assoc]
  exact same k hk

theorem store8_sameLinks {v : Byte} (other : ∀ j : Word, 20 ≤ j.toNat → j.toNat < 28 → a + j ≠ x) :
    SameLinks m (store8 m x v) a := by
  constructor
  · refine load32_kept fun k hk => store8_other (other _ ?_ ?_) <;> bv_omega
  · refine load32_kept fun k hk => store8_other (other _ ?_ ?_) <;> bv_omega

/-- A store to a part of a header leaves the others of this header alone. -/
theorem own_away (low : k.toNat + n ≤ 28) (away : j.toNat < k.toNat ∨ k.toNat + n ≤ j.toNat) :
    ¬Covers (d + k) n (d + j) := by
  rw [covers_add_add, covers_iff (by omega)]
  omega

/-- A store in front of a word of the same header leaves the word alone. -/
theorem own_behind {i : Word} (ends : i.toNat + n ≤ j.toNat) (inside : j.toNat + 4 ≤ 28)
    (hk : k.toNat < 4) : ¬Covers (d + i) n (d + (j + k)) := by
  have byte : (j + k).toNat = j.toNat + k.toNat := offset_toNat (by omega)
  exact own_away (by omega) (.inr (by omega))

theorem load32_above {i v : Word} (ends : i.toNat + 4 ≤ j.toNat) (inside : j.toNat + 4 ≤ 28) :
    load32 (store32 m (a + i) v) (a + j) = load32 m (a + j) :=
  load32_kept fun _ hk => store32_outside (own_behind ends inside hk)

theorem fresh_prev (apart : Apart a d) (link : a = q ∨ Apart a q) :
    prevOf (writeHeader h d q size).mem a = prevOf h.mem a := by
  apply load32_kept
  intro k hk
  apply writeHeader_outside
  · exact apart _ (by bv_omega)
  · obtain rfl | away := link
    · exact own_away (by decide) (.inl (by bv_omega))
    · exact away.part (by bv_omega) (by decide)

theorem fresh_next (apart : Apart a d)
    (link : ∀ k : Word, k.toNat < 4 → ¬Covers (q + 24) 4 (a + (24 + k))) :
    nextOf (writeHeader h d q size).mem a = nextOf h.mem a :=
  load32_kept fun k hk => writeHeader_outside (apart _ (by bv_omega)) (link k hk)

theorem fresh_link (apart : Apart q d) : nextOf (writeHeader h d q size).mem q = d := by
  simp only [nextOf, writeHeader, setSignature]
  refine (load32_kept fun k hk => ?_).trans
    (load32_store32 (store32 (store8 h.mem d 1) (d + 20) q) (q + 24) d)
  have byte : (24 + k).toNat < 28 := by bv_omega
  rw [store32_outside (apart.part byte (by decide)), store32_outside (apart.part byte (by decide)),
    storeBytes_outside (apart.part byte (by decide))]

theorem fresh_prev_new (apart : Apart q d) : prevOf (writeHeader h d q size).mem d = q := by
  simp only [prevOf, writeHeader, setSignature]
  rw [load32_above (by decide) (by decide), load32_above (by decide) (by decide)]
  refine (load32_kept fun k hk => ?_).trans (load32_store32 (store8 h.mem d 1) (d + 20) q)
  have magic : ¬Covers (d + 12) magicBytes.length (d + (20 + k)) := own_behind (by decide) (by decide) hk
  rw [storeBytes_outside magic, store32_outside (apart.symm.part (by bv_omega) (by decide))]

theorem fresh_next_new (apart : Apart q d) :
    nextOf (writeHeader h d q size).mem d = nextOf h.mem d := by
  simp only [nextOf, writeHeader, setSignature]
  rw [load32_above (by decide) (by decide), load32_above (by decide) (by decide)]
  apply load32_kept
  intro k hk
  have magic : ¬Covers (d + 12) magicBytes.length (d + (24 + k)) := own_behind (by decide) (by decide) hk
  have link : ¬Covers (d + 20) 4 (d + (24 + k)) := own_behind (by decide) (by decide) hk
  have flag : d + (24 + k) ≠ d := by
    intro same
    have zero : 24 + k = 0 := add_eq_left.mp same
    bv_omega
  rw [storeBytes_outside magic, store32_outside (apart.symm.part (by bv_omega) (by decide)),
    store32_outside link, store8_other flag]

/-! ## The chain -/

namespace BlockChain

theorem congr (chain : BlockChain big m l) (same : ∀ a ∈ rootHeader big :: l, SameLinks m m' a) :
    BlockChain big m' l := by
  obtain ⟨stop, segment, ends⟩ := chain.next
  refine ⟨chain.order, ⟨stop, (segment_congr fun a ha => (same a ha).next).mpr segment, ends⟩, ?_⟩
  intro a ha b hb nonzero next
  rw [(same a ha).next] at next
  rw [(same b hb).prev]
  exact chain.prev a ha b hb nonzero next

theorem empty (next : nextOf m (rootHeader big) = rootHeader big)
    (prev : prevOf m (rootHeader big) = rootHeader big) : BlockChain big m [] := by
  refine ⟨.nil, ⟨rootHeader big, ⟨rfl, next⟩, .inl rfl⟩, ?_⟩
  intro a ha b hb _ _
  rw [List.mem_singleton.mp ha, List.mem_singleton.mp hb]
  exact prev

theorem last_split (d : Word) (l : List Word) : ∃ front, d :: l = front ++ [l.getLastD d] := by
  obtain rfl | ⟨front, b, rfl⟩ := l.eq_nil_or_concat
  · exact ⟨[], rfl⟩
  · exact ⟨d :: front, by simp⟩

/-- A block behind the last one of the chain, with a null in its own link. -/
theorem snoc (chain : BlockChain big m l) (nodup : (rootHeader big :: l).Nodup)
    (above : ∀ a ∈ l, a.toNat < d.toNat) (new : d ∉ rootHeader big :: l) (nonzero : 0 ∉ l ++ [d])
    (others : ∀ a ∈ rootHeader big :: l, a ≠ l.getLastD (rootHeader big) → nextOf m' a = nextOf m a)
    (prevs : ∀ a ∈ rootHeader big :: l, prevOf m' a = prevOf m a)
    (link : nextOf m' (l.getLastD (rootHeader big)) = d)
    (back : prevOf m' d = l.getLastD (rootHeader big)) (last : nextOf m' d = 0) :
    BlockChain big m' (l ++ [d]) := by
  obtain ⟨front, path⟩ := last_split (rootHeader big) l
  obtain ⟨stop, segment, _⟩ := chain.next
  rw [path] at segment nodup
  have inner : ∀ a ∈ front, a ∈ rootHeader big :: l ∧ a ≠ l.getLastD (rootHeader big) := by
    intro a ha
    refine ⟨path ▸ List.mem_append_left _ ha, ?_⟩
    exact (List.nodup_append.mp nodup).2.2 a ha _ (List.mem_singleton.mpr rfl)
  have longer := segment_snoc segment (fun a ha => others a (inner a ha).1 (inner a ha).2) link
  rw [← path, last] at longer
  constructor
  case order =>
    refine List.pairwise_append.mpr ⟨chain.order, List.pairwise_singleton .., fun a ha b hb => ?_⟩
    rw [List.mem_singleton.mp hb]
    exact above a ha
  case next => exact ⟨0, longer, .inr ⟨rfl, nonzero⟩⟩
  case prev =>
    have split : ∀ a ∈ rootHeader big :: (l ++ [d]), a ∈ rootHeader big :: l ∨ a = d := by
      intro a ha
      rw [← List.cons_append] at ha
      exact (List.mem_append.mp ha).imp_right List.mem_singleton.mp
    intro a ha b hb some next
    obtain old | rfl := split a ha
    · obtain rfl | other := eq_or_ne a (l.getLastD (rootHeader big))
      · rw [← next, link, back]
      · have kept := others a old other
        have inFront : a ∈ front := by
          rw [path, List.mem_append, List.mem_singleton] at old
          exact old.resolve_right other
        have target := segment_next_mem segment inFront
        rw [← path, ← kept, next] at target
        rw [prevs b target]
        exact chain.prev a old b target some (kept.symm.trans next)
    · exact absurd (next.symm.trans last) some

end BlockChain

/-! ## Steps -/

def FromBlocks (big : MultibootMmapEntry) (m : Mem) (live : List LiveRange) : Prop :=
  ∀ r ∈ live, ∃ d, Header big m d ∧
    (r.1 = d + 4 * sizeofAllocStruct ∨ r.1 = advance d sizeofAllocStruct)

theorem FromBlocks.transfer (blocks : FromBlocks big m live)
    (kept : ∀ e, Header big m e → checkMagic m' e = true ∧ blockSize m' e = blockSize m e) :
    FromBlocks big m' live := by
  intro r hr
  obtain ⟨d, header, place⟩ := blocks r hr
  exact ⟨d, header.transfer kept, place⟩

/-- At most one byte is stored, to the flag of a block or into its payload. -/
def Touches (big : MultibootMmapEntry) (m m' : Mem) : Prop :=
  m' = m ∨ ∃ d x v, Header big m d ∧ (x = d ∨ x = d + 672) ∧ m' = store8 m x v

theorem Touches.spares (touches : Touches big m m') (fits : StridesFit big m) :
    (∀ e, Header big m e → checkMagic m' e = true ∧ blockSize m' e = blockSize m e) ∧
      ∀ a, a = rootHeader big ∨ Header big m a → SameLinks m m' a := by
  obtain rfl | ⟨d, x, v, header, spot, rfl⟩ := touches
  · exact ⟨fun e he => ⟨he.magic, rfl⟩, fun _ _ => ⟨rfl, rfl⟩⟩
  have small := fits d header
  have ge := blockEnd_ge m d
  have first := firstHeader_le fits header.visited
  have inside := header_offset_toNat small (show (672 : Word).toNat < 784 by decide)
  have h672 : (672 : Word).toNat = 672 := rfl
  constructor
  · obtain rfl | rfl := spot
    · exact flag_kept fits header
    · exact interior_kept fits header (by omega) (by omega)
  · intro a place
    apply store8_sameLinks
    intro j low high
    obtain rfl | ha := place
    · obtain rfl | rfl := spot
      · rw [← add_zero x]
        exact root_ne first (by omega) (by decide) high
      · exact root_ne first (by omega) le_rfl high
    · obtain rfl | rfl := spot
      · exact header_ne_flag fits header ha high (.inr (by omega))
      · exact header_ne_interior fits header ha (by omega) (by omega) high

inductive Effect (big : MultibootMmapEntry) (s : BlockSession) (call : BlockCall) (t : BlockSession) :
    Prop
  | touched (byte : Touches big s.heap.mem t.heap.mem) (created : t.created = s.created)
      (blocks : FromBlocks big s.heap.mem t.live)
  | placed {stale : Word} {size : BitVec 64} {l : List Word} {d : Word}
      (request : call = .malloc stale size) (places : Places big s.heap.mem size l d)
      (heap : t.heap = writeHeader s.heap d (l.getLastD stale) size)
      (created : t.created = s.created ++ [d])
      (blocks : ∀ r ∈ t.live, r ∈ s.live ∨ r.1 = d + 4 * sizeofAllocStruct)

theorem append_createdBy (same : h'.allocId = h.allocId) : created ++ createdBy h h' p = created := by
  rw [createdBy, originOf, if_pos same]
  exact List.append_nil created

theorem createdBy_fresh :
    createdBy h (writeHeader h d q size) (d + 4 * sizeofAllocStruct) = [d] := by
  rw [createdBy, originOf, if_neg writeHeader_counts, free_fresh]
  rfl

theorem mem_served {live : List LiveRange}
    (mem : r ∈ if p = mallocFailed then live else (p, size) :: live) : r ∈ live ∨ r.1 = p := by
  split at mem
  · exact .inl mem
  · obtain rfl | old := List.mem_cons.mp mem
    · exact .inr rfl
    · exact .inl old

theorem malloc_effect (fits : StridesFit big h.mem) (blocks : FromBlocks big h.mem live)
    (run : malloc big fuel stale size h = some (p, h')) :
    Effect big ⟨⟨h, live⟩, created⟩ (.malloc stale size)
      ⟨⟨h', if p = mallocFailed then live else (p, size) :: live⟩, created ++ createdBy h h' p⟩ := by
  obtain ⟨l, e, walk⟩ := blocks_exist fits .refl
  cases malloc_served walk run with
  | @reused d mem =>
    have header := walk.walked.header .refl mem
    refine .touched (.inr ⟨d, d, 1, header, .inl rfl, rfl⟩) (append_createdBy rfl) ?_
    intro r hr
    dsimp only at hr
    obtain old | new := mem_served hr
    · exact blocks r old
    · exact ⟨d, header, .inr new⟩
  | fresh tight region room =>
    refine .placed rfl ⟨walk.walked, tight, region, walk.ends region, room⟩ rfl ?_ ?_
    · dsimp only
      rw [createdBy_fresh]
    · intro r hr
      dsimp only at hr
      exact mem_served hr
  | failed =>
    refine .touched (.inl rfl) (append_createdBy rfl) ?_
    dsimp only
    rw [if_pos rfl]
    exact blocks

theorem free_effect {l₁ l₂ : List LiveRange} {p : Word}
    (blocks : FromBlocks big h.mem (l₁ ++ (p, size) :: l₂)) :
    Effect big ⟨⟨h, l₁ ++ (p, size) :: l₂⟩, created⟩ (.free p)
      ⟨⟨{ h with mem := free h.mem p }, l₁ ++ l₂⟩, created⟩ := by
  refine .touched ?_ rfl ?_
  · obtain ⟨d, header, place⟩ := blocks (p, size) (List.mem_append_right _ List.mem_cons_self)
    refine (free_cases h.mem p).imp_right fun cleared => ⟨d, _, 0, header, ?_, cleared⟩
    obtain rfl | rfl := place
    · exact .inl (free_fresh d)
    · exact .inr (free_reused d)
  · intro r hr
    apply blocks r
    exact List.mem_append.mpr ((List.mem_append.mp hr).imp_right (List.mem_cons_of_mem _))

theorem step_effect (fits : StridesFit big s.heap.mem) (blocks : FromBlocks big s.heap.mem s.live)
    (step : BlockStep big s call t) : Effect big s call t := by
  cases step with
  | malloc run => exact malloc_effect fits blocks run
  | free => exact free_effect blocks

/-! ## Placing a block -/

theorem StridesBounded.place (bounded : StridesBounded big s.toSession (.malloc stale size))
    (places : Places big s.heap.mem size l d) : d.toNat + 28 * (size.toNat + 28) < 2 ^ 32 :=
  bounded.2 stale size rfl d places.walked.path places.region places.unmarked places.room

namespace Places

variable (places : Places big h.mem size l d) (fits : StridesFit big h.mem)
variable (bound : d.toNat + 28 * (size.toNat + 28) < 2 ^ 32)

include places

theorem before (stale : Word) : Precedes big h.mem stale (l.getLastD stale) d :=
  places.walked.precedes .refl (.inl ⟨rfl, rfl⟩)

include fits bound

theorem kept (stale : Word) : ∀ e, Header big h.mem e →
    checkMagic (writeHeader h d (l.getLastD stale) size).mem e = true ∧
      blockSize (writeHeader h d (l.getLastD stale) size).mem e = blockSize h.mem e :=
  fresh_kept size fits places.walked.path places.unmarked (places.before stale) (by omega)

theorem header (stale : Word) : Header big (writeHeader h d (l.getLastD stale) size).mem d :=
  ⟨Visited.transfer (places.kept fits bound stale) places.walked.path, places.region,
    writeHeader_magic⟩

theorem fromBlocks {live' : List LiveRange} (stale : Word) (blocks : FromBlocks big h.mem live)
    (new : ∀ r ∈ live', r ∈ live ∨ r.1 = d + 4 * sizeofAllocStruct) :
    FromBlocks big (writeHeader h d (l.getLastD stale) size).mem live' := by
  intro r hr
  obtain old | place := new r hr
  · exact blocks.transfer (places.kept fits bound stale) r old
  · exact ⟨d, places.header fits bound stale, .inl place⟩

theorem apart_root : Apart (rootHeader big) d :=
  root_apart (firstHeader_le fits places.walked.path) (lt_of_le_of_lt (by omega) bound)

theorem apart (header : Header big h.mem a) : Apart a d :=
  unmarked_apart fits places.walked.path places.unmarked (by omega) header

end Places

theorem root_noHeader (fits : StridesFit big m) : ¬Header big m (rootHeader big) := by
  intro header
  have small := fits _ header
  have ge := blockEnd_ge m (rootHeader big)
  have first := firstHeader_le fits header.visited
  exact root_ne first (by omega) (j := 0) (k := 0) (by decide) (by decide) rfl

/-! ## Runs in which the blocks get linked -/

structure InOrder (big : MultibootMmapEntry) (s : BlockSession) : Prop where
  chain : BlockChain big s.heap.mem s.created
  headers : ∀ b ∈ s.created, Header big s.heap.mem b
  nonzero : 0 ∉ s.created
  blocks : FromBlocks big s.heap.mem s.live

theorem getLastD_congr (same : l = [] → a = b) : l.getLastD a = l.getLastD b := by
  cases l with
  | nil => exact same rfl
  | cons c l => rw [List.getLastD_cons, List.getLastD_cons]

/-- Any two headers of the path from `root` are apart. -/
theorem path_apart (fits : StridesFit big m) (headers : ∀ b ∈ l, Header big m b) :
    ∀ a ∈ rootHeader big :: l, ∀ b ∈ rootHeader big :: l, a ≠ b → Apart a b := by
  have fromRoot (b : Word) (hb : b ∈ l) : Apart (rootHeader big) b := by
    have small := fits b (headers b hb)
    exact root_apart (firstHeader_le fits (headers b hb).visited) ((blockEnd_ge m b).trans_lt small)
  intro a ha b hb ne
  obtain rfl | ha := List.mem_cons.mp ha
  · exact fromRoot b ((List.mem_cons.mp hb).resolve_left ne.symm)
  · obtain rfl | hb := List.mem_cons.mp hb
    · exact (fromRoot a ha).symm
    · exact header_apart fits (headers a ha) (headers b hb) ne

theorem BlockChain.path_nodup (chain : BlockChain big m l) (fits : StridesFit big m)
    (headers : ∀ b ∈ l, Header big m b) : (rootHeader big :: l).Nodup := by
  refine List.nodup_cons.mpr ⟨fun mem => root_noHeader fits (headers _ mem), ?_⟩
  apply chain.order.imp
  rintro a _ before rfl
  exact lt_irrefl _ before

theorem BlockChain.place (chain : BlockChain big h.mem l) (headers : ∀ b ∈ l, Header big h.mem b)
    (fits : StridesFit big h.mem) (places : Places big h.mem size l d)
    (bound : d.toNat + 28 * (size.toNat + 28) < 2 ^ 32) (nonzero : 0 ∉ l ++ [d])
    (leftover : nextOf h.mem d = 0) :
    BlockChain big (writeHeader h d (l.getLastD (rootHeader big)) size).mem (l ++ [d]) := by
  have apart : ∀ a ∈ rootHeader big :: l, Apart a d :=
    List.forall_mem_cons.mpr ⟨places.apart_root fits bound, fun a ha => places.apart fits bound (headers a ha)⟩
  have pairs := path_apart fits headers
  have last : l.getLastD (rootHeader big) ∈ rootHeader big :: l := by
    obtain ⟨front, path⟩ := BlockChain.last_split (rootHeader big) l
    rw [path]
    simp
  apply chain.snoc (chain.path_nodup fits headers)
  case above =>
    intro a ha
    have ge := blockEnd_ge h.mem a
    have le := header_before_unmarked fits places.walked.path places.unmarked (headers a ha)
    omega
  case new =>
    intro mem
    exact apart d mem 0 (by decide) (by simp [Covers])
  case nonzero => exact nonzero
  case others =>
    intro a ha other
    apply fresh_next (apart a ha)
    intro k hk
    exact (pairs a ha _ last other).part (by bv_omega) (by decide)
  case prevs =>
    intro a ha
    apply fresh_prev (apart a ha)
    obtain same | other := eq_or_ne a (l.getLastD (rootHeader big))
    · exact .inl same
    · exact .inr (pairs a ha _ last other)
  case link => exact fresh_link (apart _ last)
  case back => exact fresh_prev_new (apart _ last)
  case last => rw [fresh_next_new (apart _ last), leftover]

theorem InOrder.step (ordered : InOrder big s) (condition : Linkable big s call)
    (step : BlockStep big s call t) : InOrder big t := by
  have fits := condition.bounded.1
  cases step_effect fits ordered.blocks step with
  | touched byte created blocks =>
    obtain ⟨kept, links⟩ := byte.spares fits
    constructor
    case chain =>
      rw [created]
      apply ordered.chain.congr
      intro a ha
      apply links a
      exact (List.mem_cons.mp ha).imp_right (ordered.headers a)
    case headers =>
      rw [created]
      exact fun b hb => (ordered.headers b hb).transfer kept
    case nonzero =>
      rw [created]
      exact ordered.nonzero
    case blocks => exact blocks.transfer kept
  | @placed stale size l d request places heap created blocks =>
    obtain ⟨rfl, first, nonzero, leftover⟩ := condition.linked stale size request l d places
    subst request
    have bound := StridesBounded.place condition.bounded places
    have zero : 0 ∉ s.created ++ [d] := by
      rw [List.mem_append, List.mem_singleton]
      rintro (old | rfl)
      · exact ordered.nonzero old
      · exact nonzero rfl
    constructor
    case chain =>
      rw [created, heap, getLastD_congr first]
      exact ordered.chain.place ordered.headers fits places bound zero leftover
    case headers =>
      rw [created, heap]
      intro b hb
      obtain old | new := List.mem_append.mp hb
      · exact (ordered.headers b old).transfer (places.kept fits bound stale)
      · rw [List.mem_singleton.mp new]
        exact places.header fits bound stale
    case nonzero =>
      rw [created]
      exact zero
    case blocks =>
      rw [heap]
      exact places.fromBlocks fits bound stale ordered.blocks blocks

/-! ## What pmm_setup leaves -/

theorem setupRoot_next : nextOf (setupRoot big h).mem (rootHeader big) = rootHeader big := by
  simp only [nextOf, setupRoot, rootHeader]
  rw [load32_above (by decide) (by decide), load32_above (by decide) (by decide),
    load32_above (by decide) (by decide), load32_store32]

theorem setupRoot_prev : prevOf (setupRoot big h).mem (rootHeader big) = rootHeader big := by
  simp only [prevOf, setupRoot, rootHeader]
  rw [load32_above (by decide) (by decide), load32_above (by decide) (by decide), load32_store32]

theorem inOrder_init : InOrder big ⟨⟨setupRoot big h₀, []⟩, []⟩ :=
  ⟨.empty setupRoot_next setupRoot_prev, by simp, by simp, by simp [FromBlocks]⟩

/-! ## Runs in which root stays alone -/

structure Unlinked (big : MultibootMmapEntry) (s : BlockSession) : Prop where
  next : nextOf s.heap.mem (rootHeader big) = rootHeader big
  prev : s.created = [] → prevOf s.heap.mem (rootHeader big) = rootHeader big
  outside : rootHeader big ∉ s.created
  blocks : FromBlocks big s.heap.mem s.live

theorem Unlinked.step (alone : Unlinked big s) (condition : Misses big s call)
    (step : BlockStep big s call t) : Unlinked big t := by
  have fits := condition.bounded.1
  cases step_effect fits alone.blocks step with
  | touched byte created blocks =>
    obtain ⟨kept, links⟩ := byte.spares fits
    have root := links (rootHeader big) (.inl rfl)
    constructor
    case next => exact root.next.trans alone.next
    case prev =>
      intro none
      exact root.prev.trans (alone.prev (created.symm.trans none))
    case outside =>
      rw [created]
      exact alone.outside
    case blocks => exact blocks.transfer kept
  | @placed stale size l d request places heap created blocks =>
    subst request
    have bound := StridesBounded.place condition.bounded places
    have apart := places.apart_root fits bound
    constructor
    case next =>
      rw [heap, fresh_next apart, alone.next]
      intro k hk
      obtain ⟨same, _⟩ | ⟨header, _⟩ := places.before stale
      · rw [same]
        exact condition.misses stale size rfl k hk
      · have small := fits _ header
        have far := root_apart (firstHeader_le fits header.visited) ((blockEnd_ge s.heap.mem _).trans_lt small)
        exact far.part (by bv_omega) (by decide)
    case prev =>
      intro none
      rw [created] at none
      exact absurd none (by simp)
    case outside =>
      rw [created, List.mem_append, List.mem_singleton]
      rintro (old | rfl)
      · exact alone.outside old
      · exact apart 0 (by decide) (by simp [Covers])
    case blocks =>
      rw [heap]
      exact places.fromBlocks fits bound stale alone.blocks blocks

/-- While `root` points at itself its chain has no block. -/
theorem Unlinked.links_iff (alone : Unlinked big s) : LinksBlocks big s ↔ s.created = [] := by
  constructor
  · rintro ⟨l, perm, chain⟩
    obtain ⟨stop, ⟨_, segment⟩, _⟩ := chain.next
    cases l with
    | nil => exact List.Perm.nil_eq perm |>.symm
    | cons a l =>
      rw [alone.next] at segment
      exact absurd (perm.subset (segment.1 ▸ List.mem_cons_self)) alone.outside
  · intro none
    refine ⟨[], ?_, .empty alone.next (alone.prev none)⟩
    rw [none]

theorem links_iff_empty (run : (blockSystem big h₀).Reach (Misses big) s) :
    LinksBlocks big s ↔ s.created = [] := by
  have alone : Unlinked big s := by
    apply run.invariant (I := Unlinked big)
    · rintro s rfl
      exact ⟨setupRoot_next, fun _ => setupRoot_prev, by simp, by simp [FromBlocks]⟩
    · intro s call t _ alone condition step
      exact alone.step condition step
  exact alone.links_iff

/-- In a run whose blocks get the right links by chance the chain is kept. In a run whose first
block finds something else in `prev` it has no block. -/
theorem blocks_linked (big : MultibootMmapEntry) (h₀ : HeapState) :
    (∀ s, (blockSystem big h₀).Reach (Linkable big) s → LinksBlocks big s) ∧
      ∀ s, (blockSystem big h₀).Reach (Misses big) s → (LinksBlocks big s ↔ s.created = []) := by
  constructor
  · intro s run
    have ordered : InOrder big s := by
      apply run.invariant (I := InOrder big)
      · rintro s rfl
        exact inOrder_init
      · intro s call t _ ordered condition step
        exact ordered.step condition step
    exact ⟨s.created, .refl _, ordered.chain⟩
  · intro s run
    exact links_iff_empty run

/-- The first call on the sample region creates a block behind `root`, whatever `prev` holds. -/
theorem sample_step (stale : Word) : ∃ h, BlockStep sampleRegion
    ⟨⟨setupRoot sampleRegion zeroedHeap, []⟩, []⟩ (.malloc stale 16) ⟨⟨h, [(0x20008C, 16)]⟩, [0x20001C]⟩ := by
  have region : inRegion sampleRegion 0x20001C = true := by decide
  have room : hasRoom sampleRegion 0x20001C 16 = true := by decide
  have first : firstHeader sampleRegion = 0x20001C := rfl
  have run : malloc sampleRegion 1 stale 16 (setupRoot sampleRegion zeroedHeap) =
      some (0x20008C, writeHeader (setupRoot sampleRegion zeroedHeap) 0x20001C stale 16) := by
    rw [malloc, mallocLoop_stop fun _ => sample_unmarked, outcome, List.find?_nil, first, region, room]
    rfl
  have created : createdBy (setupRoot sampleRegion zeroedHeap)
      (writeHeader (setupRoot sampleRegion zeroedHeap) 0x20001C stale 16) 0x20008C = [0x20001C] :=
    createdBy_fresh
  have step : BlockStep sampleRegion ⟨⟨setupRoot sampleRegion zeroedHeap, []⟩, []⟩ (.malloc stale 16) _ :=
    .malloc run
  rw [created] at step
  exact ⟨_, step⟩

theorem sample_misses : Misses sampleRegion ⟨⟨setupRoot sampleRegion zeroedHeap, []⟩, []⟩
    (.malloc 0x1000 16) := by
  refine ⟨sample_bounded, ?_⟩
  rintro _ _ ⟨⟩ k hk
  have root : rootHeader sampleRegion = 0x200000 := rfl
  rw [root, covers_iff (by decide)]
  bv_omega

theorem sample_places {l : List Word} {d : Word}
    (places : Places sampleRegion (setupRoot sampleRegion zeroedHeap).mem 16 l d) :
    l = [] ∧ d = 0x20001C := by
  cases places.walked with
  | here => exact ⟨rfl, rfl⟩
  | block _ magic => cases sample_unmarked.symm.trans magic

/-- The first block is linked when `prev` happens to be `root`, and is not when it is 0x1000. -/
theorem blocks_linked_sample :
    (∃ s, (blockSystem sampleRegion zeroedHeap).Reach (Linkable sampleRegion) s ∧
      s.created = [0x20001C] ∧ LinksBlocks sampleRegion s) ∧
    ∃ s, (blockSystem sampleRegion zeroedHeap).Reach (Misses sampleRegion) s ∧
      s.created = [0x20001C] ∧ ¬LinksBlocks sampleRegion s := by
  obtain ⟨linked, alone⟩ := blocks_linked sampleRegion zeroedHeap
  constructor
  · obtain ⟨h, step⟩ := sample_step (rootHeader sampleRegion)
    have leftover : nextOf (setupRoot sampleRegion zeroedHeap).mem 0x20001C = 0 := by decide +kernel
    have condition : Linkable sampleRegion ⟨⟨setupRoot sampleRegion zeroedHeap, []⟩, []⟩
        (.malloc (rootHeader sampleRegion) 16) := by
      refine ⟨sample_bounded, ?_⟩
      rintro _ _ ⟨⟩ l d places
      obtain ⟨rfl, rfl⟩ := sample_places places
      exact ⟨rfl, fun _ => rfl, by decide, leftover⟩
    have run : (blockSystem sampleRegion zeroedHeap).Reach (Linkable sampleRegion) _ :=
      .next (.start rfl) condition step
    exact ⟨_, run, rfl, linked _ run⟩
  · obtain ⟨h, step⟩ := sample_step 0x1000
    have run : (blockSystem sampleRegion zeroedHeap).Reach (Misses sampleRegion) _ :=
      .next (.start rfl) sample_misses step
    refine ⟨_, run, rfl, fun links => ?_⟩
    exact absurd ((alone _ run).mp links) (by simp)

/-- One call of `malloc` creates a block that no link from `root` leads to. -/
theorem blocks_not_linked : ¬∀ (big : MultibootMmapEntry) (h₀ : HeapState), MagicFree big h₀.mem →
    ∀ s, (blockSystem big h₀).Reach anyStep s → LinksBlocks big s := by
  intro claim
  obtain ⟨h, step⟩ := sample_step 0x1000
  have reached : (blockSystem sampleRegion zeroedHeap).Reach anyStep _ := .next (.start rfl) trivial step
  have run : (blockSystem sampleRegion zeroedHeap).Reach (Misses sampleRegion) _ :=
    .next (.start rfl) sample_misses step
  have links := claim sampleRegion zeroedHeap (fun _ _ _ => rfl) _ reached
  exact absurd ((links_iff_empty run).mp links) (by simp)

end X86Os.Heap
