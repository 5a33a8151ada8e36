import X86Os.Heap.Release
import X86Os.Heap.Setup

/-!
# Whether malloc stays inside its region

The capacity test counts a header and the payload in bytes. The pointers handed
out lie further behind the header: 112 bytes on the fresh path, and 784 bytes on
the path that reuses a block, where nothing is tested. So a payload may end
behind the region that its header lies in.
-/

namespace X86Os.Heap

open Library.Memory Library.Runs
set_option autoImplicit false

structure PlacedInside (big : MultibootMmapEntry) (size : BitVec 64) (d p : Word) : Prop where
  header : Set.Ico d.toNat (d.toNat + 28) ⊆ big.range
  payload : Set.Ico p.toNat (p.toNat + size.toNat) ⊆ big.range

/-- Whatever a call hands out lies in the region, with the header it wrote or claimed. -/
def StaysInside (big : MultibootMmapEntry) (size : BitVec 64) (h : HeapState) : Prop :=
  ∀ fuel stale p h', malloc big fuel stale size h = some (p, h') → p ≠ mallocFailed →
    PlacedInside big size (originOf h h' p).block p

/-- The walk of a request comes to `d`: no block in front of it serves the request. -/
def Arrives (big : MultibootMmapEntry) (m : Mem) (size : BitVec 64) (d : Word) : Prop :=
  ∃ l, Walked big m (firstHeader big) l d ∧ ∀ b ∈ l, suits m size b = false

/-- The block a request is served from and the pointer it gets, told from the memory before the
call: its walk comes to a free block that is large enough, or it ends where the region has room. -/
inductive Answer (big : MultibootMmapEntry) (m : Mem) (size : BitVec 64) : Word → Word → Prop
  | reused {d : Word} (arrives : Arrives big m size d) (region : inRegion big d = true)
      (magic : checkMagic m d = true) (serves : suits m size d = true) :
      Answer big m size d (advance d sizeofAllocStruct)
  | fresh {d : Word} (arrives : Arrives big m size d) (region : inRegion big d = true)
      (unmarked : checkMagic m d = false) (room : hasRoom big d size = true) :
      Answer big m size d (d + 4 * sizeofAllocStruct)

structure RoomBehind (big : MultibootMmapEntry) (size : BitVec 64) (offset d : Word) : Prop where
  above : big.addr.toNat ≤ d.toNat
  below : d.toNat + 28 ≤ big.addr.toNat + big.len.toNat
  payload : 0 < size.toNat → big.addr.toNat ≤ (d + offset).toNat ∧
    (d + offset).toNat + size.toNat ≤ big.addr.toNat + big.len.toNat

variable {big : MultibootMmapEntry} {m : Mem} {h h' : HeapState} {d e p prev offset : Word}
variable {l : List Word} {size : BitVec 64} {fuel : Nat}

theorem roomBehind_iff : PlacedInside big size d (d + offset) ↔ RoomBehind big size offset d := by
  constructor
  · rintro ⟨header, payload⟩
    obtain ⟨above, below⟩ := (Set.Ico_subset_Ico_iff (by omega)).mp header
    refine ⟨above, below, fun positive => ?_⟩
    exact (Set.Ico_subset_Ico_iff (by omega)).mp payload
  · rintro ⟨above, below, payload⟩
    refine ⟨Set.Ico_subset_Ico above below, ?_⟩
    obtain empty | positive := Nat.eq_zero_or_pos size.toNat
    · rw [empty, Nat.add_zero, Set.Ico_self]
      exact Set.empty_subset _
    · obtain ⟨first, last⟩ := payload positive
      exact Set.Ico_subset_Ico first last

theorem mallocLoop_passes (walked : Walked big h.mem d l e)
    (tight : ∀ b ∈ l, suits h.mem size b = false) :
    mallocLoop big size h (l.length + fuel) d prev =
      mallocLoop big size h fuel e (l.getLastD prev) := by
  induction walked generalizing prev with
  | here => rw [List.length_nil, Nat.zero_add, List.getLastD_nil]
  | @block d e l region magic rest ih =>
    obtain ⟨first, others⟩ := List.forall_mem_cons.mp tight
    rw [List.length_cons, Nat.add_right_comm, mallocLoop_block region magic, first,
      if_neg Bool.false_ne_true, ih others, List.getLastD_cons]

/-- A call that returns does so in one round of the loop, at a position it comes to. -/
theorem mallocLoop_arrives (arrives : Arrives big h.mem size d)
    (run : mallocLoop big size h fuel d prev = some (p, h')) :
    ∃ e last, Arrives big h.mem size e ∧ mallocLoop big size h 1 e last = some (p, h') := by
  induction fuel generalizing d prev with
  | zero => cases run
  | succ fuel ih =>
    by_cases passes : inRegion big d = true ∧ checkMagic h.mem d = true ∧
        suits h.mem size d = false
    · obtain ⟨region, magic, tight⟩ := passes
      rw [mallocLoop_block region magic, tight, if_neg Bool.false_ne_true] at run
      obtain ⟨l, walked, before⟩ := arrives
      refine ih ⟨l ++ [d], walked.snoc region magic, fun b mem => ?_⟩ run
      obtain mem | mem := List.mem_append.mp mem
      · exact before b mem
      · exact List.mem_singleton.mp mem ▸ tight
    · refine ⟨d, prev, arrives, ?_⟩
      rw [← run]
      by_cases header : inRegion big d = true ∧ checkMagic h.mem d = true
      · have serves : suits h.mem size d = true :=
          Bool.eq_true_of_not_eq_false fun tight => passes ⟨header.1, header.2, tight⟩
        rw [mallocLoop_block header.1 header.2, mallocLoop_block header.1 header.2, serves,
          if_pos rfl, if_pos rfl]
      · have ends (region : inRegion big d = true) : checkMagic h.mem d = false :=
          Bool.eq_false_iff.mpr fun magic => header ⟨region, magic⟩
        rw [mallocLoop_stop ends, mallocLoop_stop ends]

theorem originOf_reused :
    (originOf h { h with mem := m } (advance d sizeofAllocStruct)).block = d := by
  rw [originOf, if_pos rfl]
  exact add_sub_cancel_right d _

theorem originOf_fresh (counted : h'.allocId ≠ h.allocId) :
    (originOf h h' (d + 4 * sizeofAllocStruct)).block = d := by
  rw [originOf, if_neg counted]
  exact add_sub_cancel_right d _

theorem arrives_first : Arrives big m size (firstHeader big) := ⟨[], .here, by simp⟩

theorem Arrives.malloc (arrives : Arrives big h.mem size d) (stale : Word) :
    ∃ fuel last, malloc big fuel stale size h = mallocLoop big size h 1 d last := by
  obtain ⟨l, walked, tight⟩ := arrives
  exact ⟨l.length + 1, _, mallocLoop_passes walked tight⟩

theorem answer_of_malloc {stale : Word} (served : malloc big fuel stale size h = some (p, h'))
    (success : p ≠ mallocFailed) :
    ∃ d, Answer big h.mem size d p ∧ (originOf h h' p).block = d := by
  obtain ⟨d, last, arrives, run⟩ := mallocLoop_arrives arrives_first served
  refine ⟨d, ?_⟩
  by_cases header : inRegion big d = true ∧ checkMagic h.mem d = true
  · obtain ⟨region, magic⟩ := header
    rw [mallocLoop_block region magic] at run
    split at run
    next serves =>
      obtain ⟨rfl, rfl⟩ := Prod.mk.inj (Option.some.inj run)
      exact ⟨.reused arrives region magic serves, originOf_reused⟩
    next => cases run
  · have ends (region : inRegion big d = true) : checkMagic h.mem d = false :=
      Bool.eq_false_iff.mpr fun magic => header ⟨region, magic⟩
    rw [mallocLoop_stop ends, outcome, List.find?_nil] at run
    dsimp only at run
    split at run
    next hasPlace =>
      obtain ⟨region, room⟩ := Bool.and_eq_true_iff.mp hasPlace
      obtain ⟨rfl, rfl⟩ := Prod.mk.inj (Option.some.inj run)
      exact ⟨.fresh arrives region (ends region) room, originOf_fresh writeHeader_counts⟩
    next =>
      obtain ⟨rfl, rfl⟩ := Prod.mk.inj (Option.some.inj run)
      exact absurd rfl success

theorem malloc_of_answer (answer : Answer big h.mem size d p) (stale : Word) :
    ∃ fuel h', malloc big fuel stale size h = some (p, h') ∧ (originOf h h' p).block = d := by
  cases answer with
  | reused arrives region magic serves =>
    obtain ⟨fuel, last, run⟩ := arrives.malloc stale
    rw [mallocLoop_block region magic, serves, if_pos rfl] at run
    exact ⟨fuel, _, run, originOf_reused⟩
  | fresh arrives region unmarked room =>
    obtain ⟨fuel, last, run⟩ := arrives.malloc stale
    rw [mallocLoop_stop fun _ => unmarked, outcome, List.find?_nil, region, room, Bool.true_and,
      if_pos rfl] at run
    exact ⟨fuel, _, run, originOf_fresh writeHeader_counts⟩

/-- The calls that hand out a pointer are the ones with an answer. -/
theorem staysInside_answers : StaysInside big size h ↔
    ∀ d p, Answer big h.mem size d p → p ≠ mallocFailed → PlacedInside big size d p := by
  constructor
  · intro inside d p answer success
    obtain ⟨fuel, h', run, origin⟩ := malloc_of_answer answer 0
    exact origin ▸ inside fuel 0 p h' run success
  · intro inside fuel stale p h' run success
    obtain ⟨d, answer, origin⟩ := answer_of_malloc run success
    exact origin ▸ inside d p answer success

/-- A request stays inside the region if and only if there is room for it where it is served:
784 bytes behind the free block that it claims, or 112 bytes behind the header that it writes. -/
theorem stays_inside_iff : StaysInside big size h ↔
    ∀ d, Arrives big h.mem size d → inRegion big d = true →
      (checkMagic h.mem d = true → suits h.mem size d = true →
        d + 784 = mallocFailed ∨ RoomBehind big size 784 d) ∧
      (checkMagic h.mem d = false → hasRoom big d size = true →
        d + 112 = mallocFailed ∨ RoomBehind big size 112 d) := by
  rw [staysInside_answers]
  constructor
  · intro inside d arrives region
    constructor
    · intro magic serves
      refine or_iff_not_imp_left.mpr fun success => roomBehind_iff.mp ?_
      exact inside d _ (.reused arrives region magic serves) success
    · intro unmarked room
      refine or_iff_not_imp_left.mpr fun success => roomBehind_iff.mp ?_
      exact inside d _ (.fresh arrives region unmarked room) success
  · intro condition d p answer success
    cases answer with
    | reused arrives region magic serves =>
      exact roomBehind_iff.mpr (((condition d arrives region).1 magic serves).resolve_left success)
    | fresh arrives region unmarked room =>
      exact roomBehind_iff.mpr (((condition d arrives region).2 unmarked room).resolve_left success)

theorem Walked.rest (walked : Walked big m d l e) {a : Word} {k : List Word}
    (blocks : Blocks big m d k a) : ∃ k', k = l ++ k' ∧ Blocks big m e k' a := by
  induction walked generalizing k with
  | here => exact ⟨k, rfl, blocks⟩
  | block region magic _ ih =>
    cases blocks with
    | stop ends => cases (ends region).symm.trans magic
    | block _ _ rest =>
      obtain ⟨k', rfl, blocks⟩ := ih rest
      exact ⟨k', rfl, blocks⟩

theorem Blocks.found {a : Word} (blocks : Blocks big m a l e)
    (found : l.find? (suits m size) = some d) :
    (∃ k, Walked big m a k d ∧ ∀ b ∈ k, suits m size b = false) ∧ inRegion big d = true ∧
      checkMagic m d = true := by
  induction blocks with
  | stop => cases found
  | @block a e l region magic rest ih =>
    by_cases serves : suits m size a = true
    · rw [List.find?_cons_of_pos serves] at found
      obtain rfl := Option.some.inj found
      exact ⟨⟨[], .here, by simp⟩, region, magic⟩
    · rw [List.find?_cons_of_neg serves] at found
      obtain ⟨⟨k, walked, tight⟩, last⟩ := ih found
      refine ⟨⟨a :: k, .block region magic walked, ?_⟩, last⟩
      exact List.forall_mem_cons.mpr ⟨Bool.eq_false_iff.mpr serves, tight⟩

/-- The answer is the first block that suits, or else the frontier. -/
theorem answer_iff (blocks : Blocks big m (firstHeader big) l e) : Answer big m size d p ↔
    l.find? (suits m size) = some d ∧ p = advance d sizeofAllocStruct ∨
    l.find? (suits m size) = none ∧ (inRegion big d = true ∧ hasRoom big d size = true) ∧
      d = frontier big m l ∧ p = d + 4 * sizeofAllocStruct := by
  have ends : frontier big m l = e := blocks.walked.end_eq.symm
  have passed {k : List Word} (tight : ∀ b ∈ k, suits m size b = false) :
      k.find? (suits m size) = none :=
    List.find?_eq_none.mpr fun b hb => by rw [tight b hb]; exact Bool.false_ne_true
  constructor
  · rintro (⟨⟨k, walked, tight⟩, region, magic, serves⟩ | ⟨⟨k, walked, tight⟩, region, unmarked, room⟩)
    · obtain ⟨k', rfl, rest⟩ := walked.rest blocks
      cases rest with
      | stop last => cases (last region).symm.trans magic
      | block =>
        rw [List.find?_append, passed tight, Option.none_or, List.find?_cons_of_pos serves]
        exact .inl ⟨rfl, rfl⟩
    · obtain ⟨k', rfl, rest⟩ := walked.rest blocks
      cases rest with
      | stop =>
        rw [List.append_nil] at ends ⊢
        exact .inr ⟨passed tight, ⟨region, room⟩, ends.symm, rfl⟩
      | block _ magic => cases unmarked.symm.trans magic
  · rintro (⟨found, rfl⟩ | ⟨none, ⟨region, room⟩, rfl, rfl⟩)
    · obtain ⟨arrives, region, magic⟩ := blocks.found found
      exact .reused arrives region magic (List.find?_some found)
    · have arrives : Arrives big m size (frontier big m l) :=
        ⟨l, ends ▸ blocks.walked, fun b hb => Bool.eq_false_iff.mpr (List.find?_eq_none.mp none b hb)⟩
      have unmarked : checkMagic m (frontier big m l) = false := by
        rw [ends] at region ⊢
        exact blocks.ends region
      exact .fresh arrives region unmarked room

/-- On a walk with the blocks `l` the place of the payload is told by their sizes: it lies behind
the first one that suits, or behind a header at the frontier. -/
theorem stays_inside_blocks (blocks : Blocks big h.mem (firstHeader big) l e) :
    StaysInside big size h ↔
      (∀ d, l.find? (suits h.mem size) = some d → d + 784 = mallocFailed ∨ RoomBehind big size 784 d) ∧
      (l.find? (suits h.mem size) = none → inRegion big (frontier big h.mem l) = true →
        hasRoom big (frontier big h.mem l) size = true →
        frontier big h.mem l + 112 = mallocFailed ∨ RoomBehind big size 112 (frontier big h.mem l)) := by
  rw [staysInside_answers]
  constructor
  · intro inside
    constructor
    · intro d found
      refine or_iff_not_imp_left.mpr fun success => roomBehind_iff.mp ?_
      exact inside d _ ((answer_iff blocks).mpr (.inl ⟨found, rfl⟩)) success
    · intro none region room
      refine or_iff_not_imp_left.mpr fun success => roomBehind_iff.mp ?_
      exact inside _ _ ((answer_iff blocks).mpr (.inr ⟨none, ⟨region, room⟩, rfl, rfl⟩)) success
  · rintro ⟨reused, fresh⟩ d p answer success
    rcases (answer_iff blocks).mp answer with ⟨found, rfl⟩ | ⟨none, ⟨region, room⟩, rfl, rfl⟩
    · exact roomBehind_iff.mpr ((reused d found).resolve_left success)
    · exact roomBehind_iff.mpr ((fresh none region room).resolve_left success)

/-- The largest request that passes the capacity test of an empty region ends behind it. -/
theorem payload_outside : heapRegion [smallRegion] 0x180000 = smallRegion ∧
    MagicFree smallRegion zeroedHeap.mem ∧
    ∃ s, (heapSystem smallRegion zeroedHeap).Reach anyStep s ∧
      ¬ StaysInside smallRegion 0x7FC8 s.heap := by
  refine ⟨rfl, fun _ _ _ => rfl, _, .start rfl, ?_⟩
  intro inside
  have unmarked : checkMagic (setupRoot smallRegion zeroedHeap).mem (firstHeader smallRegion) =
      false := by
    decide +kernel
  have answer : Answer smallRegion (setupRoot smallRegion zeroedHeap).mem 0x7FC8 _ _ :=
    .fresh arrives_first (by decide) unmarked (by decide)
  have room := roomBehind_iff.mp (staysInside_answers.mp inside _ _ answer (by decide))
  exact absurd (room.payload (by decide)).2 (by decide)

end X86Os.Heap
