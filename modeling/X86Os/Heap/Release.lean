import X86Os.Heap.Frontier

/-!
# Whether free undoes malloc

`free` expects the header 112 bytes in front of its pointer. The fresh path of
`malloc` hands out such pointers; the path that reuses a block hands out the
pointer 784 bytes behind the header, so freeing it leaves the block taken.
-/

namespace X86Os.Heap

open Library.Memory Library.Owners Library.Runs Relation
set_option autoImplicit false

/-- The block a pointer was handed out from, and whether it was a fresh one. -/
structure Origin where
  block : Word
  fresh : Bool

/-- The fresh path counts its headers in `alloc_id`; the two paths return different offsets. -/
def originOf (h h' : HeapState) (p : Word) : Origin :=
  if h'.allocId = h.allocId then ⟨p - 28 * sizeofAllocStruct, false⟩
  else ⟨p - 4 * sizeofAllocStruct, true⟩

def noteOrigin (s : Session) : HeapCall → Session → (Word → Origin) → Word → Origin
  | .malloc .., ⟨h', (p, _) :: live⟩, origin =>
    if live.length + 1 = s.live.length then origin
    else Function.update origin p (originOf s.heap h' p)
  | _, _, origin => origin

def originSystem (big : MultibootMmapEntry) (h₀ : HeapState) :
    System (Session × (Word → Origin)) HeapCall :=
  (heapSystem big h₀).tracked (fun _ _ => ⟨0, false⟩) noteOrigin

/-- Freeing the range `r` undoes the call that handed it out from the block at `d`: the flag of
this block is cleared, nothing else changes, and the same request consumes no block again. -/
structure FreeUndoes (big : MultibootMmapEntry) (h : HeapState) (r : LiveRange) (d : Word) :
    Prop where
  cleared : allocated (free h.mem r.1) d = false
  frame : ∀ x, x ≠ d → free h.mem r.1 x = h.mem x
  again : ∀ fuel stale p h', malloc big fuel stale r.2 { h with mem := free h.mem r.1 } = some (p, h') →
    h'.allocId = h.allocId

variable {big : MultibootMmapEntry} {m m' : Mem} {h h' h₀ : HeapState} {d e p stale : Word}
variable {size : BitVec 64} {live : List LiveRange} {o : Origin} {origin : Word → Origin}
variable {r : LiveRange} {s t : Session} {call : HeapCall}

theorem noteOrigin_malloc : noteOrigin ⟨h, live⟩ (.malloc stale size)
    ⟨h', if p = mallocFailed then live else (p, size) :: live⟩ origin =
      if p = mallocFailed then origin else Function.update origin p (originOf h h' p) := by
  split
  · cases live with
    | nil => rfl
    | cons r live => exact if_pos rfl
  · exact if_neg (Nat.succ_ne_self _)

theorem noteOrigin_new :
    noteOrigin ⟨h, live⟩ (.malloc stale size) ⟨h', (p, size) :: live⟩ origin p = originOf h h' p := by
  have placed : live.length + 1 ≠ live.length := Nat.succ_ne_self _
  rw [noteOrigin, if_neg placed, Function.update_self]

theorem noteOrigin_free : noteOrigin s (.free p) t origin = origin := rfl

theorem noteOrigin_store {x : Word} {b : Byte} : noteOrigin s (.store x b) t origin = origin := rfl

structure Known (big : MultibootMmapEntry) (m : Mem) (p : Word) (o : Origin) : Prop where
  header : Header big m o.block
  place : p = if o.fresh then o.block + 4 * sizeofAllocStruct else advance o.block sizeofAllocStruct

theorem Known.transfer
    (kept : ∀ e, Header big m e → checkMagic m' e = true ∧ blockSize m' e = blockSize m e)
    (known : Known big m p o) : Known big m' p o :=
  ⟨known.header.transfer kept, known.place⟩

theorem malloc_kept (bounded : StridesBounded big ⟨h, live⟩ (.malloc stale size))
    (result : MallocResult big stale size h p h') : ∀ e, Header big h.mem e →
      checkMagic h'.mem e = true ∧ blockSize h'.mem e = blockSize h.mem e := by
  cases result with
  | failed => exact fun e header => ⟨header.magic, rfl⟩
  | reused header => exact flag_kept bounded.1 header
  | @fresh d prev visited region unmarked room before =>
    have bound := bounded.2 stale size rfl d visited region unmarked room
    exact fresh_kept size bounded.1 visited unmarked before (by omega)

theorem malloc_known (bounded : StridesBounded big ⟨h, live⟩ (.malloc stale size))
    (result : MallocResult big stale size h p h') (success : p ≠ mallocFailed) :
    Known big h'.mem p (originOf h h' p) := by
  have kept := malloc_kept bounded result
  cases result with
  | failed => exact absurd rfl success
  | @reused d header =>
    have block : advance d sizeofAllocStruct - 28 * sizeofAllocStruct = d := by
      rw [advance]
      ring
    rw [originOf, if_pos rfl, block]
    exact ⟨header.transfer kept, rfl⟩
  | @fresh d prev visited region unmarked room before =>
    rw [originOf, if_neg writeHeader_counts, free_fresh]
    exact ⟨⟨visited.transfer kept, region, writeHeader_magic⟩, rfl⟩

theorem free_cases (m : Mem) (p : Word) : free m p = m ∨ free m p = store8 m (p - 4 * sizeofAllocStruct) 0 := by
  rw [free]
  split
  · split
    · exact .inr rfl
    · exact .inl rfl
  · exact .inl rfl

theorem free_kept (fits : StridesFit big m) (owns : Owns big m r d) : ∀ e, Header big m e →
    checkMagic (free m r.1) e = true ∧ blockSize (free m r.1) e = blockSize m e := by
  rcases owns.place with fresh | reused
  · rw [free_of_fresh owns fresh]
    exact flag_kept fits owns.header
  · rcases free_of_reused fits owns.header reused with same | ⟨eq, low, high⟩
    · rw [same]
      exact fun e header => ⟨header.magic, rfl⟩
    · rw [eq]
      exact interior_kept fits owns.header low high

/-- What the runs keep: every live range has its block, and the record is right. -/
structure Recorded (big : MultibootMmapEntry) (s : Session) (origin : Word → Origin) : Prop where
  owned : EachOwned (Owns big s.heap.mem) s.live
  known : ∀ r ∈ s.live, Known big s.heap.mem r.1 (origin r.1)

theorem Recorded.step (recorded : Recorded big s origin) (guard : SafeCall big s call)
    (step : HeapStep big s call t) : Recorded big t (noteOrigin s call t origin) := by
  refine ⟨step_owned guard recorded.owned step, ?_⟩
  have known := recorded.known
  have bounded := guard.bounded
  cases step with
  | @malloc h h' live size fuel stale p run =>
    have result := malloc_result run
    have old : ∀ r ∈ live, Known big h'.mem r.1 (origin r.1) :=
      fun r hr => (known r hr).transfer (malloc_kept bounded result)
    rw [noteOrigin_malloc]
    split
    next => exact old
    next success =>
      have new := malloc_known bounded result success
      refine List.forall_mem_cons.mpr ⟨?_, ?_⟩
      · rwa [Function.update_self]
      · intro r hr
        obtain same | other := eq_or_ne r.1 p
        · rwa [same, Function.update_self]
        · rw [Function.update_of_ne other]
          exact old r hr
  | @free h l₁ l₂ p size =>
    obtain ⟨d, owns⟩ := recorded.owned.exists_owner (List.mem_append_right l₁ List.mem_cons_self)
    intro r hr
    have mem : r ∈ l₁ ++ (p, size) :: l₂ := by
      simp only [List.mem_append, List.mem_cons] at hr ⊢
      exact hr.imp_right .inr
    rw [noteOrigin_free]
    exact (known r mem).transfer (free_kept (r := (p, size)) bounded.1 owns)
  | store mem inside =>
    obtain ⟨d, owns⟩ := recorded.owned.exists_owner mem
    obtain ⟨low, high⟩ := owns.interior bounded.1 inside
    intro r hr
    rw [noteOrigin_store]
    exact (known r hr).transfer (interior_kept bounded.1 owns.header low high)

theorem reach_recorded {s : Session × (Word → Origin)}
    (run : (originSystem big h₀).Reach (fun s call => SafeCall big s.1 call) s) :
    Recorded big s.1 s.2 := by
  apply run.invariant (I := fun s => Recorded big s.1 s.2)
  · rintro ⟨s, origin⟩ ⟨first, _⟩
    obtain rfl : s = ⟨setupRoot big h₀, []⟩ := first
    exact ⟨.nil, fun _ hr => absurd hr List.not_mem_nil⟩
  · rintro ⟨s, origin⟩ call ⟨t, origin'⟩ _ recorded guard ⟨step, noted⟩
    obtain rfl : origin' = noteOrigin s call t origin := noted
    exact recorded.step guard step

/-- A call whose walk meets a block for it places none. -/
theorem malloc_reuses {fuel : Nat} {l : List Word} (blocks : Blocks big h.mem (firstHeader big) l e)
    (mem : d ∈ l) (fits : suits h.mem size d = true)
    (run : malloc big fuel stale size h = some (p, h')) : h'.allocId = h.allocId := by
  have result := mallocLoop_outcome blocks run
  obtain ⟨b, found⟩ : ∃ b, l.find? (suits h.mem size) = some b :=
    Option.isSome_iff_exists.mp (List.find?_isSome.mpr ⟨d, mem, fits⟩)
  rw [outcome, found] at result
  exact congrArg (fun r => r.2.allocId) result

theorem checkMagic_clear {x : Word} (unmarked : checkMagic m d = false) :
    checkMagic (store8 m x 0) d = false := by
  by_contra marked
  have cleared : store8 m x 0 x = 0 := store8_same m x 0
  have magic := Bool.eq_true_of_not_eq_false marked
  simp only [checkMagic, Bool.and_eq_true, beq_iff_eq] at magic
  have away (k : Word) (b : Byte) (some : b ≠ 0) (byte : store8 m x 0 (d + k) = b) : m (d + k) = b := by
    rw [← byte, store8_other]
    rintro rfl
    exact some (byte.symm.trans cleared)
  obtain ⟨⟨⟨⟨⟨b0, b1⟩, b2⟩, b3⟩, b4⟩, b5⟩ := magic
  rw [checkMagic, away _ _ (by decide) b0, away _ _ (by decide) b1, away _ _ (by decide) b2,
    away _ _ (by decide) b3, away _ _ (by decide) b4, away _ _ (by decide) b5] at unmarked
  cases unmarked

theorem free_again {fuel : Nat} (fits : StridesFit big h.mem) (header : Header big h.mem d)
    (large : size.toNat ≤ (blockSize h.mem d).toNat)
    (run : malloc big fuel stale size { h with mem := store8 h.mem d 0 } = some (p, h')) :
    h'.allocId = h.allocId := by
  obtain ⟨l, e, blocks⟩ := blocks_exist fits .refl
  have kept := flag_kept (b := 0) fits header
  have walk : Blocks big (store8 h.mem d 0) (firstHeader big) l e :=
    (blocks.walked.transfer fun b hb => kept b (blocks.walked.header .refl hb)).blocks
      fun region => checkMagic_clear (blocks.ends region)
  refine malloc_reuses (h := { h with mem := store8 h.mem d 0 }) walk (mem_of_header blocks header) ?_ run
  have isFree : allocated (store8 h.mem d 0) d = false := by
    rw [allocated, store8_same]
    rfl
  rw [suits, isFree, (kept d header).2, Bool.not_false, Bool.true_and, decide_eq_true_eq,
    BitVec.le_def]
  exact large.trans (signExtend_ge _)

/-- In a run of safe calls, freeing a live pointer undoes its `malloc` if and only if that call
placed a fresh block. -/
theorem free_undoes_iff {s : Session × (Word → Origin)}
    (run : (originSystem big h₀).Reach (fun s call => SafeCall big s.1 call) s)
    (fits : StridesFit big s.1.heap.mem) (mem : r ∈ s.1.live) :
    FreeUndoes big s.1.heap r (s.2 r.1).block ↔ (s.2 r.1).fresh = true := by
  obtain ⟨owned, known⟩ := reach_recorded run
  obtain ⟨header, place⟩ := known r mem
  obtain ⟨d, owns⟩ := owned.exists_owner mem
  have either : r.1 = (s.2 r.1).block + 4 * sizeofAllocStruct ∨
      r.1 = advance (s.2 r.1).block sizeofAllocStruct := by
    split at place
    next => exact .inl place
    next => exact .inr place
  obtain rfl : d = (s.2 r.1).block := place_unique fits owns.header header owns.place either
  constructor
  · rintro ⟨cleared, _, _⟩
    by_contra reused
    rw [if_neg reused] at place
    have taken : allocated (free s.1.heap.mem r.1) (s.2 r.1).block = true := by
      rcases free_of_reused fits header place with same | ⟨eq, low, _⟩
      · rw [same]
        exact owns.taken
      · have away : (s.2 r.1).block ≠ (s.2 r.1).block + 672 := by
          intro same
          rw [← same] at low
          omega
        rw [eq, allocated, store8_other away]
        exact owns.taken
    rw [taken] at cleared
    cases cleared
  · intro fresh
    rw [if_pos fresh] at place
    have freed := free_of_fresh owns place
    refine ⟨?_, fun x other => by rw [freed, store8_other other], ?_⟩
    · rw [freed, allocated, store8_same]
      rfl
    · intro fuel stale p h' run
      rw [freed] at run
      exact free_again fits header owns.large run

theorem sample_reach : ∃ s, (originSystem sampleRegion zeroedHeap).Reach
      (fun s call => SafeCall sampleRegion s.1 call) s ∧
    s.1.live = [(0x20008C, 16)] ∧ SampleBlock s.1.heap ∧ s.2 0x20008C = ⟨0x20001C, true⟩ := by
  obtain ⟨h, _, served, block, _⟩ := sample_mallocs
  have first : HeapStep sampleRegion ⟨setupRoot sampleRegion zeroedHeap, []⟩ (.malloc 0x1000 16)
      ⟨h, [(0x20008C, 16)]⟩ := .malloc served
  have start : (originSystem sampleRegion zeroedHeap).Reach
      (fun s call => SafeCall sampleRegion s.1 call)
      (⟨setupRoot sampleRegion zeroedHeap, []⟩, fun _ => ⟨0, false⟩) := .trackedStart rfl
  refine ⟨_, start.trackedNext ⟨sample_bounded, sampleRegion_harmless⟩ first, rfl, block, ?_⟩
  have counted : h.allocId ≠ (setupRoot sampleRegion zeroedHeap).allocId := by
    rw [block.counter]
    decide
  have noted : originOf (setupRoot sampleRegion zeroedHeap) h 0x20008C = ⟨0x20001C, true⟩ :=
    if_neg counted
  dsimp only
  rw [noteOrigin_new, noted]

theorem free_undoes_first : ∃ s, (originSystem sampleRegion zeroedHeap).Reach
      (fun s call => SafeCall sampleRegion s.1 call) s ∧
    s.1.live = [(0x20008C, 16)] ∧ FreeUndoes sampleRegion s.1.heap (0x20008C, 16) 0x20001C := by
  obtain ⟨s, run, live, block, origin⟩ := sample_reach
  have undoes := (free_undoes_iff run block.fits (live ▸ List.mem_cons_self)).mpr
    (congrArg Origin.fresh origin)
  rw [origin] at undoes
  exact ⟨s, run, live, undoes⟩

/-- The second of two equal requests gets the block back, and a pointer that frees nothing. -/
theorem free_misses : ¬∀ big h₀, ∀ s, (originSystem big h₀).Reach anyStep s →
    ∀ r ∈ s.1.live, FreeUndoes big s.1.heap r (s.2 r.1).block := by
  have facts : (malloc sampleRegion 1 0x1000 16 (setupRoot sampleRegion zeroedHeap)).any fun r =>
      r.1 = 0x20008C && (malloc sampleRegion 1 0x1000 16
        { r.2 with mem := free r.2.mem 0x20008C }).any fun q =>
          q.1 = 0x20032C && q.2.allocId = r.2.allocId &&
            allocated (free q.2.mem 0x20032C) 0x20001C := by
    decide +kernel
  intro claim
  obtain ⟨⟨p, h⟩, served, facts⟩ := (Option.any_eq_true _ _).mp facts
  obtain ⟨placed, facts⟩ := Bool.and_eq_true_iff.mp facts
  obtain rfl : p = 0x20008C := of_decide_eq_true placed
  obtain ⟨⟨q, h'⟩, servedAgain, facts⟩ := (Option.any_eq_true _ _).mp facts
  simp only [Bool.and_eq_true, decide_eq_true_eq] at facts
  obtain ⟨⟨rfl, counter⟩, taken⟩ := facts
  have first : HeapStep sampleRegion ⟨setupRoot sampleRegion zeroedHeap, []⟩ (.malloc 0x1000 16)
      ⟨h, [(0x20008C, 16)]⟩ := .malloc served
  have second : HeapStep sampleRegion ⟨h, [(0x20008C, 16)]⟩ (.free 0x20008C)
      ⟨{ h with mem := free h.mem 0x20008C }, []⟩ :=
    @HeapStep.free sampleRegion h [] [] 0x20008C 16
  have third : HeapStep sampleRegion ⟨{ h with mem := free h.mem 0x20008C }, []⟩ (.malloc 0x1000 16)
      ⟨h', [(0x20032C, 16)]⟩ := .malloc servedAgain
  have start : (originSystem sampleRegion zeroedHeap).Reach anyStep
      (⟨setupRoot sampleRegion zeroedHeap, []⟩, fun _ => ⟨0, false⟩) := .trackedStart rfl
  have run := ((start.trackedNext trivial first).trackedNext trivial second).trackedNext trivial third
  have cleared := (claim sampleRegion zeroedHeap _ run (0x20032C, 16) List.mem_cons_self).cleared
  have origin : originOf { h with mem := free h.mem 0x20008C } h' 0x20032C = ⟨0x20001C, false⟩ :=
    if_pos counter
  dsimp only at cleared
  rw [noteOrigin_new, origin, taken] at cleared
  cases cleared

end X86Os.Heap
