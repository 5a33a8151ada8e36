import X86Os.Lai.HashContents

/-!
# Insertions and removals

Growing carries every element over and keeps its index. An insertion adds one
entry, a removal through a cursor takes the entry away that the cursor shows, and
neither meets an assertion.
-/

namespace X86Os.Lai

open Library.Memory Library.Slots
set_option autoImplicit false

variable {α : Type} {t t' : Hashtable α} {h : Word} {elem : α} {n m k i : Nat}

/-! ### Growing -/

/-- The new tables after the loop has gone over the first `k` elements. -/
structure Carried (t : Hashtable α) (n m k : Nat) (tabs : GrownTabs α) : Prop where
  ptrs : tabs.newElemPtrTab.length = n
  hashes : tabs.newElemHashTab.length = n
  buckets : tabs.newBucketTab.length = m
  entry : ∀ i, entryOf tabs.newElemPtrTab tabs.newElemHashTab i = if i < k then t.entry i else none
  placed : (tabs.newBucketTab.filterMap slot).Perm
    ((List.range k).filterMap fun i => (t.entry i).map fun _ => i)

theorem Carried.begin (t : Hashtable α) (n m : Nat) :
    Carried t n m 0 ⟨List.replicate n none, List.replicate n 0, List.replicate m (-1)⟩ := by
  constructor
  case ptrs => exact List.length_replicate
  case hashes => exact List.length_replicate
  case buckets => exact List.length_replicate
  case entry =>
    intro i
    apply entryOf_eq_none
    rw [List.getElem?_replicate]
    split_ifs <;> rfl
  case placed => simp [slot]

theorem Carried.step {tabs : GrownTabs α} {j : Nat} (sound : Sound t) (carried : Carried t n m k tabs)
    (old : k < t.elemCapacity) (wider : t.elemCapacity ≤ n) (room : t.elemCapacity ≤ m)
    (power : m = 2 ^ j) (narrow : j < 32) :
    ∃ tabs', carryOver t m tabs k = .ok tabs' ∧ Carried t n m (k + 1) tabs' := by
  obtain ⟨ptr, atPtr⟩ : ∃ ptr, t.elemPtrTab[k]? = some ptr :=
    ⟨_, List.getElem?_eq_getElem (by rwa [sound.ptrs])⟩
  obtain ⟨hash, atHash⟩ : ∃ hash, t.elemHashTab[k]? = some hash :=
    ⟨_, List.getElem?_eq_getElem (by rwa [sound.hashes])⟩
  cases ptr with
  | none =>
    have free : t.entry k = none := entryOf_eq_none (by rw [atPtr]; rfl)
    refine ⟨tabs, by rw [carryOver, readAt_of atPtr]; rfl, carried.ptrs, carried.hashes,
      carried.buckets, ?_, ?_⟩
    · intro i
      rw [carried.entry]
      obtain rfl | other := eq_or_ne i k
      · rw [if_neg (lt_irrefl i), if_pos (Nat.lt_succ_self i), free]
      · simp only [Nat.lt_succ_iff_lt_or_eq, other, or_false]
    · rw [List.range_succ, List.filterMap_append, List.filterMap_cons_none (by rw [free]; rfl),
        List.filterMap_nil, List.append_nil]
      exact carried.placed
  | some elem =>
    have entry : t.entry k = some (hash, elem) := entryOf_eq_some.mpr ⟨atPtr, atHash⟩
    have few : (tabs.newBucketTab.filterMap slot).length < m := by
      have atMost := (List.length_filterMap_le (fun i => (t.entry i).map fun _ => i) (List.range k))
      rw [carried.placed.length_eq]
      rw [List.length_range] at atMost
      omega
    obtain ⟨buckets, put, length, placed⟩ :=
      placeBucket_spec power narrow carried.buckets few hash k
    refine ⟨⟨tabs.newElemPtrTab.set k (some elem), tabs.newElemHashTab.set k hash, buckets⟩, ?_, ?_⟩
    · rw [carryOver, readAt_of atPtr, ok_bind]
      dsimp only
      rw [readAt_of atHash, ok_bind, put]
      rfl
    constructor
    case ptrs => rw [List.length_set, carried.ptrs]
    case hashes => rw [List.length_set, carried.hashes]
    case buckets => exact length
    case entry =>
      intro i
      obtain rfl | other := eq_or_ne i k
      · rw [if_pos (Nat.lt_succ_self i), entry]
        apply entryOf_eq_some.mpr
        exact ⟨List.getElem?_set_self (by rw [carried.ptrs]; omega),
          List.getElem?_set_self (by rw [carried.hashes]; omega)⟩
      · rw [entryOf_set_ne other, carried.entry]
        simp only [Nat.lt_succ_iff_lt_or_eq, other, or_false]
    case placed =>
      rw [List.range_succ, List.filterMap_append,
        List.filterMap_cons_some (b := k) (by rw [entry]; rfl), List.filterMap_nil]
      exact placed.trans ((carried.placed.cons k).trans (List.perm_append_singleton _ _).symm)

theorem carryOver_all {j : Nat} (sound : Sound t) (wider : t.elemCapacity ≤ n)
    (room : t.elemCapacity ≤ m) (power : m = 2 ^ j) (narrow : j < 32) (upto : k ≤ t.elemCapacity) :
    ∃ tabs, (List.range k).foldlM (carryOver t m)
      ⟨List.replicate n none, List.replicate n 0, List.replicate m (-1)⟩ = .ok tabs ∧
        Carried t n m k tabs := by
  induction k with
  | zero => exact ⟨_, rfl, .begin t n m⟩
  | succ k ih =>
    obtain ⟨tabs, loop, carried⟩ := ih (by omega)
    obtain ⟨tabs', last, carried'⟩ := carried.step sound upto wider room power narrow
    refine ⟨tabs', ?_, carried'⟩
    rw [List.range_succ, List.foldlM_append, loop, ok_bind, List.foldlM_cons, last]
    rfl

theorem Sound.entry_of_le (sound : Sound t) (outside : t.elemCapacity ≤ i) : t.entry i = none := by
  apply entryOf_eq_none
  rw [List.getElem?_eq_none (by rwa [sound.ptrs])]
  rfl

theorem filterMap_beyond {f : Nat → Option α} {cap : Nat} (wider : cap ≤ n)
    (none : ∀ i, cap ≤ i → f i = none) :
    (List.range n).filterMap f = (List.range cap).filterMap f := by
  obtain ⟨extra, rfl⟩ := Nat.exists_eq_add_of_le wider
  have rest : ((List.range extra).map (cap + ·)).filterMap f = [] := by
    rw [List.filterMap_eq_nil_iff]
    intro i hi
    obtain ⟨d, _, rfl⟩ := List.mem_map.mp hi
    exact none _ (Nat.le_add_right cap d)
  rw [List.range_add, List.filterMap_append, rest, List.append_nil]

/-- Where its requests are served, the grown table is sound and holds the same. -/
theorem laiHashtableGrow_spec {j : Nat} (sound : Sound t) (wider : t.elemCapacity ≤ n)
    (more : t.bucketCapacity ≤ m) (elems : n = 2 ^ (j + 1)) (power : m = 2 ^ (j + 2)) :
    laiHashtableGrow t n m = .error .refused ∨
      ∃ t', laiHashtableGrow t n m = .ok t' ∧ Sound t' ∧ t'.contents = t.contents ∧
        t'.numElems = t.numElems ∧ t'.elemCapacity = n := by
  rw [laiHashtableGrow, laiEnsure_of wider, ok_bind, laiEnsure_of more, ok_bind, laihostMalloc]
  split_ifs with first
  swap; · exact .inl rfl
  rw [ok_bind, ok_bind, laihostMalloc]
  split_ifs with second
  swap; · exact .inl rfl
  right
  have narrow : j + 2 < 30 := by
    have fits := second
    rw [power] at fits
    apply (Nat.pow_lt_pow_iff_right (a := 2) (by decide)).mp
    omega
  have half : n ≤ m := by
    rw [elems, power]
    exact Nat.pow_le_pow_right (by decide) (by omega)
  obtain ⟨tabs, loop, carried⟩ :=
    carryOver_all sound wider (wider.trans half) power (by omega) le_rfl
  have same : ∀ i, entryOf tabs.newElemPtrTab tabs.newElemHashTab i = t.entry i := by
    intro i
    rw [carried.entry]
    split_ifs with old
    · rfl
    · exact (sound.entry_of_le (not_lt.mp old)).symm
  have entries : (List.range n).filterMap (entryOf tabs.newElemPtrTab tabs.newElemHashTab) =
      t.entries := by
    rw [funext same, Hashtable.entries]
    exact filterMap_beyond wider fun i => sound.entry_of_le
  rw [ok_bind, loop, ok_bind]
  refine ⟨_, rfl, ?_, congrArg Multiset.ofList entries, rfl, rfl⟩
  constructor
  case sizes => exact .inr ⟨j, by omega, elems, power⟩
  case ptrs => exact carried.ptrs
  case hashes => exact carried.hashes
  case buckets => exact carried.buckets
  case count => exact sound.count.trans (congrArg _ (congrArg _ entries.symm))
  case room =>
    intro _
    obtain ⟨none, _⟩ | ⟨_, _, some, _⟩ := sound.sizes
    · have empty : t.entries = [] := by rw [Hashtable.entries, none]; rfl
      have zero : t.numElems = 0 := by rw [sound.count, empty]; rfl
      have pos : 0 < n := by rw [elems]; exact Nat.two_pow_pos _
      show t.numElems < n
      omega
    · have before := sound.room (by rw [some]; exact Nat.two_pow_pos _)
      show t.numElems < n
      omega
  case placed =>
    have live : (List.range n).filterMap (fun i => (t.entry i).map fun _ => i) = t.live :=
      filterMap_beyond wider fun i hi => by rw [sound.entry_of_le hi]; rfl
    have here : Hashtable.live ⟨n, m, t.numElems, tabs.newElemPtrTab, tabs.newElemHashTab,
        tabs.newBucketTab⟩ = t.live := by
      rw [← live, Hashtable.live, Hashtable.entry, funext same]
    rw [here]
    exact carried.placed

/-! ### One more element -/

theorem growIfFull_spec (sound : Sound t) :
    growIfFull t = .error .refused ∨
      ∃ t', growIfFull t = .ok t' ∧ Sound t' ∧ t'.contents = t.contents ∧
        t'.numElems + 1 < t'.elemCapacity := by
  have held : 0 ≤ t.numElems := by rw [sound.count]; exact Int.natCast_nonneg _
  rw [growIfFull]
  obtain ⟨noElems, noBuckets⟩ | ⟨j, _, elems, buckets⟩ := sound.sizes
  · rw [if_pos (.inl noElems)]
    obtain full | ⟨t', grown, sound', same, count, capacity⟩ :=
      laiHashtableGrow_spec (n := 2) (m := 4) (j := 0) sound (by omega) (by omega) rfl rfl
    · exact .inl full
    · have none : t.numElems = 0 := by
        have empty : t.entries = [] := by rw [Hashtable.entries, noElems]; rfl
        rw [sound.count, empty]
        rfl
      exact .inr ⟨t', grown, sound', same, by rw [count, capacity, none]; decide⟩
  · have pos : 0 < 2 ^ (j + 1) := Nat.two_pow_pos _
    have pos' : 0 < 2 ^ (j + 2) := Nat.two_pow_pos _
    have room := sound.room (by rwa [elems])
    rw [if_neg (by omega)]
    split_ifs with full
    · obtain refused | ⟨t', grown, sound', same, count, capacity⟩ :=
        laiHashtableGrow_spec (n := 2 * t.elemCapacity) (m := 2 * t.bucketCapacity) (j := j + 1)
          sound (by omega) (by omega) (by rw [elems, pow_succ' 2 (j + 1)])
          (by rw [buckets, pow_succ' 2 (j + 2)])
      · exact .inl refused
      · exact .inr ⟨t', grown, sound', same, by rw [count, capacity]; push_cast; omega⟩
    · exact .inr ⟨t, rfl, sound, rfl, by omega⟩

theorem Sound.entry_isSome (sound : Sound t) (inside : i < t.elemCapacity) :
    (t.entry i).isSome ↔ ∃ e, t.elemPtrTab[i]? = some (some e) := by
  have inHashes : i < t.elemHashTab.length := by rwa [sound.hashes]
  rw [Option.isSome_iff_exists]
  constructor
  · rintro ⟨e, entry⟩
    exact ⟨_, (entryOf_eq_some.mp entry).1⟩
  · rintro ⟨e, ptr⟩
    exact ⟨(_, e), entryOf_eq_some.mpr ⟨ptr, List.getElem?_eq_getElem inHashes⟩⟩

theorem length_live (t : Hashtable α) : t.live.length = t.entries.length := by
  rw [Hashtable.live, Hashtable.entries, List.length_filterMap_eq_countP,
    List.length_filterMap_eq_countP]
  simp

theorem Sound.exists_free_slot (sound : Sound t) (room : t.numElems < t.elemCapacity) :
    t.elemPtrTab.findIdx Option.isNone < t.elemCapacity := by
  rw [← sound.ptrs, List.findIdx_lt_length]
  by_contra full
  have every : t.entries.length = t.elemCapacity := by
    have all : ∀ i ∈ List.range t.elemCapacity, (t.entry i).isSome := by
      intro i hi
      have inside := List.mem_range.mp hi
      have inPtrs : i < t.elemPtrTab.length := by rwa [sound.ptrs]
      rw [sound.entry_isSome inside]
      obtain taken | ⟨e, taken⟩ := Option.eq_none_or_eq_some t.elemPtrTab[i]
      · exact absurd ⟨_, List.getElem_mem inPtrs, by rw [taken]; rfl⟩ full
      · exact ⟨e, by rw [List.getElem?_eq_getElem inPtrs, taken]⟩
    rw [Hashtable.entries, List.length_filterMap_eq_countP, List.countP_eq_length.mpr all,
      List.length_range]
  rw [sound.count] at room
  omega

/-- An insertion adds the element, unless a request is refused. -/
theorem laiHashtableInsert_spec (sound : Sound t) (h : Word) (elem : α) :
    laiHashtableInsert t h elem = .error .refused ∨
      ∃ t', laiHashtableInsert t h elem = .ok t' ∧ Sound t' ∧
        t'.contents = (h, elem) ::ₘ t.contents := by
  rw [laiHashtableInsert]
  obtain refused | ⟨u, grown, sound', same, room⟩ := growIfFull_spec sound
  · left
    rw [refused]
    rfl
  right
  rw [grown, ok_bind]
  have inside := sound'.exists_free_slot (by omega)
  generalize free : u.elemPtrTab.findIdx Option.isNone = k at inside
  obtain ⟨j, small, elems, power⟩ : ∃ j, j < 29 ∧ u.elemCapacity = 2 ^ (j + 1) ∧
      u.bucketCapacity = 2 ^ (j + 2) := by
    obtain ⟨none, _⟩ | some := sound'.sizes
    · omega
    · exact some
  have few : (u.bucketTab.filterMap slot).length < u.bucketCapacity := by
    have half : u.elemCapacity ≤ u.bucketCapacity := by
      rw [elems, power]
      exact Nat.pow_le_pow_right (by decide) (by omega)
    have count := sound'.count
    rw [sound'.placed.length_eq, length_live]
    omega
  obtain ⟨buckets, put, length, placed⟩ :=
    placeBucket_spec power (by omega) sound'.buckets few h k
  have inPtrs : k < u.elemPtrTab.length := by rwa [sound'.ptrs]
  have isFree : u.elemPtrTab[k]? = some none := by
    have stops : u.elemPtrTab.findIdx Option.isNone < u.elemPtrTab.length := by rwa [free]
    have holds := List.findIdx_getElem (w := stops)
    simp only [free] at holds
    rw [List.getElem?_eq_getElem inPtrs, Option.isNone_iff_eq_none.mp holds]
  have gained : entryOf (u.elemPtrTab.set k (some elem)) (u.elemHashTab.set k h) k = some (h, elem) :=
    entryOf_eq_some.mpr ⟨List.getElem?_set_self inPtrs,
      List.getElem?_set_self (by rwa [sound'.hashes])⟩
  have before : u.entry k = none := entryOf_eq_none (by rw [isFree]; rfl)
  have entries : ((List.range u.elemCapacity).filterMap
      (entryOf (u.elemPtrTab.set k (some elem)) (u.elemHashTab.set k h))).Perm
        ((h, elem) :: u.entries) :=
    filterMap_gain List.nodup_range (List.mem_range.mpr inside) before gained
      fun i _ other => entryOf_set_ne other
  dsimp only
  rw [laiEnsure_of inside, ok_bind, put, ok_bind]
  refine ⟨_, rfl, ?_, ?_⟩
  · constructor
    case sizes => exact sound'.sizes
    case ptrs => exact (List.length_set ..).trans sound'.ptrs
    case hashes => exact (List.length_set ..).trans sound'.hashes
    case buckets => exact length
    case count =>
      show u.numElems + 1 = (((List.range u.elemCapacity).filterMap (entryOf _ _)).length : Int)
      rw [entries.length_eq, sound'.count, List.length_cons, Nat.cast_succ]
    case room => exact fun _ => room
    case placed =>
      apply placed.trans
      apply (sound'.placed.cons k).trans
      apply List.Perm.symm
      apply filterMap_gain List.nodup_range (List.mem_range.mpr inside)
      · rw [before]
        rfl
      · rw [Hashtable.entry, gained]
        rfl
      · intro i _ other
        rw [Hashtable.entry, entryOf_set_ne other]
        rfl
  · rw [← same]
    exact Multiset.coe_eq_coe.mpr entries

end X86Os.Lai
