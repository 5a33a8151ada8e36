import X86Os.Lai.HashUpdates
import X86Os.Library.Runs

/-!
# Searches, and runs of a hash table

A search by hash meets exactly the elements with that hash, each of them once.
Over any run of insertions and removals the table holds what was inserted and
not removed, and no assertion of it fails.
-/

namespace X86Os.Lai

open Library.Memory Library.Slots Library.Runs
set_option autoImplicit false

variable {α β : Type} {t t' : Hashtable α} {h : Word} {elem : α} {i next : Nat}

def Hashtable.hit (t : Hashtable α) (h : Word) (i : Nat) : Option α :=
  (t.bucketTab[bucketAt t.bucketCapacity h i]?.bind slot).bind fun k =>
    (t.entry k).bind fun e => if e.1 = h then some e.2 else none

def Hashtable.hits (t : Hashtable α) (h : Word) (next left : Nat) : List (Nat × α) :=
  (List.range' next left).filterMap fun i => (t.hit h i).map fun elem => (i, elem)

theorem hits_succ_none {left : Nat} (miss : t.hit h next = none) :
    t.hits h next (left + 1) = t.hits h (next + 1) left := by
  rw [Hashtable.hits, List.range'_succ, List.filterMap_cons_none (by rw [miss]; rfl)]
  rfl

theorem hits_succ_some {left : Nat} (hit : t.hit h next = some elem) :
    t.hits h next (left + 1) = (next, elem) :: t.hits h (next + 1) left := by
  rw [Hashtable.hits, List.range'_succ, List.filterMap_cons_some (b := (next, elem)) (by rw [hit]; rfl)]
  rfl

theorem mem_hits {left : Nat} {p : Nat × α} :
    p ∈ t.hits h next left ↔ (next ≤ p.1 ∧ p.1 < next + left) ∧ t.hit h p.1 = some p.2 := by
  obtain ⟨i, elem⟩ := p
  simp only [Hashtable.hits, List.mem_filterMap, List.mem_range'_1, Option.map_eq_some_iff,
    Prod.mk.injEq]
  constructor
  · rintro ⟨_, bounds, _, hit, rfl, rfl⟩
    exact ⟨bounds, hit⟩
  · rintro ⟨bounds, hit⟩
    exact ⟨i, bounds, elem, hit, rfl, rfl⟩

/-- A bucket is free, or it refers to an occupied slot. -/
theorem Sound.bucket_cases (sound : Sound t) (inside : i < t.bucketCapacity) (h : Word) :
    ∃ k, t.bucketTab[bucketAt t.bucketCapacity h i]? = some k ∧
      (k < 0 ∧ t.hit h i = none ∨
        ∃ e : Word × α, 0 ≤ k ∧ k.toNat < t.elemCapacity ∧ t.entry k.toNat = some e ∧
          t.hit h i = if e.1 = h then some e.2 else none) := by
  have bound : bucketAt t.bucketCapacity h i < t.bucketTab.length := by
    rw [sound.bucketAt_mod inside, sound.buckets]
    exact Nat.mod_lt _ (Nat.zero_lt_of_lt inside)
  have found := List.getElem?_eq_getElem bound
  refine ⟨_, found, ?_⟩
  generalize t.bucketTab[bucketAt t.bucketCapacity h i] = k at found
  obtain free | used := lt_or_ge k 0
  · left
    exact ⟨free, by rw [Hashtable.hit, found, Option.bind_some, slot_of_neg free]; rfl⟩
  · right
    have placed : k.toNat ∈ t.bucketTab.filterMap slot :=
      List.mem_filterMap.mpr ⟨k, List.mem_of_getElem? found, slot_of_nonneg used⟩
    obtain ⟨j, hj, atJ⟩ := List.mem_filterMap.mp (sound.placed.mem_iff.mp placed)
    obtain ⟨e, entry, rfl⟩ := Option.map_eq_some_iff.mp atJ
    refine ⟨e, used, List.mem_range.mp hj, entry, ?_⟩
    rw [Hashtable.hit, found, Option.bind_some, slot_of_nonneg used, Option.bind_some, entry,
      Option.bind_some]

/-- An advance goes to the next hit. -/
theorem advanceFrom_spec (sound : Sound t) (h : Word) {left : Nat}
    (upto : next + left = t.bucketCapacity) :
    advanceFrom t h left next = .ok ((t.hits h next left).head?.map Prod.fst) := by
  induction left generalizing next with
  | zero => rfl
  | succ left ih =>
    obtain ⟨k, found, ⟨free, miss⟩ | ⟨e, used, _, entry, meets⟩⟩ :=
      sound.bucket_cases (i := next) (by omega) h
    · rw [advanceFrom, readAt_of found, ok_bind, if_neg (not_le.mpr free), ih (by omega),
        hits_succ_none miss]
    · rw [advanceFrom, readAt_of found, ok_bind, if_pos used,
        readAt_of (entryOf_eq_some.mp entry).2, ok_bind]
      split_ifs with same
      · rw [hits_succ_some (meets.trans (if_pos same))]
        rfl
      · rw [ih (by omega), hits_succ_none (meets.trans (if_neg same))]

theorem laiHashtableChainAdvance_spec (sound : Sound t) (h : Word) (upto : next ≤ t.bucketCapacity) :
    laiHashtableChainAdvance t h next =
      .ok ((t.hits h next (t.bucketCapacity - next)).head?.map Prod.fst) := by
  rw [laiHashtableChainAdvance, laiEnsure_of upto, ok_bind, advanceFrom_spec sound h (by omega)]

/-- Where an advance stops there is a hit. -/
theorem hit_of_advance (sound : Sound t) (advanced : laiHashtableChainAdvance t h next = .ok (some i)) :
    i < t.bucketCapacity ∧ ∃ elem, t.hit h i = some elem := by
  have upto : next ≤ t.bucketCapacity := by
    rw [laiHashtableChainAdvance, bind_eq_ok] at advanced
    obtain ⟨_, ensured, _⟩ := advanced
    exact laiEnsure_eq_ok.mp ensured
  rw [laiHashtableChainAdvance_spec sound h upto] at advanced
  obtain ⟨p, head, rfl⟩ := Option.map_eq_some_iff.mp (Except.ok.inj advanced)
  obtain ⟨bounds, hit⟩ := mem_hits.mp (List.mem_of_mem_head? head)
  exact ⟨by omega, _, hit⟩

/-- The slot behind a hit. -/
theorem chainSlot_spec (sound : Sound t) (inside : i < t.bucketCapacity) (hit : t.hit h i = some elem) :
    ∃ k : Nat, chainSlot t h i = .ok k ∧ k < t.elemCapacity ∧ t.entry k = some (h, elem) ∧
      ∃ bucket, t.bucketTab[bucketAt t.bucketCapacity h i]? = some bucket ∧ slot bucket = some k := by
  obtain ⟨k, found, ⟨_, miss⟩ | ⟨⟨g, e⟩, used, bound, entry, meets⟩⟩ := sound.bucket_cases inside h
  · rw [miss] at hit
    cases hit
  · rw [meets] at hit
    split_ifs at hit with same
    obtain rfl : e = elem := Option.some.inj hit
    obtain rfl : g = h := same
    refine ⟨k.toNat, ?_, bound, entry, k, found, slot_of_nonneg used⟩
    rw [chainSlot, laiEnsure_of inside, ok_bind, readAt_of found, ok_bind, laiEnsure_of used, ok_bind]

theorem laiHashtableChainGet_spec (sound : Sound t) (inside : i < t.bucketCapacity)
    (hit : t.hit h i = some elem) : laiHashtableChainGet t h i = .ok elem := by
  obtain ⟨k, at_, _, entry, _⟩ := chainSlot_spec sound inside hit
  rw [laiHashtableChainGet, at_, ok_bind, readAt_of (entryOf_eq_some.mp entry).1, ok_bind]

/-- A removal takes the entry away that the cursor shows. -/
theorem laiHashtableChainRemove_spec (sound : Sound t) (inside : i < t.bucketCapacity)
    (hit : t.hit h i = some elem) :
    ∃ t', laiHashtableChainRemove t h i = .ok t' ∧ Sound t' ∧
      t.contents = (h, elem) ::ₘ t'.contents := by
  obtain ⟨k, at_, bound, entry, bucket, found, refers⟩ := chainSlot_spec sound inside hit
  have member := List.mem_range.mpr bound
  have cleared : entryOf (t.elemPtrTab.set k none) t.elemHashTab k = none :=
    entryOf_eq_none (by rw [List.getElem?_set_self (by rwa [sound.ptrs])]; rfl)
  have others (j : Nat) (other : j ≠ k) :
      t.entry j = entryOf (t.elemPtrTab.set k none) t.elemHashTab j := by
    rw [Hashtable.entry, entryOf, entryOf, List.getElem?_set_ne other.symm]
  have entries : t.entries.Perm ((h, elem) :: (List.range t.elemCapacity).filterMap
      (entryOf (t.elemPtrTab.set k none) t.elemHashTab)) :=
    filterMap_gain List.nodup_range member cleared entry fun j _ => others j
  rw [laiHashtableChainRemove, at_, ok_bind]
  refine ⟨_, rfl, ?_, Multiset.coe_eq_coe.mpr entries⟩
  constructor
  case sizes => exact sound.sizes
  case ptrs => exact (List.length_set ..).trans sound.ptrs
  case hashes => exact sound.hashes
  case buckets => exact (List.length_set ..).trans sound.buckets
  case count =>
    have before := sound.count
    have longer := entries.length_eq
    rw [List.length_cons] at longer
    show t.numElems - 1 = (((List.range t.elemCapacity).filterMap
      (entryOf (t.elemPtrTab.set k none) t.elemHashTab)).length : Int)
    omega
  case room =>
    intro pos
    have before := sound.room pos
    show t.numElems - 1 < t.elemCapacity
    omega
  case placed =>
    have buckets := filterMap_clear (f := slot) (-1) found refers (slot_of_neg (by decide))
    have slots : t.live.Perm (k :: Hashtable.live { t with
        elemPtrTab := t.elemPtrTab.set k none
        bucketTab := t.bucketTab.set (bucketAt t.bucketCapacity h i) (-1)
        numElems := t.numElems - 1 }) := by
      apply filterMap_gain List.nodup_range member
      · rw [Hashtable.entry, cleared]
        rfl
      · rw [entry]
        rfl
      · intro j _ other
        rw [others j other]
        rfl
    exact (buckets.symm.trans (sound.placed.trans slots)).cons_inv

/-! ### The loops of the callers -/

theorem chainLoop_spec (sound : Sound t) (h : Word) (visit : Nat → α → Option β) {turns left : Nat}
    (upto : next + left = t.bucketCapacity) (enough : left < turns) :
    chainLoop t h visit turns next =
      .ok ((t.hits h next left).findSome? fun p => visit p.1 p.2) := by
  induction left generalizing next turns with
  | zero =>
    obtain ⟨turns, rfl⟩ := Nat.exists_eq_succ_of_ne_zero (by omega : turns ≠ 0)
    rw [chainLoop, laiHashtableChainAdvance_spec sound h (by omega)]
    rw [show t.bucketCapacity - next = 0 by omega]
    rfl
  | succ left ih =>
    obtain ⟨turns, rfl⟩ := Nat.exists_eq_succ_of_ne_zero (by omega : turns ≠ 0)
    cases hit : t.hit h next with
    | none =>
      have skip : chainLoop t h visit (turns + 1) (next + 1) =
          .ok ((t.hits h (next + 1) left).findSome? fun p => visit p.1 p.2) :=
        ih (by omega) (by omega)
      rw [chainLoop, laiHashtableChainAdvance_spec sound h (by omega)] at skip ⊢
      rw [show t.bucketCapacity - next = left + 1 by omega, hits_succ_none hit]
      rwa [show t.bucketCapacity - (next + 1) = left by omega] at skip
    | some elem =>
      rw [chainLoop, laiHashtableChainAdvance_spec sound h (by omega),
        show t.bucketCapacity - next = left + 1 by omega, hits_succ_some hit, ok_bind]
      dsimp only [List.head?_cons, Option.map_some]
      rw [laiHashtableChainGet_spec sound (by omega) hit, ok_bind, List.findSome?_cons]
      dsimp only
      cases visit next elem with
      | none => exact ih (by omega) (by omega)
      | some answer => rfl

theorem overChain_spec (sound : Sound t) (h : Word) (visit : Nat → α → Option β) :
    overChain t h visit =
      .ok ((t.hits h 0 t.bucketCapacity).findSome? fun p => visit p.1 p.2) :=
  chainLoop_spec sound h visit (Nat.zero_add _) (Nat.lt_succ_self _)

/-- The hits are the elements with the hash. -/
theorem hits_perm (sound : Sound t) (h : Word) :
    ((t.hits h 0 t.bucketCapacity).map Prod.snd).Perm
      (t.entries.filterMap fun e => if e.1 = h then some e.2 else none) := by
  have search : (t.hits h 0 t.bucketCapacity).map Prod.snd =
      (around t.bucketTab.length h.toNat).filterMap fun b =>
        t.bucketTab[b]?.bind fun bucket => (slot bucket).bind fun k =>
          (t.entry k).bind fun e => if e.1 = h then some e.2 else none := by
    rw [Hashtable.hits, List.map_filterMap, ← List.range_eq_range', around, List.filterMap_map,
      sound.buckets]
    apply List.filterMap_congr
    intro i hi
    rw [Option.map_map, Function.comp_apply, ← sound.bucketAt_mod (List.mem_range.mp hi)]
    show (t.hit h i).map id = _
    rw [Option.map_id, id, Hashtable.hit, Option.bind_assoc]
  have buckets : (t.bucketTab.filterMap fun bucket => (slot bucket).bind fun k =>
      (t.entry k).bind fun e => if e.1 = h then some e.2 else none) =
        (t.bucketTab.filterMap slot).filterMap fun k =>
          (t.entry k).bind fun e => if e.1 = h then some e.2 else none :=
    List.filterMap_filterMap.symm
  have slots : (t.live.filterMap fun k => (t.entry k).bind fun e => if e.1 = h then some e.2 else none) =
      t.entries.filterMap fun e => if e.1 = h then some e.2 else none := by
    rw [Hashtable.live, Hashtable.entries, List.filterMap_filterMap, List.filterMap_filterMap]
    apply List.filterMap_congr
    intro k _
    cases entry : t.entry k with
    | none => rfl
    | some e => simp [entry]
  rw [search, ← slots]
  apply (filterMap_around_perm _ _ _).trans
  rw [buckets]
  exact sound.placed.filterMap _

/-- The table holds an element under a hash exactly when the search for the hash meets it. -/
theorem Sound.mem_contents_iff (sound : Sound t) :
    (h, elem) ∈ t.contents ↔ ∃ i < t.bucketCapacity, t.hit h i = some elem := by
  have met : elem ∈ (t.hits h 0 t.bucketCapacity).map Prod.snd ↔
      ∃ i < t.bucketCapacity, t.hit h i = some elem := by
    rw [List.mem_map]
    constructor
    · rintro ⟨p, member, rfl⟩
      obtain ⟨bounds, hit⟩ := mem_hits.mp member
      exact ⟨p.1, by omega, hit⟩
    · rintro ⟨i, inside, hit⟩
      exact ⟨(i, elem), mem_hits.mpr ⟨⟨Nat.zero_le _, by omega⟩, hit⟩, rfl⟩
  rw [← met, (hits_perm sound h).mem_iff, List.mem_filterMap]
  constructor
  · intro member
    exact ⟨(h, elem), Multiset.mem_coe.mp member, if_pos rfl⟩
  · rintro ⟨⟨g, e⟩, member, same⟩
    split_ifs at same with hash
    obtain rfl : e = elem := Option.some.inj same
    obtain rfl : g = h := hash
    exact Multiset.mem_coe.mpr member

/-- A loop over a chain stops at an element for which it has an answer, or there is none. -/
theorem overChain_cases (sound : Sound t) (h : Word) (visit : Nat → α → Option β) :
    (overChain t h visit = .ok none ∧
      ∀ i < t.bucketCapacity, ∀ elem, t.hit h i = some elem → visit i elem = none) ∨
    ∃ i elem b, overChain t h visit = .ok (some b) ∧ i < t.bucketCapacity ∧
      t.hit h i = some elem ∧ visit i elem = some b := by
  rw [overChain_spec sound h visit]
  cases found : (t.hits h 0 t.bucketCapacity).findSome? fun p => visit p.1 p.2 with
  | none =>
    left
    refine ⟨rfl, fun i inside elem hit => ?_⟩
    exact List.findSome?_eq_none_iff.mp found (i, elem)
      (mem_hits.mpr ⟨⟨Nat.zero_le _, by omega⟩, hit⟩)
  | some b =>
    right
    obtain ⟨p, member, answer⟩ := List.exists_of_findSome?_eq_some found
    obtain ⟨bounds, hit⟩ := mem_hits.mp member
    exact ⟨p.1, p.2, b, rfl, by omega, hit, answer⟩

/-! ### Runs -/

/-- What a caller does with a table. Removals go through a cursor that an advance has just set. -/
inductive TableOp (α : Type)
  | insert (h : Word) (elem : α)
  | remove (h : Word) (next i : Nat) (elem : α)

/-- A table beside what was inserted into it and not removed. -/
def tableRuns [DecidableEq α] :
    System (Hashtable α × Multiset (Word × α)) (TableOp α) where
  init s := s = (.zeroed, 0)
  step
    | (t, held), .insert h elem, (t', held') =>
      laiHashtableInsert t h elem = .ok t' ∧ held' = (h, elem) ::ₘ held
    | (t, held), .remove h next i elem, (t', held') =>
      laiHashtableChainAdvance t h next = .ok (some i) ∧ laiHashtableChainGet t h i = .ok elem ∧
        laiHashtableChainRemove t h i = .ok t' ∧ held' = held.erase (h, elem)

section runs

variable [DecidableEq α] {held : Multiset (Word × α)}

theorem holds_of_run (run : tableRuns.Reach anyStep (t, held)) :
    Sound t ∧ t.contents = held := by
  apply run.invariant (I := fun s => Sound s.1 ∧ s.1.contents = s.2)
  · rintro _ rfl
    exact ⟨.zeroed, rfl⟩
  · rintro ⟨t, held⟩ op ⟨t', held'⟩ _ ⟨sound, same⟩ _ move
    dsimp only at sound same ⊢
    cases op with
    | insert h elem =>
      obtain ⟨inserted, rfl⟩ := move
      obtain refused | ⟨_, done, sound', added⟩ := laiHashtableInsert_spec sound h elem
      · rw [refused] at inserted
        cases inserted
      · obtain rfl := Except.ok.inj (done.symm.trans inserted)
        exact ⟨sound', by rw [added, same]⟩
    | remove h next i elem =>
      obtain ⟨advanced, got, removed, rfl⟩ := move
      obtain ⟨inside, e, hit⟩ := hit_of_advance sound advanced
      obtain rfl := Except.ok.inj ((laiHashtableChainGet_spec sound inside hit).symm.trans got)
      obtain ⟨_, done, sound', left⟩ := laiHashtableChainRemove_spec sound inside hit
      obtain rfl := Except.ok.inj (done.symm.trans removed)
      exact ⟨sound', by rw [← same, left, Multiset.erase_cons_head]⟩

/-- In every run a search by hash meets exactly the elements inserted with that hash and not
removed since, each as often as it was inserted, and every loop over the search sees them in the
same order. -/
theorem laiHashtable_search_exact (run : tableRuns.Reach anyStep (t, held)) (h : Word) :
    ∃ found : List (Nat × α),
      (found.map Prod.snd : Multiset α) = (held.filter (·.1 = h)).map Prod.snd ∧
        ∀ (β : Type) (visit : Nat → α → Option β),
          overChain t h visit = .ok (found.findSome? fun p => visit p.1 p.2) := by
  obtain ⟨sound, rfl⟩ := holds_of_run run
  refine ⟨t.hits h 0 t.bucketCapacity, ?_, fun β visit => overChain_spec sound h visit⟩
  rw [Hashtable.contents, Multiset.filter_coe, Multiset.map_coe, Multiset.coe_eq_coe]
  apply (hits_perm sound h).trans
  rw [← List.filterMap_eq_map, List.filterMap_filter]
  apply List.Perm.of_eq
  apply List.filterMap_congr
  intro e _
  simp

/-- A table after two insertions; the second one has let it grow. -/
def grownTable : Hashtable Nat where
  elemCapacity := 4
  bucketCapacity := 8
  numElems := 2
  elemPtrTab := [some 7, some 8, none, none]
  elemHashTab := [5, 9, 0, 0]
  bucketTab := [-1, 1, -1, -1, -1, 0, -1, -1]

theorem run_of_two : tableRuns.Reach anyStep (grownTable, (9, 8) ::ₘ (5, 7) ::ₘ 0) := by
  have first : tableRuns.Reach anyStep
      ((⟨2, 4, 1, [some 7, none], [5, 0], [-1, 0, -1, -1]⟩ : Hashtable Nat), (5, 7) ::ₘ 0) :=
    .next (a := .insert 5 7) (.start rfl) trivial ⟨rfl, rfl⟩
  exact .next (a := .insert 9 8) first trivial ⟨rfl, rfl⟩

theorem laiHashtable_search_exact_of_two : ∃ found : List (Nat × Nat),
    (found.map Prod.snd : Multiset Nat) = {7} ∧ ∀ (β : Type) (visit : Nat → Nat → Option β),
      overChain grownTable 5 visit = .ok (found.findSome? fun p => visit p.1 p.2) :=
  laiHashtable_search_exact run_of_two 5

/-- In no run does an assertion of the table fail, nor does it reach outside of its tables: an
insertion either finds no memory or succeeds, an advance from any cursor ends, and where it stops
the element can be read and removed. -/
theorem laiHashtable_never_stops (run : tableRuns.Reach anyStep (t, held)) (h : Word) :
    (∀ elem, laiHashtableInsert t h elem = .error .refused ∨
      ∃ t', laiHashtableInsert t h elem = .ok t') ∧
    ∀ next, next ≤ t.bucketCapacity → ∃ stop, laiHashtableChainAdvance t h next = .ok stop ∧
      ∀ i ∈ stop, next ≤ i ∧ i < t.bucketCapacity ∧
        (∃ elem, laiHashtableChainGet t h i = .ok elem) ∧
          ∃ t', laiHashtableChainRemove t h i = .ok t' := by
  obtain ⟨sound, _⟩ := holds_of_run run
  constructor
  · intro elem
    obtain refused | ⟨t', done, _⟩ := laiHashtableInsert_spec sound h elem
    · exact .inl refused
    · exact .inr ⟨t', done⟩
  · intro next upto
    refine ⟨_, laiHashtableChainAdvance_spec sound h upto, ?_⟩
    intro i hi
    obtain ⟨p, head, rfl⟩ := Option.map_eq_some_iff.mp hi
    obtain ⟨bounds, hit⟩ := mem_hits.mp (List.mem_of_mem_head? head)
    have inside : p.1 < t.bucketCapacity := by omega
    obtain ⟨t', done, _⟩ := laiHashtableChainRemove_spec sound inside hit
    exact ⟨bounds.1, inside, ⟨_, laiHashtableChainGet_spec sound inside hit⟩, t', done⟩

theorem laiHashtable_never_stops_of_two :
    (∀ elem, laiHashtableInsert grownTable 5 elem = .error .refused ∨
      ∃ t', laiHashtableInsert grownTable 5 elem = .ok t') ∧
    ∀ next, next ≤ 8 → ∃ stop, laiHashtableChainAdvance grownTable 5 next = .ok stop ∧
      ∀ i ∈ stop, next ≤ i ∧ i < 8 ∧ (∃ elem, laiHashtableChainGet grownTable 5 i = .ok elem) ∧
        ∃ t', laiHashtableChainRemove grownTable 5 i = .ok t' :=
  laiHashtable_never_stops run_of_two 5

end runs

end X86Os.Lai
