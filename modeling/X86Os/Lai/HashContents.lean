import X86Os.Lai.HashTable

/-!
# What a hash table holds

In a sound table the buckets refer to every occupied slot exactly once. What the
table holds is read off its slots; where the buckets stand does not matter.
-/

namespace X86Os.Lai

open Library.Memory Library.Slots
set_option autoImplicit false

variable {α β : Type} {t t' : Hashtable α} {h : Word} {elem : α} {n m k i : Nat}

def slot (k : Int) : Option Nat := if 0 ≤ k then some k.toNat else none

theorem slot_of_neg {k : Int} (free : k < 0) : slot k = none := if_neg (not_le.mpr free)

theorem slot_of_nonneg {k : Int} (used : 0 ≤ k) : slot k = some k.toNat := if_pos used

@[simp] theorem slot_natCast (k : Nat) : slot (k : Int) = some k := by
  rw [slot_of_nonneg (Int.natCast_nonneg k), Int.toNat_natCast]

theorem neg_of_slot {k : Int} (free : slot k = none) : k < 0 := by
  rw [slot] at free
  split_ifs at free with used
  exact not_le.mp used

def entryOf (ptrs : List (Option α)) (hashes : List Word) (k : Nat) : Option (Word × α) := do
  let elem ← ptrs[k]?.join
  let h ← hashes[k]?
  some (h, elem)

namespace Hashtable

def entry (t : Hashtable α) : Nat → Option (Word × α) := entryOf t.elemPtrTab t.elemHashTab

def entries (t : Hashtable α) : List (Word × α) := (List.range t.elemCapacity).filterMap t.entry

def live (t : Hashtable α) : List Nat :=
  (List.range t.elemCapacity).filterMap fun k => (t.entry k).map fun _ => k

/-- What the table holds, with multiplicities and without order. -/
def contents (t : Hashtable α) : Multiset (Word × α) := t.entries

end Hashtable

structure Sound (t : Hashtable α) : Prop where
  sizes : (t.elemCapacity = 0 ∧ t.bucketCapacity = 0) ∨
    ∃ j, j < 29 ∧ t.elemCapacity = 2 ^ (j + 1) ∧ t.bucketCapacity = 2 ^ (j + 2)
  ptrs : t.elemPtrTab.length = t.elemCapacity
  hashes : t.elemHashTab.length = t.elemCapacity
  buckets : t.bucketTab.length = t.bucketCapacity
  count : t.numElems = t.entries.length
  room : 0 < t.elemCapacity → t.numElems < t.elemCapacity
  placed : (t.bucketTab.filterMap slot).Perm t.live

theorem Sound.zeroed : Sound (Hashtable.zeroed : Hashtable α) := by
  constructor <;> simp [Hashtable.zeroed, Hashtable.entries, Hashtable.live]

theorem entryOf_eq_some {ptrs : List (Option α)} {hashes : List Word} {e : Word × α} :
    entryOf ptrs hashes k = some e ↔ ptrs[k]? = some (some e.2) ∧ hashes[k]? = some e.1 := by
  obtain ⟨h, elem⟩ := e
  simp only [entryOf, Option.bind_eq_bind, Option.bind_eq_some_iff, Option.join_eq_some_iff,
    Option.some.injEq, Prod.mk.injEq]
  constructor
  · rintro ⟨_, ptr, _, hash, rfl, rfl⟩
    exact ⟨ptr, hash⟩
  · rintro ⟨ptr, hash⟩
    exact ⟨_, ptr, _, hash, rfl, rfl⟩

theorem entryOf_eq_none {ptrs : List (Option α)} {hashes : List Word} (free : ptrs[k]?.join = none) :
    entryOf ptrs hashes k = none := by
  rw [entryOf, free]
  rfl

theorem entryOf_set_ne {ptrs : List (Option α)} {hashes : List Word} {p : Option α}
    (other : i ≠ k) : entryOf (ptrs.set k p) (hashes.set k h) i = entryOf ptrs hashes i := by
  rw [entryOf, entryOf, List.getElem?_set_ne other.symm, List.getElem?_set_ne other.symm]

/-! ### Positions of the buckets -/

theorem bucketAt_eq {j : Nat} (power : m = 2 ^ j) (narrow : j < 32) (h : Word) (i : Nat) :
    bucketAt m h i = (h.toNat + i) % m := by
  have pos : 0 < 2 ^ j := Nat.two_pow_pos j
  have below : 2 ^ j < 2 ^ 32 := Nat.pow_lt_pow_right (by decide) narrow
  have mask : (BitVec.ofNat 32 m - 1).toNat = 2 ^ j - 1 := by
    rw [power, BitVec.toNat_sub, BitVec.toNat_ofNat, Nat.mod_eq_of_lt below]
    have one : (1 : Word).toNat = 1 := rfl
    omega
  have divides : 2 ^ j ∣ 2 ^ 32 := Nat.pow_dvd_pow 2 narrow.le
  rw [bucketAt, BitVec.toNat_and, mask, Nat.and_two_pow_sub_one_eq_mod, BitVec.toNat_add,
    BitVec.toNat_ofNat, Nat.mod_mod_of_dvd _ divides, Nat.add_mod, Nat.mod_mod_of_dvd _ divides,
    ← Nat.add_mod, power]

theorem Sound.bucketAt_mod (sound : Sound t) (inside : i < t.bucketCapacity) (h : Word) :
    bucketAt t.bucketCapacity h i = (h.toNat + i) % t.bucketCapacity := by
  obtain ⟨_, none⟩ | ⟨j, small, _, power⟩ := sound.sizes
  · omega
  · exact bucketAt_eq power (by omega) h i

theorem placeBucket_of_free {tab : List Int} {j : Nat} (power : m = 2 ^ j) (narrow : j < 32)
    (length : tab.length = m) (h : Word) (k : Nat) {left : Nat} (inside : left ≤ m)
    (free : ∃ i, m - left ≤ i ∧ i < m ∧ ∀ old ∈ tab[(h.toNat + i) % m]?, old < 0) :
    ∃ b old, placeBucket m h k tab left = .ok (tab.set b k) ∧ tab[b]? = some old ∧ old < 0 := by
  induction left with
  | zero =>
    obtain ⟨i, lower, upper, _⟩ := free
    omega
  | succ left ih =>
    have bound : (h.toNat + (m - (left + 1))) % m < tab.length := by
      rw [length]
      exact Nat.mod_lt _ (by omega)
    have found := List.getElem?_eq_getElem bound
    rw [placeBucket, bucketAt_eq power narrow, readAt_of found, ok_bind]
    split_ifs with first
    · exact ⟨_, _, rfl, found, first⟩
    · apply ih (by omega)
      obtain ⟨i, lower, upper, taken⟩ := free
      have later : i ≠ m - (left + 1) := by
        rintro rfl
        exact first (taken _ found)
      exact ⟨i, by omega, upper, taken⟩

/-- The buckets after an index went into a free one. -/
theorem placeBucket_spec {tab : List Int} {j : Nat} (power : m = 2 ^ j) (narrow : j < 32)
    (length : tab.length = m) (room : (tab.filterMap slot).length < m) (h : Word) (k : Nat) :
    ∃ tab', placeBucket m h k tab m = .ok tab' ∧ tab'.length = m ∧
      (tab'.filterMap slot).Perm (k :: tab.filterMap slot) := by
  obtain ⟨b, old, found, free⟩ := exists_free (f := slot) (l := tab) (by omega)
  have inside : b < m := by
    rw [← length]
    exact (List.getElem?_eq_some_iff.mp found).1
  obtain ⟨i, hi, meets⟩ := exists_around inside h.toNat
  obtain ⟨b', old', placed, found', free'⟩ :=
    placeBucket_of_free power narrow length h k le_rfl ⟨i, by omega, hi, by
      rw [meets, found]
      rintro _ ⟨⟩
      exact neg_of_slot free⟩
  refine ⟨_, placed, by rw [List.length_set, length], ?_⟩
  exact filterMap_fill found' (slot_of_neg free') (slot_natCast k)

end X86Os.Lai
