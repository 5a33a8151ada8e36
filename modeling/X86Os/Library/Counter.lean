import Mathlib.Data.BitVec
import Mathlib.Data.List.Nodup

/-!
# Numbers taken from a counter

A counter of fixed width gives out its value and goes on to the next one. As
long as it does not wrap around, no number is given out twice.
-/

namespace Library.Counter
set_option autoImplicit false

variable {w : Nat} {counter : BitVec w} {given : List (BitVec w)}

/-- The numbers given out so far are distinct, and the counter is past them. -/
structure Issued (counter : BitVec w) (given : List (BitVec w)) : Prop where
  once : given.Nodup
  below : ∀ n ∈ given, n.toNat < counter.toNat

namespace Issued

theorem fresh (issued : Issued counter given) : counter ∉ given := by
  intro again
  exact Nat.lt_irrefl _ (issued.below counter again)

theorem toNat_next (room : counter.toNat + 1 < 2 ^ w) : (counter + 1).toNat = counter.toNat + 1 := by
  have wide : 1 < 2 ^ w := by omega
  have one : (1 : BitVec w).toNat = 1 := (BitVec.toNat_ofNat 1 w).trans (Nat.mod_eq_of_lt wide)
  rw [BitVec.toNat_add, one, Nat.mod_eq_of_lt room]

theorem next (issued : Issued counter given) (room : counter.toNat + 1 < 2 ^ w) :
    Issued (counter + 1) (counter :: given) := by
  refine ⟨List.nodup_cons.mpr ⟨issued.fresh, issued.once⟩, ?_⟩
  intro n hn
  rw [toNat_next room]
  obtain rfl | earlier := List.mem_cons.mp hn
  · exact Nat.lt_succ_self _
  · exact Nat.lt_succ_of_lt (issued.below n earlier)

end Issued

theorem length_le {l : List (BitVec w)} (once : l.Nodup) : l.length ≤ 2 ^ w := by
  have values : (l.map BitVec.toNat).Nodup := once.map fun _ _ => BitVec.eq_of_toNat_eq
  have inside : l.map BitVec.toNat ⊆ List.range (2 ^ w) := by
    intro n hn
    obtain ⟨x, _, rfl⟩ := List.mem_map.mp hn
    exact List.mem_range.mpr x.isLt
  simpa using (values.subperm inside).length_le

end Library.Counter
