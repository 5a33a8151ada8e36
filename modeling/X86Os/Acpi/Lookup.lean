import Mathlib.Data.List.GetD
import X86Os.Acpi.Tables

/-!
# What the lookups of ACPI tables return and read

The number of entries is an unsigned difference, so an RSDT shorter than its own
header seems to have a billion of them. A signature that begins with `D` is
answered from the FADT, whatever its other letters and the index are. Apart from
this the lookups return the entry they are asked for.
-/

namespace X86Os.Acpi

open Library.Memory Libc
set_option autoImplicit false

def rsdtLength (a : Tables) : Word := load32 a.mem (a.rsdt + 4)

def entryAddress (a : Tables) (i : Nat) : Word := a.rsdt + sizeofHeader + 4 * BitVec.ofNat 32 i

/-- The entries that lie behind the header and inside the length of the RSDT. -/
def entries (a : Tables) : List Word :=
  (List.range (((rsdtLength a).toNat - 36) / 4)).map fun i => load32 a.mem (entryAddress a i)

def bears (m : Mem) (sig : CString) (p : Word) : Bool := loadBytes m p 4 == sig.bytes

/-- The entry asked for, and null if there are fewer with this signature. -/
def tableFor (a : Tables) (sig : CString) (index : BitVec 64) : Word :=
  ((entries a).filter (bears a.mem sig)).getD index.toNat 0

def firstTableReads (m : Mem) (sig : CString) : List Word → Nat
  | [] => 0
  | p :: ps => if strcmpAt m p sig = false then 1 else firstTableReads m sig ps + 1

def nthTableReads (m : Mem) (sig : CString) (index : BitVec 64) : BitVec 64 → List Word → Nat
  | _, [] => 0
  | ind, p :: ps =>
    if strcmpAt m p sig = false then
      if ind = index then 1 else nthTableReads m sig index (ind + 1) ps + 1
    else nthTableReads m sig index ind ps + 1

/-- The addresses at which a lookup reads entries; both lookups read the same ones. -/
def lookupReads (a : Tables) (sig : CString) (index : BitVec 64) : List Word :=
  let first := if sig.get 0 = some 0x44 then firstTableReads a.mem facp (rsdtPointers a) else 0
  let second := match fadtFor a sig with
    | some _ => 0
    | none => nthTableReads a.mem sig index 0 (rsdtPointers a)
  (List.range first ++ List.range second).map (entryAddress a)

/-- Both lookups return the entry asked for and read entries inside the RSDT only. -/
structure LookupRight (a : Tables) (sig : CString) (index : BitVec 64) : Prop where
  scan : laihostScan a sig index = tableFor a sig index
  get : getTable a sig index = tableFor a sig index
  reads : ∀ x ∈ lookupReads a sig index,
    36 ≤ (x - a.rsdt).toNat ∧ (x - a.rsdt).toNat + 4 ≤ (rsdtLength a).toNat

variable {a : Tables} {m : Mem} {sig : CString} {index ind : BitVec 64} {p fadt : Word}
variable {ps : List Word}

theorem strcmpAt_eq (four : sig.bytes.length = 4) : strcmpAt m p sig = !bears m sig p := by
  have length : (loadBytes m p 4).length = sig.bytes.length := by
    rw [loadBytes, List.length_map, List.length_range, four]
  have same : strcmpAt m p sig = false ↔ bears m sig p = true := by
    rw [strcmpAt, strlen, four, differ_eq_false, bears, beq_iff_eq]
    constructor
    · intro begins
      exact (begins.eq_of_length length.symm).symm
    · intro equal
      rw [equal]
  cases holds : bears m sig p with
  | true => exact same.mpr holds
  | false => exact Bool.eq_true_of_not_eq_false fun accepted => by simp [same.mp accepted] at holds

theorem firstTable_eq (four : sig.bytes.length = 4) :
    firstTable m sig ps = ps.find? (bears m sig) := by
  induction ps with
  | nil => rfl
  | cons p ps ih =>
    rw [firstTable, strcmpAt_eq four, ih]
    cases holds : bears m sig p with
    | true => rw [List.find?_cons_of_pos holds, Bool.not_true, if_pos rfl]
    | false => rw [List.find?_cons_of_neg (by simp [holds]), Bool.not_false, if_neg Bool.noConfusion]

/-- The counter wraps for no list of entries that fits into memory. -/
theorem nthTable_eq (four : sig.bytes.length = 4) (count : ind.toNat + ps.length < 2 ^ 64)
    (le : ind.toNat ≤ index.toNat) : nthTable m sig index ind ps =
      (ps.filter (bears m sig)).getD (index.toNat - ind.toNat) 0 := by
  induction ps generalizing ind with
  | nil => rfl
  | cons p ps ih =>
    rw [List.length_cons] at count
    rw [nthTable, strcmpAt_eq four]
    cases holds : bears m sig p with
    | true =>
      rw [List.filter_cons_of_pos holds, Bool.not_true, if_pos rfl]
      by_cases here : ind = index
      · rw [if_pos here, here, Nat.sub_self, List.getD_cons_zero]
      · have succ : (ind + 1).toNat = ind.toNat + 1 := by
          rw [BitVec.toNat_add]
          exact Nat.mod_eq_of_lt (by simp; omega)
        have ne : ind.toNat ≠ index.toNat := fun same => here (BitVec.eq_of_toNat_eq same)
        have step : index.toNat - ind.toNat = index.toNat - (ind.toNat + 1) + 1 := by omega
        rw [if_neg here, ih (by omega) (by omega), succ, step, List.getD_cons_succ]
    | false =>
      rw [List.filter_cons_of_neg (by simp [holds]), Bool.not_false, if_neg Bool.noConfusion]
      exact ih (by omega) le

theorem firstTableReads_le : firstTableReads m sig ps ≤ ps.length := by
  induction ps with
  | nil => exact le_rfl
  | cons p ps ih =>
    rw [firstTableReads, List.length_cons]
    split
    next => omega
    next => omega

theorem nthTableReads_le : nthTableReads m sig index ind ps ≤ ps.length := by
  induction ps generalizing ind with
  | nil => exact le_rfl
  | cons p ps ih =>
    rw [nthTableReads, List.length_cons]
    split
    next =>
      split
      next => omega
      next => exact Nat.succ_le_succ ih
    next => exact Nat.succ_le_succ ih

theorem firstTableReads_pos : 0 < firstTableReads m sig (p :: ps) := by
  rw [firstTableReads]
  split
  next => exact Nat.one_pos
  next => exact Nat.succ_pos _

theorem nthTableReads_pos : 0 < nthTableReads m sig index ind (p :: ps) := by
  rw [nthTableReads]
  split
  next =>
    split
    next => exact Nat.one_pos
    next => exact Nat.succ_pos _
  next => exact Nat.succ_pos _

theorem rsdtFields_eq (whole : 36 ≤ (rsdtLength a).toNat) :
    rsdtFields a = ((rsdtLength a).toNat - 36) / 4 := by
  have header : sizeofHeader.toNat = 36 := rfl
  rw [rsdtFields, ← rsdtLength, BitVec.toNat_sub_of_le (BitVec.le_def.mpr (by omega)), header]

theorem rsdtPointers_eq (whole : 36 ≤ (rsdtLength a).toNat) : rsdtPointers a = entries a := by
  rw [rsdtPointers, entries, rsdtFields_eq whole]
  rfl

theorem entries_length : (entries a).length = ((rsdtLength a).toNat - 36) / 4 := by
  rw [entries, List.length_map, List.length_range]

theorem fadtFor_eq (whole : 36 ≤ (rsdtLength a).toNat) :
    fadtFor a sig = if sig.get 0 = some 0x44 then (entries a).find? (bears a.mem facp) else none := by
  rw [fadtFor, rsdtPointers_eq whole, firstTable_eq rfl]

theorem entryAddress_sub (i : Nat) (small : 36 + 4 * i < 2 ^ 32) :
    (entryAddress a i - a.rsdt).toNat = 36 + 4 * i := by
  have offset : entryAddress a i - a.rsdt = sizeofHeader + 4 * BitVec.ofNat 32 i := by
    rw [entryAddress]
    ring
  have header : sizeofHeader.toNat = 36 := rfl
  have four : (4 : Word).toNat = 4 := rfl
  rw [offset, BitVec.toNat_add, BitVec.toNat_mul, header, four, BitVec.toNat_ofNat,
    Nat.mod_eq_of_lt (show i < 2 ^ 32 by omega), Nat.mod_eq_of_lt (show 4 * i < 2 ^ 32 by omega),
    Nat.mod_eq_of_lt small]

theorem reads_inside (whole : 36 ≤ (rsdtLength a).toNat) : ∀ x ∈ lookupReads a sig index,
    36 ≤ (x - a.rsdt).toNat ∧ (x - a.rsdt).toNat + 4 ≤ (rsdtLength a).toNat := by
  intro x mem
  obtain ⟨i, counted, rfl⟩ := List.mem_map.mp mem
  have below : i < (rsdtPointers a).length := by
    obtain first | second := List.mem_append.mp counted
    · have lt := List.mem_range.mp first
      split at lt
      next => exact lt.trans_le firstTableReads_le
      next => exact absurd lt (Nat.not_lt_zero _)
    · have lt := List.mem_range.mp second
      split at lt
      next => exact absurd lt (Nat.not_lt_zero _)
      next => exact lt.trans_le nthTableReads_le
  rw [rsdtPointers_eq whole, entries_length] at below
  have := (rsdtLength a).isLt
  rw [entryAddress_sub i (by omega)]
  omega

theorem first_read (some : rsdtPointers a ≠ []) : entryAddress a 0 ∈ lookupReads a sig index := by
  refine List.mem_map_of_mem (List.mem_append.mpr ?_)
  simp only [List.mem_range]
  obtain ⟨p, ps, list⟩ := List.exists_cons_of_ne_nil some
  rw [list]
  cases found : fadtFor a sig with
  | none => exact .inr nthTableReads_pos
  | some fadt =>
    refine .inl ?_
    rw [fadtFor] at found
    split at found
    next letter =>
      rw [if_pos letter]
      exact firstTableReads_pos
    next => cases found

/-- A table that is shorter than its header is taken for one with entries. -/
theorem rsdtPointers_short (short : (rsdtLength a).toNat < 36) : rsdtPointers a ≠ [] := by
  have header : sizeofHeader.toNat = 36 := rfl
  have fields : rsdtFields a ≠ 0 := by
    rw [rsdtFields, ← rsdtLength, BitVec.toNat_sub, header]
    omega
  intro none
  have length := congrArg List.length none
  rw [rsdtPointers, List.length_map, List.length_range] at length
  exact fields length

theorem LookupRight.whole (right : LookupRight a sig index) : 36 ≤ (rsdtLength a).toNat := by
  by_contra short
  have short := Nat.lt_of_not_le short
  have first := (right.reads _ (first_read (rsdtPointers_short short))).2
  rw [entryAddress_sub 0 (by omega)] at first
  omega

theorem nthTable_start (four : sig.bytes.length = 4) (whole : 36 ≤ (rsdtLength a).toNat) :
    nthTable a.mem sig index 0 (rsdtPointers a) = tableFor a sig index := by
  have zero : (0 : BitVec 64).toNat = 0 := rfl
  have count : (rsdtPointers a).length < 2 ^ 32 := by
    have := (rsdtLength a).isLt
    rw [rsdtPointers_eq whole, entries_length]
    omega
  rw [nthTable_eq four (by omega) (by omega), rsdtPointers_eq whole, zero, Nat.sub_zero, tableFor]

/-- The lookups are right if and only if the RSDT is at least as long as its header and no FADT
is asked, or what it says is the entry that is looked for. -/
theorem lookup_right_iff (four : sig.bytes.length = 4) : LookupRight a sig index ↔
    36 ≤ (rsdtLength a).toNat ∧
      (sig.get 0 = some 0x44 → ∀ fadt, (entries a).find? (bears a.mem facp) = some fadt →
        dsdt a.mem fadt = tableFor a sig index ∧
          (a.revision ≥ 2 → xDsdt a.mem fadt ≠ 0 → xDsdt a.mem fadt = tableFor a sig index)) := by
  constructor
  · intro right
    refine ⟨right.whole, fun letter fadt first => ?_⟩
    have found : fadtFor a sig = some fadt := by rw [fadtFor_eq right.whole, if_pos letter, first]
    refine ⟨getTable_some found ▸ right.get, fun revision extended => ?_⟩
    have scan := right.scan
    rwa [laihostScan_some found, if_pos ⟨revision, extended⟩] at scan
  · rintro ⟨whole, answered⟩
    have both : laihostScan a sig index = tableFor a sig index ∧
        getTable a sig index = tableFor a sig index := by
      cases found : fadtFor a sig with
      | none =>
        have get : getTable a sig index = tableFor a sig index := by
          rw [getTable, found]
          exact nthTable_start four whole
        exact ⟨(laihostScan_none found).trans get, get⟩
      | some fadt =>
        rw [laihostScan_some found, getTable_some found]
        rw [fadtFor_eq whole] at found
        split at found
        next letter =>
          obtain ⟨plain, extended⟩ := answered letter fadt found
          refine ⟨?_, plain⟩
          split
          next both => exact extended both.1 both.2
          next => exact plain
        next => cases found
    exact ⟨both.1, both.2, reads_inside whole⟩

theorem lookup_right_facp : LookupRight (sampleTables 0) facp 0 :=
  (lookup_right_iff rfl).mpr ⟨by decide +kernel, fun letter => absurd letter (by decide)⟩

def sigDmar : CString := ⟨[0x44, 0x4D, 0x41, 0x52], by decide⟩

/-- There is no DMAR table, and the lookups return the DSDT. -/
theorem lookup_wrong : sigDmar.bytes.length = 4 ∧ sigDmar ≠ sigDsdt ∧
    ¬ LookupRight (sampleTables 0) sigDmar 0 := by
  refine ⟨rfl, by decide, fun right => ?_⟩
  have get := right.get
  have found : getTable (sampleTables 0) sigDmar 0 = 0x3000 := by decide +kernel
  have none : tableFor (sampleTables 0) sigDmar 0 = 0 := by decide +kernel
  rw [found, none] at get
  exact absurd get (by decide)

end X86Os.Acpi
