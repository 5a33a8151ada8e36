import X86Os.Libc.Strings

/-!
# Table lookup in base/other/acpi.cpp

The interpreter looks tables up with `laihost_scan`, the kernel with
`ACPI::GetTable`. Both follow the pointers of the RSDT. For a signature that
begins with `D` both take a field of the first FACP table, and only the first of
them knows the 64-bit field of later revisions. With this kernel's `uint64_t` of
32 bits and the padding of `struct FADT`, that field is read at offset 136.
-/

namespace X86Os.Acpi

open Library.Memory Libc
set_option autoImplicit false

/-- Memory, the pointer `rsdt` and `rsdp->Revision`, as `ACPI::Setup` leaves them. -/
structure Tables where
  mem : Mem
  rsdt : Word
  revision : Byte

def sizeofHeader : Word := 36

def rsdtFields (a : Tables) : Nat := (load32 a.mem (a.rsdt + 4) - sizeofHeader).toNat / 4

def rsdtPointers (a : Tables) : List Word :=
  (List.range (rsdtFields a)).map fun i => load32 a.mem (a.rsdt + sizeofHeader + 4 * BitVec.ofNat 32 i)

/-- `strcmp((const char *)p, src)` -/
def strcmpAt (m : Mem) (p : Word) (src : CString) : Bool :=
  differ (loadBytes m p (strlen src)) src.bytes

def facp : CString := ⟨[0x46, 0x41, 0x43, 0x50], by decide⟩

def dsdt (m : Mem) (fadt : Word) : Word := load32 m (fadt + 40)

def xDsdt (m : Mem) (fadt : Word) : Word := load32 m (fadt + 136)

def firstTable (m : Mem) (sig : CString) : List Word → Option Word
  | [] => none
  | p :: ps => if strcmpAt m p sig = false then some p else firstTable m sig ps

/-- The loop over all tables; `ind` counts the ones with this signature. -/
def nthTable (m : Mem) (sig : CString) (index : BitVec 64) : BitVec 64 → List Word → Word
  | _, [] => 0
  | ind, p :: ps =>
    if strcmpAt m p sig = false then
      if ind = index then p else nthTable m sig index (ind + 1) ps
    else nthTable m sig index ind ps

/-- The FADT, which is looked for only if the signature begins with `D`. -/
def fadtFor (a : Tables) (sig : CString) : Option Word :=
  if sig.get 0 = some 0x44 then firstTable a.mem facp (rsdtPointers a) else none

def laihostScan (a : Tables) (sig : CString) (index : BitVec 64) : Word :=
  match fadtFor a sig with
  | some fadt =>
    if a.revision ≥ 2 ∧ xDsdt a.mem fadt ≠ 0 then xDsdt a.mem fadt else dsdt a.mem fadt
  | none => nthTable a.mem sig index 0 (rsdtPointers a)

def getTable (a : Tables) (sig : CString) (index : BitVec 64) : Word :=
  match fadtFor a sig with
  | some fadt => dsdt a.mem fadt
  | none => nthTable a.mem sig index 0 (rsdtPointers a)

variable {a : Tables} {sig : CString} {index : BitVec 64} {fadt : Word}

theorem laihostScan_none (none : fadtFor a sig = none) :
    laihostScan a sig index = getTable a sig index := by
  rw [laihostScan, getTable, none]

theorem laihostScan_some (found : fadtFor a sig = some fadt) :
    laihostScan a sig index =
      if a.revision ≥ 2 ∧ xDsdt a.mem fadt ≠ 0 then xDsdt a.mem fadt else dsdt a.mem fadt := by
  rw [laihostScan, found]

theorem getTable_some (found : fadtFor a sig = some fadt) :
    getTable a sig index = dsdt a.mem fadt := by
  rw [getTable, found]

/-- The lookups agree unless a FADT of a later revision gives two different addresses. -/
theorem lookups_agree_iff : laihostScan a sig index = getTable a sig index ↔
    ∀ fadt, fadtFor a sig = some fadt →
      a.revision < 2 ∨ xDsdt a.mem fadt = 0 ∨ xDsdt a.mem fadt = dsdt a.mem fadt := by
  cases found : fadtFor a sig with
  | none =>
    refine iff_of_true (laihostScan_none found) ?_
    nofun
  | some fadt =>
    rw [laihostScan_some found, getTable_some found]
    constructor
    · rintro agree _ ⟨⟩
      by_cases extended : a.revision ≥ 2 ∧ xDsdt a.mem fadt ≠ 0
      · rw [if_pos extended] at agree
        exact .inr (.inr agree)
      · obtain older | zero := not_and_or.mp extended
        · exact .inl (BitVec.not_le.mp older)
        · exact .inr (.inl (not_not.mp zero))
    · intro same
      split
      next extended =>
        obtain older | zero | agree := same fadt rfl
        · exact absurd extended.1 (BitVec.not_le.mpr older)
        · exact absurd zero extended.2
        · exact agree
      next => rfl

/-- An RSDT with a single entry, a FADT with one address in each field. -/
def sampleTables (revision : Byte) : Tables where
  mem :=
    let m := store32 (fun _ => 0) 0x1004 40
    let m := store32 m 0x1024 0x2000
    let m := storeBytes m 0x2000 facp.bytes
    let m := store32 m 0x2028 0x3000
    store32 m 0x2088 0x4000
  rsdt := 0x1000
  revision := revision

def sigDsdt : CString := ⟨[0x44, 0x53, 0x44, 0x54], by decide⟩

theorem sample_differ : laihostScan (sampleTables 2) sigDsdt 0 = 0x4000 ∧
    getTable (sampleTables 2) sigDsdt 0 = 0x3000 := by
  constructor <;> decide +kernel

theorem lookups_differ :
    ¬ ∀ (a : Tables) (sig : CString) (index : BitVec 64),
      laihostScan a sig index = getTable a sig index := by
  intro claim
  have agree := claim (sampleTables 2) sigDsdt 0
  rw [sample_differ.1, sample_differ.2] at agree
  exact absurd agree (by decide)

end X86Os.Acpi
