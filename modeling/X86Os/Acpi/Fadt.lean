import X86Os.Acpi.Tables
import X86Os.Library.Layout

/-!
# The fields of the FADT

`struct FADT` is not packed, and `uint64_t` is `unsigned long`. So there is a
padding byte before `BootArchitectureFlags` and another one before `Flags`, two
more before `ResetReg`, and every 64-bit field has half its size. ACPI puts the
64-bit pointer to the DSDT at 140; the field of the struct lies at 136.
-/

namespace X86Os.Acpi

open Library.Memory Library.Layout Libc
set_option autoImplicit false

def char : TypeLayout := scalar 1 (by decide)
def uint8 : TypeLayout := scalar 1 (by decide)
def uint16 : TypeLayout := scalar 2 (by decide)
def uint32 : TypeLayout := scalar 4 (by decide)

/-- `typedef unsigned long uint64_t`, with `-m32`. -/
def uint64 : TypeLayout := scalar 4 (by decide)

inductive HeaderField
  | signature | length | revision | checksum | oemId | oemTableId | oemRevision | creatorId
  | creatorRevision
  deriving DecidableEq

def headerFields : List (HeaderField × TypeLayout) :=
  [(.signature, array 4 char), (.length, uint32), (.revision, uint8), (.checksum, uint8),
    (.oemId, array 6 char), (.oemTableId, array 8 char), (.oemRevision, uint32), (.creatorId, uint32),
    (.creatorRevision, uint32)]

inductive AddressField
  | addressSpace | bitWidth | bitOffset | accessSize | address
  deriving DecidableEq

def addressFields : List (AddressField × TypeLayout) :=
  [(.addressSpace, uint8), (.bitWidth, uint8), (.bitOffset, uint8), (.accessSize, uint8),
    (.address, uint64)]

def genericAddress : TypeLayout := record addressFields

inductive FadtField
  | h | firmwareCtrl | dsdt | reserved | preferredPowerManagementProfile | sciInterrupt
  | smiCommandPort | acpiEnable | acpiDisable | s4biosReq | pstateControl | pm1aEventBlock
  | pm1bEventBlock | pm1aControlBlock | pm1bControlBlock | pm2ControlBlock | pmTimerBlock
  | gpe0Block | gpe1Block | pm1EventLength | pm1ControlLength | pm2ControlLength | pmTimerLength
  | gpe0Length | gpe1Length | gpe1Base | cStateControl | worstC2Latency | worstC3Latency
  | flushSize | flushStride | dutyOffset | dutyWidth | dayAlarm | monthAlarm | century
  | bootArchitectureFlags | reserved2 | flags | resetReg | resetValue | reserved3
  | xFirmwareControl | xDsdt | xPm1aEventBlock | xPm1bEventBlock | xPm1aControlBlock
  | xPm1bControlBlock | xPm2ControlBlock | xPmTimerBlock | xGpe0Block | xGpe1Block
  deriving DecidableEq

def fadtFields : List (FadtField × TypeLayout) :=
  [(.h, record headerFields), (.firmwareCtrl, uint32), (.dsdt, uint32), (.reserved, uint8),
    (.preferredPowerManagementProfile, uint8), (.sciInterrupt, uint16), (.smiCommandPort, uint32),
    (.acpiEnable, uint8), (.acpiDisable, uint8), (.s4biosReq, uint8), (.pstateControl, uint8),
    (.pm1aEventBlock, uint32), (.pm1bEventBlock, uint32), (.pm1aControlBlock, uint32),
    (.pm1bControlBlock, uint32), (.pm2ControlBlock, uint32), (.pmTimerBlock, uint32),
    (.gpe0Block, uint32), (.gpe1Block, uint32), (.pm1EventLength, uint8), (.pm1ControlLength, uint8),
    (.pm2ControlLength, uint8), (.pmTimerLength, uint8), (.gpe0Length, uint8), (.gpe1Length, uint8),
    (.gpe1Base, uint8), (.cStateControl, uint8), (.worstC2Latency, uint16), (.worstC3Latency, uint16),
    (.flushSize, uint16), (.flushStride, uint16), (.dutyOffset, uint8), (.dutyWidth, uint8),
    (.dayAlarm, uint8), (.monthAlarm, uint8), (.century, uint8), (.bootArchitectureFlags, uint16),
    (.reserved2, uint8), (.flags, uint32), (.resetReg, genericAddress), (.resetValue, uint8),
    (.reserved3, array 3 uint8), (.xFirmwareControl, uint64), (.xDsdt, uint64),
    (.xPm1aEventBlock, genericAddress), (.xPm1bEventBlock, genericAddress),
    (.xPm1aControlBlock, genericAddress), (.xPm1bControlBlock, genericAddress),
    (.xPm2ControlBlock, genericAddress), (.xPmTimerBlock, genericAddress),
    (.xGpe0Block, genericAddress), (.xGpe1Block, genericAddress)]

def fadtWord (m : Mem) (fadt : Word) (f : FadtField) : Option Word :=
  (offsetOf fadtFields f).map fun o => load32 m (fadt + BitVec.ofNat 32 o)

/-- The address of the DSDT in the table at `fadt`, at the offsets that ACPI gives the fields. -/
def specifiedDsdt (a : Tables) (fadt : Word) : Word :=
  if a.revision ≥ 2 ∧ load64 a.mem (fadt + 140) ≠ 0 then (load64 a.mem (fadt + 140)).setWidth 32
  else load32 a.mem (fadt + 40)

variable {a : Tables} {m : Mem} {index : BitVec 64} {fadt : Word}

theorem fadt_words : fadtWord m fadt .dsdt = some (dsdt m fadt) ∧
    fadtWord m fadt .xDsdt = some (xDsdt m fadt) := by
  have narrow : offsetOf fadtFields .dsdt = some 40 := by decide +kernel
  have wide : offsetOf fadtFields .xDsdt = some 136 := by decide +kernel
  rw [fadtWord, fadtWord, narrow, wide]
  exact ⟨rfl, rfl⟩

/-- Two ways to take an address `d`, unless a later revision has another one. -/
theorem pick_eq_iff {later : Prop} [Decidable later] {w x d : Word} {q : BitVec 64} :
    ((if later ∧ w ≠ 0 then w else d) = if later ∧ q ≠ 0 then x else d) ↔
      ¬ later ∨ w = 0 ∧ (q = 0 ∨ x = d) ∨ w ≠ 0 ∧ (q ≠ 0 ∧ x = w ∨ q = 0 ∧ w = d) := by
  by_cases new : later
  · have same : d = x ↔ x = d := eq_comm
    have other : w = x ↔ x = w := eq_comm
    obtain rfl | some := eq_or_ne w 0
    · obtain rfl | wide := eq_or_ne q 0
      · simp
      · simp only [new, wide, same, ne_eq, not_true_eq_false, and_false, if_false, true_and,
          not_false_eq_true, if_true, false_or, false_and, or_false]
    · obtain rfl | wide := eq_or_ne q 0
      · simp only [new, some, ne_eq, not_true_eq_false, and_false, if_false, true_and,
          not_false_eq_true, if_true, false_or, false_and, and_self]
      · simp only [new, some, wide, other, ne_eq, not_true_eq_false, not_false_eq_true, and_self,
          if_true, true_and, false_and, false_or, or_false]
  · simp [new]

/-- The fields are read at 40 and 136, so the lookup is right if and only if the revision is below
2, or the two fields of ACPI and the word at 136 happen to lead to the same address. -/
theorem scan_dsdt_iff (found : fadtFor a sigDsdt = some fadt) :
    (fadtWord a.mem fadt .dsdt = some (load32 a.mem (fadt + 40)) ∧
      fadtWord a.mem fadt .xDsdt = some (load32 a.mem (fadt + 136))) ∧
    (laihostScan a sigDsdt index = specifiedDsdt a fadt ↔
      a.revision < 2 ∨
      load32 a.mem (fadt + 136) = 0 ∧ (load64 a.mem (fadt + 140) = 0 ∨
        load32 a.mem (fadt + 140) = load32 a.mem (fadt + 40)) ∨
      load32 a.mem (fadt + 136) ≠ 0 ∧ (load64 a.mem (fadt + 140) ≠ 0 ∧
          load32 a.mem (fadt + 140) = load32 a.mem (fadt + 136) ∨
        load64 a.mem (fadt + 140) = 0 ∧ load32 a.mem (fadt + 136) = load32 a.mem (fadt + 40))) := by
  refine ⟨fadt_words, ?_⟩
  rw [laihostScan_some found, specifiedDsdt, load64_low, xDsdt, dsdt, pick_eq_iff]
  exact or_congr_left BitVec.not_le

/-- A table of revision 2 with two addresses for the DSDT, each where ACPI has it. -/
def specifiedTables : Tables where
  mem :=
    let m := store32 (fun _ => 0) 0x1004 40
    let m := store32 m 0x1024 0x2000
    let m := storeBytes m 0x2000 facp.bytes
    let m := store32 m 0x2028 0x3000
    store32 m 0x208C 0x4000
  rsdt := 0x1000
  revision := 2

theorem specifiedTables_fadt : fadtFor specifiedTables sigDsdt = some 0x2000 := by
  decide +kernel

theorem scan_dsdt_iff_sample : (fadtWord specifiedTables.mem 0x2000 .dsdt = some 0x3000 ∧
      fadtWord specifiedTables.mem 0x2000 .xDsdt = some 0) ∧
    laihostScan specifiedTables sigDsdt 0 ≠ specifiedDsdt specifiedTables 0x2000 := by
  have both : _ ∧ (laihostScan specifiedTables sigDsdt 0 = _ ↔ _) :=
    scan_dsdt_iff specifiedTables_fadt
  have narrow : load32 specifiedTables.mem (0x2000 + 40) = 0x3000 := by decide +kernel
  have zero : load32 specifiedTables.mem (0x2000 + 136) = 0 := by decide +kernel
  have wide : load64 specifiedTables.mem (0x2000 + 140) = 0x4000 := by decide +kernel
  have low : load32 specifiedTables.mem (0x2000 + 140) = 0x4000 := by decide +kernel
  have revision : specifiedTables.revision = 2 := rfl
  rw [narrow, zero, wide, low, revision] at both
  exact ⟨both.1, both.2.not.mpr (by decide)⟩

/-- The 64-bit pointer is not found, and the one for ACPI 1.0 is taken instead. -/
theorem scan_misses_xDsdt : fadtFor specifiedTables sigDsdt = some 0x2000 ∧
    laihostScan specifiedTables sigDsdt 0 = 0x3000 ∧ specifiedDsdt specifiedTables 0x2000 = 0x4000 := by
  refine ⟨specifiedTables_fadt, ?_, ?_⟩ <;> decide +kernel

end X86Os.Acpi
