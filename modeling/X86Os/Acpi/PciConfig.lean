import X86Os.Library.Memory

/-!
# The configuration reads of base/other/acpi.cpp

The address of a read is put together in a local that nobody clears. Four of its
fields are assigned; the lowest two bits, the reserved ones and the enable bit
are what the stack held before. The ports behave as PCI configuration mechanism 1:
the data port shows the register that the last address selects, and only when
its enable bit is set.
-/

namespace X86Os.Acpi

open Library.Memory
set_option autoImplicit false

/-- The fields of `pci_dev_t`, from bit 0 on. -/
structure PciDev where
  alwaysZero : BitVec 2
  fieldNum : BitVec 6
  functionNum : BitVec 3
  deviceNum : BitVec 5
  busNum : BitVec 8
  reserved : BitVec 7
  enable : BitVec 1

namespace PciDev

def ofBits (w : Word) : PciDev where
  alwaysZero := w.extractLsb' 0 2
  fieldNum := w.extractLsb' 2 6
  functionNum := w.extractLsb' 8 3
  deviceNum := w.extractLsb' 11 5
  busNum := w.extractLsb' 16 8
  reserved := w.extractLsb' 24 7
  enable := w.extractLsb' 31 1

def bits (dev : PciDev) : Word :=
  dev.enable.setWidth 32 <<< 31 ||| dev.reserved.setWidth 32 <<< 24 |||
    dev.busNum.setWidth 32 <<< 16 ||| dev.deviceNum.setWidth 32 <<< 11 |||
    dev.functionNum.setWidth 32 <<< 8 ||| dev.fieldNum.setWidth 32 <<< 2 |||
    dev.alwaysZero.setWidth 32

end PciDev

/-- The address register at port 0xCF8 and what was written to ports. -/
structure Ports where
  address : Word
  writes : List (BitVec 16 × Word)

def outl (port : BitVec 16) (val : Word) (s : Ports) : Ports :=
  ⟨if port = 0xCF8 then val else s.address, s.writes ++ [(port, val)]⟩

/-- The configuration space of every function, and what ports answer that no one serves. -/
structure PciBus where
  config : BitVec 8 → BitVec 5 → BitVec 3 → BitVec 8 → Byte
  floating : BitVec 16 → Byte

namespace PciBus

def inb (pci : PciBus) (address : Word) (port : BitVec 16) : Byte :=
  let dev := PciDev.ofBits address
  if dev.enable = 1 ∧ port.extractLsb' 2 14 = 0x33F then
    pci.config dev.busNum dev.deviceNum dev.functionNum (dev.fieldNum ++ port.extractLsb' 0 2)
  else pci.floating port

def inw (pci : PciBus) (address : Word) (port : BitVec 16) : BitVec 16 :=
  pci.inb address (port + 1) ++ pci.inb address port

def inl (pci : PciBus) (address : Word) (port : BitVec 16) : Word :=
  pci.inb address (port + 3) ++ pci.inb address (port + 2) ++ pci.inb address (port + 1) ++
    pci.inb address port

end PciBus

structure PciFunction where
  bus : Byte
  slot : Byte
  fn : Byte
  slotFits : slot.toNat < 32
  fnFits : fn.toNat < 8

inductive PciRead
  | readb (off : BitVec 16)
  | readw (off : BitVec 16)
  | readd (off : BitVec 16)

def PciRead.off : PciRead → BitVec 16
  | readb off => off
  | readw off => off
  | readd off => off

/-- What a call finds on the stack and at the ports. -/
abbrev Moments := PciRead → Word × Ports

variable (pci : PciBus) (w : Word) (s : Ports) (f : PciFunction) (off : BitVec 16)

/-- The local `dev` behind its four assignments, when `w` was on the stack. -/
def assignDev : PciDev :=
  { PciDev.ofBits w with
    busNum := f.bus
    deviceNum := f.slot.setWidth 5
    functionNum := f.fn.setWidth 3
    fieldNum := ((off &&& 0xFC) >>> 2).setWidth 6 }

def laihostPciReadb : Byte × Ports :=
  let s := outl 0xCF8 (assignDev w f off).bits s
  (pci.inb s.address (0xCFC + (off &&& 3)), s)

def laihostPciReadw : BitVec 16 × Ports :=
  let s := outl 0xCF8 (assignDev w f off).bits s
  (pci.inw s.address (0xCFC + (off &&& 2)), s)

def laihostPciReadd : Word × Ports :=
  let s := outl 0xCF8 (assignDev w f off).bits s
  (pci.inl s.address 0xCFC, s)

def byteAt (before : Moments) : Byte × Ports :=
  laihostPciReadb pci (before (.readb off)).1 (before (.readb off)).2 f off

def wordAt (before : Moments) : BitVec 16 × Ports :=
  laihostPciReadw pci (before (.readw off)).1 (before (.readw off)).2 f off

def dwordAt (before : Moments) : Word × Ports :=
  laihostPciReadd pci (before (.readd off)).1 (before (.readd off)).2 f off

/-- `0x80000000 | bus<<16 | slot<<11 | fun<<8 | (off & 0xFC)` -/
def PciFunction.address : Word :=
  0x80000000 ||| f.bus.setWidth 32 <<< 16 ||| f.slot.setWidth 32 <<< 11 |||
    f.fn.setWidth 32 <<< 8 ||| (off &&& 0xFC).setWidth 32

/-- The reads of `f` write its addresses and agree with one another. -/
structure WellRead (before : Moments) : Prop where
  byteAddress : ∀ off : BitVec 16, off.toNat < 256 →
    (byteAt pci f off before).2.writes = (before (.readb off)).2.writes ++ [(0xCF8, f.address off)]
  wordAddress : ∀ off : BitVec 16, off.toNat < 256 →
    (wordAt pci f off before).2.writes = (before (.readw off)).2.writes ++ [(0xCF8, f.address off)]
  dwordAddress : ∀ off : BitVec 16, off.toNat < 256 →
    (dwordAt pci f off before).2.writes = (before (.readd off)).2.writes ++ [(0xCF8, f.address off)]
  bytes : ∀ off : BitVec 16, off.toNat < 256 → off &&& 3 = 0 →
    (dwordAt pci f off before).1 = (byteAt pci f (off + 3) before).1 ++
      (byteAt pci f (off + 2) before).1 ++ (byteAt pci f (off + 1) before).1 ++
      (byteAt pci f off before).1
  words : ∀ off : BitVec 16, off.toNat < 256 → off &&& 3 = 0 →
    (dwordAt pci f off before).1 =
      (wordAt pci f (off + 2) before).1 ++ (wordAt pci f off before).1

variable {pci w s f off}

/-! ## The address -/

namespace PciDev

theorem ofBits_bits (dev : PciDev) : ofBits dev.bits = dev := by
  obtain ⟨z, r, fn, d, b, u, e⟩ := dev
  simp only [ofBits, bits, mk.injEq]
  refine ⟨?_, ?_, ?_, ?_, ?_, ?_, ?_⟩
  all_goals
    apply BitVec.eq_of_getLsbD_eq
    intro i hi
    simp
    grind

theorem bits_inj {dev dev' : PciDev} : dev.bits = dev'.bits ↔ dev = dev' := by
  constructor
  · intro same
    rw [← ofBits_bits dev, same, ofBits_bits]
  · rintro rfl
    rfl

end PciDev

theorem field_whole {x : BitVec 16} (small : x.toNat < 256) (low : x.extractLsb' 0 2 = 0) :
    ((x >>> 2).setWidth 6).setWidth 32 <<< 2 = x.setWidth 32 := by
  have zero := congrArg BitVec.toNat low
  rw [BitVec.extractLsb'_toNat, Nat.shiftRight_zero] at zero
  apply BitVec.eq_of_toNat_eq
  simp [Nat.shiftRight_eq_div_pow, Nat.shiftLeft_eq] at zero ⊢
  omega

theorem register_whole (off : BitVec 16) :
    (((off &&& 0xFC) >>> 2).setWidth 6).setWidth 32 <<< 2 = (off &&& 0xFC).setWidth 32 := by
  apply field_whole
  · exact Nat.lt_of_le_of_lt Nat.and_le_right (by decide)
  · rw [BitVec.extractLsb'_and, show (0xFC : BitVec 16).extractLsb' 0 2 = 0 by decide]
    exact BitVec.and_zero

theorem narrow_setWidth {n : Nat} {x : Byte} (small : x.toNat < 2 ^ n) :
    (x.setWidth n).setWidth 32 = x.setWidth 32 := by
  apply BitVec.eq_of_toNat_eq
  rw [BitVec.toNat_setWidth, BitVec.toNat_setWidth, Nat.mod_eq_of_lt small, BitVec.toNat_setWidth]

theorem address_bits (w : Word) : f.address off =
    PciDev.bits { assignDev w f off with alwaysZero := 0, reserved := 0, enable := 1 } := by
  have slot : (f.slot.setWidth 5).setWidth 32 = f.slot.setWidth 32 := narrow_setWidth f.slotFits
  have fn : (f.fn.setWidth 3).setWidth 32 = f.fn.setWidth 32 := narrow_setWidth f.fnFits
  rw [PciDev.bits, assignDev]
  dsimp only
  rw [register_whole, slot, fn]
  simp [PciFunction.address]

def Enabled (w : Word) : Prop :=
  w.extractLsb' 0 2 = 0 ∧ w.extractLsb' 24 7 = 0 ∧ w.extractLsb' 31 1 = 1

theorem assigned_iff : (assignDev w f off).bits = f.address off ↔ Enabled w := by
  rw [address_bits w, PciDev.bits_inj]
  simp [assignDev, PciDev.ofBits, Enabled]

/-! ## The offset -/

theorem register_same {k : BitVec 16} (aligned : off &&& 3 = 0) (small : 3 &&& k = k) :
    (off + k) &&& 0xFC = off &&& 0xFC ∧ (off + k) &&& 3 = k := by
  have apart : off &&& k = 0 := by
    rw [← small, ← BitVec.and_assoc, aligned]
    exact BitVec.zero_and
  have high : k &&& 0xFC = 0 := by
    rw [← small, BitVec.and_comm, ← BitVec.and_assoc]
    exact BitVec.zero_and
  rw [BitVec.add_eq_or_of_and_eq_zero off k apart, BitVec.and_or_distrib_right,
    BitVec.and_or_distrib_right, aligned, high, BitVec.and_comm k, small]
  exact ⟨BitVec.or_zero, BitVec.zero_or⟩

theorem address_same {k : BitVec 16} (aligned : off &&& 3 = 0) (small : 3 &&& k = k) :
    f.address (off + k) = f.address off := by
  rw [PciFunction.address, (register_same aligned small).1, PciFunction.address]

theorem aligned_word (aligned : off &&& 3 = 0) : off &&& 2 = 0 ∧ (off + 2) &&& 2 = 2 := by
  have two : (2 : BitVec 16) = 3 &&& 2 := by decide
  constructor
  · rw [two, ← BitVec.and_assoc, aligned]
    exact BitVec.zero_and
  · rw [two, ← BitVec.and_assoc, ← two, (register_same aligned two.symm).2]
    exact BitVec.and_self

theorem offset_lt {k : BitVec 16} (inside : off.toNat < 256) (aligned : off &&& 3 = 0)
    (small : 3 &&& k = k) : (off + k).toNat < 256 := by
  have rest : off.toNat % 4 = 0 := by
    have zero := congrArg BitVec.toNat aligned
    exact (Nat.and_two_pow_sub_one_eq_mod _ 2).symm.trans zero
  have bound : k.toNat ≤ 3 := by
    rw [← small, BitVec.toNat_and]
    exact Nat.and_le_left
  rw [BitVec.toNat_add]
  omega

/-! ## The reads -/

theorem inl_eq (pci : PciBus) (address : Word) (port : BitVec 16) :
    pci.inl address port = pci.inw address (port + 2) ++ pci.inw address port := by
  have third : port + 2 + 1 = port + 3 := by
    rw [add_assoc]
    rfl
  rw [PciBus.inl, PciBus.inw, PciBus.inw, third]
  exact BitVec.append_assoc

variable {before : Moments} {a : Word}

theorem writes_iff {v : Word} :
    (outl 0xCF8 v s).writes = s.writes ++ [(0xCF8, a)] ↔ v = a := by
  simp [outl]

theorem byteAt_value (enabled : Enabled (before (.readb off)).1) :
    (byteAt pci f off before).1 = pci.inb (f.address off) (0xCFC + (off &&& 3)) := by
  rw [← assigned_iff.mpr enabled]
  rfl

theorem wordAt_value (enabled : Enabled (before (.readw off)).1) :
    (wordAt pci f off before).1 = pci.inw (f.address off) (0xCFC + (off &&& 2)) := by
  rw [← assigned_iff.mpr enabled]
  rfl

theorem dwordAt_value (enabled : Enabled (before (.readd off)).1) :
    (dwordAt pci f off before).1 = pci.inl (f.address off) 0xCFC := by
  rw [← assigned_iff.mpr enabled]
  rfl

theorem byteAt_behind {k : BitVec 16} (enabled : Enabled (before (.readb (off + k))).1)
    (aligned : off &&& 3 = 0) (small : 3 &&& k = k) :
    (byteAt pci f (off + k) before).1 = pci.inb (f.address off) (0xCFC + k) := by
  rw [byteAt_value enabled, address_same aligned small, (register_same aligned small).2]

/-- An enabled read shows the register itself. -/
theorem byteAt_config (enabled : Enabled (before (.readb off)).1) :
    (byteAt pci f off before).1 =
      pci.config f.bus (f.slot.setWidth 5) (f.fn.setWidth 3) (off.setWidth 8) := by
  have apart : 0xCFC &&& (off &&& 3) = 0 := by
    rw [BitVec.and_comm off, ← BitVec.and_assoc]
    exact BitVec.zero_and
  have sum := BitVec.add_eq_or_of_and_eq_zero _ _ apart
  have port : (0xCFC + (off &&& 3)).extractLsb' 2 14 = 0x33F := by
    rw [sum, BitVec.extractLsb'_or, BitVec.extractLsb'_and]
    exact (congrArg _ BitVec.and_zero).trans BitVec.or_zero
  have low : (0xCFC + (off &&& 3)).extractLsb' 0 2 = off.extractLsb' 0 2 := by
    rw [sum, BitVec.extractLsb'_or, BitVec.extractLsb'_and]
    exact BitVec.zero_or.trans BitVec.and_allOnes
  have high : ((off &&& 0xFC) >>> 2).setWidth 6 = off.extractLsb' 2 6 := by
    rw [BitVec.setWidth_ushiftRight_eq_extractLsb, BitVec.extractLsb'_and]
    exact BitVec.and_allOnes
  have place : off.extractLsb' 2 6 ++ off.extractLsb' 0 2 = off.setWidth 8 := by
    rw [BitVec.setWidth_eq_extractLsb' (by decide)]
    exact BitVec.extractLsb'_append_extractLsb'_eq_extractLsb' rfl
  rw [byteAt_value enabled, PciBus.inb, address_bits (before (.readb off)).1, PciDev.ofBits_bits,
    assignDev]
  dsimp only
  rw [low, high, place]
  exact if_pos ⟨rfl, port⟩

/-- The reads go where they should and agree if and only if every call finds the enable bit set
and the other unassigned bits clear. -/
theorem well_read_iff (pci : PciBus) (f : PciFunction) (before : Moments) :
    WellRead pci f before ↔ ∀ r : PciRead, r.off.toNat < 256 → Enabled (before r).1 := by
  constructor
  · intro well r inside
    cases r with
    | readb off => exact assigned_iff.mp (writes_iff.mp (well.byteAddress off inside))
    | readw off => exact assigned_iff.mp (writes_iff.mp (well.wordAddress off inside))
    | readd off => exact assigned_iff.mp (writes_iff.mp (well.dwordAddress off inside))
  · intro enabled
    constructor
    case byteAddress =>
      intro off inside
      exact writes_iff.mpr (assigned_iff.mpr (enabled (.readb off) inside))
    case wordAddress =>
      intro off inside
      exact writes_iff.mpr (assigned_iff.mpr (enabled (.readw off) inside))
    case dwordAddress =>
      intro off inside
      exact writes_iff.mpr (assigned_iff.mpr (enabled (.readd off) inside))
    case bytes =>
      intro off inside aligned
      have behind : ∀ k : BitVec 16, 3 &&& k = k → (byteAt pci f (off + k) before).1 =
          pci.inb (f.address off) (0xCFC + k) := by
        intro k small
        apply byteAt_behind
        · exact enabled (.readb (off + k)) (offset_lt inside aligned small)
        · exact aligned
        · exact small
      rw [dwordAt_value (enabled (.readd off) inside), behind 3 (by decide), behind 2 (by decide),
        behind 1 (by decide), byteAt_value (enabled (.readb off) inside), aligned]
      rfl
    case words =>
      intro off inside aligned
      have two : (3 : BitVec 16) &&& 2 = 2 := by decide
      have next := enabled (.readw (off + 2)) (offset_lt inside aligned two)
      obtain ⟨first, second⟩ := aligned_word aligned
      rw [dwordAt_value (enabled (.readd off) inside), wordAt_value next,
        wordAt_value (enabled (.readw off) inside), address_same aligned two, first, second, inl_eq]
      rfl

/-- Every register of every function holds 0x86, and ports that no one serves show 0xFF. -/
def sampleBus : PciBus := ⟨fun _ _ _ _ => 0x86, fun _ => 0xFF⟩

def firstFunction : PciFunction := ⟨0, 0, 0, by decide, by decide⟩

def clearMoments : Moments := fun _ => (0, ⟨0, []⟩)

/-- A cleared local is no better: the address has no enable bit, and the read shows what the
floating port shows. -/
theorem read_misaddressed : ¬WellRead sampleBus firstFunction clearMoments ∧
    (byteAt sampleBus firstFunction 0 clearMoments).2.writes = [(0xCF8, 0)] ∧
    firstFunction.address 0 = 0x80000000 ∧
    (byteAt sampleBus firstFunction 0 clearMoments).1 = 0xFF := by
  refine ⟨?_, by decide, by decide, by decide⟩
  intro well
  exact absurd (well.byteAddress 0 (by decide)) (by decide)

end X86Os.Acpi
