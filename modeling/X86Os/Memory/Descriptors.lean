import X86Os.Library.Memory
import X86Os.Library.Segments

/-!
# The descriptor tables of base/core/gdt.cpp and base/core/idt.cpp

Both tables are filled entry by entry, a descriptor's parts cut out of its
arguments by masks and shifts. What the processor puts together from them are the
arguments again, but for the limit of a segment, which keeps twenty bits.
-/

namespace X86Os.Memory

open Library.Memory Library.Segments
set_option autoImplicit false

/-- `gdt_entry_t`, packed. -/
structure GdtEntry where
  limitLow : BitVec 16
  baseLow : BitVec 16
  baseMiddle : Byte
  access : Byte
  granularity : Byte
  baseHigh : Byte
  deriving DecidableEq, Repr

def GdtEntry.quad (e : GdtEntry) : ℕ :=
  e.limitLow.toNat + e.baseLow.toNat * 2 ^ 16 + e.baseMiddle.toNat * 2 ^ 32 +
    e.access.toNat * 2 ^ 40 + e.granularity.toNat * 2 ^ 48 + e.baseHigh.toNat * 2 ^ 56

def gdtEntry (base limit : Word) (access gran : Byte) : GdtEntry where
  baseLow := (base &&& 0xFFFF).setWidth 16
  baseMiddle := (base >>> 16 &&& 0xFF).setWidth 8
  baseHigh := (base >>> 24 &&& 0xFF).setWidth 8
  limitLow := (limit &&& 0xFFFF).setWidth 16
  granularity := (limit >>> 16 &&& 0x0F).setWidth 8 ||| (gran &&& 0xF0)
  access := access

def gdtSetEntry (index : ℕ) (base limit : Word) (access gran : Byte) (gdtEntries : List GdtEntry) :
    List GdtEntry :=
  gdtEntries.set index (gdtEntry base limit access gran)

/-- The entries after `GDT::Init`; static storage starts as zeros. -/
def gdtInit : List GdtEntry :=
  gdtSetEntry 4 0 0xFFFFFFFF 0xF2 0xCF (gdtSetEntry 3 0 0xFFFFFFFF 0xFA 0xCF
    (gdtSetEntry 2 0 0xFFFFFFFF 0x92 0xCF (gdtSetEntry 1 0 0xFFFFFFFF 0x9A 0xCF
      (gdtSetEntry 0 0 0 0 0 (List.replicate 8 ⟨0, 0, 0, 0, 0, 0⟩)))))

structure InterruptDescriptor32 where
  offset1 : BitVec 16
  selector : BitVec 16
  zero : Byte
  typeAttributes : Byte
  offset2 : BitVec 16
  deriving DecidableEq, Repr

def InterruptDescriptor32.quad (e : InterruptDescriptor32) : ℕ :=
  e.offset1.toNat + e.selector.toNat * 2 ^ 16 + e.zero.toNat * 2 ^ 32 +
    e.typeAttributes.toNat * 2 ^ 40 + e.offset2.toNat * 2 ^ 48

def idtEntry (base : Word) (sel : BitVec 16) (flags : Byte) : InterruptDescriptor32 where
  offset1 := (base &&& 0xFFFF).setWidth 16
  offset2 := (base >>> 16 &&& 0xFFFF).setWidth 16
  zero := 0
  selector := sel
  typeAttributes := flags ||| 0x60

def idtSetEntry (index : ℕ) (base : Word) (sel : BitVec 16) (flags : Byte)
    (idtDesc : List InterruptDescriptor32) : List InterruptDescriptor32 :=
  idtDesc.set index (idtEntry base sel flags)

def idtInit (isrStubTable : ℕ → Word) : List InterruptDescriptor32 :=
  (List.range 64).foldl (fun idtDesc i => idtSetEntry i (isrStubTable i) 0x08 0x8E idtDesc)
    (List.replicate 256 ⟨0, 0, 0, 0, 0⟩)

variable {base limit : Word} {access gran flags : Byte} {sel : BitVec 16}

/-! ### Fields -/

theorem low16 (x : Word) : ((x &&& 0xFFFF).setWidth 16 : BitVec 16).toNat = x.toNat % 2 ^ 16 := by
  rw [BitVec.toNat_setWidth, BitVec.toNat_and,
    show (0xFFFF : Word).toNat = 2 ^ 16 - 1 from rfl, Nat.and_two_pow_sub_one_eq_mod, Nat.mod_mod]

theorem low8 (x : Word) : ((x &&& 0xFF).setWidth 8 : Byte).toNat = x.toNat % 2 ^ 8 := by
  rw [BitVec.toNat_setWidth, BitVec.toNat_and,
    show (0xFF : Word).toNat = 2 ^ 8 - 1 from rfl, Nat.and_two_pow_sub_one_eq_mod, Nat.mod_mod]

theorem low4 (x : Word) : ((x &&& 0x0F).setWidth 8 : Byte).toNat = x.toNat % 2 ^ 4 := by
  rw [BitVec.toNat_setWidth, BitVec.toNat_and,
    show (0x0F : Word).toNat = 2 ^ 4 - 1 from rfl, Nat.and_two_pow_sub_one_eq_mod]
  omega

theorem shifted (x : Word) (n : ℕ) : (x >>> n).toNat = x.toNat / 2 ^ n := by
  rw [BitVec.toNat_ushiftRight, Nat.shiftRight_eq_div_pow]

theorem high4 : ∀ g : Byte, (g &&& 0xF0).toNat = 2 ^ 4 * (g.toNat / 2 ^ 4) := by decide

theorem granularity_toNat : (gdtEntry base limit access gran).granularity.toNat =
    limit.toNat / 2 ^ 16 % 2 ^ 4 + 2 ^ 4 * (gran.toNat / 2 ^ 4) := by
  have nibble : limit.toNat / 2 ^ 16 % 2 ^ 4 < 2 ^ 4 := Nat.mod_lt _ (by decide)
  rw [gdtEntry, BitVec.toNat_or, low4, shifted, high4, Nat.or_comm,
    ← Nat.two_pow_add_eq_or_of_lt nibble, Nat.add_comm]

theorem gdtEntry_fields : Fields (gdtEntry base limit access gran).quad (limit.toNat % 2 ^ 16)
    (base.toNat % 2 ^ 16) (base.toNat / 2 ^ 16 % 2 ^ 8) access.toNat
    (limit.toNat / 2 ^ 16 % 2 ^ 4 + 2 ^ 4 * (gran.toNat / 2 ^ 4)) (base.toNat / 2 ^ 24 % 2 ^ 8) := by
  have accessByte : access.toNat < 2 ^ 8 := access.isLt
  have granByte : gran.toNat < 2 ^ 8 := gran.isLt
  refine ⟨?_, by omega, by omega, by omega, accessByte, by omega, by omega⟩
  rw [GdtEntry.quad, granularity_toNat]
  dsimp only [gdtEntry]
  rw [low16, low16, low8, low8, shifted, shifted]

theorem idtEntry_fields : Fields (idtEntry base sel flags).quad (base.toNat % 2 ^ 16) sel.toNat 0
    (flags ||| 0x60).toNat (base.toNat / 2 ^ 16 % 2 ^ 8) (base.toNat / 2 ^ 24 % 2 ^ 8) := by
  have attributeByte : (flags ||| 0x60).toNat < 2 ^ 8 := (flags ||| 0x60).isLt
  have selWord : sel.toNat < 2 ^ 16 := sel.isLt
  refine ⟨?_, by omega, selWord, by omega, attributeByte, by omega, by omega⟩
  have high : base.toNat / 2 ^ 16 % 2 ^ 16 =
      base.toNat / 2 ^ 16 % 2 ^ 8 + base.toNat / 2 ^ 24 % 2 ^ 8 * 2 ^ 8 := by omega
  have zero : (0 : Byte).toNat = 0 := rfl
  rw [InterruptDescriptor32.quad]
  dsimp only [idtEntry]
  rw [low16, low16, shifted, zero, high]
  ring

theorem gdtEntry_decodes (base limit : Word) (access gran : Byte) :
    segmentBase (gdtEntry base limit access gran).quad = base.toNat ∧
      segmentLimit (gdtEntry base limit access gran).quad =
          (if gran.toNat / 2 ^ 7 = 1 then limit.toNat % 2 ^ 20 * 4096 + 4095
            else limit.toNat % 2 ^ 20) ∧
        attributes (gdtEntry base limit access gran).quad = access.toNat := by
  have baseWord : base.toNat < 2 ^ 32 := base.isLt
  have nibble : limit.toNat % 2 ^ 16 +
      (limit.toNat / 2 ^ 16 % 2 ^ 4 + 2 ^ 4 * (gran.toNat / 2 ^ 4)) % 2 ^ 4 * 2 ^ 16 =
        limit.toNat % 2 ^ 20 := by omega
  have pages : (limit.toNat / 2 ^ 16 % 2 ^ 4 + 2 ^ 4 * (gran.toNat / 2 ^ 4)) / 2 ^ 7 =
      gran.toNat / 2 ^ 7 := by omega
  have fields : Fields (gdtEntry base limit access gran).quad _ _ _ _ _ _ := gdtEntry_fields
  refine ⟨?_, ?_, fields.attributes_eq⟩
  · rw [fields.segmentBase_eq]
    omega
  · rw [fields.segmentLimit_eq, nibble, pages]

theorem idtEntry_decodes (base : Word) (sel : BitVec 16) (flags : Byte) :
    gateOffset (idtEntry base sel flags).quad = base.toNat ∧
      gateSelector (idtEntry base sel flags).quad = sel.toNat ∧
        attributes (idtEntry base sel flags).quad = (flags ||| 0x60).toNat := by
  have baseWord : base.toNat < 2 ^ 32 := base.isLt
  have fields : Fields (idtEntry base sel flags).quad _ _ _ _ _ _ := idtEntry_fields
  refine ⟨?_, fields.gateSelector_eq, fields.attributes_eq⟩
  rw [fields.gateOffset_eq]
  omega

/-- `GDT::SetEntry` changes one entry, and the processor reads that one as it was meant, with twenty
bits of the limit, in bytes or in pages. -/
theorem gdtSetEntry_decodes {gdtEntries : List GdtEntry} {index : ℕ}
    (inside : index < gdtEntries.length) (base limit : Word) (access gran : Byte) :
    (∃ e, (gdtSetEntry index base limit access gran gdtEntries)[index]? = some e ∧
      segmentBase e.quad = base.toNat ∧
      segmentLimit e.quad = (if gran.toNat / 2 ^ 7 = 1 then limit.toNat % 2 ^ 20 * 4096 + 4095
        else limit.toNat % 2 ^ 20) ∧
      attributes e.quad = access.toNat) ∧
        ∀ j ≠ index, (gdtSetEntry index base limit access gran gdtEntries)[j]? = gdtEntries[j]? := by
  refine ⟨⟨_, List.getElem?_set_self inside, gdtEntry_decodes base limit access gran⟩, ?_⟩
  intro j other
  exact List.getElem?_set_ne other.symm

theorem gdtSetEntry_decodes_fifth :
    (∃ e, (gdtSetEntry 5 0xDEADBEEF 0x12345 0x92 0x40 gdtInit)[5]? = some e ∧
      segmentBase e.quad = (0xDEADBEEF : Word).toNat ∧
      segmentLimit e.quad = (if (0x40 : Byte).toNat / 2 ^ 7 = 1
        then (0x12345 : Word).toNat % 2 ^ 20 * 4096 + 4095 else (0x12345 : Word).toNat % 2 ^ 20) ∧
      attributes e.quad = (0x92 : Byte).toNat) ∧
        ∀ j ≠ 5, (gdtSetEntry 5 0xDEADBEEF 0x12345 0x92 0x40 gdtInit)[j]? = gdtInit[j]? :=
  gdtSetEntry_decodes (by decide) 0xDEADBEEF 0x12345 0x92 0x40

theorem gdtEntry_decodes_code : segmentBase (gdtEntry 0 0xFFFFFFFF 0x9A 0xCF).quad = 0 ∧
    segmentLimit (gdtEntry 0 0xFFFFFFFF 0x9A 0xCF).quad = 2 ^ 32 - 1 ∧
      attributes (gdtEntry 0 0xFFFFFFFF 0x9A 0xCF).quad = 0x9A := by
  obtain ⟨base, limit, access⟩ := gdtEntry_decodes 0 0xFFFFFFFF 0x9A 0xCF
  exact ⟨base.trans rfl, limit.trans rfl, access.trans rfl⟩

/-! ### Interrupts -/

variable {l : List InterruptDescriptor32} {stubs : ℕ → Word} {n v : ℕ}

theorem length_idtFold : ((List.range n).foldl
    (fun idtDesc i => idtSetEntry i (stubs i) sel flags idtDesc) l).length = l.length := by
  induction n with
  | zero => rfl
  | succ n ih =>
    rw [List.range_succ, List.foldl_append, List.foldl_cons, List.foldl_nil, idtSetEntry,
      List.length_set, ih]

theorem getElem?_idtFold (inside : n ≤ l.length) : ((List.range n).foldl
    (fun idtDesc i => idtSetEntry i (stubs i) sel flags idtDesc) l)[v]? =
      if v < n then some (idtEntry (stubs v) sel flags) else l[v]? := by
  induction n with
  | zero => rw [if_neg (Nat.not_lt_zero v)]; rfl
  | succ n ih =>
    rw [List.range_succ, List.foldl_append, List.foldl_cons, List.foldl_nil, idtSetEntry,
      List.getElem?_set, length_idtFold, ih (by omega)]
    obtain rfl | other := eq_or_ne n v
    · rw [if_pos rfl, if_pos (by omega), if_pos (Nat.lt_succ_self n)]
    · rw [if_neg other]
      exact if_congr (by omega) rfl rfl

/-- After both tables are set up, each of the first 64 interrupts goes on at its stub, and no other
interrupt has a gate. -/
theorem gateTarget_init (isrStubTable : ℕ → Word) (v : ℕ) :
    gateTarget (gdtInit.map GdtEntry.quad)
      ((idtInit isrStubTable).map InterruptDescriptor32.quad) v =
        if v < 64 then some (isrStubTable v).toNat else none := by
  have entry : (idtInit isrStubTable)[v]? = if v < 64 then
      some (idtEntry (isrStubTable v) 0x08 0x8E) else (List.replicate 256 ⟨0, 0, 0, 0, 0⟩)[v]? :=
    getElem?_idtFold (by rw [List.length_replicate]; omega)
  by_cases used : v < 64
  · rw [if_pos used] at entry ⊢
    obtain ⟨offset, selector, kind⟩ := idtEntry_decodes (isrStubTable v) 0x08 0x8E
    obtain ⟨base, limit, access⟩ := gdtEntry_decodes_code
    have found : ((idtInit isrStubTable).map InterruptDescriptor32.quad)[v]? =
        some (idtEntry (isrStubTable v) 0x08 0x8E).quad := by
      rw [List.getElem?_map, entry, Option.map_some]
    have first : gdtInit[1]? = some (gdtEntry 0 0xFFFFFFFF 0x9A 0xCF) := rfl
    have code : (gdtInit.map GdtEntry.quad)[gateSelector
        (idtEntry (isrStubTable v) 0x08 0x8E).quad / 8]? =
          some (gdtEntry 0 0xFFFFFFFF 0x9A 0xCF).quad := by
      rw [selector, show (0x08 : BitVec 16).toNat / 8 = 1 from rfl, List.getElem?_map, first,
        Option.map_some]
    rw [← offset]
    refine gateTarget_flat found ?_ ?_ code ⟨?_, ?_⟩ base limit
    · rw [present, kind]
      decide
    · rw [isInterruptGate, kind]
      decide
    · rw [present]
      omega
    · rw [isCode]
      omega
  · rw [if_neg used] at entry ⊢
    rw [List.getElem?_replicate] at entry
    split_ifs at entry with inside
    · have zero : (⟨0, 0, 0, 0, 0⟩ : InterruptDescriptor32).quad = 0 := by
        simp [InterruptDescriptor32.quad]
      have found : ((idtInit isrStubTable).map InterruptDescriptor32.quad)[v]? = some 0 := by
        rw [List.getElem?_map, entry, Option.map_some, zero]
      exact gateTarget_absent found not_present_zero
    · rw [gateTarget, List.getElem?_map, entry, Option.map_none, Option.bind_none]

end X86Os.Memory
