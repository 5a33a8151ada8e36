import X86Os.Lai.Resources

/-!
# Encodings of resource templates

A template is a list of descriptors with an end tag behind them. The view goes
through exactly the descriptors of an encoded template.
-/

namespace X86Os.Lai

open Library.Memory Library.LittleEndian
set_option autoImplicit false

variable {data bs content : List Byte} {kind b : Byte} {pos i n v : ℕ}

/-! ### Reading behind an offset -/

theorem readAt_of_bytes (here : bs <+: data.drop pos) (found : bs[i]? = some b) :
    readAt data (pos + i) = .ok b := by
  obtain ⟨rest, whole⟩ := here
  obtain ⟨inside, _⟩ := List.getElem?_eq_some_iff.mp found
  apply readAt_of
  rw [← List.getElem?_drop, ← whole, List.getElem?_append_left inside, found]

theorem readAt_of_cons (here : b :: bs <+: data.drop pos) : readAt data pos = .ok b :=
  readAt_of_bytes (i := 0) here rfl

theorem wordAt_of_bytes (here : bs <+: data.drop pos) (word : leBytes n v <+: bs.drop i)
    (below : v < 256 ^ n) : wordAt data (pos + i) n = .ok v := by
  have whole := word.trans (here.drop i)
  rw [List.drop_drop] at whole
  have fits := whole.length_le
  rw [length_leBytes, List.length_drop] at fits
  by_cases some_ : n = 0
  · subst some_
    rw [Nat.lt_one_iff.mp below]
    rfl
  · rw [wordAt_spec (by omega), (leBytes_prefix_iff (by rw [List.length_drop]; exact fits)).mp
      ⟨below, whole⟩]

/-! ### Headers -/

/-- A type and a payload that a header can announce. -/
def Framed (type : Byte) (payload : List Byte) : Prop :=
  type.toNat < 16 ∧ payload.length ≤ 7 ∨ 128 ≤ type.toNat ∧ payload.length < 65536

def framed (type : Byte) (payload : List Byte) : List Byte :=
  if type.toNat < 16 then BitVec.ofNat 8 (8 * type.toNat + payload.length) :: payload
  else type :: (leBytes 2 payload.length ++ payload)

/-- What the lead byte of a small descriptor says. -/
theorem smallLead_fields : ∀ kind < 16, ∀ size ≤ 7,
    BitVec.ofNat 8 (8 * kind + size) &&& 0x80 = (0 : Byte) ∧
    (BitVec.ofNat 8 (8 * kind + size) &&& 7).toNat = size ∧
      BitVec.ofNat 8 (8 * kind + size) >>> 3 = BitVec.ofNat 8 kind ∧
        BitVec.ofNat 8 (8 * kind + size) >>> 3 &&& 0xF = BitVec.ofNat 8 kind := by
  decide

theorem largeLead (large : 128 ≤ kind.toNat) : kind &&& 0x80 ≠ 0 := by
  intro clear
  have bit := congrArg (fun x : Byte => x.getLsbD 7) clear
  rw [BitVec.getLsbD_and] at bit
  have high : kind.getLsbD 7 = true := by
    rw [BitVec.getLsbD, Nat.testBit_eq_decide_div_mod_eq]
    have byte : kind.toNat < 256 := kind.isLt
    exact decide_eq_true (by omega)
  rw [high] at bit
  cases bit

theorem laiGetHeaderInfo_framed (frame : Framed kind content)
    (here : framed kind content <+: data.drop pos) : laiGetHeaderInfo data pos =
      .ok ⟨kind, content.length, (framed kind content).length⟩ := by
  rw [laiGetHeaderInfo]
  obtain ⟨small, short⟩ | ⟨large, short⟩ := frame
  · rw [framed, if_pos small] at here ⊢
    obtain ⟨plain, size, _, same⟩ := smallLead_fields _ small _ short
    rw [readAt_of_cons here, ok_bind, if_pos plain]
    dsimp only
    rw [size, same, BitVec.ofNat_toNat, BitVec.setWidth_eq]
    rfl
  · rw [framed, if_neg (by omega)] at here ⊢
    rw [readAt_of_cons here, ok_bind, if_neg (largeLead large),
      wordAt_of_bytes (i := 1) here (List.prefix_append _ _) short, ok_bind, List.length_cons,
      List.length_append, length_leBytes, Nat.add_comm 2]

/-! ### Descriptors -/

/-- A descriptor as it is meant; `other` is one that the view passes by. -/
inductive Descriptor
  | smallIrq (mask : BitVec 16) (config : Option Byte)
  | smallIo (decode : Byte) (min max : BitVec 16) (alignment length : Byte)
  | smallFixedIo (base : BitVec 16) (length : Byte)
  | largeIrq (config : Byte) (irqs : List Word) (source : List Byte)
  | largeFixedMem32 (config : Byte) (base length : Word)
  | other (type : Byte) (payload : List Byte)

namespace Descriptor

def type : Descriptor → Byte
  | smallIrq .. => 0x04
  | smallIo .. => 0x08
  | smallFixedIo .. => 0x09
  | largeIrq .. => 0x89
  | largeFixedMem32 .. => 0x86
  | other type _ => type

def payload : Descriptor → List Byte
  | smallIrq mask config => leBytes 2 mask.toNat ++ config.toList
  | smallIo decode min max alignment length =>
    decode :: (leBytes 2 min.toNat ++ (leBytes 2 max.toNat ++ [alignment, length]))
  | smallFixedIo base length => leBytes 2 base.toNat ++ [length]
  | largeIrq config irqs source =>
    config :: BitVec.ofNat 8 irqs.length :: (irqs.flatMap (fun irq => leBytes 4 irq.toNat) ++ source)
  | largeFixedMem32 config base length =>
    config :: (leBytes 4 base.toNat ++ leBytes 4 length.toNat)
  | other _ payload => payload

def bytes (d : Descriptor) : List Byte := framed d.type d.payload

def special : List ResourceTag :=
  [.smallIrq, .smallIo, .smallFixedIo, .smallEnd, .largeIrq, .largeFixedMem32]

def WellFormed : Descriptor → Prop
  | largeIrq config irqs source =>
    0 < irqs.length ∧ irqs.length < 256 ∧ (largeIrq config irqs source).payload.length < 65536
  | other type payload => Framed type payload ∧ resourceTag type ∉ special
  | _ => True

def viewed (d : Descriptor) (entry : ℕ) (before : ResourceView) : ResourceView :=
  let view := { before with entry := entry, skipSize := d.bytes.length }
  match d with
  | smallIrq _ config => { view with entryIdx := 0, flags := config.getD acpiSmallIrqEdgeTriggered }
  | smallIo decode min _ alignment length =>
    { view with
      flags := decode
      base := BitVec.ofNat 32 min.toNat
      alignment := BitVec.ofNat 32 alignment.toNat
      length := BitVec.ofNat 32 length.toNat }
  | smallFixedIo base length =>
    -- The bus decodes ten bits.
    { view with
      base := BitVec.ofNat 32 (base.toNat % 1024)
      length := BitVec.ofNat 32 length.toNat }
  | largeIrq config _ _ => { view with entryIdx := 0, flags := config }
  | largeFixedMem32 config base length =>
    { view with
      flags := config
      base := base
      length := length }
  | other .. => view

variable {d : Descriptor}

theorem WellFormed.framed (ok : d.WellFormed) : Framed d.type d.payload := by
  cases d with
  | smallIrq mask config =>
    refine .inl ⟨(by decide : 4 < 16), ?_⟩
    cases config with
    | none => exact (by decide : 2 ≤ 7)
    | some => exact (by decide : 3 ≤ 7)
  | smallIo => exact .inl ⟨(by decide : 8 < 16), (by decide : 7 ≤ 7)⟩
  | smallFixedIo => exact .inl ⟨(by decide : 9 < 16), (by decide : 3 ≤ 7)⟩
  | largeIrq => exact .inr ⟨(by decide : 128 ≤ 0x89), ok.2.2⟩
  | largeFixedMem32 => exact .inr ⟨(by decide : 128 ≤ 0x86), (by decide : 9 < 65536)⟩
  | other => exact ok.1

end Descriptor

variable {d : Descriptor} {ds : List Descriptor} {it view : ResourceView} {turns : ℕ}

theorem laiGetHeaderInfo_bytes (ok : d.WellFormed) (here : d.bytes <+: data.drop pos) :
    laiGetHeaderInfo data pos = .ok ⟨d.type, d.payload.length, d.bytes.length⟩ :=
  laiGetHeaderInfo_framed ok.framed here

/-- Ten bits of two bytes. -/
theorem tenBits (base : BitVec 16) : (BitVec.ofNat 8 base.toNat : Byte).toNat |||
    ((BitVec.ofNat 8 (base.toNat / 256) : Byte).toNat &&& 3) <<< 8 = base.toNat % 1024 := by
  rw [show (3 : ℕ) = 2 ^ 2 - 1 from rfl, Nat.and_two_pow_sub_one_eq_mod, Nat.or_comm,
    ← Nat.shiftLeft_add_eq_or_of_lt (BitVec.isLt _), Nat.shiftLeft_eq, BitVec.toNat_ofNat,
    BitVec.toNat_ofNat]
  omega

theorem word16 (x : BitVec 16) : x.toNat < 256 ^ 2 := x.isLt

theorem word32 (x : Word) : x.toNat < 256 ^ 4 := x.isLt

theorem mask_of_small {mask : BitVec 16} {config : Option Byte}
    (here : (Descriptor.smallIrq mask config).bytes <+: data.drop pos) :
    wordAt data (pos + 1) 2 = .ok mask.toNat :=
  wordAt_of_bytes here (List.prefix_append _ _) (word16 mask)

theorem config_of_small {mask : BitVec 16}
    (here : (Descriptor.smallIrq mask (some b)).bytes <+: data.drop pos) :
    readAt data (pos + 3) = .ok b := by
  have here' : 0x23 :: (leBytes 2 mask.toNat ++ [b]) <+: data.drop pos := here
  exact readAt_of_bytes here' rfl

theorem config_of_large {irqs : List Word} {source : List Byte}
    (here : (Descriptor.largeIrq b irqs source).bytes <+: data.drop pos) :
    readAt data (pos + 3) = .ok b :=
  readAt_of_bytes here rfl

/-- The view goes on to the next descriptor. -/
theorem laiResourceIterate_bytes (ok : d.WellFormed)
    (here : d.bytes <+: data.drop (it.entry + it.skipSize)) :
    laiResourceIterate data it = .ok (.none, d.viewed (it.entry + it.skipSize) it) := by
  rw [laiResourceIterate]
  dsimp only
  rw [laiGetHeaderInfo_bytes ok here, ok_bind]
  cases d with
  | smallIrq mask config =>
    cases config with
    | none => rfl
    | some config =>
      dsimp only [Descriptor.type]
      rw [config_of_small here]
      rfl
  | smallIo decode min max alignment length =>
    have here' : 0x47 :: decode :: (leBytes 2 min.toNat ++
        (leBytes 2 max.toNat ++ [alignment, length])) <+: data.drop (it.entry + it.skipSize) := here
    have word := wordAt_of_bytes (i := 2) here' (List.prefix_append _ _) (word16 min)
    dsimp only
    rw [readAt_of_bytes (i := 1) here' rfl, word, readAt_of_bytes (i := 6) here' rfl,
      readAt_of_bytes (i := 7) here' rfl]
    rfl
  | smallFixedIo base length =>
    have here' : 0x4B :: (leBytes 2 base.toNat ++ [length]) <+:
        data.drop (it.entry + it.skipSize) := here
    have low := readAt_of_bytes (i := 1) here' rfl
    have high := readAt_of_bytes (i := 2) here' rfl
    have third := readAt_of_bytes (i := 3) here' rfl
    dsimp only [Descriptor.type]
    rw [low, high, third]
    dsimp only [ok_bind]
    rw [tenBits]
    rfl
  | largeIrq config irqs source =>
    dsimp only [Descriptor.type]
    rw [config_of_large here]
    rfl
  | largeFixedMem32 config base length =>
    have here' : 0x86 :: (leBytes 2 9 ++
        config :: (leBytes 4 base.toNat ++ leBytes 4 length.toNat)) <+: data.drop (it.entry + it.skipSize) := here
    have third := readAt_of_bytes (i := 3) here' rfl
    have word := wordAt_of_bytes (i := 4) here' (List.prefix_append _ _) (word32 base)
    have word' := wordAt_of_bytes (i := 8) here' List.prefix_rfl (word32 length)
    have tag : resourceTag (0x86 : Byte) = .largeFixedMem32 := rfl
    dsimp only [Descriptor.type]
    rw [tag]
    dsimp only
    rw [third, word, word', ok_bind, ok_bind, ok_bind, BitVec.ofNat_toNat, BitVec.setWidth_eq,
      BitVec.ofNat_toNat, BitVec.setWidth_eq]
    rfl
  | other type payload =>
    obtain ⟨_, plain⟩ := ok
    dsimp only [Descriptor.type]
    cases tag : resourceTag type with
    | smallIrq | smallIo | smallFixedIo | smallEnd | largeIrq | largeFixedMem32 =>
      rw [tag] at plain
      exact absurd (by decide) plain
    | _ => rfl

/-! ### Templates -/

/-- The bytes of a template, with any end tag. -/
def templateBytes (ds : List Descriptor) (checksum : List Byte) : List Byte :=
  ds.flatMap Descriptor.bytes ++ framed 0x0F checksum

def TemplateAt (data : List Byte) (pos : ℕ) (ds : List Descriptor) : Prop :=
  (∀ d ∈ ds, d.WellFormed) ∧
    ∃ checksum, checksum.length ≤ 7 ∧ templateBytes ds checksum <+: data.drop pos

theorem templateAt_templateBytes (ok : ∀ d ∈ ds, d.WellFormed) :
    TemplateAt (templateBytes ds []) 0 ds :=
  ⟨ok, [], Nat.zero_le 7, List.prefix_rfl⟩

/-- A small descriptor with interrupts 10 and 11, and a large one with 17 and 42. -/
def linkTemplate : List Descriptor := [.smallIrq 0x0C00 none, .largeIrq 6 [17, 42] []]

theorem linkTemplate_wellFormed : ∀ d ∈ linkTemplate, d.WellFormed :=
  List.forall_mem_cons.mpr
    ⟨trivial, List.forall_mem_singleton.mpr ⟨by decide, by decide, by decide⟩⟩

theorem TemplateAt.head (template : TemplateAt data pos (d :: ds)) :
    d.WellFormed ∧ d.bytes <+: data.drop pos ∧ TemplateAt data (pos + d.bytes.length) ds := by
  obtain ⟨ok, checksum, short, here⟩ := template
  obtain ⟨first, others⟩ := List.forall_mem_cons.mp ok
  rw [templateBytes, List.flatMap_cons, List.append_assoc] at here
  refine ⟨first, (List.prefix_append _ _).trans here, others, checksum, short, ?_⟩
  have behind := here.drop d.bytes.length
  rwa [List.drop_left, List.drop_drop] at behind

theorem TemplateAt.last (template : TemplateAt data pos []) : ∃ checksum, checksum.length ≤ 7 ∧
    framed 0x0F checksum <+: data.drop pos := by
  obtain ⟨_, checksum, short, here⟩ := template
  exact ⟨checksum, short, here⟩

def viewsOf : List Descriptor → ResourceView → List ResourceView
  | [], _ => []
  | d :: ds, it =>
    let view := d.viewed (it.entry + it.skipSize) it
    view :: viewsOf ds view

theorem viewed_next (pos : ℕ) (d : Descriptor) (it : ResourceView) :
    (d.viewed pos it).entry = pos ∧ (d.viewed pos it).skipSize = d.bytes.length := by
  cases d <;> exact ⟨rfl, rfl⟩

/-- The view stops at the end tag. -/
theorem laiResourceIterate_end (template : TemplateAt data (it.entry + it.skipSize) []) :
    ∃ view, laiResourceIterate data it = .ok (.endReached, view) := by
  obtain ⟨checksum, short, here⟩ := template.last
  have frame : Framed 0x0F checksum := .inl ⟨(by decide : 15 < 16), short⟩
  refine ⟨{ it with
    entry := it.entry + it.skipSize, skipSize := (framed 0x0F checksum).length }, ?_⟩
  rw [laiResourceIterate]
  dsimp only
  rw [laiGetHeaderInfo_framed frame here]
  rfl

theorem TemplateAt.initial (template : TemplateAt data 0 ds) :
    TemplateAt data (ResourceView.initial.entry + ResourceView.initial.skipSize) ds :=
  template

/-- Where the view at the first descriptor goes on. -/
theorem TemplateAt.next (template : TemplateAt data (it.entry + it.skipSize) (d :: ds))
    (same : view = d.viewed (it.entry + it.skipSize) it) :
    TemplateAt data (view.entry + view.skipSize) ds := by
  obtain ⟨_, _, rest⟩ := template.head
  obtain ⟨entry, skip⟩ := viewed_next (it.entry + it.skipSize) d it
  rw [same, entry, skip]
  exact rest

theorem iterateAll_of_template (template : TemplateAt data (it.entry + it.skipSize) ds)
    (enough : ds.length < turns) :
    iterateAll data turns it = some (.ok (viewsOf ds it, .endReached)) := by
  induction ds generalizing it turns with
  | nil =>
    obtain ⟨turns, rfl⟩ := Nat.exists_eq_add_one.mpr (Nat.zero_lt_of_lt enough)
    obtain ⟨view, ends⟩ := laiResourceIterate_end template
    rw [iterateAll, ends]
    rfl
  | cons d ds ih =>
    rw [List.length_cons] at enough
    obtain ⟨turns, rfl⟩ := Nat.exists_eq_add_one.mpr (Nat.zero_lt_of_lt enough)
    obtain ⟨ok, here, _⟩ := template.head
    rw [iterateAll, laiResourceIterate_bytes ok here]
    dsimp only
    rw [ih (template.next rfl) (by omega)]
    rfl

theorem laiResourceGetType_bytes (ok : d.WellFormed) (here : d.bytes <+: data.drop it.entry) :
    laiResourceGetType data it = .ok (resourceTag d.type).type := by
  rw [laiResourceGetType, laiGetHeaderInfo_bytes ok here]
  rfl

theorem viewsOf_at {k : ℕ} (template : TemplateAt data (it.entry + it.skipSize) ds)
    (found : ds[k]? = some d) : ∃ view before, (viewsOf ds it)[k]? = some view ∧
      view = d.viewed view.entry before ∧ d.WellFormed ∧ d.bytes <+: data.drop view.entry := by
  induction ds generalizing it k with
  | nil => cases found
  | cons d' ds ih =>
    obtain ⟨ok, here, _⟩ := template.head
    cases k with
    | zero =>
      obtain rfl := Option.some.inj found
      obtain ⟨entry, _⟩ := viewed_next (it.entry + it.skipSize) d' it
      refine ⟨_, it, rfl, ?_, ok, ?_⟩
      · rw [entry]
      · rwa [entry]
    | succ k => exact ih (template.next rfl) found

/-- The loop over an encoded template goes through its descriptors in order, each of which the view
shows with its own type and fields, and ends at the end tag. -/
theorem iterateAll_template (template : TemplateAt data 0 ds) (enough : ds.length < turns) :
    iterateAll data turns .initial = some (.ok (viewsOf ds .initial, .endReached)) ∧
      ∀ (k : ℕ) (d : Descriptor), ds[k]? = some d → ∃ view before,
        (viewsOf ds .initial)[k]? = some view ∧ view = d.viewed view.entry before ∧
          laiResourceGetType data view = .ok (resourceTag d.type).type := by
  refine ⟨iterateAll_of_template template enough, fun k d found => ?_⟩
  obtain ⟨view, before, shown, same, ok, here⟩ := viewsOf_at template.initial found
  exact ⟨view, before, shown, same, laiResourceGetType_bytes ok here⟩

theorem iterateAll_link :
    iterateAll (templateBytes linkTemplate []) 3 .initial =
        some (.ok (viewsOf linkTemplate .initial, .endReached)) ∧
      ∃ view before, (viewsOf linkTemplate .initial)[0]? = some view ∧
        view = Descriptor.viewed (.smallIrq 0x0C00 none) view.entry before ∧
          laiResourceGetType (templateBytes linkTemplate []) view = .ok (resourceTag 0x04).type :=
  have short : linkTemplate.length < 3 := by decide
  have all := iterateAll_template (templateAt_templateBytes linkTemplate_wellFormed) short
  ⟨all.1, all.2 0 _ rfl⟩

end X86Os.Lai
