import X86Os.Lai.ResourceIrqs

/-!
# What the readers of templates return

`lai_read_resource` collects every interrupt of a small descriptor and the first
of a large one, and nothing at all from a template with other descriptors. The
routing of `lai_pci_parse_prt` takes the first interrupt that the view shows, and
there is none where a small descriptor has its interrupts from eight on.
-/

namespace X86Os.Lai

open Library.Memory Library.LittleEndian
set_option autoImplicit false

variable {data : List Byte} {pos turns resIndex : ℕ} {d : Descriptor} {ds : List Descriptor}
  {it : ResourceView} {mask : BitVec 16} {config : Option Byte} {irqs : List Word}
  {dest : List IrqResource}

/-! ### All interrupts of a template -/

/-- What `lai_read_resource` keeps of a descriptor of interrupts. -/
def Descriptor.collected : Descriptor → Option (List IrqResource)
  | smallIrq mask config => some ((irqsBelow 16 mask).map fun i =>
      ⟨BitVec.ofNat 32 i, config.getD acpiSmallIrqEdgeTriggered⟩)
  | largeIrq config irqs _ => some ((irqs.take 1).map fun irq => ⟨irq, config⟩)
  | _ => none

theorem readSmallIrq_bytes
    (here : (Descriptor.smallIrq mask config).bytes <+: data.drop pos) :
    readSmallIrq data pos (Descriptor.smallIrq mask config).payload.length =
      .ok ((irqsBelow 16 mask).map fun i =>
        ⟨BitVec.ofNat 32 i, config.getD acpiSmallIrqEdgeTriggered⟩) := by
  rw [readSmallIrq, mask_of_small here, ok_bind]
  dsimp only
  rw [BitVec.ofNat_toNat, BitVec.setWidth_eq, maskIrqs_sixteen]
  split_ifs with empty flagged
  · rw [empty]
    rfl
  · cases config with
    | none => exact absurd flagged (by decide : ¬3 ≤ 2)
    | some config =>
      rw [config_of_small here]
      rfl
  · cases config with
    | none => rfl
    | some config => exact absurd (by decide : 3 ≤ 3) flagged

theorem readLargeIrq_bytes {flags : Byte} {source : List Byte}
    (ok : (Descriptor.largeIrq flags irqs source).WellFormed)
    (here : (Descriptor.largeIrq flags irqs source).bytes <+: data.drop pos) :
    (readLargeIrq data pos).map (fun irq => [irq]) =
      .ok ((irqs.take 1).map fun irq => ⟨irq, flags⟩) := by
  obtain ⟨some_, _⟩ := ok
  obtain ⟨irq, irqs, rfl⟩ := List.exists_cons_of_length_pos some_
  have word : wordAt data (pos + 5) 4 = .ok irq.toNat :=
    wordAt_of_bytes here (table_at (k := 0) rfl) (word32 irq)
  rw [readLargeIrq, word, ok_bind, config_of_large here, ok_bind, BitVec.ofNat_toNat]
  rfl

theorem smallLead_end : ∀ kind < 16, ∀ size ≤ 7, BitVec.ofNat 8 (8 * kind + size) = (0x79 : Byte) →
    kind = 0x0F := by
  decide

theorem resourceTag_small : ∀ kind < 16, resourceTag (BitVec.ofNat 8 kind) ≠ .largeIrq := by
  decide

theorem resourceTag_large : ∀ kind : Byte, 128 ≤ kind.toNat →
    resourceTag kind ≠ .smallIrq ∧ resourceTag kind ≠ .smallEnd := by
  decide

variable {kind : Byte} {content : List Byte}

/-- A turn of the loop in front of an encoded descriptor. -/
theorem readDescriptor_framed (frame : Framed kind content) (inner : resourceTag kind ≠ .smallEnd)
    (here : framed kind content <+: data.drop pos) : readDescriptor data pos dest =
      match resourceTag kind with
      | .smallIrq => (readSmallIrq data pos content.length).map fun found =>
        .inr (pos + (framed kind content).length, dest ++ found)
      | .largeIrq => (readLargeIrq data pos).map fun found =>
        .inr (pos + (framed kind content).length, dest ++ [found])
      | _ => .ok (.inl []) := by
  rw [readDescriptor]
  obtain ⟨small, short⟩ | ⟨large, short⟩ := frame
  · rw [framed, if_pos small] at here ⊢
    obtain ⟨plain, size, same, _⟩ := smallLead_fields _ small _ short
    have notEnd : BitVec.ofNat 8 (8 * kind.toNat + content.length) ≠ (0x79 : Byte) := by
      intro ends
      have last : kind = 0x0F := BitVec.eq_of_toNat_eq (smallLead_end _ small _ short ends)
      exact inner (last ▸ rfl)
    rw [readAt_of_cons here, ok_bind, if_neg notEnd, if_pos plain]
    dsimp only
    rw [size, same]
    have low := resourceTag_small _ small
    rw [BitVec.ofNat_toNat, BitVec.setWidth_eq] at low ⊢
    cases tag : resourceTag kind with
    | smallIrq =>
      dsimp only
      cases readSmallIrq data pos content.length <;> rfl
    | smallEnd => exact absurd tag inner
    | largeIrq => exact absurd tag low
    | _ => rfl
  · rw [framed, if_neg (by omega)] at here ⊢
    have notEnd : kind ≠ 0x79 := by
      rintro rfl
      exact absurd large (by decide)
    have size : wordAt data (pos + 1) 2 = .ok content.length :=
      wordAt_of_bytes here (List.prefix_append _ _) short
    rw [readAt_of_cons here, ok_bind, if_neg notEnd, if_neg (largeLead large), size, ok_bind]
    cases tag : resourceTag kind with
    | largeIrq =>
      dsimp only
      rw [List.length_cons, List.length_append, length_leBytes, Nat.add_comm 2]
      cases readLargeIrq data pos <;> rfl
    | smallIrq => exact absurd tag (resourceTag_large kind large).1
    | smallEnd => exact absurd tag inner
    | _ => rfl

theorem Descriptor.WellFormed.inner (ok : d.WellFormed) : resourceTag d.type ≠ .smallEnd := by
  cases d with
  | smallIrq => exact (by decide : resourceTag 0x04 ≠ .smallEnd)
  | smallIo => exact (by decide : resourceTag 0x08 ≠ .smallEnd)
  | smallFixedIo => exact (by decide : resourceTag 0x09 ≠ .smallEnd)
  | largeIrq => exact (by decide : resourceTag 0x89 ≠ .smallEnd)
  | largeFixedMem32 => exact (by decide : resourceTag 0x86 ≠ .smallEnd)
  | other type payload =>
    intro ends
    exact ok.2 (ends ▸ by decide)

theorem readDescriptor_bytes (ok : d.WellFormed) (here : d.bytes <+: data.drop pos) :
    readDescriptor data pos dest = .ok (match d.collected with
      | some found => .inr (pos + d.bytes.length, dest ++ found)
      | none => .inl []) := by
  rw [readDescriptor_framed ok.framed ok.inner here]
  cases d with
  | smallIrq mask config =>
    have tag : resourceTag (Descriptor.smallIrq mask config).type = .smallIrq := rfl
    rw [tag]
    dsimp only
    rw [readSmallIrq_bytes here]
    rfl
  | largeIrq config irqs source =>
    have tag : resourceTag (Descriptor.largeIrq config irqs source).type = .largeIrq := rfl
    have read := readLargeIrq_bytes ok here
    rw [tag]
    cases found : readLargeIrq data pos with
    | error how =>
      rw [found] at read
      cases read
    | ok irq =>
      rw [found] at read
      dsimp only [Descriptor.collected]
      rw [← Except.ok.inj read]
      rfl
  | other type payload =>
    obtain ⟨_, plain⟩ := ok
    cases tag : resourceTag (Descriptor.other type payload).type with
    | smallIrq | largeIrq =>
      have plain' : resourceTag type ∉ Descriptor.special := plain
      rw [show resourceTag type = _ from tag] at plain'
      exact absurd (by decide) plain'
    | _ => rfl
  | _ => rfl

theorem laiReadResource_of_template (template : TemplateAt data pos ds)
    (enough : ds.length < turns) :
    laiReadResource data turns pos dest =
      some (.ok ((ds.mapM Descriptor.collected).elim [] fun found => dest ++ found.flatten)) := by
  induction ds generalizing pos dest turns with
  | nil =>
    obtain ⟨turns, rfl⟩ := Nat.exists_eq_add_one.mpr (Nat.zero_lt_of_lt enough)
    obtain ⟨checksum, short, here⟩ := template.last
    have ends : readDescriptor data pos dest = .ok (.inl dest) := by
      have small : (0x0F : Byte).toNat < 16 := by decide
      rw [framed, if_pos small] at here
      obtain ⟨plain, size, same, _⟩ := smallLead_fields _ small _ short
      have tag : resourceTag (BitVec.ofNat 8 (0x0F : Byte).toNat) = .smallEnd := rfl
      rw [readDescriptor, readAt_of_cons here, ok_bind]
      split_ifs
      · rfl
      · dsimp only
        rw [same, tag]
    rw [laiReadResource, ends]
    simp
  | cons d ds ih =>
    rw [List.length_cons] at enough
    obtain ⟨turns, rfl⟩ := Nat.exists_eq_add_one.mpr (Nat.zero_lt_of_lt enough)
    obtain ⟨ok, here, rest⟩ := template.head
    rw [laiReadResource, readDescriptor_bytes ok here, List.mapM_cons]
    cases d.collected with
    | none => rfl
    | some found =>
      dsimp only
      rw [ih rest (by omega)]
      cases ds.mapM Descriptor.collected with
      | none => rfl
      | some others =>
        dsimp only [Option.elim, Option.bind_eq_bind, Option.bind, Option.pure_def]
        rw [List.flatten_cons, List.append_assoc]

/-- From an encoded template of interrupts `lai_read_resource` gets all that its small descriptors
have and the first of each large one; where there is any other descriptor, it gets none. -/
theorem laiReadResource_template (template : TemplateAt data 0 ds) (enough : ds.length < turns) :
    laiReadResource data turns 0 [] =
      some (.ok ((ds.mapM Descriptor.collected).elim [] List.flatten)) := by
  rw [laiReadResource_of_template template enough]
  rfl

theorem laiReadResource_link : laiReadResource (templateBytes linkTemplate []) 3 0 [] =
    some (.ok ((linkTemplate.mapM Descriptor.collected).elim [] List.flatten)) :=
  laiReadResource_template (templateAt_templateBytes linkTemplate_wellFormed) (by decide)

example : (linkTemplate.mapM Descriptor.collected).elim [] List.flatten =
    [⟨10, 1⟩, ⟨11, 1⟩, ⟨17, 6⟩] := by decide

/-! ### The route of a link device -/

def Descriptor.route (d : Descriptor) : Option IrqRoute :=
  d.shown.bind fun irqs => irqs.head?.map fun gsi => ⟨gsi, d.levelTriggered, d.activeLow⟩

theorem laiResourceNextIrq_first (ok : d.WellFormed) (irq : d.shown = some irqs)
    (here : d.bytes <+: data.drop it.entry) (start : it.entryIdx = 0) :
    ∃ idx, laiResourceNextIrq data it = match irqs.head? with
      | some gsi => .ok (.none, { it with gsi := gsi, entryIdx := idx })
      | none => .ok (.endReached, { it with entryIdx := idx }) := by
  cases d with
  | smallIrq mask config =>
    obtain rfl := Option.some.inj irq
    have low : (List.range' 0 16).filter (inByte mask) = irqsBelow 8 mask := irqsBelow_eight
    rw [laiResourceNextIrq_small here, start, List.head?_map, ← low, List.head?_filter]
    cases (List.range' 0 16).find? (inByte mask) with
    | some j => exact ⟨j + 1, rfl⟩
    | none => exact ⟨max 16 0, rfl⟩
  | largeIrq config irqs' source =>
    obtain rfl := Option.some.inj irq
    rw [laiResourceNextIrq_large ok (fun _ => by omega) here, start, List.head?_eq_getElem?]
    cases irqs'[0]? with
    | some gsi => exact ⟨1, rfl⟩
    | none => exact ⟨0, by rw [← start]⟩
  | _ => cases irq

theorem type_irq_iff (ok : d.WellFormed) : (resourceTag d.type).type = .irq ↔ d.shown ≠ none := by
  cases d with
  | other type payload =>
    obtain ⟨_, plain⟩ := ok
    refine ⟨fun irq => ?_, fun shown => absurd rfl shown⟩
    have irq' : (resourceTag type).type = .irq := irq
    cases tag : resourceTag type with
    | smallIrq | largeIrq =>
      rw [tag] at plain
      exact absurd (by decide) plain
    | _ =>
      rw [tag] at irq'
      cases irq'
  | smallIrq | largeIrq => exact ⟨fun _ shown => Option.some_ne_none _ shown, fun _ => rfl⟩
  | smallIo =>
    have other : (resourceTag 0x08).type ≠ .irq := by decide
    exact iff_of_false other (not_not_intro rfl)
  | smallFixedIo =>
    have other : (resourceTag 0x09).type ≠ .irq := by decide
    exact iff_of_false other (not_not_intro rfl)
  | largeFixedMem32 =>
    have other : (resourceTag 0x86).type ≠ .irq := by decide
    exact iff_of_false other (not_not_intro rfl)

theorem linkRoute_bytes (ok : d.WellFormed) (here : d.bytes <+: data.drop it.entry)
    (start : ∀ irqs, d.shown = some irqs → it.entryIdx = 0) : linkRoute data it = .ok d.route := by
  rw [linkRoute, laiResourceGetType_bytes ok here, ok_bind, Descriptor.route]
  cases irq : d.shown with
  | none =>
    rw [if_pos (fun type => (type_irq_iff ok).mp type irq)]
    rfl
  | some irqs =>
    have shown : d.shown ≠ none := by
      rw [irq]
      exact Option.some_ne_none irqs
    obtain ⟨idx, next⟩ := laiResourceNextIrq_first ok irq here (start irqs irq)
    rw [if_neg (not_not_intro ((type_irq_iff ok).mpr shown)), next, Option.bind_some]
    cases irqs.head? with
    | none => rfl
    | some gsi =>
      have level : laiResourceIrqIsLevelTriggered data { it with gsi := gsi, entryIdx := idx } =
          .ok d.levelTriggered := laiResourceIrqIsLevelTriggered_bytes ok irq here
      have low : laiResourceIrqIsActiveLow data { it with gsi := gsi, entryIdx := idx } =
          .ok d.activeLow := laiResourceIrqIsActiveLow_bytes ok irq here
      dsimp only [ok_bind]
      rw [if_neg (not_not_intro rfl), level, ok_bind, low]
      rfl

theorem findRoute_of_template {current : ℕ}
    (template : TemplateAt data (it.entry + it.skipSize) ds) (enough : ds.length < turns)
    (behind : current ≤ resIndex) : findRoute data resIndex turns current it =
      some (.ok (ds[resIndex - current]?.bind Descriptor.route)) := by
  induction ds generalizing it turns current with
  | nil =>
    obtain ⟨turns, rfl⟩ := Nat.exists_eq_add_one.mpr (Nat.zero_lt_of_lt enough)
    obtain ⟨view, ends⟩ := laiResourceIterate_end template
    rw [findRoute, ends]
    rfl
  | cons d ds ih =>
    rw [List.length_cons] at enough
    obtain ⟨turns, rfl⟩ := Nat.exists_eq_add_one.mpr (Nat.zero_lt_of_lt enough)
    obtain ⟨ok, here, _⟩ := template.head
    rw [findRoute, laiResourceIterate_bytes ok here]
    dsimp only
    split_ifs with same
    · rw [← (viewed_next (it.entry + it.skipSize) d it).1] at here
      rw [linkRoute_bytes ok here fun irqs irq => viewed_entryIdx irq, same, Nat.sub_self]
      rfl
    · rw [ih (template.next rfl) (by omega) (by omega),
        show resIndex - current = resIndex - (current + 1) + 1 by omega, List.getElem?_cons_succ]

/-- The search of a link device's template ends with the first interrupt of the descriptor of that
index, if the view shows one. -/
theorem findRoute_template (template : TemplateAt data 0 ds) (enough : ds.length < turns) :
    findRoute data resIndex turns 0 .initial = some (.ok (ds[resIndex]?.bind Descriptor.route)) :=
  findRoute_of_template template.initial enough (Nat.zero_le resIndex)

theorem findRoute_link : findRoute (templateBytes linkTemplate []) 1 3 0 .initial =
    some (.ok (linkTemplate[1]?.bind Descriptor.route)) :=
  findRoute_template (templateAt_templateBytes linkTemplate_wellFormed) (by decide)

theorem irqsBelow_eight_nil : irqsBelow 8 mask = [] ↔ mask.toNat % 256 = 0 := by
  rw [irqsBelow, List.filter_eq_nil_iff]
  constructor
  · intro clear
    refine Nat.eq_of_testBit_eq fun i => ?_
    rw [show 256 = 2 ^ 8 from rfl, Nat.testBit_mod_two_pow, Nat.zero_testBit]
    by_cases low : i < 8
    · have bit : mask.toNat.testBit i = false :=
        Bool.eq_false_of_not_eq_true (clear i (List.mem_range.mpr low))
      rw [bit, Bool.and_false]
    · rw [decide_eq_false low, Bool.false_and]
  · intro clear i member set
    have bit := Nat.testBit_mod_two_pow mask.toNat 8 i
    rw [show 2 ^ 8 = 256 from rfl, clear, Nat.zero_testBit,
      decide_eq_true (List.mem_range.mp member), Bool.true_and] at bit
    exact Bool.false_ne_true (bit.trans set)

theorem irqsBelow_sixteen_nil : irqsBelow 16 mask = [] ↔ mask = 0 := by
  rw [irqsBelow, List.filter_eq_nil_iff]
  constructor
  · intro clear
    refine BitVec.eq_of_getLsbD_eq fun i inside => ?_
    exact (Bool.eq_false_of_not_eq_true (clear i (List.mem_range.mpr inside))).trans
      BitVec.getLsbD_zero.symm
  · rintro rfl i _ set
    exact Bool.false_ne_true (BitVec.getLsbD_zero.symm.trans set)

theorem route_small : (Descriptor.smallIrq mask config).route = none ↔ mask.toNat % 256 = 0 := by
  rw [← irqsBelow_eight_nil, Descriptor.route, Descriptor.shown, Option.bind_some,
    Option.map_eq_none_iff, List.head?_eq_none_iff, List.map_eq_nil_iff]

/-- A link device with one small descriptor has no route, although `lai_read_resource` finds its
interrupts, exactly if it has interrupts and all of them are from eight on. -/
theorem route_lost_iff (template : TemplateAt data 0 [.smallIrq mask config]) (enough : 1 < turns) :
    (findRoute data 0 turns 0 .initial = some (.ok none) ∧
      ∃ irqs, laiReadResource data turns 0 [] = some (.ok irqs) ∧ irqs ≠ []) ↔
        mask.toNat % 256 = 0 ∧ mask ≠ 0 := by
  rw [findRoute_template template enough, laiReadResource_template template enough]
  refine and_congr ?_ ?_
  · have route : ([Descriptor.smallIrq mask config][0]?.bind Descriptor.route) =
        (Descriptor.smallIrq mask config).route := rfl
    have lost : (Descriptor.smallIrq mask config).route = none ↔ mask.toNat % 256 = 0 := route_small
    rw [route, ← lost, Option.some.injEq, Except.ok.injEq]
  · have all : ([Descriptor.smallIrq mask config].mapM Descriptor.collected).elim [] List.flatten =
        (irqsBelow 16 mask).map fun i =>
          ⟨BitVec.ofNat 32 i, config.getD acpiSmallIrqEdgeTriggered⟩ := List.append_nil _
    rw [all]
    constructor
    · rintro ⟨_, found, some_⟩ zero
      obtain rfl := Except.ok.inj (Option.some.inj found)
      rw [irqsBelow_sixteen_nil.mpr zero] at some_
      exact some_ rfl
    · intro some_
      exact ⟨_, rfl, mt List.map_eq_nil_iff.mp (mt irqsBelow_sixteen_nil.mp some_)⟩

theorem route_lost_ten :
    findRoute (templateBytes [.smallIrq 0x0C00 none] []) 0 2 0 .initial = some (.ok none) ∧
      ∃ irqs, laiReadResource (templateBytes [.smallIrq 0x0C00 none] []) 2 0 [] = some (.ok irqs) ∧
        irqs ≠ [] :=
  (route_lost_iff (templateAt_templateBytes (List.forall_mem_singleton.mpr trivial))
    (by decide)).mpr ⟨by decide, by decide⟩

end X86Os.Lai
