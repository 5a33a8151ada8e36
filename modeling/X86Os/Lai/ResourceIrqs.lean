import Mathlib.Data.Nat.Bitwise
import X86Os.Lai.ResourceTemplates

/-!
# Interrupts in resource templates

`lai_resource_next_irq` cuts the mask of a small descriptor to a byte, so that it
goes through the interrupts below eight only; `lai_read_resource` finds all
sixteen, but only the first interrupt of a large descriptor.
-/

namespace X86Os.Lai

open Library.Memory Library.LittleEndian
set_option autoImplicit false

variable {data : List Byte} {pos i n turns : ℕ} {d : Descriptor} {ds : List Descriptor}
  {it view : ResourceView} {mask : BitVec 16} {config : Option Byte}

/-! ### Masks -/

/-- The first element of a range that passes, and those behind it. -/
theorem filter_range'_of_find? {p : ℕ → Bool} {a j : ℕ}
    (found : (List.range' a n).find? p = some j) :
    a ≤ j ∧ j < a + n ∧
      (List.range' a n).filter p = j :: (List.range' (j + 1) (a + n - (j + 1))).filter p := by
  induction n generalizing a with
  | zero => cases found
  | succ n ih =>
    rw [List.range'_succ] at found ⊢
    by_cases passes : p a
    · rw [List.find?_cons_of_pos passes] at found
      obtain rfl := Option.some.inj found
      rw [List.filter_cons_of_pos passes, show a + (n + 1) - (a + 1) = n by omega]
      exact ⟨le_rfl, by omega, rfl⟩
    · rw [List.find?_cons_of_neg passes] at found
      obtain ⟨first, last, rest⟩ := ih found
      rw [List.filter_cons_of_neg passes, rest, show a + 1 + n = a + (n + 1) by omega]
      exact ⟨by omega, by omega, rfl⟩

theorem searchMask_eq (mask : Byte) (turns entryIdx : ℕ) : searchMask mask turns entryIdx =
    (List.range' entryIdx turns).find? fun i => mask.getLsbD i := by
  induction turns generalizing entryIdx with
  | zero => rfl
  | succ turns ih =>
    have bit : mask.toNat &&& 1 <<< entryIdx ≠ 0 ↔ mask.getLsbD entryIdx := by
      rw [Nat.one_shiftLeft, Nat.and_two_pow, BitVec.getLsbD]
      cases mask.toNat.testBit entryIdx <;> simp
    rw [searchMask, List.range'_succ, ih, List.find?_cons]
    by_cases set : mask.getLsbD entryIdx = true
    · rw [if_pos (bit.mpr set), set]
    · rw [if_neg (mt bit.mp set), Bool.eq_false_of_not_eq_true set]

def irqsBelow (limit : ℕ) (mask : BitVec 16) : List ℕ :=
  (List.range limit).filter fun i => mask.getLsbD i

/-- Of the mask that was cut to a byte the lower half is left. -/
theorem irqsBelow_eight : ((List.range' 0 16).filter fun i =>
    (BitVec.ofNat 8 mask.toNat).getLsbD i) = irqsBelow 8 mask := by
  have halves : List.range' 0 16 = List.range 8 ++ (List.range 8).map (8 + ·) := rfl
  rw [halves, List.filter_append]
  have upper : (((List.range 8).map (8 + ·)).filter fun i =>
      (BitVec.ofNat 8 mask.toNat).getLsbD i) = [] := by
    rw [List.filter_eq_nil_iff]
    intro i member
    obtain ⟨j, _, rfl⟩ := List.mem_map.mp member
    rw [BitVec.getLsbD_of_ge _ _ (Nat.le_add_right 8 j)]
    exact Bool.false_ne_true
  rw [upper, List.append_nil, irqsBelow]
  refine List.filter_congr fun i member => ?_
  rw [BitVec.getLsbD_ofNat, decide_eq_true (List.mem_range.mp member), Bool.true_and]
  rfl

/-- The loop of `lai_read_resource` finds the bits from `i` on. -/
theorem maskIrqs_eq (cleared : ∀ j < i, mask.getLsbD j = false) (upto : i + turns = 16) :
    maskIrqs turns mask i = (List.range' i turns).filter fun j => mask.getLsbD j := by
  induction turns generalizing mask i with
  | zero => rfl
  | succ turns ih =>
    rw [maskIrqs, List.range'_succ]
    split_ifs with zero set
    · rw [eq_comm, List.filter_eq_nil_iff, zero]
      intro j _
      exact Bool.eq_false_iff.mp BitVec.getLsbD_zero
    · have bit (j : ℕ) (inside : j < 16) :
          (mask &&& ~~~(1#16 <<< i)).getLsbD j = (mask.getLsbD j && decide (j ≠ i)) := by
        have one : (1#16 <<< i).getLsbD j = decide (j = i) := by
          rw [← BitVec.twoPow_eq, BitVec.getLsbD_twoPow, decide_eq_true (by omega : i < 16),
            Bool.true_and]
          exact decide_eq_decide.mpr eq_comm
        rw [BitVec.getLsbD_and, BitVec.getLsbD_not, one, decide_eq_true inside, Bool.true_and,
          decide_not]
      rw [List.filter_cons_of_pos set, ih _ (by omega)]
      · congr 1
        refine List.filter_congr fun j member => ?_
        obtain ⟨above, inside⟩ := List.mem_range'_1.mp member
        rw [bit j (by omega), decide_eq_true (by omega), Bool.and_true]
      · intro j below
        rw [bit j (by omega)]
        by_cases same : j = i
        · rw [decide_eq_false (not_not_intro same), Bool.and_false]
        · rw [cleared j (by omega), Bool.false_and]
    · rw [List.filter_cons_of_neg set]
      refine ih (fun j below => ?_) (by omega)
      by_cases same : j = i
      · rw [same]
        exact Bool.eq_false_of_not_eq_true set
      · exact cleared j (by omega)

theorem maskIrqs_sixteen : maskIrqs 16 mask 0 = irqsBelow 16 mask := by
  rw [maskIrqs_eq (fun j below => absurd below (Nat.not_lt_zero j)) rfl, ← List.range_eq_range']
  rfl

/-! ### The view -/

/-- Whether the byte that is left of the mask has the bit. -/
def inByte (mask : BitVec 16) (i : ℕ) : Bool := (BitVec.ofNat 8 mask.toNat).getLsbD i

theorem laiResourceNextIrq_small
    (here : (Descriptor.smallIrq mask config).bytes <+: data.drop it.entry) :
    laiResourceNextIrq data it =
      match (List.range' it.entryIdx (16 - it.entryIdx)).find? (inByte mask) with
      | some j => .ok (.none, { it with gsi := BitVec.ofNat 32 j, entryIdx := j + 1 })
      | none => .ok (.endReached, { it with entryIdx := max 16 it.entryIdx }) := by
  have ok : (Descriptor.smallIrq mask config).WellFormed := trivial
  have tag : resourceTag (0x04 : Byte) = .smallIrq := rfl
  rw [laiResourceNextIrq, laiGetHeaderInfo_bytes ok here, ok_bind]
  dsimp only [Descriptor.type]
  rw [tag]
  dsimp only
  rw [mask_of_small here, ok_bind, searchMask_eq]
  rfl

/-- From a small descriptor the view gets the interrupts below eight, in increasing order. -/
theorem nextAll_of_small
    (here : (Descriptor.smallIrq mask config).bytes <+: data.drop it.entry)
    (enough : 16 - it.entryIdx < turns) : nextAll data turns it =
      some (.ok (((List.range' it.entryIdx (16 - it.entryIdx)).filter (inByte mask)).map
        (BitVec.ofNat 32), .endReached)) := by
  induction turns generalizing it with
  | zero => omega
  | succ turns ih =>
    rw [nextAll, laiResourceNextIrq_small here]
    cases found : (List.range' it.entryIdx (16 - it.entryIdx)).find? (inByte mask) with
    | none =>
      have empty := List.filter_eq_nil_iff.mpr (List.find?_eq_none.mp found)
      rw [empty]
      rfl
    | some j =>
      obtain ⟨above, below, rest⟩ := filter_range'_of_find? found
      have upto : it.entryIdx + (16 - it.entryIdx) - (j + 1) = 16 - (j + 1) := by omega
      rw [upto] at rest
      have behind : nextAll data turns { it with gsi := BitVec.ofNat 32 j, entryIdx := j + 1 } =
          some (.ok (((List.range' (j + 1) (16 - (j + 1))).filter (inByte mask)).map
            (BitVec.ofNat 32), .endReached)) :=
        ih here (by dsimp only; omega)
      dsimp only
      rw [behind, rest]
      rfl

/-- The interrupts of a large descriptor. -/
theorem table_at {irqs : List Word} {rest : List Byte} {k : ℕ} {irq : Word}
    (found : irqs[k]? = some irq) : leBytes 4 irq.toNat <+:
      ((irqs.flatMap fun irq => leBytes 4 irq.toNat) ++ rest).drop (4 * k) := by
  induction irqs generalizing k with
  | nil => cases found
  | cons first irqs ih =>
    cases k with
    | zero =>
      obtain rfl := Option.some.inj found
      rw [List.flatMap_cons, List.append_assoc]
      exact List.prefix_append _ _
    | succ k =>
      have behind := ih (k := k) found
      rw [List.flatMap_cons, List.append_assoc, Nat.mul_succ, Nat.add_comm, ← List.drop_drop]
      exact behind

variable {flags : Byte} {irqs : List Word} {source : List Byte}

theorem laiResourceNextIrq_large (ok : (Descriptor.largeIrq flags irqs source).WellFormed)
    (low : it.entryIdx < irqs.length → it.entryIdx < 63)
    (here : (Descriptor.largeIrq flags irqs source).bytes <+: data.drop it.entry) :
    laiResourceNextIrq data it =
      match irqs[it.entryIdx]? with
      | some irq => .ok (.none, { it with gsi := irq, entryIdx := it.entryIdx + 1 })
      | none => .ok (.endReached, it) := by
  have tag : resourceTag (0x89 : Byte) = .largeIrq := rfl
  have count : readAt data (it.entry + 4) = .ok (BitVec.ofNat 8 irqs.length) :=
    readAt_of_bytes here rfl
  have length : (BitVec.ofNat 8 irqs.length : Byte).toNat = irqs.length := by
    rw [BitVec.toNat_ofNat]
    exact Nat.mod_eq_of_lt ok.2.1
  rw [laiResourceNextIrq, laiGetHeaderInfo_bytes ok here, ok_bind]
  dsimp only [Descriptor.type]
  rw [tag]
  dsimp only
  rw [count, ok_bind, length]
  cases found : irqs[it.entryIdx]? with
  | none =>
    rw [if_neg (List.getElem?_eq_none_iff.mp found).not_gt]
  | some irq =>
    obtain ⟨inside, _⟩ := List.getElem?_eq_some_iff.mp found
    -- The offset is a byte.
    have unwrapped := low inside
    have word : wordAt data (it.entry + (4 * it.entryIdx + 5)) 4 = .ok irq.toNat := by
      refine wordAt_of_bytes here ?_ (word32 irq)
      rw [Nat.add_comm, ← List.drop_drop]
      exact table_at found
    rw [if_pos inside, Nat.mod_eq_of_lt (by omega), word, ok_bind, BitVec.ofNat_toNat,
      BitVec.setWidth_eq]

/-- From a large descriptor it gets the whole table. -/
theorem nextAll_of_large (ok : (Descriptor.largeIrq flags irqs source).WellFormed)
    (few : irqs.length ≤ 63)
    (here : (Descriptor.largeIrq flags irqs source).bytes <+: data.drop it.entry)
    (enough : irqs.length - it.entryIdx < turns) :
    nextAll data turns it = some (.ok (irqs.drop it.entryIdx, .endReached)) := by
  induction turns generalizing it with
  | zero => omega
  | succ turns ih =>
    rw [nextAll, laiResourceNextIrq_large ok (fun inside => by omega) here]
    cases found : irqs[it.entryIdx]? with
    | none =>
      rw [List.drop_eq_nil_of_le (List.getElem?_eq_none_iff.mp found)]
    | some irq =>
      obtain ⟨inside, same⟩ := List.getElem?_eq_some_iff.mp found
      have behind : nextAll data turns { it with gsi := irq, entryIdx := it.entryIdx + 1 } =
          some (.ok (irqs.drop (it.entryIdx + 1), .endReached)) :=
        ih here (by dsimp only; omega)
      dsimp only
      rw [behind, List.drop_eq_getElem_cons inside, same]
      rfl

/-! ### What the view shows of a descriptor -/

namespace Descriptor

/-- The interrupts that the view shows: of a small descriptor those below eight. -/
def shown : Descriptor → Option (List Word)
  | smallIrq mask _ => some ((irqsBelow 8 mask).map (BitVec.ofNat 32))
  | largeIrq _ irqs _ => some irqs
  | _ => none

/-- A bit of the flags; a small descriptor without flags has it clear. -/
def flag (small large : Byte → Bool) : Descriptor → Bool
  | smallIrq _ config => config.any small
  | largeIrq config .. => large config
  | _ => false

def levelTriggered : Descriptor → Bool := flag (fun f => !f.getLsbD 0) fun f => !f.getLsbD 1

def activeLow : Descriptor → Bool := flag (fun f => f.getLsbD 3) fun f => f.getLsbD 2

end Descriptor

theorem irqFlag_bytes {small large : Byte → Bool} (ok : d.WellFormed) (irq : d.shown = some irqs)
    (here : d.bytes <+: data.drop it.entry) :
    irqFlag small large data it = .ok (d.flag small large) := by
  rw [irqFlag, laiGetHeaderInfo_bytes ok here, ok_bind]
  cases d with
  | smallIrq mask config =>
    cases config with
    | none => rfl
    | some config =>
      dsimp only [Descriptor.type]
      rw [config_of_small here]
      rfl
  | largeIrq config irqs source =>
    dsimp only [Descriptor.type]
    rw [config_of_large here]
    rfl
  | _ => cases irq

theorem laiResourceIrqIsLevelTriggered_bytes (ok : d.WellFormed) (irq : d.shown = some irqs)
    (here : d.bytes <+: data.drop it.entry) :
    laiResourceIrqIsLevelTriggered data it = .ok d.levelTriggered := by
  have small : ∀ f : Byte, decide (f &&& acpiSmallIrqEdgeTriggered = 0) = !f.getLsbD 0 := by decide
  have large : ∀ f : Byte, decide (f &&& acpiExtendedIrqEdgeTriggered = 0) = !f.getLsbD 1 := by
    decide
  rw [laiResourceIrqIsLevelTriggered, irqFlag_bytes ok irq here, funext small, funext large]
  rfl

theorem laiResourceIrqIsActiveLow_bytes (ok : d.WellFormed) (irq : d.shown = some irqs)
    (here : d.bytes <+: data.drop it.entry) :
    laiResourceIrqIsActiveLow data it = .ok d.activeLow := by
  have small : ∀ f : Byte, decide (f &&& acpiSmallIrqActiveLow ≠ 0) = f.getLsbD 3 := by decide
  have large : ∀ f : Byte, decide (f &&& acpiExtendedIrqActiveLow ≠ 0) = f.getLsbD 2 := by decide
  rw [laiResourceIrqIsActiveLow, irqFlag_bytes ok irq here, funext small, funext large]
  rfl

theorem nextAll_bytes (ok : d.WellFormed) (irq : d.shown = some irqs) (few : irqs.length ≤ 63)
    (here : d.bytes <+: data.drop it.entry) (start : it.entryIdx = 0) (enough : 63 < turns) :
    nextAll data turns it = some (.ok (irqs, .endReached)) := by
  cases d with
  | smallIrq mask config =>
    obtain rfl := Option.some.inj irq
    have low : (List.range' 0 (16 - 0)).filter (inByte mask) = irqsBelow 8 mask := irqsBelow_eight
    rw [nextAll_of_small here (by omega), start, low]
  | largeIrq config irqs' source =>
    obtain rfl := Option.some.inj irq
    rw [nextAll_of_large ok few here (by omega), start]
    rfl
  | _ => cases irq

theorem viewed_entryIdx {entry : ℕ} {before : ResourceView} (irq : d.shown = some irqs) :
    (d.viewed entry before).entryIdx = 0 := by
  cases d with
  | smallIrq | largeIrq => rfl
  | _ => cases irq

/-- At a descriptor of interrupts of an encoded template the view shows its interrupts with its
flags, except those of a small descriptor from eight on. -/
theorem template_irqs {k : ℕ} (template : TemplateAt data 0 ds) (found : ds[k]? = some d)
    (irq : d.shown = some irqs) (few : irqs.length ≤ 63) (enough : 63 < turns) :
    ∃ view, (viewsOf ds .initial)[k]? = some view ∧
      nextAll data turns view = some (.ok (irqs, .endReached)) ∧
        laiResourceIrqIsLevelTriggered data view = .ok d.levelTriggered ∧
          laiResourceIrqIsActiveLow data view = .ok d.activeLow := by
  obtain ⟨view, before, shown, same, ok, here⟩ := viewsOf_at template.initial found
  have fresh : view.entryIdx = 0 := by
    rw [same]
    exact viewed_entryIdx irq
  exact ⟨view, shown, nextAll_bytes ok irq few here fresh enough,
    laiResourceIrqIsLevelTriggered_bytes ok irq here, laiResourceIrqIsActiveLow_bytes ok irq here⟩

theorem linkTemplate_irqs : ∃ view, (viewsOf linkTemplate .initial)[1]? = some view ∧
    nextAll (templateBytes linkTemplate []) 64 view = some (.ok ([17, 42], .endReached)) ∧
      laiResourceIrqIsLevelTriggered (templateBytes linkTemplate []) view =
          .ok (Descriptor.largeIrq 6 [17, 42] []).levelTriggered ∧
        laiResourceIrqIsActiveLow (templateBytes linkTemplate []) view =
          .ok (Descriptor.largeIrq 6 [17, 42] []).activeLow :=
  template_irqs (templateAt_templateBytes linkTemplate_wellFormed) rfl rfl (by decide) (by decide)

end X86Os.Lai
