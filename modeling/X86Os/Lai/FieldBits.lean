import X86Os.Lai.Fields

/-!
# The bits of a field

Over a region that behaves like memory a read returns the bits of the field, and
a write replaces them and treats the other bits of the touched words as the
update rule says. The exception are words of 32 bits that belong to the field as
a whole. Their mask is zero: they read as zero, and a write leaves them to the
update rule. Words of 64 bits are left out, since `uint64_t` has 32 bits.
-/

namespace X86Os.Lai

open Library.Memory Library.BitBuffer
set_option autoImplicit false

variable {σ : Type} {region : RegionAccess σ} {bits : σ → ℕ → Bool} {limit a : ℕ} {s : σ}
  {field : Field} {turns progress offset : ℕ} {source destination : List Byte}

def Narrow (a : ℕ) : Prop := a = 8 ∨ a = 16 ∨ a = 32

/-- A region up to `limit` whose bits stay until they are written. -/
structure RamLike (region : RegionAccess σ) (bits : σ → ℕ → Bool) (limit : ℕ) : Prop where
  read : ∀ (s : σ) (k o : ℕ), Narrow k → 8 * o + k ≤ limit →
    ∃ v, region.performRead s k o = .ok v ∧
      ∀ i, v.getLsbD i = (decide (i < k) && bits s (8 * o + i))
  write : ∀ (s : σ) (k o : ℕ) (v : Word), Narrow k → 8 * o + k ≤ limit →
    ∃ s', region.performWrite s k o v = .ok s' ∧ ∀ j < limit,
      bits s' j = if 8 * o ≤ j ∧ j < 8 * o + k then v.getLsbD (j - 8 * o) else bits s j

def wordEnd (field : Field) (a : ℕ) : ℕ := (field.start + field.fldSize + (a - 1)) / a * a

/-- Bit `j` is in a word of 32 bits that belongs to the field as a whole. -/
def Whole (field : Field) (a j : ℕ) : Prop :=
  a = 32 ∧ field.start ≤ j / a * a ∧ j / a * a + a ≤ field.start + field.fldSize

instance (field : Field) (a j : ℕ) : Decidable (Whole field a j) := inferInstanceAs (Decidable (_ ∧ _))

/-- The bits that reads and writes of the field move. -/
def Held (field : Field) (a j : ℕ) : Prop :=
  field.start ≤ j ∧ j < field.start + field.fldSize ∧ ¬Whole field a j

instance (field : Field) (a j : ℕ) : Decidable (Held field a j) := inferInstanceAs (Decidable (_ ∧ _))

/-- The offset is that of the word with the next bit, which only the first turn finds inside its word. -/
def Placed (field : Field) (a progress offset : ℕ) : Prop :=
  8 * offset + (field.start + progress) % a = field.start + progress ∧
    (progress = 0 ∨ (field.start + progress) % a = 0)

/-- The bits of one turn, and where the next one starts. -/
theorem turn_bounds (narrow : Narrow a) (more : progress < field.fldSize)
    (placed : Placed field a progress offset) {bitOffset n : ℕ}
    (atBit : bitOffset = (field.start + progress) % a)
    (size : n = min (field.fldSize - progress) (a - bitOffset)) :
    0 < n ∧ bitOffset + n ≤ a ∧ a ≤ 32 ∧ progress + n ≤ field.fldSize ∧
      8 * offset + a ≤ wordEnd field a ∧
        (progress + n < field.fldSize → Placed field a (progress + n) (offset + a / 8)) ∧
          (field.fldSize ≤ progress + n → wordEnd field a = 8 * offset + a) ∧
            8 * (offset + a / 8) = 8 * offset + a := by
  unfold Placed wordEnd at *
  obtain rfl | rfl | rfl := narrow <;> omega

/-- A turn moves 32 bits exactly in the words that belong to the field as a whole. -/
theorem whole_iff (narrow : Narrow a) (more : progress < field.fldSize)
    (placed : Placed field a progress offset) {bitOffset n j : ℕ}
    (atBit : bitOffset = (field.start + progress) % a)
    (size : n = min (field.fldSize - progress) (a - bitOffset)) (atLeast : 8 * offset ≤ j)
    (below : j < 8 * offset + a) : Whole field a j ↔ n = 32 := by
  unfold Placed at placed
  unfold Whole
  obtain rfl | rfl | rfl := narrow <;> omega

theorem getLsbD_fieldMask {n : ℕ} (few : n ≤ 32) (i : ℕ) :
    (fieldMask n).getLsbD i = decide (i < n ∧ n ≠ 32) := by
  obtain part | rfl := lt_or_eq_of_le few
  · rw [fieldMask, Nat.mod_eq_of_lt part, getLsbD_lowMask part, decide_eq_decide,
      and_iff_left (Nat.ne_of_lt part)]
  · rw [decide_eq_false (fun both => both.2 rfl), show fieldMask 32 = 0 from rfl]
    exact BitVec.getLsbD_zero

theorem firstOffset_placed (narrow : Narrow a) : Placed field a 0 (firstOffset field a) := by
  unfold Placed firstOffset
  obtain rfl | rfl | rfl := narrow <;> omega

/-! ### Reads -/

theorem readLoop_spec (ram : RamLike region bits limit) (narrow : Narrow a)
    (inside : wordEnd field a ≤ limit) (room : field.fldSize ≤ 8 * destination.length)
    (placed : progress < field.fldSize → Placed field a progress offset)
    (enough : field.fldSize - progress < turns) :
    ∃ destination', readLoop region s field a turns progress offset destination = .ok destination' ∧
      destination'.length = destination.length ∧ ∀ j, bit destination' j =
        (bit destination j || decide (progress ≤ j ∧ j < field.fldSize) &&
          (!decide (Whole field a (field.start + j)) && bits s (field.start + j))) := by
  induction turns generalizing progress offset destination with
  | zero => exact absurd enough (Nat.not_lt_zero _)
  | succ turns ih =>
    rw [readLoop]
    split_ifs with more
    · dsimp only
      generalize atBit : (field.start + progress) % a = bitOffset
      generalize size : min (field.fldSize - progress) (a - bitOffset) = n
      obtain ⟨pos, fits, small, upto, word, next, _, _⟩ :=
        turn_bounds narrow more (placed more) atBit.symm size.symm
      obtain ⟨v, got, word'⟩ := ram.read s a offset narrow (by omega)
      rw [got, ok_bind, Nat.mod_eq_of_lt (show bitOffset < 32 by omega)]
      obtain ⟨after, put, length, turn⟩ := laiBufferPutAt_spec ((v >>> bitOffset) &&& fieldMask n)
        (show progress + n ≤ 8 * destination.length by omega) (by omega)
      rw [put, ok_bind]
      obtain ⟨destination', done, length', rest⟩ :=
        ih (show field.fldSize ≤ 8 * after.length by rwa [length]) next (by omega)
      refine ⟨destination', done, length'.trans length, fun j => ?_⟩
      have piece : (decide (progress ≤ j ∧ j < progress + n) &&
          ((v >>> bitOffset) &&& fieldMask n).getLsbD (j - progress)) =
            (decide (progress ≤ j ∧ j < progress + n) &&
              (!decide (Whole field a (field.start + j)) && bits s (field.start + j))) := by
        obtain out | ⟨atLeast, below⟩ := em' (progress ≤ j ∧ j < progress + n)
        · rw [decide_eq_false out, Bool.false_and, Bool.false_and]
        have place : 8 * offset + bitOffset = field.start + progress := by
          rw [← atBit]
          exact (placed more).1
        have whole : Whole field a (field.start + j) ↔ n = 32 :=
          whole_iff narrow more (placed more) atBit.symm size.symm (by omega) (by omega)
        have moved : decide (j - progress < n ∧ n ≠ 32) = !decide (Whole field a (field.start + j)) := by
          rw [← decide_not, decide_eq_decide, whole]
          exact and_iff_right (by omega)
        rw [BitVec.getLsbD_and, BitVec.getLsbD_ushiftRight, getLsbD_fieldMask (by omega), word',
          decide_eq_true (show bitOffset + (j - progress) < a by omega), Bool.true_and, moved,
          show 8 * offset + (bitOffset + (j - progress)) = field.start + j by omega,
          Bool.and_comm (bits _ _)]
      rw [rest, turn, piece, Bool.or_assoc, join_ranges (by omega) upto]
    · refine ⟨destination, rfl, rfl, fun j => ?_⟩
      rw [decide_eq_false (by omega), Bool.false_and, Bool.or_false]

/-! ### Writes -/

/-- `(fld_flags >> 5) & 0x0F`. -/
def writeFlag (field : Field) : ℕ := ((field.fldFlags >>> 5) &&& 0x0F).toNat

/-- What the update rule makes of a bit that is not in the field. -/
def updated (field : Field) (old : Bool) : Bool :=
  match writeFlag field with
  | 0 => old
  | 1 => true
  | _ => false

theorem wordBefore_spec (ram : RamLike region bits limit) (narrow : Narrow a)
    (inside : 8 * offset + a ≤ limit) (rule : writeFlag field ≤ 2) (s : σ) :
    ∃ v, wordBefore region s field a offset = .ok v ∧
      ∀ i < a, v.getLsbD i = updated field (bits s (8 * offset + i)) := by
  have few : a ≤ 32 := by
    obtain rfl | rfl | rfl := narrow <;> decide
  unfold wordBefore updated
  rw [← writeFlag]
  generalize writeFlag field = flag at rule
  obtain rfl | rfl | rfl : flag = 0 ∨ flag = 1 ∨ flag = 2 := by omega
  · obtain ⟨v, got, word⟩ := ram.read s a offset narrow inside
    refine ⟨v, got, fun i below => ?_⟩
    rw [word, decide_eq_true below]
    rfl
  · refine ⟨_, rfl, fun i below => ?_⟩
    rw [BitVec.getLsbD_allOnes, decide_eq_true (by omega)]
    rfl
  · exact ⟨_, rfl, fun i _ => BitVec.getLsbD_zero⟩

/-- The word that one turn writes: `n` new bits from `bitOffset` on, the others as they were. -/
theorem getLsbD_written {bitOffset n i : ℕ} (before newVal : Word) (fits : bitOffset + n ≤ 32)
    (below : i < 32) :
    ((before &&& ~~~(fieldMask n <<< bitOffset)) |||
      ((newVal <<< bitOffset) &&& (fieldMask n <<< bitOffset))).getLsbD i =
        if bitOffset ≤ i ∧ i < bitOffset + n ∧ n ≠ 32 then newVal.getLsbD (i - bitOffset)
        else before.getLsbD i := by
  have mask : (fieldMask n <<< bitOffset).getLsbD i =
      decide (bitOffset ≤ i ∧ i < bitOffset + n ∧ n ≠ 32) := by
    rw [BitVec.getLsbD_shiftLeft, getLsbD_fieldMask (by omega), decide_eq_true below, Bool.true_and,
      ← decide_not, ← Bool.decide_and, decide_eq_decide]
    omega
  rw [BitVec.getLsbD_or, BitVec.getLsbD_and, BitVec.getLsbD_and, BitVec.getLsbD_not, mask,
    BitVec.getLsbD_shiftLeft, decide_eq_true below, Bool.true_and, Bool.true_and]
  split_ifs with range
  · rw [decide_eq_true range, decide_eq_false (not_lt_of_ge range.1)]
    simp
  · rw [decide_eq_false range]
    simp

theorem writeLoop_spec (ram : RamLike region bits limit) (narrow : Narrow a)
    (inside : wordEnd field a ≤ limit) (room : field.fldSize ≤ 8 * source.length)
    (rule : writeFlag field ≤ 2)
    (placed : progress < field.fldSize → Placed field a progress offset)
    (enough : field.fldSize - progress < turns) :
    ∃ s', writeLoop region source field a turns progress offset s = .ok s' ∧ ∀ j < limit,
      bits s' j =
        if field.start + progress ≤ j ∧ j < field.start + field.fldSize ∧ ¬Whole field a j then
          bit source (j - field.start)
        else if progress < field.fldSize ∧ 8 * offset ≤ j ∧ j < wordEnd field a then
          updated field (bits s j)
        else bits s j := by
  induction turns generalizing progress offset s with
  | zero => exact absurd enough (Nat.not_lt_zero _)
  | succ turns ih =>
    rw [writeLoop]
    split_ifs with more
    · dsimp only
      generalize atBit : (field.start + progress) % a = bitOffset
      generalize size : min (field.fldSize - progress) (a - bitOffset) = n
      obtain ⟨pos, fits, small, upto, word, next, last, further⟩ :=
        turn_bounds narrow more (placed more) atBit.symm size.symm
      have place : 8 * offset + bitOffset = field.start + progress := by
        rw [← atBit]
        exact (placed more).1
      obtain ⟨before, got, ruled⟩ := wordBefore_spec ram narrow (word.trans inside) rule s
      obtain ⟨newVal, read, news⟩ := laiBufferGetAt_spec
        (show progress + n ≤ 8 * source.length by omega) (by omega)
      rw [got, ok_bind, read, ok_bind, Nat.mod_eq_of_lt (show bitOffset < 32 by omega)]
      obtain ⟨s₁, wrote, turn⟩ := ram.write s a offset _ narrow (word.trans inside)
      rw [wrote, ok_bind]
      obtain ⟨s', done, rest⟩ := ih next (by omega)
      refine ⟨s', done, fun j below => ?_⟩
      have later : progress + n < field.fldSize → 8 * offset + a ≤ field.start + (progress + n) :=
        fun some_ => by
          have placed' := (next some_).1
          rw [further] at placed'
          omega
      have notYet {lo : ℕ} (before : j < lo) :
          ¬(lo ≤ j ∧ j < field.start + field.fldSize ∧ ¬Whole field a j) := fun held =>
        absurd held.1 (not_le_of_gt before)
      rw [rest j below, turn j below, further]
      obtain front | ⟨atLeast, less⟩ | behind :
          j < 8 * offset ∨ (8 * offset ≤ j ∧ j < 8 * offset + a) ∨ 8 * offset + a ≤ j := by
        omega
      · rw [if_neg (notYet (by omega)), if_neg (by omega), if_neg (by omega), if_neg (notYet (by omega)),
          if_neg (by omega)]
      · have here : 8 * offset + (j - 8 * offset) = j := by omega
        have whole : Whole field a j ↔ n = 32 :=
          whole_iff narrow more (placed more) atBit.symm size.symm atLeast less
        have nextTurn : ¬(field.start + (progress + n) ≤ j ∧ j < field.start + field.fldSize ∧
            ¬Whole field a j) := by
          rintro ⟨low, high, _⟩
          omega
        rw [if_neg nextTurn, if_neg (by omega), if_pos ⟨atLeast, less⟩,
          getLsbD_written before newVal (by omega) (by omega), ruled _ (by omega), here, news]
        obtain part | out :=
          em (bitOffset ≤ j - 8 * offset ∧ j - 8 * offset < bitOffset + n ∧ n ≠ 32)
        · rw [if_pos part, decide_eq_true (by omega), Bool.true_and,
            if_pos ⟨by omega, by omega, mt whole.mp part.2.2⟩]
          congr 1
          omega
        · have kept : ¬(field.start + progress ≤ j ∧ j < field.start + field.fldSize ∧
              ¬Whole field a j) := fun ⟨low, high, part⟩ =>
            out ⟨by omega, by omega, mt whole.mpr part⟩
          rw [if_neg out, if_neg kept, if_pos ⟨more, atLeast, by omega⟩]
      · have same : (field.start + (progress + n) ≤ j ∧ j < field.start + field.fldSize ∧
            ¬Whole field a j) ↔
              field.start + progress ≤ j ∧ j < field.start + field.fldSize ∧ ¬Whole field a j := by
          rw [← and_assoc, ← and_assoc]
          exact and_congr_left' (by omega)
        have touched : (progress + n < field.fldSize ∧ 8 * offset + a ≤ j ∧ j < wordEnd field a) ↔
            progress < field.fldSize ∧ 8 * offset ≤ j ∧ j < wordEnd field a := by
          omega
        rw [if_neg (show ¬(8 * offset ≤ j ∧ j < 8 * offset + a) by omega), if_congr same rfl rfl,
          if_congr touched rfl rfl]
    · refine ⟨s, rfl, fun j _ => ?_⟩
      rw [if_neg (by omega), if_neg (fun some_ => more some_.1)]

/-! ### Whole fields -/

structure Accessible (field : Field) (limit a : ℕ) : Prop where
  width : laiCalculateAccessWidth field = .ok a
  narrow : Narrow a
  inside : wordEnd field a ≤ limit

theorem laiReadFieldInternal_spec (ram : RamLike region bits limit)
    (field_ : Accessible field limit a) (room : field.fldSize ≤ 8 * destination.length) :
    ∃ destination', laiReadFieldInternal region s destination field = .ok destination' ∧
      destination'.length = destination.length ∧ ∀ j, bit destination' j =
        (bit destination j || decide (Held field a (field.start + j)) && bits s (field.start + j)) := by
  obtain ⟨destination', done, length, all⟩ := readLoop_spec (s := s) ram field_.narrow field_.inside room
    (fun _ => firstOffset_placed field_.narrow) (Nat.lt_succ_self _)
  rw [laiReadFieldInternal, field_.width, ok_bind]
  refine ⟨destination', done, length, fun j => ?_⟩
  have range : (0 ≤ j ∧ j < field.fldSize) ∧ ¬Whole field a (field.start + j) ↔
      Held field a (field.start + j) := by
    rw [Held, ← and_assoc]
    exact and_congr_left' (by omega)
  rw [all, ← Bool.and_assoc, ← decide_not, ← Bool.decide_and, decide_eq_decide.mpr range]

theorem laiWriteFieldInternal_spec (ram : RamLike region bits limit)
    (field_ : Accessible field limit a) (rule : writeFlag field ≤ 2)
    (room : field.fldSize ≤ 8 * source.length) (s : σ) :
    ∃ s', laiWriteFieldInternal region s source field = .ok s' ∧ ∀ j < limit, bits s' j =
      if Held field a j then bit source (j - field.start)
      else if 0 < field.fldSize ∧ field.start / a * a ≤ j ∧ j < wordEnd field a then
        updated field (bits s j)
      else bits s j := by
  obtain ⟨s', done, all⟩ := writeLoop_spec (s := s) ram field_.narrow field_.inside room rule
    (fun _ => firstOffset_placed field_.narrow) (Nat.lt_succ_self _)
  have first : 8 * firstOffset field a = field.start / a * a := by
    rw [firstOffset]
    obtain rfl | rfl | rfl := field_.narrow <;> omega
  rw [laiWriteFieldInternal, field_.width, ok_bind]
  refine ⟨s', done, fun j below => ?_⟩
  rw [all j below, first]
  rfl

/-! ### Integers -/

theorem length_toFieldBytes (value : Word) : (toFieldBytes value).length = 8 := by
  rw [toFieldBytes, List.length_map, List.length_range]

theorem bit_toFieldBytes (value : Word) {j : ℕ} (below : j < 32) :
    bit (toFieldBytes value) j = value.getLsbD j := by
  rw [bit, toFieldBytes, List.getD_eq_getElem _ _ (by rw [List.length_map, List.length_range]; omega),
    List.getElem_map, List.getElem_range, Nat.mod_eq_of_lt (show j / 8 * 8 < 32 by omega),
    BitVec.getLsbD_setWidth, BitVec.getLsbD_and, BitVec.getLsbD_ushiftRight,
    show (0xFF : Word) = (1#32 <<< 8) - 1#32 from rfl, getLsbD_lowMask (by decide),
    decide_eq_true (Nat.mod_lt j (by decide)), Bool.true_and, Bool.and_true]
  congr 1
  omega

theorem getLsbD_ofFieldBytes {buf : List Byte} (few : buf.length ≤ 4) (i : ℕ) :
    (ofFieldBytes buf).getLsbD i = bit buf i := by
  have upTo (n : ℕ) (fits : n ≤ 4) : ((List.range n).foldl
      (fun value i => value ||| (buf.getD i 0).setWidth 32 <<< (i * 8 % 32)) (0 : Word)).getLsbD i =
        (decide (i < 8 * n) && bit buf i) := by
    induction n with
    | zero => exact BitVec.getLsbD_zero
    | succ n ih =>
      rw [List.range_succ, List.foldl_append, List.foldl_cons, List.foldl_nil, BitVec.getLsbD_or,
        ih (by omega), Nat.mod_eq_of_lt (show n * 8 < 32 by omega), BitVec.getLsbD_shiftLeft,
        BitVec.getLsbD_setWidth]
      obtain before | ⟨here, fits'⟩ | behind : i < 8 * n ∨ (8 * n ≤ i ∧ i < 8 * (n + 1)) ∨
          8 * (n + 1) ≤ i := by
        omega
      · rw [decide_eq_true before, decide_eq_true (show i < n * 8 by omega),
          decide_eq_true (show i < 8 * (n + 1) by omega), Bool.not_true, Bool.and_false,
          Bool.false_and, Bool.or_false]
      · rw [decide_eq_false (show ¬i < 8 * n by omega), decide_eq_false (show ¬i < n * 8 by omega),
          decide_eq_true (show i < 32 by omega), decide_eq_true (show i - n * 8 < 32 by omega),
          decide_eq_true fits', bit, show i / 8 = n by omega, show i % 8 = i - n * 8 by omega]
        rfl
      · rw [decide_eq_false (show ¬i < 8 * n by omega), BitVec.getLsbD_of_ge _ (i - n * 8) (by omega),
          decide_eq_false (show ¬i < 8 * (n + 1) by omega), Bool.false_and, Bool.false_or,
          Bool.and_false, Bool.and_false]
  have whole := upTo buf.length few
  rw [ofFieldBytes, whole]
  obtain inside | out := lt_or_ge i (8 * buf.length)
  · rw [decide_eq_true inside, Bool.true_and]
  · rw [decide_eq_false (not_lt_of_ge out), Bool.false_and, bit, List.getD_eq_default _ _ (by omega)]
    exact BitVec.getLsbD_zero.symm

/-- The bytes of a value, four where it is an integer. -/
def FieldValue.bytes : FieldValue → List Byte
  | .integer value => (toFieldBytes value).take 4
  | .buffer content => content

theorem bit_integer (value : Word) {j : ℕ} (below : j < 32) :
    bit (FieldValue.integer value).bytes j = value.getLsbD j := by
  rw [← bit_toFieldBytes value below, bit, bit, FieldValue.bytes, List.getD_eq_getElem?_getD,
    List.getElem?_take_of_lt (by omega), ← List.getD_eq_getElem?_getD]

/-! ### Regions in memory -/

/-- `lai_perform_read` and `lai_perform_write` on a region at `opBase` of the memory; `laihost_map`
takes a 32-bit address and returns it. An access of 64 bits goes through a `uint64_t` of four bytes. -/
def memoryRegion (opBase : Word) : RegionAccess Mem where
  performRead m accessSize offset :=
    if accessSize ∈ [8, 16, 32, 64] then
      .ok (ofFieldBytes (loadBytes m (opBase + BitVec.ofNat 32 offset) (min (accessSize / 8) 4)))
    else .error .ensure
  performWrite m accessSize offset value :=
    if accessSize ∈ [8, 16, 32, 64] then
      .ok (storeBytes m (opBase + BitVec.ofNat 32 offset)
        ((toFieldBytes value).take (min (accessSize / 8) 4)))
    else .error .ensure

def memoryBit (opBase : Word) (m : Mem) (j : ℕ) : Bool :=
  (m (opBase + BitVec.ofNat 32 (j / 8))).getLsbD (j % 8)

theorem bit_loadBytes (m : Mem) (opBase : Word) (o n i : ℕ) :
    bit (loadBytes m (opBase + BitVec.ofNat 32 o) n) i =
      (decide (i < 8 * n) && memoryBit opBase m (8 * o + i)) := by
  obtain inside | out := lt_or_ge (i / 8) n
  · rw [bit, loadBytes, List.getD_eq_getElem _ _ (by rwa [List.length_map, List.length_range]),
      List.getElem_map, List.getElem_range, decide_eq_true (show i < 8 * n by omega), memoryBit,
      show (8 * o + i) / 8 = o + i / 8 by omega, show (8 * o + i) % 8 = i % 8 by omega,
      BitVec.ofNat_add, add_assoc]
    rfl
  · rw [bit, List.getD_eq_default _ _ (by rwa [loadBytes, List.length_map, List.length_range]),
      decide_eq_false (show ¬i < 8 * n by omega)]
    exact BitVec.getLsbD_zero

theorem Narrow.bytes {k : ℕ} (narrow : Narrow k) :
    k ∈ [8, 16, 32, 64] ∧ k = 8 * (min (k / 8) 4) ∧ min (k / 8) 4 ≤ 4 := by
  obtain rfl | rfl | rfl := narrow <;> decide

/-- Memory behaves like memory, as far as the addresses do not wrap around. -/
theorem memoryRegion_ramLike (opBase : Word) :
    RamLike (memoryRegion opBase) (memoryBit opBase) (8 * (2 ^ 32 - opBase.toNat)) where
  read m k o narrow inside := by
    obtain ⟨listed_, bytes, few⟩ := narrow.bytes
    refine ⟨_, if_pos listed_, fun i => ?_⟩
    rw [getLsbD_ofFieldBytes (by rw [loadBytes, List.length_map, List.length_range]; exact few),
      bit_loadBytes, ← bytes]
  write m k o v narrow inside := by
    obtain ⟨listed_, bytes, few⟩ := narrow.bytes
    refine ⟨_, if_pos listed_, fun j below => ?_⟩
    generalize min (k / 8) 4 = n at bytes few ⊢
    have length : ((toFieldBytes v).take n).length = n := by
      rw [List.length_take, length_toFieldBytes, Nat.min_eq_left (by omega)]
    have base := opBase.isLt
    have place : (opBase + BitVec.ofNat 32 (j / 8) - (opBase + BitVec.ofNat 32 o)).toNat < n ↔
        8 * o ≤ j ∧ j < 8 * o + k := by
      rw [show opBase + BitVec.ofNat 32 (j / 8) - (opBase + BitVec.ofNat 32 o) =
        BitVec.ofNat 32 (j / 8) - BitVec.ofNat 32 o by ring, BitVec.toNat_sub, BitVec.toNat_ofNat,
        BitVec.toNat_ofNat]
      omega
    split_ifs with range
    · have index : (BitVec.ofNat 32 (j / 8 - o)).toNat = j / 8 - o := by
        rw [BitVec.toNat_ofNat]
        omega
      have here : (BitVec.ofNat 32 (j / 8 - o)).toNat < ((toFieldBytes v).take n).length := by
        omega
      have address : opBase + BitVec.ofNat 32 (j / 8) =
          opBase + BitVec.ofNat 32 o + BitVec.ofNat 32 (j / 8 - o) := by
        rw [add_assoc, ← BitVec.ofNat_add, show o + (j / 8 - o) = j / 8 by omega]
      rw [memoryBit, address, storeBytes_add here, List.getElem_take, ← bit_toFieldBytes v (by omega), bit,
        show (j - 8 * o) / 8 = j / 8 - o by omega, show (j - 8 * o) % 8 = j % 8 by omega,
        List.getD_eq_getElem _ _ (by rw [length_toFieldBytes]; omega)]
      simp only [index]
    · rw [memoryBit, storeBytes_outside (by rwa [Covers, length, place]), memoryBit]

/-! ### Writes and reads -/

/-- A field with bits 3 to 12, in bytes, that preserves its surroundings. -/
def smallField : Field := ⟨0x01, 3, 10, true, by decide⟩

theorem smallField_accessible : Accessible smallField (8 * (2 ^ 32 - (0x1000 : Word).toNat)) 8 :=
  ⟨rfl, .inl rfl, by decide⟩

/-- A write replaces the bits of the field, except for its whole words of 32 bits. It changes these and
the other bits of the touched words as the update rule says, and no bit of any other word. -/
theorem laiWriteField_bits (ram : RamLike region bits limit) (accessible : Accessible field limit a)
    (rule : writeFlag field ≤ 2) (value : FieldValue)
    (room : field.fldSize ≤ 8 * value.bytes.length) (s : σ) :
    ∃ s', laiWriteField region s field value = .ok s' ∧ ∀ j < limit, bits s' j =
      if Held field a j then bit value.bytes (j - field.start)
      else if 0 < field.fldSize ∧ field.start / a * a ≤ j ∧ j < wordEnd field a then
        updated field (bits s j)
      else bits s j := by
  cases value with
  | integer value =>
    have short : field.fldSize ≤ 32 := by
      rwa [FieldValue.bytes, List.length_take, length_toFieldBytes] at room
    obtain ⟨s', wrote, written⟩ := laiWriteFieldInternal_spec ram accessible rule
      (show field.fldSize ≤ 8 * (toFieldBytes value).length by rw [length_toFieldBytes]; omega) s
    refine ⟨s', wrote, fun j below => (written j below).trans (ite_congr rfl (fun held => ?_) fun _ => rfl)⟩
    have near : j - field.start < 32 := by
      have high := held.2.1
      omega
    rw [bit_toFieldBytes value near, bit_integer value near]
  | buffer content => exact laiWriteFieldInternal_spec ram accessible rule room s

theorem laiWriteField_bits_of_small : ∃ m,
    laiWriteField (memoryRegion 0x1000) (fun _ => 0) smallField (.buffer [0xFF, 0x03]) = .ok m ∧
      ∀ j < 8 * (2 ^ 32 - (0x1000 : Word).toNat), memoryBit 0x1000 m j =
        if Held smallField 8 j then bit [0xFF, 0x03] (j - 3)
        else if 0 < 10 ∧ 3 / 8 * 8 ≤ j ∧ j < wordEnd smallField 8 then
          updated smallField (memoryBit 0x1000 (fun _ => 0) j)
        else memoryBit 0x1000 (fun _ => 0) j :=
  laiWriteField_bits (memoryRegion_ramLike 0x1000) smallField_accessible (by decide)
    (.buffer [0xFF, 0x03]) (by decide) _

/-- A dword of the region written as a whole stays as it is. -/
example : (laiWriteField (memoryRegion 0x1000) (fun _ => 0x11) ⟨0x03, 0, 32, true, by decide⟩
    (.integer 0xFFFFFFFF)).map (fun m => loadBytes m 0x1000 4) = .ok [0x11, 0x11, 0x11, 0x11] := by
  decide +kernel

/-- After an integer has been written to a field that preserves its surroundings, every field of up to
32 bits reads the new bits where the two overlap and the old ones elsewhere; a whole word of 32 bits is
not written, and reads as zero. -/
theorem laiReadField_laiWriteField (ram : RamLike region bits limit) {f g : Field} {b : ℕ}
    (accessible : Accessible f limit a) (preserves : writeFlag f = 0) (fits : f.fldSize ≤ 32)
    (accessible' : Accessible g limit b) (fits' : g.fldSize ≤ 32) (s : σ) (value : Word) :
    ∃ s' r, laiWriteField region s f (.integer value) = .ok s' ∧
      laiReadField region s' g = .ok (.integer r) ∧ ∀ i, r.getLsbD i =
        (decide (Held g b (g.start + i)) &&
          if Held f a (g.start + i) then value.getLsbD (g.start + i - f.start)
          else bits s (g.start + i)) := by
  obtain ⟨s', wrote, written⟩ := laiWriteFieldInternal_spec ram accessible
    (preserves.trans_le (Nat.zero_le 2))
    (show f.fldSize ≤ 8 * (toFieldBytes value).length by rw [length_toFieldBytes]; omega) s
  have keeps (old : Bool) : updated f old = old := by
    rw [updated, preserves]
    rfl
  have zeroed : (List.replicate ((g.fldSize + 7) / 8) (0 : Byte)).length = (g.fldSize + 7) / 8 :=
    List.length_replicate
  have room : g.fldSize ≤ 8 * (List.replicate ((g.fldSize + 7) / 8) (0 : Byte)).length := by omega
  obtain ⟨buf, done, length, read⟩ := laiReadFieldInternal_spec (s := s') ram accessible' room
  refine ⟨s', ofFieldBytes buf, wrote, ?_, fun i => ?_⟩
  · rw [laiReadField, done, ok_bind, if_neg (by omega)]
  · rw [getLsbD_ofFieldBytes (by omega), read, bit_replicate_zero, Bool.false_or]
    obtain held | out := em (Held g b (g.start + i))
    · have below : g.start + i < limit := by
        have high := held.2.1
        have fit := accessible'.inside
        rw [wordEnd] at fit
        obtain rfl | rfl | rfl := accessible'.narrow <;> omega
      rw [decide_eq_true held, Bool.true_and, Bool.true_and, written _ below, keeps, ite_self]
      split_ifs with new
      · have high := new.2.1
        exact bit_toFieldBytes value (by omega)
      · rfl
    · rw [decide_eq_false out, Bool.false_and, Bool.false_and]

theorem laiReadField_laiWriteField_of_small : ∃ m r,
    laiWriteField (memoryRegion 0x1000) (fun _ => 0) smallField (.integer 0x2A5) = .ok m ∧
      laiReadField (memoryRegion 0x1000) m smallField = .ok (.integer r) ∧ ∀ i, r.getLsbD i =
        (decide (Held smallField 8 (3 + i)) &&
          if Held smallField 8 (3 + i) then (0x2A5 : Word).getLsbD (3 + i - 3)
          else memoryBit 0x1000 (fun _ => 0) (3 + i)) :=
  laiReadField_laiWriteField (memoryRegion_ramLike 0x1000) smallField_accessible rfl (by decide)
    smallField_accessible (by decide) _ 0x2A5

end X86Os.Lai
