import X86Os.Screen.Font

/-!
# Glyphs of any size

`putchar` loads four bytes for a row of one to four, least significant byte first,
and tests its bits from the one of the width downwards. The mask is an `int`, so
from the sign bit it grows instead of moving on.
-/

namespace X86Os.Screen

open Library.Memory
set_option autoImplicit false

def PsfFont.glyphReads (font : PsfFont) (unicode : Option (BitVec 16 → BitVec 16)) (c : BitVec 16) :
    List Word :=
  (List.range font.height.toNat).flatMap fun y =>
    (List.range font.width.toNat).flatMap fun _ =>
      (List.range 4).map fun k => font.rowAt unicode c y + BitVec.ofNat 32 k

/-- A font with one to 32 columns, whose glyphs have room for their rows. -/
structure BitmapFont extends PsfFont where
  unicode : Option (BitVec 16 → BitVec 16)
  pos : 1 ≤ toPsfFont.width.toNat
  wide : toPsfFont.width.toNat ≤ 32
  rows : toPsfFont.height.toNat * ((toPsfFont.width.toNat + 7) / 8) ≤ toPsfFont.bytesperglyph.toNat

namespace BitmapFont

variable (f : BitmapFont) (c : BitVec 16)

def rowSize : Nat := (f.width.toNat + 7) / 8

def bit (x y : Nat) : Bool :=
  (f.mem (f.rowAt f.unicode c y + BitVec.ofNat 32 (x / 8))).getLsbD (7 - x % 8)

def numberBit (k y : Nat) : Bool :=
  (f.mem (f.rowAt f.unicode c y + BitVec.ofNat 32 (k / 8))).getLsbD (k % 8)

/-- The pixels of the foreground are the bits that are set, and only the glyph is read. -/
structure GlyphOk (cx cy fg bg : Word) : Prop where
  drawn : ∀ x y, x < f.width.toNat → y < f.height.toNat →
    (⟨BitVec.ofNat 32 x + cx, BitVec.ofNat 32 y + cy, fg⟩ ∈ f.putchar f.unicode c cx cy fg bg ↔
      f.bit c x y = true)
  inside : ∀ a ∈ f.glyphReads f.unicode c,
    Covers (f.glyph f.unicode c) (f.height.toNat * f.rowSize) a

/-- The bits of the row stand in the order in which they are tested. With 32 columns these are rows
with equal bits. -/
def RowOrdered (y : Nat) : Prop :=
  if f.width.toNat = 32 then ∀ k < 32, f.numberBit c k y = f.numberBit c 0 y
  else ∀ x < f.width.toNat, f.bit c x y = f.numberBit c (f.width.toNat - 1 - x) y

/-- Nothing is ever drawn in colour 0, and everything in two equal colours. -/
def RowOk (fg bg : Word) (y : Nat) : Prop :=
  if fg = 0 then ∀ x < f.width.toNat, f.bit c x y = false
  else if bg = fg then ∀ x < f.width.toNat, f.bit c x y = true
  else f.RowOrdered c y

end BitmapFont

/-! ## Rows as numbers -/

theorem load32_getLsbD (m : Mem) (a : Word) {k : Nat} (small : k < 32) :
    (load32 m a).getLsbD k = (m (a + BitVec.ofNat 32 (k / 8))).getLsbD (k % 8) := by
  have byte : k / 8 = 0 ∨ k / 8 = 1 ∨ k / 8 = 2 ∨ k / 8 = 3 := by omega
  rw [load32]
  simp only [BitVec.getLsbD_append]
  obtain first | second | third | fourth := byte
  · rw [first, if_pos (by omega), show a + BitVec.ofNat 32 0 = a by simp, Nat.mod_eq_of_lt (by omega)]
  · rw [second, if_neg (by omega), if_pos (by omega), show k % 8 = k - 8 by omega]
    rfl
  · rw [third, if_neg (by omega), if_neg (by omega), if_pos (by omega), show k % 8 = k - 8 - 8 by omega]
    rfl
  · rw [fourth, if_neg (by omega), if_neg (by omega), if_neg (by omega),
      show k % 8 = k - 8 - 8 - 8 by omega]
    rfl

theorem and_ne_zero_iff {v mask : Word} :
    v &&& mask ≠ 0 ↔ ∃ k < 32, v.getLsbD k = true ∧ mask.getLsbD k = true := by
  constructor
  · intro nonzero
    by_contra! none
    refine nonzero (BitVec.eq_of_getLsbD_eq fun k small => ?_)
    rw [BitVec.getLsbD_and, BitVec.ofNat_eq_ofNat, BitVec.getLsbD_zero, Bool.and_eq_false_imp]
    intro set
    simpa using none k small set
  · rintro ⟨k, -, set, tested⟩ zero
    have bit := congrArg (fun v => v.getLsbD k) zero
    rw [BitVec.getLsbD_and, set, tested, BitVec.ofNat_eq_ofNat, BitVec.getLsbD_zero] at bit
    cases bit

/-! ## The mask -/

theorem bitmap_size (f : BitmapFont) : f.bytesperline.toNat = f.rowSize := by
  have wide := f.wide
  have seven : (7 : Word).toNat = 7 := rfl
  have eight : (8 : Word).toNat = 8 := rfl
  rw [PsfFont.bytesperline, BitVec.toNat_udiv, BitVec.toNat_add, seven, eight, BitmapFont.rowSize]
  omega

variable {f : BitmapFont} {c : BitVec 16} {cx cy fg bg : Word} {k x y : Nat}

theorem first_getLsbD (f : BitmapFont) (k : Nat) :
    ((1 : Word) <<< (f.width - 1)).getLsbD k = decide (k = f.width.toNat - 1) := by
  have pos := f.pos
  have wide := f.wide
  have one : (1 : Word).toNat = 1 := rfl
  have shift : (f.width - 1).toNat = f.width.toNat - 1 := by
    rw [BitVec.toNat_sub, one]
    omega
  rw [BitVec.getLsbD_shiftLeft', shift, BitVec.ofNat_eq_ofNat, BitVec.getLsbD_one, Bool.eq_iff_iff]
  simp only [Bool.and_eq_true, decide_eq_true_eq, Bool.not_eq_true', decide_eq_false_iff_not]
  omega

theorem mask_getLsbD (column : x < f.width.toNat) (small : k < 32) :
    (f.mask x).getLsbD k = true ↔
      k = f.width.toNat - 1 - x ∨ f.width.toNat = 32 ∧ f.width.toNat - 1 - x ≤ k := by
  have pos := f.pos
  have wide := f.wide
  rw [PsfFont.mask, BitVec.getLsbD_sshiftRight, BitVec.msb_eq_getLsbD_last, first_getLsbD,
    first_getLsbD]
  simp only [Bool.and_eq_true, Bool.not_eq_true', decide_eq_false_iff_not]
  split <;> simp only [decide_eq_true_eq] <;> omega

namespace BitmapFont

theorem tested_iff (column : x < f.width.toNat) :
    load32 f.mem (f.rowAt f.unicode c y) &&& f.mask x ≠ 0 ↔
      ∃ k < 32, f.numberBit c k y = true ∧
        (k = f.width.toNat - 1 - x ∨ f.width.toNat = 32 ∧ f.width.toNat - 1 - x ≤ k) := by
  rw [and_ne_zero_iff]
  refine exists_congr fun k => and_congr_right fun small => ?_
  rw [load32_getLsbD _ _ small, mask_getLsbD column small, numberBit]

theorem bit_eq_numberBit (f : BitmapFont) (c : BitVec 16) (x y : Nat) :
    f.bit c x y = f.numberBit c (8 * (x / 8) + (7 - x % 8)) y := by
  rw [bit, numberBit, show (8 * (x / 8) + (7 - x % 8)) / 8 = x / 8 by omega,
    show (8 * (x / 8) + (7 - x % 8)) % 8 = 7 - x % 8 by omega]

end BitmapFont

/-- With 32 columns every higher bit is tested too, so only a row of equal bits comes out right. -/
theorem ordered_all {p : Nat → Bool} :
    (∀ x < 32, (∃ k < 32, p k = true ∧ 31 - x ≤ k) ↔ p (8 * (x / 8) + (7 - x % 8)) = true) ↔
      ∀ k < 32, p k = p 0 := by
  constructor
  · intro agrees
    have found (k : Nat) (small : k < 32) :
        (∃ j < 32, p j = true ∧ 31 - (8 * (k / 8) + (7 - k % 8)) ≤ j) ↔ p k = true := by
      have back : 8 * ((8 * (k / 8) + (7 - k % 8)) / 8) + (7 - (8 * (k / 8) + (7 - k % 8)) % 8) = k := by
        omega
      rw [agrees _ (by omega), back]
    cases top : p 31 with
    | true =>
      have set (k : Nat) (small : k < 32) : p k = true :=
        (found k small).mp ⟨31, by omega, top, by omega⟩
      intro k small
      rw [set k small, set 0 (by omega)]
    | false =>
      have clear (k : Nat) (small : k < 32) : p k = false := by
        rw [Bool.eq_false_iff]
        intro set
        -- bit 24 is the one of bit 31, so it rules out bits 7 to 31, and these the others
        have low : k < 7 := by
          by_contra high
          rw [Bool.eq_false_iff] at top
          exact top ((found 31 (by omega)).mp ⟨k, small, set, by omega⟩)
        obtain ⟨j, bound, set', high⟩ := (found k small).mpr set
        rw [Bool.eq_false_iff] at top
        exact top ((found 31 (by omega)).mp ⟨j, bound, set', by omega⟩)
      intro k small
      rw [clear k small, clear 0 (by omega)]
  · intro same x small
    rw [same _ (by omega)]
    constructor
    · rintro ⟨k, bound, set, -⟩
      rwa [same k bound] at set
    · intro set
      exact ⟨31, by omega, by rwa [same 31 (by omega)], by omega⟩

namespace BitmapFont

theorem rowOrdered_iff : f.RowOrdered c y ↔ ∀ x < f.width.toNat,
    (load32 f.mem (f.rowAt f.unicode c y) &&& f.mask x ≠ 0 ↔ f.bit c x y = true) := by
  have wide := f.wide
  rw [RowOrdered]
  split
  next full =>
    rw [← ordered_all, full]
    refine forall₂_congr fun x column => ?_
    rw [tested_iff (by omega), bit_eq_numberBit]
    refine iff_congr (exists_congr fun k => and_congr_right fun small => and_congr_right fun _ => ?_) Iff.rfl
    omega
  next part =>
    refine forall₂_congr fun x column => ?_
    have single : load32 f.mem (f.rowAt f.unicode c y) &&& f.mask x ≠ 0 ↔
        f.numberBit c (f.width.toNat - 1 - x) y = true := by
      rw [tested_iff column]
      constructor
      · rintro ⟨k, -, set, rfl | full⟩
        · exact set
        · exact absurd full.1 part
      · intro set
        exact ⟨_, by omega, set, .inl rfl⟩
    rw [single, Bool.eq_iff_iff]
    exact iff_comm

theorem rowOk_iff : f.RowOk c fg bg y ↔ ∀ x < f.width.toNat,
    (fg ≠ 0 ∧ (bg = fg ∨ load32 f.mem (f.rowAt f.unicode c y) &&& f.mask x ≠ 0) ↔
      f.bit c x y = true) := by
  rw [RowOk]
  split
  next black => simp [black]
  split
  next color same =>
    refine forall₂_congr fun x _ => ?_
    simp only [ne_eq, color, not_false_eq_true, same, true_or, and_self, true_iff]
  next color other =>
    simp only [ne_eq, color, not_false_eq_true, other, true_and, false_or]
    exact rowOrdered_iff

theorem mem_putchar (column : x < f.width.toNat) (row : y < f.height.toNat) :
    ⟨BitVec.ofNat 32 x + cx, BitVec.ofNat 32 y + cy, fg⟩ ∈ f.putchar f.unicode c cx cy fg bg ↔
      fg ≠ 0 ∧ (bg = fg ∨ load32 f.mem (f.rowAt f.unicode c y) &&& f.mask x ≠ 0) := by
  simp only [PsfFont.putchar, List.mem_flatMap, List.mem_filterMap, List.mem_range]
  constructor
  · rintro ⟨y', row', x', column', drawn⟩
    rw [PsfFont.pixel] at drawn
    generalize shade : (if load32 f.mem (f.rowAt f.unicode c y') &&& f.mask x' ≠ 0 then fg else bg) =
      color at drawn
    split at drawn
    next shown =>
      obtain ⟨left, top, rfl⟩ := Pixel.mk.inj (Option.some.inj drawn)
      have height := f.height.isLt
      have wide := f.wide
      have sameX := congrArg BitVec.toNat (add_right_cancel left)
      have sameY := congrArg BitVec.toNat (add_right_cancel top)
      rw [BitVec.toNat_ofNat, BitVec.toNat_ofNat] at sameX sameY
      obtain rfl : x' = x := by omega
      obtain rfl : y' = y := by omega
      refine ⟨shown, ?_⟩
      split at shade
      next tested => exact .inr tested
      next => exact .inl shade
    next => cases drawn
  · rintro ⟨color, shade⟩
    refine ⟨y, row, x, column, ?_⟩
    have chosen : (if load32 f.mem (f.rowAt f.unicode c y) &&& f.mask x ≠ 0 then fg else bg) = fg := by
      split
      next => rfl
      next untested => exact shade.resolve_right untested
    rw [PsfFont.pixel, chosen]
    exact if_pos color

theorem rows_lt (f : BitmapFont) : f.height.toNat * f.rowSize < 2 ^ 32 :=
  Nat.lt_of_le_of_lt f.rows f.bytesperglyph.isLt

theorem covers_row (row : y < f.height.toNat) (k : Nat) (small : y * f.rowSize + k < 2 ^ 32) {n : Nat} :
    Covers (f.glyph f.unicode c) n (f.rowAt f.unicode c y + BitVec.ofNat 32 k) ↔
      y * f.rowSize + k < n := by
  have offset : (BitVec.ofNat 32 y * f.bytesperline + BitVec.ofNat 32 k : Word).toNat = y * f.rowSize + k := by
    have height := f.height.isLt
    rw [BitVec.toNat_add, BitVec.toNat_mul, bitmap_size, BitVec.toNat_ofNat, BitVec.toNat_ofNat,
      Nat.mod_eq_of_lt (show y < 2 ^ 32 by omega), ← Nat.add_mod, Nat.mod_eq_of_lt small]
  rw [PsfFont.rowAt, add_assoc, covers_add, offset]

/-- Only rows of four bytes are read without what is behind them. -/
theorem inside_iff : (∀ a ∈ f.glyphReads f.unicode c,
      Covers (f.glyph f.unicode c) (f.height.toNat * f.rowSize) a) ↔
    f.height = 0 ∨ 25 ≤ f.width.toNat := by
  have pos := f.pos
  have wide := f.wide
  have size := f.rows_lt
  have bytes : f.rowSize = (f.width.toNat + 7) / 8 := rfl
  simp only [PsfFont.glyphReads, List.mem_flatMap, List.mem_map, List.mem_range]
  constructor
  · intro inside
    obtain none | some := Nat.eq_zero_or_pos f.height.toNat
    · exact .inl (BitVec.eq_of_toNat_eq none)
    · refine .inr (Nat.le_of_not_lt fun narrow => ?_)
      -- the first byte behind the last row
      have last : (f.height.toNat - 1) * f.rowSize + f.rowSize = f.height.toNat * f.rowSize := by
        rw [← Nat.succ_mul, Nat.succ_eq_add_one, Nat.sub_add_cancel some]
      have covered := inside _ ⟨f.height.toNat - 1, by omega, 0, pos, f.rowSize, by omega, rfl⟩
      rw [covers_row (by omega) _ (by omega)] at covered
      omega
  · rintro (none | full)
    · rintro a ⟨y, row, -⟩
      rw [none] at row
      cases row
    · rintro a ⟨y, row, x, -, k, small, rfl⟩
      have below : (y + 1) * f.rowSize ≤ f.height.toNat * f.rowSize := Nat.mul_le_mul_right _ row
      rw [Nat.succ_mul] at below
      rw [covers_row row _ (by omega)]
      omega

/-- A glyph is drawn right if and only if its rows take four bytes each and have their bits in the
order in which they are tested. -/
theorem putchar_ok_iff (f : BitmapFont) (c : BitVec 16) (cx cy fg bg : Word) :
    f.GlyphOk c cx cy fg bg ↔
      f.height = 0 ∨ 25 ≤ f.width.toNat ∧ ∀ y < f.height.toNat, f.RowOk c fg bg y := by
  constructor
  · rintro ⟨drawn, inside⟩
    refine (inside_iff.mp inside).imp_right fun full => ⟨full, fun y row => ?_⟩
    rw [rowOk_iff]
    intro x column
    rw [← drawn x y column row, mem_putchar column row]
  · intro condition
    refine ⟨?_, inside_iff.mpr (condition.imp_right And.left)⟩
    intro x y column row
    obtain none | ⟨-, rows⟩ := condition
    · rw [none] at row
      cases row
    · rw [mem_putchar column row]
      exact rowOk_iff.mp (rows y row) x column

/-- With eight columns the picture is right, whatever is read beside it. -/
theorem drawn_eight (eight : f.width.toNat = 8) (color : fg ≠ 0) (other : bg ≠ fg)
    (column : x < f.width.toNat) (row : y < f.height.toNat) :
    ⟨BitVec.ofNat 32 x + cx, BitVec.ofNat 32 y + cy, fg⟩ ∈ f.putchar f.unicode c cx cy fg bg ↔
      f.bit c x y = true := by
  have ordered : f.RowOrdered c y := by
    rw [RowOrdered, if_neg (by omega)]
    intro x column
    rw [bit_eq_numberBit]
    congr 1
    omega
  rw [mem_putchar column row, ← rowOrdered_iff.mp ordered x column]
  exact ⟨fun shade => shade.2.resolve_left other, fun tested => ⟨color, .inr tested⟩⟩

end BitmapFont

/-- One glyph of one row with eight columns. -/
def eightColumns : BitmapFont where
  mem := storeBytes (fun _ => 0) 0x100008
    [32, 0, 0, 0, 0, 0, 0, 0, 1, 0, 0, 0, 1, 0, 0, 0, 1, 0, 0, 0, 8, 0, 0, 0, 0x18]
  start := 0x100000
  unicode := none
  pos := by decide
  wide := by decide
  rows := by decide

/-- Three bytes behind the glyph are read. -/
theorem glyph_overread : ¬∃ c cx cy fg bg, eightColumns.GlyphOk c cx cy fg bg := by
  rintro ⟨c, cx, cy, fg, bg, -, inside⟩
  exact absurd (BitmapFont.inside_iff.mp inside) (by decide)

end X86Os.Screen
