import Mathlib.Data.List.DropRight
import X86Os.Screen.Console

/-!
# Where the cursor goes

As long as no line has more than 128 characters and no character comes behind the
54th line, the cursor is at eight times the column and fourteen times the line.
The test for the end of a line is one character late, and a newline moves the
cursor without any test for the end of the screen.
-/

namespace X86Os.Screen

open Library.Memory
set_option autoImplicit false

variable (video : Video) (font : Font) (fg bg : Word)

def Output.OnScreen : Output → Prop
  | .putchar c x y => (x.toNat + 8 ≤ 1024 ∧ y.toNat + 14 ≤ 768) ∧
      ∀ p ∈ font.putchar c x y fg bg, ∀ i, putpixel video p = some i →
        i.toNat < video.framebufferPitch.toNat / 4 * 768
  | _ => True

/-- The number of characters behind the last newline. -/
def column (s : List Byte) : Nat := (s.rtakeWhile (· ≠ newline)).length

def RoomBehind (s : List Byte) : Prop :=
  column s < 128 ∧ 14 * s.count newline % 2 ^ 32 ≤ 754

def Placed (s : List Byte) : Prop :=
  ∀ a c b, s = a ++ c :: b → c ≠ newline → RoomBehind a

structure At (s : List Byte) (st : Console) : Prop where
  x : st.x.toNat = 8 * column s
  y : st.y.toNat = 14 * s.count newline % 2 ^ 32

variable {video font fg bg} {s : List Byte} {st : Console} {c : Byte} {x y : Word} {u : BitVec 16}

theorem slt_small {a b : Word} (ha : a.toNat < 2 ^ 31) (hb : b.toNat < 2 ^ 31) :
    a.slt b = decide (a.toNat < b.toNat) := by
  rw [BitVec.slt_eq_decide, BitVec.toInt_eq_toNat_of_lt (by omega), BitVec.toInt_eq_toNat_of_lt (by omega)]
  simp

/-! ## Pixels -/

theorem pixel_place {cx cy : Word} {i j : Nat} {p : Pixel}
    (drawn : font.pixel font.unicode u cx cy fg bg i j = some p) :
    p.x = BitVec.ofNat 32 i + cx ∧ p.y = BitVec.ofNat 32 j + cy := by
  unfold PsfFont.pixel at drawn
  obtain ⟨_, same⟩ := Option.ite_none_right_eq_some.mp drawn
  cases same
  exact ⟨rfl, rfl⟩

theorem cell_inside (right : x.toNat + 8 ≤ 1024) (bottom : y.toNat + 14 ≤ 768) :
    ∀ p ∈ font.putchar u x y fg bg, ∀ i, putpixel video p = some i →
      i.toNat < video.framebufferPitch.toNat / 4 * 768 := by
  intro p hp i written
  obtain ⟨row, hrow, hp⟩ := List.mem_flatMap.mp hp
  obtain ⟨col, hcol, drawn⟩ := List.mem_filterMap.mp hp
  obtain ⟨px, py⟩ := pixel_place drawn
  have height : row < 14 := (List.mem_range.mp hrow).trans_le font.low
  have width : col < 8 := (List.mem_range.mp hcol).trans_le font.narrow
  have inLine : p.x.toNat < 1024 := by
    rw [px, BitVec.toNat_add, BitVec.toNat_ofNat]
    omega
  have line : p.y.toNat < 768 := by
    rw [py, BitVec.toNat_add, BitVec.toNat_ofNat]
    omega
  have wide := video.wide
  obtain ⟨_, same⟩ := Option.ite_none_left_eq_some.mp written
  cases same
  calc
    (p.x + p.y * (video.framebufferPitch / 4)).toNat
      ≤ p.x.toNat + p.y.toNat * (video.framebufferPitch.toNat / 4) := by
        rw [BitVec.toNat_add, BitVec.toNat_mul, BitVec.toNat_udiv]
        exact (Nat.mod_le _ _).trans (Nat.add_le_add_left (Nat.mod_le _ _) _)
    _ < (p.y.toNat + 1) * (video.framebufferPitch.toNat / 4) := by
        rw [Nat.add_mul, one_mul, add_comm]
        omega
    _ ≤ video.framebufferPitch.toNat / 4 * 768 := by
        rw [Nat.mul_comm]
        exact Nat.mul_le_mul_left _ line

theorem onScreen_putchar : (Output.putchar u x y).OnScreen video font fg bg ↔
    x.toNat + 8 ≤ 1024 ∧ y.toNat + 14 ≤ 768 :=
  ⟨fun on => on.1, fun room => ⟨room, cell_inside room.1 room.2⟩⟩

/-! ## One character -/

theorem column_newline : column (s ++ [newline]) = 0 := by
  rw [column, List.rtakeWhile_concat_neg _ _ _ (by simp)]
  rfl

theorem column_glyph (glyph : c ≠ newline) : column (s ++ [c]) = column s + 1 := by
  rw [column, List.rtakeWhile_concat_pos _ _ _ (by simpa using glyph), List.length_append]
  rfl

theorem count_glyph (glyph : c ≠ newline) : (s ++ [c]).count newline = s.count newline := by
  simp [glyph]

theorem At.behindNewline (video : Video) (here : At s st) : At (s ++ [newline]) (putc video newline st).1 := by
  constructor
  · rw [column_newline]
    rfl
  · show (st.y + 14).toNat = _
    rw [BitVec.toNat_add, here.y]
    simp
    omega

theorem At.wrap (here : At s st) (room : RoomBehind s) :
    (st.x + 8).toNat = 8 * column s + 8 ∧ putcWrap st = { st with x := st.x + 8 } := by
  have short := room.1
  have next : (st.x + 8).toNat = 8 * column s + 8 := by
    rw [BitVec.toNat_add, here.x]
    simp
    omega
  refine ⟨next, if_neg ?_⟩
  rw [slt_small (by decide) (by omega), next]
  simp
  omega

theorem At.scroll (here : At s st) (room : RoomBehind s) (x : Word) :
    putcScroll video u { st with x := x } = ({ st with x := x }, []) := by
  have high := here.y ▸ room.2
  have onPage : ¬(768 : Word).slt st.y := by
    rw [slt_small (by decide) (by omega)]
    simp
    omega
  exact if_neg onPage

theorem putc_room (here : At s st) (room : RoomBehind s) (glyph : c ≠ newline) :
    putc video c st = (⟨st.x + 8, st.y, true⟩,
      [.dbgputchar c, .putchar (c.signExtend 16) st.x st.y] ++
        if st.serialDone then [] else [.initSerial]) := by
  rw [putc, if_neg glyph, (here.wrap room).2]
  dsimp only
  rw [here.scroll room]
  rfl

theorem At.behindGlyph (here : At s st) (room : RoomBehind s) (glyph : c ≠ newline) :
    At (s ++ [c]) (putc video c st).1 := by
  rw [putc_room here room glyph]
  constructor
  · rw [column_glyph glyph]
    exact (here.wrap room).1
  · rw [count_glyph glyph]
    exact here.y

theorem At.room_iff (here : At s st) :
    RoomBehind s ↔ st.x.toNat + 8 ≤ 1024 ∧ st.y.toNat + 14 ≤ 768 := by
  rw [RoomBehind, here.x, here.y]
  omega

/-- A character is drawn on the screen if and only if there is room for it. -/
theorem At.onScreen_iff (here : At s st) :
    (∀ o ∈ (putc video c st).2, o.OnScreen video font fg bg) ↔ (c ≠ newline → RoomBehind s) := by
  constructor
  · intro on glyph
    have drawn : .putchar (c.signExtend 16) st.x st.y ∈ (putc video c st).2 := by
      rw [putc, if_neg glyph]
      simp
    exact here.room_iff.mpr (onScreen_putchar.mp (on _ drawn))
  · intro room o ho
    cases o with
    | putchar u x y =>
      obtain rfl | glyph := eq_or_ne c newline
      · simp [putc] at ho
      · obtain ⟨_, rfl, rfl⟩ : u = c.signExtend 16 ∧ x = st.x ∧ y = st.y := by
          rw [putc_room here (room glyph) glyph] at ho
          obtain drawn | serial := List.mem_append.mp ho
          · simpa using drawn
          · split at serial <;> simp at serial
        exact onScreen_putchar.mpr (here.room_iff.mp (room glyph))
    | _ => trivial

/-! ## Strings -/

theorem placed_snoc : Placed (s ++ [c]) ↔ Placed s ∧ (c ≠ newline → RoomBehind s) := by
  constructor
  · intro placed
    constructor
    · rintro a d b rfl
      apply placed a d (b ++ [c])
      simp
    · exact placed s c [] rfl
  · rintro ⟨placed, last⟩ a d b split
    obtain rfl | ⟨b, e, rfl⟩ := List.eq_nil_or_concat b
    · obtain ⟨rfl, same⟩ := List.append_inj' split rfl
      cases same
      exact last
    · rw [List.concat_eq_append, ← List.cons_append, ← List.append_assoc] at split
      obtain ⟨rfl, _⟩ := List.append_inj' split rfl
      exact placed a d b rfl

theorem putAll_snoc : putAll video st (s ++ [c]) =
    ((putc video c (putAll video st s).1).1,
      (putAll video st s).2 ++ (putc video c (putAll video st s).1).2) := by
  induction s generalizing st with
  | nil => simp [putAll]
  | cons d s ih => simp [putAll, ih]

def topLeft (serialDone : Bool) : Console := ⟨0, 0, serialDone⟩

/-- What is printed stays on the screen if and only if every character has room, and then the
cursor is where the text ends. -/
theorem putAll_placed (serialDone : Bool) (s : List Byte) :
    ((∀ o ∈ (putAll video (topLeft serialDone) s).2, o.OnScreen video font fg bg) ↔ Placed s) ∧
      (Placed s → At s (putAll video (topLeft serialDone) s).1) := by
  induction s using List.reverseRecOn with
  | nil =>
    refine ⟨⟨?_, ?_⟩, fun _ => ⟨rfl, rfl⟩⟩
    · intro _ a c b split
      simp at split
    · intro _ o ho
      cases ho
  | append_singleton s c ih =>
    obtain ⟨on, here⟩ := ih
    rw [putAll_snoc, placed_snoc, List.forall_mem_append]
    constructor
    · rw [on]
      exact and_congr_right fun placed => (here placed).onScreen_iff
    · rintro ⟨placed, room⟩
      obtain rfl | glyph := eq_or_ne c newline
      · exact (here placed).behindNewline video
      · exact (here placed).behindGlyph (room glyph) glyph

/-- Every glyph of a string is drawn on the screen if and only if every character but the newlines
has fewer than 128 characters before it in its line and stands in one of the first 54 lines. -/
theorem on_screen_iff (video : Video) (font : Font) (fg bg : Word) (serialDone : Bool)
    (s : List Byte) :
    (∀ o ∈ (putAll video (topLeft serialDone) s).2, o.OnScreen video font fg bg) ↔
      ∀ a c b, s = a ++ c :: b → c ≠ newline →
        column a < 128 ∧ 14 * a.count newline % 2 ^ 32 ≤ 754 :=
  (putAll_placed serialDone s).1

def sampleVideo : Video := ⟨0xE0000000, 4096, 0x00200000, by decide⟩

/-- A font of 8 times 14 pixels, all of them set. -/
def sampleFont : Font where
  mem a := if a = 8 then 32 else if a = 24 then 14 else if a = 28 then 8 else if a < 32 then 0 else 0xFF
  start := 0
  unicode := none
  narrow := by decide
  low := by decide

/-- The 129th character of a line is drawn to the right of the screen. A character behind 54
newlines is drawn below it, and its last row is outside the framebuffer. -/
theorem off_screen :
    ¬(∀ o ∈ (putAll sampleVideo (topLeft true) (List.replicate 129 0x41)).2,
      o.OnScreen sampleVideo sampleFont 0xFFFFFF 0) ∧
    .putchar 0x41 1024 0 ∈ (putAll sampleVideo (topLeft true) (List.replicate 129 0x41)).2 ∧
    .putchar 0x41 0 756 ∈ (putAll sampleVideo (topLeft true) (List.replicate 54 newline ++ [0x41])).2 ∧
    0xC0400 ∈ (sampleFont.putchar 0x41 0 756 0xFFFFFF 0).filterMap (putpixel sampleVideo) := by
  have right : .putchar 0x41 1024 0 ∈
      (putAll sampleVideo (topLeft true) (List.replicate 129 0x41)).2 := by decide +kernel
  refine ⟨?_, right, by decide +kernel, by decide +kernel⟩
  intro on
  exact absurd (on _ right).1.1 (by decide)

end X86Os.Screen
