import X86Os.Library.Utf8
import X86Os.Screen.Font

/-!
# The unicode table of a font

Behind its glyphs a font lists for each of them the code points it draws, in UTF-8
and closed by `0xFF`. The loop of `psf_init` runs as long as it is behind the end of
the font. As it reads signed `char`s, it also never sees the closing bytes.
-/

namespace X86Os.Screen

open Library.Memory Library
set_option autoImplicit false

def PsfFont.tableAt (font : PsfFont) : Word :=
  font.start + font.headersize + font.numglyph * font.bytesperglyph

/-- `s[i] & mask`, an `int` -/
def charBits (m : Mem) (s : Word) (mask : Word) : Word := (m s).signExtend 32 &&& mask

/-- The code of a sequence, and its last byte. -/
def utf8Sequence (m : Mem) (s : Word) (uc : BitVec 16) : BitVec 16 × Word :=
  if uc &&& 32 = 0 then
    ((charBits m s 0x1F <<< 6 + charBits m (s + 1) 0x3F).setWidth 16, s + 1)
  else if uc &&& 16 = 0 then
    (((charBits m s 0xF <<< 6 + charBits m (s + 1) 0x3F) <<< 6 +
      charBits m (s + 2) 0x3F).setWidth 16, s + 2)
  else if uc &&& 8 = 0 then
    ((((charBits m s 0x7 <<< 6 + charBits m (s + 1) 0x3F) <<< 6 + charBits m (s + 2) 0x3F) <<< 6 +
      charBits m (s + 3) 0x3F).setWidth 16, s + 3)
  else (0, s)

/-- The place and the glyph behind a round, and what the round writes. -/
structure UnicodeRound where
  s : Word
  glyph : BitVec 16
  written : List (BitVec 16 × BitVec 16)
  deriving DecidableEq

def unicodeRound (m : Mem) (s : Word) (glyph : BitVec 16) : UnicodeRound :=
  let uc := (m s).signExtend 16
  if uc = 0xFF then ⟨s + 1, glyph + 1, []⟩
  else
    let code := if uc &&& 128 ≠ 0 then utf8Sequence m s uc else (uc, s)
    ⟨code.2 + 1, glyph, [(code.1, glyph)]⟩

/-- `while((int)s>(int)&_binary_font_psf_end)` -/
def unicodeLoop (m : Mem) (stop : Word) : Nat → Word → BitVec 16 →
    Option (Word × List (BitVec 16 × BitVec 16))
  | 0, _, _ => none
  | fuel + 1, s, glyph =>
    if stop.slt s then
      let round := unicodeRound m s glyph
      (unicodeLoop m stop fuel round.s round.glyph).map fun rest => (rest.1, round.written ++ rest.2)
    else some (s, [])

/-- What `psf_init` sets. For the table there is the final `s` and what is written to it. -/
structure Psf where
  fx : Word
  fy : Word
  unicode : Option (Word × List (BitVec 16 × BitVec 16))
  deriving DecidableEq

def psfInit (font : PsfFont) (stop : Word) (fuel : Nat) (psf : Psf) : Option Psf :=
  if font.flags = 0 then some { psf with unicode := none }
  else
    (unicodeLoop font.mem stop fuel font.tableAt 0).map fun table =>
      ⟨font.width, font.height, some table⟩

def saveAll (unicode : BitVec 16 → BitVec 16) (written : List (BitVec 16 × BitVec 16)) :
    BitVec 16 → BitVec 16 :=
  written.foldl (fun unicode entry => Function.update unicode entry.1 entry.2) unicode

/-! ## Tables -/

inductive Token
  | code (cp : BitVec 16)
  | close
  deriving DecidableEq

namespace Token

def bytes : Token → List Byte
  | code cp => Utf8.encode cp.toNat
  | close => [0xFF]

def saved : Token → BitVec 16
  | code cp => cp
  | close => 0

end Token

def tableTokens (lists : List (List (BitVec 16))) : List Token :=
  lists.flatMap fun cps => cps.map .code ++ [.close]

def tableBytes (lists : List (List (BitVec 16))) : List Byte :=
  (tableTokens lists).flatMap Token.bytes

/-- A font with a table up to `_binary_font_psf_end`. -/
structure UnicodeFont extends PsfFont where
  stop : Word
  lists : List (List (BitVec 16))
  flagged : toPsfFont.flags ≠ 0
  glyphs : toPsfFont.numglyph.toNat = lists.length
  table : loadBytes mem toPsfFont.tableAt (tableBytes lists).length = tableBytes lists
  ends : toPsfFont.tableAt.toNat + (tableBytes lists).length = stop.toNat

/-- The code points have their last glyphs, the table is read up to its end, and nothing is
written behind its entries. -/
structure UnicodeFont.DecodedOk (f : UnicodeFont) (unicode : BitVec 16 → BitVec 16) (s : Word)
    (written : List (BitVec 16 × BitVec 16)) : Prop where
  listed : ∀ (g : Nat) (cps : List (BitVec 16)), f.lists[g]? = some cps → ∀ cp ∈ cps,
    (∀ (g' : Nat) (cps' : List (BitVec 16)), g < g' → f.lists[g']? = some cps' → cp ∉ cps') →
    (saveAll unicode written cp).toNat = g
  consumed : s = f.stop
  inside : ∀ entry ∈ written, entry.1.toNat < 65535

def UnicodeFont.InitOk (f : UnicodeFont) (psf : Psf) (unicode : BitVec 16 → BitVec 16) : Prop :=
  ∃ fuel s written,
    psfInit f.toPsfFont f.stop fuel psf = some ⟨f.width, f.height, some (s, written)⟩ ∧
      f.DecodedOk unicode s written

variable {m : Mem} {s stop : Word} {glyph : BitVec 16} {fuel : Nat}
  {written : List (BitVec 16 × BitVec 16)}

/-! ## Signed bytes -/

/-- The closing byte is negative, so it is not 255. -/
theorem signed_ne : ∀ b : Byte, b.signExtend 16 ≠ 0xFF := by decide

theorem signed_ascii : ∀ b : Byte, b.toNat < 0x80 →
    b.signExtend 16 &&& 128 = 0 ∧ (b.signExtend 16).toNat = b.toNat := by decide

theorem signed_two : ∀ b : Byte, 0xC0 ≤ b.toNat → b.toNat < 0xE0 →
    b.signExtend 16 &&& 128 ≠ 0 ∧ b.signExtend 16 &&& 32 = 0 := by decide

theorem signed_three : ∀ b : Byte, 0xE0 ≤ b.toNat → b.toNat < 0xF0 →
    b.signExtend 16 &&& 128 ≠ 0 ∧ b.signExtend 16 &&& 32 ≠ 0 ∧ b.signExtend 16 &&& 16 = 0 := by decide

theorem charBits_low (m : Mem) (s : Word) : (charBits m s 0x3F).toNat = (m s).toNat % 2 ^ 6 :=
  (by decide : ∀ b : Byte, (b.signExtend 32 &&& 0x3F).toNat = b.toNat % 2 ^ 6) (m s)

theorem charBits_two (m : Mem) (s : Word) : (charBits m s 0x1F).toNat = (m s).toNat % 2 ^ 5 :=
  (by decide : ∀ b : Byte, (b.signExtend 32 &&& 0x1F).toNat = b.toNat % 2 ^ 5) (m s)

theorem charBits_three (m : Mem) (s : Word) : (charBits m s 0xF).toNat = (m s).toNat % 2 ^ 4 :=
  (by decide : ∀ b : Byte, (b.signExtend 32 &&& 0xF).toNat = b.toNat % 2 ^ 4) (m s)

/-- Six more bits, as long as nothing is shifted out. -/
theorem shift_add {high low : Word} (small : high.toNat < 2 ^ 20) (bits : low.toNat < 2 ^ 6) :
    (high <<< 6 + low).toNat = high.toNat * 2 ^ 6 + low.toNat := by
  rw [BitVec.toNat_add, BitVec.toNat_shiftLeft, Nat.shiftLeft_eq]
  omega

/-! ## A round at a token -/

theorem round_close (closed : m s = 0xFF) : unicodeRound m s glyph = ⟨s + 1, glyph, [(0, glyph)]⟩ := by
  rw [unicodeRound, closed]
  rfl

theorem round_ascii (ascii : (m s).toNat < 0x80) {cp : BitVec 16} (same : cp.toNat = (m s).toNat) :
    unicodeRound m s glyph = ⟨s + 1, glyph, [(cp, glyph)]⟩ := by
  obtain ⟨plain, value⟩ := signed_ascii (m s) ascii
  have code : (m s).signExtend 16 = cp := BitVec.eq_of_toNat_eq (value.trans same.symm)
  have notClosing := signed_ne (m s)
  rw [code] at plain notClosing
  rw [unicodeRound, code]
  simp only [if_neg notClosing, plain, ne_eq, not_true_eq_false, if_false]

theorem round_two (low : 0xC0 ≤ (m s).toNat) (high : (m s).toNat < 0xE0) {cp : BitVec 16}
    (same : cp.toNat = (m s).toNat % 2 ^ 5 * 2 ^ 6 + (m (s + 1)).toNat % 2 ^ 6) :
    unicodeRound m s glyph = ⟨s + 1 + 1, glyph, [(cp, glyph)]⟩ := by
  obtain ⟨long, two⟩ := signed_two (m s) low high
  have first := charBits_two m s
  have second := charBits_low m (s + 1)
  have code : (charBits m s 0x1F <<< 6 + charBits m (s + 1) 0x3F).setWidth 16 = cp := by
    apply BitVec.eq_of_toNat_eq
    rw [BitVec.toNat_setWidth, shift_add (by omega) (by omega), first, second, ← same]
    exact Nat.mod_eq_of_lt cp.isLt
  rw [unicodeRound]
  simp only [if_neg (signed_ne (m s)), if_pos long, utf8Sequence, if_pos two, code]

theorem round_three (low : 0xE0 ≤ (m s).toNat) (high : (m s).toNat < 0xF0) {cp : BitVec 16}
    (same : cp.toNat = ((m s).toNat % 2 ^ 4 * 2 ^ 6 + (m (s + 1)).toNat % 2 ^ 6) * 2 ^ 6 +
      (m (s + 2)).toNat % 2 ^ 6) :
    unicodeRound m s glyph = ⟨s + 2 + 1, glyph, [(cp, glyph)]⟩ := by
  obtain ⟨long, notTwo, three⟩ := signed_three (m s) low high
  have first := charBits_three m s
  have second := charBits_low m (s + 1)
  have third := charBits_low m (s + 2)
  have upper : (charBits m s 0xF <<< 6 + charBits m (s + 1) 0x3F).toNat =
      (m s).toNat % 2 ^ 4 * 2 ^ 6 + (m (s + 1)).toNat % 2 ^ 6 := by
    rw [shift_add (by omega) (by omega), first, second]
  have code : ((charBits m s 0xF <<< 6 + charBits m (s + 1) 0x3F) <<< 6 +
      charBits m (s + 2) 0x3F).setWidth 16 = cp := by
    apply BitVec.eq_of_toNat_eq
    rw [BitVec.toNat_setWidth, shift_add (by omega) (by omega), upper, third, ← same]
    exact Nat.mod_eq_of_lt cp.isLt
  rw [unicodeRound]
  simp only [if_neg (signed_ne (m s)), if_pos long, utf8Sequence, if_neg notTwo, if_pos three, code]

theorem code_shape (cp : BitVec 16) : Utf8.Shape cp.toNat (Utf8.encode cp.toNat) :=
  Utf8.encode_shape (Nat.lt_trans cp.isLt (by decide))

/-- A round goes on by one token and never counts a glyph. -/
theorem round_token {token : Token} (here : loadBytes m s token.bytes.length = token.bytes) :
    unicodeRound m s glyph =
      ⟨s + BitVec.ofNat 32 token.bytes.length, glyph, [(token.saved, glyph)]⟩ := by
  cases token with
  | close => exact round_close (by simpa [Token.bytes, loadBytes] using here)
  | code cp =>
    have short := Utf8.encode_length_le cp.isLt
    have shape := code_shape cp
    rw [Token.bytes] at here ⊢
    generalize Utf8.encode cp.toNat = bytes at here short shape
    cases shape with
    | one ascii same =>
      obtain rfl : m s = _ := by simpa [loadBytes] using here
      exact round_ascii ascii same
    | two low high same =>
      obtain ⟨rfl, rfl⟩ : m s = _ ∧ m (s + 1) = _ := by
        simpa [loadBytes, List.range_succ] using here
      rw [round_two low high same, add_assoc]
      rfl
    | three low high same =>
      obtain ⟨rfl, rfl, rfl⟩ : m s = _ ∧ m (s + 1) = _ ∧ m (s + 2) = _ := by
        simpa [loadBytes, List.range_succ] using here
      rw [round_three low high same, add_assoc]
      rfl
    | four => simp at short

/-! ## Whole tables -/

variable {tokens : List Token}

theorem token_length_pos (token : Token) : 0 < token.bytes.length := by
  cases token with
  | close => decide
  | code cp =>
    have shape := code_shape cp
    rw [Token.bytes]
    generalize Utf8.encode cp.toNat = bytes at shape
    cases shape <;> exact Nat.succ_pos _

structure TableAt (m : Mem) (stop s : Word) (tokens : List Token) : Prop where
  here : loadBytes m s (tokens.flatMap Token.bytes).length = tokens.flatMap Token.bytes
  ends : s.toNat + (tokens.flatMap Token.bytes).length = stop.toNat

namespace TableAt

theorem eq_stop (table : TableAt m stop s []) : s = stop :=
  BitVec.eq_of_toNat_eq (by simpa using table.ends)

theorem ne_stop {token : Token} (table : TableAt m stop s (token :: tokens)) : s ≠ stop := by
  rintro rfl
  have ends := table.ends
  have pos := token_length_pos token
  rw [List.flatMap_cons, List.length_append] at ends
  omega

theorem first {token : Token} (table : TableAt m stop s (token :: tokens)) :
    loadBytes m s token.bytes.length = token.bytes := by
  have here := table.here
  rw [List.flatMap_cons, List.length_append, loadBytes_add] at here
  exact List.append_inj_left here (by rw [loadBytes, List.length_map, List.length_range])

theorem rest {token : Token} (table : TableAt m stop s (token :: tokens)) :
    TableAt m stop (s + BitVec.ofNat 32 token.bytes.length) tokens := by
  obtain ⟨here, ends⟩ := table
  have small := stop.isLt
  rw [List.flatMap_cons, List.length_append] at ends
  rw [List.flatMap_cons, List.length_append, loadBytes_add] at here
  refine ⟨List.append_inj_right here (by rw [loadBytes, List.length_map, List.length_range]), ?_⟩
  rw [BitVec.toNat_add, BitVec.toNat_ofNat]
  omega

theorem loop_cons {token : Token} (table : TableAt m stop s (token :: tokens))
    (run : unicodeLoop m stop fuel s glyph = some (stop, written)) :
    stop.slt s = true ∧ ∃ fuel' later,
      unicodeLoop m stop fuel' (s + BitVec.ofNat 32 token.bytes.length) glyph = some (stop, later) ∧
        written = (token.saved, glyph) :: later := by
  cases fuel with
  | zero => cases run
  | succ fuel =>
    rw [unicodeLoop] at run
    split at run
    next goes =>
      rw [round_token table.first, Option.map_eq_some_iff] at run
      obtain ⟨⟨s', later⟩, run, result⟩ := run
      obtain ⟨rfl, rfl⟩ := Prod.mk.inj result
      exact ⟨goes, fuel, later, run, rfl⟩
    next => exact absurd (Prod.mk.inj (Option.some.inj run)).1 table.ne_stop

theorem loop_written (table : TableAt m stop s tokens)
    (run : unicodeLoop m stop fuel s glyph = some (stop, written)) :
    written = tokens.map fun token => (token.saved, glyph) := by
  induction tokens generalizing s fuel written with
  | nil =>
    obtain rfl := table.eq_stop
    cases fuel with
    | zero => cases run
    | succ fuel =>
      rw [unicodeLoop, if_neg (by simp [BitVec.slt])] at run
      cases run
      rfl
  | cons token tokens ih =>
    obtain ⟨-, fuel', later, remaining, rfl⟩ := table.loop_cons run
    rw [ih table.rest remaining, List.map_cons]

/-- The test before the last byte lets the loop go on for one end only. -/
theorem loop_stop (table : TableAt m stop s (tokens ++ [.close]))
    (run : unicodeLoop m stop fuel s glyph = some (stop, written)) : stop = 0x80000000 := by
  induction tokens generalizing s fuel written with
  | nil =>
    obtain ⟨goes, -⟩ := table.loop_cons run
    have last : s.toNat + 1 = stop.toNat := table.ends
    have half : (0x80000000 : Word).toNat = 2 ^ 31 := rfl
    have small := stop.isLt
    rw [BitVec.slt_iff_toInt_lt, BitVec.toInt_eq_toNat_cond, BitVec.toInt_eq_toNat_cond] at goes
    rw [BitVec.toNat_eq, half]
    split at goes <;> split at goes <;> omega
  | cons token tokens ih =>
    obtain ⟨-, fuel', later, remaining, -⟩ := table.loop_cons run
    exact ih table.rest remaining

/-- Right below the middle of the address space the loop runs through the table. -/
theorem loop_half (table : TableAt m 0x80000000 s tokens) :
    unicodeLoop m 0x80000000 (tokens.length + 1) s glyph =
      some (0x80000000, tokens.map fun token => (token.saved, glyph)) := by
  induction tokens generalizing s with
  | nil =>
    obtain rfl := table.eq_stop
    rfl
  | cons token tokens ih =>
    have goes : (0x80000000 : Word).slt s = true := by
      have half : (0x80000000 : Word).toNat = 2 ^ 31 := rfl
      have ends := table.ends
      have pos := token_length_pos token
      rw [List.flatMap_cons, List.length_append] at ends
      rw [BitVec.slt_iff_toInt_lt, BitVec.toInt_eq_toNat_cond, BitVec.toInt_eq_toNat_cond]
      split <;> omega
    rw [List.length_cons, unicodeLoop, if_pos goes, round_token table.first]
    dsimp only
    rw [ih table.rest]
    rfl

end TableAt

/-! ## The lists of a font -/

variable {lists : List (List (BitVec 16))} {unicode : BitVec 16 → BitVec 16}

theorem mem_tableTokens {cp : BitVec 16} : .code cp ∈ tableTokens lists ↔ ∃ cps ∈ lists, cp ∈ cps := by
  simp [tableTokens]

theorem tableTokens_close (some : lists ≠ []) : ∃ tokens, tableTokens lists = tokens ++ [.close] := by
  obtain none | ⟨before, cps, rfl⟩ := lists.eq_nil_or_concat
  · exact absurd none some
  · refine ⟨tableTokens before ++ cps.map .code, ?_⟩
    rw [tableTokens, List.concat_eq_append, List.flatMap_append, List.flatMap_singleton,
      List.append_assoc]
    rfl

theorem exists_last {g : Nat} {cps : List (BitVec 16)} {cp : BitVec 16} (listed : lists[g]? = some cps)
    (mem : cp ∈ cps) :
    ∃ (g' : Nat) (cps' : List (BitVec 16)), g ≤ g' ∧ lists[g']? = some cps' ∧ cp ∈ cps' ∧
      ∀ (g'' : Nat) (cps'' : List (BitVec 16)), g' < g'' → lists[g'']? = some cps'' → cp ∉ cps'' := by
  induction remaining : lists.length - g using Nat.strongRecOn generalizing g cps with
  | ind n ih =>
    by_cases later : ∃ (g'' : Nat) (cps'' : List (BitVec 16)),
        g < g'' ∧ lists[g'']? = some cps'' ∧ cp ∈ cps''
    · obtain ⟨g'', cps'', behind, listed'', mem''⟩ := later
      obtain ⟨small, -⟩ := List.getElem?_eq_some_iff.mp listed''
      obtain ⟨g', cps', after, last⟩ := ih (lists.length - g'') (by omega) listed'' mem'' rfl
      exact ⟨g', cps', by omega, last⟩
    · refine ⟨g, cps, le_rfl, listed, mem, ?_⟩
      intro g'' cps'' behind listed'' mem''
      exact later ⟨g'', cps'', behind, listed'', mem''⟩

theorem saveAll_token {token : Token} (mem : token ∈ tokens) :
    saveAll unicode (tokens.map fun token => (token.saved, glyph)) token.saved = glyph := by
  induction tokens using List.reverseRecOn with
  | nil => cases mem
  | append_singleton tokens last ih =>
    rw [List.map_append, saveAll, List.foldl_append]
    change Function.update (saveAll unicode _) last.saved glyph token.saved = glyph
    obtain same | other := eq_or_ne token.saved last.saved
    · rw [same, Function.update_self]
    · rw [Function.update_of_ne other]
      obtain before | rfl := (List.mem_append.mp mem).imp_right List.mem_singleton.mp
      · exact ih before
      · exact absurd rfl other

theorem psfInit_table {font : PsfFont} {psf : Psf} (flagged : font.flags ≠ 0) :
    psfInit font stop fuel psf = some ⟨font.width, font.height, some (s, written)⟩ ↔
      unicodeLoop font.mem stop fuel font.tableAt 0 = some (s, written) := by
  rw [psfInit, if_neg flagged]
  cases unicodeLoop font.mem stop fuel font.tableAt 0 <;> simp

namespace UnicodeFont

variable (f : UnicodeFont)

theorem tableAt_tokens : TableAt f.mem f.stop f.tableAt (tableTokens f.lists) := ⟨f.table, f.ends⟩

section Decoded

variable (decoded : written = (tableTokens f.lists).map fun token => (token.saved, 0))

include decoded

/-- No closing byte is counted, so every code point gets glyph 0. -/
theorem saved_zero {cps : List (BitVec 16)} {cp : BitVec 16} (listed : cps ∈ f.lists) (mem : cp ∈ cps) :
    saveAll unicode written cp = 0 := by
  rw [decoded]
  exact saveAll_token (mem_tableTokens.mpr ⟨cps, listed, mem⟩ : .code cp ∈ _)

theorem lists_of_decoded (ok : f.DecodedOk unicode s written) :
    (∀ cps ∈ f.lists.tail, cps = []) ∧ ∀ cps ∈ f.lists, 0xFFFF ∉ cps := by
  refine ⟨?_, ?_⟩
  · intro cps mem
    obtain ⟨i, listed⟩ := List.mem_iff_getElem?.mp mem
    rw [List.getElem?_tail] at listed
    refine List.eq_nil_iff_forall_not_mem.mpr fun cp code => ?_
    obtain ⟨g, cps', behind, listed', code', last⟩ := exists_last listed code
    have glyph := ok.listed g cps' listed' cp code' last
    rw [saved_zero f decoded (List.mem_of_getElem? listed') code'] at glyph
    have nothing : (0 : BitVec 16).toNat = 0 := rfl
    omega
  · intro cps listed code
    have entry : (0xFFFF, 0) ∈ written := by
      rw [decoded]
      exact List.mem_map.mpr ⟨.code 0xFFFF, mem_tableTokens.mpr ⟨cps, listed, code⟩, rfl⟩
    exact absurd (ok.inside _ entry) (by decide)

theorem decoded_of_lists (others : ∀ cps ∈ f.lists.tail, cps = []) (top : ∀ cps ∈ f.lists, 0xFFFF ∉ cps) :
    f.DecodedOk unicode f.stop written := by
  refine ⟨?_, rfl, ?_⟩
  · intro g cps listed cp code _
    rw [saved_zero f decoded (List.mem_of_getElem? listed) code]
    cases g with
    | zero => rfl
    | succ g =>
      rw [← List.getElem?_tail] at listed
      rw [others cps (List.mem_of_getElem? listed)] at code
      cases code
  · intro entry mem
    rw [decoded] at mem
    obtain ⟨token, place, rfl⟩ := List.mem_map.mp mem
    cases token with
    | close => exact (by decide : 0 < 65535)
    | code cp =>
      obtain ⟨cps, listed, code⟩ := mem_tableTokens.mp place
      have other : cp ≠ 0xFFFF := by
        rintro rfl
        exact top cps listed code
      have number : (0xFFFF : BitVec 16).toNat = 65535 := rfl
      rw [ne_eq, BitVec.toNat_eq, number] at other
      exact Nat.lt_of_le_of_ne (Nat.le_of_lt_succ cp.isLt) other

end Decoded

/-- The table is decoded if and only if there is none, or it ends in the middle of the address space
and no glyph but the first has code points. -/
theorem init_ok_iff (f : UnicodeFont) (psf : Psf) (unicode : BitVec 16 → BitVec 16) :
    f.InitOk psf unicode ↔ f.lists = [] ∨ f.stop = 0x80000000 ∧
      (∀ cps ∈ f.lists.tail, cps = []) ∧ ∀ cps ∈ f.lists, 0xFFFF ∉ cps := by
  have table := f.tableAt_tokens
  constructor
  · rintro ⟨fuel, s, written, init, ok⟩
    obtain rfl := ok.consumed
    have run := (psfInit_table f.flagged).mp init
    obtain none | some := eq_or_ne f.lists []
    · exact .inl none
    · obtain ⟨tokens, closed⟩ := tableTokens_close some
      have half := (closed ▸ table).loop_stop run
      exact .inr ⟨half, f.lists_of_decoded (table.loop_written run) ok⟩
  · rintro (none | ⟨half, lists⟩)
    · rw [none] at table
      refine ⟨1, f.stop, [], (psfInit_table f.flagged).mpr ?_, ?_⟩
      · rw [unicodeLoop, table.eq_stop, if_neg (by simp [BitVec.slt])]
      · exact f.decoded_of_lists (by rw [none]; rfl) (by simp [none]) (by simp [none])
    · refine ⟨(tableTokens f.lists).length + 1, f.stop, _, (psfInit_table f.flagged).mpr ?_,
        f.decoded_of_lists rfl lists.1 lists.2⟩
      rw [half] at table ⊢
      exact table.loop_half

end UnicodeFont

/-- One glyph, drawn for `A`. -/
def smallFont : UnicodeFont where
  mem := storeBytes (fun _ => 0) 0x100008
    [32, 0, 0, 0, 1, 0, 0, 0, 1, 0, 0, 0, 1, 0, 0, 0, 1, 0, 0, 0, 8, 0, 0, 0, 0x18, 0x41, 0xFF]
  start := 0x100000
  stop := 0x100023
  lists := [[0x41]]
  flagged := by decide
  glyphs := by decide
  table := by decide
  ends := by decide

/-- The loop does not run at all. -/
theorem init_skips : ¬∃ psf unicode, smallFont.InitOk psf unicode := by
  rintro ⟨psf, unicode, fuel, s, written, init, ok⟩
  obtain rfl := ok.consumed
  have run := (psfInit_table smallFont.flagged).mp init
  have table : TableAt smallFont.mem smallFont.stop smallFont.tableAt ([.code 0x41] ++ [.close]) :=
    smallFont.tableAt_tokens
  exact absurd (table.loop_stop run) (by decide)

end X86Os.Screen
