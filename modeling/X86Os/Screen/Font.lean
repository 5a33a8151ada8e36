import X86Os.Library.Memory

/-!
# Fonts in memory, after base/core/psfdraw.cpp

A font starts with a header of 32 bytes. `putchar` finds the glyph of a character,
through the table of `psf_init` if there is one, and calls `putpixel` for its bits.
-/

namespace X86Os.Screen

open Library.Memory
set_option autoImplicit false

structure PsfFont where
  mem : Mem
  start : Word

structure Pixel where
  x : Word
  y : Word
  color : Word

namespace PsfFont

variable (font : PsfFont) (unicode : Option (BitVec 16 → BitVec 16)) (c : BitVec 16)

def headersize : Word := load32 font.mem (font.start + 8)

def flags : Word := load32 font.mem (font.start + 12)

def numglyph : Word := load32 font.mem (font.start + 16)

def bytesperglyph : Word := load32 font.mem (font.start + 20)

def height : Word := load32 font.mem (font.start + 24)

def width : Word := load32 font.mem (font.start + 28)

def bytesperline : Word := (font.width + 7) / 8

/-- The address of the glyph, the first one for a character without a glyph. -/
def glyph : Word :=
  let c := (unicode.elim c fun table => table c).setWidth 32
  font.start + font.headersize + (if 0 < c ∧ c < font.numglyph then c else 0) * font.bytesperglyph

def rowAt (y : Nat) : Word := font.glyph unicode c + BitVec.ofNat 32 y * font.bytesperline

def mask (x : Nat) : Word := ((1 : Word) <<< (font.width - 1)).sshiftRight x

/-- The body of the loops of `putchar`. -/
def pixel (cx cy fg bg : Word) (x y : Nat) : Option Pixel :=
  let color := if load32 font.mem (font.rowAt unicode c y) &&& font.mask x ≠ 0 then fg else bg
  if color ≠ 0 then some ⟨BitVec.ofNat 32 x + cx, BitVec.ofNat 32 y + cy, color⟩ else none

def putchar (cx cy fg bg : Word) : List Pixel :=
  (List.range font.height.toNat).flatMap fun y =>
    (List.range font.width.toNat).filterMap fun x => font.pixel unicode c cx cy fg bg x y

end PsfFont

end X86Os.Screen
