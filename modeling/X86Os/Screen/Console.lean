import X86Os.Screen.Font

/-!
# Characters on the screen, after base/core/putc.cpp and base/core/psfdraw.cpp

`putc` draws a glyph at the cursor and moves the cursor on. The coordinates are
`int`s that wrap around; the index of a pixel is computed in 32 bits. What `putc`
does to the outside is a list of outputs, from which the pixels follow.
-/

namespace X86Os.Screen

open Library.Memory
set_option autoImplicit false

/-- A font with the table of `psf_init`, if there is one. A cell has at most 8 times 14 pixels. -/
structure Font extends PsfFont where
  unicode : Option (BitVec 16 → BitVec 16)
  narrow : toPsfFont.width.toNat ≤ 8
  low : toPsfFont.height.toNat ≤ 14

def Font.putchar (font : Font) (c : BitVec 16) (cx cy fg bg : Word) : List Pixel :=
  font.toPsfFont.putchar font.unicode c cx cy fg bg

/-- A framebuffer of 768 lines with 1024 pixels of four bytes each. -/
structure Video where
  framebufferAddr : Word
  framebufferPitch : Word
  fb : Word
  wide : 4096 ≤ framebufferPitch.toNat

/-- The index that is written in `screen` and in `fb`. -/
def putpixel (video : Video) (p : Pixel) : Option Word :=
  if p.color = 0 then none else some (p.x + p.y * (video.framebufferPitch / 4))

inductive Output
  | dbgputchar (c : Byte)
  | putchar (c : BitVec 16) (x y : Word)
  | memcpy (dst src count : Word)
  | initSerial
  deriving DecidableEq

structure Console where
  x : Word
  y : Word
  serialDone : Bool
  deriving DecidableEq

def newline : Byte := 10

def putcWrap (s : Console) : Console :=
  if (1024 : Word).slt (s.x + 8) then { s with x := 0, y := s.y + 14 } else { s with x := s.x + 8 }

/-- The test for the end of the screen, behind which the glyph is drawn once more. -/
def putcScroll (video : Video) (c : BitVec 16) (s : Console) : Console × List Output :=
  let count := video.framebufferPitch * 1024 - 14
  if (768 : Word).slt s.y then
    ({ s with x := 8, y := s.y - 14 },
      [.memcpy video.fb (video.fb + video.framebufferPitch * 14) count,
        .memcpy video.framebufferAddr video.fb count, .putchar c 0 (s.y - 14)])
  else (s, [])

def putc (video : Video) (c : Byte) (s : Console) : Console × List Output :=
  if c = newline then
    ({ s with x := 0, y := s.y + 14 }, [.dbgputchar 13, .dbgputchar c])
  else
    let wide := c.signExtend 16
    let scroll := putcScroll video wide (putcWrap s)
    ({ scroll.1 with serialDone := true },
      [.dbgputchar c, .putchar wide s.x s.y] ++ scroll.2 ++
        if s.serialDone then [] else [.initSerial])

def putAll (video : Video) (s : Console) : List Byte → Console × List Output
  | [] => (s, [])
  | c :: cs =>
    let first := putc video c s
    let rest := putAll video first.1 cs
    (rest.1, first.2 ++ rest.2)

end X86Os.Screen
