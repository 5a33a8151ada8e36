import X86Os.Libc.Memcpy
import X86Os.Screen.Console

/-!
# Scrolling

When the cursor is below the screen, `putc` copies the shadow buffer `fb` over
itself from 14 rows further down, and then to the hardware. The count is 14 bytes
short of 1024 rows, whatever the height is, and no row is ever cleared.
-/

namespace X86Os.Screen

open Library.Memory Libc
set_option autoImplicit false

/-- The shadow buffer of `putc_init` and the framebuffer of the hardware, of equal sizes. -/
structure Framebuffer where
  pitch : Word
  height : Word
  fb : Word
  framebufferAddr : Word
  fbFits : fb.toNat + pitch.toNat * height.toNat ≤ 2 ^ 32
  addrFits : framebufferAddr.toNat + pitch.toNat * height.toNat ≤ 2 ^ 32
  apart : ∀ x, Covers fb (pitch.toNat * height.toNat) x →
    ¬Covers framebufferAddr (pitch.toNat * height.toNat) x

def scrollCount (pitch : Word) : Word := pitch * 1024 - 14

def scroll (pitch fb framebufferAddr : Word) (m : Mem) : Mem :=
  let m := memcpy m fb (fb + pitch * 14) (scrollCount pitch)
  memcpy m framebufferAddr fb (scrollCount pitch)

/-- What an output does to memory, apart from pixels. -/
def Output.copy : Output → Mem → Mem
  | memcpy dst src count, m => Libc.memcpy m dst src count
  | _, m => m

namespace Framebuffer

variable (f : Framebuffer) (m : Mem)

def size : Nat := f.pitch.toNat * f.height.toNat

def count : Nat := (scrollCount f.pitch).toNat

/-- Byte `c` of pixel row `r`, counted from the start of a buffer. -/
def place (r c : Nat) : Nat := r * f.pitch.toNat + c

def shadow (m : Mem) (k : Nat) : Byte := m (f.fb + BitVec.ofNat 32 k)

def hardware (m : Mem) (k : Nat) : Byte := m (f.framebufferAddr + BitVec.ofNat 32 k)

/-- The copies stay inside the buffers, the rows move up and the last ones are blank. -/
structure ScrollOk : Prop where
  read : ∀ x, Covers (f.fb + f.pitch * 14) f.count x → Covers f.fb f.size x
  written : ∀ x, Covers f.fb f.count x → Covers f.fb f.size x
  shown : ∀ x, Covers f.framebufferAddr f.count x → Covers f.framebufferAddr f.size x
  moved : ∀ r c, r + 14 < f.height.toNat → c < f.pitch.toNat →
    let after := scroll f.pitch f.fb f.framebufferAddr m
    f.shadow after (f.place r c) = f.shadow m (f.place (r + 14) c) ∧
      f.hardware after (f.place r c) = f.shadow m (f.place (r + 14) c)
  blank : ∀ r c, r < f.height.toNat → f.height.toNat ≤ r + 14 → c < f.pitch.toNat →
    let after := scroll f.pitch f.fb f.framebufferAddr m
    f.shadow after (f.place r c) = 0 ∧ f.hardware after (f.place r c) = 0

/-- The bytes that no copy reaches are right before, and what is copied to the last rows is blank. -/
structure Prepared : Prop where
  moved : ∀ r c, r + 14 < f.height.toNat → c < f.pitch.toNat → f.count ≤ f.place r c →
    f.shadow m (f.place r c) = f.shadow m (f.place (r + 14) c) ∧
      f.hardware m (f.place r c) = f.shadow m (f.place (r + 14) c)
  copied : ∀ r c, r < f.height.toNat → f.height.toNat ≤ r + 14 → c < f.pitch.toNat →
    f.place r c < f.count → f.shadow m (f.place (r + 14) c) = 0
  blank : ∀ r c, r < f.height.toNat → f.height.toNat ≤ r + 14 → c < f.pitch.toNat →
    f.count ≤ f.place r c → f.shadow m (f.place r c) = 0 ∧ f.hardware m (f.place r c) = 0

end Framebuffer

variable {f : Framebuffer} {m : Mem} {a o x : Word} {k n s : Nat}

theorem putcScroll_scroll {video : Video} {c : BitVec 16} {st : Console}
    (below : (768 : Word).slt st.y = true) :
    (putcScroll video c st).2.foldl (fun m out => out.copy m) m =
      scroll video.framebufferPitch video.fb video.framebufferAddr m := by
  rw [putcScroll, if_pos below]
  rfl

/-! ## Ranges -/

theorem covers_within_iff (some : 0 < n) (small : s < 2 ^ 32) :
    (∀ x, Covers (a + o) n x → Covers a s x) ↔ o.toNat + n ≤ s := by
  have bound := o.isLt
  constructor
  · intro within
    by_contra beyond
    obtain behind | before := Nat.lt_or_ge o.toNat s
    · -- the first byte behind the outer range
      have last := within (a + BitVec.ofNat 32 s) (by
        rw [covers_add_add, Covers, BitVec.toNat_sub, BitVec.toNat_ofNat]
        omega)
      rw [covers_add, BitVec.toNat_ofNat] at last
      omega
    · have first := within (a + o) (by simpa [Covers] using some)
      rw [covers_add] at first
      omega
  · intro fits x covered
    have place : (x - (a + o)).toNat < n := covered
    have sum : x = a + (o + (x - (a + o))) := by ring
    rw [sum, covers_add, BitVec.toNat_add, Nat.mod_eq_of_lt (by omega)]
    omega

theorem scrollCount_pos (pitch : Word) : 0 < (scrollCount pitch).toNat := by
  have thousand : (1024 : Word).toNat = 1024 := rfl
  have fourteen : (14 : Word).toNat = 14 := rfl
  rw [scrollCount, BitVec.toNat_sub, BitVec.toNat_mul, thousand, fourteen]
  omega

namespace Framebuffer

/-- Both buffers have room beside each other, so neither is the whole memory. -/
theorem size_lt (f : Framebuffer) : f.size < 2 ^ 32 := by
  by_contra whole
  have fits := f.fbFits
  have fits' := f.addrFits
  have covered (b : Word) : Covers b (f.pitch.toNat * f.height.toNat) f.fb :=
    Nat.lt_of_lt_of_le (f.fb - b).isLt (Nat.not_lt.mp whole)
  exact f.apart f.fb (covered f.fb) (covered f.framebufferAddr)

theorem place_lt {r c : Nat} (row : r < f.height.toNat) (col : c < f.pitch.toNat) :
    f.place r c < f.size := by
  have rows : (r + 1) * f.pitch.toNat ≤ f.height.toNat * f.pitch.toNat := Nat.mul_le_mul_right _ row
  rw [Nat.succ_mul] at rows
  rw [place, size, Nat.mul_comm f.pitch.toNat]
  omega

theorem place_below (r c : Nat) :
    f.fb + f.pitch * 14 + BitVec.ofNat 32 (f.place r c) = f.fb + BitVec.ofNat 32 (f.place (r + 14) c) := by
  have down : f.place (r + 14) c = f.pitch.toNat * 14 + f.place r c := by
    simp only [place]
    ring
  rw [down, BitVec.ofNat_add, BitVec.ofNat_mul, BitVec.ofNat_toNat, BitVec.setWidth_eq, add_assoc]
  rfl

/-! ## The bytes behind a scroll that stays inside -/

section Inside

variable (inside : (f.pitch * 14).toNat + f.count ≤ f.size)

include inside

theorem count_le : f.count ≤ f.size := by omega

theorem shadow_within (small : k < f.size) : ¬Covers f.framebufferAddr f.count (f.fb + BitVec.ofNat 32 k) := by
  have below := f.size_lt
  intro covered
  refine f.apart (f.fb + BitVec.ofNat 32 k) ?_ (Nat.lt_of_lt_of_le covered (count_le inside))
  rw [covers_add, BitVec.toNat_ofNat]
  exact Nat.lt_of_le_of_lt (Nat.mod_le ..) small

theorem hardware_within (small : k < f.size) : ¬Covers f.fb f.count (f.framebufferAddr + BitVec.ofNat 32 k) := by
  intro covered
  refine f.apart _ (Nat.lt_of_lt_of_le covered (count_le inside)) ?_
  rw [covers_add, BitVec.toNat_ofNat]
  exact Nat.lt_of_le_of_lt (Nat.mod_le ..) small

theorem first_copied (early : k < f.count) :
    memcpy m f.fb (f.fb + f.pitch * 14) (scrollCount f.pitch) (f.fb + BitVec.ofNat 32 k) =
      m (f.fb + f.pitch * 14 + BitVec.ofNat 32 k) := by
  have below := f.size_lt
  refine copyBytes_inside (scrollCount f.pitch).isLt.le early ?_
  rw [add_assoc, covers_add, BitVec.toNat_add, BitVec.toNat_ofNat]
  omega

omit inside in
theorem first_rest (late : f.count ≤ k) (small : k < f.size) :
    memcpy m f.fb (f.fb + f.pitch * 14) (scrollCount f.pitch) (f.fb + BitVec.ofNat 32 k) =
      f.shadow m k := by
  have below := f.size_lt
  refine memcpy_outside ?_
  rw [covers_add, BitVec.toNat_ofNat, Nat.mod_eq_of_lt (by omega)]
  exact Nat.not_lt.mpr late

theorem shadow_scroll (small : k < f.size) :
    f.shadow (scroll f.pitch f.fb f.framebufferAddr m) k =
      if k < f.count then m (f.fb + f.pitch * 14 + BitVec.ofNat 32 k) else f.shadow m k := by
  rw [shadow, scroll, memcpy_outside (shadow_within inside small)]
  split
  next early => exact first_copied inside early
  next late => exact first_rest (Nat.not_lt.mp late) small

theorem hardware_scroll (small : k < f.size) :
    f.hardware (scroll f.pitch f.fb f.framebufferAddr m) k =
      if k < f.count then m (f.fb + f.pitch * 14 + BitVec.ofNat 32 k) else f.hardware m k := by
  have below := f.size_lt
  rw [hardware, scroll]
  split
  next early =>
    have source : ¬Covers f.framebufferAddr k (f.fb + BitVec.ofNat 32 k) :=
      fun covered => shadow_within inside small (Nat.lt_trans covered early)
    exact (copyBytes_inside (scrollCount f.pitch).isLt.le early source).trans (first_copied inside early)
  next late =>
    rw [memcpy_outside, memcpy_outside (hardware_within inside small)]
    · rfl
    · rw [covers_add, BitVec.toNat_ofNat, Nat.mod_eq_of_lt (by omega)]
      exact late

end Inside

theorem prepared_of_ok (inside : (f.pitch * 14).toNat + f.count ≤ f.size) (ok : f.ScrollOk m) :
    f.Prepared m := by
  refine ⟨?_, ?_, ?_⟩
  · intro r c row col late
    have small := place_lt (show r < f.height.toNat by omega) col
    have moved := ok.moved r c row col
    dsimp only at moved
    rwa [shadow_scroll inside small, hardware_scroll inside small, if_neg late.not_gt,
      if_neg late.not_gt] at moved
  · intro r c row last col early
    have small := place_lt row col
    have blank := (ok.blank r c row last col).1
    rwa [shadow_scroll inside small, if_pos early, place_below] at blank
  · intro r c row last col late
    have small := place_lt row col
    have blank := ok.blank r c row last col
    dsimp only at blank
    rwa [shadow_scroll inside small, hardware_scroll inside small, if_neg late.not_gt,
      if_neg late.not_gt] at blank

theorem ok_of_prepared (inside : (f.pitch * 14).toNat + f.count ≤ f.size) (prepared : f.Prepared m) :
    f.ScrollOk m := by
  have reads := covers_within_iff (a := f.fb) (o := f.pitch * 14) (scrollCount_pos f.pitch) f.size_lt
  constructor
  case read => exact reads.mpr inside
  case written => exact fun x covered => Nat.lt_of_lt_of_le covered (count_le inside)
  case shown => exact fun x covered => Nat.lt_of_lt_of_le covered (count_le inside)
  case moved =>
    intro r c row col
    have small := place_lt (show r < f.height.toNat by omega) col
    dsimp only
    rw [shadow_scroll inside small, hardware_scroll inside small, place_below]
    split
    next => exact ⟨rfl, rfl⟩
    next late => exact prepared.moved r c row col (Nat.not_lt.mp late)
  case blank =>
    intro r c row last col
    have small := place_lt row col
    dsimp only
    rw [shadow_scroll inside small, hardware_scroll inside small, place_below]
    split
    next early =>
      have blank := prepared.copied r c row last col early
      exact ⟨blank, blank⟩
    next late => exact prepared.blank r c row last col (Nat.not_lt.mp late)

/-- The scroll is right if and only if the copies fit into the buffer and what they leave out was
prepared. -/
theorem scroll_ok_iff (f : Framebuffer) (m : Mem) :
    f.ScrollOk m ↔ (f.pitch * 14).toNat + f.count ≤ f.size ∧ f.Prepared m := by
  constructor
  · intro ok
    have inside := (covers_within_iff (scrollCount_pos f.pitch) f.size_lt).mp ok.read
    exact ⟨inside, prepared_of_ok inside ok⟩
  · rintro ⟨inside, prepared⟩
    exact ok_of_prepared inside prepared

end Framebuffer

def usualFramebuffer : Framebuffer where
  pitch := 4096
  height := 768
  fb := 0x1000000
  framebufferAddr := 0xE0000000
  fbFits := by decide
  addrFits := by decide
  apart := by
    intro x shadow hardware
    rw [covers_iff (by decide)] at shadow hardware
    have first : (0x1000000 : Word).toNat = 0x1000000 := rfl
    have second : (0xE0000000 : Word).toNat = 0xE0000000 := rfl
    have pitch : (4096 : Word).toNat = 4096 := rfl
    have height : (768 : Word).toNat = 768 := rfl
    rw [pitch, height] at shadow
    omega

/-- The copy reads and writes a megabyte behind the buffer. -/
theorem scroll_overruns : ¬∃ m : Mem, usualFramebuffer.ScrollOk m := by
  rintro ⟨m, ok⟩
  have inside := (covers_within_iff (scrollCount_pos usualFramebuffer.pitch)
    usualFramebuffer.size_lt).mp ok.read
  exact absurd inside (by decide)

end X86Os.Screen
