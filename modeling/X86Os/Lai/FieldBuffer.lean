import X86Os.Lai.Host
import X86Os.Library.BitBuffer

/-!
# Bit ranges of buffers

`lai_buffer_put_at` and `lai_buffer_get_at` of lai/core/opregion.c move bits
between an integer and a buffer, byte by byte. The first one only sets bits: its
buffers are zeroed before. The integers are of type `uint64_t`, which has 32 bits
here; C leaves shifts of them by 32 and more undefined, and i386 takes the count
modulo 32.
-/

namespace X86Os.Lai

open Library.Memory Library.BitBuffer
set_option autoImplicit false

variable {buffer : List Byte} {value : Word} {bitOffset numBits progress turns : ℕ}

/-- The bits that one turn moves: to the end of the byte at most. -/
def accessSizeAt (bitOffset numBits progress : ℕ) : ℕ :=
  min (numBits - progress) (8 - (bitOffset + progress) % 8)

def byteMask (accessSize : ℕ) : Word := (1#32 <<< accessSize) - 1#32

/-- The loop of `lai_buffer_put_at`. Every turn makes progress. -/
def putLoop (value : Word) (bitOffset numBits : ℕ) : ℕ → ℕ → List Byte → Except Stop (List Byte)
  | 0, _, _ => .error .wild
  | turns + 1, progress, buffer =>
    if progress < numBits then do
      let inByteOffset := (bitOffset + progress) % 8
      let accessSize := accessSizeAt bitOffset numBits progress
      let old ← readAt buffer ((bitOffset + progress) / 8)
      let piece := ((value >>> (progress % 32)) &&& byteMask accessSize) <<< inByteOffset
      putLoop value bitOffset numBits turns (progress + accessSize)
        (buffer.set ((bitOffset + progress) / 8) (old ||| piece.setWidth 8))
    else .ok buffer

def laiBufferPutAt (buffer : List Byte) (value : Word) (bitOffset numBits : ℕ) :
    Except Stop (List Byte) :=
  putLoop value bitOffset numBits (numBits + 1) 0 buffer

def getLoop (buffer : List Byte) (bitOffset numBits : ℕ) : ℕ → ℕ → Word → Except Stop Word
  | 0, _, _ => .error .wild
  | turns + 1, progress, value =>
    if progress < numBits then do
      let inByteOffset := (bitOffset + progress) % 8
      let accessSize := accessSizeAt bitOffset numBits progress
      let byte ← readAt buffer ((bitOffset + progress) / 8)
      let piece := (byte.setWidth 32 >>> inByteOffset) &&& byteMask accessSize
      getLoop buffer bitOffset numBits turns (progress + accessSize)
        (value ||| piece <<< (progress % 32))
    else .ok value

def laiBufferGetAt (buffer : List Byte) (bitOffset numBits : ℕ) : Except Stop Word :=
  getLoop buffer bitOffset numBits (numBits + 1) 0 0

theorem accessSizeAt_bounds (bitOffset : ℕ) (more : progress < numBits) :
    0 < accessSizeAt bitOffset numBits progress ∧
      progress + accessSizeAt bitOffset numBits progress ≤ numBits ∧
        (bitOffset + progress) % 8 + accessSizeAt bitOffset numBits progress ≤ 8 := by
  rw [accessSizeAt]
  omega

theorem getLsbD_byteMask {n : ℕ} (few : n ≤ 8) (i : ℕ) : (byteMask n).getLsbD i = decide (i < n) :=
  getLsbD_lowMask (by omega) i

/-- A turn sets the bits of its range as the value has them. -/
theorem bit_putTurn (value : Word) (few : numBits ≤ 32) (more : progress < numBits) {old : Byte}
    (found : buffer[(bitOffset + progress) / 8]? = some old) (j : ℕ) :
    bit (buffer.set ((bitOffset + progress) / 8)
      (old ||| (((value >>> (progress % 32)) &&& byteMask (accessSizeAt bitOffset numBits progress))
        <<< ((bitOffset + progress) % 8)).setWidth 8)) j =
      (bit buffer j || decide (bitOffset + progress ≤ j ∧
        j < bitOffset + progress + accessSizeAt bitOffset numBits progress) &&
          value.getLsbD (j - bitOffset)) := by
  obtain ⟨inside, rfl⟩ := List.getElem?_eq_some_iff.mp found
  obtain ⟨pos, _, fits⟩ := accessSizeAt_bounds bitOffset more
  generalize accessSizeAt bitOffset numBits progress = size at *
  rw [bit_set inside]
  split_ifs with same
  · have here : bit buffer j = buffer[(bitOffset + progress) / 8].getLsbD (j % 8) := by
      rw [bit, same, List.getD_eq_getElem _ _ inside]
    rw [or_bits (by decide) _ j same, here, BitVec.getLsbD_and, BitVec.getLsbD_ushiftRight,
      Nat.mod_eq_of_lt (show progress < 32 by omega), getLsbD_byteMask (by omega)]
    congr 1
    obtain before | behind := lt_or_ge j (bitOffset + progress)
    · rw [decide_eq_false (not_le_of_gt before), Bool.false_and, decide_eq_false (by omega),
        Bool.false_and]
    · rw [decide_eq_true behind, show progress + (j - (bitOffset + progress)) = j - bitOffset by omega,
        Bool.true_and, Bool.and_comm]
      congr 1
      rw [decide_eq_decide]
      omega
  · rw [decide_eq_false (by omega), Bool.false_and, Bool.or_false]

theorem putLoop_spec (within : bitOffset + numBits ≤ 8 * buffer.length) (few : numBits ≤ 32) (upto : progress ≤ numBits)
    (enough : numBits - progress < turns) :
    ∃ buffer', putLoop value bitOffset numBits turns progress buffer = .ok buffer' ∧
      buffer'.length = buffer.length ∧ ∀ j, bit buffer' j =
        (bit buffer j || decide (bitOffset + progress ≤ j ∧ j < bitOffset + numBits) &&
          value.getLsbD (j - bitOffset)) := by
  induction turns generalizing progress buffer with
  | zero => exact absurd enough (Nat.not_lt_zero _)
  | succ turns ih =>
    rw [putLoop]
    split_ifs with more
    · obtain ⟨pos, upto', fits⟩ := accessSizeAt_bounds bitOffset more
      have inside : (bitOffset + progress) / 8 < buffer.length := by omega
      have found := List.getElem?_eq_getElem inside
      have turn := bit_putTurn value few more found
      rw [readAt_of found, ok_bind]
      dsimp only
      generalize accessSizeAt bitOffset numBits progress = size at *
      generalize next : buffer.set ((bitOffset + progress) / 8) _ = after at turn ⊢
      have same : after.length = buffer.length := by rw [← next, List.length_set]
      obtain ⟨buffer', done, length, bits⟩ :=
        ih (show bitOffset + numBits ≤ 8 * after.length by rwa [same]) upto' (by omega)
      refine ⟨buffer', done, length.trans same, fun j => ?_⟩
      rw [bits, turn, Bool.or_assoc, ← Nat.add_assoc, join_ranges (by omega) (by omega)]
    · refine ⟨buffer, rfl, rfl, fun j => ?_⟩
      rw [decide_eq_false (by omega), Bool.false_and, Bool.or_false]

/-- The range of the buffer gets the bits of the value in addition to its own. -/
theorem laiBufferPutAt_spec (value : Word) (within : bitOffset + numBits ≤ 8 * buffer.length)
    (few : numBits ≤ 32) :
    ∃ buffer', laiBufferPutAt buffer value bitOffset numBits = .ok buffer' ∧
      buffer'.length = buffer.length ∧ ∀ j, bit buffer' j =
        (bit buffer j || decide (bitOffset ≤ j ∧ j < bitOffset + numBits) &&
          value.getLsbD (j - bitOffset)) :=
  putLoop_spec within few (Nat.zero_le _) (Nat.lt_succ_self _)

theorem getLoop_spec (value : Word) (within : bitOffset + numBits ≤ 8 * buffer.length)
    (few : numBits ≤ 32) (upto : progress ≤ numBits) (enough : numBits - progress < turns) :
    ∃ value', getLoop buffer bitOffset numBits turns progress value = .ok value' ∧
      ∀ i, value'.getLsbD i =
        (value.getLsbD i || decide (progress ≤ i ∧ i < numBits) && bit buffer (bitOffset + i)) := by
  induction turns generalizing progress value with
  | zero => exact absurd enough (Nat.not_lt_zero _)
  | succ turns ih =>
    rw [getLoop]
    split_ifs with more
    · obtain ⟨pos, upto', inByte⟩ := accessSizeAt_bounds bitOffset more
      have inside : (bitOffset + progress) / 8 < buffer.length := by omega
      rw [readAt_of (List.getElem?_eq_getElem inside), ok_bind]
      generalize accessSizeAt bitOffset numBits progress = size at *
      obtain ⟨value', done, bits⟩ := ih _ upto' (by omega)
      refine ⟨value', done, fun i => ?_⟩
      have piece : (((buffer[(bitOffset + progress) / 8].setWidth 32 >>> ((bitOffset + progress) % 8))
          &&& byteMask size) <<< (progress % 32)).getLsbD i =
            (decide (progress ≤ i ∧ i < progress + size) && bit buffer (bitOffset + i)) := by
        rw [Nat.mod_eq_of_lt (show progress < 32 by omega), BitVec.getLsbD_shiftLeft,
          BitVec.getLsbD_and, BitVec.getLsbD_ushiftRight, BitVec.getLsbD_setWidth, getLsbD_byteMask (by omega)]
        obtain before | behind := lt_or_ge i progress
        · rw [decide_eq_true before, Bool.not_true, Bool.and_false, Bool.false_and,
            decide_eq_false (show ¬(progress ≤ i ∧ i < progress + size) by omega), Bool.false_and]
        rw [decide_eq_false (not_lt_of_ge behind)]
        obtain inRange | past := lt_or_ge (i - progress) size
        · have here : bit buffer (bitOffset + i) = buffer[(bitOffset + progress) / 8].getLsbD
              ((bitOffset + progress) % 8 + (i - progress)) := by
            rw [bit, show (bitOffset + i) / 8 = (bitOffset + progress) / 8 by omega,
              show (bitOffset + i) % 8 = (bitOffset + progress) % 8 + (i - progress) by omega,
              List.getD_eq_getElem _ _ inside]
          rw [here, decide_eq_true (show i < 32 by omega),
            decide_eq_true (show (bitOffset + progress) % 8 + (i - progress) < 32 by omega),
            decide_eq_true inRange, decide_eq_true (show progress ≤ i ∧ i < progress + size by omega),
            Bool.and_true]
          rfl
        · rw [decide_eq_false (not_lt_of_ge past), Bool.and_false, Bool.and_false,
            decide_eq_false (show ¬(progress ≤ i ∧ i < progress + size) by omega), Bool.false_and]
      rw [bits, BitVec.getLsbD_or, piece, Bool.or_assoc, join_ranges (by omega) upto']
    · refine ⟨value, rfl, fun i => ?_⟩
      rw [decide_eq_false (by omega), Bool.false_and, Bool.or_false]

/-- The bits of the range, and no others. -/
theorem laiBufferGetAt_spec (within : bitOffset + numBits ≤ 8 * buffer.length) (few : numBits ≤ 32) :
    ∃ value, laiBufferGetAt buffer bitOffset numBits = .ok value ∧
      ∀ i, value.getLsbD i = (decide (i < numBits) && bit buffer (bitOffset + i)) := by
  obtain ⟨value, done, bits⟩ :=
    getLoop_spec 0 within few (Nat.zero_le numBits) (Nat.lt_succ_self _)
  refine ⟨value, done, fun i => ?_⟩
  rw [bits, show (0 : Word).getLsbD i = false from BitVec.getLsbD_zero, Bool.false_or,
    decide_eq_decide.mpr (and_iff_right (Nat.zero_le i))]

end X86Os.Lai
