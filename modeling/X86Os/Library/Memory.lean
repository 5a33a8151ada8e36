import Mathlib.Data.BitVec
import Mathlib.Tactic.Ring

/-!
# Byte memory of a 32-bit machine

Addresses are 32-bit words, so address arithmetic wraps by itself. A range is
given by its first address and its length; it may wrap around the top of the
address space. Words are stored least significant byte first.
-/

namespace Library.Memory
set_option autoImplicit false

abbrev Byte := BitVec 8

abbrev Word := BitVec 32

abbrev Mem := Word → Byte

/-- The address lies in the range of the given length that starts at `a`. -/
def Covers (a : Word) (n : Nat) (x : Word) : Prop := (x - a).toNat < n

instance (a : Word) (n : Nat) (x : Word) : Decidable (Covers a n x) :=
  inferInstanceAs (Decidable (_ < _))

theorem covers_iff {a x : Word} {n : Nat} (fits : a.toNat + n ≤ 2 ^ 32) :
    Covers a n x ↔ a.toNat ≤ x.toNat ∧ x.toNat < a.toNat + n := by
  have ha := a.isLt
  have hx := x.isLt
  rw [Covers, BitVec.toNat_sub]
  omega

theorem covers_add {a k : Word} {n : Nat} : Covers a n (a + k) ↔ k.toNat < n := by
  rw [Covers, show a + k - a = k by ring]

theorem covers_add_add {a j k : Word} {n : Nat} : Covers (a + j) n (a + k) ↔ Covers j n k := by
  rw [Covers, Covers, show a + k - (a + j) = k - j by ring]

/-- A part of a range. -/
theorem Covers.whole {a j x : Word} {n k : Nat} (inside : j.toNat + n ≤ k)
    (covered : Covers (a + j) n x) : Covers a k x := by
  rw [Covers, ← sub_sub, BitVec.toNat_sub] at covered
  rw [Covers]
  omega

def storeBytes (m : Mem) (a : Word) (bs : List Byte) : Mem :=
  fun x => bs[(x - a).toNat]?.getD (m x)

def store8 (m : Mem) (a : Word) (b : Byte) : Mem := storeBytes m a [b]

def wordBytes (v : Word) : List Byte :=
  [v.extractLsb' 0 8, v.extractLsb' 8 8, v.extractLsb' 16 8, v.extractLsb' 24 8]

def store32 (m : Mem) (a v : Word) : Mem := storeBytes m a (wordBytes v)

def load32 (m : Mem) (a : Word) : Word := m (a + 3) ++ m (a + 2) ++ m (a + 1) ++ m a

def load64 (m : Mem) (a : Word) : BitVec 64 :=
  (load32 m (a + 4)).setWidth 64 <<< 32 ||| (load32 m a).setWidth 64

def loadBytes (m : Mem) (a : Word) (n : Nat) : List Byte :=
  (List.range n).map fun i => m (a + BitVec.ofNat 32 i)

def fill (m : Mem) (a : Word) (b : Byte) (n : Nat) : Mem :=
  fun x => if Covers a n x then b else m x

theorem storeBytes_outside {m : Mem} {a x : Word} {bs : List Byte}
    (outside : ¬Covers a bs.length x) : storeBytes m a bs x = m x := by
  have none : bs[(x - a).toNat]? = none := List.getElem?_eq_none (Nat.not_lt.mp outside)
  rw [storeBytes, none, Option.getD_none]

theorem storeBytes_add {m : Mem} {a k : Word} {bs : List Byte} (inside : k.toNat < bs.length) :
    storeBytes m a bs (a + k) = bs[k.toNat] := by
  rw [storeBytes, show a + k - a = k by ring, List.getElem?_eq_getElem inside, Option.getD_some]

theorem storeBytes_loadBytes (m : Mem) (a : Word) (n : Nat) :
    storeBytes m a (loadBytes m a n) = m := by
  funext x
  obtain inside | outside := Nat.lt_or_ge (x - a).toNat n
  · have back : a + BitVec.ofNat 32 (x - a).toNat = x := by
      rw [BitVec.ofNat_toNat, BitVec.setWidth_eq]
      ring
    rw [storeBytes, loadBytes, List.getElem?_map, List.getElem?_range inside, Option.map_some,
      Option.getD_some, back]
  · exact storeBytes_outside (by simpa [Covers, loadBytes] using outside)

/-- Two stores in a row are one, unless the second wraps around into the first. -/
theorem storeBytes_append {m : Mem} {a : Word} {bs cs : List Byte}
    (fits : bs.length + cs.length ≤ 2 ^ 32) :
    storeBytes (storeBytes m a bs) (a + BitVec.ofNat 32 bs.length) cs = storeBytes m a (bs ++ cs) := by
  funext x
  have place := (x - a).isLt
  have behind : x - (a + BitVec.ofNat 32 bs.length) = x - a - BitVec.ofNat 32 bs.length := by ring
  simp only [storeBytes, behind]
  by_cases first : (x - a).toNat < bs.length
  · have outside : cs.length ≤ (x - a - BitVec.ofNat 32 bs.length).toNat := by
      rw [BitVec.toNat_sub, BitVec.toNat_ofNat]
      omega
    rw [List.getElem?_eq_none outside, List.getElem?_append_left first, Option.getD_none]
  · have second : (x - a - BitVec.ofNat 32 bs.length).toNat = (x - a).toNat - bs.length := by
      rw [BitVec.toNat_sub, BitVec.toNat_ofNat]
      omega
    rw [second, List.getElem?_append_right (Nat.not_lt.mp first),
      List.getElem?_eq_none (Nat.not_lt.mp first), Option.getD_none]

theorem loadBytes_storeBytes {m : Mem} {a : Word} {bs : List Byte} (fits : bs.length ≤ 2 ^ 32) :
    loadBytes (storeBytes m a bs) a bs.length = bs := by
  apply List.ext_getElem
  · rw [loadBytes, List.length_map, List.length_range]
  · intro i _ hi
    have index : (BitVec.ofNat 32 i).toNat = i := by
      rw [BitVec.toNat_ofNat]
      omega
    have inside : (BitVec.ofNat 32 i).toNat < bs.length := by rwa [index]
    simp only [loadBytes, List.getElem_map, List.getElem_range, storeBytes_add inside, index]

theorem loadBytes_add (m : Mem) (a : Word) (n k : Nat) :
    loadBytes m a (n + k) = loadBytes m a n ++ loadBytes m (a + BitVec.ofNat 32 n) k := by
  rw [loadBytes, loadBytes, loadBytes, List.range_add, List.map_append, List.map_map]
  congr 2
  funext i
  rw [Function.comp_apply, BitVec.ofNat_add, add_assoc]

theorem store8_same (m : Mem) (a : Word) (b : Byte) : store8 m a b a = b := by
  simp [store8, storeBytes]

theorem store8_other {m : Mem} {a x : Word} {b : Byte} (other : x ≠ a) : store8 m a b x = m x := by
  apply storeBytes_outside
  intro covered
  have zero : (x - a).toNat = 0 := Nat.lt_one_iff.mp covered
  exact other (sub_eq_zero.mp (BitVec.eq_of_toNat_eq (by simpa using zero)))

theorem store32_outside {m : Mem} {a x v : Word} (outside : ¬Covers a 4 x) :
    store32 m a v x = m x := storeBytes_outside outside

theorem load32_congr {m m' : Mem} {a : Word} (same : ∀ k : Word, k.toNat < 4 → m' (a + k) = m (a + k)) :
    load32 m' a = load32 m a := by
  have h0 := same 0 (by decide)
  rw [add_zero] at h0
  rw [load32, load32, same 3 (by decide), same 2 (by decide), same 1 (by decide), h0]

theorem bytes_append (v : Word) :
    v.extractLsb' 24 8 ++ v.extractLsb' 16 8 ++ v.extractLsb' 8 8 ++ v.extractLsb' 0 8 = v := by
  apply BitVec.eq_of_getLsbD_eq
  intro i hi
  simp
  grind

theorem load32_store32 (m : Mem) (a v : Word) : load32 (store32 m a v) a = v := by
  have byte (k : Word) (hk : k.toNat < 4) : store32 m a v (a + k) = (wordBytes v)[k.toNat] :=
    storeBytes_add hk
  have h0 := byte 0 (by decide)
  rw [add_zero] at h0
  rw [load32, byte 3 (by decide), byte 2 (by decide), byte 1 (by decide), h0]
  exact bytes_append v

theorem load64_low (m : Mem) (a : Word) : (load64 m a).setWidth 32 = load32 m a := by
  apply BitVec.eq_of_getLsbD_eq
  intro i hi
  simp [load64, hi]

theorem wordBytes_load32 (m : Mem) (a : Word) :
    wordBytes (load32 m a) = [m a, m (a + 1), m (a + 2), m (a + 3)] := by
  simp only [wordBytes, load32, List.cons.injEq, and_true]
  refine ⟨?_, ?_, ?_, ?_⟩ <;> apply BitVec.eq_of_getLsbD_eq <;> intro i hi <;>
    simp <;> grind

/-- A loop over the first `n` words of the array at `a`. -/
def fillWords (m : Mem) (a : Word) (v : Nat → Word) : Nat → Mem
  | 0 => m
  | n + 1 => store32 (fillWords m a v n) (a + BitVec.ofNat 32 (4 * n)) (v n)

section fillWords

variable {m : Mem} {a x : Word} {v : Nat → Word} {i n : Nat}

theorem fillWords_outside (fits : 4 * n ≤ 2 ^ 32) (outside : ¬Covers a (4 * n) x) :
    fillWords m a v n x = m x := by
  induction n with
  | zero => rfl
  | succ n ih =>
    have before : ¬Covers a (4 * n) x := by
      simp only [Covers] at outside ⊢
      omega
    rw [fillWords, store32_outside, ih (by omega) before]
    have split : x - (a + BitVec.ofNat 32 (4 * n)) = x - a - BitVec.ofNat 32 (4 * n) := by ring
    simp only [Covers] at outside ⊢
    rw [split, BitVec.toNat_sub, BitVec.toNat_ofNat]
    omega

theorem load32_fillWords (fits : 4 * n ≤ 2 ^ 32) (inside : i < n) :
    load32 (fillWords m a v n) (a + BitVec.ofNat 32 (4 * i)) = v i := by
  induction n with
  | zero => omega
  | succ n ih =>
    obtain before | rfl := Nat.lt_or_eq_of_le (Nat.le_of_lt_succ inside)
    · rw [← ih (by omega) before]
      apply load32_congr
      intro k hk
      apply store32_outside
      rw [add_assoc, covers_add_add, Covers, BitVec.toNat_sub, BitVec.toNat_add,
        BitVec.toNat_ofNat, BitVec.toNat_ofNat]
      omega
    · exact load32_store32 ..

end fillWords

end Library.Memory
