import X86Os.Heap.Malloc
import X86Os.Libc.Memcpy
import X86Os.Libc.Vsprintf

/-!
# strdup

base/libc/strdup.cpp asks for `strlen(str)` bytes, clears them and copies as many.
The terminator is neither asked for nor copied, so the copy reads as the string
only when a zero stood behind the block before the call.
-/

namespace X86Os.Libc

open Library.Memory Library.Buffer Heap
set_option autoImplicit false

/-- `strlen` in memory; the loop does not end when no address holds a terminator. -/
def strlenAt (m : Mem) (txt : Word) : Option Nat :=
  firstIndex (2 ^ 32) fun len => m (txt + BitVec.ofNat 32 len) == 0

/-- The count is an `int`. -/
def memset (m : Mem) (dst : Word) (v : Byte) (n : Word) : Mem := fill m dst v n.toInt.toNat

/-- `operator new[]`, whose parameter is an `unsigned int`. -/
def newArray (big : MultibootMmapEntry) (fuel : Nat) (stale size : Word) (h : HeapState) :
    Option (Word × HeapState) :=
  malloc big fuel stale (size.setWidth 64) h

/-- The length is counted again for every call. -/
def strdup (big : MultibootMmapEntry) (fuel : Nat) (stale str : Word) (h : HeapState) :
    Option (Word × HeapState) := do
  let len ← strlenAt h.mem str
  let r ← newArray big fuel stale (BitVec.ofNat 32 len) h
  let len ← strlenAt r.2.mem str
  let m := memset r.2.mem r.1 0 (BitVec.ofNat 32 len)
  let len ← strlenAt m str
  return (r.1, { r.2 with mem := memcpy m r.1 str (BitVec.ofNat 32 len) })

/-- `size` bytes at `p` hold the string and its terminator. -/
structure KeepsString (m : Mem) (p : Word) (size : Nat) (cs : List Byte) : Prop where
  reads : IsCString m p cs
  inside : ∀ k ≤ cs.length, Covers p size (p + BitVec.ofNat 32 k)

/-- Neither the call of `malloc` nor the block it returns touches the string. -/
structure Spares (m m₁ : Mem) (str p : Word) (n : Nat) : Prop where
  kept : ∀ k ≤ n, m₁ (str + BitVec.ofNat 32 k) = m (str + BitVec.ofNat 32 k)
  outside : ∀ k ≤ n, ¬Covers p n (str + BitVec.ofNat 32 k)

variable {big : MultibootMmapEntry} {m m' m₁ : Mem} {h h₁ h' : HeapState} {str p stale : Word}
variable {cs : List Byte} {fuel k n : Nat}

theorem loadBytes_getElem (inside : k < (loadBytes m str n).length) :
    (loadBytes m str n)[k] = m (str + BitVec.ofNat 32 k) := by
  simp only [loadBytes, List.getElem_map, List.getElem_range]

namespace IsCString

theorem char (text : IsCString m str cs) (inside : k < cs.length) :
    m (str + BitVec.ofNat 32 k) = cs[k] := by
  have inside' : k < (loadBytes m str cs.length).length := by rwa [text.chars]
  rw [← loadBytes_getElem inside']
  simp only [text.chars]

/-- A string does not reach around the address space, where it would meet its own terminator. -/
theorem length_lt (text : IsCString m str cs) : cs.length < 2 ^ 32 := by
  by_contra long
  have inside : cs.length % 2 ^ 32 < cs.length := by omega
  have char := text.char inside
  have wrapped : BitVec.ofNat 32 (cs.length % 2 ^ 32) = BitVec.ofNat 32 cs.length := by
    apply BitVec.eq_of_toNat_eq
    simp
  rw [wrapped, text.terminated] at char
  exact text.noZero (char ▸ List.getElem_mem inside)

theorem toNat_length (text : IsCString m str cs) : (BitVec.ofNat 32 cs.length).toNat = cs.length := by
  rw [BitVec.toNat_ofNat, Nat.mod_eq_of_lt text.length_lt]

theorem congr (text : IsCString m str cs)
    (same : ∀ k ≤ cs.length, m' (str + BitVec.ofNat 32 k) = m (str + BitVec.ofNat 32 k)) :
    IsCString m' str cs := by
  refine ⟨?_, text.noZero, (same _ le_rfl).trans text.terminated⟩
  rw [← text.chars, loadBytes, loadBytes, List.length_map, List.length_range]
  apply List.map_congr_left
  intro k hk
  exact same k (List.mem_range.mp hk).le

theorem strlenAt_eq (text : IsCString m str cs) : strlenAt m str = some cs.length := by
  rw [strlenAt, firstIndex_eq_some]
  refine ⟨text.length_lt, ?_, fun k hk => ?_⟩
  · rw [text.terminated]
    rfl
  · rw [text.char hk, beq_eq_false_iff_ne]
    intro zero
    exact text.noZero (zero ▸ List.getElem_mem hk)

end IsCString

theorem memset_outside {v : Byte} {size : Word} {x : Word} (outside : ¬Covers p size.toNat x) :
    memset m p v size x = m x := by
  refine if_neg fun covered => outside ?_
  have le : size.toInt.toNat ≤ size.toNat := by
    rw [BitVec.toInt_eq_toNat_cond]
    split <;> omega
  exact Nat.lt_of_lt_of_le covered le

/-- The copy stands in the block that `new` was asked for with `strlen(str)`. -/
theorem strdup_asks (text : IsCString h.mem str cs) (run : strdup big fuel stale str h = some (p, h')) :
    ∃ h₁, newArray big fuel stale (BitVec.ofNat 32 cs.length) h = some (p, h₁) := by
  rw [strdup, text.strlenAt_eq, Option.bind_eq_bind, Option.bind_some] at run
  obtain ⟨⟨p', h₁⟩, served, rest⟩ := Option.bind_eq_some_iff.mp run
  obtain ⟨len, _, rest⟩ := Option.bind_eq_some_iff.mp rest
  obtain ⟨len', _, rest⟩ := Option.bind_eq_some_iff.mp rest
  cases rest
  exact ⟨h₁, served⟩

/-- Where the string is spared, all three counts agree. -/
theorem strdup_eq (text : IsCString h.mem str cs)
    (served : newArray big fuel stale (BitVec.ofNat 32 cs.length) h = some (p, h₁))
    (spares : Spares h.mem h₁.mem str p cs.length) :
    let n := BitVec.ofNat 32 cs.length
    strdup big fuel stale str h =
      some (p, { h₁ with mem := memcpy (memset h₁.mem p 0 n) p str n }) := by
  intro n
  have text₁ : IsCString h₁.mem str cs := text.congr spares.kept
  have text₂ : IsCString (memset h₁.mem p 0 (BitVec.ofNat 32 cs.length)) str cs := by
    apply text₁.congr
    intro k hk
    apply memset_outside
    rw [text.toNat_length]
    exact spares.outside k hk
  rw [strdup, text.strlenAt_eq, Option.bind_eq_bind, Option.bind_some, served, Option.bind_eq_bind,
    Option.bind_some, text₁.strlenAt_eq, Option.bind_some]
  dsimp only
  rw [text₂.strlenAt_eq, Option.bind_some]
  rfl

/-- What `strdup` leaves: the characters, and whatever stood behind the block. -/
theorem strdup_leaves (text : IsCString h.mem str cs)
    (served : newArray big fuel stale (BitVec.ofNat 32 cs.length) h = some (p, h₁))
    (spares : Spares h.mem h₁.mem str p cs.length) :
    ∃ h', strdup big fuel stale str h = some (p, h') ∧ loadBytes h'.mem p cs.length = cs ∧
      h'.mem (p + BitVec.ofNat 32 cs.length) = h₁.mem (p + BitVec.ofNat 32 cs.length) := by
  have length := text.length_lt
  have count := text.toNat_length
  refine ⟨_, strdup_eq text served spares, ?_, ?_⟩
  · apply List.ext_getElem
    · rw [loadBytes, List.length_map, List.length_range]
    · intro k hk inside
      have before : ¬Covers p k (str + BitVec.ofNat 32 k) := fun covered =>
        spares.outside k inside.le (Nat.lt_trans covered inside)
      have uncleared : ¬Covers p (BitVec.ofNat 32 cs.length).toNat (str + BitVec.ofNat 32 k) := by
        rw [count]
        exact spares.outside k inside.le
      rw [loadBytes_getElem, memcpy, count]
      dsimp only
      rw [copyBytes_inside length.le inside before,
        memset_outside uncleared, spares.kept k inside.le, text.char inside]
  · have behind : ¬Covers p (BitVec.ofNat 32 cs.length).toNat (p + BitVec.ofNat 32 cs.length) := by
      rw [covers_add]
      exact lt_irrefl _
    exact (memcpy_outside behind).trans (memset_outside behind)

/-- No block of as many bytes as the string has characters holds its terminator. -/
theorem not_keepsString : ¬KeepsString m p cs.length cs := by
  intro keeps
  have last := keeps.inside cs.length le_rfl
  rw [covers_add, keeps.reads.toNat_length] at last
  exact lt_irrefl _ last

/-- A block keeps the copy if it is longer than asked for and a zero stood behind the characters. -/
theorem strdup_keeps_iff (text : IsCString h.mem str cs)
    (served : newArray big fuel stale (BitVec.ofNat 32 cs.length) h = some (p, h₁))
    (spares : Spares h.mem h₁.mem str p cs.length) :
    ∃ h', strdup big fuel stale str h = some (p, h') ∧ ∀ size : Nat, KeepsString h'.mem p size cs ↔
      cs.length < size ∧ h₁.mem (p + BitVec.ofNat 32 cs.length) = 0 := by
  have count := text.toNat_length
  obtain ⟨h', run, chars, behind⟩ := strdup_leaves text served spares
  refine ⟨h', run, fun size => ⟨fun keeps => ⟨?_, ?_⟩, ?_⟩⟩
  · have last := keeps.inside cs.length le_rfl
    rwa [covers_add, count] at last
  · rw [← behind]
    exact keeps.reads.terminated
  · rintro ⟨room, zero⟩
    refine ⟨⟨chars, text.noZero, behind.trans zero⟩, fun k hk => ?_⟩
    rw [covers_add, BitVec.toNat_ofNat]
    have length := text.length_lt
    omega

end X86Os.Libc
