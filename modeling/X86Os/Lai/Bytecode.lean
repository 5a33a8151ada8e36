import X86Os.Lai.Host
import X86Os.Library.LittleEndian

/-!
# Numbers in AML code

An integer in AML code is a little-endian word. The size of a construct stands
in a lead byte, which counts the further bytes and holds the low bits. No parser
of lai/core/exec.c looks behind the limit of its block, and a failed one leaves
the program counter where it was.
-/

namespace X86Os.Lai

open Library.Memory Library.LittleEndian
set_option autoImplicit false

variable {code : List Byte} {pc pc' limit n v : ℕ}

def wordAt (code : List Byte) (pc : ℕ) : ℕ → Except Stop ℕ
  | 0 => .ok 0
  | n + 1 => do
    let low ← wordAt code pc n
    let byte ← readAt code (pc + n)
    .ok (low ||| byte.toNat <<< (8 * n))

/-- What `lai_parse_u8` to `lai_parse_u32` share; `none` stands for their failure. -/
def laiParseWord (bytes : ℕ) (code : List Byte) (pc limit : ℕ) : Except Stop (Option (ℕ × ℕ)) :=
  if limit < pc + bytes then .ok none
  else do
    let value ← wordAt code pc bytes
    .ok (some (value, pc + bytes))

def laiParseU8 := laiParseWord 1

def laiParseU16 := laiParseWord 2

def laiParseU32 := laiParseWord 4

def laiParseVarint (code : List Byte) (pc limit : ℕ) : Except Stop (Option (ℕ × ℕ)) :=
  if limit < pc + 1 then .ok none
  else do
    let lead ← readAt code pc
    let sz := lead.toNat >>> 6 &&& 3
    if sz = 0 then .ok (some (lead.toNat &&& 0x3F, pc + 1))
    else if limit < pc + (sz + 1) then .ok none
    else do
      let high ← wordAt code (pc + 1) sz
      .ok (some (lead.toNat &&& 0x0F ||| high <<< 4, pc + (sz + 1)))

/-! ### Words -/

theorem wordAt_spec (fits : pc + n ≤ code.length) :
    wordAt code pc n = .ok (leValue ((code.drop pc).take n)) := by
  induction n with
  | zero => rfl
  | succ n ih =>
    have inside : pc + n < code.length := fits
    have here : (code.drop pc).take (n + 1) = (code.drop pc).take n ++ [code[pc + n]] := by
      rw [List.take_add_one, List.getElem?_drop, List.getElem?_eq_getElem inside]
      rfl
    have length : ((code.drop pc).take n).length = n := by
      rw [List.length_take, List.length_drop]
      omega
    have low := leValue_lt ((code.drop pc).take n)
    rw [length, show 256 = 2 ^ 8 from rfl, ← pow_mul] at low
    rw [wordAt, ih inside.le, ok_bind, readAt_of (List.getElem?_eq_getElem inside), ok_bind, here,
      leValue_append, length, Nat.or_comm, ← Nat.shiftLeft_add_eq_or_of_lt low,
      Nat.shiftLeft_eq, leValue, leValue, show 256 = 2 ^ 8 from rfl, ← pow_mul]
    congr 1
    ring

/-- A word is read exactly where its bytes stand in front of the limit. -/
theorem laiParseWord_iff (inside : limit ≤ code.length) :
    laiParseWord n code pc limit = .ok (some (v, pc')) ↔
      v < 256 ^ n ∧ leBytes n v <+: code.drop pc ∧ pc' = pc + n ∧ pc' ≤ limit := by
  rw [laiParseWord]
  split_ifs with short
  · constructor
    · intro failed
      cases failed
    · rintro ⟨_, _, rfl, within⟩
      omega
  · have fits : n ≤ (code.drop pc).length := by
      rw [List.length_drop]
      omega
    rw [wordAt_spec (by omega), ok_bind, ← and_assoc, leBytes_prefix_iff fits]
    constructor
    · intro read
      obtain ⟨rfl, rfl⟩ := Prod.mk.inj (Option.some.inj (Except.ok.inj read))
      exact ⟨rfl, rfl, by omega⟩
    · rintro ⟨rfl, rfl, _⟩
      rfl

/-! ### Sizes -/

/-- The encodings of `v` as a size: `more` bytes behind the lead byte, whose bits four and five are
free when there are any. -/
def sizeBytes (more free v : ℕ) : List Byte :=
  if more = 0 then [BitVec.ofNat 8 v]
  else BitVec.ofNat 8 (64 * more + 16 * free + v % 16) :: leBytes more (v / 16)

/-- The largest size that fits, plus one. -/
def sizeBound (more : ℕ) : ℕ := if more = 0 then 64 else 16 * 256 ^ more

/-- The size `v` is encoded at `pc` and ends before `pc'`. -/
def SizeAt (code : List Byte) (pc v pc' : ℕ) : Prop :=
  ∃ more ≤ 3, ∃ free < 4, v < sizeBound more ∧ pc' = pc + (more + 1) ∧
    sizeBytes more free v <+: code.drop pc

/-- What the lead byte says. -/
theorem lead_fields (lead : Byte) : lead.toNat >>> 6 &&& 3 = lead.toNat / 64 ∧
    lead.toNat &&& 0x3F = lead.toNat % 64 ∧ lead.toNat &&& 0x0F = lead.toNat % 16 := by
  have byte : lead.toNat < 256 := lead.isLt
  have two : lead.toNat >>> 6 &&& 2 ^ 2 - 1 = lead.toNat >>> 6 % 2 ^ 2 :=
    Nat.and_two_pow_sub_one_eq_mod _ 2
  rw [Nat.shiftRight_eq_div_pow] at two
  refine ⟨?_, Nat.and_two_pow_sub_one_eq_mod _ 6, Nat.and_two_pow_sub_one_eq_mod _ 4⟩
  rw [Nat.shiftRight_eq_div_pow, show 3 = 2 ^ 2 - 1 from rfl, two]
  omega

theorem or_shift_four {low high : ℕ} (nibble : low < 16) : low ||| high <<< 4 = low + 16 * high := by
  rw [Nat.or_comm, ← Nat.shiftLeft_add_eq_or_of_lt (show low < 2 ^ 4 from nibble), Nat.shiftLeft_eq]
  ring

/-- The bytes of a size, one after the other. -/
theorem sizeAt_iff (inside : pc < code.length) : SizeAt code pc v pc' ↔
    if code[pc].toNat / 64 = 0 then v = code[pc].toNat % 64 ∧ pc' = pc + 1
    else pc' = pc + (code[pc].toNat / 64 + 1) ∧ v % 16 = code[pc].toNat % 16 ∧
      v / 16 < 256 ^ (code[pc].toNat / 64) ∧
        leBytes (code[pc].toNat / 64) (v / 16) <+: code.drop (pc + 1) := by
  have byte : code[pc].toNat < 256 := code[pc].isLt
  have lead (k : ℕ) : BitVec.ofNat 8 k = code[pc] ↔ k % 256 = code[pc].toNat := by
    rw [← BitVec.toNat_inj, BitVec.toNat_ofNat]
  rw [SizeAt, List.drop_eq_getElem_cons inside]
  constructor
  · rintro ⟨more, few, free, four, below, rfl, bytes⟩
    rw [sizeBound] at below
    rw [sizeBytes] at bytes
    split_ifs at below bytes with zero
    · obtain ⟨same, _⟩ := List.cons_prefix_cons.mp bytes
      rw [lead] at same
      rw [if_pos (by omega), zero]
      omega
    · obtain ⟨same, rest⟩ := List.cons_prefix_cons.mp bytes
      rw [lead] at same
      obtain rfl : more = code[pc].toNat / 64 := by omega
      exact if_neg zero ▸ ⟨rfl, by omega, by omega, rest⟩
  · split_ifs with zero
    · rintro ⟨rfl, rfl⟩
      refine ⟨0, by decide, 0, by decide, Nat.mod_lt _ (by decide), rfl, ?_⟩
      rw [sizeBytes, if_pos rfl, List.cons_prefix_cons, lead]
      exact ⟨by omega, List.nil_prefix⟩
    · rintro ⟨rfl, low, below, rest⟩
      refine ⟨code[pc].toNat / 64, by omega, code[pc].toNat / 16 % 4, by omega, ?_, rfl, ?_⟩
      · rw [sizeBound, if_neg zero]
        omega
      · rw [sizeBytes, if_neg zero, List.cons_prefix_cons, lead]
        exact ⟨by omega, rest⟩

/-- Parsing a size accepts exactly the encodings that end in front of the limit, as the sizes that
they encode, and consumes exactly the encoding. -/
theorem laiParseVarint_iff (inside : limit ≤ code.length) :
    laiParseVarint code pc limit = .ok (some (v, pc')) ↔ SizeAt code pc v pc' ∧ pc' ≤ limit := by
  rw [laiParseVarint]
  split_ifs with short
  · constructor
    · intro failed
      cases failed
    · rintro ⟨⟨more, _, _, _, _, rfl, _⟩, within⟩
      omega
  have here : pc < code.length := by omega
  have byte : code[pc].toNat < 256 := code[pc].isLt
  obtain ⟨sz, six, four⟩ := lead_fields code[pc]
  rw [readAt_of (List.getElem?_eq_getElem here), ok_bind, sizeAt_iff here]
  dsimp only
  rw [sz, six, four]
  split_ifs with zero far
  · constructor
    · intro read
      obtain ⟨rfl, rfl⟩ := Prod.mk.inj (Option.some.inj (Except.ok.inj read))
      exact ⟨⟨rfl, rfl⟩, by omega⟩
    · rintro ⟨⟨rfl, rfl⟩, _⟩
      rfl
  · constructor
    · intro failed
      cases failed
    · rintro ⟨⟨rfl, _⟩, within⟩
      omega
  · have fits : code[pc].toNat / 64 ≤ (code.drop (pc + 1)).length := by
      rw [List.length_drop]
      omega
    rw [wordAt_spec (by omega), ok_bind, or_shift_four (Nat.mod_lt _ (by decide)),
      leBytes_prefix_iff fits]
    constructor
    · intro read
      obtain ⟨rfl, rfl⟩ := Prod.mk.inj (Option.some.inj (Except.ok.inj read))
      exact ⟨⟨rfl, by omega, by omega⟩, by omega⟩
    · rintro ⟨⟨rfl, low, high⟩, _⟩
      rw [high, ← low, Nat.mod_add_div]

/-- A size in two bytes: one in the lead byte, and twice sixteen in the other one. -/
theorem laiParseVarint_iff_of_two : laiParseVarint [0x41, 0x02] 0 2 = .ok (some (33, 2)) :=
  (laiParseVarint_iff (by decide)).mpr
    ⟨⟨1, by decide, 0, by decide, by decide, rfl, by decide⟩, le_rfl⟩

end X86Os.Lai
