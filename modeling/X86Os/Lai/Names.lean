import X86Os.Lai.Host

/-!
# AML names

A name in AML code is a mark for the root or for steps upwards, a prefix that
counts the segments, and four bytes for every segment. The parser of
lai/core/ns.c returns a cursor over the segments; read to its end it accepts
exactly the encodings of names, each of them as the name it encodes.
-/

namespace X86Os.Lai

open Library.Memory
set_option autoImplicit false

def dualPrefix : Byte := 0x2E

def multiPrefix : Byte := 0x2F

def rootChar : Byte := 0x5C

def parentChar : Byte := 0x5E

def laiIsName (character : Byte) : Bool :=
  0x30 ≤ character && character ≤ 0x39 || 0x41 ≤ character && character ≤ 0x5A ||
    character == 0x5F || character == rootChar || character == parentChar ||
      character == multiPrefix || character == dualPrefix

abbrev Nameseg := {bytes : List Byte // bytes.length = 4}

/-- `struct lai_amlname`; the cursor is the rest of the code and the number of bytes to its end. -/
structure Amlname where
  isAbsolute : Bool
  height : Nat
  searchScopes : Bool
  it : List Byte
  left : Nat

def carets : List Byte → Nat × List Byte
  | [] => (0, [])
  | c :: rest => if c = parentChar then ((carets rest).1 + 1, (carets rest).2) else (0, c :: rest)

/-- The part of a name in front of its prefix: absolute or not, the height, and what follows. -/
def rootOrCarets (data : List Byte) : Bool × Nat × List Byte :=
  if data.head? = some rootChar then (true, 0, data.tail) else (false, carets data)

def countSegs (it : List Byte) : Except Stop (Nat × List Byte) := do
  let c ← readAt it 0
  if c = 0 then .ok (0, it.drop 1)
  else if c = dualPrefix then .ok (2, it.drop 1)
  else if c = multiPrefix then do
    let numSegs ← readAt it 1
    laiEnsure (2 < numSegs.toNat)
    .ok (numSegs.toNat, it.drop 2)
  else do
    laiEnsure (laiIsName c)
    .ok (1, it)

def laiAmlnameParse (data : List Byte) : Except Stop (Amlname × Nat) := do
  let (isAbsolute, height, it) := rootOrCarets data
  let (numSegs, segs) ← countSegs it
  .ok (⟨isAbsolute, height, !isAbsolute && height == 0 && numSegs == 1, segs, 4 * numSegs⟩,
    data.length - segs.length + 4 * numSegs)

def laiAmlnameDone (amln : Amlname) : Bool := amln.left == 0

def laiAmlnameIterate (amln : Amlname) : Except Stop (Nameseg × Amlname) := do
  laiEnsure (0 < amln.left)
  if four : (amln.it.take 4).length = 4 then
    .ok (⟨amln.it.take 4, four⟩, { amln with it := amln.it.drop 4, left := amln.left - 4 })
  else .error .wild

/-- The loop `while (!lai_amlname_done(…))` of the users of a name. -/
def remainingSegs : Nat → Amlname → Except Stop (List Nameseg)
  | 0, _ => .ok []
  | turns + 1, amln => do
    if laiAmlnameDone amln then .ok []
    else
      let (segment, rest) ← laiAmlnameIterate amln
      let segs ← remainingSegs turns rest
      .ok (segment :: segs)

structure Name where
  absolute : Bool
  height : Nat
  segs : List Nameseg
  deriving DecidableEq

def readName (data : List Byte) : Except Stop (Name × Nat) := do
  let (amln, size) ← laiAmlnameParse data
  let segs ← remainingSegs amln.left amln
  .ok (⟨amln.isAbsolute, amln.height, segs⟩, size)

namespace Name

def marks (absolute : Bool) (height : Nat) : List Byte :=
  if absolute then [rootChar] else List.replicate height parentChar

def countBytes (k : Nat) : List Byte :=
  if k = 0 then [0] else if k = 1 then [] else if k = 2 then [dualPrefix]
  else [multiPrefix, BitVec.ofNat 8 k]

def segBytes (segs : List Nameseg) : List Byte := (segs.map Subtype.val).flatten

/-- The bytes that the ACPI specification gives a name. -/
def encode (name : Name) : List Byte :=
  marks name.absolute name.height ++ (countBytes name.segs.length ++ segBytes name.segs)

/-- A segment without a prefix must not be taken for one, nor for a mark. -/
def Leads (absolute : Bool) (height : Nat) (c : Byte) : Prop :=
  laiIsName c ∧ c ≠ dualPrefix ∧ c ≠ multiPrefix ∧
    (absolute = false → c ≠ parentChar ∧ (height = 0 → c ≠ rootChar))

structure WellFormed (name : Name) : Prop where
  flat : name.absolute → name.height = 0
  few : name.segs.length < 256
  leads : ∀ s, name.segs = [s] → ∀ c ∈ s.val.head?, Leads name.absolute name.height c

end Name

theorem length_segBytes (segs : List Nameseg) : (Name.segBytes segs).length = 4 * segs.length := by
  induction segs with
  | nil => rfl
  | cons s segs ih =>
    rw [Name.segBytes, List.map_cons, List.flatten_cons, List.length_append, s.property,
      List.length_cons]
    rw [Name.segBytes] at ih
    omega

theorem carets_replicate (n : Nat) {rest : List Byte} (stops : rest.head? ≠ some parentChar) :
    carets (List.replicate n parentChar ++ rest) = (n, rest) := by
  induction n with
  | zero =>
    cases rest with
    | nil => rfl
    | cons c rest =>
      rw [List.replicate_zero, List.nil_append, carets, if_neg fun same => stops (by rw [same]; rfl)]
  | succ n ih => rw [List.replicate_succ, List.cons_append, carets, if_pos rfl, ih]

theorem carets_sound (data : List Byte) :
    data = List.replicate (carets data).1 parentChar ++ (carets data).2 ∧
      (carets data).2.head? ≠ some parentChar := by
  induction data with
  | nil => exact ⟨rfl, by decide⟩
  | cons c rest ih =>
    rw [carets]
    split_ifs with caret
    · rw [List.replicate_succ, List.cons_append, ← ih.1, caret]
      exact ⟨rfl, ih.2⟩
    · exact ⟨rfl, fun same => caret (Option.some.inj same)⟩

theorem rootOrCarets_iff {data it : List Byte} {absolute : Bool} {height : Nat} :
    rootOrCarets data = (absolute, height, it) ↔ data = Name.marks absolute height ++ it ∧
      (absolute → height = 0) ∧
        (absolute = false → it.head? ≠ some parentChar ∧ (height = 0 → it.head? ≠ some rootChar)) := by
  rw [rootOrCarets]
  constructor
  · split_ifs with root
    · rintro ⟨⟩
      obtain ⟨rest, rfl⟩ := List.head?_eq_some_iff.mp root
      exact ⟨rfl, fun _ => rfl, by simp⟩
    · intro parsed
      obtain ⟨rfl, rest⟩ := Prod.mk.inj parsed
      obtain ⟨rfl, rfl⟩ := Prod.mk.inj rest.symm
      obtain ⟨whole, stops⟩ := carets_sound data
      refine ⟨whole, by simp, fun _ => ⟨stops, ?_⟩⟩
      intro none
      rw [none, List.replicate_zero, List.nil_append] at whole
      rwa [← whole]
  · rintro ⟨rfl, flat, stops⟩
    cases absolute with
    | true =>
      rw [flat rfl]
      rfl
    | false =>
      obtain ⟨notParent, notRoot⟩ := stops rfl
      have noRoot : (Name.marks false height ++ it).head? ≠ some rootChar := by
        cases height with
        | zero => exact notRoot rfl
        | succ height => exact fun same => absurd (Option.some.inj same) (by decide)
      rw [if_neg noRoot]
      exact congrArg (Prod.mk false) (carets_replicate height notParent)

theorem countSegs_encode {segs : List Byte} {k : Nat} (few : k < 256)
    (lead : k = 1 → ∃ c, segs.head? = some c ∧ laiIsName c ∧ c ≠ dualPrefix ∧ c ≠ multiPrefix) :
    countSegs (Name.countBytes k ++ segs) = .ok (k, segs) := by
  rw [Name.countBytes]
  split_ifs with zero one two
  · rw [zero]
    rfl
  · obtain ⟨c, first, name, notDual, notMulti⟩ := lead one
    obtain ⟨rest, rfl⟩ := List.head?_eq_some_iff.mp first
    have notZero : c ≠ 0 := by
      rintro rfl
      exact absurd name (by decide)
    rw [List.nil_append, countSegs, readAt_of (x := c) rfl, ok_bind, if_neg notZero, if_neg notDual,
      if_neg notMulti, laiEnsure_of name, one]
    rfl
  · rw [two]
    rfl
  · have count : (BitVec.ofNat 8 k).toNat = k := by
      rw [BitVec.toNat_ofNat, Nat.mod_eq_of_lt few]
    have more : 2 < (BitVec.ofNat 8 k).toNat := by
      rw [count]
      omega
    rw [countSegs, readAt_of (x := multiPrefix) rfl, ok_bind, if_neg (by decide), if_neg (by decide),
      if_pos rfl, readAt_of (x := BitVec.ofNat 8 k) rfl, ok_bind, laiEnsure_of more, count]
    rfl

theorem countSegs_sound {it segs : List Byte} {k : Nat} (parsed : countSegs it = .ok (k, segs)) :
    it = Name.countBytes k ++ segs ∧ k < 256 ∧
      (k = 1 → ∃ c, segs.head? = some c ∧ laiIsName c ∧ c ≠ dualPrefix ∧ c ≠ multiPrefix) := by
  cases it with
  | nil => cases parsed
  | cons c rest =>
    rw [countSegs, readAt_of (x := c) rfl, ok_bind] at parsed
    split_ifs at parsed with zero dual multi
    · obtain ⟨rfl, rfl⟩ := Prod.mk.inj (Except.ok.inj parsed)
      exact ⟨by rw [zero]; rfl, by decide, fun one => absurd one (by decide)⟩
    · obtain ⟨rfl, rfl⟩ := Prod.mk.inj (Except.ok.inj parsed)
      exact ⟨by rw [dual]; rfl, by decide, fun one => absurd one (by decide)⟩
    · rw [bind_eq_ok] at parsed
      obtain ⟨n, read, parsed⟩ := parsed
      obtain ⟨_, more, parsed⟩ := bind_eq_ok.mp parsed
      rw [laiEnsure_eq_ok] at more
      obtain ⟨rfl, rfl⟩ := Prod.mk.inj (Except.ok.inj parsed)
      cases rest with
      | nil => cases read
      | cons n' rest =>
        obtain rfl : n' = n := Except.ok.inj read
        refine ⟨?_, n'.isLt, by omega⟩
        rw [Name.countBytes, if_neg (by omega), if_neg (by omega), if_neg (by omega), multi,
          BitVec.ofNat_toNat, BitVec.setWidth_eq]
        rfl
    · obtain ⟨_, name, parsed⟩ := bind_eq_ok.mp parsed
      rw [laiEnsure_eq_ok] at name
      obtain ⟨rfl, rfl⟩ := Prod.mk.inj (Except.ok.inj parsed)
      exact ⟨rfl, by decide, fun _ => ⟨c, rfl, name, dual, multi⟩⟩

theorem laiAmlnameIterate_cons {amln : Amlname} {s : Nameseg} {rest : List Byte}
    (some : 0 < amln.left) (bytes : amln.it = s.val ++ rest) :
    laiAmlnameIterate amln = .ok (s, { amln with it := rest, left := amln.left - 4 }) := by
  have front : amln.it.take 4 = s.val := by rw [bytes, List.take_left' s.property]
  have back : amln.it.drop 4 = rest := by rw [bytes, List.drop_left' s.property]
  rw [laiAmlnameIterate, laiEnsure_of some, ok_bind, dif_pos (by rw [front]; exact s.property)]
  simp only [front, back]

theorem remainingSegs_encode {amln : Amlname} {segs : List Nameseg} {rest : List Byte} {turns : Nat}
    (bytes : amln.it = Name.segBytes segs ++ rest) (count : amln.left = 4 * segs.length)
    (enough : segs.length ≤ turns) : remainingSegs turns amln = .ok segs := by
  induction turns generalizing amln segs with
  | zero =>
    obtain rfl := List.length_eq_zero_iff.mp (Nat.le_zero.mp enough)
    rfl
  | succ turns ih =>
    rw [remainingSegs, laiAmlnameDone]
    cases segs with
    | nil => rw [if_pos (by rw [count]; rfl)]
    | cons s segs =>
      rw [List.length_cons] at count enough
      have bytes' : amln.it = s.val ++ (Name.segBytes segs ++ rest) := by
        rw [bytes, Name.segBytes, List.map_cons, List.flatten_cons, List.append_assoc]
        rfl
      have more : ¬(amln.left == 0) = true := by
        rw [count, beq_iff_eq]
        omega
      rw [if_neg more, laiAmlnameIterate_cons (by omega) bytes', ok_bind]
      dsimp only
      rw [ih rfl (by dsimp only; omega) (by omega)]
      rfl

theorem remainingSegs_sound {amln : Amlname} {segs : List Nameseg} {turns k : Nat}
    (read : remainingSegs turns amln = .ok segs) (count : amln.left = 4 * k) (enough : k ≤ turns) :
    segs.length = k ∧ ∃ rest, amln.it = Name.segBytes segs ++ rest := by
  induction turns generalizing amln segs k with
  | zero =>
    obtain rfl : [] = segs := Except.ok.inj read
    exact ⟨by rw [List.length_nil]; omega, amln.it, rfl⟩
  | succ turns ih =>
    rw [remainingSegs, laiAmlnameDone] at read
    split_ifs at read with done
    · obtain rfl : [] = segs := Except.ok.inj read
      have none := beq_iff_eq.mp done
      exact ⟨by rw [List.length_nil]; omega, amln.it, rfl⟩
    · obtain ⟨⟨s, next⟩, iterated, others⟩ := bind_eq_ok.mp read
      obtain ⟨segs', later, same⟩ := bind_eq_ok.mp others
      obtain rfl : s :: segs' = segs := Except.ok.inj same
      obtain ⟨_, more, taken⟩ := bind_eq_ok.mp iterated
      rw [laiEnsure_eq_ok] at more
      split_ifs at taken with four
      obtain ⟨seg, rest⟩ := Prod.mk.inj (Except.ok.inj taken)
      have left : next.left = 4 * (k - 1) := by
        rw [← rest]
        dsimp only
        omega
      obtain ⟨length, after, bytes⟩ := ih later left (by omega)
      refine ⟨by rw [List.length_cons]; omega, after, ?_⟩
      rw [Name.segBytes, List.map_cons, List.flatten_cons, List.append_assoc, ← seg]
      rw [← rest] at bytes
      exact (List.take_append_drop 4 amln.it).symm.trans (congrArg _ bytes)

theorem head?_countBytes {k : Nat} (more : k ≠ 1) (rest : List Byte) :
    (Name.countBytes k ++ rest).head? ≠ some parentChar ∧
      (Name.countBytes k ++ rest).head? ≠ some rootChar := by
  rw [Name.countBytes]
  split_ifs
  · exact ⟨fun same => absurd (Option.some.inj same) (by decide),
      fun same => absurd (Option.some.inj same) (by decide)⟩
  · exact ⟨fun same => absurd (Option.some.inj same) (by decide),
      fun same => absurd (Option.some.inj same) (by decide)⟩
  · exact ⟨fun same => absurd (Option.some.inj same) (by decide),
      fun same => absurd (Option.some.inj same) (by decide)⟩

theorem length_encode (name : Name) : name.encode.length =
    (Name.marks name.absolute name.height).length + (Name.countBytes name.segs.length).length +
      4 * name.segs.length := by
  rw [Name.encode, List.length_append, List.length_append, length_segBytes, Nat.add_assoc]

theorem readName_encode {name : Name} (wellFormed : name.WellFormed) (rest : List Byte) :
    readName (name.encode ++ rest) = .ok (name, name.encode.length) := by
  obtain ⟨flat, few, leads⟩ := wellFormed
  have single (one : name.segs.length = 1) : ∃ c,
      (Name.segBytes name.segs ++ rest).head? = some c ∧ Name.Leads name.absolute name.height c := by
    obtain ⟨s, only⟩ := List.length_eq_one_iff.mp one
    obtain ⟨c, tail, bytes⟩ := List.exists_cons_of_length_pos (by rw [s.property]; decide : 0 < s.val.length)
    refine ⟨c, ?_, leads s only c (by rw [bytes]; rfl)⟩
    rw [only, Name.segBytes, List.map_singleton, List.flatten_singleton, bytes]
    rfl
  have marks : rootOrCarets (name.encode ++ rest) = (name.absolute, name.height,
      Name.countBytes name.segs.length ++ (Name.segBytes name.segs ++ rest)) := by
    rw [rootOrCarets_iff, Name.encode, List.append_assoc, List.append_assoc]
    refine ⟨rfl, flat, fun relative => ?_⟩
    obtain one | more := eq_or_ne name.segs.length 1
    · obtain ⟨c, first, _, _, _, apart⟩ := single one
      have here : Name.countBytes name.segs.length = [] := by rw [one]; rfl
      rw [here, List.nil_append, first]
      exact ⟨fun same => (apart relative).1 (Option.some.inj same),
        fun none same => (apart relative).2 none (Option.some.inj same)⟩
    · exact ⟨(head?_countBytes more _).1, fun _ => (head?_countBytes more _).2⟩
  have count : countSegs (Name.countBytes name.segs.length ++ (Name.segBytes name.segs ++ rest)) =
      .ok (name.segs.length, Name.segBytes name.segs ++ rest) := by
    apply countSegs_encode few
    intro one
    obtain ⟨c, first, isName, notDual, notMulti, _⟩ := single one
    exact ⟨c, first, isName, notDual, notMulti⟩
  have size : (name.encode ++ rest).length - (Name.segBytes name.segs ++ rest).length +
      4 * name.segs.length = name.encode.length := by
    rw [List.length_append, List.length_append, length_segBytes, length_encode]
    omega
  rw [readName, laiAmlnameParse, marks]
  dsimp only
  rw [count, ok_bind, ok_bind, size]
  dsimp only
  rw [remainingSegs_encode rfl rfl (by omega)]
  rfl

/-- Reading a name to its end accepts exactly the encodings of well-formed names, as the names that
they encode, and consumes exactly the encoding. -/
theorem readName_iff (data : List Byte) (name : Name) (size : Nat) :
    readName data = .ok (name, size) ↔
      name.WellFormed ∧ name.encode <+: data ∧ size = name.encode.length := by
  constructor
  · intro read
    obtain ⟨⟨amln, n⟩, parsed, read'⟩ := bind_eq_ok.mp read
    obtain ⟨segs, all, same⟩ := bind_eq_ok.mp read'
    obtain ⟨rfl, rfl⟩ := Prod.mk.inj (Except.ok.inj same)
    rw [laiAmlnameParse] at parsed
    rcases marks : rootOrCarets data with ⟨absolute, height, it⟩
    rw [marks] at parsed
    obtain ⟨⟨k, at_⟩, counted, built⟩ := bind_eq_ok.mp parsed
    obtain ⟨rfl, rfl⟩ := Prod.mk.inj (Except.ok.inj built)
    obtain ⟨whole, flat, apart⟩ := rootOrCarets_iff.mp marks
    obtain ⟨front, few, lead⟩ := countSegs_sound counted
    obtain ⟨length, rest, bytes⟩ := remainingSegs_sound all rfl (by dsimp only; omega)
    dsimp only at bytes
    have encoded : data = Name.encode ⟨absolute, height, segs⟩ ++ rest := by
      rw [whole, front, bytes, Name.encode, length, List.append_assoc, List.append_assoc]
    refine ⟨⟨flat, by rwa [length], ?_⟩, ⟨rest, encoded.symm⟩, ?_⟩
    · rintro s only c first
      dsimp only at only
      have one : k = 1 := by rw [← length, only]; rfl
      obtain ⟨c', first', isName, notDual, notMulti⟩ := lead one
      obtain ⟨tail, cons⟩ := List.head?_eq_some_iff.mp first
      obtain rfl : c' = c := by
        rw [bytes, only, Name.segBytes, List.map_singleton, List.flatten_singleton, cons] at first'
        exact (Option.some.inj first').symm
      refine ⟨isName, notDual, notMulti, fun relative => ?_⟩
      have start : it.head? = some c' := by
        rw [front, one]
        exact first'
      rw [start] at apart
      exact ⟨fun same => (apart relative).1 (congrArg some same),
        fun none same => (apart relative).2 none (congrArg some same)⟩
    · have total := congrArg List.length encoded
      have tail := congrArg List.length bytes
      rw [List.length_append, length_encode] at total
      rw [List.length_append, length_segBytes] at tail
      rw [length_encode]
      dsimp only at total ⊢
      omega
  · rintro ⟨wellFormed, ⟨rest, rfl⟩, rfl⟩
    exact readName_encode wellFormed rest

end X86Os.Lai
