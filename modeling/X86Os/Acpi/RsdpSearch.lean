import X86Os.Acpi.Tables

/-!
# The search for the RSDP

`acpi` points to words, so the loop of `ACPI::Setup` goes 64 bytes a round where
16 are meant. It misses three of four candidates, and its last rounds are far
behind the BIOS area, in the kernel image.
-/

namespace X86Os.Acpi

open Library.Memory Libc
set_option autoImplicit false

def rsdPtr : CString := ⟨[0x52, 0x53, 0x44, 0x20, 0x50, 0x54, 0x52, 0x20], by decide⟩

def acpiStart : Word := 0x000E0000

/-- The values of `i` in `for (int i = 0; i < stop; i += step)`. -/
def loopIndices (stop step : Nat) : List Nat :=
  (List.range ((stop + step - 1) / step)).map (step * ·)

def acpiAt (acpi : Word) (i : Nat) : Word := acpi + 4 * BitVec.ofNat 32 i

/-- The addresses that `strcmp(p, src)` reads at `p`. -/
def comparedAt (m : Mem) : Word → List Byte → List Word
  | _, [] => []
  | p, c :: src => p :: if c ≠ m p then [] else comparedAt m (p + 1) src

structure Searched where
  acpi : Word
  inspected : List Word

/-- The loop over the candidates; `acpi` stays where it was if there is no match. -/
def searchLoop (m : Mem) (acpi : Word) : List Word → Searched
  | [] => ⟨acpi, []⟩
  | p :: ps =>
    if strcmpAt m p rsdPtr = false then ⟨p, comparedAt m p rsdPtr.bytes⟩
    else
      let rest := searchLoop m acpi ps
      ⟨rest.acpi, comparedAt m p rsdPtr.bytes ++ rest.inspected⟩

def candidates : List Word := (loopIndices (0x000FFFFF - 0x000E0000) 16).map (acpiAt acpiStart)

/-- What the search yields: the RSDP, or nothing where it reports "RSDP Not found". -/
structure RsdpReport where
  rsdp : Option Word
  inspected : List Word

def findRsdp (m : Mem) : RsdpReport :=
  let s := searchLoop m acpiStart candidates
  ⟨if strcmpAt m s.acpi rsdPtr then none else some s.acpi,
    s.inspected ++ comparedAt m s.acpi rsdPtr.bytes⟩

def RsdpAt (m : Mem) (x : Word) : Prop :=
  0xE0000 ≤ x.toNat ∧ x.toNat ≤ 0xFFFFF ∧ 16 ∣ x.toNat ∧ loadBytes m x 8 = rsdPtr.bytes

def LowestRsdp (m : Mem) (x : Word) : Prop := RsdpAt m x ∧ ∀ y, RsdpAt m y → x.toNat ≤ y.toNat

/-- The search is complete and stays inside the BIOS area. -/
structure SearchOk (m : Mem) : Prop where
  finds : ∀ x, (findRsdp m).rsdp = some x ↔ LowestRsdp m x
  reports : (findRsdp m).rsdp = none ↔ ¬ ∃ x, RsdpAt m x
  confined : ∀ a ∈ (findRsdp m).inspected, a.toNat ≤ 0xFFFFF

variable {m : Mem} {acpi a p x : Word} {ps : List Word} {src : List Byte}

theorem strcmpAt_rsdPtr : strcmpAt m p rsdPtr = false ↔ loadBytes m p 8 = rsdPtr.bytes := by
  have length : (loadBytes m p 8).length = rsdPtr.bytes.length := by
    rw [loadBytes, List.length_map, List.length_range]
    rfl
  rw [strcmpAt, differ_eq_false]
  constructor
  · intro before
    exact (before.eq_of_length length.symm).symm
  · intro same
    exact same ▸ List.prefix_rfl

theorem comparedAt_inside (mem : a ∈ comparedAt m p src) (fits : p.toNat + src.length ≤ 2 ^ 32) :
    p.toNat ≤ a.toNat ∧ a.toNat < p.toNat + src.length := by
  induction src generalizing p with
  | nil => cases mem
  | cons c src ih =>
    rw [List.length_cons] at fits ⊢
    obtain rfl | later := List.mem_cons.mp mem
    · omega
    · split at later
      next => cases later
      next =>
        obtain rfl | last := eq_or_ne src []
        · cases later
        · have some := List.length_pos_iff.mpr last
          have next : (p + 1).toNat = p.toNat + 1 := by
            rw [BitVec.toNat_add]
            exact Nat.mod_eq_of_lt (by simp; omega)
          have inside := ih later (by omega)
          omega

theorem comparedAt_first (m : Mem) (p : Word) : p ∈ comparedAt m p rsdPtr.bytes :=
  List.mem_cons_self

/-- The loop ends at the first match and has inspected what stands before it. -/
theorem searchLoop_cases (m : Mem) (acpi : Word) (ps : List Word) :
    (∀ p ∈ ps, strcmpAt m p rsdPtr = true) ∧
      searchLoop m acpi ps = ⟨acpi, ps.flatMap fun p => comparedAt m p rsdPtr.bytes⟩ ∨
    ∃ before p after, ps = before ++ p :: after ∧ strcmpAt m p rsdPtr = false ∧
      (∀ q ∈ before, strcmpAt m q rsdPtr = true) ∧
      searchLoop m acpi ps = ⟨p, (before ++ [p]).flatMap fun p => comparedAt m p rsdPtr.bytes⟩ := by
  induction ps with
  | nil => exact .inl ⟨by simp, rfl⟩
  | cons p ps ih =>
    rw [searchLoop]
    cases here : strcmpAt m p rsdPtr with
    | false => exact .inr ⟨[], p, ps, rfl, here, by simp, by simp⟩
    | true =>
      rw [if_neg Bool.noConfusion]
      obtain ⟨none, searched⟩ | ⟨before, q, after, rfl, found, passed, searched⟩ := ih
      · exact .inl ⟨List.forall_mem_cons.mpr ⟨here, none⟩, by simp [searched]⟩
      · exact .inr ⟨p :: before, q, after, rfl, found, List.forall_mem_cons.mpr ⟨here, passed⟩,
          by simp [searched]⟩

/-! ## The candidates -/

theorem acpiAt_toNat {k : Nat} (inside : k < 8192) :
    (acpiAt acpiStart (16 * k)).toNat = 0xE0000 + 64 * k := by
  have start : acpiStart.toNat = 0xE0000 := rfl
  have four : (4 : Word).toNat = 4 := rfl
  rw [acpiAt, BitVec.toNat_add, BitVec.toNat_mul, BitVec.toNat_ofNat, start, four]
  omega

theorem candidates_eq : candidates = (List.range 8192).map fun k => acpiAt acpiStart (16 * k) := by
  rw [candidates, loopIndices, List.map_map]
  rfl

/-- Every fourth multiple of 16, and as many behind the BIOS area as in it three times. -/
theorem mem_candidates : p ∈ candidates ↔
    0xE0000 ≤ p.toNat ∧ p.toNat < 0x160000 ∧ 64 ∣ p.toNat := by
  rw [candidates_eq, List.mem_map]
  constructor
  · rintro ⟨k, inside, rfl⟩
    rw [List.mem_range] at inside
    rw [acpiAt_toNat inside]
    omega
  · rintro ⟨low, high, k, eq⟩
    have inside : k - 0x3800 < 8192 := by omega
    refine ⟨k - 0x3800, List.mem_range.mpr inside, BitVec.eq_of_toNat_eq ?_⟩
    rw [acpiAt_toNat inside]
    omega

theorem candidates_sorted : candidates.Pairwise fun p q => p.toNat < q.toNat := by
  rw [candidates_eq, List.pairwise_map]
  refine List.Pairwise.imp_of_mem ?_ List.pairwise_lt_range
  intro j k hj hk before
  rw [acpiAt_toNat (List.mem_range.mp hj), acpiAt_toNat (List.mem_range.mp hk)]
  omega

theorem kernel_candidate : ∃ p ∈ candidates, p.toNat = 0x100000 := by
  have place : (acpiAt acpiStart (16 * 0x800)).toNat = 0x100000 := acpiAt_toNat (by decide)
  exact ⟨_, mem_candidates.mpr (by omega), place⟩

theorem rsdp_candidate (found : RsdpAt m x) (aligned : 64 ∣ x.toNat) : x ∈ candidates := by
  obtain ⟨low, high, _, _⟩ := found
  exact mem_candidates.mpr ⟨low, by omega, aligned⟩

theorem candidate_rsdp (mem : p ∈ candidates) (area : p.toNat ≤ 0xFFFFF)
    (here : strcmpAt m p rsdPtr = false) : RsdpAt m p := by
  obtain ⟨low, _, aligned⟩ := mem_candidates.mp mem
  exact ⟨low, area, Nat.dvd_trans (by decide) aligned, strcmpAt_rsdPtr.mp here⟩

/-! ## The report -/

/-- A search that inspects no byte of the kernel has found an aligned signature below it. -/
theorem found_of_confined (confined : ∀ a ∈ (findRsdp m).inspected, a.toNat ≤ 0xFFFFF) :
    ∃ p ∈ candidates, p.toNat ≤ 0xFFFFF ∧ strcmpAt m p rsdPtr = false ∧ (findRsdp m).rsdp = some p := by
  obtain ⟨_, searched⟩ | ⟨before, p, after, all, here, _, searched⟩ :=
    searchLoop_cases m acpiStart candidates
  · obtain ⟨p, mem, place⟩ := kernel_candidate
    have read : p ∈ candidates.flatMap fun q => comparedAt m q rsdPtr.bytes :=
      List.mem_flatMap.mpr ⟨p, mem, comparedAt_first m p⟩
    have kernel := confined p (by
      rw [findRsdp, searched]
      dsimp only
      exact List.mem_append_left _ read)
    omega
  · have mem : p ∈ candidates := all ▸ List.mem_append_right before List.mem_cons_self
    have area := confined p (by
      rw [findRsdp, searched]
      exact List.mem_append_right _ (comparedAt_first m p))
    refine ⟨p, mem, area, here, ?_⟩
    rw [findRsdp, searched]
    simp [here]

theorem searchLoop_lowest (lowest : LowestRsdp m x) (aligned : 64 ∣ x.toNat) :
    ∃ before after, candidates = before ++ x :: after ∧ searchLoop m acpiStart candidates =
      ⟨x, (before ++ [x]).flatMap fun p => comparedAt m p rsdPtr.bytes⟩ := by
  obtain ⟨found, least⟩ := lowest
  have mem := rsdp_candidate found aligned
  have here := strcmpAt_rsdPtr.mpr found.2.2.2
  obtain ⟨none, _⟩ | ⟨before, p, after, all, signed, passed, searched⟩ :=
    searchLoop_cases m acpiStart candidates
  · rw [none x mem] at here
    cases here
  · have sorted := candidates_sorted
    have candidate : p ∈ candidates := all ▸ List.mem_append_right before List.mem_cons_self
    rw [all] at sorted mem
    obtain ⟨_, behind, _⟩ := List.pairwise_append.mp sorted
    have order : p.toNat ≤ x.toNat := by
      obtain early | rfl | late := (List.mem_append.mp mem).imp_right List.mem_cons.mp
      · rw [passed x early] at here
        cases here
      · exact le_rfl
      · exact (List.rel_of_pairwise_cons behind late).le
    have rsdp := candidate_rsdp candidate (order.trans found.2.1) signed
    obtain rfl : p = x := BitVec.eq_of_toNat_eq (le_antisymm order (least p rsdp))
    exact ⟨before, after, all, searched⟩

theorem compared_below {q : Word} (mem : q ∈ candidates) (area : q.toNat ≤ 0xFFFFF)
    (read : a ∈ comparedAt m q rsdPtr.bytes) : a.toNat ≤ 0xFFFFF := by
  obtain ⟨_, _, k, eq⟩ := mem_candidates.mp mem
  have length : rsdPtr.bytes.length = 8 := rfl
  have inside := comparedAt_inside read (by omega)
  omega

theorem findRsdp_lowest (lowest : LowestRsdp m x) (aligned : 64 ∣ x.toNat) :
    (findRsdp m).rsdp = some x ∧ ∀ a ∈ (findRsdp m).inspected, a.toNat ≤ 0xFFFFF := by
  have here := strcmpAt_rsdPtr.mpr lowest.1.2.2.2
  obtain ⟨before, after, all, searched⟩ := searchLoop_lowest lowest aligned
  refine ⟨by simp [findRsdp, searched, here], ?_⟩
  intro a inspected
  rw [findRsdp, searched] at inspected
  obtain ⟨q, hq, read⟩ : ∃ q ∈ before ++ [x], a ∈ comparedAt m q rsdPtr.bytes := by
    obtain loop | check := List.mem_append.mp inspected
    · exact List.mem_flatMap.mp loop
    · exact ⟨x, by simp, check⟩
  have candidate : q ∈ candidates := by
    rw [all, List.append_cons]
    exact List.mem_append_left _ hq
  have sorted := candidates_sorted
  rw [all] at sorted
  obtain ⟨_, _, ahead⟩ := List.pairwise_append.mp sorted
  have first : q.toNat ≤ x.toNat := by
    obtain early | last := List.mem_append.mp hq
    · exact (ahead q early x List.mem_cons_self).le
    · exact (List.mem_singleton.mp last) ▸ le_rfl
  exact compared_below candidate (first.trans lowest.1.2.1) read

/-- The search is right if and only if there is an RSDP and the first one is at a multiple of 64. -/
theorem search_ok_iff (m : Mem) : SearchOk m ↔ ∃ x, LowestRsdp m x ∧ 64 ∣ x.toNat := by
  constructor
  · intro ok
    obtain ⟨p, mem, _, _, reported⟩ := found_of_confined ok.confined
    exact ⟨p, (ok.finds p).mp reported, (mem_candidates.mp mem).2.2⟩
  · rintro ⟨x, lowest, aligned⟩
    obtain ⟨reported, confined⟩ := findRsdp_lowest lowest aligned
    refine ⟨?_, ?_, confined⟩
    · intro y
      rw [reported]
      constructor
      · rintro ⟨⟩
        exact lowest
      · rintro ⟨found, least⟩
        have same : x.toNat = y.toNat := le_antisymm (lowest.2 y found) (least x lowest.1)
        rw [BitVec.eq_of_toNat_eq same]
    · rw [reported]
      exact iff_of_false nofun (not_not.mpr ⟨x, lowest.1⟩)

/-- The signature 16 bytes into the BIOS area. -/
def secondCandidate : Mem := storeBytes (fun _ => 0) 0xE0010 rsdPtr.bytes

/-- The loop steps over it, and goes on to read the kernel. -/
theorem search_misses : RsdpAt secondCandidate 0xE0010 ∧ ¬ SearchOk secondCandidate := by
  have at_ : RsdpAt secondCandidate 0xE0010 := by
    refine ⟨by decide, by decide, by decide, ?_⟩
    decide
  refine ⟨at_, fun ok => ?_⟩
  obtain ⟨p, mem, _, here, reported⟩ := found_of_confined ok.confined
  have least := ((ok.finds p).mp reported).2 0xE0010 at_
  have place : (0xE0010 : Word).toNat = 0xE0010 := rfl
  obtain ⟨low, _, aligned⟩ := mem_candidates.mp mem
  obtain rfl : p = acpiStart := by
    have start : acpiStart.toNat = 0xE0000 := rfl
    exact BitVec.eq_of_toNat_eq (by omega)
  exact absurd here (by decide)

end X86Os.Acpi
