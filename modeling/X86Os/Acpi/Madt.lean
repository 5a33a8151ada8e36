import X86Os.Library.Memory
import X86Os.Library.Runs

/-!
# The walk over the records of the MADT

`madt_setup` goes from record to record by the length bytes that it finds. It
tests the place of a record against the end of the table, but neither the rest of
the record nor its length: a length of zero keeps it in place for ever, and a
record that is cut off is read behind the table.
-/

namespace X86Os.Acpi

open Library.Memory Library.Runs Relation
set_option autoImplicit false

def apicTypeLocalApic : Byte := 0

def apicTypeIoApic : Byte := 1

def sizeofMadtHeader : Word := 44

def madtLength (m : Mem) (madt : Word) : Word := load32 m (madt + 4)

/-- `end`, added up in 32 bits. -/
def madtEnd (m : Mem) (madt : Word) : Word := madt + madtLength m madt

def recordType (m : Mem) (p : Word) : Byte := m p

def recordLen (m : Mem) (p : Word) : Byte := m (p + 1)

def apicId (m : Mem) (p : Word) : Byte := m (p + 3)

/-- `numcores` and `lapic_ids`, with the indices written and the addresses read in the table.
The array goes on behind its 256 entries as memory does. -/
structure Collected where
  numcores : Word
  lapicIds : Word → Byte
  written : List Word
  reads : List Word

def Collected.lapic (m : Mem) (p : Word) (c : Collected) : Collected where
  numcores := c.numcores + 1
  lapicIds := Function.update c.lapicIds c.numcores (apicId m p)
  written := c.written ++ [c.numcores]
  reads := c.reads ++ [p + 3]

/-- The body of the loop. The case of an IOAPIC record sets a pointer and reads nothing. -/
def Collected.record (m : Mem) (p : Word) (c : Collected) : Collected :=
  let c := { c with reads := c.reads ++ [p] }
  let c := if recordType m p = apicTypeLocalApic then c.lapic m p else c
  { c with reads := c.reads ++ [p + 1] }

/-- `p += m->len` -/
def nextRecord (m : Mem) (p : Word) : Word := p + (recordLen m p).setWidth 32

/-- The loop of `madt_setup`; `none` when the fuel does not suffice. -/
def recordLoop (m : Mem) (stop : Word) : Nat → Word → Collected → Option Collected
  | 0, _, _ => none
  | fuel + 1, p, c =>
    if p < stop then recordLoop m stop fuel (nextRecord m p) (c.record m p) else some c

/-- The walk of `madt_setup`, from `(uint8_t *)(madt+1)` on. -/
def collect (m : Mem) (madt : Word) (fuel : Nat) : Option Collected :=
  recordLoop m (madtEnd m madt) fuel (madt + sizeofMadtHeader) ⟨0, fun _ => 0, [], []⟩

def InRecords (m : Mem) (madt x : Word) : Prop :=
  44 ≤ (x - madt).toNat ∧ (x - madt).toNat < (madtLength m madt).toNat

/-- The walk ends and reads bytes of the records only. -/
def WalkSafe (m : Mem) (madt : Word) : Prop :=
  ∃ fuel c, collect m madt fuel = some c ∧ ∀ x ∈ c.reads, InRecords m madt x

def RecordStep (m : Mem) (stop p q : Word) : Prop := p < stop ∧ q = nextRecord m p

def Comes (m : Mem) (madt p : Word) : Prop :=
  ReflTransGen (RecordStep m (madtEnd m madt)) (madt + sizeofMadtHeader) p

/-- The record at `p` has a length, and what is read of it lies in the table. Only in a table that
fills the address space but for 253 bytes the walk can come around to it again. -/
structure RecordSound (m : Mem) (madt p : Word) : Prop where
  length : recordLen m p ≠ 0
  behind : 44 ≤ (p - madt).toNat
  inside : (p - madt).toNat + 2 ≤ (madtLength m madt).toNat
  lapic : recordType m p = apicTypeLocalApic → (p - madt).toNat + 4 ≤ (madtLength m madt).toNat
  once : 2 ^ 32 < (madtLength m madt).toNat + 254 →
    ¬ReflTransGen (RecordStep m (madtEnd m madt)) (nextRecord m p) p

variable {m : Mem} {madt stop p q x : Word} {c c' : Collected} {fuel : Nat}

theorem record_reads : (c.record m p).reads =
    c.reads ++ (if recordType m p = apicTypeLocalApic then [p, p + 3, p + 1] else [p, p + 1]) := by
  rw [Collected.record]
  split
  next => simp [Collected.lapic]
  next => simp

theorem recordLoop_more (more : p < stop) :
    recordLoop m stop (fuel + 1) p c = recordLoop m stop fuel (nextRecord m p) (c.record m p) :=
  if_pos more

theorem recordLoop_done (done : ¬p < stop) : recordLoop m stop (fuel + 1) p c = some c :=
  if_neg done

theorem recordLoop_tail (run : recordLoop m stop fuel p c = some c') (step : RecordStep m stop p q) :
    ∃ k < fuel, recordLoop m stop k q (c.record m p) = some c' := by
  obtain ⟨more, rfl⟩ := step
  cases fuel with
  | zero => cases run
  | succ fuel =>
    rw [recordLoop_more more] at run
    exact ⟨fuel, Nat.lt_succ_self fuel, run⟩

theorem recordLoop_path (run : recordLoop m stop fuel p c = some c')
    (path : ReflTransGen (RecordStep m stop) p q) :
    ∃ k ≤ fuel, ∃ c₁, recordLoop m stop k q c₁ = some c' := by
  induction path with
  | refl => exact ⟨fuel, le_rfl, c, run⟩
  | tail _ step ih =>
    obtain ⟨k, le, c₁, rest⟩ := ih
    obtain ⟨k', lt, rest'⟩ := recordLoop_tail rest step
    exact ⟨k', lt.le.trans le, _, rest'⟩

/-- A loop that ends does not come back to where it was. -/
theorem recordLoop_once (run : recordLoop m stop fuel p c = some c') :
    ¬TransGen (RecordStep m stop) p p := by
  induction fuel using Nat.strongRecOn generalizing c with
  | ind fuel ih =>
    intro back
    obtain ⟨q, step, path⟩ := TransGen.head'_iff.mp back
    obtain ⟨k, lt, rest⟩ := recordLoop_tail run step
    obtain ⟨k', le, c₁, again⟩ := recordLoop_path rest path
    exact ih k' (lt.trans_le' le) again back

theorem recordLoop_reads (run : recordLoop m stop fuel p c = some c') : c.reads ⊆ c'.reads := by
  induction fuel generalizing p c with
  | zero => cases run
  | succ fuel ih =>
    by_cases more : p < stop
    · rw [recordLoop_more more] at run
      refine List.Subset.trans ?_ (ih run)
      rw [record_reads]
      exact List.subset_append_left _ _
    · rw [recordLoop_done more] at run
      cases run
      exact List.Subset.refl _

theorem inRecords_iff : InRecords m madt p ∧ InRecords m madt (p + 1) ↔
    44 ≤ (p - madt).toNat ∧ (p - madt).toNat + 2 ≤ (madtLength m madt).toNat := by
  have offset : p + 1 - madt = p - madt + 1 := by ring
  have one : (1 : Word).toNat = 1 := rfl
  have := (madtLength m madt).isLt
  rw [InRecords, InRecords, offset, BitVec.toNat_add, one]
  omega

theorem inRecords_lapic (behind : 44 ≤ (p - madt).toNat)
    (inside : (p - madt).toNat + 2 ≤ (madtLength m madt).toNat) :
    InRecords m madt (p + 3) ↔ (p - madt).toNat + 4 ≤ (madtLength m madt).toNat := by
  have offset : p + 3 - madt = p - madt + 3 := by ring
  have three : (3 : Word).toNat = 3 := rfl
  have := (madtLength m madt).isLt
  rw [InRecords, offset, BitVec.toNat_add, three]
  omega

theorem WalkSafe.sound (safe : WalkSafe m madt) (comes : Comes m madt p) (more : p < madtEnd m madt) :
    RecordSound m madt p := by
  obtain ⟨fuel, c, run, reads⟩ := safe
  obtain ⟨k, _, c₁, here⟩ := recordLoop_path run comes
  obtain ⟨k', _, rest⟩ := recordLoop_tail here ⟨more, rfl⟩
  have inRecords (x : Word) (mem : x ∈ (c₁.record m p).reads) : InRecords m madt x :=
    reads x (recordLoop_reads rest mem)
  rw [record_reads] at inRecords
  have header : InRecords m madt p ∧ InRecords m madt (p + 1) := by
    constructor
    · exact inRecords p (List.mem_append_right _ (by split <;> simp))
    · exact inRecords (p + 1) (List.mem_append_right _ (by split <;> simp))
  obtain ⟨behind, inside⟩ := inRecords_iff.mp header
  refine ⟨?_, behind, inside, fun local_ => ?_, fun _ back => ?_⟩
  · intro zero
    have stays : nextRecord m p = p := by
      rw [nextRecord, zero]
      exact add_zero p
    exact recordLoop_once here (.single ⟨more, stays.symm⟩)
  · rw [if_pos local_] at inRecords
    exact (inRecords_lapic behind inside).mp (inRecords (p + 3) (List.mem_append_right _ (by simp)))
  · exact recordLoop_once here (.head' ⟨more, rfl⟩ back)

theorem RecordSound.next_offset (sound : RecordSound m madt p)
    (short : (madtLength m madt).toNat + 254 ≤ 2 ^ 32) :
    (nextRecord m p - madt).toNat = (p - madt).toNat + (recordLen m p).toNat := by
  have width : ((recordLen m p).setWidth 32).toNat = (recordLen m p).toNat :=
    BitVec.toNat_setWidth_of_le (by decide)
  have offset : nextRecord m p - madt = p - madt + (recordLen m p).setWidth 32 := by
    rw [nextRecord]
    ring
  have inside := sound.inside
  have byte := (recordLen m p).isLt
  rw [offset, BitVec.toNat_add, width, Nat.mod_eq_of_lt (by omega)]

theorem path_rises (sound : ∀ p, Comes m madt p → p < madtEnd m madt → RecordSound m madt p)
    (short : (madtLength m madt).toNat + 254 ≤ 2 ^ 32) (comes : Comes m madt p)
    (path : ReflTransGen (RecordStep m (madtEnd m madt)) p q) :
    (p - madt).toNat ≤ (q - madt).toNat := by
  induction path with
  | refl => exact le_rfl
  | @tail b d path step ih =>
    obtain ⟨more, rfl⟩ := step
    rw [(sound b (comes.trans path) more).next_offset short]
    exact ih.trans (Nat.le_add_right ..)

theorem sound_acyclic
    (sound : ∀ p, Comes m madt p → p < madtEnd m madt → RecordSound m madt p) (p : Word)
    (comes : Comes m madt p) : ¬TransGen (RecordStep m (madtEnd m madt)) p p := by
  intro back
  obtain ⟨q, ⟨more, rfl⟩, path⟩ := TransGen.head'_iff.mp back
  have here := sound p comes more
  obtain short | long := le_or_gt ((madtLength m madt).toNat + 254) (2 ^ 32)
  · have grows : 0 < (recordLen m p).toNat := by
      rw [Nat.pos_iff_ne_zero]
      exact fun zero => here.length (BitVec.eq_of_toNat_eq zero)
    have rises := path_rises sound short (comes.tail ⟨more, rfl⟩) path
    rw [here.next_offset short] at rises
    omega
  · exact here.once long path

theorem sound_reads (sound : RecordSound m madt p) (reads : ∀ x ∈ c.reads, InRecords m madt x) :
    ∀ x ∈ (c.record m p).reads, InRecords m madt x := by
  intro x mem
  rw [record_reads] at mem
  obtain ⟨type, length⟩ := inRecords_iff.mpr ⟨sound.behind, sound.inside⟩
  obtain old | new := List.mem_append.mp mem
  · exact reads x old
  · split at new
    next local_ =>
      have id := (inRecords_lapic sound.behind sound.inside).mpr (sound.lapic local_)
      simp only [List.mem_cons, List.not_mem_nil, or_false] at new
      obtain rfl | rfl | rfl := new
      · exact type
      · exact id
      · exact length
    next =>
      simp only [List.mem_cons, List.not_mem_nil, or_false] at new
      obtain rfl | rfl := new
      · exact type
      · exact length

/-- Over sound records the loop ends from wherever it comes to. -/
theorem recordLoop_ends
    (sound : ∀ p, Comes m madt p → p < madtEnd m madt → RecordSound m madt p)
    (comes : Comes m madt p) (reads : ∀ x ∈ c.reads, InRecords m madt x) :
    ∃ fuel c', recordLoop m (madtEnd m madt) fuel p c = some c' ∧
      ∀ x ∈ c'.reads, InRecords m madt x := by
  have finite : Finite Word := Finite.of_injective BitVec.toFin fun _ _ same => BitVec.eq_of_toFin_eq same
  induction p using (wellFounded_of_acyclic (sound_acyclic sound)).induction generalizing c with
  | _ p ih =>
    by_cases more : p < madtEnd m madt
    · have step : RecordStep m (madtEnd m madt) p (nextRecord m p) := ⟨more, rfl⟩
      obtain ⟨fuel, c', run, inside⟩ := ih (nextRecord m p) ⟨comes, .single step⟩ (comes.tail step)
        (sound_reads (sound p comes more) reads)
      exact ⟨fuel + 1, c', (recordLoop_more more).trans run, inside⟩
    · exact ⟨1, c, recordLoop_done more, reads⟩

/-- The walk over the records is safe if and only if every record that it comes to is sound. -/
theorem walk_safe_iff :
    WalkSafe m madt ↔ ∀ p, Comes m madt p → p < madtEnd m madt → RecordSound m madt p := by
  constructor
  · intro safe p comes more
    exact safe.sound comes more
  · intro sound
    exact recordLoop_ends sound .refl (by simp)

/-- A table of 46 bytes at 4 KiB whose only record says that it has no bytes. -/
def stuckTable : Mem := store32 (fun _ => 0) 0x1004 46

theorem walk_stuck : ¬WalkSafe stuckTable 0x1000 := by
  intro safe
  exact (safe.sound .refl (by decide +kernel)).length (by decide +kernel)

end X86Os.Acpi
