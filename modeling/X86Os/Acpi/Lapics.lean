import Mathlib.Data.List.Basic
import X86Os.Acpi.Madt

/-!
# The LAPIC ids that the walk collects

A well-formed table is a list of records behind the header. The walk takes them
one by one and keeps the id of each LAPIC record. Nothing compares their number
with the 256 entries of `lapic_ids`, and the 257th is written behind the array.
-/

namespace X86Os.Acpi

open Library.Memory
set_option autoImplicit false

/-- The structs of the source; other types have the header in common. -/
def sizeofRecord (type : Byte) : Nat :=
  if type = apicTypeLocalApic then 8 else if type = apicTypeIoApic then 12 else 2

structure MadtRecord where
  type : Byte
  body : List Byte
  short : body.length + 2 < 256
  whole : sizeofRecord type ≤ body.length + 2

namespace MadtRecord

def len (r : MadtRecord) : Nat := r.body.length + 2

def bytes (r : MadtRecord) : List Byte := r.type :: BitVec.ofNat 8 r.len :: r.body

def apicId (r : MadtRecord) : Byte := r.body.getD 1 0

def isLapic (r : MadtRecord) : Bool := r.type == apicTypeLocalApic

end MadtRecord

def totalLen (rs : List MadtRecord) : Nat := (rs.map MadtRecord.len).sum

def lapicIds (rs : List MadtRecord) : List Byte :=
  (rs.filter MadtRecord.isLapic).map MadtRecord.apicId

def RecordsAt (m : Mem) (p : Word) (rs : List MadtRecord) : Prop :=
  loadBytes m p (totalLen rs) = rs.flatMap MadtRecord.bytes

structure FilledBy (m : Mem) (madt : Word) (rs : List MadtRecord) : Prop where
  records : RecordsAt m (madt + sizeofMadtHeader) rs
  length : (madtLength m madt).toNat = 44 + totalLen rs
  room : madt.toNat + (madtLength m madt).toNat ≤ 2 ^ 32

/-- The walk ends with the ids of all LAPIC records, none of them behind the array. -/
def CollectsAll (m : Mem) (madt : Word) (rs : List MadtRecord) : Prop :=
  ∃ fuel c, collect m madt fuel = some c ∧ c.numcores.toNat = (lapicIds rs).length ∧
    (∀ k (h : k < (lapicIds rs).length), c.lapicIds (BitVec.ofNat 32 k) = (lapicIds rs)[k]) ∧
    ∀ i ∈ c.written, i.toNat < 256

structure Gathered (c : Collected) (ids : List Byte) (c' : Collected) : Prop where
  numcores : c'.numcores = c.numcores + BitVec.ofNat 32 ids.length
  stored : ∀ k (h : k < ids.length), c'.lapicIds (c.numcores + BitVec.ofNat 32 k) = ids[k]
  kept : ∀ i, ids.length ≤ (i - c.numcores).toNat → c'.lapicIds i = c.lapicIds i
  written : c'.written =
    c.written ++ (List.range ids.length).map fun k => c.numcores + BitVec.ofNat 32 k

variable {m : Mem} {madt stop p : Word} {c c' : Collected} {fuel : Nat}
variable {r : MadtRecord} {rs : List MadtRecord} {ids : List Byte} {id : Byte}

theorem Gathered.nil (c : Collected) : Gathered c [] c := by
  refine ⟨?_, ?_, ?_, ?_⟩ <;> simp

theorem Gathered.lapic (rest : Gathered (c.record m p) ids c')
    (type : recordType m p = apicTypeLocalApic) (few : ids.length < 2 ^ 32 - 1) :
    Gathered c (apicId m p :: ids) c' := by
  have one : (1 : Word).toNat = 1 := rfl
  have counted : (c.record m p).numcores = c.numcores + 1 := by
    simp [Collected.record, Collected.lapic, type]
  have updated : (c.record m p).lapicIds = Function.update c.lapicIds c.numcores (apicId m p) := by
    simp [Collected.record, Collected.lapic, type]
  have wrote : (c.record m p).written = c.written ++ [c.numcores] := by
    simp [Collected.record, Collected.lapic, type]
  have behind (k : Nat) : c.numcores + BitVec.ofNat 32 (k + 1) =
      (c.record m p).numcores + BitVec.ofNat 32 k := by
    rw [counted, Nat.add_comm k, BitVec.ofNat_add, ← add_assoc]
    rfl
  constructor
  case numcores => rw [rest.numcores, List.length_cons, behind]
  case stored =>
    intro k h
    cases k with
    | zero =>
      have start : c.numcores + BitVec.ofNat 32 0 = c.numcores := add_zero _
      have far : ids.length ≤ (c.numcores - (c.record m p).numcores).toNat := by
        have back : c.numcores - (c.record m p).numcores = -1 := by
          rw [counted]
          ring
        rw [back]
        exact Nat.le_of_lt_succ (few.trans (by decide))
      rw [start, rest.kept _ far, updated, Function.update_self, List.getElem_cons_zero]
    | succ k =>
      rw [behind, rest.stored k (Nat.lt_of_succ_lt_succ h), List.getElem_cons_succ]
  case kept =>
    intro i far
    rw [List.length_cons] at far
    have ne : i ≠ c.numcores := by
      rintro rfl
      simp at far
    have back : i - (c.record m p).numcores = i - c.numcores - 1 := by
      rw [counted]
      ring
    have less : (i - (c.record m p).numcores).toNat = (i - c.numcores).toNat - 1 := by
      rw [back, BitVec.toNat_sub_of_le (BitVec.le_def.mpr (by omega)), one]
    rw [rest.kept i (by omega), updated, Function.update_of_ne ne]
  case written =>
    simp only [rest.written, wrote, List.length_cons, List.range_succ_eq_map, List.map_cons,
      List.map_map, List.append_assoc, List.singleton_append]
    congr 2
    · exact (add_zero _).symm
    · apply List.map_congr_left
      intro k _
      exact (behind k).symm

theorem Gathered.other (rest : Gathered (c.record m p) ids c')
    (type : recordType m p ≠ apicTypeLocalApic) : Gathered c ids c' := by
  have same : (c.record m p).numcores = c.numcores ∧ (c.record m p).lapicIds = c.lapicIds ∧
      (c.record m p).written = c.written := by
    simp [Collected.record, type]
  obtain ⟨numcores, ids, written⟩ := same
  constructor
  case numcores => rw [rest.numcores, numcores]
  case stored =>
    rw [← numcores]
    exact rest.stored
  case kept =>
    rw [← numcores, ← ids]
    exact rest.kept
  case written => rw [rest.written, written, numcores]

theorem MadtRecord.bytes_length : r.bytes.length = r.len := rfl

theorem totalLen_cons : totalLen (r :: rs) = r.len + totalLen rs := by
  rw [totalLen, List.map_cons, List.sum_cons, totalLen]

theorem RecordsAt.cons (at_ : RecordsAt m p (r :: rs)) :
    loadBytes m p r.len = r.bytes ∧ RecordsAt m (p + BitVec.ofNat 32 r.len) rs := by
  rw [RecordsAt, totalLen_cons, loadBytes_add, List.flatMap_cons] at at_
  apply List.append_inj at_
  rw [loadBytes, List.length_map, List.length_range, MadtRecord.bytes_length]

theorem record_read {i : Nat} (at_ : loadBytes m p r.len = r.bytes) (inside : i < r.len) :
    m (p + BitVec.ofNat 32 i) = r.bytes.getD i 0 := by
  rw [← at_, loadBytes, List.getD_eq_getElem?_getD, List.getElem?_map, List.getElem?_range inside]
  rfl

theorem recordType_at (at_ : loadBytes m p r.len = r.bytes) : recordType m p = r.type := by
  have read := record_read (i := 0) at_ (by rw [MadtRecord.len]; omega)
  have start : p + BitVec.ofNat 32 0 = p := add_zero p
  rwa [start] at read

theorem recordLen_at (at_ : loadBytes m p r.len = r.bytes) :
    recordLen m p = BitVec.ofNat 8 r.len :=
  record_read (i := 1) at_ (by rw [MadtRecord.len]; omega)

theorem apicId_at (at_ : loadBytes m p r.len = r.bytes) (type : r.isLapic = true) :
    apicId m p = r.apicId := by
  have whole := r.whole
  rw [sizeofRecord, if_pos (beq_iff_eq.mp type)] at whole
  exact record_read (i := 3) at_ (by rw [MadtRecord.len]; omega)

theorem nextRecord_at (at_ : loadBytes m p r.len = r.bytes) :
    nextRecord m p = p + BitVec.ofNat 32 r.len := by
  have short := r.short
  rw [nextRecord, recordLen_at at_]
  congr 1
  apply BitVec.eq_of_toNat_eq
  rw [BitVec.toNat_setWidth, BitVec.toNat_ofNat, BitVec.toNat_ofNat, MadtRecord.len,
    Nat.mod_eq_of_lt short]

theorem lapicIds_length (rs : List MadtRecord) : (lapicIds rs).length ≤ totalLen rs := by
  induction rs with
  | nil => exact Nat.zero_le _
  | cons r rs ih =>
    rw [totalLen_cons, MadtRecord.len]
    cases type : r.isLapic with
    | true =>
      rw [lapicIds, List.filter_cons_of_pos type, List.map_cons, List.length_cons, ← lapicIds]
      omega
    | false =>
      rw [lapicIds, List.filter_cons_of_neg (by simp [type]), ← lapicIds]
      omega

/-- The loop takes the records of a list one by one and gathers their ids. -/
theorem recordLoop_gathers (at_ : RecordsAt m p rs) (ends : p.toNat + totalLen rs = stop.toNat) :
    ∃ c', recordLoop m stop (rs.length + 1) p c = some c' ∧ Gathered c (lapicIds rs) c' := by
  induction rs generalizing p c with
  | nil =>
    have here : ¬p < stop := by
      rw [BitVec.lt_def, ← ends, totalLen, List.map_nil, List.sum_nil]
      exact lt_irrefl _
    exact ⟨c, recordLoop_done here, .nil c⟩
  | cons r rs ih =>
    obtain ⟨first, others⟩ := at_.cons
    have fits := stop.isLt
    rw [totalLen_cons] at ends
    have positive : 2 ≤ r.len := Nat.le_add_left _ _
    have small : (BitVec.ofNat 32 r.len).toNat = r.len := by
      rw [BitVec.toNat_ofNat]
      exact Nat.mod_eq_of_lt (by omega)
    have place : (p + BitVec.ofNat 32 r.len).toNat = p.toNat + r.len := by
      rw [BitVec.toNat_add, small]
      exact Nat.mod_eq_of_lt (by omega)
    have more : p < stop := by
      rw [BitVec.lt_def]
      omega
    obtain ⟨c', run, gathered⟩ := ih (c := c.record m p) others (by omega)
    refine ⟨c', ?_, ?_⟩
    · rw [List.length_cons, recordLoop_more more, nextRecord_at first]
      exact run
    · cases type : r.isLapic with
      | true =>
        have count := lapicIds_length rs
        rw [lapicIds, List.filter_cons_of_pos type, List.map_cons, ← apicId_at first type]
        refine gathered.lapic ?_ (by omega)
        rw [recordType_at first]
        exact beq_iff_eq.mp type
      | false =>
        rw [lapicIds, List.filter_cons_of_neg (by simp [type])]
        refine gathered.other ?_
        rw [recordType_at first]
        exact beq_eq_false_iff_ne.mp type

theorem recordLoop_fuel (run : recordLoop m stop fuel p c = some c') (k : Nat) :
    recordLoop m stop (fuel + k) p c = some c' := by
  induction fuel generalizing p c with
  | zero => cases run
  | succ fuel ih =>
    rw [Nat.add_right_comm]
    by_cases more : p < stop
    · rw [recordLoop_more more] at run ⊢
      exact ih run
    · rw [recordLoop_done more] at run ⊢
      exact run

theorem collect_unique {fuel₁ fuel₂ : Nat} {c₁ c₂ : Collected} (one : collect m madt fuel₁ = some c₁)
    (two : collect m madt fuel₂ = some c₂) : c₁ = c₂ := by
  have more := recordLoop_fuel one fuel₂
  rw [Nat.add_comm] at more
  exact Option.some.inj (more.symm.trans (recordLoop_fuel two fuel₁))

/-- The end of a table that does not touch the end of memory is behind its records. -/
theorem FilledBy.walk (filled : FilledBy m madt rs)
    (below : madt.toNat + (madtLength m madt).toNat < 2 ^ 32) :
    ∃ c, collect m madt (rs.length + 1) = some c ∧
      Gathered ⟨0, fun _ => 0, [], []⟩ (lapicIds rs) c := by
  have length := filled.length
  have header : sizeofMadtHeader.toNat = 44 := rfl
  refine recordLoop_gathers filled.records ?_
  rw [madtEnd, BitVec.toNat_add, BitVec.toNat_add, header, Nat.mod_eq_of_lt below,
    Nat.mod_eq_of_lt (by omega)]
  omega

theorem FilledBy.wrapped (filled : FilledBy m madt rs)
    (top : ¬madt.toNat + (madtLength m madt).toNat < 2 ^ 32) :
    collect m madt 1 = some ⟨0, fun _ => 0, [], []⟩ := by
  have room := filled.room
  have ends : madtEnd m madt = 0 := by
    apply BitVec.eq_of_toNat_eq
    have sum : madt.toNat + (madtLength m madt).toNat = 2 ^ 32 := by omega
    rw [madtEnd, BitVec.toNat_add, sum]
    rfl
  refine recordLoop_done ?_
  rw [ends]
  exact BitVec.not_lt_zero

theorem gathered_start (gathered : Gathered ⟨0, fun _ => 0, [], []⟩ ids c) (few : ids.length < 2 ^ 32) :
    c.numcores.toNat = ids.length ∧
      (∀ k (h : k < ids.length), c.lapicIds (BitVec.ofNat 32 k) = ids[k]) ∧
      c.written = (List.range ids.length).map (BitVec.ofNat 32) := by
  obtain ⟨numcores, stored, _, written⟩ := gathered
  simp only [zero_add, List.nil_append] at numcores stored written
  refine ⟨?_, stored, written⟩
  rw [numcores, BitVec.toNat_ofNat, Nat.mod_eq_of_lt few]

theorem FilledBy.few (filled : FilledBy m madt rs) : (lapicIds rs).length < 2 ^ 32 := by
  have count := lapicIds_length rs
  have length := filled.length
  have := (madtLength m madt).isLt
  omega

theorem CollectsAll.fits (all : CollectsAll m madt rs) (filled : FilledBy m madt rs) :
    lapicIds rs = [] ∨ (lapicIds rs).length ≤ 256 ∧
      madt.toNat + (madtLength m madt).toNat < 2 ^ 32 := by
  obtain ⟨fuel, c, run, numcores, _, written⟩ := all
  by_cases below : madt.toNat + (madtLength m madt).toNat < 2 ^ 32
  · obtain ⟨c', run', gathered⟩ := filled.walk below
    obtain rfl := collect_unique run run'
    refine .inr ⟨?_, below⟩
    by_contra many
    have many := Nat.lt_of_not_le many
    have mem : BitVec.ofNat 32 256 ∈ c.written := by
      rw [(gathered_start gathered filled.few).2.2]
      exact List.mem_map_of_mem (List.mem_range.mpr many)
    exact absurd (written _ mem) (by decide)
  · obtain rfl := collect_unique run (filled.wrapped below)
    exact .inl (List.length_eq_zero_iff.mp numcores.symm)

/-- The ids of a well-formed table are collected exactly if and only if there are at most 256 of
them and the table does not reach up to the last byte of memory, or there are none. -/
theorem collects_all_iff (filled : FilledBy m madt rs) : CollectsAll m madt rs ↔
    lapicIds rs = [] ∨ (lapicIds rs).length ≤ 256 ∧
      madt.toNat + (madtLength m madt).toNat < 2 ^ 32 := by
  constructor
  · intro all
    exact all.fits filled
  · intro condition
    by_cases below : madt.toNat + (madtLength m madt).toNat < 2 ^ 32
    · obtain ⟨c, run, gathered⟩ := filled.walk below
      obtain ⟨numcores, stored, written⟩ := gathered_start gathered filled.few
      refine ⟨_, c, run, numcores, stored, fun i mem => ?_⟩
      have atMost : (lapicIds rs).length ≤ 256 := by
        obtain none | ⟨le, _⟩ := condition
        · simp [none]
        · exact le
      rw [written] at mem
      obtain ⟨k, inside, rfl⟩ := List.mem_map.mp mem
      have inside := List.mem_range.mp inside
      rw [BitVec.toNat_ofNat]
      omega
    · have none := condition.resolve_right fun both => below both.2
      refine ⟨1, _, filled.wrapped below, ?_, ?_, ?_⟩ <;> simp [none]

/-- The LAPIC record of processor 1 with id 4. -/
def sampleLapic : MadtRecord := ⟨0, [1, 4, 1, 0, 0, 0], by decide, by decide⟩

def tableOf (rs : List MadtRecord) : Mem :=
  storeBytes (store32 (fun _ => 0) 0x1004 (BitVec.ofNat 32 (44 + totalLen rs))) 0x102C
    (rs.flatMap MadtRecord.bytes)

theorem flatMap_bytes_length (rs : List MadtRecord) :
    (rs.flatMap MadtRecord.bytes).length = totalLen rs := by
  induction rs with
  | nil => rfl
  | cons r rs ih =>
    rw [List.flatMap_cons, List.length_append, ih, totalLen_cons, MadtRecord.bytes_length]

theorem tableOf_filled (small : totalLen rs ≤ 2 ^ 16) : FilledBy (tableOf rs) 0x1000 rs := by
  have length : (madtLength (tableOf rs) 0x1000).toNat = 44 + totalLen rs := by
    have loaded : madtLength (tableOf rs) 0x1000 = BitVec.ofNat 32 (44 + totalLen rs) := by
      rw [← load32_store32 (fun _ => 0) 0x1004 (BitVec.ofNat 32 (44 + totalLen rs))]
      refine load32_congr fun k hk => storeBytes_outside ?_
      rw [flatMap_bytes_length, Covers]
      bv_omega
    rw [loaded, BitVec.toNat_ofNat, Nat.mod_eq_of_lt (by omega)]
  have start : (0x1000 : Word).toNat = 4096 := rfl
  refine ⟨?_, length, by omega⟩
  have fits : (rs.flatMap MadtRecord.bytes).length ≤ 2 ^ 32 := by
    rw [flatMap_bytes_length]
    omega
  have loaded := loadBytes_storeBytes
    (m := store32 (fun _ => 0) 0x1004 (BitVec.ofNat 32 (44 + totalLen rs))) (a := 0x102C) fits
  rwa [flatMap_bytes_length] at loaded

/-- Two processors, between them an I/O APIC and a record of unknown type. -/
def sampleRecords : List MadtRecord :=
  [sampleLapic, ⟨1, [2, 0, 0, 0, 0xC0, 0xFE, 0, 0, 0, 0], by decide, by decide⟩,
    ⟨10, [1, 2, 3], by decide, by decide⟩, ⟨0, [2, 6, 1, 0, 0, 0], by decide, by decide⟩]

example : lapicIds sampleRecords = [4, 6] := rfl

theorem collects_all_records : CollectsAll (tableOf sampleRecords) 0x1000 sampleRecords := by
  have filled : FilledBy (tableOf sampleRecords) 0x1000 sampleRecords := tableOf_filled (by decide)
  refine (collects_all_iff filled).mpr (.inr ⟨by decide, ?_⟩)
  rw [filled.length]
  decide

/-- One processor more than the array has entries. -/
theorem lapic_overflow : ∃ m madt rs, FilledBy m madt rs ∧ ¬CollectsAll m madt rs := by
  have filled : FilledBy (tableOf (List.replicate 257 sampleLapic)) 0x1000
      (List.replicate 257 sampleLapic) := tableOf_filled (by decide +kernel)
  have count : (lapicIds (List.replicate 257 sampleLapic)).length = 257 := by decide +kernel
  refine ⟨_, _, _, filled, fun all => ?_⟩
  obtain none | ⟨few, _⟩ := all.fits filled
  · rw [none] at count
    cases count
  · omega

end X86Os.Acpi
