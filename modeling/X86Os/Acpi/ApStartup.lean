import Mathlib.Data.List.Count
import X86Os.Library.Memory

/-!
# Starting the other processors in base/other/madt.cpp

The loop over `lapic_ids` skips the entry of the boot processor by its id, but
it selects the processor to start by the position in the table. Writes to the
registers are a trace; a read yields whatever the device answers. The delivery
status is assumed to clear, so waiting for it adds no write.
-/

namespace X86Os.Acpi

open Library.Memory
set_option autoImplicit false

structure MmioWrite where
  addr : Word
  value : Word

abbrev Trace := List MmioWrite

/-- What a read of a register yields behind a number of writes. -/
abbrev Device := Nat → Word → Word

def write (trace : Trace) (reg value : Word) : Trace := trace ++ [⟨reg, value⟩]

/-- `*reg = (*reg & mask) | bits` -/
def update (io : Device) (trace : Trace) (reg mask bits : Word) : Trace :=
  write trace reg (io trace.length reg &&& mask ||| bits)

section Registers

variable (io : Device) (lapicPtr : Word) (i : Nat)

def selectAp (trace : Trace) : Trace :=
  update io trace (lapicPtr + 0x310) 0x00ffffff (BitVec.ofNat 32 i <<< 24)

def initAp (trace : Trace) : Trace :=
  let trace := write trace (lapicPtr + 0x280) 0
  let trace := selectAp io lapicPtr i trace
  let trace := update io trace (lapicPtr + 0x300) 0xfff00000 0x00C500
  let trace := selectAp io lapicPtr i trace
  update io trace (lapicPtr + 0x300) 0xfff00000 0x008500

def startupAp (trace : Trace) : Trace :=
  let trace := write trace (lapicPtr + 0x280) 0
  let trace := selectAp io lapicPtr i trace
  update io trace (lapicPtr + 0x300) 0xfff0f800 0x000608

def startAp (trace : Trace) : Trace :=
  startupAp io lapicPtr i (startupAp io lapicPtr i (initAp io lapicPtr i trace))

end Registers

/-- The loop from position `i` on; the list holds the rest of `lapic_ids`. -/
def startAps (io : Device) (lapicPtr : Word) (bspid : Byte) : Nat → List Byte → Trace → Trace
  | _, [], trace => trace
  | i, id :: ids, trace =>
    if id = bspid then startAps io lapicPtr bspid (i + 1) ids trace
    else startAps io lapicPtr bspid (i + 1) ids (startAp io lapicPtr i trace)

inductive IpiKind
  | init
  | deassert
  | startup
  | other
  deriving DecidableEq

structure Ipi where
  dest : Byte
  kind : IpiKind
  deriving DecidableEq

def kindOf (command : Word) : IpiKind :=
  if command &&& 0x4700 = 0x4500 then .init
  else if command &&& 0x4700 = 0x0500 then .deassert
  else if command &&& 0x0700 = 0x0600 then .startup
  else .other

/-- A write to the low command word sends an interrupt to the destination in the high one. -/
def observe (lapicPtr : Word) (s : Byte × List Ipi) (w : MmioWrite) : Byte × List Ipi :=
  if w.addr = lapicPtr + 0x310 then (w.value.extractLsb' 24 8, s.2)
  else if w.addr = lapicPtr + 0x300 then (s.1, s.2 ++ [⟨s.1, kindOf w.value⟩])
  else s

def ipis (lapicPtr : Word) (trace : Trace) : Byte × List Ipi :=
  trace.foldl (observe lapicPtr) (0, [])

/-- The positions of the entries to start, as they fit into the destination field. -/
def positions (bspid : Byte) : Nat → List Byte → List Byte
  | _, [] => []
  | i, id :: ids =>
    if id = bspid then positions bspid (i + 1) ids
    else BitVec.ofNat 8 i :: positions bspid (i + 1) ids

/-- Each collected id but the boot processor's gets one INIT and two STARTUPs, and nobody
else gets anything. -/
structure StartupOk (ids : List Byte) (bspid : Byte) (sent : List Ipi) : Prop where
  addressed : ∀ dest, (∃ ipi ∈ sent, ipi.dest = dest) ↔ dest ∈ ids ∧ dest ≠ bspid
  init : ∀ dest ∈ ids, dest ≠ bspid → sent.count ⟨dest, .init⟩ = 1
  startup : ∀ dest ∈ ids, dest ≠ bspid → sent.count ⟨dest, .startup⟩ = 2

variable {io : Device} {lapicPtr : Word} {ids : List Byte} {bspid : Byte} {trace : Trace} {i : Nat}

theorem ipis_write (reg value : Word) : ipis lapicPtr (write trace reg value) =
    observe lapicPtr (ipis lapicPtr trace) ⟨reg, value⟩ := by
  rw [ipis, ipis, write, List.foldl_append]
  rfl

theorem masked (v a b m : Word) : (v &&& a ||| b) &&& m = v &&& (a &&& m) ||| b &&& m := by
  apply BitVec.eq_of_getLsbD_eq
  intro j _
  simp [Bool.and_or_distrib_right, Bool.and_assoc]

theorem masked_of_zero {v a b m : Word} (zero : a &&& m = 0) : (v &&& a ||| b) &&& m = b &&& m := by
  rw [masked, zero]
  simp

theorem kindOf_init (v : Word) : kindOf (v &&& 0xfff00000 ||| 0x00C500) = .init := by
  rw [kindOf, masked_of_zero (by decide)]
  rfl

theorem kindOf_deassert (v : Word) : kindOf (v &&& 0xfff00000 ||| 0x008500) = .deassert := by
  rw [kindOf, masked_of_zero (by decide)]
  rfl

/-- The preserved bits of the low command word are no mode bits. -/
theorem kindOf_startup (v : Word) : kindOf (v &&& 0xfff0f800 ||| 0x000608) = .startup := by
  have mode : (v &&& 0xfff0f800 ||| 0x000608) &&& 0x0700 = 0x0600 := masked_of_zero (by decide)
  have other (c : Word) (differs : c &&& 0x0700 ≠ 0x0600) :
      (v &&& 0xfff0f800 ||| 0x000608) &&& 0x4700 ≠ c := by
    intro eq
    apply differs
    rw [← eq, BitVec.and_assoc]
    exact mode
  rw [kindOf, if_neg (other _ (by decide)), if_neg (other _ (by decide)), if_pos mode]

theorem destination (v : Word) (i : Nat) :
    (v &&& (0x00ffffff : Word) ||| BitVec.ofNat 32 i <<< 24).extractLsb' 24 8 = BitVec.ofNat 8 i := by
  apply BitVec.eq_of_getLsbD_eq
  intro j hj
  have low : (0x00ffffff : Word).toNat < 2 ^ (24 + j) :=
    lt_of_lt_of_le (by decide) (Nat.pow_le_pow_right Nat.two_pos (Nat.le_add_right 24 j))
  have high : (0x00ffffff : Word).getLsbD (24 + j) = false := Nat.testBit_lt_two_pow low
  have shifted : 24 + j < 32 := by omega
  have inside : j < 32 := by omega
  rw [BitVec.getLsbD_extractLsb', BitVec.getLsbD_or, BitVec.getLsbD_and, high, BitVec.getLsbD_shiftLeft,
    BitVec.getLsbD_ofNat, BitVec.getLsbD_ofNat, Nat.add_sub_cancel_left]
  simp [hj, shifted, inside]

theorem observe_select (s : Byte × List Ipi) (v : Word) : observe lapicPtr s
    ⟨lapicPtr + 0x310, v &&& (0x00ffffff : Word) ||| BitVec.ofNat 32 i <<< 24⟩ = (BitVec.ofNat 8 i, s.2) := by
  rw [observe, if_pos rfl, destination]

theorem observe_command (s : Byte × List Ipi) (v : Word) :
    observe lapicPtr s ⟨lapicPtr + 0x300, v⟩ = (s.1, s.2 ++ [⟨s.1, kindOf v⟩]) := by
  have other : lapicPtr + 0x300 ≠ lapicPtr + 0x310 := by
    intro same
    exact absurd (add_left_cancel same) (by decide)
  rw [observe, if_neg other, if_pos rfl]

theorem observe_error (s : Byte × List Ipi) (v : Word) :
    observe lapicPtr s ⟨lapicPtr + 0x280, v⟩ = s := by
  have other (k : Word) (differs : (0x280 : Word) ≠ k) : lapicPtr + 0x280 ≠ lapicPtr + k := by
    intro same
    exact differs (add_left_cancel same)
  rw [observe, if_neg (other _ (by decide)), if_neg (other _ (by decide))]

theorem ipis_startupAp : ipis lapicPtr (startupAp io lapicPtr i trace) =
    (BitVec.ofNat 8 i, (ipis lapicPtr trace).2 ++ [⟨BitVec.ofNat 8 i, .startup⟩]) := by
  simp only [startupAp, selectAp, update, ipis_write, observe_error, observe_select, observe_command,
    kindOf_startup]

theorem ipis_initAp : ipis lapicPtr (initAp io lapicPtr i trace) =
    (BitVec.ofNat 8 i, (ipis lapicPtr trace).2 ++
      [⟨BitVec.ofNat 8 i, .init⟩, ⟨BitVec.ofNat 8 i, .deassert⟩]) := by
  simp only [initAp, selectAp, update, ipis_write, observe_error, observe_select, observe_command,
    kindOf_init, kindOf_deassert, List.append_assoc, List.cons_append, List.nil_append]

def sequence (dest : Byte) : List Ipi :=
  [⟨dest, .init⟩, ⟨dest, .deassert⟩, ⟨dest, .startup⟩, ⟨dest, .startup⟩]

theorem ipis_startAp : (ipis lapicPtr (startAp io lapicPtr i trace)).2 =
    (ipis lapicPtr trace).2 ++ sequence (BitVec.ofNat 8 i) := by
  simp only [startAp, ipis_startupAp, ipis_initAp, sequence, List.append_assoc, List.cons_append,
    List.nil_append]

theorem ipis_startAps : (ipis lapicPtr (startAps io lapicPtr bspid i ids trace)).2 =
    (ipis lapicPtr trace).2 ++ (positions bspid i ids).flatMap sequence := by
  induction ids generalizing i trace with
  | nil => simp [startAps, positions]
  | cons id ids ih =>
    rw [startAps, positions]
    split
    next => exact ih
    next => rw [ih, ipis_startAp, List.flatMap_cons, List.append_assoc]

theorem count_sequence (dests : List Byte) (dest : Byte) :
    (dests.flatMap sequence).count ⟨dest, .init⟩ = dests.count dest ∧
      (dests.flatMap sequence).count ⟨dest, .startup⟩ = 2 * dests.count dest := by
  induction dests with
  | nil => exact ⟨rfl, rfl⟩
  | cons d dests ih =>
    rw [List.flatMap_cons, List.count_append, List.count_append, ih.1, ih.2]
    obtain rfl | other := eq_or_ne d dest
    · simp [sequence]
      omega
    · simp [sequence, other]

theorem mem_sequence (dests : List Byte) (dest : Byte) :
    (∃ ipi ∈ dests.flatMap sequence, ipi.dest = dest) ↔ dest ∈ dests := by
  constructor
  · rintro ⟨ipi, mem, rfl⟩
    obtain ⟨d, hd, inside⟩ := List.mem_flatMap.mp mem
    simp only [sequence, List.mem_cons, List.not_mem_nil, or_false] at inside
    obtain rfl | rfl | rfl | rfl := inside
    all_goals exact hd
  · intro mem
    exact ⟨⟨dest, .init⟩, List.mem_flatMap.mpr ⟨dest, mem, List.mem_cons_self⟩, rfl⟩

def startedIpis (io : Device) (lapicPtr : Word) (bspid : Byte) (ids : List Byte) : List Ipi :=
  (ipis lapicPtr (startAps io lapicPtr bspid 0 ids [])).2

/-- The right processors are started if and only if the positions of the ids that are not
skipped are these ids, each of them once. -/
theorem startup_ok_iff : StartupOk ids bspid (startedIpis io lapicPtr bspid ids) ↔
    ∀ dest, (positions bspid 0 ids).count dest = if dest ∈ ids ∧ dest ≠ bspid then 1 else 0 := by
  have sent : startedIpis io lapicPtr bspid ids = (positions bspid 0 ids).flatMap sequence :=
    ipis_startAps
  rw [sent]
  constructor
  · intro ok dest
    split
    next target =>
      rw [← (count_sequence _ dest).1]
      exact ok.init dest target.1 target.2
    next spared =>
      refine List.count_eq_zero.mpr ?_
      intro mem
      exact spared ((ok.addressed dest).mp ((mem_sequence _ dest).mpr mem))
  · intro counts
    constructor
    case addressed =>
      intro dest
      rw [mem_sequence, ← List.count_pos_iff, counts dest]
      split
      next target => exact iff_of_true Nat.one_pos target
      next spared => exact iff_of_false (lt_irrefl 0) spared
    case init =>
      intro dest mem other
      rw [(count_sequence _ dest).1, counts dest, if_pos ⟨mem, other⟩]
    case startup =>
      intro dest mem other
      rw [(count_sequence _ dest).2, counts dest, if_pos ⟨mem, other⟩]

/-- With the ids 0 and 2 the second processor is looked for under the id 1. -/
theorem startup_misses :
    ¬ StartupOk [0, 2] 0 (startedIpis (fun _ _ => 0) 0xFEE00000 0 [0, 2]) := by
  intro ok
  have sent : startedIpis (fun _ _ => 0) 0xFEE00000 0 [0, 2] =
      (positions 0 0 [0, 2]).flatMap sequence := ipis_startAps
  have once := ok.init 2 (by decide) (by decide)
  rw [sent] at once
  exact absurd once (by decide)

end X86Os.Acpi
