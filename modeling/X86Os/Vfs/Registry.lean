import Mathlib.Data.List.FinRange
import X86Os.Vfs.Drives

/-!
# Runs of the drive registry

The table behind a run of registrations holds the first sixteen drivers in the
order of their registration. From that follows exactly when the registry keeps
its promises.
-/

namespace X86Os.Vfs

open Library.Memory Libc
set_option autoImplicit false

variable {code : DriverCode} {drives : Drives} {d : FsDriver} {ds before after : List FsDriver}
variable {dev id : Word} {slot : Slot} {i : Slot}

/-- The dispatchers call the functions of `d` for `slot`. -/
structure Serves (code : DriverCode) (drives : Drives) (id : Word) (d : FsDriver) (slot : Slot) :
    Prop where
  own : slot.val = id.toNat
  readFile : ∀ path offset size, readFile code drives id path offset size =
    .ok ([.readFile d.readFile path offset size slot],
      code.readFile d.readFile path offset size slot)
  writeFile : ∀ path offset buf, writeFile code drives id path offset buf =
    .ok ([.writeFile d.writeFile path offset buf slot],
      code.writeFile d.writeFile path offset buf slot)
  iterateDir : ∀ path, iterateDir code drives id path =
    .ok ([.iterateDir d.iterateDir path slot], code.iterateDir d.iterateDir path slot)
  inspect : ∀ path, inspect code drives id path =
    .ok ([.inspect d.inspect path slot], code.inspect d.inspect path slot)

/-- The dispatchers return their empty results and call nobody. -/
structure Unserved (code : DriverCode) (drives : Drives) (id : Word) : Prop where
  readFile : ∀ path offset size, readFile code drives id path offset size = .ok ([], ⟨0, 0⟩)
  writeFile : ∀ path offset buf, writeFile code drives id path offset buf = .ok ([], false)
  iterateDir : ∀ path, iterateDir code drives id path = .ok ([], ⟨0, 0⟩)
  inspect : ∀ path, inspect code drives id path = .ok ([], zeroNode)

/-- What registration owes to driver `d` behind `before`, while `after` follows: an id of
its own that stays good, or an answer that no driver gets and no change. -/
def CallOk (code : DriverCode) (before : List FsDriver) (d : FsDriver) (after : List FsDriver) :
    Prop :=
  let drives := (registerAll before noDrives).2
  let (id, drives') := fsDriverRegister drives d
  (∀ b e a, before = b ++ e :: a → freeSlot (registerAll b noDrives).2 ≠ none →
      id ≠ (fsDriverRegister (registerAll b noDrives).2 e).1) ∧
      (∀ more, more <+: after → ∃ slot, Serves code (registerAll more drives').2 id d slot) ∨
    (∀ drives e, freeSlot drives ≠ none → (fsDriverRegister drives e).1 ≠ id) ∧ drives' = drives

structure RegistryOk (code : DriverCode) (ds : List FsDriver) (dev : Word) : Prop where
  calls : ∀ before d after, ds = before ++ d :: after → CallOk code before d after
  unknown : dev ∉ (registerAll ds noDrives).1 → Unserved code (registerAll ds noDrives).2 dev

def tableOf (ds : List FsDriver) : Drives := fun i => ds[i.val]?.getD (noDrives i)

theorem freeSlot_eq (free : (drives i).present = false) (taken : ∀ j < i, (drives j).present) :
    freeSlot drives = some i := by
  refine List.find?_eq_some_iff_getElem.mpr ⟨by simp [free], i.val, by simp, by simp, ?_⟩
  intro j hj
  have earlier : (⟨j, hj.trans i.isLt⟩ : Slot) < i := hj
  simpa using taken _ earlier

theorem freeSlot_full (taken : ∀ j, (drives j).present) : freeSlot drives = none := by
  refine List.find?_eq_none.mpr ?_
  intro j _
  simp [taken j]

theorem tableOf_present (present : ∀ d ∈ ds, d.present) :
    ((tableOf ds) i).present = decide (i.val < ds.length) := by
  unfold tableOf
  obtain inside | outside := Nat.lt_or_ge i.val ds.length
  · rw [List.getElem?_eq_getElem inside, Option.getD_some, present _ (List.getElem_mem inside)]
    simp [inside]
  · rw [List.getElem?_eq_none outside, Option.getD_none]
    simp [noDrives, outside]

theorem register_free (free : freeSlot drives = some i) :
    fsDriverRegister drives d = (BitVec.ofNat 32 i, Function.update drives i d) := by
  rw [fsDriverRegister, free]

theorem register_full (full : freeSlot drives = none) : fsDriverRegister drives d = (0, drives) := by
  rw [fsDriverRegister, full]

theorem freeSlot_tableOf (present : ∀ d ∈ ds, d.present) (room : ds.length < 16) :
    freeSlot (tableOf ds) = some ⟨ds.length, room⟩ := by
  refine freeSlot_eq ?_ ?_
  · rw [tableOf_present present]
    simp
  · intro j hj
    rw [tableOf_present present]
    exact decide_eq_true hj

theorem freeSlot_tableOf_full (present : ∀ d ∈ ds, d.present) (full : 16 ≤ ds.length) :
    freeSlot (tableOf ds) = none := by
  refine freeSlot_full ?_
  intro j
  rw [tableOf_present present]
  exact decide_eq_true (j.isLt.trans_le full)

theorem register_tableOf (present : ∀ d ∈ before, d.present) :
    (fsDriverRegister (tableOf before) d).2 = tableOf (before ++ [d]) := by
  obtain room | full := Nat.lt_or_ge before.length 16
  · rw [register_free (freeSlot_tableOf present room)]
    funext j
    dsimp only
    obtain rfl | other := eq_or_ne j ⟨before.length, room⟩
    · simp [tableOf]
    · have away : j.val ≠ before.length := fun same => other (Fin.ext same)
      rw [Function.update_of_ne other, tableOf, tableOf]
      obtain inside | outside := Nat.lt_or_gt_of_ne away
      · rw [List.getElem?_append_left inside]
      · rw [List.getElem?_eq_none outside.le, List.getElem?_eq_none]
        rw [List.length_append, List.length_singleton]
        omega
  · rw [register_full (freeSlot_tableOf_full present full)]
    funext j
    dsimp only
    rw [tableOf, tableOf, List.getElem?_append_left (j.isLt.trans_le full)]

theorem registerAll_table (present : ∀ d ∈ before ++ ds, d.present) :
    (registerAll ds (tableOf before)).2 = tableOf (before ++ ds) := by
  induction ds generalizing before with
  | nil => rw [List.append_nil]; rfl
  | cons d ds ih =>
    have first : ∀ e ∈ before, e.present := fun e he => present e (List.mem_append_left _ he)
    have rest : before ++ [d] ++ ds = before ++ d :: ds := by simp
    rw [registerAll]
    dsimp only
    rw [register_tableOf first, ih (rest ▸ present), rest]

/-- As long as there is room the ids count the registrations. -/
theorem registerAll_ids (present : ∀ d ∈ before ++ ds, d.present)
    (room : before.length + ds.length ≤ 16) :
    (registerAll ds (tableOf before)).1 =
      (List.range' before.length ds.length).map (BitVec.ofNat 32) := by
  induction ds generalizing before with
  | nil => rfl
  | cons d ds ih =>
    have first : ∀ e ∈ before, e.present := fun e he => present e (List.mem_append_left _ he)
    have rest : before ++ [d] ++ ds = before ++ d :: ds := by simp
    rw [List.length_cons] at room
    have free := freeSlot_tableOf first (by omega)
    rw [registerAll]
    dsimp only
    rw [register_tableOf first, ih (rest ▸ present) (by simp; omega), register_free free,
      List.length_append, List.length_singleton, List.length_cons, List.range'_succ, List.map_cons]

theorem register_lt : (fsDriverRegister drives d).1.toNat < 16 := by
  cases free : freeSlot drives with
  | none =>
    rw [register_full free]
    exact Nat.zero_lt_succ _
  | some i =>
    rw [register_free free, BitVec.toNat_ofNat]
    exact (Nat.mod_le _ _).trans_lt i.isLt

theorem registerAll_lt (mem : id ∈ (registerAll ds drives).1) : id.toNat < 16 := by
  induction ds generalizing drives with
  | nil => cases mem
  | cons d ds ih =>
    obtain rfl | later := List.mem_cons.mp mem
    · exact register_lt
    · exact ih later

theorem serves_of_present (own : slot.val = id.toNat) (here : drives slot = d)
    (present : d.present) : Serves code drives id d slot := by
  have inside : id.toNat < 16 := own ▸ slot.isLt
  have same : (⟨id.toNat, inside⟩ : Slot) = slot := Fin.ext own.symm
  have answers {α : Type} (empty : α) (call : FsDriver → Slot → DriverCall × α) :
      dispatch drives id empty call = .ok ([(call d slot).1], (call d slot).2) := by
    rw [dispatch, dif_pos inside]
    dsimp only
    rw [same, here, if_pos present]
  exact ⟨own, fun _ _ _ => answers .., fun _ _ _ => answers .., fun _ => answers ..,
    fun _ => answers ..⟩

theorem unserved_of_absent (inside : id.toNat < 16)
    (absent : (drives ⟨id.toNat, inside⟩).present = false) : Unserved code drives id := by
  have answers {α : Type} (empty : α) (call : FsDriver → Slot → DriverCall × α) :
      dispatch drives id empty call = .ok ([], empty) := by
    rw [dispatch, dif_pos inside]
    dsimp only
    rw [absent]
    rfl
  exact ⟨fun _ _ _ => answers .., fun _ _ _ => answers .., fun _ => answers ..,
    fun _ => answers ..⟩

theorem tableOf_nil : tableOf [] = noDrives := rfl

theorem table_noDrives (present : ∀ d ∈ ds, d.present) :
    (registerAll ds noDrives).2 = tableOf ds := by
  rw [← tableOf_nil, registerAll_table (by simpa using present), List.nil_append]

theorem callOk_of_room (present : ∀ e ∈ before ++ d :: after, e.present)
    (room : before.length < 16) : CallOk code before d after := by
  have first : ∀ e ∈ before, e.present := fun e he => present e (List.mem_append_left _ he)
  have rest : before ++ [d] ++ after = before ++ d :: after := by simp
  have free := freeSlot_tableOf first room
  unfold CallOk
  dsimp only
  rw [table_noDrives first]
  refine .inl ⟨?_, ?_⟩
  · intro b e a split _ same
    have shorter : b.length < before.length := by rw [split]; simp
    have presentB : ∀ e ∈ b, e.present := by
      intro e he
      exact first e (split ▸ List.mem_append_left _ he)
    rw [table_noDrives presentB, register_free free,
      register_free (freeSlot_tableOf presentB (by omega))] at same
    have lengths := congrArg BitVec.toNat same
    simp only [BitVec.toNat_ofNat] at lengths
    omega
  · intro more prior
    have presentMore : ∀ e ∈ before ++ [d] ++ more, e.present := by
      intro e he
      refine present e ?_
      rw [← rest]
      obtain early | late := List.mem_append.mp he
      · exact List.mem_append_left _ early
      · exact List.mem_append_right _ (prior.subset late)
    rw [register_tableOf first, registerAll_table presentMore, register_free free]
    refine ⟨⟨before.length, room⟩, serves_of_present ?_ ?_ ?_⟩
    · rw [BitVec.toNat_ofNat, Nat.mod_eq_of_lt (by omega)]
    · simp [tableOf]
    · exact present d (by simp)

theorem freeSlot_noDrives : freeSlot noDrives = some 0 := by decide

/-- The seventeenth driver gets the answer that the first one got. -/
theorem not_callOk_of_full (present : ∀ e ∈ before, e.present) (full : before.length = 16) :
    ¬ CallOk code before d after := by
  unfold CallOk
  dsimp only
  rw [table_noDrives present, register_full (freeSlot_tableOf_full present full.ge)]
  have some : freeSlot noDrives ≠ none := by rw [freeSlot_noDrives]; nofun
  rintro (⟨fresh, _⟩ | ⟨never, _⟩)
  · cases before with
    | nil => cases full
    | cons e before =>
      refine fresh [] e before rfl some ?_
      exact (congrArg Prod.fst (register_free freeSlot_noDrives)).symm
  · refine never noDrives d some ?_
    exact (congrArg Prod.fst (register_free freeSlot_noDrives)).trans rfl

/-- The registry keeps its promises for a run and a device id if and only if the run has at
most sixteen drivers and the id is below sixteen. -/
theorem registry_ok_iff (present : ∀ d ∈ ds, d.present) :
    RegistryOk code ds dev ↔ ds.length ≤ 16 ∧ dev.toNat < 16 := by
  constructor
  · intro ok
    constructor
    · by_contra more
      have split : ds = ds.take 16 ++ ds[16] :: ds.drop 17 := by simp
      refine not_callOk_of_full ?_ ?_ (ok.calls _ _ _ split)
      · exact fun d hd => present d (List.mem_of_mem_take hd)
      · rw [List.length_take]
        omega
    · by_contra outside
      have unknown := ok.unknown fun mem => outside (registerAll_lt mem)
      have read := unknown.readFile none 0 0
      rw [readFile, dispatch, dif_neg outside] at read
      cases read
  · rintro ⟨few, inside⟩
    constructor
    · rintro before d after rfl
      refine callOk_of_room present ?_
      rw [List.length_append, List.length_cons] at few
      omega
    · intro unknown
      refine unserved_of_absent inside ?_
      rw [table_noDrives present, tableOf_present present]
      refine decide_eq_false ?_
      intro taken
      refine unknown ?_
      rw [← tableOf_nil, registerAll_ids (by simpa using present) (by simpa using few)]
      refine List.mem_map.mpr ⟨dev.toNat, ?_, by simp⟩
      simpa [List.mem_range'] using taken

theorem registry_ok_two : RegistryOk quietCode [sampleDriver, sampleDriver] 1 :=
  (registry_ok_iff (by simp [sampleDriver])).mpr ⟨by decide, by decide⟩

/-- Seventeen drivers, and one driver with a device id behind the table. -/
theorem registry_broken : ¬ RegistryOk quietCode (List.replicate 17 sampleDriver) 0 ∧
    ¬ RegistryOk quietCode [sampleDriver] 16 := by
  constructor
  · intro ok
    refine not_callOk_of_full ?_ ?_ (ok.calls (List.replicate 16 sampleDriver) sampleDriver [] rfl)
    · intro e he
      rw [List.eq_of_mem_replicate he]
      rfl
    · exact List.length_replicate
  · intro ok
    have unknown := ok.unknown fun mem => absurd (registerAll_lt mem) (by decide)
    have read := unknown.readFile none 0 0
    cases read

end X86Os.Vfs
