import X86Os.Library.Paging

/-!
# The page tables of base/memory/paging.cpp

`page_setup` marks every directory entry as not present, fills one table with the
first four megabytes, loads the directory and turns paging on. No entry of the
directory ever names the table. The texts it prints go to the screen and to
neither array.
-/

namespace X86Os.Memory

open Library.Memory Library.Paging
set_option autoImplicit false

/-- Where the linker puts the two arrays; `aligned(4096)` sets them on pages of their own. -/
structure Tables where
  pageDirectory : Word
  firstPageTable : Word
  directoryAligned : pageDirectory.extractLsb' 0 12 = 0
  tableAligned : firstPageTable.extractLsb' 0 12 = 0
  apart : pageDirectory ≠ firstPageTable

def fillDirectory (t : Tables) (m : Mem) : Mem := fillWords m t.pageDirectory (fun _ => 2) 1024

def tableEntry (i : Nat) : Word := (BitVec.ofNat 32 i * 0x1000) ||| 3

def fillTable (t : Tables) (m : Mem) : Mem := fillWords m t.firstPageTable tableEntry 1024

def loadPageDirectory (directory : Word) (c : Controls) : Controls := { c with cr3 := directory }

def enablePaging (c : Controls) : Controls := { c with cr0 := c.cr0 ||| 0x80000000 }

def pageSetup (t : Tables) (m : Mem) (c : Controls) : Mem × Controls :=
  (fillTable t (fillDirectory t m), enablePaging (loadPageDirectory t.pageDirectory c))

/-- What runs below four megabytes goes on behind the switch, and nothing is moved. -/
structure KernelMapped (m : Mem) (c : Controls) : Prop where
  low : ∀ a : Word, a.toNat < 0x400000 → physical m c a = some ⟨a, true⟩
  own : ∀ (a : Word) (r : Translation), physical m c a = some r → r.address = a

variable {t : Tables} {m : Mem} {c : Controls} {a j : Word} {i : BitVec 10}

theorem tables_apart {k : Word} (inside : j.toNat < 4096) (inside' : k.toNat < 4096) :
    t.pageDirectory + j ≠ t.firstPageTable + k := by
  intro same
  apply t.apart
  have directory := congrArg BitVec.toNat t.directoryAligned
  have table := congrArg BitVec.toNat t.tableAligned
  have sum := congrArg BitVec.toNat same
  rw [BitVec.extractLsb'_toNat, Nat.shiftRight_zero] at directory table
  rw [BitVec.toNat_add, BitVec.toNat_add] at sum
  have low := t.pageDirectory.isLt
  have low' := t.firstPageTable.isLt
  apply BitVec.eq_of_toNat_eq
  simp at directory table
  omega

theorem directory_outside (inside : j.toNat < 4096) :
    ¬Covers t.firstPageTable 4096 (t.pageDirectory + j) := by
  intro covered
  apply tables_apart inside covered
  ring

theorem place_toNat {k : Word} (hk : k.toNat < 4) :
    (BitVec.ofNat 32 (4 * i.toNat) + k).toNat < 4096 := by
  have index := i.isLt
  rw [BitVec.toNat_add, BitVec.toNat_ofNat]
  omega

theorem directory_entry :
    entryAt (fillTable t (fillDirectory t m)) t.pageDirectory i = 2 := by
  have index := i.isLt
  rw [entryAt, page_aligned t.directoryAligned]
  calc
    _ = load32 (fillDirectory t m) (t.pageDirectory + BitVec.ofNat 32 (4 * i.toNat)) := by
      apply load32_congr
      intro k hk
      apply fillWords_outside (by decide)
      rw [add_assoc]
      exact directory_outside (place_toNat hk)
    _ = 2 := load32_fillWords (by decide) (by omega)

theorem table_entry : entryAt (fillTable t m) t.firstPageTable i = tableEntry i.toNat := by
  have index := i.isLt
  rw [entryAt, page_aligned t.tableAligned]
  exact load32_fillWords (by decide) (by omega)

theorem paging_on : (pageSetup t m c).2.cr0.getLsbD 31 = true := by
  simp [pageSetup, enablePaging]

theorem directory_absent : present (entryAt (pageSetup t m c).1 t.pageDirectory i) = false := by
  have entry : entryAt (pageSetup t m c).1 t.pageDirectory i = 2 := directory_entry
  rw [entry]
  rfl

/-- Behind `page_setup` every access faults, the fetch of the next instruction included. -/
theorem nothing_mapped (a : Word) :
    physical (pageSetup t m c).1 (pageSetup t m c).2 a = none := by
  rw [physical, if_pos paging_on]
  apply walk_absent
  exact directory_absent

theorem kernel_unmapped (t : Tables) (m : Mem) (c : Controls) :
    ¬KernelMapped (pageSetup t m c).1 (pageSetup t m c).2 := by
  intro mapped
  have first := mapped.low 0 (by decide)
  rw [nothing_mapped] at first
  cases first

/-- The arrays in the second megabyte, above the code. -/
def sampleTables : Tables where
  pageDirectory := 0x00105000
  firstPageTable := 0x00106000
  directoryAligned := by decide
  tableAligned := by decide
  apart := by decide

/-- The first instruction of the image is out of reach. -/
theorem image_unmapped :
    ¬KernelMapped (pageSetup sampleTables (fun _ => 0) ⟨0x11, 0⟩).1
      (pageSetup sampleTables (fun _ => 0) ⟨0x11, 0⟩).2 ∧
    physical (pageSetup sampleTables (fun _ => 0) ⟨0x11, 0⟩).1
      (pageSetup sampleTables (fun _ => 0) ⟨0x11, 0⟩).2 0x00100000 = none := by
  refine ⟨?_, nothing_mapped _⟩
  intro mapped
  have image := mapped.low 0x00100000 (by decide)
  rw [nothing_mapped] at image
  cases image

/-! ## What the table would do -/

/-- The memory behind `page_directory[0] = first_page_table | 3`. -/
def linkTable (t : Tables) (m : Mem) : Mem := store32 m t.pageDirectory (t.firstPageTable ||| 3)

theorem tableEntry_page (low : a.toNat < 0x400000) :
    (BitVec.ofNat 32 (a.extractLsb' 12 10).toNat * 0x1000#32).extractLsb' 12 20 =
      a.extractLsb' 12 20 := by
  apply BitVec.eq_of_toNat_eq
  simp only [BitVec.extractLsb'_toNat, BitVec.toNat_mul, BitVec.toNat_ofNat, Nat.shiftRight_eq_div_pow]
  omega

theorem linkTable_first :
    entryAt (linkTable t m) t.pageDirectory 0 = t.firstPageTable ||| 3 := by
  rw [entryAt, page_aligned t.directoryAligned]
  show load32 _ (t.pageDirectory + 0) = _
  rw [add_zero]
  exact load32_store32 ..

theorem linkTable_directory (other : i ≠ 0) :
    entryAt (linkTable t m) t.pageDirectory i = entryAt m t.pageDirectory i := by
  have positive : i.toNat ≠ 0 := fun zero => other (BitVec.eq_of_toNat_eq zero)
  have index := i.isLt
  apply load32_congr
  intro k hk
  apply store32_outside
  rw [page_aligned t.directoryAligned, add_assoc, covers_add, BitVec.toNat_add, BitVec.toNat_ofNat]
  omega

theorem linkTable_table : entryAt (linkTable t m) t.firstPageTable i = entryAt m t.firstPageTable i := by
  apply load32_congr
  intro k hk
  apply store32_outside
  rw [page_aligned t.tableAligned, add_assoc]
  intro covered
  apply tables_apart (t := t) (Nat.lt_trans covered (by decide)) (place_toNat hk)
  ring

/-- The table is right: a directory that named it would keep the kernel mapped. -/
theorem mapped_if_linked :
    KernelMapped (linkTable t (pageSetup t m c).1) (pageSetup t m c).2 := by
  have identity : ∀ a : Word, a.toNat < 0x400000 →
      physical (linkTable t (pageSetup t m c).1) (pageSetup t m c).2 a = some ⟨a, true⟩ := by
    intro a low
    have zero : a.extractLsb' 22 10 = 0 := by
      apply BitVec.eq_of_toNat_eq
      simp only [BitVec.extractLsb'_toNat, Nat.shiftRight_eq_div_pow]
      simp
      omega
    rw [physical, if_pos paging_on]
    apply walk_identity
    · rw [zero]
      exact linkTable_first
    · exact linkTable_table.trans table_entry
    · exact tableEntry_page low
  refine ⟨identity, ?_⟩
  intro a r translated
  by_cases low : a.toNat < 0x400000
  · rw [identity a low] at translated
    cases translated
    rfl
  · have other : a.extractLsb' 22 10 ≠ 0 := by
      intro zero
      have zero := congrArg BitVec.toNat zero
      simp only [BitVec.extractLsb'_toNat, Nat.shiftRight_eq_div_pow] at zero
      have := a.isLt
      simp at zero
      omega
    have absent : walk (linkTable t (pageSetup t m c).1) t.pageDirectory a = none := by
      apply walk_absent
      rw [linkTable_directory other]
      exact directory_absent
    rw [physical, if_pos paging_on] at translated
    exact absurd (absent.symm.trans translated) (by simp)

end X86Os.Memory
