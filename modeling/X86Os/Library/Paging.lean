import X86Os.Library.Memory

/-!
# Two-level paging

A linear address has ten bits for the directory, ten for the table and twelve
for the place in its page. Bit 0 of an entry says that it is present, bit 1 that
it may be written through; the upper twenty bits name a page. Paging is on when
bit 31 of `cr0` is set, and `cr3` names the directory.
-/

namespace Library.Paging

open Library.Memory
set_option autoImplicit false

structure Controls where
  cr0 : Word
  cr3 : Word

structure Translation where
  address : Word
  writable : Bool
  deriving DecidableEq

def present (e : Word) : Bool := e.getLsbD 0

def writable (e : Word) : Bool := e.getLsbD 1

/-- The address of the page that an entry names. -/
def page (e : Word) : Word := e.extractLsb' 12 20 ++ 0#12

def entryAt (m : Mem) (e : Word) (i : BitVec 10) : Word :=
  load32 m (page e + BitVec.ofNat 32 (4 * i.toNat))

def walk (m : Mem) (cr3 a : Word) : Option Translation :=
  let pde := entryAt m cr3 (a.extractLsb' 22 10)
  let pte := entryAt m pde (a.extractLsb' 12 10)
  if present pde && present pte then
    some ⟨pte.extractLsb' 12 20 ++ a.extractLsb' 0 12, writable pde && writable pte⟩
  else none

def physical (m : Mem) (c : Controls) (a : Word) : Option Translation :=
  if c.cr0.getLsbD 31 then walk m c.cr3 a else some ⟨a, true⟩

variable {m : Mem} {cr3 a e table : Word}

theorem page_cut (e : Word) : e.extractLsb' 12 20 ++ e.extractLsb' 0 12 = e :=
  (BitVec.extractLsb'_append_extractLsb'_eq_extractLsb' rfl).trans BitVec.extractLsb'_eq_self

theorem page_aligned (aligned : e.extractLsb' 0 12 = 0) : page e = e := by
  have cut := page_cut e
  rwa [aligned] at cut

/-- With 3 an entry is present and writable, and it names the same page. -/
theorem entry_flags (e : Word) :
    present (e ||| 3) = true ∧ writable (e ||| 3) = true ∧
      (e ||| 3).extractLsb' 12 20 = e.extractLsb' 12 20 := by
  refine ⟨by simp [present], by simp [writable], ?_⟩
  have low : (3 : Word).extractLsb' 12 20 = 0 := by decide
  rw [BitVec.extractLsb'_or, low]
  exact BitVec.or_zero

/-- An address is its own translation if the entry of its page names that page. -/
theorem walk_identity (first : entryAt m cr3 (a.extractLsb' 22 10) = table ||| 3)
    (second : entryAt m table (a.extractLsb' 12 10) = e ||| 3)
    (own : e.extractLsb' 12 20 = a.extractLsb' 12 20) :
    walk m cr3 a = some ⟨a, true⟩ := by
  obtain ⟨present₁, writable₁, page₁⟩ := entry_flags table
  obtain ⟨present₂, writable₂, page₂⟩ := entry_flags e
  have same : entryAt m (table ||| 3) (a.extractLsb' 12 10) = e ||| 3 := by
    rw [← second, entryAt, page, page₁]
    rfl
  simp only [walk, first, same, present₁, present₂, writable₁, writable₂, page₂, own, page_cut,
    Bool.and_self, if_true]

theorem walk_absent (absent : present (entryAt m cr3 (a.extractLsb' 22 10)) = false) :
    walk m cr3 a = none := by
  rw [walk, absent]
  rfl

end Library.Paging
