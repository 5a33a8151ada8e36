import Mathlib.Data.List.Chain
import X86Os.Library.Memory
import X86Os.Library.PointerList

/-!
# The doubly linked lists of base/core/list.cpp

Entries are named by their addresses; `new` yields one that is in no entry of
the list, and `delete` leaves anything in its block. `add_entry` links the new
entry only when the old one has a successor, so that nothing ever comes behind
the first entry. `pop_entry` writes to the successor without asking for one.
-/

namespace X86Os.Lists

open Library.Memory Library.PointerList
set_option autoImplicit false

structure ListEntry where
  prev : Word
  next : Word
  data : Word
  deriving DecidableEq

abbrev Entries := Word → ListEntry

/-- `none` is the access through a null pointer. -/
def load (s : Entries) (p : Word) : Option ListEntry := if p = 0 then none else some (s p)

def modify (s : Entries) (p : Word) (f : ListEntry → ListEntry) : Option Entries :=
  if p = 0 then none else some (Function.update s p (f (s p)))

def genList (data list : Word) (s : Entries) : Entries := Function.update s list ⟨0, 0, data⟩

/-- The branch for a list that goes on. -/
def linkEntry (list2 list : Word) (s : Entries) : Option Entries := do
  let entry ← load s list
  if entry.next = 0 then return s
  let s ← modify s list2 fun e => { e with next := entry.next }
  let s ← modify s list fun e => { e with next := list2 }
  let entry2 ← load s list2
  modify s entry2.next fun e => { e with prev := list2 }

def addEntry (data list2 list : Word) (s : Entries) : Option Entries := do
  let s ← linkEntry list2 list (Function.update s list2 ⟨0, 0, 0⟩)
  modify s list2 fun e => { e with prev := list, data }

def unlinkEntry (entry : Word) (s : Entries) : Option Entries := do
  let e ← load s entry
  if e.prev = 0 then return s
  let s ← modify s e.prev fun prev => { prev with next := e.next }
  let e ← load s entry
  modify s e.next fun next => { next with prev := e.prev }

def popEntry (entry : Word) (left : ListEntry) (s : Entries) : Option Entries := do
  let s ← unlinkEntry entry s
  return Function.update s entry left

structure ListOk (s : Entries) (l : List Word) : Prop where
  chain : Chain (fun p => (s p).next) 0 (l.headD 0) l
  links : l.IsChain fun e e' => (s (s e).next).prev = e ∧ (s (s e').prev).next = e'

/-- A list as it can be given: the links back are those of the list, too. -/
structure Intact (s : Entries) (l : List Word) : Prop where
  chain : Chain (fun p => (s p).next) 0 (l.headD 0) l
  back : l.IsChain fun e e' => (s e').prev = e
  first : ∀ e ∈ l.head?, (s e).prev = 0

variable {s s' : Entries} {l l₁ l₂ : List Word} {e p a b data : Word} {left : ListEntry}
variable {f : ListEntry → ListEntry}

theorem load_some (notNull : p ≠ 0) : load s p = some (s p) := if_neg notNull

theorem modify_some (notNull : p ≠ 0) : modify s p f = some (Function.update s p (f (s p))) :=
  if_neg notNull

theorem listOk_of_back (chain : Chain (fun p => (s p).next) 0 (l.headD 0) l)
    (back : l.IsChain fun e e' => (s e').prev = e) : ListOk s l := by
  refine ⟨chain, ?_⟩
  rw [List.isChain_iff_forall_rel_of_append_cons_cons] at back ⊢
  rintro e e' l₁ l₂ rfl
  have next : (s e).next = e' := chain.next_eq
  have prev := back rfl
  rw [next, prev]
  exact ⟨rfl, next⟩

theorem Intact.listOk (intact : Intact s l) : ListOk s l := listOk_of_back intact.chain intact.back

theorem Intact.around (intact : Intact s (l₁ ++ a :: e :: l₂)) :
    (s a).next = e ∧ (s e).prev = a ∧ (s e).next = l₂.headD 0 := by
  have next : (s a).next = e := intact.chain.next_eq
  refine ⟨next, ?_, ?_⟩
  · exact List.isChain_iff_forall_rel_of_append_cons_cons.mp intact.back rfl
  · have chain := intact.chain
    rw [← List.singleton_append, ← List.append_assoc] at chain
    exact chain.next_eq

theorem Intact.notNull (intact : Intact s l) (mem : e ∈ l) : e ≠ 0 := by
  rintro rfl
  exact intact.chain.null_notMem mem

/-! ## Adding -/

def insertBetween (s : Entries) (e p b data : Word) : Entries :=
  Function.update (Function.update (Function.update s b { s b with prev := p }) e
    { s e with next := p }) p ⟨e, b, data⟩

theorem addEntry_linked (entryNotNull : e ≠ 0) (notNull : p ≠ 0) (next : (s e).next = b)
    (goesOn : b ≠ 0) (fresh : p ≠ e ∧ p ≠ b) (apart : e ≠ b) :
    addEntry data p e s = some (insertBetween s e p b data) := by
  obtain ⟨other, behind⟩ := fresh
  rw [addEntry, linkEntry, load_some entryNotNull, Function.update_of_ne other.symm]
  simp only [Option.bind_eq_bind, Option.bind_some, next, goesOn, if_false, modify_some notNull,
    modify_some entryNotNull, load_some notNull, Function.update_self, Function.update_of_ne other,
    modify_some goesOn, Option.some.injEq]
  funext x
  simp only [insertBetween, Function.update_apply]
  grind

theorem insertBetween_next {x : Word} (new : x ≠ p) (old : x ≠ e) :
    (insertBetween s e p b data x).next = (s x).next := by
  rw [insertBetween, Function.update_of_ne new, Function.update_of_ne old, Function.update_apply]
  split
  next same => rw [same]
  next => rfl

theorem insertBetween_prev {x : Word} (new : x ≠ p) (behind : x ≠ b) :
    (insertBetween s e p b data x).prev = (s x).prev := by
  rw [insertBetween, Function.update_of_ne new, Function.update_apply]
  split
  next same => rw [same]
  next => rw [Function.update_of_ne behind]

theorem not_mem_middle (distinct : (l₁ ++ e :: l₂).Nodup) : e ∉ l₁ ++ l₂ :=
  (List.nodup_cons.mp (List.nodup_middle.mp distinct)).1

theorem head_middle : (l₁ ++ e :: l₂).head? = (l₁ ++ [e]).head? := by
  cases l₁ <;> rfl

theorem headD_same (l₁ l₂ l : List Word) (e : Word) :
    (l₁ ++ e :: l₂).headD 0 = (l₁ ++ e :: l).headD 0 := by
  cases l₁ <;> rfl

theorem Intact.firstKept (intact : Intact s (l₁ ++ e :: l₂))
    (kept : ∀ x ∈ l₁ ++ [e], (s' x).prev = (s x).prev) :
    ∀ x ∈ (l₁ ++ e :: l).head?, (s' x).prev = 0 := by
  intro x hx
  rw [head_middle] at hx
  rw [kept x (List.mem_of_mem_head? hx)]
  apply intact.first
  rwa [head_middle]

theorem back_pieces (before : (l₁ ++ [e]).IsChain fun e e' => (s e').prev = e)
    (after : (b :: l₂).IsChain fun e e' => (s e').prev = e)
    (sameBefore : ∀ x ∈ l₁ ++ [e], (s' x).prev = (s x).prev)
    (sameAfter : ∀ x ∈ l₂, (s' x).prev = (s x).prev) :
    (l₁ ++ [e]).IsChain (fun e e' => (s' e').prev = e) ∧
      (b :: l₂).IsChain fun e e' => (s' e').prev = e := by
  constructor
  · apply before.imp_of_mem_imp
    intro x y _ hy prev
    rwa [sameBefore y hy]
  · apply after.imp_of_mem_tail_imp
    intro x y _ hy prev
    rwa [sameAfter y hy]

/-- An entry with a successor gets the new one behind it. -/
theorem addEntry_inner (intact : Intact s (l₁ ++ e :: b :: l₂)) (notNull : p ≠ 0)
    (fresh : p ∉ l₁ ++ e :: b :: l₂) :
    ∃ s', addEntry data p e s = some s' ∧ Intact s' (l₁ ++ e :: p :: b :: l₂) := by
  have next : (s e).next = b := intact.chain.next_eq
  have notE := not_mem_middle intact.chain.nodup
  have notB : b ∉ l₁ ++ [e] ++ l₂ := by
    apply not_mem_middle
    simpa using intact.chain.nodup
  obtain ⟨before, _, after⟩ := List.isChain_append_cons_cons.mp intact.back
  simp only [List.mem_append, List.mem_cons, List.not_mem_nil, or_false, not_or] at fresh notE notB
  obtain ⟨freshBefore, freshE, freshB, freshAfter⟩ := fresh
  obtain ⟨⟨bBefore, bE⟩, bAfter⟩ := notB
  have prev : ∀ x ∈ l₁ ++ [e], (insertBetween s e p b data x).prev = (s x).prev := by
    intro x hx
    apply insertBetween_prev
    · rintro rfl
      simp_all
    · rintro rfl
      simp_all
  obtain ⟨before', after'⟩ := back_pieces before after prev fun x hx => by
    apply insertBetween_prev
    · rintro rfl
      exact freshAfter hx
    · rintro rfl
      exact bAfter hx
  refine ⟨_, addEntry_linked (intact.notNull (by simp)) notNull next (intact.notNull (by simp))
    ⟨freshE, freshB⟩ (Ne.symm bE), ?_, ?_, ?_⟩
  · rw [headD_same l₁ (p :: b :: l₂) (b :: l₂)]
    apply intact.chain.insert notNull
    · intro x hx
      apply insertBetween_next
      · rintro rfl
        simp_all
      · rintro rfl
        simp_all
    · rw [insertBetween, Function.update_of_ne (Ne.symm freshE), Function.update_self]
    · rw [insertBetween, Function.update_self]
      exact next.symm
  · rw [List.isChain_append_cons_cons, List.isChain_cons_cons]
    refine ⟨before', ?_, ?_, after'⟩
    · rw [insertBetween, Function.update_self]
    · rw [insertBetween, Function.update_of_ne (Ne.symm freshB), Function.update_of_ne bE, Function.update_self]
  · exact intact.firstKept prev

theorem addEntry_last (data : Word) (intact : Intact s (l ++ [e])) (notNull : p ≠ 0)
    (fresh : p ∉ l ++ [e]) :
    ∃ s', addEntry data p e s = some s' ∧ ¬ListOk s' (l ++ [e, p]) := by
  have atEnd : (s e).next = 0 := intact.chain.next_eq
  have apart : e ≠ p := by
    rintro rfl
    exact fresh (by simp)
  refine ⟨Function.update s p ⟨e, 0, data⟩, ?_, ?_⟩
  · rw [addEntry, linkEntry, load_some (intact.notNull (by simp)), Function.update_of_ne apart]
    simp [atEnd, modify_some notNull]
  · intro ok
    have next : (Function.update s p ⟨e, 0, data⟩ e).next = p := ok.chain.next_eq
    rw [Function.update_of_ne apart, atEnd] at next
    exact notNull next.symm

/-! ## Removing -/

def removeBetween (s : Entries) (a e b : Word) (left : ListEntry) : Entries :=
  Function.update (Function.update (Function.update s a { s a with next := b }) b
    { s b with prev := a }) e left

theorem popEntry_linked (entryNotNull : e ≠ 0) (prev : (s e).prev = a) (next : (s e).next = b)
    (notFirst : a ≠ 0) (notLast : b ≠ 0) (apart : a ≠ e) (apart' : a ≠ b) :
    popEntry e left s = some (removeBetween s a e b left) := by
  rw [popEntry, unlinkEntry, load_some entryNotNull]
  simp only [Option.bind_eq_bind, Option.bind_some, prev, next, notFirst, if_false, modify_some notFirst,
    load_some entryNotNull, Function.update_of_ne apart.symm, modify_some notLast, Option.pure_def,
    Option.some.injEq]
  funext x
  simp only [removeBetween, Function.update_apply]
  grind

theorem removeBetween_next {x : Word} (before : x ≠ a) (old : x ≠ e) :
    (removeBetween s a e b left x).next = (s x).next := by
  rw [removeBetween, Function.update_of_ne old, Function.update_apply]
  split
  next same => rw [same]
  next => rw [Function.update_of_ne before]

theorem removeBetween_prev {x : Word} (behind : x ≠ b) (old : x ≠ e) :
    (removeBetween s a e b left x).prev = (s x).prev := by
  rw [removeBetween, Function.update_of_ne old, Function.update_of_ne behind, Function.update_apply]
  split
  next same => rw [same]
  next => rfl

theorem popEntry_inner (intact : Intact s (l₁ ++ a :: e :: b :: l₂)) :
    ∃ s', popEntry e left s = some s' ∧ Intact s' (l₁ ++ a :: b :: l₂) := by
  obtain ⟨_, prev, _⟩ := intact.around
  have next : (s e).next = b := intact.around.2.2
  have notA := not_mem_middle intact.chain.nodup
  have notE : e ∉ l₁ ++ [a] ++ b :: l₂ := by
    apply not_mem_middle
    simpa using intact.chain.nodup
  have notB : b ∉ l₁ ++ [a, e] ++ l₂ := by
    apply not_mem_middle
    simpa using intact.chain.nodup
  obtain ⟨before, _, after⟩ := List.isChain_append_cons_cons.mp intact.back
  simp only [List.mem_append, List.mem_cons, List.not_mem_nil, or_false, not_or] at notA notE notB
  obtain ⟨aBefore, aE, aB, aAfter⟩ := notA
  obtain ⟨⟨eBefore, eA⟩, eB, eAfter⟩ := notE
  obtain ⟨⟨bBefore, bA, bE⟩, bAfter⟩ := notB
  have kept : ∀ x ∈ l₁ ++ [a], (removeBetween s a e b left x).prev = (s x).prev := by
    intro x hx
    apply removeBetween_prev
    · rintro rfl
      simp_all
    · rintro rfl
      simp_all
  obtain ⟨before', after'⟩ := back_pieces before after.tail kept fun x hx => by
    apply removeBetween_prev
    · rintro rfl
      exact bAfter hx
    · rintro rfl
      exact eAfter hx
  refine ⟨_, popEntry_linked (intact.notNull (by simp)) prev next (intact.notNull (by simp))
    (intact.notNull (by simp)) aE aB, ?_, ?_, ?_⟩
  · rw [headD_same l₁ (b :: l₂) (e :: b :: l₂)]
    apply intact.chain.unlink
    · intro x hx
      apply removeBetween_next
      · rintro rfl
        simp_all
      · rintro rfl
        simp_all
    · rw [removeBetween, Function.update_of_ne aE, Function.update_of_ne aB, Function.update_self]
      exact next.symm
  · rw [List.isChain_append_cons_cons]
    refine ⟨before', ?_, after'⟩
    rw [removeBetween, Function.update_of_ne bE, Function.update_self]
  · exact intact.firstKept kept

/-- The first entry of a list is deleted, and no link is changed. -/
theorem popEntry_first (left : ListEntry) (intact : Intact s (e :: l)) :
    popEntry e left s = some (Function.update s e left) ∧ ListOk (Function.update s e left) l := by
  have first : (s e).prev = 0 := intact.first e rfl
  have notMem : e ∉ l := (List.nodup_cons.mp intact.chain.nodup).1
  constructor
  · rw [popEntry, unlinkEntry, load_some (intact.notNull (by simp))]
    simp [first]
  · obtain ⟨_, _, rest⟩ := Chain.cons_iff.mp intact.chain
    rw [rest.head_eq] at rest
    have kept : ∀ x ∈ l, Function.update s e left x = s x := by
      intro x hx
      apply Function.update_of_ne
      rintro rfl
      exact notMem hx
    apply listOk_of_back
    · apply rest.congr
      intro x hx
      rw [kept x hx]
    · apply intact.back.tail.imp_of_mem_imp
      intro x y _ hy prev
      rwa [kept y hy]

/-- Behind the last entry there is nothing to write to. -/
theorem popEntry_last (intact : Intact s (l ++ [a, e])) : popEntry e left s = none := by
  obtain ⟨_, prev, _⟩ := intact.around
  have last : (s e).next = 0 := intact.around.2.2
  have notFirst : a ≠ 0 := intact.notNull (by simp)
  have notNull : e ≠ 0 := intact.notNull (by simp)
  have apart : e ≠ a := by
    rintro rfl
    simpa using not_mem_middle intact.chain.nodup
  rw [popEntry, unlinkEntry, load_some notNull]
  simp only [Option.bind_eq_bind, Option.bind_some, prev, notFirst, if_false, modify_some notFirst,
    load_some notNull, Function.update_of_ne apart, last]
  rfl

end X86Os.Lists
