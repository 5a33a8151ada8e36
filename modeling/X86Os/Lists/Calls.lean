import X86Os.Lists.Entries

/-!
# Sequences of list operations

What the operations should do is told by a sequence of addresses. On a list that
is intact a call does it if and only if the entry it is given is not the last
one, or is the first one and is removed. A list of `gen_list` has one entry only,
and no call puts another behind it.
-/

namespace X86Os.Lists

open Library.Memory Library.PointerList
set_option autoImplicit false

/-- An addition with the address that `new` yields; a removal with what the heap leaves in the
block. -/
inductive ListCall
  | add (data new entry : Word)
  | pop (entry : Word) (left : ListEntry)

namespace ListCall

def perform (s : Entries) : ListCall → Option Entries
  | add data new entry => addEntry data new entry s
  | pop entry left => popEntry entry left s

def model (l : List Word) : ListCall → List Word
  | add _ new entry => l.flatMap fun e => if e = entry then [e, new] else [e]
  | pop entry _ => l.filter (· ≠ entry)

/-- The entry is one of the list; a new block is in use by none. -/
def Allowed (l : List Word) : ListCall → Prop
  | add _ new entry => entry ∈ l ∧ new ≠ 0 ∧ new ∉ l
  | pop entry _ => entry ∈ l

def IsAdd : ListCall → Prop
  | add _ _ _ => True
  | pop _ _ => False

def KeepsTo (l : List Word) : ListCall → Prop
  | add _ _ entry => l.getLast? ≠ some entry
  | pop entry _ => l.head? = some entry ∨ l.getLast? ≠ some entry

def Inner (l : List Word) : ListCall → Prop
  | add _ _ entry => l.getLast? ≠ some entry
  | pop entry _ => l.head? ≠ some entry ∧ l.getLast? ≠ some entry

end ListCall

def Throughout (P : List Word → ListCall → Prop) : List Word → List ListCall → Prop
  | _, [] => True
  | l, c :: cs => P l c ∧ Throughout P (c.model l) cs

/-- Every call returns, and behind every call the list is what it should be. -/
def Behaves : Entries → List Word → List ListCall → Prop
  | s, l, [] => ListOk s l
  | s, l, c :: cs => ListOk s l ∧ ∃ s', c.perform s = some s' ∧ Behaves s' (c.model l) cs

variable {s s' : Entries} {l l₁ l₂ : List Word} {e p a b data : Word} {left : ListEntry}
variable {c : ListCall} {cs : List ListCall}

theorem Behaves.listOk (behaves : Behaves s l cs) : ListOk s l := by
  cases cs with
  | nil => exact behaves
  | cons c cs => exact behaves.1

theorem model_add (distinct : (l₁ ++ e :: l₂).Nodup) :
    (ListCall.add data p e).model (l₁ ++ e :: l₂) = l₁ ++ e :: p :: l₂ := by
  have notMem := not_mem_middle distinct
  rw [List.mem_append, not_or] at notMem
  have others : ∀ l : List Word, e ∉ l → (l.flatMap fun x => if x = e then [x, p] else [x]) = l := by
    intro l outside
    induction l with
    | nil => rfl
    | cons x l ih =>
      rw [List.mem_cons, not_or] at outside
      rw [List.flatMap_cons, ih outside.2, if_neg (Ne.symm outside.1)]
      rfl
  rw [ListCall.model, List.flatMap_append, List.flatMap_cons, others l₁ notMem.1, others l₂ notMem.2,
    if_pos rfl]
  rfl

theorem model_pop (distinct : (l₁ ++ e :: l₂).Nodup) :
    (ListCall.pop e left).model (l₁ ++ e :: l₂) = l₁ ++ l₂ := by
  have notMem := not_mem_middle distinct
  rw [List.mem_append, not_or] at notMem
  have others : ∀ l : List Word, e ∉ l → l.filter (· ≠ e) = l := by
    intro l outside
    rw [List.filter_eq_self]
    rintro x hx
    rw [decide_eq_true_iff]
    rintro rfl
    exact outside hx
  rw [ListCall.model, List.filter_append, List.filter_cons, others l₁ notMem.1, others l₂ notMem.2]
  simp

theorem model_pop_inner (distinct : (l₁ ++ a :: e :: l₂).Nodup) :
    (ListCall.pop e left).model (l₁ ++ a :: e :: l₂) = l₁ ++ a :: l₂ := by
  have split : l₁ ++ a :: e :: l₂ = l₁ ++ [a] ++ e :: l₂ := by simp
  rw [split] at distinct ⊢
  rw [model_pop distinct]
  simp

theorem last_ne (distinct : (l₁ ++ e :: b :: l₂).Nodup) : (l₁ ++ e :: b :: l₂).getLast? ≠ some e := by
  intro last
  have notMem := not_mem_middle distinct
  rw [List.getLast?_append_of_ne_nil _ (List.cons_ne_nil _ _), List.getLast?_cons_cons] at last
  exact notMem (List.mem_append_right _ (List.mem_of_getLast? last))

theorem head_ne (distinct : (l₁ ++ a :: e :: l₂).Nodup) : (l₁ ++ a :: e :: l₂).head? ≠ some e := by
  intro head
  rw [head_middle] at head
  have notMem : e ∉ l₁ ++ [a] ++ l₂ := by
    apply not_mem_middle
    simpa using distinct
  exact notMem (List.mem_append_left _ (List.mem_of_mem_head? head))

theorem place_cases (mem : e ∈ l) : (∃ l₂, l = e :: l₂) ∨ (∃ l₁ a, l = l₁ ++ [a, e]) ∨
    ∃ l₁ a b l₂, l = l₁ ++ a :: e :: b :: l₂ := by
  obtain ⟨l₁, l₂, rfl⟩ := List.append_of_mem mem
  obtain rfl | ⟨l₁, a, rfl⟩ := List.eq_nil_or_concat l₁
  · exact .inl ⟨l₂, rfl⟩
  · rw [List.concat_eq_append, List.append_assoc, List.singleton_append]
    cases l₂ with
    | nil => exact .inr (.inl ⟨l₁, a, rfl⟩)
    | cons b l₂ => exact .inr (.inr ⟨l₁, a, b, l₂, rfl⟩)

theorem call_inner (intact : Intact s l) (allowed : c.Allowed l) (inner : c.Inner l) :
    ∃ s', c.perform s = some s' ∧ Intact s' (c.model l) := by
  have distinct := intact.chain.nodup
  cases c with
  | add data p e =>
    obtain ⟨mem, notNull, fresh⟩ := allowed
    obtain ⟨l₁, l₂, rfl⟩ := List.append_of_mem mem
    rw [model_add distinct]
    cases l₂ with
    | nil => exact absurd List.getLast?_concat inner
    | cons b l₂ => exact addEntry_inner intact notNull fresh
  | pop e left =>
    obtain ⟨l₂, rfl⟩ | ⟨l₁, a, rfl⟩ | ⟨l₁, a, b, l₂, rfl⟩ := place_cases allowed
    · exact absurd rfl inner.1
    · exact absurd (by simp) inner.2
    · rw [model_pop_inner distinct]
      exact popEntry_inner intact

/-- A call on an intact list does what it should if and only if it is not one for the last entry,
or removes the first. -/
theorem call_ok_iff (intact : Intact s l) (allowed : c.Allowed l) :
    (∃ s', c.perform s = some s' ∧ ListOk s' (c.model l)) ↔ c.KeepsTo l := by
  have distinct := intact.chain.nodup
  constructor
  · rintro ⟨s', done, ok⟩
    cases c with
    | add data p e =>
      obtain ⟨mem, notNull, fresh⟩ := allowed
      intro last
      obtain ⟨l, rfl⟩ := List.getLast?_eq_some_iff.mp last
      obtain ⟨t, done', broken⟩ := addEntry_last data intact notNull fresh
      cases done.symm.trans done'
      rw [model_add distinct] at ok
      exact broken ok
    | pop e left =>
      obtain ⟨l₂, rfl⟩ | ⟨l₁, a, rfl⟩ | ⟨l₁, a, b, l₂, rfl⟩ := place_cases allowed
      · exact .inl rfl
      · have fault : popEntry e left s = none := popEntry_last intact
        cases fault.symm.trans done
      · right
        have split : l₁ ++ a :: e :: b :: l₂ = l₁ ++ [a] ++ e :: b :: l₂ := by simp
        rw [split] at distinct ⊢
        exact last_ne distinct
  · intro keeps
    cases c with
    | add data p e =>
      obtain ⟨s', done, intact'⟩ := call_inner intact allowed keeps
      exact ⟨s', done, intact'.listOk⟩
    | pop e left =>
      obtain ⟨l₂, rfl⟩ | other := place_cases allowed
      · obtain ⟨done, ok⟩ := popEntry_first left intact
        refine ⟨_, done, ?_⟩
        rwa [← List.nil_append (e :: l₂), model_pop distinct]
      · have notFirst : l.head? ≠ some e := by
          obtain ⟨l₁, a, rfl⟩ | ⟨l₁, a, b, l₂, rfl⟩ := other
          all_goals exact head_ne distinct
        obtain ⟨s', done, intact'⟩ := call_inner intact allowed ⟨notFirst, keeps.resolve_left notFirst⟩
        exact ⟨s', done, intact'.listOk⟩

/-- Calls between the ends do what they should, however many they are. -/
theorem calls_inner (intact : Intact s l) (allowed : Throughout (fun l c => c.Allowed l) l cs)
    (inner : Throughout (fun l c => c.Inner l) l cs) : Behaves s l cs := by
  induction cs generalizing s l with
  | nil => exact intact.listOk
  | cons c cs ih =>
    obtain ⟨s', done, intact'⟩ := call_inner intact allowed.1 inner.1
    exact ⟨intact.listOk, s', done, ih intact' allowed.2 inner.2⟩

/-! ## Lists of `gen_list` -/

theorem genList_intact (data : Word) (notNull : p ≠ 0) (s : Entries) :
    Intact (genList data p s) [p] := by
  have entry : genList data p s p = ⟨0, 0, data⟩ := Function.update_self ..
  refine ⟨?_, .singleton _, ?_⟩
  · rw [Chain.cons_iff, Chain.nil_iff, entry]
    exact ⟨rfl, notNull, rfl⟩
  · rintro e ⟨⟩
    rw [entry]

/-- A sequence of calls on a list of `gen_list` does what it should if and only if it adds
nothing. -/
theorem list_ok_iff (data : Word) (notNull : p ≠ 0) (s : Entries)
    (allowed : Throughout (fun l c => c.Allowed l) [p] cs) :
    Behaves (genList data p s) [p] cs ↔ ∀ c ∈ cs, ¬c.IsAdd := by
  have intact := genList_intact data notNull s
  cases cs with
  | nil => exact iff_of_true intact.listOk (by simp)
  | cons c cs =>
    obtain ⟨first, rest⟩ := allowed
    cases c with
    | add data p' e =>
      obtain rfl := List.mem_singleton.mp first.1
      refine iff_of_false ?_ ?_
      · rintro ⟨_, s', done, behaves⟩
        exact (call_ok_iff intact first).mp ⟨s', done, behaves.listOk⟩ rfl
      · intro none
        exact none _ List.mem_cons_self trivial
    | pop e left =>
      obtain rfl := List.mem_singleton.mp first
      have empty : (ListCall.pop e left).model [e] = [] := by simp [ListCall.model]
      rw [empty] at rest
      obtain rfl : cs = [] := by
        cases cs with
        | nil => rfl
        | cons c cs =>
          cases c with
          | add data p' e' => exact absurd rest.1.1 List.not_mem_nil
          | pop e' left' => exact absurd rest.1 List.not_mem_nil
      refine iff_of_true ⟨intact.listOk, ?_⟩ (by simp [ListCall.IsAdd])
      exact (call_ok_iff intact first).mpr (.inl rfl)

/-- Two entries behind the first one, and the removal of the first of the two. -/
def threeCalls : List ListCall :=
  [.add 8 0x2000 0x1000, .add 9 0x3000 0x1000, .pop 0x3000 ⟨0, 0, 0⟩]

theorem threeCalls_allowed : Throughout (fun l c => c.Allowed l) [0x1000] threeCalls := by
  refine ⟨⟨?_, ?_, ?_⟩, ⟨?_, ?_, ?_⟩, ?_, trivial⟩
  all_goals simp [ListCall.model, ListCall.Allowed]

theorem list_ok_iff_calls :
    Throughout (fun l c => c.Allowed l) [0x1000] threeCalls ∧
    ¬Behaves (genList 7 0x1000 fun _ => ⟨0, 0, 0⟩) [0x1000] threeCalls ∧
    Behaves (genList 7 0x1000 fun _ => ⟨0, 0, 0⟩) [0x1000] [.pop 0x1000 ⟨0, 0, 0⟩] := by
  refine ⟨threeCalls_allowed, fun behaves => ?_, ?_⟩
  · exact (list_ok_iff 7 (by decide) _ threeCalls_allowed).mp behaves _ List.mem_cons_self trivial
  · have allowed : Throughout (fun l c => c.Allowed l) [0x1000] [.pop 0x1000 ⟨0, 0, 0⟩] :=
      ⟨List.mem_singleton_self _, trivial⟩
    refine (list_ok_iff 7 (by decide) _ allowed).mpr fun c here => ?_
    rw [List.mem_singleton.mp here]
    exact id

/-- The second entry of a list is never linked, and to remove it the null pointer is followed. -/
theorem entry_unlinked :
    (¬∀ (data p : Word) (s : Entries) (cs : List ListCall), p ≠ 0 →
      Throughout (fun l c => c.Allowed l) [p] cs → Behaves (genList data p s) [p] cs) ∧
    ((addEntry 8 0x2000 0x1000 (genList 7 0x1000 fun _ => ⟨0, 0, 0⟩)).map fun s => s 0x1000) =
      some ⟨0, 0, 7⟩ ∧
    ((addEntry 8 0x2000 0x1000 (genList 7 0x1000 fun _ => ⟨0, 0, 0⟩)).bind
      (popEntry 0x2000 ⟨0, 0, 0⟩)).isNone = true := by
  refine ⟨?_, by decide, by decide⟩
  intro claim
  have allowed : Throughout (fun l c => c.Allowed l) [0x1000] [.add 8 0x2000 0x1000] :=
    ⟨⟨List.mem_singleton_self _, by decide, by decide⟩, trivial⟩
  obtain ⟨_, s', done, ok⟩ := claim 7 0x1000 (fun _ => ⟨0, 0, 0⟩) _ (by decide) allowed
  have intact := genList_intact 7 (by decide : (0x1000 : Word) ≠ 0) fun _ => ⟨0, 0, 0⟩
  obtain ⟨t, done', broken⟩ : ∃ t, addEntry 8 0x2000 0x1000 _ = some t ∧ ¬ListOk t ([] ++ [0x1000, 0x2000]) :=
    addEntry_last 8 intact (by decide) (by decide)
  cases done.symm.trans done'
  exact broken ok

end X86Os.Lists
