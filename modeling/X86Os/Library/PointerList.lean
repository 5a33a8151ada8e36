import Mathlib.Data.List.Nodup

/-!
# Singly linked lists in a pointer store

The store is seen through its `next` map only. A segment lists the nodes met
on the way from one pointer to another; a chain is a segment to the null
pointer that never passes it. The two edits of a list, appending a node and
unlinking one, are stated for any store that agrees with the old one elsewhere.
-/

namespace Library.PointerList
set_option autoImplicit false

variable {ι : Type*} {next next' : ι → ι} {null p q : ι} {l l₁ l₂ : List ι}

def Segment (next : ι → ι) : ι → List ι → ι → Prop
  | p, [], q => p = q
  | p, a :: l, q => p = a ∧ Segment next (next a) l q

structure Chain (next : ι → ι) (null p : ι) (l : List ι) : Prop where
  segment : Segment next p l null
  null_notMem : null ∉ l

theorem segment_append :
    Segment next p (l₁ ++ l₂) q ↔ ∃ r, Segment next p l₁ r ∧ Segment next r l₂ q := by
  induction l₁ generalizing p with
  | nil => simp [Segment]
  | cons a l₁ ih => simp [Segment, ih, and_assoc]

theorem segment_congr (same : ∀ a ∈ l, next' a = next a) :
    Segment next' p l q ↔ Segment next p l q := by
  induction l generalizing p with
  | nil => rfl
  | cons a l ih =>
    rw [Segment, Segment, same a List.mem_cons_self]
    exact and_congr_right fun _ => ih fun b hb => same b (List.mem_cons_of_mem _ hb)

theorem segment_snoc {a t : ι} (h : Segment next p (l ++ [a]) q)
    (same : ∀ b ∈ l, next' b = next b) (link : next' a = t) :
    Segment next' p (l ++ [a] ++ [t]) (next' t) := by
  obtain ⟨r, before, rfl, _⟩ := segment_append.mp h
  refine segment_append.mpr ⟨t, ?_, rfl, rfl⟩
  exact segment_append.mpr ⟨r, (segment_congr same).mpr before, rfl, link⟩

/-- From every node of a segment but the last one leads a link to a node of the segment. -/
theorem segment_next_mem {a b : ι} (h : Segment next p (l ++ [b]) q) (ha : a ∈ l) :
    next a ∈ l ++ [b] := by
  obtain ⟨l₁, l₂, rfl⟩ := List.append_of_mem ha
  rw [List.append_assoc] at h
  obtain ⟨r, _, rfl, rest⟩ := segment_append.mp h
  cases l₂ with
  | nil =>
    rw [rest.1]
    simp
  | cons c l₂ =>
    rw [rest.1]
    simp

namespace Chain

theorem nil_iff : Chain next null p [] ↔ p = null :=
  ⟨fun h => h.segment, fun h => ⟨h, List.not_mem_nil⟩⟩

theorem cons_iff {a : ι} :
    Chain next null p (a :: l) ↔ p = a ∧ a ≠ null ∧ Chain next null (next a) l := by
  constructor
  · rintro ⟨⟨hp, segment⟩, notMem⟩
    rw [List.mem_cons, not_or] at notMem
    exact ⟨hp, fun h => notMem.1 h.symm, segment, notMem.2⟩
  · rintro ⟨hp, ha, segment, notMem⟩
    exact ⟨⟨hp, segment⟩, by simp [notMem, Ne.symm ha]⟩

/-- A store determines the list that hangs from a pointer. -/
theorem unique (h₁ : Chain next null p l₁) (h₂ : Chain next null p l₂) : l₁ = l₂ := by
  induction l₁ generalizing p l₂ with
  | nil =>
    cases l₂ with
    | nil => rfl
    | cons b l₂ =>
      obtain ⟨hb, hne, _⟩ := cons_iff.mp h₂
      exact absurd (hb.symm.trans (nil_iff.mp h₁)) hne
  | cons a l₁ ih =>
    cases l₂ with
    | nil =>
      obtain ⟨ha, hne, _⟩ := cons_iff.mp h₁
      exact absurd (ha.symm.trans (nil_iff.mp h₂)) hne
    | cons b l₂ =>
      obtain ⟨ha, _, tail₁⟩ := cons_iff.mp h₁
      obtain ⟨hb, _, tail₂⟩ := cons_iff.mp h₂
      obtain rfl : a = b := ha.symm.trans hb
      rw [ih tail₁ tail₂]

/-- A chain ends, so it never comes back to a node. -/
theorem nodup (h : Chain next null p l) : l.Nodup := by
  induction l generalizing p with
  | nil => exact List.nodup_nil
  | cons a l ih =>
    obtain ⟨_, hne, tail⟩ := cons_iff.mp h
    refine List.nodup_cons.mpr ⟨?_, ih tail⟩
    intro again
    obtain ⟨l₁, l₂, rfl⟩ := List.append_of_mem again
    obtain ⟨r, _, rfl, rest⟩ := segment_append.mp tail.segment
    have notMem := tail.null_notMem
    simp only [List.mem_append, List.mem_cons, not_or] at notMem
    have short : Chain next null (next r) l₂ := ⟨rest, notMem.2.2⟩
    have lengths := congrArg List.length (tail.unique short)
    simp only [List.length_append, List.length_cons] at lengths
    omega

theorem congr (same : ∀ a ∈ l, next' a = next a) (h : Chain next null p l) :
    Chain next' null p l := ⟨(segment_congr same).mpr h.segment, h.null_notMem⟩

/-- The pointer behind a node of the list is the node after it, or null. -/
theorem next_eq {a : ι} (h : Chain next null p (l₁ ++ a :: l₂)) :
    next a = l₂.headD null := by
  obtain ⟨r, _, rfl, segment⟩ := segment_append.mp h.segment
  cases l₂ with
  | nil => exact segment
  | cons b l₂ => exact segment.1

theorem next_mem {a : ι} (h : Chain next null p l) (ha : a ∈ l) :
    next a = null ∨ next a ∈ l := by
  obtain ⟨l₁, l₂, rfl⟩ := List.append_of_mem ha
  rw [h.next_eq]
  cases l₂ with
  | nil => exact .inl rfl
  | cons b l₂ => exact .inr (by simp)

theorem last_of_next {a : ι} (h : Chain next null p l) (ha : a ∈ l) (last : next a = null) :
    ∃ l₁, l = l₁ ++ [a] := by
  obtain ⟨l₁, l₂, rfl⟩ := List.append_of_mem ha
  rw [h.next_eq] at last
  cases l₂ with
  | nil => exact ⟨l₁, rfl⟩
  | cons b l₂ =>
    obtain rfl : b = null := last
    exact absurd (by simp) h.null_notMem

theorem head_eq (h : Chain next null p l) : p = l.headD null := by
  cases l with
  | nil => exact h.segment
  | cons a l => exact h.segment.1

/-- A node that takes over the link of another one stands behind it. -/
theorem insert {a t : ι} (h : Chain next null p (l₁ ++ a :: l₂)) (ht : t ≠ null)
    (same : ∀ b ∈ l₁ ++ l₂, next' b = next b) (link : next' a = t) (rest : next' t = next a) :
    Chain next' null p (l₁ ++ a :: t :: l₂) := by
  obtain ⟨r, before, rfl, after⟩ := segment_append.mp h.segment
  have notMem := h.null_notMem
  simp only [List.mem_append, List.mem_cons, not_or] at notMem
  refine ⟨?_, by simp [notMem, Ne.symm ht]⟩
  refine segment_append.mpr ⟨r, ?_, rfl, link, ?_⟩
  · exact (segment_congr fun b hb => same b (List.mem_append_left _ hb)).mpr before
  · rw [rest]
    exact (segment_congr fun b hb => same b (List.mem_append_right _ hb)).mpr after

/-- Storing a new node behind the last one appends it. -/
theorem snoc {a t : ι} (h : Chain next null p (l ++ [a])) (ht : t ≠ null)
    (same : ∀ b ∈ l, next' b = next b) (link : next' a = t) (last : next' t = null) :
    Chain next' null p (l ++ [a] ++ [t]) := by
  have stop : next' t = next a := last.trans h.next_eq.symm
  rw [List.append_assoc]
  apply h.insert ht ?_ link stop
  rwa [List.append_nil]

/-- Pointing a node past its successor unlinks the successor. -/
theorem unlink {a c : ι} (h : Chain next null p (l₁ ++ a :: c :: l₂))
    (same : ∀ b ∈ l₁ ++ l₂, next' b = next b) (link : next' a = next c) :
    Chain next' null p (l₁ ++ a :: l₂) := by
  obtain ⟨r, before, rfl, _, after⟩ := segment_append.mp h.segment
  have notMem := h.null_notMem
  simp only [List.mem_append, List.mem_cons, not_or] at notMem
  refine ⟨?_, by simp [notMem]⟩
  refine segment_append.mpr ⟨r, ?_, rfl, ?_⟩
  · exact (segment_congr fun b hb => same b (List.mem_append_left _ hb)).mpr before
  · rw [link]
    exact (segment_congr fun b hb => same b (List.mem_append_right _ hb)).mpr after

end Chain

end Library.PointerList
