import X86Os.Lai.NamespaceRuns

/-!
# The iterators of the namespace

One iterator goes through the table of all nodes, the other through the table of
a node's children. A removed node leaves a hole behind in both, which they pass
over.
-/

namespace X86Os.Lai

open Library.Memory Library.Runs Library.Slots Namespace
set_option autoImplicit false

variable {ns ns' : Namespace} {n p c : NodeId} {live : List NodeId}
  {tab : List (Option NodeId)} {i turns capacity : ℕ}

/-- The loop of both iterators from position `i` on, with the position after the answer. -/
def iterateTab (tab : List (Option NodeId)) : ℕ → ℕ → Except Stop (Option NodeId × ℕ)
  | 0, i => .ok (none, i)
  | left + 1, i => do
    match ← readAt tab i with
    | some n => .ok (some n, i + 1)
    | none => iterateTab tab left (i + 1)

def laiNsIterate (ns : Namespace) (i : ℕ) : Except Stop (Option NodeId × ℕ) :=
  iterateTab ns.nsArray (ns.nsArray.length - i) i

def laiNsChildIterate (ns : Namespace) (parent : NodeId) (i : ℕ) :
    Except Stop (Option NodeId × ℕ) :=
  let children := (ns.node parent).children
  iterateTab children.elemPtrTab (children.elemCapacity - i) i

/-- The nodes that an iterator gives before it answers with `NULL`; `none` stands for a loop that
has not ended within its turns. -/
def nodesOf (iterate : ℕ → Except Stop (Option NodeId × ℕ)) :
    ℕ → ℕ → Option (Except Stop (List NodeId))
  | 0, _ => none
  | turns + 1, i =>
    match iterate i with
    | .error how => some (.error how)
    | .ok (none, _) => some (.ok [])
    | .ok (some n, i) => (nodesOf iterate turns i).map fun rest => do
      let nodes ← rest
      .ok (n :: nodes)

/-! ### Going through a table -/

theorem iterateTab_cases {left : ℕ} (whole : i + left = tab.length) :
    ((tab.drop i).filterMap id = [] ∧ ∃ j, iterateTab tab left i = .ok (none, j)) ∨
      ∃ n j, i < j ∧ j ≤ tab.length ∧ iterateTab tab left i = .ok (some n, j) ∧
        (tab.drop i).filterMap id = n :: (tab.drop j).filterMap id := by
  induction left generalizing i with
  | zero =>
    have all : tab.drop i = [] := List.drop_eq_nil_of_le (by omega)
    exact .inl ⟨by rw [all]; rfl, i, rfl⟩
  | succ left ih =>
    have inside : i < tab.length := by omega
    have found := List.getElem?_eq_getElem inside
    rw [iterateTab, readAt_of found, ok_bind, List.drop_eq_getElem_cons inside]
    cases slot : tab[i] with
    | some n => exact .inr ⟨n, i + 1, by omega, by omega, rfl, rfl⟩
    | none =>
      obtain ⟨empty, ends⟩ | ⟨n, j, behind, bound, next, rest⟩ := ih (i := i + 1) (by omega)
      · exact .inl ⟨empty, ends⟩
      · exact .inr ⟨n, j, by omega, bound, next, rest⟩

theorem nodesOf_iterateTab (length : tab.length = capacity) (inside : i ≤ capacity)
    (enough : capacity - i < turns) :
    nodesOf (fun i => iterateTab tab (capacity - i) i) turns i =
      some (.ok ((tab.drop i).filterMap id)) := by
  induction turns generalizing i with
  | zero => omega
  | succ turns ih =>
    rw [nodesOf]
    have whole : i + (capacity - i) = tab.length := by omega
    obtain ⟨empty, j, ends⟩ | ⟨n, j, behind, bound, next, rest⟩ := iterateTab_cases whole
    · rw [ends, empty]
    · rw [next]
      dsimp only
      rw [ih (by omega) (by omega), rest]
      rfl

/-! ### Children -/

theorem Sound.elems {t : Hashtable NodeId} (sound : Sound t) :
    t.elemPtrTab.filterMap id = t.entries.map Prod.snd := by
  rw [← filterMap_range, sound.ptrs, Hashtable.entries, List.map_filterMap]
  refine List.filterMap_congr fun k member => ?_
  have inside : k < t.elemHashTab.length := by
    rw [sound.hashes]
    exact List.mem_range.mp member
  rw [Hashtable.entry, entryOf, List.getElem?_eq_getElem inside]
  cases t.elemPtrTab[k]? with
  | none => rfl
  | some slot => cases slot <;> rfl

/-- In every run the iterator over the children of a node gives exactly the nodes that were
installed below it and not removed since, each of them once. -/
theorem laiNsChildIterate_exact (run : namespaceRuns.Reach anyStep (ns, live))
    (inside : p < ns.size) (enough : (ns.node p).children.elemCapacity < turns) :
    ∃ nodes, nodesOf (laiNsChildIterate ns p) turns 0 = some (.ok nodes) ∧ nodes.Nodup ∧
      ∀ c, c ∈ nodes ↔ c ∈ live ∧ (ns.node c).parent = some p := by
  have kept := kept_of_run run
  obtain ⟨sound, kids, siblings⟩ := kept.tree.families p inside
  have given : nodesOf (laiNsChildIterate ns p) turns 0 =
      some (.ok ((ns.node p).children.elemPtrTab.filterMap id)) :=
    nodesOf_iterateTab sound.ptrs (Nat.zero_le _) enough
  rw [sound.elems] at given
  refine ⟨_, given, ?_, fun c => ?_⟩
  · have names : (((ns.node p).children.entries.map Prod.snd).map
        fun c => (ns.node c).name).Nodup := by
      rw [List.map_map]
      exact siblings
    exact names.of_map
  · rw [← kept.mem_iff inside, List.mem_map]
    constructor
    · rintro ⟨e, member, rfl⟩
      exact kept.tree.kid_of_mem inside member
    · intro kid
      exact ⟨_, kid, rfl⟩

theorem laiNsChildIterate_exact_of_scope : ∃ nodes,
    nodesOf (laiNsChildIterate withScope 0) 3 0 = some (.ok nodes) ∧ nodes.Nodup ∧
      ∀ c, c ∈ nodes ↔ c ∈ [1] ∧ (withScope.node c).parent = some 0 :=
  laiNsChildIterate_exact run_withScope (by decide) (by decide)

/-! ### All nodes -/

/-- A namespace beside its installed nodes and the nodes whose installation was refused because
their parent had a child of the same name. -/
def noteRefused : Namespace × List NodeId → NamespaceOp → Namespace × List NodeId →
    List NodeId → List NodeId
  | _, .remove _, _, refused => refused
  | (ns, live), _, (_, live'), refused => if live' = live then ns.size :: refused else refused

def installations : System ((Namespace × List NodeId) × List NodeId) NamespaceOp :=
  namespaceRuns.tracked (fun _ => []) noteRefused

variable {live' refused : List NodeId} {e : ApiError}

theorem kept_of_installations {s : (Namespace × List NodeId) × List NodeId}
    (run : installations.Reach anyStep s) : Kept s.1.1 s.1.2 := by
  have plain : namespaceRuns.Reach anyStep s.1 := by
    apply run.invariant (I := fun s => namespaceRuns.Reach anyStep s.1)
    · rintro s ⟨begin, _⟩
      exact .start begin
    · rintro s op t _ ih _ ⟨move, _⟩
      exact ih.next trivial move
  exact kept_of_run plain

structure ArrayKept (ns : Namespace) (live refused : List NodeId) : Prop where
  nodes : (ns.nsArray.filterMap id).Perm (live ++ refused)
  ordered : (ns.nsArray.filterMap id).Pairwise (· < ·)
  known : ∀ c ∈ ns.nsArray.filterMap id, c < ns.size ∧ (ns.node c).parent ≠ none

theorem nsArray_installed (installed : laiInstallNsnode ns n = .ok (ns', e)) :
    ns'.nsArray = ns.nsArray ++ [some n] ∧ ns'.size = ns.size ∧
      ∀ c, (ns'.node c).parent = (ns.node c).parent := by
  rw [laiInstallNsnode] at installed
  obtain refused | ⟨k, grown⟩ := growNsArray_cases ns
  · rw [refused] at installed
    cases installed
  rw [grown, ok_bind] at installed
  dsimp only at installed
  cases parent : (ns.node n).parent with
  | none =>
    rw [parent] at installed
    obtain ⟨rfl, rfl⟩ := Prod.mk.inj (Except.ok.inj installed)
    exact ⟨rfl, rfl, fun _ => rfl⟩
  | some p =>
    rw [parent] at installed
    obtain ⟨twin, _, installed⟩ := bind_eq_ok.mp installed
    cases twin with
    | some twin =>
      obtain ⟨rfl, rfl⟩ := Prod.mk.inj (Except.ok.inj installed)
      exact ⟨rfl, rfl, fun _ => rfl⟩
    | none =>
      obtain ⟨children, _, installed⟩ := bind_eq_ok.mp installed
      obtain ⟨rfl, rfl⟩ := Prod.mk.inj (Except.ok.inj installed)
      exact ⟨rfl, rfl, fun _ => setChildren_parent⟩

theorem nsArray_uninstalled (removed : laiUninstallNsnode ns n = .ok ns') :
    ns'.nsArray = ns.nsArray.map (fun x => if x = some n then none else x) ∧
      ns'.size = ns.size ∧ ∀ c, (ns'.node c).parent = (ns.node c).parent := by
  rw [laiUninstallNsnode] at removed
  dsimp only at removed
  cases parent : (ns.node n).parent with
  | none =>
    rw [parent] at removed
    obtain rfl := Except.ok.inj removed
    exact ⟨rfl, rfl, fun _ => rfl⟩
  | some p =>
    rw [parent] at removed
    obtain ⟨place, _, removed⟩ := bind_eq_ok.mp removed
    cases place with
    | none => cases removed
    | some i =>
      obtain ⟨children, _, removed⟩ := bind_eq_ok.mp removed
      obtain ⟨again, _, removed⟩ := bind_eq_ok.mp removed
      cases again with
      | some _ => cases removed
      | none =>
        obtain rfl := Except.ok.inj removed
        exact ⟨rfl, rfl, fun _ => setChildren_parent⟩

/-- A new node goes to the end of the table, whatever its installation results in. -/
theorem ArrayKept.install (kept : ArrayKept ns live refused) {node : Nsnode}
    (below : node.parent = some p)
    (installed : laiInstallNsnode (ns.create node) ns.size = .ok (ns', e)) :
    ArrayKept ns' (listed live ns.size e)
      (if listed live ns.size e = live then ns.size :: refused else refused) := by
  obtain ⟨nodes, ordered, known⟩ := kept
  obtain ⟨array, size, parents⟩ := nsArray_installed installed
  have longer : ns'.nsArray.filterMap id = ns.nsArray.filterMap id ++ [ns.size] := by
    rw [array, List.filterMap_append]
    rfl
  refine ⟨?_, ?_, fun c member => ?_⟩
  · rw [longer]
    have moved : (ns.nsArray.filterMap id ++ [ns.size]).Perm (ns.size :: (live ++ refused)) :=
      (List.perm_append_singleton _ _).trans (nodes.cons _)
    cases e with
    | none =>
      have longerList : listed live ns.size .none ≠ live := List.cons_ne_self _ _
      rw [if_neg longerList]
      exact moved
    | unexpectedResult =>
      rw [listed, if_pos rfl]
      exact moved.trans List.perm_middle.symm
  · rw [longer, List.pairwise_append]
    refine ⟨ordered, List.pairwise_singleton _ _, fun a old b last => ?_⟩
    rw [List.mem_singleton.mp last]
    exact (known a old).1
  · rw [size, parents]
    rw [longer, List.mem_append] at member
    obtain old | last := member
    · obtain ⟨inside, child⟩ := known c old
      rw [create_old node inside]
      exact ⟨Nat.lt_succ_of_lt inside, child⟩
    · rw [List.mem_singleton.mp last, create_new node, below]
      exact ⟨Nat.lt_succ_self _, Option.some_ne_none p⟩

theorem filterMap_holes (l : List (Option NodeId)) (n : NodeId) :
    (l.map fun x => if x = some n then none else x).filterMap id =
      (l.filterMap id).filter fun c => c != n := by
  rw [List.filterMap_map, List.filter_filterMap]
  refine List.filterMap_congr fun x _ => ?_
  cases x with
  | none => rfl
  | some c =>
    by_cases same : c = n
    · simp [same, Option.filter]
    · simp [same, Option.filter]

theorem ArrayKept.remove (kept : ArrayKept ns live refused) (tree : Kept ns live)
    (removed : laiUninstallNsnode ns n = .ok ns') (inside : n < ns.size) :
    ArrayKept ns' (live.erase n) refused := by
  obtain ⟨nodes, ordered, known⟩ := kept
  obtain ⟨array, size, parents⟩ := nsArray_uninstalled removed
  have shorter : ns'.nsArray.filterMap id = (ns.nsArray.filterMap id).filter fun c => c != n := by
    rw [array, filterMap_holes]
  have once : (live ++ refused).Nodup := nodes.nodup_iff.mp (ordered.imp ne_of_lt)
  -- The node was installed: a refused one is not in the table of its parent.
  have accepted : n ∉ refused := by
    intro refusedToo
    obtain ⟨_, child⟩ := known n (nodes.mem_iff.mpr (List.mem_append_right live refusedToo))
    obtain ⟨p, parent⟩ := Option.ne_none_iff_exists'.mp child
    have kid := kid_of_uninstalled tree.tree inside parent removed
    have within : p < ns.size := (tree.tree.parent_lt inside parent).1.trans inside
    exact List.disjoint_of_nodup_append once ((tree.exactly n).mpr ⟨p, within, kid⟩) refusedToo
  refine ⟨?_, ?_, fun c member => ?_⟩
  · rw [shorter]
    have rest := nodes.filter fun c => c != n
    have others : refused.filter (fun c => c != n) = refused :=
      List.filter_eq_self.mpr fun c member => bne_iff_ne.mpr fun same => accepted (same ▸ member)
    rw [List.filter_append, others, ← tree.once.erase_eq_filter] at rest
    exact rest
  · rw [shorter]
    exact ordered.filter _
  · rw [size, parents]
    rw [shorter] at member
    exact known c (List.mem_of_mem_filter member)

theorem arrayKept_of_run (run : installations.Reach anyStep ((ns, live), refused)) :
    ArrayKept ns live refused := by
  apply run.invariant (I := fun s => ArrayKept s.1.1 s.1.2 s.2)
  · rintro ⟨⟨ns, live⟩, refused⟩ ⟨begin, none_⟩
    obtain ⟨rfl, rfl⟩ := Prod.mk.inj begin
    dsimp only at none_
    subst none_
    exact ⟨.nil, .nil, fun c member => absurd member List.not_mem_nil⟩
  · rintro ⟨⟨ns, live⟩, refused⟩ op ⟨⟨ns', live'⟩, refused'⟩ run kept _ ⟨move, noted⟩
    dsimp only at kept noted ⊢
    rw [noted]
    cases op with
    | predefine object =>
      obtain ⟨_, e, installed, rfl⟩ := move
      exact kept.install rfl installed
    | define ctxHandle data type =>
      obtain ⟨_, _, e, defined, rfl⟩ := move
      obtain ⟨_, _, defined⟩ := bind_eq_ok.mp defined
      obtain ⟨_, _, defined⟩ := bind_eq_ok.mp defined
      obtain ⟨_, _, installed⟩ := bind_eq_ok.mp defined
      exact kept.install rfl installed
    | defineAlias ctxHandle target data =>
      obtain ⟨_, e, defined, rfl⟩ := move
      obtain ⟨_, _, defined⟩ := bind_eq_ok.mp defined
      obtain ⟨_, _, defined⟩ := bind_eq_ok.mp defined
      obtain ⟨_, _, defined⟩ := bind_eq_ok.mp defined
      obtain ⟨found, _, defined⟩ := bind_eq_ok.mp defined
      cases found with
      | none => cases defined
      | some m =>
        obtain ⟨_, _, installed⟩ := bind_eq_ok.mp defined
        exact kept.install rfl installed
    | remove node =>
      obtain ⟨inside, removed, rfl⟩ := move
      exact kept.remove (kept_of_installations run) removed inside

/-- In every run the iterator over all nodes gives, in the order of their creation, the nodes that
were installed and not removed since, and besides them all whose installation was refused. -/
theorem laiNsIterate_exact (run : installations.Reach anyStep ((ns, live), refused))
    (enough : ns.nsArray.length < turns) :
    ∃ nodes, nodesOf (laiNsIterate ns) turns 0 = some (.ok nodes) ∧ nodes.Pairwise (· < ·) ∧
      ∀ c, c ∈ nodes ↔ c ∈ live ∨ c ∈ refused := by
  obtain ⟨nodes, ordered, _⟩ := arrayKept_of_run run
  have given : nodesOf (laiNsIterate ns) turns 0 = some (.ok (ns.nsArray.filterMap id)) :=
    nodesOf_iterateTab rfl (Nat.zero_le _) enough
  exact ⟨_, given, ordered, fun c => nodes.mem_iff.trans List.mem_append⟩

def withTwin : Namespace :=
  { withScope.create ⟨nameOf '_' 'S' 'B' '_', .device, some 0, none, .zeroed⟩ with
    nsArray := [some 1, some 2] }

theorem run_withTwin : installations.Reach anyStep ((withTwin, [1]), [2]) := by
  have begin : installations.Reach anyStep ((rootOnly, []), []) := .start ⟨rfl, rfl⟩
  have first : installations.Reach anyStep ((withScope, [1]), []) :=
    .next (a := .predefine (nameOf '_' 'S' 'B' '_', .device)) begin trivial
      ⟨⟨by decide, .none, rfl, rfl⟩, rfl⟩
  exact .next (a := .predefine (nameOf '_' 'S' 'B' '_', .device)) first trivial
    ⟨⟨by decide, .unexpectedResult, rfl, rfl⟩, rfl⟩

theorem laiNsIterate_exact_of_twin : ∃ nodes,
    nodesOf (laiNsIterate withTwin) 3 0 = some (.ok nodes) ∧ nodes.Pairwise (· < ·) ∧
      ∀ c, c ∈ nodes ↔ c ∈ [1] ∨ c ∈ [2] :=
  laiNsIterate_exact run_withTwin (by decide)

end X86Os.Lai
