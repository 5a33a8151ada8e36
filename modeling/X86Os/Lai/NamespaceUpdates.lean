import X86Os.Lai.NamespaceTree

/-!
# Walks through the tree, and changes of it

Every walk of the resolver ends at a node, never at an alias. Installing a node
adds one child to the table of its parent or leaves the tables as they are;
a child can be taken out again.
-/

namespace X86Os.Lai

open Library.Memory Namespace
set_option autoImplicit false

variable {ns ns' : Namespace} {n p c s : NodeId} {name : Nameseg} {turns : Nat}
  {amln : Amlname} {t : Hashtable NodeId}

/-! ### Walks through the tree -/

theorem Namespace.Tree.parent_lt (tree : ns.Tree) (inside : n < ns.size)
    (parent : (ns.node n).parent = some p) : p < n ∧ (ns.node p).type ≠ .aliased := by
  obtain ⟨none, _⟩ | ⟨q, parent', older, real⟩ := tree.parents n inside
  · rw [none] at parent
    cases parent
  · obtain rfl := Option.some.inj (parent'.symm.trans parent)
    exact ⟨older, real⟩

theorem Namespace.Tree.root_of_orphan (tree : ns.Tree) (inside : n < ns.size)
    (orphan : (ns.node n).parent = none) : n = ns.rootNode ∧ (ns.node n).type = .root := by
  obtain ⟨_, rfl⟩ | ⟨q, parent, _⟩ := tree.parents n inside
  · exact ⟨rfl, tree.rootNode.2⟩
  · rw [parent] at orphan
    cases orphan

theorem climbToRoot_spec (tree : ns.Tree) (inside : n < ns.size) (enough : n < turns) :
    climbToRoot ns turns n = .ok ns.rootNode := by
  induction turns generalizing n with
  | zero => exact absurd enough (Nat.not_lt_zero n)
  | succ turns ih =>
    rw [climbToRoot]
    cases parent : (ns.node n).parent with
    | none =>
      obtain ⟨rfl, root⟩ := tree.root_of_orphan inside parent
      dsimp only
      rw [laiEnsure_of root, ok_bind]
    | some p =>
      obtain ⟨older, _⟩ := tree.parent_lt inside parent
      exact ih (older.trans inside) (Nat.lt_of_lt_of_le older (Nat.le_of_lt_succ enough))

theorem climb_spec (tree : ns.Tree) (inside : n < ns.size) (real : (ns.node n).type ≠ .aliased)
    (height : Nat) :
    ∃ s, climb ns height n = .ok s ∧ s < ns.size ∧ (ns.node s).type ≠ .aliased := by
  induction height generalizing n with
  | zero => exact ⟨n, rfl, inside, real⟩
  | succ height ih =>
    rw [climb]
    cases parent : (ns.node n).parent with
    | none =>
      obtain ⟨_, root⟩ := tree.root_of_orphan inside parent
      dsimp only
      rw [laiEnsure_of root, ok_bind]
      exact ⟨n, rfl, inside, real⟩
    | some p =>
      obtain ⟨older, real'⟩ := tree.parent_lt inside parent
      exact ih (older.trans inside) real'

theorem startOf_spec (tree : ns.Tree) (inside : c < ns.size) (real : (ns.node c).type ≠ .aliased)
    (amln : Amlname) :
    ∃ s, startOf ns c amln = .ok s ∧ s < ns.size ∧ (ns.node s).type ≠ .aliased := by
  rw [startOf]
  split_ifs with absolute
  · rw [climbToRoot_spec tree inside (Nat.lt_succ_self c), ok_bind]
    obtain ⟨within, root⟩ := tree.rootNode
    exact climb_spec tree within (by rw [root]; decide) _
  · exact climb_spec tree inside real _

theorem throughAlias_spec (tree : ns.Tree) (inside : n < ns.size) :
    ∃ m, throughAlias ns n = .ok m ∧ m < ns.size ∧ (ns.node m).type ≠ .aliased ∧
      ((ns.node n).type ≠ .aliased → m = n) := by
  rw [throughAlias]
  split_ifs with isAlias
  · obtain ⟨m, target, inside', real⟩ := tree.aliases n inside isAlias
    rw [target]
    dsimp only
    rw [laiEnsure_of real, ok_bind]
    exact ⟨m, rfl, inside', real, fun not => absurd isAlias not⟩
  · exact ⟨n, rfl, inside, isAlias, fun _ => rfl⟩

theorem Namespace.Tree.kid_lt (tree : ns.Tree) (inside : p < ns.size) (kid : ns.Kid p c) :
    c < ns.size ∧ (ns.node c).parent = some p :=
  ((tree.families p inside).kids _ kid).2

/-- A child that was found by name. -/
theorem kid_of_getChild (tree : ns.Tree) (inside : p < ns.size)
    (found : laiNsGetChild ns p name = .ok (some c)) : ns.Kid p c ∧ (ns.node c).name = name := by
  obtain ⟨r, got, exactly⟩ := tree.getChild inside name
  exact (exactly c).mp (Except.ok.inj (got.symm.trans found))

theorem followToParent_sound (tree : ns.Tree) (inside : s < ns.size)
    (real : (ns.node s).type ≠ .aliased) (found : followToParent ns turns amln s = .ok (p, name)) :
    p < ns.size ∧ (ns.node p).type ≠ .aliased := by
  induction turns generalizing s amln with
  | zero => cases found
  | succ turns ih =>
    obtain ⟨⟨segment, rest⟩, _, found⟩ := bind_eq_ok.mp found
    dsimp only at found
    split_ifs at found with last
    · obtain ⟨rfl, _⟩ := Prod.mk.inj (Except.ok.inj found)
      exact ⟨inside, real⟩
    · obtain ⟨child, got, found⟩ := bind_eq_ok.mp found
      cases child with
      | none => cases found
      | some child =>
        obtain ⟨m, through, found⟩ := bind_eq_ok.mp found
        obtain ⟨kid, _⟩ := kid_of_getChild tree inside got
        obtain ⟨m', through', inside', real', _⟩ :=
          throughAlias_spec tree (tree.kid_lt inside kid).1
        obtain rfl := Except.ok.inj (through'.symm.trans through)
        exact ih inside' real' found

theorem laiDoResolveNewNode_sound (tree : ns.Tree) (inside : c < ns.size)
    (found : laiDoResolveNewNode ns c amln = .ok (p, name)) :
    p < ns.size ∧ (ns.node p).type ≠ .aliased := by
  obtain ⟨_, real, found⟩ := bind_eq_ok.mp found
  obtain ⟨s, start, found⟩ := bind_eq_ok.mp found
  obtain ⟨_, _, found⟩ := bind_eq_ok.mp found
  obtain ⟨s', start', inside', real'⟩ := startOf_spec tree inside (laiEnsure_eq_ok.mp real) amln
  obtain rfl := Except.ok.inj (start'.symm.trans start)
  exact followToParent_sound tree inside' real' found

theorem followSegs_sound (tree : ns.Tree) (inside : s < ns.size)
    (found : followSegs ns turns amln s = .ok (some c)) : c < ns.size := by
  induction turns generalizing s amln with
  | zero =>
    obtain rfl := Option.some.inj (Except.ok.inj found)
    exact inside
  | succ turns ih =>
    rw [followSegs] at found
    split_ifs at found with done
    · obtain rfl := Option.some.inj (Except.ok.inj found)
      exact inside
    · obtain ⟨⟨segment, rest⟩, _, found⟩ := bind_eq_ok.mp found
      obtain ⟨child, got, found⟩ := bind_eq_ok.mp found
      cases child with
      | none => cases found
      | some child =>
        obtain ⟨kid, _⟩ := kid_of_getChild tree inside got
        exact ih (tree.kid_lt inside kid).1 found

theorem searchScopes_sound (tree : ns.Tree) (inside : s < ns.size)
    (found : searchScopes ns name turns s = .ok (some c)) :
    c < ns.size ∧ (ns.node c).type ≠ .aliased := by
  induction turns generalizing s with
  | zero => cases found
  | succ turns ih =>
    obtain ⟨child, got, found⟩ := bind_eq_ok.mp found
    cases child with
    | some child =>
      obtain ⟨m, through, found⟩ := bind_eq_ok.mp found
      obtain ⟨kid, _⟩ := kid_of_getChild tree inside got
      obtain ⟨m', through', inside', real', _⟩ := throughAlias_spec tree (tree.kid_lt inside kid).1
      obtain rfl := Except.ok.inj (through'.symm.trans through)
      obtain rfl := Option.some.inj (Except.ok.inj found)
      exact ⟨inside', real'⟩
    | none =>
      cases parent : (ns.node s).parent with
      | none =>
        rw [parent] at found
        cases found
      | some p =>
        rw [parent] at found
        exact ih ((tree.parent_lt inside parent).1.trans inside) found

theorem laiDoResolve_sound (tree : ns.Tree) (inside : s < ns.size)
    (found : laiDoResolve ns s amln = .ok (some c)) : c < ns.size ∧ (ns.node c).type ≠ .aliased := by
  obtain ⟨_, real, found⟩ := bind_eq_ok.mp found
  obtain search | path := Bool.eq_false_or_eq_true amln.searchScopes
  · rw [if_pos search] at found
    obtain ⟨⟨segment, rest⟩, _, found⟩ := bind_eq_ok.mp found
    obtain ⟨_, _, found⟩ := bind_eq_ok.mp found
    exact searchScopes_sound tree inside found
  · rw [path, if_neg Bool.false_ne_true] at found
    obtain ⟨start, started, found⟩ := bind_eq_ok.mp found
    obtain ⟨s', started', inside', real'⟩ := startOf_spec tree inside (laiEnsure_eq_ok.mp real) amln
    obtain rfl := Except.ok.inj (started'.symm.trans started)
    split_ifs at found with done
    · obtain rfl := Option.some.inj (Except.ok.inj found)
      exact ⟨inside', real'⟩
    · obtain ⟨last, followed, found⟩ := bind_eq_ok.mp found
      cases last with
      | none => cases found
      | some last =>
        obtain ⟨m, through, found⟩ := bind_eq_ok.mp found
        obtain ⟨m', through', inside'', real'', _⟩ :=
          throughAlias_spec tree (followSegs_sound tree inside' followed)
        obtain rfl := Except.ok.inj (through'.symm.trans through)
        obtain rfl := Option.some.inj (Except.ok.inj found)
        exact ⟨inside'', real''⟩

/-! ### Installing and removing -/

theorem growNsArray_cases (ns : Namespace) :
    growNsArray ns = .error .refused ∨
      ∃ k, growNsArray ns = .ok { ns with nsCapacity := k } := by
  obtain full | roomy := eq_or_ne ns.nsArray.length ns.nsCapacity
  · rw [growNsArray, if_pos full]
    generalize (if ns.nsCapacity * 2 = 0 then 128 else ns.nsCapacity * 2) = k
    have whole : ns.nsArray.take (4 * ns.nsCapacity / 4) = ns.nsArray :=
      List.take_of_length_le (by omega)
    dsimp only
    rw [laihostRealloc, laihostMalloc, whole]
    split_ifs
    · exact .inr ⟨k, rfl⟩
    · exact .inl rfl
  · rw [growNsArray, if_neg roomy]
    exact .inr ⟨ns.nsCapacity, rfl⟩

/-- The outcomes of installing a node. -/
theorem laiInstallNsnode_spec (tree : ns.Tree) (inside : n < ns.size)
    (parent : (ns.node n).parent = some p) :
    laiInstallNsnode ns n = .error .refused ∨ ∃ arr k,
      (∃ twin, ns.Kid p twin ∧ (ns.node twin).name = (ns.node n).name ∧
        laiInstallNsnode ns n =
          .ok ({ ns with nsArray := arr, nsCapacity := k }, .unexpectedResult)) ∨
      ∃ t, laiInstallNsnode ns n =
          .ok ({ ns with nsArray := arr, nsCapacity := k }.setChildren p t, .none) ∧
        (∀ twin, ns.Kid p twin → (ns.node twin).name ≠ (ns.node n).name) ∧ ns.Family p t ∧
          t.contents = (laiHashString (ns.node n).name, n) ::ₘ (ns.node p).children.contents := by
  have inside' : p < ns.size := (tree.parent_lt inside parent).1.trans inside
  rw [laiInstallNsnode]
  obtain refused | ⟨k, grown⟩ := growNsArray_cases ns
  · left
    rw [refused]
    rfl
  rw [grown, ok_bind]
  dsimp only
  rw [parent]
  dsimp only
  obtain ⟨found, search, exactly⟩ := tree.find_kid inside' (ns.node n).name
  rw [search, ok_bind]
  cases found with
  | some twin =>
    obtain ⟨kid, same⟩ := (exactly twin).mp rfl
    exact .inr ⟨_, k, .inl ⟨twin, kid, same, rfl⟩⟩
  | none =>
    have alone (twin : NodeId) (kid : ns.Kid p twin) : (ns.node twin).name ≠ (ns.node n).name :=
      fun same => nomatch (exactly twin).mpr ⟨kid, same⟩
    obtain ⟨sound, kids, siblings⟩ := tree.families p inside'
    dsimp only
    obtain refused | ⟨t, inserted, sound', contents⟩ :=
      laiHashtableInsert_spec sound (laiHashString (ns.node n).name) n
    · left
      rw [refused]
      rfl
    · refine .inr ⟨_, k, .inr ⟨t, by rw [inserted]; rfl, alone, ⟨sound', ?_, ?_⟩, contents⟩⟩
      · intro e he
        rw [contents] at he
        obtain rfl | old := Multiset.mem_cons.mp he
        · exact ⟨rfl, inside, parent⟩
        · exact kids e old
      · rw [contents, Multiset.map_cons, Multiset.nodup_cons]
        refine ⟨fun twin => ?_, siblings⟩
        obtain ⟨e, he, same⟩ := Multiset.mem_map.mp twin
        exact alone e.2 (tree.kid_of_mem inside' he) same

/-- A node that is in the tree can be taken out of it. -/
theorem laiUninstallNsnode_spec (tree : ns.Tree) (inside : p < ns.size) (kid : ns.Kid p n) :
    ∃ arr t, laiUninstallNsnode ns n = .ok ({ ns with nsArray := arr }.setChildren p t) ∧
      ns.Family p t ∧
        (ns.node p).children.contents = (laiHashString (ns.node n).name, n) ::ₘ t.contents := by
  obtain ⟨within, parent⟩ := tree.kid_lt inside kid
  obtain ⟨sound, kids, siblings⟩ := tree.families p inside
  rw [laiUninstallNsnode]
  dsimp only
  rw [parent]
  dsimp only
  obtain ⟨i, bound, hit⟩ := (tree.kid_iff_hit inside).mp kid
  obtain ⟨nowhere, every⟩ | ⟨j, elem, answer, found, bound', hit', visited⟩ := overChain_cases
    sound (laiHashString (ns.node n).name) (fun i child => if child = n then some i else none)
  · have missed := every i bound n hit
    rw [if_pos rfl] at missed
    cases missed
  · split_ifs at visited with same
    obtain rfl := Option.some.inj visited
    subst same
    obtain ⟨t, removed, sound', left⟩ := laiHashtableChainRemove_spec sound bound' hit'
    rw [left, Multiset.map_cons, Multiset.nodup_cons] at siblings
    have gone : ∀ h, (h, elem) ∉ t.contents := fun h member =>
      siblings.1 (Multiset.mem_map.mpr ⟨(h, elem), member, rfl⟩)
    have sizes : t.bucketCapacity = (ns.node p).children.bucketCapacity := by
      obtain ⟨_, _, done⟩ := bind_eq_ok.mp removed
      rw [← Except.ok.inj done]
    have once : chainLoop t (laiHashString (ns.node elem).name)
        (fun _ child => if child = elem then some child else none) (t.bucketCapacity + 1) (j + 1) =
          .ok none := by
      have rest : j + 1 + (t.bucketCapacity - (j + 1)) = t.bucketCapacity := by omega
      rw [chainLoop_spec sound' _ _ rest (by omega), List.findSome?_eq_none_iff.mpr]
      intro q hq
      obtain ⟨bounds, met⟩ := mem_hits.mp hq
      apply if_neg
      intro same
      rw [same] at met
      exact gone _ (sound'.mem_contents_iff.mpr ⟨q.1, by omega, met⟩)
    rw [found, ok_bind]
    dsimp only
    rw [removed, ok_bind, once]
    refine ⟨_, t, rfl, ⟨sound', ?_, siblings.2⟩, left⟩
    intro e he
    exact kids e (by rw [left]; exact Multiset.mem_cons_of_mem he)

end X86Os.Lai
