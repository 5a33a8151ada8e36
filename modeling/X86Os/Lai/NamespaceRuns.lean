import X86Os.Lai.NamespaceUpdates

/-!
# Definitions and removals over a run

Whatever is defined and removed, the namespace stays a tree, and looking up a
child by name finds exactly the node that was installed there under that name
and not removed since.
-/

namespace X86Os.Lai

open Library.Memory Library.Runs Namespace
set_option autoImplicit false

variable {ns ns' : Namespace} {n p c : NodeId} {name : Nameseg}
  {t : Hashtable NodeId} {live : List NodeId}

def Namespace.Installed (ns : Namespace) (c : NodeId) : Prop := ∃ p < ns.size, ns.Kid p c

theorem installed_create (tree : ns.Tree) {node : Nsnode} (empty : node.children = .zeroed) :
    (ns.create node).Installed c ↔ ns.Installed c := by
  constructor
  · rintro ⟨p, inside, kid⟩
    obtain old | rfl := Nat.lt_succ_iff_lt_or_eq.mp inside
    · rw [Kid, create_old node old] at kid
      exact ⟨p, old, tree.kid_of_mem old kid⟩
    · rw [Kid, create_new node, empty] at kid
      exact absurd kid (Multiset.notMem_zero _)
  · rintro ⟨p, inside, kid⟩
    refine ⟨p, Nat.lt_succ_of_lt inside, ?_⟩
    rwa [Kid, create_old node inside, create_old node (tree.kid_lt inside kid).1]

/-- One more entry in the table of `p` is one more installed node. -/
theorem installed_setChildren {arr : List (Option NodeId)} {k : Nat} (inside : p < ns.size)
    (contents : t.contents = (laiHashString (ns.node n).name, n) ::ₘ (ns.node p).children.contents) :
    ({ ns with nsArray := arr, nsCapacity := k }.setChildren p t).Installed c ↔
      c = n ∨ ns.Installed c := by
  have here (q : NodeId) :
      ({ ns with nsArray := arr, nsCapacity := k }.setChildren p t).Kid q c ↔
        ns.Kid q c ∨ q = p ∧ c = n := by
    rw [Kid, setChildren_name]
    obtain rfl | other := eq_or_ne q p
    · rw [setChildren_same, contents, Multiset.mem_cons, Prod.mk.injEq]
      constructor
      · rintro (⟨_, same⟩ | old)
        · exact .inr ⟨rfl, same⟩
        · exact .inl old
      · rintro (old | ⟨_, rfl⟩)
        · exact .inr old
        · exact .inl ⟨rfl, rfl⟩
    · rw [setChildren_of_ne other]
      exact ⟨.inl, fun either => either.resolve_right fun both => other both.1⟩
  constructor
  · rintro ⟨q, bound, kid⟩
    obtain old | ⟨_, same⟩ := (here q).mp kid
    · exact .inr ⟨q, bound, old⟩
    · exact .inl same
  · rintro (rfl | ⟨q, bound, old⟩)
    · exact ⟨p, inside, (here p).mpr (.inr ⟨rfl, rfl⟩)⟩
    · exact ⟨q, bound, (here q).mpr (.inl old)⟩

/-! ### Runs -/

/-- What happens to the namespace while tables are loaded and methods are run. -/
inductive NamespaceOp
  | predefine (object : Nameseg × NodeType)
  | define (ctxHandle : NodeId) (data : List Byte) (type : NodeType)
  | defineAlias (ctxHandle : NodeId) (target data : List Byte)
  | remove (node : NodeId)

def listed (live : List NodeId) (node : NodeId) : ApiError → List NodeId
  | .none => node :: live
  | .unexpectedResult => live

/-- A namespace beside the nodes that were installed successfully and not removed. -/
def namespaceRuns : System (Namespace × List NodeId) NamespaceOp where
  init s := s = (rootOnly, [])
  step
    | (ns, live), .predefine object, (ns', live') => object ∈ predefined ∧
      ∃ e, laiInstallNsnode (ns.create ⟨object.1, object.2, some ns.rootNode, none, .zeroed⟩)
        ns.size = .ok (ns', e) ∧ live' = listed live ns.size e
    | (ns, live), .define ctxHandle data type, (ns', live') =>
      ctxHandle < ns.size ∧ type ≠ .aliased ∧
        ∃ e, defineNode ns ctxHandle data type = .ok (ns', e) ∧ live' = listed live ns.size e
    | (ns, live), .defineAlias ctxHandle target data, (ns', live') => ctxHandle < ns.size ∧
      ∃ e, defineAlias ns ctxHandle target data = .ok (ns', e) ∧ live' = listed live ns.size e
    | (ns, live), .remove node, (ns', live') => node < ns.size ∧
      laiUninstallNsnode ns node = .ok ns' ∧ live' = live.erase node

structure Kept (ns : Namespace) (live : List NodeId) : Prop where
  tree : ns.Tree
  once : live.Nodup
  exactly : ∀ c, c ∈ live ↔ ns.Installed c

theorem rootOnly_tree : rootOnly.Tree where
  rootNode := ⟨by decide, rfl⟩
  parents n hn := .inl ⟨rfl, Nat.lt_one_iff.mp hn⟩
  aliases n hn isAlias := by cases isAlias
  families p hp := ⟨.zeroed, fun e he => absurd he (Multiset.notMem_zero e), Multiset.nodup_zero⟩

theorem Kept.begin : Kept rootOnly [] where
  tree := rootOnly_tree
  once := List.nodup_nil
  exactly c := by
    constructor
    · intro member
      cases member
    · rintro ⟨p, _, kid⟩
      exact absurd kid (Multiset.notMem_zero _)

/-- A new node below a node of the tree, whatever its installation results in. -/
theorem Kept.install (kept : Kept ns live) {node : Nsnode} (below : node.parent = some p)
    (inside : p < ns.size) (real : (ns.node p).type ≠ .aliased) (empty : node.children = .zeroed)
    (target : node.type = .aliased →
      ∃ m, node.alTarget = some m ∧ m < ns.size ∧ (ns.node m).type ≠ .aliased)
    {e : ApiError} (installed : laiInstallNsnode (ns.create node) ns.size = .ok (ns', e)) :
    Kept ns' (listed live ns.size e) := by
  have tree := kept.tree.create below inside real empty target
  have parent : ((ns.create node).node ns.size).parent = some p := by rw [create_new, below]
  have created : ∀ c, c ∈ live ↔ (ns.create node).Installed c :=
    fun c => (kept.exactly c).trans (installed_create kept.tree empty).symm
  have fresh : ns.size ∉ live := by
    intro member
    obtain ⟨q, bound, kid⟩ := (kept.exactly _).mp member
    exact lt_irrefl _ (kept.tree.kid_lt bound kid).1
  obtain refused | ⟨arr, k, ⟨twin, _, _, rejected⟩ | ⟨t, done, _, family, contents⟩⟩ :=
    laiInstallNsnode_spec tree (Nat.lt_succ_self _) parent
  · rw [refused] at installed
    cases installed
  · rw [rejected] at installed
    obtain ⟨rfl, rfl⟩ := Prod.mk.inj (Except.ok.inj installed)
    exact ⟨⟨tree.rootNode, tree.parents, tree.aliases,
      fun q hq => ⟨(tree.families q hq).sound, (tree.families q hq).kids,
        (tree.families q hq).siblings⟩⟩, kept.once, created⟩
  · rw [done] at installed
    obtain ⟨rfl, rfl⟩ := Prod.mk.inj (Except.ok.inj installed)
    have within : p < (ns.create node).size := Nat.lt_succ_of_lt inside
    refine ⟨?_, List.nodup_cons.mpr ⟨fresh, kept.once⟩, fun c => ?_⟩
    · exact Tree.setChildren ⟨tree.rootNode, tree.parents, tree.aliases,
        fun q hq => ⟨(tree.families q hq).sound, (tree.families q hq).kids,
          (tree.families q hq).siblings⟩⟩ ⟨family.sound, family.kids, family.siblings⟩
    · rw [installed_setChildren within contents, ← created, listed, List.mem_cons]

theorem Kept.rootNode (kept : Kept ns live) :
    ns.rootNode < ns.size ∧ (ns.node ns.rootNode).type ≠ .aliased := by
  obtain ⟨inside, root⟩ := kept.tree.rootNode
  exact ⟨inside, by rw [root]; decide⟩

theorem Kept.predefine (kept : Kept ns live) {object : Nameseg × NodeType}
    (member : object ∈ predefined) {e : ApiError}
    (installed : laiInstallNsnode
      (ns.create ⟨object.1, object.2, some ns.rootNode, none, .zeroed⟩) ns.size = .ok (ns', e)) :
    Kept ns' (listed live ns.size e) := by
  obtain ⟨inside, real⟩ := kept.rootNode
  have plain : ∀ o ∈ predefined, o.2 ≠ .aliased := by decide
  exact kept.install rfl inside real rfl (fun isAlias => absurd isAlias (plain _ member)) installed

theorem Kept.define (kept : Kept ns live) {data : List Byte} {type : NodeType} {e : ApiError}
    (inside : c < ns.size) (plain : type ≠ .aliased)
    (defined : defineNode ns c data type = .ok (ns', e)) :
    Kept ns' (listed live ns.size e) := by
  obtain ⟨⟨amln, _⟩, _, defined⟩ := bind_eq_ok.mp defined
  obtain ⟨_, _, defined⟩ := bind_eq_ok.mp defined
  obtain ⟨⟨p, name⟩, resolved, installed⟩ := bind_eq_ok.mp defined
  obtain ⟨inside', real⟩ := laiDoResolveNewNode_sound kept.tree inside resolved
  exact kept.install rfl inside' real rfl (fun isAlias => absurd isAlias plain) installed

theorem Kept.defineAlias (kept : Kept ns live) {target data : List Byte} {e : ApiError}
    (inside : c < ns.size) (defined : defineAlias ns c target data = .ok (ns', e)) :
    Kept ns' (listed live ns.size e) := by
  obtain ⟨⟨targetAmln, _⟩, _, defined⟩ := bind_eq_ok.mp defined
  obtain ⟨⟨destAmln, _⟩, _, defined⟩ := bind_eq_ok.mp defined
  obtain ⟨_, _, defined⟩ := bind_eq_ok.mp defined
  obtain ⟨found, resolved, defined⟩ := bind_eq_ok.mp defined
  cases found with
  | none => cases defined
  | some m =>
    obtain ⟨⟨p, name⟩, placed, installed⟩ := bind_eq_ok.mp defined
    obtain ⟨inside', real⟩ := laiDoResolveNewNode_sound kept.tree inside placed
    exact kept.install rfl inside' real rfl
      (fun _ => ⟨m, rfl, laiDoResolve_sound kept.tree inside resolved⟩) installed

/-- A removal that returned has found the node below its parent. -/
theorem kid_of_uninstalled (tree : ns.Tree) (inside : n < ns.size)
    (parent : (ns.node n).parent = some p) (removed : laiUninstallNsnode ns n = .ok ns') :
    ns.Kid p n := by
  have inside' : p < ns.size := (tree.parent_lt inside parent).1.trans inside
  rw [laiUninstallNsnode] at removed
  dsimp only at removed
  rw [parent] at removed
  dsimp only at removed
  obtain ⟨nowhere, _⟩ | ⟨i, elem, answer, _, bound, hit, visited⟩ := overChain_cases
    (tree.families p inside').sound (laiHashString (ns.node n).name)
      (fun i child => if child = n then some i else none)
  · rw [nowhere] at removed
    cases removed
  · split_ifs at visited with same
    rw [same] at hit
    exact (tree.kid_iff_hit inside').mpr ⟨i, bound, hit⟩

/-- A node leaves the table of its parent and stays in no other. -/
theorem installed_removed {arr : List (Option NodeId)} (tree : ns.Tree) (inside : p < ns.size)
    (kid : ns.Kid p n)
    (contents : (ns.node p).children.contents = (laiHashString (ns.node n).name, n) ::ₘ t.contents) :
    ({ ns with nsArray := arr }.setChildren p t).Installed c ↔ c ≠ n ∧ ns.Installed c := by
  have siblings := (tree.families p inside).siblings
  rw [contents, Multiset.map_cons, Multiset.nodup_cons] at siblings
  have gone : ∀ h, (h, n) ∉ t.contents := fun h member =>
    siblings.1 (Multiset.mem_map.mpr ⟨(h, n), member, rfl⟩)
  have same (member : ({ ns with nsArray := arr }.setChildren p t).Kid p c) :
      (laiHashString (ns.node c).name, c) ∈ t.contents := by
    rwa [Kid, setChildren_same, setChildren_name] at member
  constructor
  · rintro ⟨q, bound, member⟩
    obtain rfl | other := eq_or_ne q p
    · refine ⟨?_, q, inside, ?_⟩
      · rintro rfl
        exact gone _ (same member)
      · rw [Kid, contents]
        exact Multiset.mem_cons_of_mem (same member)
    · rw [Kid, setChildren_of_ne other, setChildren_name] at member
      refine ⟨?_, q, bound, member⟩
      rintro rfl
      have parents := (tree.kid_lt bound member).2.symm.trans (tree.kid_lt inside kid).2
      exact other (Option.some.inj parents)
  · rintro ⟨survives, q, bound, old⟩
    refine ⟨q, bound, ?_⟩
    rw [Kid, setChildren_name]
    obtain rfl | other := eq_or_ne q p
    · rw [Kid, contents] at old
      rw [setChildren_same]
      obtain head | rest := Multiset.mem_cons.mp old
      · exact absurd (Prod.mk.inj head).2 survives
      · exact rest
    · rwa [setChildren_of_ne other]

theorem Kept.remove (kept : Kept ns live) (inside : n < ns.size)
    (removed : laiUninstallNsnode ns n = .ok ns') : Kept ns' (live.erase n) := by
  have tree := kept.tree
  cases parent : (ns.node n).parent with
  | none =>
    have out : n ∉ live := by
      intro member
      obtain ⟨q, bound, kid⟩ := (kept.exactly n).mp member
      have given := (tree.kid_lt bound kid).2
      rw [parent] at given
      cases given
    rw [laiUninstallNsnode] at removed
    dsimp only at removed
    rw [parent] at removed
    obtain rfl := Except.ok.inj removed
    rw [List.erase_of_not_mem out]
    exact ⟨⟨tree.rootNode, tree.parents, tree.aliases,
      fun q hq => ⟨(tree.families q hq).sound, (tree.families q hq).kids,
        (tree.families q hq).siblings⟩⟩, kept.once, kept.exactly⟩
  | some p =>
    have kid := kid_of_uninstalled tree inside parent removed
    have inside' : p < ns.size := (tree.parent_lt inside parent).1.trans inside
    obtain ⟨arr, t, done, family, contents⟩ := laiUninstallNsnode_spec tree inside' kid
    obtain rfl := Except.ok.inj (done.symm.trans removed)
    refine ⟨?_, kept.once.erase n, fun c => ?_⟩
    · exact Tree.setChildren ⟨tree.rootNode, tree.parents, tree.aliases,
        fun q hq => ⟨(tree.families q hq).sound, (tree.families q hq).kids,
          (tree.families q hq).siblings⟩⟩ ⟨family.sound, family.kids, family.siblings⟩
    · rw [installed_removed tree inside' kid contents, ← kept.exactly, kept.once.mem_erase_iff]

theorem kept_of_run (run : namespaceRuns.Reach anyStep (ns, live)) : Kept ns live := by
  apply run.invariant (I := fun s => Kept s.1 s.2)
  · rintro _ rfl
    exact Kept.begin
  · rintro ⟨ns, live⟩ op ⟨ns', live'⟩ _ kept _ move
    dsimp only at kept ⊢
    cases op with
    | predefine object =>
      obtain ⟨member, e, installed, rfl⟩ := move
      exact kept.predefine member installed
    | define ctxHandle data type =>
      obtain ⟨inside, plain, e, defined, rfl⟩ := move
      exact kept.define inside plain defined
    | defineAlias ctxHandle target data =>
      obtain ⟨inside, e, defined, rfl⟩ := move
      exact kept.defineAlias inside defined
    | remove node =>
      obtain ⟨inside, removed, rfl⟩ := move
      exact kept.remove inside removed

/-- Installing the predefined objects is the beginning of a run. -/
theorem reach_installPredefined {objects : List (Nameseg × NodeType)}
    (known : ∀ o ∈ objects, o ∈ predefined) (run : namespaceRuns.Reach anyStep (ns, live))
    (installed : objects.foldlM (installPredefined) ns = .ok ns') :
    ∃ live', namespaceRuns.Reach anyStep (ns', live') := by
  induction objects generalizing ns live with
  | nil =>
    obtain rfl := Except.ok.inj installed
    exact ⟨live, run⟩
  | cons object objects ih =>
    rw [List.foldlM_cons] at installed
    obtain ⟨next, first, rest⟩ := bind_eq_ok.mp installed
    obtain ⟨_, _, first⟩ := bind_eq_ok.mp first
    obtain ⟨⟨after, e⟩, placed, first⟩ := bind_eq_ok.mp first
    obtain rfl := Except.ok.inj first
    have run' : namespaceRuns.Reach anyStep (after, listed live ns.size e) :=
      run.next (a := .predefine object) trivial ⟨known object List.mem_cons_self, e, placed, rfl⟩
    exact ih (fun o member => known o (List.mem_cons_of_mem object member)) run' rest

/-- `lai_create_root` ends, and what it leaves is a state of a run. -/
theorem laiCreateRoot_run :
    ∃ ns live, laiCreateRoot = .ok ns ∧ namespaceRuns.Reach anyStep (ns, live) := by
  have ends : laiCreateRoot.toBool = true := by decide +kernel
  cases created : laiCreateRoot with
  | error stop =>
    rw [created] at ends
    cases ends
  | ok ns =>
    obtain ⟨_, _, installed⟩ := bind_eq_ok.mp created
    obtain ⟨live, run⟩ := reach_installPredefined (fun o member => member) (.start rfl) installed
    exact ⟨ns, live, rfl, run⟩

theorem Kept.mem_iff (kept : Kept ns live) (inside : p < ns.size) :
    ns.Kid p c ↔ c ∈ live ∧ (ns.node c).parent = some p := by
  constructor
  · intro kid
    exact ⟨(kept.exactly c).mpr ⟨p, inside, kid⟩, (kept.tree.kid_lt inside kid).2⟩
  · rintro ⟨member, parent⟩
    obtain ⟨q, bound, kid⟩ := (kept.exactly c).mp member
    obtain rfl := Option.some.inj ((kept.tree.kid_lt bound kid).2.symm.trans parent)
    exact kid

/-- In every run a search for a child ends, and it finds exactly the node that was installed below
the parent with this name and not removed since. -/
theorem laiNsGetChild_exact (run : namespaceRuns.Reach anyStep (ns, live))
    (inside : p < ns.size) (name : Nameseg) :
    ∃ found, laiNsGetChild ns p name = .ok found ∧
      ∀ c, found = some c ↔ c ∈ live ∧ (ns.node c).parent = some p ∧ (ns.node c).name = name := by
  have kept := kept_of_run run
  obtain ⟨found, got, exactly⟩ := kept.tree.getChild inside name
  refine ⟨found, got, fun c => ?_⟩
  rw [exactly, kept.mem_iff inside, and_assoc]

def withScope : Namespace :=
  { rootOnly.create ⟨nameOf '_' 'S' 'B' '_', .device, some 0, none, .zeroed⟩ with
    nsArray := [some 1], nsCapacity := 128 }.setChildren 0
      ⟨2, 4, 1, [some 1, none], [laiHashString (nameOf '_' 'S' 'B' '_').1, 0], [0, -1, -1, -1]⟩

theorem run_withScope : namespaceRuns.Reach anyStep (withScope, [1]) :=
  .next (a := .predefine (nameOf '_' 'S' 'B' '_', .device)) (.start rfl) trivial
    ⟨by decide, .none, rfl, rfl⟩

/-- The search below the root that `lai_create_root` has made. -/
theorem laiNsGetChild_exact_of_root : ∃ (ns : Namespace) (live : List NodeId), laiCreateRoot = .ok ns ∧
    ∀ name, ∃ found, laiNsGetChild ns ns.rootNode name = .ok found ∧ ∀ c, found = some c ↔
      c ∈ live ∧ (ns.node c).parent = some ns.rootNode ∧ (ns.node c).name = name := by
  obtain ⟨ns, live, created, run⟩ := laiCreateRoot_run
  have inside := (kept_of_run run).rootNode.1
  exact ⟨ns, live, created, fun name => laiNsGetChild_exact run inside name⟩

/-- In every run a node that was installed and not removed can be removed, and afterwards exactly
the other ones are left. -/
theorem laiUninstallNsnode_exact (run : namespaceRuns.Reach anyStep (ns, live))
    (member : n ∈ live) :
    ∃ ns', laiUninstallNsnode ns n = .ok ns' ∧ ∀ p < ns.size, ∀ name : Nameseg,
      ∃ found, laiNsGetChild ns' p name = .ok found ∧ ∀ c, found = some c ↔
        (c ∈ live ∧ c ≠ n) ∧ (ns.node c).parent = some p ∧ (ns.node c).name = name := by
  have kept := kept_of_run run
  obtain ⟨q, bound, kid⟩ := (kept.exactly n).mp member
  obtain ⟨arr, t, done, family, contents⟩ := laiUninstallNsnode_spec kept.tree bound kid
  have kept' := kept.remove (kept.tree.kid_lt bound kid).1 done
  refine ⟨_, done, fun p inside name => ?_⟩
  obtain ⟨found, got, exactly⟩ := kept'.tree.getChild inside name
  refine ⟨found, got, fun c => ?_⟩
  rw [exactly, kept'.mem_iff inside, setChildren_name, setChildren_parent, and_assoc,
    kept.once.mem_erase_iff, and_comm (a := c ≠ n)]

theorem laiUninstallNsnode_exact_of_scope : ∃ ns', laiUninstallNsnode withScope 1 = .ok ns' ∧
    ∀ p < 2, ∀ name : Nameseg, ∃ found, laiNsGetChild ns' p name = .ok found ∧ ∀ c,
      found = some c ↔ (c ∈ [1] ∧ c ≠ 1) ∧ (withScope.node c).parent = some p ∧
        (withScope.node c).name = name :=
  laiUninstallNsnode_exact run_withScope (by decide)

end X86Os.Lai
