import X86Os.Lai.HashRuns
import X86Os.Lai.Namespace

/-!
# The namespace is a tree

Nodes are younger than their parents, no node is the child of an alias, and the
table of a node holds its children under the hashes of their names, no two of
them with the same name.
-/

namespace X86Os.Lai

open Library.Memory
set_option autoImplicit false

variable {ns ns' : Namespace} {n p c : NodeId} {name : Nameseg}
  {t : Hashtable NodeId} {α : Type}

namespace Namespace

def Kid (ns : Namespace) (p c : NodeId) : Prop :=
  (laiHashString (ns.node c).name, c) ∈ (ns.node p).children.contents

structure Family (ns : Namespace) (p : NodeId) (t : Hashtable NodeId) : Prop where
  sound : Sound t
  kids : ∀ e ∈ t.contents, e.1 = laiHashString (ns.node e.2).name ∧ e.2 < ns.size ∧
    (ns.node e.2).parent = some p
  siblings : (t.contents.map fun e => (ns.node e.2).name).Nodup

structure Tree (ns : Namespace) : Prop where
  rootNode : ns.rootNode < ns.size ∧ (ns.node ns.rootNode).type = .root
  parents : ∀ n < ns.size, ((ns.node n).parent = none ∧ n = ns.rootNode) ∨
    ∃ p, (ns.node n).parent = some p ∧ p < n ∧ (ns.node p).type ≠ .aliased
  aliases : ∀ n < ns.size, (ns.node n).type = .aliased →
    ∃ m, (ns.node n).alTarget = some m ∧ m < ns.size ∧ (ns.node m).type ≠ .aliased
  families : ∀ p < ns.size, ns.Family p (ns.node p).children

theorem setChildren_same : (ns.setChildren p t).node p = { ns.node p with children := t } :=
  Function.update_self ..

theorem setChildren_of_ne (other : n ≠ p) : (ns.setChildren p t).node n = ns.node n :=
  Function.update_of_ne other ..

@[simp] theorem setChildren_name : ((ns.setChildren p t).node n).name = (ns.node n).name := by
  obtain rfl | other := eq_or_ne n p
  · rw [setChildren_same]
  · rw [setChildren_of_ne other]

@[simp] theorem setChildren_type : ((ns.setChildren p t).node n).type = (ns.node n).type := by
  obtain rfl | other := eq_or_ne n p
  · rw [setChildren_same]
  · rw [setChildren_of_ne other]

@[simp] theorem setChildren_parent : ((ns.setChildren p t).node n).parent = (ns.node n).parent := by
  obtain rfl | other := eq_or_ne n p
  · rw [setChildren_same]
  · rw [setChildren_of_ne other]

@[simp] theorem setChildren_alTarget : ((ns.setChildren p t).node n).alTarget = (ns.node n).alTarget := by
  obtain rfl | other := eq_or_ne n p
  · rw [setChildren_same]
  · rw [setChildren_of_ne other]

@[simp] theorem setChildren_size : (ns.setChildren p t).size = ns.size := rfl

@[simp] theorem setChildren_rootNode : (ns.setChildren p t).rootNode = ns.rootNode := rfl

theorem create_new (node : Nsnode) : (ns.create node).node ns.size = node := Function.update_self ..

theorem create_old (node : Nsnode) (old : n < ns.size) : (ns.create node).node n = ns.node n :=
  Function.update_of_ne old.ne ..

namespace Tree

theorem setChildren (tree : ns.Tree) (family : ns.Family p t) :
    (ns.setChildren p t).Tree where
  rootNode := by simpa using tree.rootNode
  parents n hn := by simpa using tree.parents n hn
  aliases n hn := by simpa using tree.aliases n hn
  families q hq := by
    obtain rfl | other := eq_or_ne q p
    · rw [setChildren_same]
      exact ⟨family.sound, by simpa using family.kids, by simpa using family.siblings⟩
    · rw [setChildren_of_ne other]
      have old := tree.families q hq
      exact ⟨old.sound, by simpa using old.kids, by simpa using old.siblings⟩

/-- A new node below an old one, still without children and not installed. -/
theorem create (tree : ns.Tree) {node : Nsnode} (below : node.parent = some p) (old : p < ns.size)
    (real : (ns.node p).type ≠ .aliased) (empty : node.children = .zeroed)
    (alias_ : node.type = .aliased →
      ∃ m, node.alTarget = some m ∧ m < ns.size ∧ (ns.node m).type ≠ .aliased) :
    (ns.create node).Tree where
  rootNode := by
    obtain ⟨inside, root⟩ := tree.rootNode
    exact ⟨Nat.lt_succ_of_lt inside, by rwa [show (ns.create node).rootNode = ns.rootNode from rfl,
      create_old node inside]⟩
  parents n hn := by
    obtain inside | rfl := Nat.lt_succ_iff_lt_or_eq.mp hn
    · rw [create_old node inside]
      obtain root | ⟨q, parent, older, notAlias⟩ := tree.parents n inside
      · exact .inl root
      · exact .inr ⟨q, parent, older, by rwa [create_old node (older.trans inside)]⟩
    · rw [create_new node]
      exact .inr ⟨p, below, old, by rwa [create_old node old]⟩
  aliases n hn := by
    intro isAlias
    obtain inside | rfl := Nat.lt_succ_iff_lt_or_eq.mp hn
    · rw [create_old node inside] at isAlias ⊢
      obtain ⟨m, target, inside', notAlias⟩ := tree.aliases n inside isAlias
      exact ⟨m, target, Nat.lt_succ_of_lt inside', by rwa [create_old node inside']⟩
    · rw [create_new node] at isAlias ⊢
      obtain ⟨m, target, inside', notAlias⟩ := alias_ isAlias
      exact ⟨m, target, Nat.lt_succ_of_lt inside', by rwa [create_old node inside']⟩
  families q hq := by
    obtain inside | rfl := Nat.lt_succ_iff_lt_or_eq.mp hq
    · rw [create_old node inside]
      obtain ⟨sound, kids, siblings⟩ := tree.families q inside
      refine ⟨sound, ?_, ?_⟩
      · intro e he
        obtain ⟨hash, inside', parent⟩ := kids e he
        rw [create_old node inside']
        exact ⟨hash, Nat.lt_succ_of_lt inside', parent⟩
      · rwa [Multiset.map_congr rfl fun e he => by rw [create_old node (kids e he).2.1]]
    · rw [create_new node, empty]
      exact ⟨.zeroed, fun e he => absurd he (Multiset.notMem_zero e), Multiset.nodup_zero⟩

theorem kid_of_mem (tree : ns.Tree) (inside : p < ns.size) {e : Word × NodeId}
    (member : e ∈ (ns.node p).children.contents) : ns.Kid p e.2 := by
  have hash := ((tree.families p inside).kids e member).1
  rwa [Kid, ← hash]

theorem kid_unique (tree : ns.Tree) (inside : p < ns.size) {d : NodeId} (kid : ns.Kid p c)
    (kid' : ns.Kid p d) (same : (ns.node c).name = (ns.node d).name) : c = d :=
  congrArg Prod.snd (Multiset.inj_on_of_nodup_map (tree.families p inside).siblings _ kid _ kid' same)

/-- A hit of the search for a name's hash is a child. -/
theorem kid_iff_hit (tree : ns.Tree) (inside : p < ns.size) :
    ns.Kid p c ↔ ∃ i < (ns.node p).children.bucketCapacity,
      (ns.node p).children.hit (laiHashString (ns.node c).name) i = some c :=
  (tree.families p inside).sound.mem_contents_iff

theorem kid_of_hit (tree : ns.Tree) (inside : p < ns.size) {h : Word} {i : Nat}
    (bound : i < (ns.node p).children.bucketCapacity) (hit : (ns.node p).children.hit h i = some c) :
    ns.Kid p c :=
  tree.kid_of_mem inside ((tree.families p inside).sound.mem_contents_iff.mpr ⟨i, bound, hit⟩)

/-- The loop that looks for a child with a name finds it when there is one. -/
theorem find_kid (tree : ns.Tree) (inside : p < ns.size) (name : Nameseg) :
    ∃ found, (overChain (ns.node p).children (laiHashString name) fun _ child =>
      if (ns.node child).name = name then some child else none) = .ok found ∧
        ∀ c, found = some c ↔ ns.Kid p c ∧ (ns.node c).name = name := by
  obtain ⟨nowhere, every⟩ | ⟨i, elem, answer, found, bound, hit, visited⟩ := overChain_cases
    (tree.families p inside).sound (laiHashString name)
      (fun _ child => if (ns.node child).name = name then some child else none)
  · refine ⟨none, nowhere, fun c => ⟨nofun, ?_⟩⟩
    rintro ⟨kid, named⟩
    obtain ⟨i, bound, hit⟩ := (tree.kid_iff_hit inside).mp kid
    rw [named] at hit
    have missed := every i bound c hit
    rw [if_pos named] at missed
    cases missed
  · split_ifs at visited with named
    obtain rfl := Option.some.inj visited
    have kid := tree.kid_of_hit inside bound hit
    refine ⟨some elem, found, fun c => ⟨?_, ?_⟩⟩
    · rintro ⟨⟩
      exact ⟨kid, named⟩
    · rintro ⟨kid', named'⟩
      rw [tree.kid_unique inside kid kid' (named.trans named'.symm)]

theorem getChild (tree : ns.Tree) (inside : p < ns.size) (name : Nameseg) :
    ∃ found, laiNsGetChild ns p name = .ok found ∧
      ∀ c, found = some c ↔ ns.Kid p c ∧ (ns.node c).name = name :=
  tree.find_kid inside name

end Tree

end Namespace

end X86Os.Lai
