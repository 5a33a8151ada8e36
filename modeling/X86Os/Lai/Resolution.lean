import X86Os.Lai.NamespaceRuns

/-!
# What a name means

A name of one segment is searched for in one scope after the other, from the
inside out. Any other name is a path, and it keeps its meaning while further
objects are defined.
-/

namespace X86Os.Lai

open Library.Memory Library.Runs Namespace
set_option autoImplicit false

variable {ns ns' : Namespace} {n p c s m ctx : NodeId} {name : Nameseg}
  {live live' : List NodeId} {turns : Nat} {amln rest : Amlname}

def laiResolveSearch (ns : Namespace) (ctxHandle : NodeId) (segment : Nameseg) :
    Except Stop (Option NodeId) := do
  laiEnsure ((ns.node ctxHandle).type ≠ .aliased)
  searchScopes ns segment (ctxHandle + 1) ctxHandle

/-! ### Scopes -/

inductive Scope (ns : Namespace) : NodeId → NodeId → Prop
  | here (s : NodeId) : Scope ns s s
  | outer {s p q : NodeId} (parent : (ns.node s).parent = some p) (around : Scope ns p q) :
      Scope ns s q

def Binds (ns : Namespace) (live : List NodeId) (p : NodeId) (name : Nameseg) (c : NodeId) : Prop :=
  c ∈ live ∧ (ns.node c).parent = some p ∧ (ns.node c).name = name

theorem Scope.le (tree : ns.Tree) (inside : s < ns.size) (scope : Scope ns s p) : p ≤ s := by
  induction scope with
  | here => exact le_rfl
  | outer parent around ih =>
    obtain ⟨older, _⟩ := tree.parent_lt inside parent
    exact (ih (older.trans inside)).trans older.le

/-- The scopes around a node are the node and the scopes around its parent. -/
theorem scope_iff (parent : (ns.node s).parent = some p) (q : NodeId) :
    Scope ns s q ↔ q = s ∨ Scope ns p q := by
  constructor
  · intro scope
    cases scope with
    | here => exact .inl rfl
    | outer parent' around =>
      obtain rfl := Option.some.inj (parent.symm.trans parent')
      exact .inr around
  · rintro (rfl | around)
    · exact .here q
    · exact .outer parent around

theorem scope_of_orphan (orphan : (ns.node s).parent = none) {q : NodeId} (scope : Scope ns s q) :
    q = s := by
  cases scope with
  | here => rfl
  | outer parent around =>
    rw [orphan] at parent
    cases parent

theorem Kept.getChild (kept : Kept ns live) (inside : p < ns.size) (name : Nameseg) :
    ∃ found, laiNsGetChild ns p name = .ok found ∧ ∀ c, found = some c ↔ Binds ns live p name c := by
  obtain ⟨found, got, exactly⟩ := kept.tree.getChild inside name
  refine ⟨found, got, fun c => ?_⟩
  rw [exactly, kept.mem_iff inside, and_assoc, Binds]

/-- The search ends with a binding in the innermost scope that has one, or no scope has one. -/
theorem searchScopes_spec (kept : Kept ns live) (inside : s < ns.size) (enough : s < turns) :
    (searchScopes ns name turns s = .ok none ∧ ∀ q c, Scope ns s q → ¬Binds ns live q name c) ∨
    ∃ q c m, searchScopes ns name turns s = .ok (some m) ∧ throughAlias ns c = .ok m ∧
      Scope ns s q ∧ Binds ns live q name c ∧
        ∀ q' d, Scope ns s q' → Binds ns live q' name d → q' ≤ q := by
  induction turns generalizing s with
  | zero => exact absurd enough (Nat.not_lt_zero s)
  | succ turns ih =>
    obtain ⟨found, got, exactly⟩ := kept.getChild inside name
    rw [searchScopes, got, ok_bind]
    cases found with
    | some c =>
      have binds := (exactly c).mp rfl
      obtain ⟨p', bound, kid⟩ := (kept.exactly c).mp binds.1
      obtain ⟨m, through, _⟩ := throughAlias_spec kept.tree (kept.tree.kid_lt bound kid).1
      dsimp only
      rw [through, ok_bind]
      exact .inr ⟨s, c, m, rfl, through, .here s, binds,
        fun q' d scope _ => scope.le kept.tree inside⟩
    | none =>
      have nothing (d : NodeId) : ¬Binds ns live s name d := fun binds => nomatch (exactly d).mpr binds
      dsimp only
      cases parent : (ns.node s).parent with
      | none =>
        left
        refine ⟨rfl, fun q d scope binds => ?_⟩
        rw [scope_of_orphan parent scope] at binds
        exact nothing d binds
      | some p =>
        obtain ⟨older, _⟩ := kept.tree.parent_lt inside parent
        have further := ih (older.trans inside) (Nat.lt_of_lt_of_le older (Nat.le_of_lt_succ enough))
        obtain ⟨failed, none_⟩ | ⟨q, c, m, done, through, scope, binds, innermost⟩ := further
        · left
          refine ⟨failed, fun q d scope binds => ?_⟩
          obtain rfl | around := (scope_iff parent q).mp scope
          · exact nothing d binds
          · exact none_ q d around binds
        · right
          refine ⟨q, c, m, done, through, .outer parent scope, binds, fun q' d scope' binds' => ?_⟩
          obtain rfl | around := (scope_iff parent q').mp scope'
          · exact absurd binds' (nothing d)
          · exact innermost q' d around binds'

theorem laiDoResolve_search (search : amln.searchScopes = true)
    (one : laiAmlnameIterate amln = .ok (name, rest)) (last : laiAmlnameDone rest = true) :
    laiDoResolve ns ctx amln = laiResolveSearch ns ctx name := by
  rw [laiDoResolve, if_pos search, one, ok_bind]
  dsimp only
  rw [laiEnsure_of last]
  rfl

/-- In every run a name of one segment means the binding in the innermost scope around the context
that has one, with an alias followed, and it means nothing exactly when no scope has one. -/
theorem laiDoResolve_innermost (run : namespaceRuns.Reach anyStep (ns, live))
    (inside : ctx < ns.size) (real : (ns.node ctx).type ≠ .aliased)
    (search : amln.searchScopes = true) (one : laiAmlnameIterate amln = .ok (name, rest))
    (last : laiAmlnameDone rest = true) :
    (laiDoResolve ns ctx amln = .ok none ∧ ∀ q c, Scope ns ctx q → ¬Binds ns live q name c) ∨
    ∃ q c m, laiDoResolve ns ctx amln = .ok (some m) ∧ throughAlias ns c = .ok m ∧
      Scope ns ctx q ∧ Binds ns live q name c ∧
        ∀ q' d, Scope ns ctx q' → Binds ns live q' name d → q' ≤ q := by
  rw [laiDoResolve_search search one last, laiResolveSearch, laiEnsure_of real, ok_bind]
  exact searchScopes_spec (kept_of_run run) inside (Nat.lt_succ_self ctx)

/-- The name `_SB_` as it stands in AML code. -/
def scopeName : Amlname := ⟨false, 0, true, [0x5F, 0x53, 0x42, 0x5F], 4⟩

theorem laiDoResolve_innermost_of_scope :
    (laiDoResolve withScope 1 scopeName = .ok none ∧
      ∀ q c, Scope withScope 1 q → ¬Binds withScope [1] q (nameOf '_' 'S' 'B' '_') c) ∨
    ∃ q c m, laiDoResolve withScope 1 scopeName = .ok (some m) ∧
      throughAlias withScope c = .ok m ∧ Scope withScope 1 q ∧
        Binds withScope [1] q (nameOf '_' 'S' 'B' '_') c ∧
          ∀ q' d, Scope withScope 1 q' → Binds withScope [1] q' (nameOf '_' 'S' 'B' '_') d → q' ≤ q :=
  laiDoResolve_innermost run_withScope (by decide) (by decide) rfl
    (show laiAmlnameIterate scopeName = .ok (nameOf '_' 'S' 'B' '_', ⟨false, 0, true, [], 0⟩) from rfl) rfl

/-! ### Further definitions -/

/-- The namespace has grown, and its old nodes are what and where they were. -/
structure Extends (ns ns' : Namespace) (live live' : List NodeId) : Prop where
  size : ns.size ≤ ns'.size
  rootNode : ns'.rootNode = ns.rootNode
  name : ∀ n < ns.size, (ns'.node n).name = (ns.node n).name
  type : ∀ n < ns.size, (ns'.node n).type = (ns.node n).type
  parent : ∀ n < ns.size, (ns'.node n).parent = (ns.node n).parent
  alTarget : ∀ n < ns.size, (ns'.node n).alTarget = (ns.node n).alTarget
  live : ∀ n ∈ live, n ∈ live'

theorem create_fields (node : Nsnode) (arr : List (Option NodeId)) (k : Nat)
    (listed_ : ∀ n ∈ live, n ∈ live') :
    Extends ns { ns.create node with nsArray := arr, nsCapacity := k } live live' where
  size := Nat.le_succ _
  rootNode := rfl
  name n old := by rw [show _ = ns.node n from create_old node old]
  type n old := by rw [show _ = ns.node n from create_old node old]
  parent n old := by rw [show _ = ns.node n from create_old node old]
  alTarget n old := by rw [show _ = ns.node n from create_old node old]
  live := listed_

/-- What an installation does beside the tables of the children. -/
theorem installed_fields (kept : Kept ns live) {node : Nsnode} (below : node.parent = some p)
    (inside : p < ns.size) (real : (ns.node p).type ≠ .aliased) (empty : node.children = .zeroed)
    (target : node.type = .aliased →
      ∃ m, node.alTarget = some m ∧ m < ns.size ∧ (ns.node m).type ≠ .aliased)
    {e : ApiError} (installed : laiInstallNsnode (ns.create node) ns.size = .ok (ns', e)) :
    Extends ns ns' live (listed live ns.size e) ∧ ns.size < ns'.size ∧
      (ns'.node ns.size).name = node.name ∧ (ns'.node ns.size).type = node.type ∧
        (ns'.node ns.size).parent = node.parent := by
  have tree := kept.tree.create below inside real empty target
  have parent : ((ns.create node).node ns.size).parent = some p := by rw [create_new, below]
  have kept_ : ∀ n ∈ live, n ∈ listed live ns.size e := by
    intro n member
    cases e with
    | none => exact List.mem_cons_of_mem _ member
    | unexpectedResult => exact member
  obtain refused | ⟨arr, k, ⟨twin, _, _, rejected⟩ | ⟨t, done, _, family, contents⟩⟩ :=
    laiInstallNsnode_spec tree (Nat.lt_succ_self _) parent
  · rw [refused] at installed
    cases installed
  · rw [rejected] at installed
    obtain ⟨rfl, rfl⟩ := Prod.mk.inj (Except.ok.inj installed)
    have new : (ns.create node).node ns.size = node := create_new node
    exact ⟨create_fields node arr k kept_, Nat.lt_succ_self _, by rw [new], by rw [new], by rw [new]⟩
  · rw [done] at installed
    obtain ⟨rfl, rfl⟩ := Prod.mk.inj (Except.ok.inj installed)
    have new : (ns.create node).node ns.size = node := create_new node
    have old : Extends ns { ns.create node with nsArray := arr, nsCapacity := k } live
        (listed live ns.size .none) := create_fields node arr k kept_
    refine ⟨⟨old.size, old.rootNode, ?_, ?_, ?_, ?_, kept_⟩, Nat.lt_succ_self _, ?_, ?_, ?_⟩
    · intro n hn
      rw [setChildren_name, old.name n hn]
    · intro n hn
      rw [setChildren_type, old.type n hn]
    · intro n hn
      rw [setChildren_parent, old.parent n hn]
    · intro n hn
      rw [setChildren_alTarget, old.alTarget n hn]
    · rw [setChildren_name, new]
    · rw [setChildren_type, new]
    · rw [setChildren_parent, new]

namespace Extends

variable (grown : Extends ns ns' live live')
include grown

theorem climb (tree : ns.Tree) (inside : s < ns.size) (height : Nat) :
    Lai.climb ns' height s = Lai.climb ns height s := by
  induction height generalizing s with
  | zero => rfl
  | succ height ih =>
    rw [Lai.climb, Lai.climb, grown.parent s inside, grown.type s inside]
    cases parent : (ns.node s).parent with
    | none => rfl
    | some p => exact ih ((tree.parent_lt inside parent).1.trans inside)

theorem startOf (tree : ns.Tree) (tree' : ns'.Tree) (inside : s < ns.size) (amln : Amlname) :
    Lai.startOf ns' s amln = Lai.startOf ns s amln := by
  rw [Lai.startOf, Lai.startOf]
  split_ifs with absolute
  · rw [climbToRoot_spec tree inside (Nat.lt_succ_self s),
      climbToRoot_spec tree' (Nat.lt_of_lt_of_le inside grown.size) (Nat.lt_succ_self s),
      ok_bind, ok_bind, grown.rootNode]
    exact grown.climb tree tree.rootNode.1 amln.height
  · exact grown.climb tree inside amln.height

theorem throughAlias (tree : ns.Tree) (inside : n < ns.size) :
    Lai.throughAlias ns' n = Lai.throughAlias ns n := by
  rw [Lai.throughAlias, Lai.throughAlias, grown.type n inside, grown.alTarget n inside]
  split_ifs with isAlias
  · obtain ⟨m, target, inside', _⟩ := tree.aliases n inside isAlias
    rw [target]
    dsimp only
    rw [grown.type m inside']
  · rfl

theorem binds (kept : Kept ns live) (binds : Binds ns live p name c) : Binds ns' live' p name c := by
  obtain ⟨member, parent, named⟩ := binds
  obtain ⟨q, bound, kid⟩ := (kept.exactly c).mp member
  have inside := (kept.tree.kid_lt bound kid).1
  exact ⟨grown.live c member, (grown.parent c inside).trans parent, (grown.name c inside).trans named⟩

theorem getChild (kept : Kept ns live) (kept' : Kept ns' live') (inside : p < ns.size)
    (found : laiNsGetChild ns p name = .ok (some c)) :
    laiNsGetChild ns' p name = .ok (some c) ∧ c < ns.size := by
  obtain ⟨r, got, exactly⟩ := kept.getChild inside name
  obtain ⟨r', got', exactly'⟩ := kept'.getChild (Nat.lt_of_lt_of_le inside grown.size) name
  obtain rfl := Except.ok.inj (got.symm.trans found)
  have old := (exactly c).mp rfl
  obtain rfl := (exactly' c).mpr (grown.binds kept old)
  obtain ⟨q, bound, kid⟩ := (kept.exactly c).mp old.1
  exact ⟨got', (kept.tree.kid_lt bound kid).1⟩

theorem followSegs (kept : Kept ns live) (kept' : Kept ns' live') (inside : s < ns.size)
    (followed : Lai.followSegs ns turns amln s = .ok (some c)) :
    Lai.followSegs ns' turns amln s = .ok (some c) := by
  induction turns generalizing s amln with
  | zero => exact followed
  | succ turns ih =>
    rw [Lai.followSegs] at followed ⊢
    obtain done | more := Bool.eq_false_or_eq_true (laiAmlnameDone amln)
    · rw [if_pos done] at followed ⊢
      exact followed
    · rw [more, if_neg Bool.false_ne_true] at followed ⊢
      obtain ⟨⟨segment, rest⟩, iterated, followed⟩ := bind_eq_ok.mp followed
      obtain ⟨child, got, followed⟩ := bind_eq_ok.mp followed
      rw [iterated, ok_bind]
      cases child with
      | none => cases followed
      | some child =>
        obtain ⟨got', inside'⟩ := grown.getChild kept kept' inside got
        dsimp only
        rw [got', ok_bind]
        exact ih inside' followed

/-- A path keeps its meaning. -/
theorem laiDoResolve (kept : Kept ns live) (kept' : Kept ns' live') (inside : s < ns.size)
    (path : amln.searchScopes = false) (resolved : Lai.laiDoResolve ns s amln = .ok (some m)) :
    Lai.laiDoResolve ns' s amln = .ok (some m) := by
  obtain ⟨_, real, resolved⟩ := bind_eq_ok.mp resolved
  rw [path, if_neg Bool.false_ne_true] at resolved
  obtain ⟨start, started, resolved⟩ := bind_eq_ok.mp resolved
  obtain ⟨start', started', within, _⟩ :=
    startOf_spec kept.tree inside (laiEnsure_eq_ok.mp real) amln
  obtain rfl := Except.ok.inj (started'.symm.trans started)
  rw [Lai.laiDoResolve, grown.type s inside, real, ok_bind, path, if_neg Bool.false_ne_true,
    grown.startOf kept.tree kept'.tree inside, started, ok_bind]
  obtain done | more := Bool.eq_false_or_eq_true (laiAmlnameDone amln)
  · rw [if_pos done] at resolved ⊢
    exact resolved
  · rw [more, if_neg Bool.false_ne_true] at resolved ⊢
    obtain ⟨last, followed, resolved⟩ := bind_eq_ok.mp resolved
    cases last with
    | none => cases resolved
    | some last =>
      rw [grown.followSegs kept kept' within followed, ok_bind]
      dsimp only
      rw [grown.throughAlias kept.tree (followSegs_sound kept.tree within followed)]
      exact resolved

end Extends

/-! ### Defined names -/

/-- A parsed name is searched for in the scopes exactly when it is a single segment. -/
theorem laiAmlnameParse_search {data : List Byte} {size : Nat}
    (parsed : laiAmlnameParse data = .ok (amln, size)) :
    amln.searchScopes = true ↔ amln.isAbsolute = false ∧ amln.height = 0 ∧ amln.left = 4 := by
  obtain ⟨⟨numSegs, segs⟩, _, parsed⟩ := bind_eq_ok.mp parsed
  obtain ⟨rfl, _⟩ := Prod.mk.inj (Except.ok.inj parsed)
  simp only [Bool.and_eq_true, Bool.not_eq_true', beq_iff_eq, and_assoc]
  rw [Nat.mul_eq_left (by decide)]

/-- The parent that was found for a new node is where its name leads. -/
theorem followSegs_of_followToParent (grown : Extends ns ns' live live') (kept : Kept ns live)
    (kept' : Kept ns' live') (plain : ∀ c ∈ live, (ns.node c).type ≠ .aliased)
    (inside : s < ns.size) (found : followToParent ns turns amln s = .ok (p, name))
    (bound : Binds ns' live' p name n) : followSegs ns' turns amln s = .ok (some n) := by
  induction turns generalizing s amln with
  | zero => cases found
  | succ turns ih =>
    obtain ⟨⟨segment, rest⟩, iterated, found⟩ := bind_eq_ok.mp found
    have left : 0 < amln.left := by
      obtain ⟨_, more, _⟩ := bind_eq_ok.mp iterated
      exact laiEnsure_eq_ok.mp more
    have more : laiAmlnameDone amln = false := beq_false_of_ne left.ne'
    rw [followSegs, more, if_neg Bool.false_ne_true, iterated, ok_bind]
    dsimp only at found ⊢
    obtain last | further := Bool.eq_false_or_eq_true (laiAmlnameDone rest)
    · rw [if_pos last] at found
      obtain ⟨rfl, rfl⟩ := Prod.mk.inj (Except.ok.inj found)
      obtain ⟨r, got, exactly⟩ := kept'.getChild (Nat.lt_of_lt_of_le inside grown.size) segment
      obtain rfl := (exactly n).mpr bound
      rw [got, ok_bind]
      dsimp only
      cases turns with
      | zero => rfl
      | succ turns => rw [followSegs, if_pos last]
    · rw [further, if_neg Bool.false_ne_true] at found
      obtain ⟨child, got, found⟩ := bind_eq_ok.mp found
      cases child with
      | none => cases found
      | some child =>
        obtain ⟨m, through, found⟩ := bind_eq_ok.mp found
        obtain ⟨got', inside'⟩ := grown.getChild kept kept' inside got
        obtain ⟨r, read, exactly⟩ := kept.getChild inside segment
        obtain rfl := Except.ok.inj (read.symm.trans got)
        obtain ⟨m', through', _, _, itself⟩ := throughAlias_spec kept.tree inside'
        obtain rfl := Except.ok.inj (through'.symm.trans through)
        rw [got', ok_bind]
        dsimp only
        rw [itself (plain child ((exactly child).mp rfl).1)] at found
        exact ih inside' found

/-- A name that has just been installed leads to the new node. -/
theorem laiDoResolve_installed (grown : Extends ns ns' live live') (kept : Kept ns live)
    (kept' : Kept ns' live') (plain : ∀ c ∈ live, (ns.node c).type ≠ .aliased)
    (inside : s < ns.size) {data : List Byte} {size : Nat}
    (parsed : laiAmlnameParse data = .ok (amln, size))
    (found : laiDoResolveNewNode ns s amln = .ok (p, name)) (bound : Binds ns' live' p name n)
    (real : (ns'.node n).type ≠ .aliased) : laiDoResolve ns' s amln = .ok (some n) := by
  obtain ⟨_, context, found⟩ := bind_eq_ok.mp found
  obtain ⟨start, started, found⟩ := bind_eq_ok.mp found
  obtain ⟨_, more, found⟩ := bind_eq_ok.mp found
  obtain ⟨start', started', within, _⟩ :=
    startOf_spec kept.tree inside (laiEnsure_eq_ok.mp context) amln
  obtain rfl := Except.ok.inj (started'.symm.trans started)
  have through : throughAlias ns' n = .ok n := if_neg real
  rw [laiDoResolve, grown.type s inside, context, ok_bind]
  obtain search | path := Bool.eq_false_or_eq_true amln.searchScopes
  · obtain ⟨relative, flat, single⟩ := (laiAmlnameParse_search parsed).mp search
    rw [startOf, relative, flat] at started
    obtain rfl := Except.ok.inj started
    rw [single] at found
    obtain ⟨⟨segment, rest⟩, iterated, found⟩ := bind_eq_ok.mp found
    have last : laiAmlnameDone rest = true := by
      obtain ⟨_, _, iterated⟩ := bind_eq_ok.mp iterated
      split_ifs at iterated
      obtain ⟨_, rfl⟩ := Prod.mk.inj (Except.ok.inj iterated)
      rw [laiAmlnameDone, single]
      rfl
    dsimp only at found
    rw [if_pos last] at found
    obtain ⟨rfl, rfl⟩ := Prod.mk.inj (Except.ok.inj found)
    obtain ⟨r, got, exactly⟩ := kept'.getChild (Nat.lt_of_lt_of_le inside grown.size) segment
    obtain rfl := (exactly n).mpr bound
    rw [if_pos search, iterated, ok_bind]
    dsimp only
    rw [laiEnsure_of last, ok_bind, searchScopes, got, ok_bind]
    dsimp only
    rw [through]
    rfl
  · rw [path, if_neg Bool.false_ne_true, grown.startOf kept.tree kept'.tree inside, started,
      ok_bind, laiEnsure_eq_ok.mp more, if_neg Bool.false_ne_true,
      followSegs_of_followToParent grown kept kept' plain within found bound, ok_bind]
    dsimp only
    rw [through]
    rfl

/-- The parts of a definition. -/
theorem defineNode_cases (kept : Kept ns live) {data : List Byte} {type : NodeType} {e : ApiError}
    (inside : s < ns.size) (defined : defineNode ns s data type = .ok (ns', e)) :
    ∃ amln size p name, laiAmlnameParse data = .ok (amln, size) ∧
      laiDoResolveNewNode ns s amln = .ok (p, name) ∧ p < ns.size ∧ (ns.node p).type ≠ .aliased ∧
        laiInstallNsnode (ns.create ⟨name, type, some p, none, .zeroed⟩) ns.size = .ok (ns', e) := by
  obtain ⟨⟨amln, size⟩, parsed, defined⟩ := bind_eq_ok.mp defined
  obtain ⟨_, _, defined⟩ := bind_eq_ok.mp defined
  obtain ⟨⟨p, name⟩, resolved, installed⟩ := bind_eq_ok.mp defined
  obtain ⟨within, real⟩ := laiDoResolveNewNode_sound kept.tree inside resolved
  exact ⟨amln, size, p, name, parsed, resolved, within, real, installed⟩

theorem uninstalled_type (kept : Kept ns live) (inside : n < ns.size)
    (removed : laiUninstallNsnode ns n = .ok ns') (c : NodeId) :
    (ns'.node c).type = (ns.node c).type := by
  cases parent : (ns.node n).parent with
  | none =>
    rw [laiUninstallNsnode] at removed
    dsimp only at removed
    rw [parent] at removed
    obtain rfl := Except.ok.inj removed
    rfl
  | some p =>
    have within : p < ns.size := (kept.tree.parent_lt inside parent).1.trans inside
    obtain ⟨arr, t, done, _⟩ := laiUninstallNsnode_spec kept.tree within
      (kid_of_uninstalled kept.tree inside parent removed)
    obtain rfl := Except.ok.inj (done.symm.trans removed)
    exact setChildren_type

def noAlias : Namespace × List NodeId → NamespaceOp → Prop
  | _, .defineAlias .. => False
  | _, _ => True

def noRemoval : Namespace × List NodeId → NamespaceOp → Prop
  | _, .remove .. => False
  | _, _ => True

theorem installed_plain (kept : Kept ns live) (plain : ∀ c ∈ live, (ns.node c).type ≠ .aliased)
    {node : Nsnode} (below : node.parent = some p) (inside : p < ns.size)
    (real : (ns.node p).type ≠ .aliased) (empty : node.children = .zeroed)
    (ordinary : node.type ≠ .aliased) {e : ApiError}
    (installed : laiInstallNsnode (ns.create node) ns.size = .ok (ns', e)) :
    ∀ c ∈ listed live ns.size e, (ns'.node c).type ≠ .aliased := by
  obtain ⟨grown, _, _, type, _⟩ := installed_fields kept below inside real empty
    (fun isAlias => absurd isAlias ordinary) installed
  have old : ∀ c ∈ live, (ns'.node c).type ≠ .aliased := by
    intro c member
    obtain ⟨q, bound, kid⟩ := (kept.exactly c).mp member
    rw [grown.type c (kept.tree.kid_lt bound kid).1]
    exact plain c member
  intro c member
  cases e with
  | unexpectedResult => exact old c member
  | none =>
    obtain rfl | member := List.mem_cons.mp member
    · rwa [type]
    · exact old c member

theorem plain_of_run (run : namespaceRuns.Reach noAlias (ns, live)) :
    ∀ c ∈ live, (ns.node c).type ≠ .aliased := by
  apply run.invariant (I := fun s => ∀ c ∈ s.2, (s.1.node c).type ≠ .aliased)
  · rintro _ rfl c member
    cases member
  · rintro ⟨ns, live⟩ op ⟨ns', live'⟩ before plain allowed move
    have kept := kept_of_run before.any
    dsimp only at plain ⊢
    cases op with
    | predefine object =>
      obtain ⟨member, e, installed, rfl⟩ := move
      obtain ⟨inside, real⟩ := kept.rootNode
      have ordinary : ∀ o ∈ predefined, o.2 ≠ .aliased := by decide
      exact installed_plain kept plain rfl inside real rfl (ordinary _ member) installed
    | define ctxHandle data type =>
      obtain ⟨inside, ordinary, e, defined, rfl⟩ := move
      obtain ⟨amln, size, p, name, _, _, within, real, installed⟩ :=
        defineNode_cases kept inside defined
      exact installed_plain kept plain rfl within real rfl ordinary installed
    | defineAlias ctxHandle target data => exact absurd allowed id
    | remove node =>
      obtain ⟨inside, removed, rfl⟩ := move
      intro c member
      rw [uninstalled_type kept inside removed]
      exact plain c (List.mem_of_mem_erase member)

/-- In a run without `Alias()`, what has just been defined under a name is what the name means in
the same context from then on. -/
theorem laiDoResolve_defined (run : namespaceRuns.Reach noAlias (ns, live))
    {data : List Byte} {type : NodeType} {size : Nat} (inside : ctx < ns.size)
    (ordinary : type ≠ .aliased) (defined : defineNode ns ctx data type = .ok (ns', .none))
    (parsed : laiAmlnameParse data = .ok (amln, size)) :
    laiDoResolve ns' ctx amln = .ok (some ns.size) := by
  have kept := kept_of_run run.any
  have kept' := kept.define inside ordinary defined
  obtain ⟨amln', size', p, name, parsed', resolved, within, real, installed⟩ :=
    defineNode_cases kept inside defined
  obtain ⟨rfl, rfl⟩ := Prod.mk.inj (Except.ok.inj (parsed'.symm.trans parsed))
  obtain ⟨grown, _, named, typed, parent⟩ := installed_fields kept rfl within real rfl
    (fun isAlias => absurd isAlias ordinary) installed
  exact laiDoResolve_installed grown kept kept' (plain_of_run run) inside parsed resolved
    ⟨List.mem_cons_self, parent, named⟩ (by rw [typed]; exact ordinary)

theorem laiDoResolve_defined_of_scope :
    laiDoResolve withScope 0 scopeName = .ok (some 1) :=
  laiDoResolve_defined (.start rfl : namespaceRuns.Reach noAlias (rootOnly, [])) (by decide)
    (by decide) (show defineNode rootOnly 0 [0x5F, 0x53, 0x42, 0x5F] .device =
      .ok (withScope, .none) from rfl)
    (show laiAmlnameParse [0x5F, 0x53, 0x42, 0x5F] = .ok (scopeName, 4) from rfl)

/-- A definition or an alias only adds to the namespace. -/
theorem extends_of_step (kept : Kept ns live) {op : NamespaceOp} (allowed : noRemoval (ns, live) op)
    (move : namespaceRuns.step (ns, live) op (ns', live')) : Extends ns ns' live live' := by
  cases op with
  | predefine object =>
    obtain ⟨member, e, installed, rfl⟩ := move
    obtain ⟨inside, real⟩ := kept.rootNode
    have ordinary : ∀ o ∈ predefined, o.2 ≠ .aliased := by decide
    exact (installed_fields kept rfl inside real rfl
      (fun isAlias => absurd isAlias (ordinary _ member)) installed).1
  | define ctxHandle data type =>
    obtain ⟨inside, ordinary, e, defined, rfl⟩ := move
    obtain ⟨amln, size, p, name, _, _, within, real, installed⟩ :=
      defineNode_cases kept inside defined
    exact (installed_fields kept rfl within real rfl
      (fun isAlias => absurd isAlias ordinary) installed).1
  | defineAlias ctxHandle target data =>
    obtain ⟨inside, e, defined, rfl⟩ := move
    obtain ⟨⟨targetAmln, _⟩, _, defined⟩ := bind_eq_ok.mp defined
    obtain ⟨⟨destAmln, _⟩, _, defined⟩ := bind_eq_ok.mp defined
    obtain ⟨_, _, defined⟩ := bind_eq_ok.mp defined
    obtain ⟨found, resolved, defined⟩ := bind_eq_ok.mp defined
    cases found with
    | none => cases defined
    | some m =>
      obtain ⟨⟨p, name⟩, placed, installed⟩ := bind_eq_ok.mp defined
      obtain ⟨within, real⟩ := laiDoResolveNewNode_sound kept.tree inside placed
      exact (installed_fields kept rfl within real rfl
        (fun _ => ⟨m, rfl, laiDoResolve_sound kept.tree inside resolved⟩) installed).1
  | remove node => exact absurd allowed id

/-- From any state of a run, a path that means a node goes on to mean that node as long as no
object is removed, whatever is defined meanwhile. -/
theorem laiDoResolve_path_stable (run : namespaceRuns.Reach anyStep (ns, live))
    (inside : ctx < ns.size) (path : amln.searchScopes = false)
    (resolved : laiDoResolve ns ctx amln = .ok (some m))
    (later : Relation.ReflTransGen (fun s t => ∃ op, noRemoval s op ∧ namespaceRuns.step s op t)
      (ns, live) (ns', live')) :
    laiDoResolve ns' ctx amln = .ok (some m) := by
  suffices still : ∀ t, Relation.ReflTransGen
      (fun s t => ∃ op, noRemoval s op ∧ namespaceRuns.step s op t) (ns, live) t →
        namespaceRuns.Reach anyStep t ∧ ctx < t.1.size ∧
          laiDoResolve t.1 ctx amln = .ok (some m) from (still _ later).2.2
  intro t steps
  induction steps with
  | refl => exact ⟨run, inside, resolved⟩
  | @tail s t _ last ih =>
    obtain ⟨reached, bound, means⟩ := ih
    obtain ⟨op, allowed, move⟩ := last
    have kept := kept_of_run reached
    have reached' := reached.next (a := op) trivial move
    have grown := extends_of_step kept allowed move
    exact ⟨reached', Nat.lt_of_lt_of_le bound grown.size,
      grown.laiDoResolve kept (kept_of_run reached') bound path means⟩

def withTwo : Namespace :=
  { withScope.create ⟨nameOf '_' 'S' 'I' '_', .device, some 0, none, .zeroed⟩ with
    nsArray := [some 1, some 2], nsCapacity := 128 }.setChildren 0
      ⟨4, 8, 2, [some 1, some 2, none, none], [0x7c929178, 0x7c92925f, 0, 0],
        [0, -1, -1, -1, -1, -1, -1, 1]⟩

/-- The path `\_SB_` as it stands in AML code, without its mark for the root. -/
def scopePath : Amlname := ⟨true, 0, false, [0x5F, 0x53, 0x42, 0x5F], 4⟩

theorem laiDoResolve_path_stable_of_scope : laiDoResolve withTwo 1 scopePath = .ok (some 1) :=
  have later : Relation.ReflTransGen
      (fun s t => ∃ op, noRemoval s op ∧ namespaceRuns.step s op t)
      (withScope, [1]) (withTwo, [2, 1]) :=
    .single ⟨.predefine (nameOf '_' 'S' 'I' '_', .device), trivial, by decide, .none, rfl, rfl⟩
  laiDoResolve_path_stable run_withScope (by decide) rfl rfl later

end X86Os.Lai
