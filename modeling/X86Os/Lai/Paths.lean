import X86Os.Lai.NamespaceRuns

/-!
# Paths of nodes as text

`lai_stringify_node_path` writes the path of a node from right to left, and
`lai_resolve_path` follows such a text from the root, segment by segment.
-/

namespace X86Os.Lai

open Library.Memory Library.Runs Namespace
set_option autoImplicit false

variable {ns : Namespace} {n p c ctx : NodeId} {live : List NodeId} {turns : Nat}

def pathDot : Byte := 0x2E

def pathPad : Byte := 0x5F

def countUp (ns : Namespace) : Nat → NodeId → Except Stop Nat
  | 0, _ => .error .wild
  | turns + 1, current =>
    match (ns.node current).parent with
    | none => .ok 0
    | some parent => do
      let numSegs ← countUp ns turns parent
      .ok (numSegs + 1)

/-- The loop that writes the segments from right to left; `str` is what it has written. -/
def fillUp (ns : Namespace) : Nat → NodeId → List Byte → Except Stop (List Byte)
  | 0, _, _ => .error .wild
  | turns + 1, current, str =>
    match (ns.node current).parent with
    | none => .ok str
    | some parent => fillUp ns turns parent (pathDot :: (ns.node current).name.1 ++ str)

def laiStringifyNodePath (ns : Namespace) (node : NodeId) :
    Except Stop (List Byte) := do
  match (ns.node node).parent with
  | none =>
    laiEnsure ((ns.node node).type = .root)
    laihostMalloc 2
    .ok [rootChar, 0]
  | some _ =>
    let numSegs ← countUp ns (node + 1) node
    laihostMalloc (numSegs * 5 + 1)
    let str ← fillUp ns (node + 1) node []
    laiEnsure (str.length = numSegs * 5)
    .ok (str.set 0 rootChar ++ [0])

def segmentChars : Nat → List Byte → Except Stop (List Byte × List Byte)
  | 0, path => .ok ([], path)
  | k + 1, path => do
    let c ← readAt path 0
    if laiIsName c then
      let (segment, path) ← segmentChars k (path.drop 1)
      .ok (c :: segment, path)
    else .ok ([], path)

def padSegment (segment : List Byte) : Nameseg :=
  ⟨(segment ++ List.replicate 4 pathPad).take 4, by simp⟩

/-- The loop over the segments of a path. Every turn ends the path or goes past a dot. -/
def resolveSegs (ns : Namespace) : Nat → List Byte → NodeId → Except Stop (Option NodeId)
  | 0, _, _ => .error .wild
  | turns + 1, path, current => do
    let (segment, path) ← segmentChars 4 path
    match ← laiNsGetChild ns current (padSegment segment) with
    | none => .ok none
    | some child =>
      let current ← throughAlias ns child
      let c ← readAt path 0
      if c = 0 then .ok (some current)
      else do
        laiEnsure (c = pathDot)
        resolveSegs ns turns (path.drop 1) current

def laiResolvePath (ns : Namespace) (ctxHandle : Option NodeId) (path : List Byte) :
    Except Stop (Option NodeId) := do
  let current := ctxHandle.getD ns.rootNode
  let (isAbsolute, height, path) := rootOrCarets path
  let current ← if isAbsolute then climbToRoot ns (current + 1) current else climb ns height current
  let c ← readAt path 0
  if c = 0 then .ok (some current) else resolveSegs ns path.length path current

/-! ### Round trip -/

/-- A node all of whose ancestors are in the tree, below segments of name characters. -/
inductive Located (ns : Namespace) (live : List NodeId) : NodeId → List Nameseg → Prop
  | root : Located ns live ns.rootNode []
  | child {p c : NodeId} {segs : List Nameseg} (above : Located ns live p segs) (member : c ∈ live)
      (below : (ns.node c).parent = some p) (plain : ∀ b ∈ (ns.node c).name.1, laiIsName b) :
      Located ns live c (segs ++ [(ns.node c).name])

def dotted (segs : List Nameseg) : List Byte := segs.flatMap fun segment => pathDot :: segment.1

theorem dotted_snoc (segs : List Nameseg) (segment : Nameseg) :
    dotted (segs ++ [segment]) = dotted segs ++ pathDot :: segment.1 := by
  rw [dotted, List.flatMap_append, List.flatMap_singleton, dotted]

theorem length_dotted (segs : List Nameseg) : (dotted segs).length = segs.length * 5 := by
  induction segs with
  | nil => rfl
  | cons segment segs ih =>
    rw [dotted, List.flatMap_cons, ← dotted, List.length_append, ih, List.length_cons, segment.2,
      List.length_cons]
    omega

theorem Located.lt {segs : List Nameseg} (located : Located ns live n segs) (kept : Kept ns live) :
    n < ns.size := by
  cases located with
  | root => exact kept.tree.rootNode.1
  | child above member below plain =>
    obtain ⟨q, bound, kid⟩ := (kept.exactly n).mp member
    exact (kept.tree.kid_lt bound kid).1

theorem Located.eq_rootNode (located : Located ns live n []) : n = ns.rootNode := by
  generalize none_ : ([] : List Nameseg) = segs at located
  cases located with
  | root => rfl
  | child above member below plain =>
    have length := congrArg List.length none_
    rw [List.length_append, List.length_singleton, List.length_nil] at length
    omega

theorem Located.plain {segs : List Nameseg} (located : Located ns live n segs) :
    ∀ segment ∈ segs, ∀ b ∈ segment.1, laiIsName b := by
  induction located with
  | root => exact fun segment member => absurd member List.not_mem_nil
  | child above member below plain ih =>
    intro segment either
    obtain old | last := List.mem_append.mp either
    · exact ih segment old
    · rw [List.mem_singleton.mp last]
      exact plain

theorem Namespace.Tree.rootNode_le (tree : ns.Tree) (inside : n < ns.size) : ns.rootNode ≤ n := by
  induction n using Nat.strong_induction_on with
  | _ n ih =>
    obtain ⟨_, rfl⟩ | ⟨p, _, older, _⟩ := tree.parents n inside
    · exact le_rfl
    · exact (ih p older (older.trans inside)).trans older.le

theorem Namespace.Tree.orphan (tree : ns.Tree) : (ns.node ns.rootNode).parent = none := by
  obtain ⟨none, _⟩ | ⟨p, _, older, _⟩ := tree.parents ns.rootNode tree.rootNode.1
  · exact none
  · exact absurd (tree.rootNode_le (older.trans tree.rootNode.1)) (Nat.not_le_of_lt older)

theorem countUp_spec (kept : Kept ns live) {segs : List Nameseg}
    (located : Located ns live n segs) (enough : n < turns) :
    countUp ns turns n = .ok segs.length := by
  induction located generalizing turns with
  | root =>
    cases turns with
    | zero => cases enough
    | succ turns =>
      rw [countUp, kept.tree.orphan]
      rfl
  | child above member below plain ih =>
    cases turns with
    | zero => cases enough
    | succ turns =>
      have inside := (Located.child above member below plain).lt kept
      obtain ⟨older, _⟩ := kept.tree.parent_lt inside below
      rw [countUp, below]
      dsimp only
      rw [ih (Nat.lt_of_lt_of_le older (Nat.le_of_lt_succ enough)), ok_bind, List.length_append]
      rfl

theorem fillUp_spec (kept : Kept ns live) {segs : List Nameseg}
    (located : Located ns live n segs) (enough : n < turns) (str : List Byte) :
    fillUp ns turns n str = .ok (dotted segs ++ str) := by
  induction located generalizing turns str with
  | root =>
    cases turns with
    | zero => cases enough
    | succ turns =>
      rw [fillUp, kept.tree.orphan]
      rfl
  | child above member below plain ih =>
    cases turns with
    | zero => cases enough
    | succ turns =>
      have inside := (Located.child above member below plain).lt kept
      obtain ⟨older, _⟩ := kept.tree.parent_lt inside below
      rw [fillUp, below]
      dsimp only
      rw [ih (Nat.lt_of_lt_of_le older (Nat.le_of_lt_succ enough)), dotted_snoc, List.append_assoc]

/-- The text of a path; the first dot is overwritten. -/
def pathText (segs : List Nameseg) : List Byte := rootChar :: (dotted segs).tail ++ [0]

theorem laiStringifyNodePath_spec (kept : Kept ns live) {segs : List Nameseg}
    (located : Located ns live n segs) :
    laiStringifyNodePath ns n = .error .refused ∨
      laiStringifyNodePath ns n = .ok (pathText segs) := by
  rw [laiStringifyNodePath]
  cases located with
  | root =>
    rw [kept.tree.orphan]
    dsimp only
    rw [laiEnsure_of kept.tree.rootNode.2, ok_bind, laihostMalloc]
    split_ifs
    · exact .inr rfl
    · exact .inl rfl
  | @child p c segs above member below plain =>
    have located := Located.child above member below plain
    rw [below]
    dsimp only
    rw [countUp_spec kept located (Nat.lt_succ_self n), ok_bind, laihostMalloc]
    split_ifs
    · right
      rw [ok_bind, fillUp_spec kept located (Nat.lt_succ_self n), ok_bind, List.append_nil,
        laiEnsure_of (length_dotted _), ok_bind]
      cases text : dotted (segs ++ [(ns.node n).name]) with
      | nil =>
        have length := length_dotted (segs ++ [(ns.node n).name])
        rw [text, List.length_append, List.length_nil, List.length_singleton] at length
        omega
      | cons dot rest =>
        rw [pathText, text]
        rfl
    · exact .inl rfl

def afterSegment (ns : Namespace) (turns : Nat) (path : List Byte) (current : NodeId) :
    Except Stop (Option NodeId) := do
  let c ← readAt path 0
  if c = 0 then .ok (some current)
  else do
    laiEnsure (c = pathDot)
    resolveSegs ns turns (path.drop 1) current

theorem segmentChars_append {segment : List Byte} (plain : ∀ b ∈ segment, laiIsName b)
    (rest : List Byte) : segmentChars segment.length (segment ++ rest) = .ok (segment, rest) := by
  induction segment with
  | nil => rfl
  | cons b segment ih =>
    obtain ⟨first, others⟩ := List.forall_mem_cons.mp plain
    rw [List.length_cons, segmentChars, readAt_of rfl, ok_bind, if_pos first, List.cons_append,
      List.drop_one, List.tail_cons, ih others]
    rfl

theorem padSegment_full (segment : Nameseg) : padSegment segment.1 = segment := by
  apply Subtype.ext
  calc (segment.1 ++ List.replicate 4 pathPad).take 4
      = segment.1.take 4 := List.take_append_of_le_length segment.2.ge
    _ = segment.1 := List.take_of_length_le segment.2.le

/-- One turn of the loop, at a segment that is a child. -/
theorem resolveSegs_child (kept : Kept ns live) (inside : p < ns.size) (member : c ∈ live)
    (below : (ns.node c).parent = some p) (plain : ∀ b ∈ (ns.node c).name.1, laiIsName b)
    (turns : Nat) (rest : List Byte) :
    resolveSegs ns (turns + 1) ((ns.node c).name.1 ++ rest) p =
      throughAlias ns c >>= afterSegment ns turns rest := by
  have chars := segmentChars_append plain rest
  rw [(ns.node c).name.2] at chars
  obtain ⟨found, got, exactly⟩ := kept.tree.getChild inside (ns.node c).name
  obtain rfl := (exactly c).mpr ⟨(kept.mem_iff inside).mpr ⟨member, below⟩, rfl⟩
  rw [resolveSegs, chars, ok_bind]
  dsimp only
  rw [padSegment_full, got, ok_bind]
  rfl

/-- The loop follows the segments of a located node to it. -/
theorem resolveSegs_located (kept : Kept ns live) {segs : List Nameseg}
    (located : Located ns live n segs) (some_ : segs ≠ []) (turns : Nat) (rest : List Byte) :
    resolveSegs ns (turns + segs.length) ((dotted segs).tail ++ rest) ns.rootNode =
      throughAlias ns n >>= afterSegment ns turns rest := by
  induction located generalizing turns rest with
  | root => exact absurd rfl some_
  | @child p c segs above member below plain ih =>
    have inside := above.lt kept
    rw [List.length_append, List.length_singleton, dotted_snoc]
    obtain rfl | more := eq_or_ne segs []
    · rw [← above.eq_rootNode]
      exact resolveSegs_child kept inside member below plain turns rest
    · have dots : dotted segs ≠ [] := by
        intro none_
        have length := length_dotted segs
        rw [none_, List.length_nil] at length
        exact more (List.eq_nil_of_length_eq_zero (by omega))
      obtain ⟨_, real⟩ := kept.tree.parent_lt
        ((Located.child above member below plain).lt kept) below
      obtain ⟨m, through, _, _, itself⟩ := throughAlias_spec kept.tree inside
      rw [List.tail_append_of_ne_nil dots, List.append_assoc, Nat.add_comm segs.length 1,
        ← Nat.add_assoc, ih more, through, itself real, ok_bind, afterSegment, List.cons_append,
        readAt_of rfl, ok_bind, if_neg (by decide), laiEnsure_of rfl, ok_bind, List.drop_one,
        List.tail_cons]
      exact resolveSegs_child kept inside member below plain turns rest

/-- The text of a located node leads to it from the root. -/
theorem resolveSegs_pathText (kept : Kept ns live) {segs : List Nameseg}
    (located : Located ns live n segs) (some_ : segs ≠ []) :
    ∃ b path, (dotted segs).tail ++ [0] = b :: path ∧ b ≠ 0 ∧
      resolveSegs ns (b :: path).length (b :: path) ns.rootNode =
        throughAlias ns n >>= fun m => .ok (some m) := by
  obtain ⟨first, others, rfl⟩ := List.exists_cons_of_ne_nil some_
  have bytes : first.1 ≠ [] := fun none_ => by
    have four := first.2
    rw [none_] at four
    cases four
  obtain ⟨b, more, shape⟩ := List.exists_cons_of_ne_nil bytes
  have text : (dotted (first :: others)).tail ++ [0] = b :: (more ++ dotted others ++ [0]) := by
    rw [dotted, List.flatMap_cons, ← dotted, shape]
    rfl
  have char : laiIsName b :=
    located.plain first List.mem_cons_self b (by rw [shape]; exact List.mem_cons_self)
  have turns : (b :: (more ++ dotted others ++ [0])).length =
      4 * (first :: others).length + (first :: others).length := by
    rw [← text, List.length_append, List.length_tail, length_dotted, List.length_cons,
      List.length_singleton]
    omega
  refine ⟨b, _, text, ?_, ?_⟩
  · rintro rfl
    exact absurd char (by decide)
  · rw [turns, ← text, resolveSegs_located kept located some_]
    rfl

/-- In every run a node below ancestors of the tree has a path whose text leads back to it, from
wherever it is resolved; an alias leads to what it stands for. -/
theorem laiResolvePath_laiStringifyNodePath
    (run : namespaceRuns.Reach anyStep (ns, live)) {segs : List Nameseg}
    (located : Located ns live n segs) :
    laiStringifyNodePath ns n = .error .refused ∨ ∃ path m,
      laiStringifyNodePath ns n = .ok path ∧ throughAlias ns n = .ok m ∧
        ((ns.node n).type ≠ .aliased → m = n) ∧ ∀ ctxHandle : Option NodeId,
          (∀ ctx ∈ ctxHandle, ctx < ns.size) → laiResolvePath ns ctxHandle path = .ok (some m) := by
  have kept := kept_of_run run
  obtain refused | printed := laiStringifyNodePath_spec kept located
  · exact .inl refused
  obtain ⟨m, through, _, _, itself⟩ := throughAlias_spec kept.tree (located.lt kept)
  refine .inr ⟨_, m, printed, through, itself, fun ctxHandle valid => ?_⟩
  have inside : ctxHandle.getD ns.rootNode < ns.size := by
    cases ctxHandle with
    | none => exact kept.tree.rootNode.1
    | some ctx => exact valid ctx rfl
  have start : rootOrCarets (pathText segs) = (true, 0, (dotted segs).tail ++ [0]) := if_pos rfl
  rw [laiResolvePath, start]
  dsimp only
  rw [if_pos rfl, climbToRoot_spec kept.tree inside (Nat.lt_succ_self _), ok_bind]
  obtain rfl | more := eq_or_ne segs []
  · obtain rfl := located.eq_rootNode
    rw [itself (by rw [kept.tree.rootNode.2]; decide)]
    rfl
  · obtain ⟨b, rest, text, notEnd, resolved⟩ := resolveSegs_pathText kept located more
    rw [text, readAt_of rfl, ok_bind, if_neg notEnd, resolved, through, ok_bind]

theorem laiResolvePath_laiStringifyNodePath_of_scope :
    laiStringifyNodePath withScope 1 = .error .refused ∨ ∃ path m,
      laiStringifyNodePath withScope 1 = .ok path ∧ throughAlias withScope 1 = .ok m ∧
        ((withScope.node 1).type ≠ .aliased → m = 1) ∧ ∀ ctxHandle : Option NodeId,
          (∀ ctx ∈ ctxHandle, ctx < 2) → laiResolvePath withScope ctxHandle path = .ok (some m) :=
  laiResolvePath_laiStringifyNodePath run_withScope
    (.child .root (by decide) rfl (by decide))

end X86Os.Lai
