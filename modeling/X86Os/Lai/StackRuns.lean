import X86Os.Lai.Stacks

/-!
# Runs over arbitrary bytecode

Each turn of `lai_exec_process` keeps the stacks in step. A run that started with
a method and succeeded therefore leaves one object and empty stacks, which is
what `lai_eval_args` checks.
-/

namespace X86Os.Lai

open Library.Memory
set_option autoImplicit false

variable {aml : Aml} {s s' t : LaiState} {item : StackItem} {st : List StackItem} {nb nc : ℕ}
  {base ops xs : List Operand} {mode : Mode} {v : Variable} {y : Operand} {want : Bool}

/-! ### What processing does -/

/-- What is under an item: nothing, or an item that waits for the result if there is one. -/
inductive Below (want : Bool) : List StackItem → ℕ → ℕ → List Operand → Prop
  | bottom (wanted : want = true) : Below want [] 0 0 []
  | above {st : List StackItem} {nb nc : ℕ} {base : List Operand} {mode : Mode}
    (below : Stacked st nb nc base) (reads : Reads st base.length mode)
    (wants : want → mode.result) : Below want st nb nc base

theorem Stacked.split (stacked : Stacked (item :: st) nb nc ops) :
    ∃ nb' nc' base xs, nb = nb' + item.blocks ∧ nc = nc' + item.contexts ∧ ops = base ++ xs ∧
      Collected base xs item ∧ Below item.wants st nb' nc' base := by
  cases stacked with
  | method => exact ⟨0, 0, [], [], rfl, rfl, rfl, rfl, .bottom rfl⟩
  | above below reads wants collected =>
    exact ⟨_, _, _, _, rfl, rfl, rfl, collected, .above below reads wants⟩

/-- Another item takes the place of the one that was there. -/
theorem Below.stack (below : Below want st nb nc base)
    (same : item = .method want ∨ want = false ∧ item.wants = false)
    (collected : Collected base xs item) :
    Stacked (item :: st) (nb + item.blocks) (nc + item.contexts) (base ++ xs) := by
  cases below with
  | bottom wanted =>
    obtain rfl | ⟨none_, _⟩ := same
    · obtain rfl : xs = [] := collected
      rw [wanted]
      exact .method
    · cases wanted.symm.trans none_
  | above below reads wants =>
    refine .above below reads (fun some_ => ?_) collected
    obtain rfl | ⟨_, none_⟩ := same
    · exact wants some_
    · cases none_.symm.trans some_

def Settled (st : List StackItem) (nb nc : ℕ) (ops : List Operand) : Prop :=
  Stacked st nb nc ops ∨ st = [] ∧ nb = 0 ∧ nc = 0 ∧ ∃ v, ops = [.object v]

/-- The item answers and goes. -/
theorem Below.answer (below : Below want st nb nc base) (v : Variable) :
    Settled st nb nc (if want then base ++ [.object v] else base) := by
  cases below with
  | bottom wanted =>
    rw [wanted]
    exact .inr ⟨rfl, rfl, rfl, v, rfl⟩
  | above below reads wants =>
    split_ifs with wanted
    · exact .inl (below.push reads (wants wanted) fun _ => ⟨v, rfl⟩)
    · exact .inl below

def LaiState.Settled (s : LaiState) : Prop :=
  Lai.Settled s.stack s.blkstack.length s.ctxstack.length s.opstack

structure SameStacks (s s' : LaiState) : Prop where
  stack : s'.stack = s.stack
  blks : s'.blkstack = s.blkstack
  ctxs : s'.ctxstack.length = s.ctxstack.length
  ops : s'.opstack = s.opstack

theorem SameStacks.refl (s : LaiState) : SameStacks s s := ⟨rfl, rfl, rfl, rfl⟩

theorem SameStacks.trans (first : SameStacks s t) (second : SameStacks t s') : SameStacks s s' :=
  ⟨second.stack.trans first.stack, second.blks.trans first.blks, second.ctxs.trans first.ctxs,
    second.ops.trans first.ops⟩

theorem laiStoreNs_kept {n : NodeId} (stored : laiStoreNs aml s n v = .ok s') : SameStacks s s' := by
  rw [laiStoreNs] at stored
  split_ifs at stored
  obtain rfl := Except.ok.inj stored
  exact ⟨rfl, rfl, rfl, rfl⟩

theorem laiExecMutateNs_kept {n : NodeId} (stored : laiExecMutateNs aml s n v = .ok s') :
    SameStacks s s' := by
  unfold laiExecMutateNs at stored
  split at stored
  · split_ifs at stored
  · exact laiStoreNs_kept stored

theorem kept_setInvocation (s : LaiState) (invocation : Invocation) :
    SameStacks s (s.setInvocation invocation) :=
  ⟨rfl, rfl, List.length_modifyHead, rfl⟩

theorem storeWith_kept {storeNs : LaiState → NodeId → Variable → Except Halt LaiState}
    (named : ∀ {n}, storeNs s n v = .ok s' → SameStacks s s')
    (stored : storeWith storeNs s y v = .ok s') : SameStacks s s' := by
  cases y with
  | object => cases stored
  | nullName | debugName =>
    obtain rfl := Except.ok.inj stored
    exact .refl s
  | resolvedName n => exact named stored
  | argName | localName =>
    obtain ⟨_, _, same⟩ := bind_eq_ok.mp stored
    obtain rfl := Except.ok.inj same
    exact kept_setInvocation s _

theorem laiOperandMutate_kept (stored : laiOperandMutate aml s y v = .ok s') : SameStacks s s' :=
  storeWith_kept laiExecMutateNs_kept stored

theorem laiOperandEmplace_kept (stored : laiOperandEmplace aml s y v = .ok s') : SameStacks s s' :=
  storeWith_kept laiStoreNs_kept stored

theorem reduceStore_kept {store : LaiState → Operand → Variable → Except Halt LaiState}
    (keeps : ∀ {y w}, store s y w = .ok s' → SameStacks s s')
    (done : reduceStore store s xs = .ok (v, s')) : SameStacks s s' := by
  unfold reduceStore at done
  split at done
  · obtain ⟨_, _, done⟩ := bind_eq_ok.mp done
    obtain ⟨t, stored, same⟩ := bind_eq_ok.mp done
    obtain ⟨_, rfl⟩ := Prod.mk.inj (Except.ok.inj same)
    exact keeps stored
  · cases done

theorem reduceUnary_kept {f : Word → Word} (done : reduceUnary aml f s xs = .ok (v, s')) :
    SameStacks s s' := by
  unfold reduceUnary at done
  split at done
  · obtain ⟨_, _, done⟩ := bind_eq_ok.mp done
    obtain ⟨t, stored, same⟩ := bind_eq_ok.mp done
    obtain ⟨_, rfl⟩ := Prod.mk.inj (Except.ok.inj same)
    exact laiOperandMutate_kept stored
  · cases done

theorem reduceBinary_kept {f : Word → Word → Option Word}
    (done : reduceBinary aml f s xs = .ok (v, s')) : SameStacks s s' := by
  unfold reduceBinary at done
  split at done
  · obtain ⟨x, _, done⟩ := bind_eq_ok.mp done
    obtain ⟨y, _, done⟩ := bind_eq_ok.mp done
    cases value : f x y with
    | none =>
      rw [value] at done
      cases done
    | some z =>
      rw [value] at done
      obtain ⟨t, stored, same⟩ := bind_eq_ok.mp done
      obtain ⟨_, rfl⟩ := Prod.mk.inj (Except.ok.inj same)
      exact laiOperandMutate_kept stored
  · cases done

theorem reduceLogical_kept {f : Word → Word → Word}
    (done : reduceLogical f s xs = .ok (v, s')) : SameStacks s s' := by
  unfold reduceLogical at done
  split at done
  · obtain ⟨_, _, done⟩ := bind_eq_ok.mp done
    obtain ⟨_, _, same⟩ := bind_eq_ok.mp done
    obtain ⟨_, rfl⟩ := Prod.mk.inj (Except.ok.inj same)
    exact .refl s
  · cases done

theorem reduceMatch_kept {f : Word → Word → Bool} (done : reduceMatch f s xs = .ok (v, s')) :
    SameStacks s s' := by
  unfold reduceMatch at done
  split at done
  · obtain ⟨_, _, done⟩ := bind_eq_ok.mp done
    obtain ⟨_, _, done⟩ := bind_eq_ok.mp done
    split at done
    · obtain ⟨_, rfl⟩ := Prod.mk.inj (Except.ok.inj done)
      exact .refl s
    · cases done
  · cases done

theorem reduceStep_kept {f : Word → Word} (done : reduceStep aml f s xs = .ok (v, s')) :
    SameStacks s s' := by
  unfold reduceStep at done
  split at done
  · obtain ⟨loaded, _, done⟩ := bind_eq_ok.mp done
    cases loaded with
    | none => cases done
    | integer value =>
      obtain ⟨t, stored, same⟩ := bind_eq_ok.mp done
      obtain ⟨_, rfl⟩ := Prod.mk.inj (Except.ok.inj same)
      exact laiOperandMutate_kept stored
  · cases done

theorem reduceNot_kept (done : reduceNot s xs = .ok (v, s')) : SameStacks s s' := by
  unfold reduceNot at done
  split at done
  · obtain ⟨_, _, same⟩ := bind_eq_ok.mp done
    obtain ⟨_, rfl⟩ := Prod.mk.inj (Except.ok.inj same)
    exact .refl s
  · cases done

theorem reduceDivide_kept (done : reduceDivide aml s xs = .ok (v, s')) : SameStacks s s' := by
  unfold reduceDivide at done
  split at done
  · obtain ⟨_, _, done⟩ := bind_eq_ok.mp done
    obtain ⟨y, _, done⟩ := bind_eq_ok.mp done
    split_ifs at done
    obtain ⟨t, first, done⟩ := bind_eq_ok.mp done
    obtain ⟨u, second, same⟩ := bind_eq_ok.mp done
    obtain ⟨_, rfl⟩ := Prod.mk.inj (Except.ok.inj same)
    exact (laiOperandMutate_kept first).trans (laiOperandMutate_kept second)
  · cases done

theorem laiExecReduceOp_kept {opcode : Opcode}
    (done : laiExecReduceOp aml s opcode xs = .ok (v, s')) : SameStacks s s' := by
  cases opcode with
  | store => exact reduceStore_kept laiOperandMutate_kept done
  | copyObject => exact reduceStore_kept laiOperandEmplace_kept done
  | not | findSetLeftBit | findSetRightBit => exact reduceUnary_kept done
  | divide => exact reduceDivide_kept done
  | increment | decrement => exact reduceStep_kept done
  | lnot => exact reduceNot_kept done
  | land | lor => exact reduceLogical_kept done
  | lequal | lless | lgreater => exact reduceMatch_kept done
  | _ =>
    rw [laiExecReduceOp] at done
    exact reduceBinary_kept done

/-! ### Processing keeps the stacks in step -/

theorem laiExecPopStackBack_eq_ok (left : laiExecPopStackBack s = .ok s') :
    ∃ item, s.stack = item :: s'.stack ∧ s'.blkstack = s.blkstack ∧ s'.ctxstack = s.ctxstack ∧
      s'.opstack = s.opstack := by
  obtain ⟨st, popped_, same⟩ := bind_eq_ok.mp left
  obtain ⟨item, items⟩ := popped_eq_ok popped_
  obtain rfl := Except.ok.inj same
  exact ⟨item, items, rfl, rfl, rfl⟩

theorem leaveContext_eq_ok (left : leaveContext s = .ok s') :
    ∃ ctx block item, s.ctxstack = ctx :: s'.ctxstack ∧ s.blkstack = block :: s'.blkstack ∧
      s.stack = item :: s'.stack ∧ s'.opstack = s.opstack := by
  obtain ⟨s₁, first, second⟩ := bind_eq_ok.mp left
  obtain ⟨cs, popped_, same⟩ := bind_eq_ok.mp first
  obtain ⟨ctx, ctxs⟩ := popped_eq_ok popped_
  obtain rfl := Except.ok.inj same
  obtain ⟨block, item, blks, stack, ctxs', ops⟩ := leaveBlock_eq_ok second
  obtain rfl := ctxs'.symm
  exact ⟨ctx, block, item, ctxs, blks, stack, ops⟩

theorem opstack_pushIf (s : LaiState) :
    (s.pushIf want v).opstack = if want then s.opstack ++ [.object v] else s.opstack := by
  cases want <;> rfl

theorem pushIf_rest (s : LaiState) (want : Bool) (v : Variable) : (s.pushIf want v).stack = s.stack ∧
    (s.pushIf want v).blkstack = s.blkstack ∧ (s.pushIf want v).ctxstack = s.ctxstack := by
  cases want <;> exact ⟨rfl, rfl, rfl⟩

/-- An item without a block of its own answers. -/
theorem Below.answer_pop (below : Below want st s.blkstack.length s.ctxstack.length s.opstack)
    (stack : s.stack = item :: st) (left : laiExecPopStackBack (s.pushIf want v) = .ok s') :
    s'.Settled := by
  obtain ⟨item', stack', blks, ctxs, ops⟩ := laiExecPopStackBack_eq_ok left
  obtain ⟨stack'', blks', ctxs'⟩ := pushIf_rest s want v
  rw [stack'', stack] at stack'
  rw [LaiState.Settled, ops, opstack_pushIf, blks, blks', ctxs, ctxs', ← (List.cons.inj stack').2]
  exact below.answer v

/-- An item with a context has answered and goes. -/
theorem Below.answer_leave (below : Below want st nb nc base) (stack : s.stack = item :: st)
    (blks : s.blkstack.length = nb + 1) (ctxs : s.ctxstack.length = nc + 1)
    (ops : s.opstack = if want then base ++ [.object v] else base)
    (left : leaveContext s = .ok s') : s'.Settled := by
  obtain ⟨ctx, block, item', ctxs', blks', stack', ops'⟩ := leaveContext_eq_ok left
  rw [stack] at stack'
  rw [ctxs', List.length_cons] at ctxs
  rw [blks', List.length_cons] at blks
  rw [LaiState.Settled, ops', ops, Nat.succ.inj blks, Nat.succ.inj ctxs, ← (List.cons.inj stack').2]
  exact below.answer v

/-- A loop or a conditional goes without an answer. -/
theorem Below.leave (below : Below false st nb nc s.opstack) (stack : s.stack = item :: st)
    (blks : s.blkstack.length = nb + 1) (ctxs : s.ctxstack.length = nc)
    (left : leaveBlock s = .ok s') : s'.Settled := by
  obtain ⟨block, item', blks', stack', ctxs', ops⟩ := leaveBlock_eq_ok left
  rw [blks', List.length_cons] at blks
  rw [stack] at stack'
  rw [LaiState.Settled, ops, ctxs', ctxs, Nat.succ.inj blks, ← (List.cons.inj stack').2]
  exact below.answer .none

theorem collected_eq (ops : s.opstack = base ++ xs) : collected s base.length = xs := by
  rw [collected, ops, List.drop_left]

theorem opstack_popOperands (ops : s.opstack = base ++ xs) :
    (popOperands s base.length).opstack = base := by
  rw [popOperands, ops, List.take_left]

theorem holds_of_ensure {cond : Prop} [Decidable cond] {u : Unit} (passed : ensure cond = .ok u) :
    cond :=
  laiEnsure_eq_ok.mp (within_eq_ok.mp passed)

theorem nestedInMethod_spec {m : ℕ} (counted : nestedInMethod st = .ok (m, want)) :
    ∃ nested rest, st = nested ++ .method want :: rest ∧ nested.length = m ∧
      ∀ i ∈ nested, i.Nested := by
  induction st generalizing m with
  | nil => cases counted
  | cons item st ih =>
    cases item with
    | method w =>
      obtain ⟨rfl, rfl⟩ := Prod.mk.inj (Except.ok.inj counted)
      exact ⟨[], st, rfl, rfl, fun _ member => nomatch member⟩
    | loop | cond =>
      obtain ⟨⟨k, w⟩, counted', same⟩ := bind_eq_ok.mp counted
      obtain ⟨rfl, rfl⟩ := Prod.mk.inj (Except.ok.inj same)
      obtain ⟨nested, rest, rfl, rfl, inner⟩ := ih counted'
      exact ⟨_ :: nested, rest, rfl, rfl, List.forall_mem_cons.mpr ⟨trivial, inner⟩⟩
    | _ => cases counted

/-- A predicate has been collected or is read next. -/
theorem predicate_eq_ok {f : ℕ} {value : Option Word} (found : predicate s f = .ok value) :
    value = none ∧ s.opstack.length ≤ f ∨ ∃ x, value = some x := by
  obtain ⟨_, _, found⟩ := bind_eq_ok.mp found
  split at found
  · obtain ⟨x, _, same⟩ := bind_eq_ok.mp found
    exact .inr ⟨x, (Except.ok.inj same).symm⟩
  · next none_ =>
    have few := congrArg List.length none_
    rw [collected, List.length_drop, List.length_nil] at few
    exact .inl ⟨(Except.ok.inj found).symm, by omega⟩

/-- A loop or a conditional turns to another part of its code. -/
theorem settled_of_setTop {item' : StackItem} (stack : s.stack = item :: st) {nb : ℕ}
    (blks : s.blkstack.length = nb + item'.blocks) (ctxs : s.ctxstack.length = nc + item'.contexts)
    (below : Below false st nb nc s.opstack) (plain : item'.wants = false)
    (collected : Collected s.opstack [] item') : (s.setTop item').Settled := by
  have stacked := below.stack (.inr ⟨rfl, plain⟩) collected
  rw [List.append_nil, ← blks, ← ctxs] at stacked
  refine .inl ?_
  rw [LaiState.setTop]
  dsimp only
  rw [stack]
  exact stacked

section

variable {block : BlkItem} (stacked : Stacked s.stack s.blkstack.length s.ctxstack.length s.opstack)
include stacked

theorem settled_of_parse (stack : s.stack = item :: st) (reads : item.next s.opstack.length = some mode)
    (parsed : laiExecParse aml mode s = .ok s') : s'.Settled := by
  refine .inl (stacked.parse ?_ parsed)
  rw [stack]
  exact reads

theorem processPopulate_settles (stack : s.stack = .populate :: st)
    (done : processItem aml s block .populate = .ok s') : s'.Settled := by
  rw [processItem] at done
  split_ifs at done
  · rw [stack] at stacked
    obtain ⟨nb, nc, base, xs, blks, ctxs, ops, rfl, below⟩ := stacked.split
    rw [List.append_nil] at ops
    exact below.answer_leave (v := .none) stack blks ctxs ops done
  · exact settled_of_parse stacked stack rfl done

theorem processMethod_settles (stack : s.stack = .method want :: st)
    (done : processMethod aml s block want = .ok s') : s'.Settled := by
  rw [processMethod] at done
  split_ifs at done
  · obtain ⟨_, _, left⟩ := bind_eq_ok.mp done
    rw [stack] at stacked
    obtain ⟨nb, nc, base, xs, blks, ctxs, ops, rfl, below⟩ := stacked.split
    rw [List.append_nil] at ops
    obtain ⟨stack', blks', ctxs'⟩ := pushIf_rest s want (.integer 0)
    refine below.answer_leave (v := .integer 0) (stack'.trans stack) (by rw [blks']; exact blks)
      (by rw [ctxs']; exact ctxs) ?_ left
    rw [opstack_pushIf, ops]
    rfl
  · exact settled_of_parse stacked stack rfl done

theorem processOp_settles {f : ℕ} {opcode : Opcode} {modes : List Mode}
    (stack : s.stack = .op f opcode modes want :: st)
    (done : processOp aml s f opcode modes want = .ok s') : s'.Settled := by
  unfold processOp at done
  split at done
  · next mode more =>
    rw [collected, List.length_drop] at more
    exact settled_of_parse stacked stack more done
  · obtain ⟨⟨result, t⟩, reduced, left⟩ := bind_eq_ok.mp done
    have kept := laiExecReduceOp_kept reduced
    rw [stack] at stacked
    obtain ⟨nb, nc, base, xs, blks, ctxs, ops, ⟨rfl, _⟩, below⟩ := stacked.split
    refine Below.answer_pop (s := popOperands t base.length) ?_ (kept.stack.trans stack) left
    rw [opstack_popOperands (kept.ops.trans ops)]
    have blks' : t.blkstack.length = nb := by rw [kept.blks]; exact blks
    have ctxs' : t.ctxstack.length = nc := kept.ctxs.trans ctxs
    rw [← blks', ← ctxs'] at below
    exact below

theorem processInvoke_settles {f argc : ℕ} (stack : s.stack = .invoke f argc want :: st)
    (done : processInvoke aml s f argc want = .ok s') : s'.Settled := by
  obtain ⟨_, few, done⟩ := bind_eq_ok.mp done
  split_ifs at done with full
  · rw [stack] at stacked
    obtain ⟨nb, nc, base, xs, blks, ctxs, ops, ⟨rfl, handle, vs, rfl, _⟩, below⟩ := stacked.split
    rw [collected_eq ops] at done
    dsimp only at done
    cases code : aml.method handle with
    | none =>
      rw [code] at done
      cases done
    | some method =>
      rw [code] at done
      obtain ⟨args, _, done⟩ := bind_eq_ok.mp done
      obtain ⟨t, left, same⟩ := bind_eq_ok.mp done
      obtain rfl := Except.ok.inj same
      obtain ⟨item, stack', blks', ctxs', ops'⟩ := laiExecPopStackBack_eq_ok left
      have rest : t.stack = st := (List.cons.inj (stack'.symm.trans stack)).2
      have called : Stacked (.method want :: st) (nb + 1) (nc + 1) (base ++ []) :=
        below.stack (.inl rfl) rfl
      rw [List.append_nil, ← opstack_popOperands ops] at called
      have blks'' : t.blkstack.length = nb := by rw [blks']; exact blks
      have ctxs'' : t.ctxstack.length = nc := by rw [ctxs']; exact ctxs
      refine .inl ?_
      dsimp only
      rw [rest, List.length_cons, List.length_cons, blks'', ctxs'', ops']
      exact called
  · refine settled_of_parse stacked stack ?_ done
    have few' := holds_of_ensure few
    rw [collected, List.length_drop] at full few'
    rw [StackItem.next, if_pos (by omega)]

theorem processReturn_settles {f : ℕ} (stack : s.stack = .return_ f :: st)
    (done : processReturn aml s f = .ok s') : s'.Settled := by
  obtain ⟨_, _, done⟩ := bind_eq_ok.mp done
  split at done
  · next operand rest operands =>
    obtain ⟨result, _, done⟩ := bind_eq_ok.mp done
    obtain ⟨⟨m, want⟩, counted, done⟩ := bind_eq_ok.mp done
    obtain ⟨t, left, done⟩ := bind_eq_ok.mp done
    obtain ⟨u, popped_, left'⟩ := bind_eq_ok.mp done
    rw [stack] at stacked counted
    rw [List.tail_cons] at counted
    obtain ⟨nb, nc, base, xs, blks, ctxs, ops, ⟨rfl, _⟩, below⟩ := stacked.split
    obtain ⟨nested, rest', whole, length, inner⟩ := nestedInMethod_spec counted
    obtain ⟨item, stack₁, blks₁, ctxs₁, ops₁⟩ := laiExecPopStackBack_eq_ok left
    obtain ⟨nested', length', _, stack₂, blks₂, ctxs₂, ops₂⟩ := popNested_eq_ok popped_
    obtain ⟨stack₀, blks₀, ctxs₀⟩ := pushIf_rest (popOperands s base.length) want result
    have unstacked : t.stack = st := by
      rw [stack₀] at stack₁
      exact (List.cons.inj (stack₁.symm.trans stack)).2
    have method : u.stack = .method want :: rest' :=
      List.append_inj_right (stack₂.symm.trans (unstacked.trans whole)) (length'.trans length.symm)
    obtain _ | ⟨stacked', reads, _⟩ := below
    · cases nested <;> cases whole
    rw [whole] at stacked' reads
    obtain ⟨nb', unwound, stacked', _⟩ := stacked'.unwind inner reads
    obtain ⟨nb'', nc', base', _, inner', rfl, ops', rfl, below'⟩ := stacked'.split
    rw [List.append_nil] at ops'
    refine below'.answer_leave (v := result) method ?_ ?_ ?_ left'
    · have blks₃ : t.blkstack.length = nb := by rw [blks₁, blks₀]; exact blks
      have one : nb' = nb'' + 1 := inner'
      omega
    · rw [ctxs₂, ctxs₁, ctxs₀]
      exact ctxs
    · rw [ops₂, ops₁, opstack_pushIf, opstack_popOperands ops, ops']
      rfl
  · next none_ =>
    refine settled_of_parse stacked stack ?_ done
    have few := congrArg List.length none_
    rw [collected, List.length_drop, List.length_nil] at few
    rw [StackItem.next, if_pos (by omega)]

theorem processLoop_settles {f pred : ℕ} {iteration : Bool}
    (stack : s.stack = .loop f iteration pred :: st)
    (done : processLoop aml s block f iteration pred = .ok s') : s'.Settled := by
  have whole := stacked
  rw [stack] at whole
  obtain ⟨nb, nc, base, xs, blks, ctxs, ops, ⟨rfl, held⟩, below⟩ := whole.split
  cases iteration with
  | true =>
    obtain rfl : xs = [] := held
    rw [List.append_nil] at ops
    rw [processLoop, if_pos rfl] at done
    split_ifs at done
    · obtain rfl := Except.ok.inj done
      refine settled_of_setTop (s := s.commitPc pred) stack ((length_commitPc s pred).trans blks) ctxs
        (by rw [← ops] at below; exact below) rfl ⟨?_, .inl rfl⟩
      exact congrArg List.length ops.symm
    · exact settled_of_parse stacked stack rfl done
  | false =>
    rw [processLoop, if_neg Bool.false_ne_true] at done
    obtain ⟨value, found, done⟩ := bind_eq_ok.mp done
    obtain ⟨rfl, few⟩ | ⟨x, rfl⟩ := predicate_eq_ok found
    · exact settled_of_parse stacked stack (if_pos few) done
    · have ops' := opstack_popOperands ops
      rw [← ops'] at below
      dsimp only at done
      split_ifs at done
      · obtain rfl := Except.ok.inj done
        exact settled_of_setTop (s := popOperands s base.length) stack blks ctxs below rfl
          ⟨congrArg List.length ops'.symm, rfl⟩
      · exact below.leave stack blks ctxs done

theorem processCond_settles {f elsePc elseLimit : ℕ} {branch hasElse : Bool}
    (stack : s.stack = .cond f branch hasElse elsePc elseLimit :: st)
    (done : processCond aml s block f branch hasElse elsePc elseLimit = .ok s') : s'.Settled := by
  have whole := stacked
  rw [stack] at whole
  obtain ⟨nb, nc, base, xs, blks, ctxs, ops, ⟨rfl, held⟩, below⟩ := whole.split
  cases branch with
  | true =>
    obtain rfl : xs = [] := held
    rw [List.append_nil] at ops
    rw [processCond, if_pos rfl] at done
    split_ifs at done
    · rw [← ops] at below
      exact below.leave stack blks ctxs done
    · exact settled_of_parse stacked stack rfl done
  | false =>
    rw [processCond, if_neg Bool.false_ne_true] at done
    obtain ⟨value, found, done⟩ := bind_eq_ok.mp done
    obtain ⟨rfl, few⟩ | ⟨x, rfl⟩ := predicate_eq_ok found
    · exact settled_of_parse stacked stack (if_pos few) done
    · have ops' := opstack_popOperands ops
      rw [← ops'] at below
      have turned :
          ((popOperands s base.length).setTop (.cond base.length true hasElse elsePc elseLimit)).Settled :=
        settled_of_setTop (s := popOperands s base.length) stack blks ctxs below rfl
          ⟨congrArg List.length ops'.symm, rfl⟩
      dsimp only at done
      split_ifs at done
      · obtain rfl := Except.ok.inj done
        exact turned
      · obtain rfl := Except.ok.inj done
        rw [LaiState.Settled] at turned ⊢
        dsimp only
        rw [List.length_modifyHead]
        exact turned
      · exact below.leave stack blks ctxs done

/-- One turn of the interpreter keeps the stacks in step. -/
theorem laiExecProcess_settles (done : laiExecProcess aml s = .ok s') : s'.Settled := by
  unfold laiExecProcess at done
  split at done
  · next item st _ _ block _ stack _ _ =>
    obtain ⟨_, _, done⟩ := bind_eq_ok.mp done
    cases item with
    | populate => exact processPopulate_settles stacked stack done
    | method => exact processMethod_settles stacked stack done
    | op => exact processOp_settles stacked stack done
    | invoke => exact processInvoke_settles stacked stack done
    | return_ => exact processReturn_settles stacked stack done
    | loop => exact processLoop_settles stacked stack done
    | cond => exact processCond_settles stacked stack done
  · cases done

end

/-! ### Runs -/

variable {object : NodeId → Variable} {n : NodeId} {m : Method} {args : List Variable} {turns : ℕ}

theorem settled_of_steps (steps : Steps aml (startMethod (laiInitState object) n m args) s) :
    s.Settled := by
  induction steps with
  | refl => exact .inl .method
  | @tail s t _ move ih =>
    obtain stacked | ⟨none_, _⟩ := ih
    · exact laiExecProcess_settles stacked move
    · rw [laiExecProcess, none_] at move
      cases move

theorem Stacked.counts (stacked : Stacked st nb nc ops) :
    nb = (st.map StackItem.blocks).sum ∧ nc = (st.map StackItem.contexts).sum ∧ 0 < nb ∧ 0 < nc := by
  induction stacked with
  | method => exact ⟨rfl, rfl, Nat.one_pos, Nat.one_pos⟩
  | above _ _ _ _ ih =>
    obtain ⟨blks, ctxs, some_, some'⟩ := ih
    refine ⟨?_, ?_, Nat.add_pos_left some_ _, Nat.add_pos_left some' _⟩
    · rw [List.map_cons, List.sum_cons, blks, Nat.add_comm]
    · rw [List.map_cons, List.sum_cons, ctxs, Nat.add_comm]

/-- While a method runs, each item on the stack has its own blocks and contexts on theirs, and there
is always a current one of both. -/
theorem steps_counts (steps : Steps aml (startMethod (laiInitState object) n m args) s)
    (more : s.stack ≠ []) :
    s.blkstack.length = (s.stack.map StackItem.blocks).sum ∧
      s.ctxstack.length = (s.stack.map StackItem.contexts).sum ∧
        s.blkstack ≠ [] ∧ s.ctxstack ≠ [] := by
  obtain stacked | ⟨none_, _⟩ := settled_of_steps steps
  · obtain ⟨blks, ctxs, some_, some'⟩ := stacked.counts
    exact ⟨blks, ctxs, List.length_pos_iff.mp some_, List.length_pos_iff.mp some'⟩
  · exact absurd none_ more

theorem steps_counts_of_countdown : ∃ t,
    laiExecProcess countdownAml (startMethod (laiInitState fun _ => .none) 1 countdownCode []) = .ok t ∧
      t.blkstack.length = (t.stack.map StackItem.blocks).sum ∧
        t.ctxstack.length = (t.stack.map StackItem.contexts).sum ∧
          t.blkstack ≠ [] ∧ t.ctxstack ≠ [] := by
  obtain ⟨t, move, more⟩ : ∃ t, laiExecProcess countdownAml
      (startMethod (laiInitState fun _ => .none) 1 countdownCode []) = .ok t ∧ t.stack ≠ [] :=
    ⟨_, rfl, List.cons_ne_nil _ _⟩
  exact ⟨t, move, steps_counts (Steps.step move .refl) more⟩

theorem steps_of_laiExecRun (ends : laiExecRun aml turns s = some (.ok s')) :
    Steps aml s s' ∧ s'.stack = [] := by
  induction turns generalizing s with
  | zero =>
    obtain ⟨last, same⟩ := Option.ite_none_right_eq_some.mp ends
    obtain rfl := Except.ok.inj (Option.some.inj same)
    exact ⟨.refl, last⟩
  | succ turns ih =>
    rw [laiExecRun] at ends
    split_ifs at ends with last
    · obtain rfl := Except.ok.inj (Option.some.inj ends)
      exact ⟨.refl, last⟩
    · cases move : laiExecProcess aml s with
      | error halt =>
        rw [move] at ends
        cases ends
      | ok t =>
        rw [move] at ends
        obtain ⟨steps, last⟩ := ih ends
        exact ⟨steps.step move, last⟩

/-- Whatever the code of a method is, a run of it that succeeds leaves one object and nothing else on
the stacks, so that `lai_eval_args` passes its own checks and returns the object. -/
theorem laiEvalArgs_of_laiExecRun (callable : (aml.ns.node n).type = .method)
    (code : aml.method n = some m)
    (ends : laiExecRun aml turns (startMethod (laiInitState object) n m args) = some (.ok s)) :
    ∃ v, s = ⟨[], [], [], [.object v], s.object⟩ ∧
      laiEvalArgs aml turns (laiInitState object) n args =
        some (.ok (v, laiInitState s.object)) := by
  obtain ⟨steps, last⟩ := steps_of_laiExecRun ends
  obtain stacked | ⟨_, blks, ctxs, v, ops⟩ := settled_of_steps steps
  · rw [last] at stacked
    cases stacked
  obtain ⟨cs, bs, st, xs, values⟩ := s
  obtain rfl := List.length_eq_zero_iff.mp blks
  obtain rfl := List.length_eq_zero_iff.mp ctxs
  obtain rfl : st = [] := last
  obtain rfl : xs = [.object v] := ops
  refine ⟨v, rfl, ?_⟩
  rw [laiEvalArgs, callable]
  dsimp only
  rw [code]
  dsimp only
  rw [ends]
  rfl

theorem laiEvalArgs_of_laiExecRun_of_countdown : ∃ turns v,
    laiEvalArgs countdownAml turns (laiInitState fun _ => .none) 1 [.integer 3] =
      some (.ok (v, laiInitState fun _ => .none)) := by
  obtain ⟨enough, runs⟩ := laiExecRun_of_steps (steps_of_returns countdown_loaded countdown_encodes
    (countdown_evaluates 3) (.return_ _)) rfl
  obtain ⟨v, _, ends⟩ := laiEvalArgs_of_laiExecRun rfl rfl (runs enough le_rfl)
  exact ⟨enough, v, ends⟩

end X86Os.Lai
