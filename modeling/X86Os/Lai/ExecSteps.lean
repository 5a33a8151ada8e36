import X86Os.Lai.Terms

/-!
# Steps of the interpreter

The states in which the interpreter works on a term, and what one call of
`lai_exec_parse` or `lai_exec_process` makes of them.
-/

namespace X86Os.Lai

open Library.Memory Library.LittleEndian
set_option autoImplicit false

variable {aml : Aml} {e e' : Env} {pc pc' mid limit : ℕ} {st : List StackItem} {ops : List Operand}
  {mode : Mode} {item : StackItem} {v : Variable} {bs : List BlkItem}

/-- What stays the same while the terms of one block are worked on. -/
structure Frame where
  handle : NodeId
  code : List Byte
  limit : ℕ
  ctxs : List CtxItem
  blks : List BlkItem

namespace Frame

variable (F : Frame)

def ctx (e : Env) : CtxItem := ⟨F.code, F.handle, some e.invocation⟩

def conf (e : Env) (pc : ℕ) (st : List StackItem) (ops : List Operand) : LaiState :=
  ⟨F.ctx e :: F.ctxs, ⟨pc, F.limit⟩ :: F.blks, st, ops, e.object⟩

/-- The block of a construct whose code ends before `limit`, entered at `pc`. -/
def inner (limit pc : ℕ) : Frame := { F with limit := limit, blks := ⟨pc, F.limit⟩ :: F.blks }

def called (handle : NodeId) (m : Method) (e : Env) (pc : ℕ) : Frame where
  handle := handle
  code := m.pointer
  limit := m.size
  ctxs := F.ctx e :: F.ctxs
  blks := ⟨pc, F.limit⟩ :: F.blks

end Frame

def Steps (aml : Aml) : LaiState → LaiState → Prop :=
  Relation.ReflTransGen fun s t => laiExecProcess aml s = .ok t

theorem Steps.step {s t u : LaiState} (first : laiExecProcess aml s = .ok t)
    (rest : Steps aml t u) : Steps aml s u :=
  Relation.ReflTransGen.head first rest

theorem within_ok {α : Type} {x : α} : within (.ok x) = .ok x := rfl

theorem ensure_of {cond : Prop} [Decidable cond] (holds : cond) : ensure cond = .ok () := by
  rw [ensure, laiEnsure_of holds, within_ok]

variable {F : Frame}

theorem laiExecProcess_conf (within_ : pc ≤ F.limit) :
    laiExecProcess aml (F.conf e pc (item :: st) ops) =
      processItem aml (F.conf e pc (item :: st) ops) ⟨pc, F.limit⟩ item := by
  rw [laiExecProcess]
  dsimp only [Frame.conf]
  rw [ensure_of within_, ok_bind]

theorem collected_conf (xs : List Operand) :
    collected (F.conf e pc st (ops ++ xs)) ops.length = xs :=
  List.drop_left

theorem popOperands_conf (xs : List Operand) :
    popOperands (F.conf e pc st (ops ++ xs)) ops.length = F.conf e pc st ops :=
  congrArg (F.conf e pc st) List.take_left

theorem pushIf_conf (want : Bool) : (F.conf e pc st ops).pushIf want v =
    F.conf e pc st (if want then ops ++ [.object v] else ops) := by
  cases want <;> rfl

theorem laiExecPopStackBack_conf :
    laiExecPopStackBack (F.conf e pc (item :: st) ops) = .ok (F.conf e pc st ops) :=
  rfl

/-! ### Opcodes and names -/

theorem instrs_plain : ∀ p ∈ instrs, laiIsName p.1 = false ∧ p.1 ≠ extopPrefix := by
  decide

theorem plain_of_lookup {first : Byte} {instr : Instr} (known : instrs.lookup first = some instr) :
    laiIsName first = false ∧ first ≠ extopPrefix := by
  obtain ⟨before, behind, table, _⟩ := List.lookup_eq_some_iff.mp known
  apply instrs_plain (first, instr)
  rw [table]
  exact List.mem_append_right _ List.mem_cons_self

/-- The parser at an opcode is in the opcode's case. -/
theorem laiExecParse_instr {instr : Instr} (opcode : InstrAt F.code pc instr pc')
    (inside : pc' ≤ F.limit) : laiExecParse aml mode (F.conf e pc st ops) =
      parseInstr mode (F.conf e pc st ops) (F.ctx e) ⟨pc, F.limit⟩ pc' instr := by
  obtain ⟨first, here, ⟨known, rfl⟩ | ⟨rfl, second, there, known, rfl⟩⟩ := opcode
  · obtain ⟨plain, short⟩ := plain_of_lookup known
    rw [laiExecParse]
    dsimp only [Frame.conf]
    rw [ensure_of (by exact inside), ok_bind, readAt_of (by exact here), within_ok, ok_bind, plain,
      if_neg Bool.false_ne_true, fetch, if_neg short, known]
    rfl
  · rw [laiExecParse]
    dsimp only [Frame.conf]
    rw [ensure_of (by omega), ok_bind, readAt_of (by exact here), within_ok, ok_bind,
      if_neg (by decide), fetch, if_pos rfl, if_neg (by omega), readAt_of (by exact there), within_ok,
      ok_bind, known]
    rfl

/-- The parser at a name that means `node`. -/
theorem laiExecParse_name {node : NodeId} (named : NameAt aml F.handle F.code pc node pc')
    (inside : pc' ≤ F.limit) : laiExecParse aml mode (F.conf e pc st ops) =
      if mode.invoke then
        if (aml.ns.node node).type = .method then
          match aml.method node with
          | none => .error .unmodelled
          | some method => .ok (F.conf e pc'
              (.invoke ops.length (method.methodFlags &&& 7).toNat mode.result :: st)
              (ops ++ [.resolvedName node]))
        else do
          let value ← laiExecAccess aml (F.conf e pc' st ops) node
          .ok ((F.conf e pc' st ops).pushIf mode.result value)
      else .ok (F.conf e pc' st (ops ++ [.resolvedName node])) := by
  obtain ⟨first, amln, size, here, isName, parsed, resolved, some_, rfl⟩ := named
  rw [laiExecParse]
  dsimp only [Frame.conf]
  rw [ensure_of (by omega), ok_bind, readAt_of (by exact here), within_ok, ok_bind, if_pos isName,
    parseName]
  dsimp only [Frame.ctx]
  rw [parsed, within_ok, ok_bind]
  dsimp only
  rw [resolved, within_ok, ok_bind]
  rfl

/-! ### Ways out -/

def atLoop : List StackItem → List BlkItem → Option (List StackItem × List BlkItem)
  | .cond .. :: st, _ :: bs => atLoop st bs
  | .loop f i p :: st, b :: bs => some (.loop f i p :: st, b :: bs)
  | _, _ => none

/-- The stacks below the innermost method, and whether its result is wanted. -/
def belowMethod : List StackItem → List BlkItem → Option (Bool × List StackItem × List BlkItem)
  | .cond .. :: st, _ :: bs => belowMethod st bs
  | .loop .. :: st, _ :: bs => belowMethod st bs
  | .method want :: st, _ :: bs => some (want, st, bs)
  | _, _ => none

/-- The state that a task leads to when it ends so, with its code behind it at `pc`. -/
def Frame.land (F : Frame) (e : Env) (pc : ℕ) (st : List StackItem) (ops : List Operand) :
    Outcome → Option LaiState
  | .values xs => some (F.conf e pc st (ops ++ xs))
  | .break_ => (atLoop st (⟨pc, F.limit⟩ :: F.blks)).map fun found =>
    ⟨F.ctx e :: F.ctxs, found.2.tail, found.1.tail, ops, e.object⟩
  | .continue_ => (atLoop st (⟨pc, F.limit⟩ :: F.blks)).map fun found =>
    ⟨F.ctx e :: F.ctxs, found.2, found.1, ops, e.object⟩
  | .return_ v => (belowMethod st (⟨pc, F.limit⟩ :: F.blks)).map fun found =>
    ⟨F.ctxs, found.2.2, found.2.1, if found.1 then ops ++ [.object v] else ops, e.object⟩

theorem popNested_loop {st' : List StackItem} {bs' : List BlkItem}
    (found : atLoop st bs = some (st', bs')) : st' ≠ [] ∧ bs' ≠ [] ∧ ∃ m, nestedInLoop st = .ok m ∧
      ∀ cs object, popNested m ⟨cs, bs, st, ops, object⟩ = .ok ⟨cs, bs', st', ops, object⟩ := by
  induction st generalizing bs with
  | nil => cases found
  | cons item st ih =>
    cases bs with
    | nil => cases item <;> cases found
    | cons b bs =>
      cases item with
      | cond f i h p l =>
        obtain ⟨some_, some', m, nested, pops⟩ := ih found
        refine ⟨some_, some', m + 1, ?_, fun cs object => ?_⟩
        · rw [nestedInLoop, nested]
          rfl
        · rw [popNested]
          exact pops cs object
      | loop f i p =>
        obtain ⟨rfl, rfl⟩ := Prod.mk.inj (Option.some.inj found)
        exact ⟨List.cons_ne_nil _ _, List.cons_ne_nil _ _, 0, rfl, fun cs object => rfl⟩
      | _ => cases found

theorem popNested_method {want : Bool} {st' : List StackItem} {bs' : List BlkItem}
    (found : belowMethod st bs = some (want, st', bs')) : ∃ m, nestedInMethod st = .ok (m, want) ∧
      ∀ cs ops object, ∃ b, popNested m ⟨cs, bs, st, ops, object⟩ =
        .ok ⟨cs, b :: bs', .method want :: st', ops, object⟩ := by
  induction st generalizing bs with
  | nil => cases found
  | cons item st ih =>
    cases bs with
    | nil => cases item <;> cases found
    | cons b bs =>
      cases item with
      | cond f i h p l =>
        obtain ⟨m, nested, pops⟩ := ih found
        refine ⟨m + 1, ?_, fun cs ops object => ?_⟩
        · rw [nestedInMethod, nested]
          rfl
        · rw [popNested]
          exact pops cs ops object
      | loop f i p =>
        obtain ⟨m, nested, pops⟩ := ih found
        refine ⟨m + 1, ?_, fun cs ops object => ?_⟩
        · rw [nestedInMethod, nested]
          rfl
        · rw [popNested]
          exact pops cs ops object
      | method w =>
        obtain ⟨rfl, below⟩ := Prod.mk.inj (Option.some.inj found)
        obtain ⟨rfl, rfl⟩ := Prod.mk.inj below
        exact ⟨0, rfl, fun cs ops object => ⟨b, rfl⟩⟩
      | _ => cases found

/-- `Break()`. -/
theorem parseInstr_break {s : LaiState} {ctx : CtxItem} {block : BlkItem}
    (lands : F.land e pc st ops .break_ = some s) :
    parseInstr mode (F.conf e pc st ops) ctx block pc' .break_ = .ok s := by
  obtain ⟨⟨st', bs'⟩, found, rfl⟩ := Option.map_eq_some_iff.mp lands
  obtain ⟨some_, some', m, nested, pops⟩ := popNested_loop found
  obtain ⟨item, st', rfl⟩ := List.exists_cons_of_ne_nil some_
  obtain ⟨block', bs', rfl⟩ := List.exists_cons_of_ne_nil some'
  rw [parseInstr]
  dsimp only [Frame.conf]
  rw [nested, ok_bind, pops]
  rfl

/-- `Continue()` in a conditional: the program counter of the popped blocks does not matter. -/
theorem parseInstr_continue {s : LaiState} {ctx : CtxItem} {block : BlkItem} {f p l stop : ℕ}
    {i h : Bool} (lands : F.land e stop (.cond f i h p l :: st) ops .continue_ = some s) :
    parseInstr mode (F.conf e pc (.cond f i h p l :: st) ops) ctx block pc' .continue_ = .ok s := by
  obtain ⟨⟨st', bs'⟩, found, rfl⟩ := Option.map_eq_some_iff.mp lands
  have found' : atLoop (.cond f i h p l :: st) (⟨pc, F.limit⟩ :: F.blks) = some (st', bs') := found
  obtain ⟨_, _, m, nested, pops⟩ := popNested_loop found'
  rw [parseInstr]
  dsimp only [Frame.conf]
  rw [nested, ok_bind]
  exact pops _ _

/-- `Return()`, once its operand has been collected. -/
theorem laiExecProcess_return {s : LaiState} (within_ : pc ≤ F.limit)
    (lands : F.land e pc st ops (.return_ v) = some s) :
    laiExecProcess aml (F.conf e pc (.return_ ops.length :: st) (ops ++ [.object v])) = .ok s := by
  obtain ⟨⟨want, st', bs'⟩, found, rfl⟩ := Option.map_eq_some_iff.mp lands
  obtain ⟨m, nested, pops⟩ := popNested_method found
  rw [laiExecProcess_conf within_, processItem, processReturn, collected_conf, popOperands_conf,
    ensure_of (by exact le_rfl), ok_bind]
  dsimp only [laiExecGetObjectref]
  rw [ok_bind]
  have below : (F.conf e pc (.return_ ops.length :: st) (ops ++ [.object v])).stack.tail = st := rfl
  obtain ⟨b, popped⟩ := pops (F.ctx e :: F.ctxs) (if want then ops ++ [.object v] else ops) e.object
  have popped' : popNested m (F.conf e pc st (if want then ops ++ [.object v] else ops)) = _ := popped
  rw [below, nested, ok_bind]
  dsimp only
  rw [pushIf_conf, laiExecPopStackBack_conf, ok_bind, popped']
  rfl

end X86Os.Lai
