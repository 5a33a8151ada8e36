import X86Os.Lai.Operators

/-!
# Runs of the interpreter

Every evaluation of a term by the rules is what the interpreter does with an
encoding of it: the simulation goes by induction on the evaluation, for all
stacks below the term. A method that is evaluated therefore returns its value.
-/

namespace X86Os.Lai

open Library.Memory Library.LittleEndian
set_option autoImplicit false

variable {aml : Aml} {body : NodeId → Option (List Term)} {e e' e₁ e₂ : Env} {d pc pc' mid : ℕ}
  {st : List StackItem} {ops : List Operand} {mode : Mode} {item : StackItem} {v : Variable}
  {F : Frame} {o : Outcome} {task : Task} {t : Term} {ts us : List Term} {x : Word} {b : Bool}

/-! ### Extents -/

theorem InstrAt.lt {code : List Byte} {instr : Instr} (opcode : InstrAt code pc instr pc') :
    pc < pc' := by
  obtain ⟨_, _, ⟨_, rfl⟩ | ⟨_, _, _, _, rfl⟩⟩ := opcode <;> omega

theorem NameAt.lt {handle node : NodeId} {code : List Byte}
    (named : NameAt aml handle code pc node pc') : pc < pc' := by
  obtain ⟨_, _, _, _, _, _, _, _, rfl⟩ := named
  omega

theorem SizeAt.lt {code : List Byte} {size : ℕ} (sized : SizeAt code pc size pc') : pc < pc' := by
  obtain ⟨_, _, _, _, _, rfl, _⟩ := sized
  omega

/-- An encoding is not empty unless it is one of no terms. -/
theorem Encodes.le {handle : NodeId} {code : List Byte} {limit : ℕ} {form : Form}
    (encodes : Encodes aml handle code limit pc form pc') :
    pc ≤ pc' ∧ ∀ t, form = .term t → pc < pc' := by
  induction encodes with
  | zero opcode | constant opcode | arg opcode | local_ opcode | null opcode | debug opcode
  | nop opcode | break_ opcode | continue_ opcode =>
    have lt := opcode.lt
    exact ⟨lt.le, fun _ _ => lt⟩
  | literal opcode =>
    have lt := opcode.lt
    exact ⟨by omega, fun _ _ => by omega⟩
  | name named =>
    have lt := named.lt
    exact ⟨lt.le, fun _ _ => lt⟩
  | op opcode _ ih | return_ opcode _ ih =>
    have lt := opcode.lt.trans_le ih.1
    exact ⟨lt.le, fun _ _ => lt⟩
  | call named _ ih =>
    have lt := named.lt.trans_le ih.1
    exact ⟨lt.le, fun _ _ => lt⟩
  | if_ | while_ => exact ⟨by omega, fun _ _ => by omega⟩
  | ifElse => exact ⟨by omega, fun _ _ => by omega⟩
  | nil => exact ⟨le_rfl, fun _ none => nomatch none⟩
  | cons _ _ ih ih' => exact ⟨ih.1.trans ih'.1, fun _ none => nomatch none⟩

/-! ### Items that collect operands -/

/-- The item reads its operands in these modes, one after the other. -/
def Feeds (aml : Aml) (item : StackItem) (base : ℕ) (modes : List Mode) : Prop :=
  ∀ (F : Frame) (e : Env) (pc : ℕ) (st : List StackItem) (ops xs : List Operand) (mode : Mode),
    ops.length = base → modes[xs.length]? = some mode → pc ≤ F.limit →
      laiExecProcess aml (F.conf e pc (item :: st) (ops ++ xs)) =
        laiExecParse aml mode (F.conf e pc (item :: st) (ops ++ xs))

theorem feeds_op (opcode : Opcode) (base : ℕ) (modes : List Mode) (want : Bool) :
    Feeds aml (.op base opcode modes want) base modes := by
  rintro F e pc st ops xs mode rfl next within_
  rw [laiExecProcess_conf within_, processItem, processOp, collected_conf, next]

theorem feeds_invoke (base argc : ℕ) (want : Bool) :
    Feeds aml (.invoke base argc want) base (List.replicate (argc + 1) .object) := by
  rintro F e pc st ops xs mode rfl next within_
  rw [List.getElem?_replicate] at next
  obtain ⟨less, same⟩ := Option.ite_none_right_eq_some.mp next
  obtain rfl := Option.some.inj same
  rw [laiExecProcess_conf within_, processItem, processInvoke, collected_conf,
    ensure_of less.le, ok_bind, if_neg less.ne]

/-- Nothing has been collected yet. -/
theorem nil_of_getElem? {xs : List Operand} (next : [Mode.object][xs.length]? = some mode) :
    xs = [] ∧ mode = .object := by
  cases xs with
  | nil => exact ⟨rfl, (Option.some.inj next).symm⟩
  | cons => cases next

theorem feeds_return (base : ℕ) : Feeds aml (.return_ base) base [.object] := by
  rintro F e pc st ops xs mode rfl next within_
  obtain ⟨rfl, rfl⟩ := nil_of_getElem? next
  rw [laiExecProcess_conf within_, processItem, processReturn, collected_conf,
    ensure_of (by exact Nat.zero_le _), ok_bind]

theorem predicate_conf : predicate (F.conf e pc st (ops ++ [.object (.integer x)])) ops.length =
    .ok (some x) := by
  rw [predicate, collected_conf, ensure_of (by exact le_rfl)]
  rfl

theorem predicate_none : predicate (F.conf e pc st (ops ++ [])) ops.length = .ok none := by
  rw [predicate, collected_conf, ensure_of (by exact Nat.zero_le _)]
  rfl

theorem feeds_loop (base pred : ℕ) : Feeds aml (.loop base false pred) base [.object] := by
  rintro F e pc st ops xs mode rfl next within_
  obtain ⟨rfl, rfl⟩ := nil_of_getElem? next
  rw [laiExecProcess_conf within_, processItem, processLoop, if_neg Bool.false_ne_true,
    predicate_none, ok_bind]

theorem feeds_cond (base elsePc elseLimit : ℕ) (hasElse : Bool) :
    Feeds aml (.cond base false hasElse elsePc elseLimit) base [.object] := by
  rintro F e pc st ops xs mode rfl next within_
  obtain ⟨rfl, rfl⟩ := nil_of_getElem? next
  rw [laiExecProcess_conf within_, processItem, processCond, if_neg Bool.false_ne_true,
    predicate_none, ok_bind]

/-! ### Constructs with a size -/

theorem parseSize_conf {size start : ℕ} (fits : F.limit ≤ F.code.length)
    (sized : SizeAt F.code mid size start) (within_ : start ≤ F.limit) :
    parseSize (F.ctx e) ⟨pc, F.limit⟩ mid = .ok (size, start) := by
  have parsed := (laiParseVarint_iff fits).mpr ⟨sized, within_⟩
  rw [parseSize]
  dsimp only [Frame.ctx]
  rw [parsed, within_ok]
  rfl

theorem laiExecParse_while {size start stop : ℕ} (fits : F.limit ≤ F.code.length)
    (opcode : InstrAt F.code pc .while_ (pc + 1)) (sized : SizeAt F.code (pc + 1) size start)
    (ends : stop = pc + 1 + size) (first : start ≤ stop) (within_ : stop ≤ F.limit) :
    laiExecParse aml mode (F.conf e pc st ops) = .ok
      ((F.inner stop stop).conf e start (.loop ops.length false start :: st) ops) := by
  rw [laiExecParse_instr opcode (by omega), parseInstr, parseWhile,
    parseSize_conf fits sized (first.trans within_), ok_bind, ends]
  rfl

theorem laiExecParse_if {size start stop : ℕ} (fits : F.limit ≤ F.code.length)
    (opcode : InstrAt F.code pc .if_ (pc + 1)) (sized : SizeAt F.code (pc + 1) size start)
    (ends : stop = pc + 1 + size) (first : start ≤ stop) (within_ : stop ≤ F.limit)
    (alone : stop < F.limit → F.code[stop]? ≠ some elseOp) :
    laiExecParse aml mode (F.conf e pc st ops) = .ok ((F.inner stop stop).conf e start
      (.cond ops.length false false 0 (stop + 1) :: st) ops) := by
  rw [laiExecParse_instr opcode (by omega), parseInstr, parseIf,
    parseSize_conf fits sized (first.trans within_), ok_bind]
  dsimp only
  rw [← ends]
  have none_ : elseFollows (F.ctx e) ⟨pc, F.limit⟩ stop = .ok false := by
    rw [elseFollows]
    split_ifs with more
    · have more' : stop < F.limit := more
      have inside : stop < F.code.length := more'.trans_le fits
      have here := List.getElem?_eq_getElem inside
      have other : F.code[stop] ≠ elseOp := fun same => alone more' (by rw [here, same])
      dsimp only [Frame.ctx]
      rw [readAt_of here, within_ok, ok_bind, decide_eq_false other]
    · rfl
  rw [none_]
  rfl

theorem laiExecParse_ifElse {size start stop size' start' stop' : ℕ}
    (fits : F.limit ≤ F.code.length) (opcode : InstrAt F.code pc .if_ (pc + 1))
    (sized : SizeAt F.code (pc + 1) size start) (ends : stop = pc + 1 + size)
    (first : start ≤ stop) (other : F.code[stop]? = some elseOp)
    (sized' : SizeAt F.code (stop + 1) size' start') (ends' : stop' = stop + 1 + size')
    (first' : start' ≤ stop') (within_ : stop' ≤ F.limit) :
    laiExecParse aml mode (F.conf e pc st ops) = .ok ((F.inner stop stop').conf e start
      (.cond ops.length false true start' stop' :: st) ops) := by
  have behind := sized'.lt
  have inside : stop < F.limit := by omega
  rw [laiExecParse_instr opcode (by omega), parseInstr, parseIf,
    parseSize_conf fits sized (by omega), ok_bind]
  dsimp only
  have follows : elseFollows (F.ctx e) ⟨pc, F.limit⟩ stop = .ok true := by
    rw [elseFollows, if_pos inside]
    dsimp only [Frame.ctx]
    rw [readAt_of other, within_ok, ok_bind, decide_eq_true rfl]
  rw [← ends, follows, ok_bind, parseElse, if_pos rfl, parseSize_conf fits sized' (by omega), ok_bind,
    ends']
  rfl

/-! ### Blocks -/

def loopOnTop : List StackItem → Bool
  | .loop .. :: _ => true
  | _ => false

def Executing : StackItem → Prop
  | .method _ => True
  | .loop _ iteration _ => iteration = true
  | .cond _ branch _ _ _ => branch = true
  | _ => False

theorem laiExecProcess_executing (executing : Executing item) (less : pc < F.limit) :
    laiExecProcess aml (F.conf e pc (item :: st) ops) =
      laiExecParse aml .exec (F.conf e pc (item :: st) ops) := by
  rw [laiExecProcess_conf less.le]
  cases item with
  | method want => exact if_neg less.ne
  | loop f i p =>
    obtain rfl : i = true := executing
    rw [processItem, processLoop, if_pos rfl, if_neg less.ne]
  | cond f i h p l =>
    obtain rfl : i = true := executing
    rw [processItem, processCond, if_pos rfl, if_neg less.ne]
  | _ => cases executing

theorem land_break (pc pc' : ℕ) : F.land e pc st ops .break_ = F.land e pc' st ops .break_ := by
  cases st with
  | nil => rfl
  | cons item st => cases item <;> rfl

theorem land_return (pc pc' : ℕ) :
    F.land e pc (item :: st) ops (.return_ v) = F.land e pc' (item :: st) ops (.return_ v) := by
  cases item <;> rfl

theorem land_continue (pc pc' : ℕ) (outside : loopOnTop (item :: st) = false) :
    F.land e pc (item :: st) ops .continue_ = F.land e pc' (item :: st) ops .continue_ := by
  cases item with
  | loop => cases outside
  | _ => rfl

/-- What the interpreter does with an encoding of the task. -/
def Simulates (aml : Aml) (d : ℕ) (e : Env) (task : Task) (e' : Env) (o : Outcome) : Prop :=
  match task with
  | .eval mode t => ∀ (F : Frame) (pc pc' : ℕ) (st : List StackItem) (ops : List Operand),
    ops.length = d → F.limit ≤ F.code.length → pc' ≤ F.limit →
      Encodes aml F.handle F.code F.limit pc (.term t) pc' → ∀ xs, o = .values xs →
        ∃ s, laiExecParse aml mode (F.conf e pc st ops) = .ok s ∧
          Steps aml s (F.conf e' pc' st (ops ++ xs))
  | .evals modes ts => ∀ (F : Frame) (pc pc' : ℕ) (item : StackItem) (st : List StackItem)
      (ops before : List Operand) (modes' : List Mode),
    (ops ++ before).length = d → before.length = modes'.length → F.limit ≤ F.code.length →
      pc' ≤ F.limit → Encodes aml F.handle F.code F.limit pc (.terms ts) pc' →
        Feeds aml item ops.length (modes' ++ modes) → ∀ xs, o = .values xs →
          xs.length = modes.length ∧ Steps aml (F.conf e pc (item :: st) (ops ++ before))
            (F.conf e' pc' (item :: st) (ops ++ (before ++ xs)))
  | .stmt b t => ∀ (F : Frame) (pc pc' : ℕ) (st : List StackItem) (ops : List Operand)
      (s' : LaiState),
    ops.length = d → F.limit ≤ F.code.length → pc' ≤ F.limit →
      Encodes aml F.handle F.code F.limit pc (.term t) pc' → loopOnTop st = b →
        F.land e' pc' st ops o = some s' →
          ∃ s, laiExecParse aml .exec (F.conf e pc st ops) = .ok s ∧ Steps aml s s'
  | .block b ts => ∀ (F : Frame) (pc : ℕ) (item : StackItem) (st : List StackItem)
      (ops : List Operand) (s' : LaiState),
    ops.length = d → F.limit ≤ F.code.length →
      Encodes aml F.handle F.code F.limit pc (.terms ts) F.limit → Executing item →
        loopOnTop (item :: st) = b → F.land e' F.limit (item :: st) ops o = some s' →
          Steps aml (F.conf e pc (item :: st) ops) s'

theorem wanted_eq (mode : Mode) (v : Variable) (ops : List Operand) :
    ops ++ mode.wanted v = if mode.result then ops ++ [.object v] else ops := by
  rw [Mode.wanted]
  split_ifs
  · rfl
  · exact List.append_nil ops

theorem pushConstant_conf (use : mode ≠ .reference) :
    pushConstant mode (F.conf e pc st ops) x =
      .ok (F.conf e pc st (ops ++ mode.wanted (.integer x))) := by
  cases mode with
  | object => rfl
  | exec => exact congrArg (fun ops => Except.ok (F.conf e pc st ops)) (List.append_nil ops).symm
  | reference => exact absurd rfl use

/-! ### Terms -/

theorem parseInstr_literal {instr : Instr} {bytes : ℕ} (wide : instr.width = some bytes) {s : LaiState}
    {ctx : CtxItem} {block : BlkItem} : parseInstr mode s ctx block pc instr =
      within (laiParseWord bytes ctx.code pc block.limit) >>= pushLiteral mode s := by
  cases instr <;> cases wide <;> rfl

theorem simulates_integer (use : mode ≠ .reference) :
    Simulates aml d e (.eval mode (.integer x)) e (.values (mode.wanted (.integer x))) := by
  rintro F pc pc' st ops _ fits within_ encodes _ ⟨⟩
  cases encodes with
  | zero opcode =>
    refine ⟨_, ?_, .refl⟩
    rw [laiExecParse_instr opcode within_, parseInstr, if_neg use]
    exact pushConstant_conf use
  | constant opcode =>
    refine ⟨_, ?_, .refl⟩
    rw [laiExecParse_instr opcode within_, parseInstr]
    exact pushConstant_conf use
  | @literal _ _ mid bytes value instr opcode wide below word =>
    have parsed := (laiParseWord_iff fits).mpr ⟨below, word, rfl, within_⟩
    refine ⟨_, ?_, .refl⟩
    rw [laiExecParse_instr opcode (by omega), parseInstr_literal wide]
    dsimp only [Frame.ctx]
    rw [parsed, within_ok, ok_bind]
    exact pushConstant_conf use

theorem simulates_leaf {instr : Instr} {y : Operand}
    (place : ∀ {F : Frame} {pc pc' : ℕ},
      Encodes aml F.handle F.code F.limit pc (.term t) pc' → InstrAt F.code pc instr pc')
    (parsed : ∀ (F : Frame) (pc pc' : ℕ) (st : List StackItem) (ops : List Operand),
      parseInstr mode (F.conf e pc st ops) (F.ctx e) ⟨pc, F.limit⟩ pc' instr =
        .ok (F.conf e pc' st (ops ++ [y]))) :
    Simulates aml d e (.eval mode t) e (.values [y]) := by
  rintro F pc pc' st ops _ fits within_ encodes _ ⟨⟩
  exact ⟨_, (laiExecParse_instr (place encodes) within_).trans (parsed F pc pc' st ops), .refl⟩

theorem simulates_object {n : NodeId} (use : mode ≠ .reference)
    (named : (aml.ns.node n).type = .name) :
    Simulates aml d e (.eval mode (.name n)) e (.values (mode.wanted (e.object n))) := by
  rintro F pc pc' st ops _ fits within_ encodes _ ⟨⟩
  cases encodes with
  | name place plain =>
    have accessed : laiExecAccess aml (F.conf e pc' st ops) n = .ok (e.object n) := if_pos named
    have invokes : mode.invoke = true := by
      cases mode with
      | reference => exact absurd rfl use
      | _ => rfl
    refine ⟨_, ?_, .refl⟩
    rw [laiExecParse_name place within_, invokes, if_pos rfl, if_neg plain, accessed, ok_bind,
      pushIf_conf, wanted_eq]

theorem simulates_name {n : NodeId} :
    Simulates aml d e (.eval .reference (.name n)) e (.values [.resolvedName n]) := by
  rintro F pc pc' st ops _ fits within_ encodes _ ⟨⟩
  cases encodes with
  | name place plain =>
    refine ⟨_, ?_, .refl⟩
    rw [laiExecParse_name place within_]
    rfl

theorem simulates_op {opcode : Opcode} {xs : List Operand}
    (operands : Simulates aml d e (.evals opcode.argModes ts) e₁ (.values xs))
    (applies : Applies aml e₁ opcode xs v e₂) :
    Simulates aml d e (.eval mode (.op opcode ts)) e₂ (.values (mode.wanted v)) := by
  rintro F pc pc' st ops rfl fits within_ encodes _ ⟨⟩
  cases encodes with
  | @op _ _ mid _ _ _ place rest =>
    obtain ⟨count, steps⟩ := operands F mid pc' (.op ops.length opcode opcode.argModes mode.result) st
      ops [] [] (by rw [List.append_nil]) rfl fits within_ rest (feeds_op _ _ _ _) xs rfl
    rw [List.append_nil, List.nil_append] at steps
    refine ⟨_, ?_, steps.tail ?_⟩
    · rw [laiExecParse_instr place (rest.le.1.trans within_), parseInstr]
      rfl
    · rw [laiExecProcess_conf within_, processItem, processOp, collected_conf,
        List.getElem?_eq_none count.ge]
      dsimp only
      rw [laiExecReduceOp_conf applies, ok_bind]
      dsimp only
      rw [popOperands_conf, pushIf_conf, laiExecPopStackBack_conf, wanted_eq]

theorem mapM_objectref (vs : List Variable) :
    (vs.map Operand.object).mapM laiExecGetObjectref = .ok vs := by
  induction vs with
  | nil => rfl
  | cons v vs ih =>
    rw [List.map_cons, List.mapM_cons, laiExecGetObjectref, ok_bind, ih]
    rfl

/-- An operand that comes after some others. -/
theorem feeds_next {before : List Operand} {modes modes' : List Mode}
    (feeds : Feeds aml item ops.length (modes' ++ mode :: modes)) (same : before.length = modes'.length)
    (within_ : pc ≤ F.limit) : laiExecProcess aml (F.conf e pc (item :: st) (ops ++ before)) =
      laiExecParse aml mode (F.conf e pc (item :: st) (ops ++ before)) := by
  refine feeds F e pc st ops before mode rfl ?_ within_
  rw [same, List.getElem?_append_right le_rfl, Nat.sub_self]
  rfl

theorem simulates_operand {modes : List Mode} {y : Operand} {xs : List Operand}
    (first : Simulates aml d e (.eval mode t) e₁ (.values [y]))
    (rest : Simulates aml (d + 1) e₁ (.evals modes ts) e₂ (.values xs)) :
    Simulates aml d e (.evals (mode :: modes) (t :: ts)) e₂ (.values (y :: xs)) := by
  rintro F pc pc' item st ops before modes' rfl same fits within_ encodes feeds _ ⟨⟩
  cases encodes with
  | @cons _ _ mid _ _ _ one others =>
    have upto := others.le.1.trans within_
    have process : laiExecProcess aml (F.conf e pc (item :: st) (ops ++ before)) =
        laiExecParse aml mode (F.conf e pc (item :: st) (ops ++ before)) :=
      feeds_next feeds same (one.le.1.trans upto)
    obtain ⟨s, parsed, steps⟩ := first F pc mid (item :: st) (ops ++ before) rfl fits upto one _ rfl
    have feeds' : Feeds aml item ops.length ((modes' ++ [mode]) ++ modes) := by
      rwa [List.append_assoc]
    obtain ⟨count, steps'⟩ := rest F mid pc' item st ops (before ++ [y]) (modes' ++ [mode])
      (by rw [← List.append_assoc, List.length_append]; rfl)
      (by rw [List.length_append, List.length_append, same]; rfl) fits within_ others feeds' xs rfl
    rw [← List.append_assoc, List.append_assoc before] at steps'
    exact ⟨congrArg (· + 1) count, Steps.step (process.trans parsed) (steps.trans steps')⟩

/-- A call, after its arguments have been collected. -/
theorem laiExecProcess_invoke {n : NodeId} {m : Method} {vs : List Variable} {want : Bool}
    (code : aml.method n = some m) (within_ : pc ≤ F.limit) :
    laiExecProcess aml (F.conf e pc (.invoke ops.length vs.length want :: st)
        (ops ++ (.resolvedName n :: vs.map .object))) =
      .ok ((F.called n m e pc).conf ⟨.fresh vs, e.object⟩ 0 (.method want :: st) ops) := by
  have count : (Operand.resolvedName n :: vs.map .object).length = vs.length + 1 := by
    rw [List.length_cons, List.length_map]
  rw [laiExecProcess_conf within_, processItem, processInvoke, collected_conf,
    ensure_of (by exact count.le), ok_bind, if_pos count]
  dsimp only
  rw [code]
  dsimp only
  rw [mapM_objectref, ok_bind, popOperands_conf, laiExecPopStackBack_conf]
  rfl

/-- The parser at a call. -/
theorem laiExecParse_call {n : NodeId} {m : Method} (use : mode ≠ .reference)
    (callable : (aml.ns.node n).type = .method) (code : aml.method n = some m)
    (count : ts.length = (m.methodFlags &&& 7).toNat)
    (place : NameAt aml F.handle F.code pc n mid) (inside : mid ≤ F.limit) :
    laiExecParse aml mode (F.conf e pc st ops) = .ok (F.conf e mid
      (.invoke ops.length ts.length mode.result :: st) (ops ++ [.resolvedName n])) := by
  have invokes : mode.invoke = true := by
    cases mode with
    | reference => exact absurd rfl use
    | _ => rfl
  rw [laiExecParse_name place inside, invokes, if_pos rfl, if_pos callable, code, count]

theorem simulates_call {n : NodeId} {m : Method} {vs : List Variable} (loaded : Loaded aml body)
    (use : mode ≠ .reference) (callable : (aml.ns.node n).type = .method)
    (code : aml.method n = some m) (known : body n = some us)
    (count : ts.length = (m.methodFlags &&& 7).toNat)
    (args : Simulates aml (d + 1) e (.evals (List.replicate ts.length .object) ts) e₁
      (.values (vs.map .object)))
    (runs : Simulates aml d ⟨.fresh vs, e₁.object⟩ (.block false us) e₂ o) (returns : Returns d o v) :
    Simulates aml d e (.eval mode (.call n ts)) ⟨e₁.invocation, e₂.object⟩
      (.values (mode.wanted v)) := by
  rintro F pc pc' st ops depth fits within_ encodes _ ⟨⟩
  cases encodes with
  | @call _ _ mid _ _ _ place rest =>
    obtain ⟨count', steps⟩ := args F mid pc' (.invoke ops.length ts.length mode.result) st ops
      [.resolvedName n] [.object] (by rw [List.length_append, depth]; rfl) rfl fits within_ rest (feeds_invoke _ _ _) _ rfl
    rw [List.length_map, List.length_replicate] at count'
    obtain ⟨inside, encodes'⟩ := loaded n m us code known
    have enter : laiExecProcess aml (F.conf e₁ pc' (.invoke ops.length vs.length mode.result :: st)
        (ops ++ (.resolvedName n :: vs.map .object))) =
          .ok ((F.called n m e₁ pc').conf ⟨.fresh vs, e₁.object⟩ 0 (.method mode.result :: st) ops) :=
      laiExecProcess_invoke code within_
    rw [count'] at enter
    refine ⟨_, laiExecParse_call use callable code count place (rest.le.1.trans within_),
      steps.trans (Steps.step enter ?_)⟩
    cases returns with
    | return_ v =>
      have lands : (F.called n m e₁ pc').land e₂ m.size (.method mode.result :: st) ops (.return_ v) =
          some (F.conf ⟨e₁.invocation, e₂.object⟩ pc' st (ops ++ mode.wanted v)) := by
        rw [wanted_eq]
        rfl
      exact runs _ 0 (.method mode.result) st ops _ depth inside encodes' trivial rfl lands
    | atEnd =>
      obtain rfl := List.length_eq_zero_iff.mp depth
      have ends := runs (F.called n m e₁ pc') 0 (.method mode.result) st [] _ rfl inside encodes'
        trivial rfl rfl
      refine ends.tail ?_
      rw [laiExecProcess_conf (by exact le_rfl), processItem, processMethod, if_pos (by rfl),
        ensure_of (by exact rfl), ok_bind, pushIf_conf, wanted_eq]
      rfl

/-! ### Statements -/

/-- An item that reads one object. -/
theorem Simulates.first {y : Operand} (first : Simulates aml d e (.eval .object t) e₁ (.values [y]))
    (feeds : Feeds aml item ops.length [.object]) (depth : ops.length = d)
    (fits : F.limit ≤ F.code.length) (within_ : mid ≤ F.limit)
    (encodes : Encodes aml F.handle F.code F.limit pc (.term t) mid) :
    Steps aml (F.conf e pc (item :: st) ops) (F.conf e₁ mid (item :: st) (ops ++ [y])) := by
  obtain ⟨s, parsed, steps⟩ := first F pc mid (item :: st) ops depth fits within_ encodes _ rfl
  have process := feeds F e pc st ops [] .object rfl rfl (encodes.le.1.trans within_)
  rw [List.append_nil] at process
  exact Steps.step (process.trans parsed) steps

theorem laiExecParse_return (place : InstrAt F.code pc .return_ mid) (inside : mid ≤ F.limit) :
    laiExecParse aml mode (F.conf e pc st ops) =
      .ok (F.conf e mid (.return_ ops.length :: st) ops) := by
  rw [laiExecParse_instr place inside, parseInstr]
  rfl

theorem simulates_return (first : Simulates aml d e (.eval .object t) e₁ (.values [.object v])) :
    Simulates aml d e (.stmt b (.return_ t)) e₁ (.return_ v) := by
  rintro F pc pc' st ops s' depth fits within_ encodes _ lands
  cases encodes with
  | @return_ _ _ mid _ _ place rest =>
    exact ⟨_, laiExecParse_return place (rest.le.1.trans within_),
      (first.first (feeds_return _) depth fits within_ rest).tail (laiExecProcess_return within_ lands)⟩

theorem simulates_continue : Simulates aml d e (.stmt false .continue_) e .continue_ := by
  rintro F pc pc' st ops s' _ fits within_ encodes outside lands
  cases encodes with
  | continue_ place =>
    refine ⟨s', ?_, .refl⟩
    rw [laiExecParse_instr place within_]
    cases st with
    | nil => cases lands
    | cons item st =>
      cases item with
      | cond => exact parseInstr_continue lands
      | loop => cases outside
      | _ => cases lands

/-! ### Conditionals -/

variable {stop base elsePc elseLimit : ℕ} {hasElse : Bool} {s' : LaiState}

/-- The predicate of a conditional holds. -/
theorem laiExecProcess_ifTrue (holds : x ≠ 0) (within_ : pc ≤ F.limit) :
    laiExecProcess aml (F.conf e pc (.cond ops.length false hasElse elsePc elseLimit :: st)
        (ops ++ [.object (.integer x)])) =
      .ok (F.conf e pc (.cond ops.length true hasElse elsePc elseLimit :: st) ops) := by
  rw [laiExecProcess_conf within_, processItem, processCond, if_neg Bool.false_ne_true,
    predicate_conf, ok_bind]
  dsimp only
  rw [popOperands_conf, if_pos holds]
  rfl

/-- It does not hold, and there is no other branch. -/
theorem laiExecProcess_ifFalse (within_ : mid ≤ stop) :
    laiExecProcess aml ((F.inner stop pc').conf e mid
        (.cond ops.length false false elsePc elseLimit :: st) (ops ++ [.object (.integer 0)])) =
      .ok (F.conf e pc' st ops) := by
  rw [laiExecProcess_conf within_, processItem, processCond, if_neg Bool.false_ne_true,
    predicate_conf, ok_bind]
  dsimp only
  rw [popOperands_conf, if_neg (not_not_intro rfl), if_neg Bool.false_ne_true]
  rfl

/-- It does not hold, and there is another branch. -/
theorem laiExecProcess_elseFalse (within_ : mid ≤ stop) :
    laiExecProcess aml ((F.inner stop pc').conf e mid
        (.cond ops.length false true elsePc elseLimit :: st) (ops ++ [.object (.integer 0)])) =
      .ok ((F.inner elseLimit pc').conf e elsePc
        (.cond ops.length true true elsePc elseLimit :: st) ops) := by
  rw [laiExecProcess_conf within_, processItem, processCond, if_neg Bool.false_ne_true,
    predicate_conf, ok_bind]
  dsimp only
  rw [popOperands_conf, if_neg (not_not_intro rfl), if_pos rfl]
  rfl

/-- A branch is executed, and the conditional is left at its end. -/
theorem Simulates.branch (rest : Simulates aml d e (.block false ts) e₁ o)
    (depth : ops.length = d) (fits : stop ≤ F.code.length)
    (encodes : Encodes aml F.handle F.code stop mid (.terms ts) stop)
    (lands : F.land e₁ pc' st ops o = some s') :
    Steps aml ((F.inner stop pc').conf e mid (.cond base true hasElse elsePc elseLimit :: st) ops)
      s' := by
  have run := rest (F.inner stop pc') mid (.cond base true hasElse elsePc elseLimit) st ops
  cases o with
  | values xs =>
    obtain rfl := Option.some.inj lands
    refine (run _ depth fits encodes rfl rfl rfl).tail ?_
    rw [laiExecProcess_conf (by exact le_rfl), processItem, processCond, if_pos rfl, if_pos (by rfl)]
    rfl
  | _ => exact run s' depth fits encodes rfl rfl lands

theorem simulates_ifTrue (first : Simulates aml d e (.eval .object t) e₁ (.values [.object (.integer x)]))
    (holds : x ≠ 0) (rest : Simulates aml d e₁ (.block false ts) e₂ o) :
    Simulates aml d e (.stmt b (.if_ t ts)) e₂ o := by
  rintro F pc pc' st ops s' depth fits within_ encodes _ lands
  cases encodes with
  | if_ place sized ends one others alone =>
    have upto := others.le.1
    refine ⟨_, laiExecParse_if fits place sized ends (one.le.1.trans upto) within_ alone, ?_⟩
    refine (first.first (F := F.inner _ _) (feeds_cond _ _ _ _) depth (within_.trans fits) upto
      one).trans (Steps.step (laiExecProcess_ifTrue holds upto) ?_)
    exact rest.branch depth (within_.trans fits) others lands

theorem simulates_ifFalse
    (first : Simulates aml d e (.eval .object t) e₁ (.values [.object (.integer 0)])) :
    Simulates aml d e (.stmt b (.if_ t ts)) e₁ (.values []) := by
  rintro F pc pc' st ops s' depth fits within_ encodes _ lands
  cases encodes with
  | if_ place sized ends one others alone =>
    have upto := others.le.1
    obtain rfl := Option.some.inj lands
    refine ⟨_, laiExecParse_if fits place sized ends (one.le.1.trans upto) within_ alone, ?_⟩
    refine (first.first (F := F.inner _ _) (feeds_cond _ _ _ _) depth (within_.trans fits) upto
      one).tail ?_
    rw [List.append_nil]
    exact laiExecProcess_ifFalse upto

theorem simulates_elseTrue
    (first : Simulates aml d e (.eval .object t) e₁ (.values [.object (.integer x)]))
    (holds : x ≠ 0) (rest : Simulates aml d e₁ (.block false ts) e₂ o) :
    Simulates aml d e (.stmt b (.ifElse t ts us)) e₂ o := by
  rintro F pc pc' st ops s' depth fits within_ encodes _ lands
  cases encodes with
  | @ifElse _ _ _ _ _ stop _ _ _ _ _ _ place sized ends one others other sized' ends' others' =>
    have upto := others.le.1
    have behind := sized'.lt
    have inside := others'.le.1
    have short : stop ≤ F.code.length := by omega
    refine ⟨_, laiExecParse_ifElse fits place sized ends (one.le.1.trans upto) other sized' ends' inside
      within_, ?_⟩
    refine (first.first (F := F.inner stop _) (feeds_cond _ _ _ _) depth short upto one).trans
      (Steps.step (laiExecProcess_ifTrue holds upto) ?_)
    exact rest.branch depth short others lands

theorem simulates_elseFalse
    (first : Simulates aml d e (.eval .object t) e₁ (.values [.object (.integer 0)]))
    (rest : Simulates aml d e₁ (.block false us) e₂ o) :
    Simulates aml d e (.stmt b (.ifElse t ts us)) e₂ o := by
  rintro F pc pc' st ops s' depth fits within_ encodes _ lands
  cases encodes with
  | @ifElse _ _ _ _ _ stop _ _ _ _ _ _ place sized ends one others other sized' ends' others' =>
    have upto := others.le.1
    have behind := sized'.lt
    have inside := others'.le.1
    have short : stop ≤ F.code.length := by omega
    refine ⟨_, laiExecParse_ifElse fits place sized ends (one.le.1.trans upto) other sized' ends' inside
      within_, ?_⟩
    refine (first.first (F := F.inner stop _) (feeds_cond _ _ _ _) depth short upto one).trans
      (Steps.step (laiExecProcess_elseFalse upto) ?_)
    exact rest.branch depth (within_.trans fits) others' lands

/-! ### Loops -/

theorem laiExecProcess_whileTrue {pred : ℕ} (holds : x ≠ 0) (within_ : pc ≤ F.limit) :
    laiExecProcess aml (F.conf e pc (.loop ops.length false pred :: st)
        (ops ++ [.object (.integer x)])) =
      .ok (F.conf e pc (.loop ops.length true pred :: st) ops) := by
  rw [laiExecProcess_conf within_, processItem, processLoop, if_neg Bool.false_ne_true,
    predicate_conf, ok_bind]
  dsimp only
  rw [if_pos holds, popOperands_conf]
  rfl

theorem laiExecProcess_whileFalse {pred : ℕ} (within_ : mid ≤ stop) :
    laiExecProcess aml ((F.inner stop pc').conf e mid (.loop ops.length false pred :: st)
        (ops ++ [.object (.integer 0)])) = .ok (F.conf e pc' st ops) := by
  rw [laiExecProcess_conf within_, processItem, processLoop, if_neg Bool.false_ne_true,
    predicate_conf, ok_bind]
  dsimp only
  rw [if_neg (not_not_intro rfl), popOperands_conf]
  rfl

/-- At the end of its body a loop goes back to its predicate. -/
theorem laiExecProcess_whileAgain {pred : ℕ} :
    laiExecProcess aml (F.conf e F.limit (.loop base true pred :: st) ops) =
      .ok (F.conf e pred (.loop base false pred :: st) ops) := by
  rw [laiExecProcess_conf le_rfl, processItem, processLoop, if_pos rfl, if_pos (by rfl)]
  rfl

/-- A loop whose predicate does not hold. -/
theorem simulates_whileFalse
    (first : Simulates aml d e (.eval .object t) e₁ (.values [.object (.integer 0)])) :
    Simulates aml d e (.stmt b (.while_ t ts)) e₁ (.values []) := by
  rintro F pc pc' st ops s' depth fits within_ encodes _ lands
  cases encodes with
  | while_ place sized ends one others =>
    have upto := others.le.1
    obtain rfl := Option.some.inj lands
    refine ⟨_, laiExecParse_while fits place sized ends (one.le.1.trans upto) within_, ?_⟩
    refine (first.first (F := F.inner _ _) (feeds_loop _ _) depth (within_.trans fits) upto one).tail ?_
    rw [List.append_nil]
    exact laiExecProcess_whileFalse upto

/-- The turns of a loop, up to the end of its body or out of it. -/
theorem Simulates.turn {pred : ℕ}
    (first : Simulates aml d e (.eval .object t) e₁ (.values [.object (.integer x)]))
    (holds : x ≠ 0) (rest : Simulates aml d e₁ (.block true ts) e₂ o) (depth : ops.length = d)
    (fits : stop ≤ F.code.length)
    (one : Encodes aml F.handle F.code stop pred (.term t) mid)
    (others : Encodes aml F.handle F.code stop mid (.terms ts) stop)
    (lands : (F.inner stop pc').land e₂ stop (.loop ops.length true pred :: st) ops o = some s') :
    Steps aml ((F.inner stop pc').conf e pred (.loop ops.length false pred :: st) ops) s' := by
  have upto := others.le.1
  refine (first.first (F := F.inner _ _) (feeds_loop _ _) depth fits upto one).trans
    (Steps.step (laiExecProcess_whileTrue holds upto) ?_)
  exact rest (F.inner stop pc') mid _ st ops s' depth fits others rfl rfl lands

theorem simulates_whileTrue {e₃ : Env}
    (first : Simulates aml d e (.eval .object t) e₁ (.values [.object (.integer x)]))
    (holds : x ≠ 0) (turn : Simulates aml d e₁ (.block true ts) e₂ (.values []))
    (again : Simulates aml d e₂ (.stmt b (.while_ t ts)) e₃ o) :
    Simulates aml d e (.stmt b (.while_ t ts)) e₃ o := by
  rintro F pc pc' st ops s' depth fits within_ encodes top lands
  obtain ⟨s, parsed, steps⟩ := again F pc pc' st ops s' depth fits within_ encodes top lands
  cases encodes with
  | while_ place sized ends one others =>
    have start := one.le.1.trans others.le.1
    rw [laiExecParse_while fits place sized ends start within_] at parsed
    obtain rfl := Except.ok.inj parsed
    refine ⟨_, laiExecParse_while fits place sized ends start within_, ?_⟩
    refine (first.turn holds turn depth (within_.trans fits) one others rfl).trans ?_
    rw [List.append_nil]
    exact Steps.step laiExecProcess_whileAgain steps

theorem simulates_whileBreak
    (first : Simulates aml d e (.eval .object t) e₁ (.values [.object (.integer x)]))
    (holds : x ≠ 0) (turn : Simulates aml d e₁ (.block true ts) e₂ .break_) :
    Simulates aml d e (.stmt b (.while_ t ts)) e₂ (.values []) := by
  rintro F pc pc' st ops s' depth fits within_ encodes _ lands
  cases encodes with
  | while_ place sized ends one others =>
    obtain rfl := Option.some.inj lands
    refine ⟨_, laiExecParse_while fits place sized ends (one.le.1.trans others.le.1) within_, ?_⟩
    rw [List.append_nil]
    exact first.turn holds turn depth (within_.trans fits) one others rfl

theorem simulates_whileReturn
    (first : Simulates aml d e (.eval .object t) e₁ (.values [.object (.integer x)]))
    (holds : x ≠ 0) (turn : Simulates aml d e₁ (.block true ts) e₂ (.return_ v)) :
    Simulates aml d e (.stmt b (.while_ t ts)) e₂ (.return_ v) := by
  rintro F pc pc' st ops s' depth fits within_ encodes _ lands
  cases encodes with
  | while_ place sized ends one others =>
    refine ⟨_, laiExecParse_while fits place sized ends (one.le.1.trans others.le.1) within_, ?_⟩
    exact first.turn holds turn depth (within_.trans fits) one others lands

/-! ### Blocks of statements -/

/-- A statement at the start of a block. -/
theorem Simulates.statement (first : Simulates aml d e (.stmt b t) e₁ o) (depth : ops.length = d)
    (fits : F.limit ≤ F.code.length) (within_ : mid ≤ F.limit)
    (encodes : Encodes aml F.handle F.code F.limit pc (.term t) mid) (executing : Executing item)
    (top : loopOnTop (item :: st) = b) (lands : F.land e₁ mid (item :: st) ops o = some s') :
    Steps aml (F.conf e pc (item :: st) ops) s' := by
  obtain ⟨s, parsed, steps⟩ := first F pc mid (item :: st) ops s' depth fits within_ encodes top lands
  have less := (encodes.le.2 t rfl).trans_le within_
  exact Steps.step ((laiExecProcess_executing executing less).trans parsed) steps

theorem simulates_next (first : Simulates aml d e (.stmt b t) e₁ (.values []))
    (rest : Simulates aml d e₁ (.block b ts) e₂ o) :
    Simulates aml d e (.block b (t :: ts)) e₂ o := by
  rintro F pc item st ops s' depth fits encodes executing top lands
  cases encodes with
  | cons one others =>
    have front := first.statement depth fits others.le.1 one executing top rfl
    rw [List.append_nil] at front
    exact front.trans (rest F _ item st ops s' depth fits others executing top lands)

theorem simulates_continueHere (first : Simulates aml d e (.stmt true t) e₁ .continue_)
    (rest : Simulates aml d e₁ (.block true ts) e₂ o) :
    Simulates aml d e (.block true (t :: ts)) e₂ o := by
  rintro F pc item st ops s' depth fits encodes executing top lands
  cases encodes with
  | @cons _ _ mid _ _ _ one others =>
    have back : F.land e₁ mid (item :: st) ops .continue_ = some (F.conf e₁ mid (item :: st) ops) := by
      cases item with
      | loop => rfl
      | _ => cases top
    exact (first.statement depth fits others.le.1 one executing top back).trans
      (rest F _ item st ops s' depth fits others executing top lands)

/-- Every evaluation is what the interpreter does. -/
theorem simulates_of_evaluates (loaded : Loaded aml body)
    (evaluates : Evaluates aml body d e task e' o) : Simulates aml d e task e' o := by
  induction evaluates with
  | integer use => exact simulates_integer use
  | null | debug | arg | argName | local_ | localName =>
    exact simulates_leaf (fun encodes => by cases encodes; assumption) fun _ _ _ _ _ => rfl
  | object use named => exact simulates_object use named
  | name => exact simulates_name
  | op _ applies ih => exact simulates_op ih applies
  | call use callable code known count _ _ returns ih ih' =>
    exact simulates_call loaded use callable code known count ih ih' returns
  | noOperand =>
    rintro F pc pc' item st ops before modes' _ _ _ _ encodes _ _ ⟨⟩
    cases encodes with
    | nil =>
      rw [List.append_nil]
      exact ⟨rfl, .refl⟩
  | operand _ _ ih ih' => exact simulates_operand ih ih'
  | term _ ih =>
    rintro F pc pc' st ops s' depth fits within_ encodes _ lands
    obtain rfl := Option.some.inj lands
    exact ih F pc pc' st ops depth fits within_ encodes _ rfl
  | nop =>
    rintro F pc pc' st ops s' _ fits within_ encodes _ lands
    cases encodes with
    | nop place =>
      obtain rfl := Option.some.inj lands
      rw [List.append_nil]
      exact ⟨_, laiExecParse_instr place within_, .refl⟩
  | return_ _ ih => exact simulates_return ih
  | break_ =>
    rintro F pc pc' st ops s' _ fits within_ encodes _ lands
    cases encodes with
    | break_ place =>
      exact ⟨s', (laiExecParse_instr place within_).trans
        (parseInstr_break ((land_break pc pc').trans lands)), .refl⟩
  | continue_ => exact simulates_continue
  | ifTrue _ holds _ ih ih' => exact simulates_ifTrue ih holds ih'
  | ifFalse _ ih => exact simulates_ifFalse ih
  | elseTrue _ holds _ ih ih' => exact simulates_elseTrue ih holds ih'
  | elseFalse _ _ ih ih' => exact simulates_elseFalse ih ih'
  | whileFalse _ ih => exact simulates_whileFalse ih
  | whileTrue _ holds _ _ ih ih' again => exact simulates_whileTrue ih holds ih' again
  | whileBreak _ holds _ ih ih' => exact simulates_whileBreak ih holds ih'
  | whileReturn _ holds _ ih ih' => exact simulates_whileReturn ih holds ih'
  | done =>
    rintro F pc item st ops s' _ _ encodes _ _ lands
    cases encodes with
    | nil =>
      obtain rfl := Option.some.inj lands
      rw [List.append_nil]
      exact .refl
  | next _ _ ih ih' => exact simulates_next ih ih'
  | breakOut _ ih =>
    rintro F pc item st ops s' depth fits encodes executing top lands
    cases encodes with
    | @cons _ _ mid _ _ _ one others =>
      exact ih.statement depth fits others.le.1 one executing top ((land_break mid _).trans lands)
  | returnOut _ ih =>
    rintro F pc item st ops s' depth fits encodes executing top lands
    cases encodes with
    | @cons _ _ mid _ _ _ one others =>
      exact ih.statement depth fits others.le.1 one executing top ((land_return mid _).trans lands)
  | continueOut _ ih =>
    rintro F pc item st ops s' depth fits encodes executing top lands
    cases encodes with
    | @cons _ _ mid _ _ _ one others =>
      exact ih.statement depth fits others.le.1 one executing top
        ((land_continue mid _ top).trans lands)
  | continueHere _ _ ih ih' => exact simulates_continueHere ih ih'

end X86Os.Lai
