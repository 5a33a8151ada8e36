import X86Os.Lai.Evaluation

/-!
# Programs that hang the interpreter

`Continue` pops the conditionals between it and the innermost loop, and stores
its new program counter in the block that it has popped. Right in the body of a
loop there is nothing to pop, and nothing changes: the interpreter parses the
same opcode again for ever.
-/

namespace X86Os.Lai

open Library.Memory Library.LittleEndian
set_option autoImplicit false

variable {aml : Aml} {body : NodeId → Option (List Term)} {e e₁ e₂ : Env} {d pc pc' mid turns : ℕ}
  {st : List StackItem} {ops : List Operand} {mode : Mode} {item : StackItem} {F : Frame}
  {task : Task} {t : Term} {ts us : List Term} {x : Word} {b : Bool} {s s' : LaiState}

/-- The rules about tasks that come to a `Continue` right in the body of a loop. -/
inductive Hangs (aml : Aml) (body : NodeId → Option (List Term)) : ℕ → Env → Task → Prop
  | continue_ {d : ℕ} {e : Env} : Hangs aml body d e (.stmt true .continue_)
  | op {d : ℕ} {e : Env} {mode : Mode} {o : Opcode} {ts : List Term}
    (operands : Hangs aml body d e (.evals o.argModes ts)) : Hangs aml body d e (.eval mode (.op o ts))
  | callArgs {d : ℕ} {e : Env} {mode : Mode} {n : NodeId} {m : Method} {ts : List Term}
    (use : mode ≠ .reference) (callable : (aml.ns.node n).type = .method)
    (code : aml.method n = some m) (count : ts.length = (m.methodFlags &&& 7).toNat)
    (args : Hangs aml body (d + 1) e (.evals (List.replicate ts.length .object) ts)) :
    Hangs aml body d e (.eval mode (.call n ts))
  | call {d : ℕ} {e e₁ : Env} {mode : Mode} {n : NodeId} {m : Method} {ts us : List Term}
    {vs : List Variable} (use : mode ≠ .reference) (callable : (aml.ns.node n).type = .method)
    (code : aml.method n = some m) (known : body n = some us)
    (count : ts.length = (m.methodFlags &&& 7).toNat)
    (args : Evaluates aml body (d + 1) e (.evals (List.replicate ts.length .object) ts) e₁
      (.values (vs.map .object)))
    (runs : Hangs aml body d ⟨.fresh vs, e₁.object⟩ (.block false us)) :
    Hangs aml body d e (.eval mode (.call n ts))
  | operand {d : ℕ} {e : Env} {mode : Mode} {modes : List Mode} {t : Term} {ts : List Term}
    (first : Hangs aml body d e (.eval mode t)) :
    Hangs aml body d e (.evals (mode :: modes) (t :: ts))
  | operands {d : ℕ} {e e₁ : Env} {mode : Mode} {modes : List Mode} {t : Term} {ts : List Term}
    {y : Operand} (first : Evaluates aml body d e (.eval mode t) e₁ (.values [y]))
    (rest : Hangs aml body (d + 1) e₁ (.evals modes ts)) :
    Hangs aml body d e (.evals (mode :: modes) (t :: ts))
  | term {d : ℕ} {e : Env} {b : Bool} {t : Term} (first : Hangs aml body d e (.eval .exec t)) :
    Hangs aml body d e (.stmt b t)
  | return_ {d : ℕ} {e : Env} {b : Bool} {t : Term} (first : Hangs aml body d e (.eval .object t)) :
    Hangs aml body d e (.stmt b (.return_ t))
  | ifTest {d : ℕ} {e : Env} {b : Bool} {t : Term} {ts : List Term}
    (first : Hangs aml body d e (.eval .object t)) : Hangs aml body d e (.stmt b (.if_ t ts))
  | ifTrue {d : ℕ} {e e₁ : Env} {b : Bool} {t : Term} {ts : List Term} {x : Word}
    (first : Evaluates aml body d e (.eval .object t) e₁ (.values [.object (.integer x)]))
    (holds : x ≠ 0) (rest : Hangs aml body d e₁ (.block false ts)) :
    Hangs aml body d e (.stmt b (.if_ t ts))
  | elseTest {d : ℕ} {e : Env} {b : Bool} {t : Term} {ts us : List Term}
    (first : Hangs aml body d e (.eval .object t)) : Hangs aml body d e (.stmt b (.ifElse t ts us))
  | elseTrue {d : ℕ} {e e₁ : Env} {b : Bool} {t : Term} {ts us : List Term} {x : Word}
    (first : Evaluates aml body d e (.eval .object t) e₁ (.values [.object (.integer x)]))
    (holds : x ≠ 0) (rest : Hangs aml body d e₁ (.block false ts)) :
    Hangs aml body d e (.stmt b (.ifElse t ts us))
  | elseFalse {d : ℕ} {e e₁ : Env} {b : Bool} {t : Term} {ts us : List Term}
    (first : Evaluates aml body d e (.eval .object t) e₁ (.values [.object (.integer 0)]))
    (rest : Hangs aml body d e₁ (.block false us)) : Hangs aml body d e (.stmt b (.ifElse t ts us))
  | whileTest {d : ℕ} {e : Env} {b : Bool} {t : Term} {ts : List Term}
    (first : Hangs aml body d e (.eval .object t)) : Hangs aml body d e (.stmt b (.while_ t ts))
  | whileBody {d : ℕ} {e e₁ : Env} {b : Bool} {t : Term} {ts : List Term} {x : Word}
    (first : Evaluates aml body d e (.eval .object t) e₁ (.values [.object (.integer x)]))
    (holds : x ≠ 0) (turn : Hangs aml body d e₁ (.block true ts)) :
    Hangs aml body d e (.stmt b (.while_ t ts))
  | whileAgain {d : ℕ} {e e₁ e₂ : Env} {b : Bool} {t : Term} {ts : List Term} {x : Word}
    (first : Evaluates aml body d e (.eval .object t) e₁ (.values [.object (.integer x)]))
    (holds : x ≠ 0) (turn : Evaluates aml body d e₁ (.block true ts) e₂ (.values []))
    (again : Hangs aml body d e₂ (.stmt b (.while_ t ts))) :
    Hangs aml body d e (.stmt b (.while_ t ts))
  | here {d : ℕ} {e : Env} {b : Bool} {t : Term} {ts : List Term}
    (first : Hangs aml body d e (.stmt b t)) : Hangs aml body d e (.block b (t :: ts))
  | next {d : ℕ} {e e₁ : Env} {b : Bool} {t : Term} {ts : List Term}
    (first : Evaluates aml body d e (.stmt b t) e₁ (.values []))
    (rest : Hangs aml body d e₁ (.block b ts)) : Hangs aml body d e (.block b (t :: ts))
  | nextHere {d : ℕ} {e e₁ : Env} {t : Term} {ts : List Term}
    (first : Evaluates aml body d e (.stmt true t) e₁ .continue_)
    (rest : Hangs aml body d e₁ (.block true ts)) : Hangs aml body d e (.block true (t :: ts))

/-- A state from which the interpreter comes to one that it does not change. -/
def Stuck (aml : Aml) (s : LaiState) : Prop :=
  ∃ t, Steps aml s t ∧ t.stack ≠ [] ∧ laiExecProcess aml t = .ok t

theorem Stuck.before (stuck : Stuck aml s') (steps : Steps aml s s') : Stuck aml s := by
  obtain ⟨t, steps', more, same⟩ := stuck
  exact ⟨t, steps.trans steps', more, same⟩

theorem Stuck.step (stuck : Stuck aml s') (move : laiExecProcess aml s = .ok s') : Stuck aml s :=
  stuck.before (Steps.step move .refl)

theorem Stuck.after (stuck : Stuck aml s) (move : laiExecProcess aml s = .ok s') : Stuck aml s' := by
  obtain ⟨t, steps, more, same⟩ := stuck
  cases steps using Relation.ReflTransGen.head_induction_on with
  | refl =>
    obtain rfl := Except.ok.inj (move.symm.trans same)
    exact ⟨s', .refl, more, same⟩
  | head first rest =>
    obtain rfl := Except.ok.inj (move.symm.trans first)
    exact ⟨t, rest, more, same⟩

/-- The interpreter never comes to an end. -/
theorem Stuck.laiExecRun (stuck : Stuck aml s) : laiExecRun aml turns s = none := by
  obtain ⟨t, steps, more, same⟩ := stuck
  have last (turns : ℕ) : Lai.laiExecRun aml turns t = none := by
    induction turns with
    | zero => rw [Lai.laiExecRun, if_neg more]
    | succ turns ih =>
      rw [Lai.laiExecRun, if_neg more, same]
      exact ih
  induction steps using Relation.ReflTransGen.head_induction_on generalizing turns with
  | refl => exact last turns
  | @head s u move _ ih =>
    have some_ : s.stack ≠ [] := by
      intro none
      rw [laiExecProcess, none] at move
      cases move
    cases turns with
    | zero => rw [Lai.laiExecRun, if_neg some_]
    | succ turns =>
      rw [Lai.laiExecRun, if_neg some_, move]
      exact ih

def SimulatesHang (aml : Aml) (d : ℕ) (e : Env) (task : Task) : Prop :=
  match task with
  | .eval mode t => ∀ (F : Frame) (pc pc' : ℕ) (st : List StackItem) (ops : List Operand),
    ops.length = d → F.limit ≤ F.code.length → pc' ≤ F.limit →
      Encodes aml F.handle F.code F.limit pc (.term t) pc' →
        ∃ s, laiExecParse aml mode (F.conf e pc st ops) = .ok s ∧ Stuck aml s
  | .evals modes ts => ∀ (F : Frame) (pc pc' : ℕ) (item : StackItem) (st : List StackItem)
      (ops before : List Operand) (modes' : List Mode),
    (ops ++ before).length = d → before.length = modes'.length → F.limit ≤ F.code.length →
      pc' ≤ F.limit → Encodes aml F.handle F.code F.limit pc (.terms ts) pc' →
        Feeds aml item ops.length (modes' ++ modes) →
          Stuck aml (F.conf e pc (item :: st) (ops ++ before))
  | .stmt b t => ∀ (F : Frame) (pc pc' : ℕ) (item : StackItem) (st : List StackItem)
      (ops : List Operand),
    ops.length = d → F.limit ≤ F.code.length → pc' ≤ F.limit →
      Encodes aml F.handle F.code F.limit pc (.term t) pc' → Executing item →
        loopOnTop (item :: st) = b → Stuck aml (F.conf e pc (item :: st) ops)
  | .block b ts => ∀ (F : Frame) (pc : ℕ) (item : StackItem) (st : List StackItem)
      (ops : List Operand),
    ops.length = d → F.limit ≤ F.code.length →
      Encodes aml F.handle F.code F.limit pc (.terms ts) F.limit → Executing item →
        loopOnTop (item :: st) = b → Stuck aml (F.conf e pc (item :: st) ops)

/-- A statement begins with a call of the parser. -/
theorem stuck_of_parse (executing : Executing item) (less : pc < F.limit)
    (parsed : laiExecParse aml .exec (F.conf e pc (item :: st) ops) = .ok s) (stuck : Stuck aml s) :
    Stuck aml (F.conf e pc (item :: st) ops) :=
  stuck.step ((laiExecProcess_executing executing less).trans parsed)

/-- `Continue` right in the body of a loop changes nothing. -/
theorem hangs_continue : SimulatesHang aml d e (.stmt true .continue_) := by
  rintro F pc pc' item st ops _ fits within_ encodes executing top
  cases encodes with
  | continue_ place =>
    refine ⟨_, .refl, List.cons_ne_nil _ _, ?_⟩
    rw [laiExecProcess_executing executing (place.lt.trans_le within_), laiExecParse_instr place within_]
    cases item with
    | loop => rfl
    | _ => cases top

theorem hangs_op {o : Opcode} (operands : SimulatesHang aml d e (.evals o.argModes ts)) :
    SimulatesHang aml d e (.eval mode (.op o ts)) := by
  rintro F pc pc' st ops rfl fits within_ encodes
  cases encodes with
  | @op _ _ mid _ _ _ place rest =>
    have stuck := operands F mid pc' (.op ops.length o o.argModes mode.result) st ops [] []
      (by rw [List.append_nil]) rfl fits within_ rest (feeds_op _ _ _ _)
    rw [List.append_nil] at stuck
    refine ⟨_, ?_, stuck⟩
    rw [laiExecParse_instr place (rest.le.1.trans within_), parseInstr]
    rfl

theorem hangs_callArgs {n : NodeId} {m : Method} (use : mode ≠ .reference)
    (callable : (aml.ns.node n).type = .method) (code : aml.method n = some m)
    (count : ts.length = (m.methodFlags &&& 7).toNat)
    (args : SimulatesHang aml (d + 1) e (.evals (List.replicate ts.length .object) ts)) :
    SimulatesHang aml d e (.eval mode (.call n ts)) := by
  rintro F pc pc' st ops depth fits within_ encodes
  cases encodes with
  | @call _ _ mid _ _ _ place rest =>
    exact ⟨_, laiExecParse_call use callable code count place (rest.le.1.trans within_),
      args F mid pc' (.invoke ops.length ts.length mode.result) st ops [.resolvedName n] [.object]
        (by rw [List.length_append, depth]; rfl) rfl fits within_ rest (feeds_invoke _ _ _)⟩

theorem hangs_call {n : NodeId} {m : Method} {vs : List Variable} (loaded : Loaded aml body)
    (use : mode ≠ .reference) (callable : (aml.ns.node n).type = .method)
    (code : aml.method n = some m) (known : body n = some us)
    (count : ts.length = (m.methodFlags &&& 7).toNat)
    (args : Simulates aml (d + 1) e (.evals (List.replicate ts.length .object) ts) e₁
      (.values (vs.map .object)))
    (runs : SimulatesHang aml d ⟨.fresh vs, e₁.object⟩ (.block false us)) :
    SimulatesHang aml d e (.eval mode (.call n ts)) := by
  rintro F pc pc' st ops depth fits within_ encodes
  cases encodes with
  | @call _ _ mid _ _ _ place rest =>
    obtain ⟨count', steps⟩ := args F mid pc' (.invoke ops.length ts.length mode.result) st ops
      [.resolvedName n] [.object] (by rw [List.length_append, depth]; rfl) rfl fits within_ rest
      (feeds_invoke _ _ _) _ rfl
    rw [List.length_map, List.length_replicate] at count'
    obtain ⟨inside, encodes'⟩ := loaded n m us code known
    have enter : laiExecProcess aml (F.conf e₁ pc' (.invoke ops.length vs.length mode.result :: st)
        (ops ++ (.resolvedName n :: vs.map .object))) =
          .ok ((F.called n m e₁ pc').conf ⟨.fresh vs, e₁.object⟩ 0 (.method mode.result :: st) ops) :=
      laiExecProcess_invoke code within_
    rw [count'] at enter
    refine ⟨_, laiExecParse_call use callable code count place (rest.le.1.trans within_),
      Stuck.before (Stuck.step ?_ enter) steps⟩
    exact runs _ 0 (.method mode.result) st ops depth inside encodes' trivial rfl

theorem hangs_operand {modes : List Mode} (first : SimulatesHang aml d e (.eval mode t)) :
    SimulatesHang aml d e (.evals (mode :: modes) (t :: ts)) := by
  rintro F pc pc' item st ops before modes' rfl same fits within_ encodes feeds
  cases encodes with
  | @cons _ _ mid _ _ _ one others =>
    have upto := others.le.1.trans within_
    obtain ⟨s, parsed, stuck⟩ := first F pc mid (item :: st) (ops ++ before) rfl fits upto one
    exact stuck.step ((feeds_next feeds same (one.le.1.trans upto)).trans parsed)

theorem hangs_operands {modes : List Mode} {y : Operand}
    (first : Simulates aml d e (.eval mode t) e₁ (.values [y]))
    (rest : SimulatesHang aml (d + 1) e₁ (.evals modes ts)) :
    SimulatesHang aml d e (.evals (mode :: modes) (t :: ts)) := by
  rintro F pc pc' item st ops before modes' rfl same fits within_ encodes feeds
  cases encodes with
  | @cons _ _ mid _ _ _ one others =>
    have upto := others.le.1.trans within_
    obtain ⟨s, parsed, steps⟩ := first F pc mid (item :: st) (ops ++ before) rfl fits upto one _ rfl
    have feeds' : Feeds aml item ops.length ((modes' ++ [mode]) ++ modes) := by
      rwa [List.append_assoc]
    have stuck := rest F mid pc' item st ops (before ++ [y]) (modes' ++ [mode])
      (by rw [← List.append_assoc, List.length_append]; rfl)
      (by rw [List.length_append, List.length_append, same]; rfl) fits within_ others feeds'
    rw [← List.append_assoc] at stuck
    exact (stuck.before steps).step ((feeds_next feeds same (one.le.1.trans upto)).trans parsed)

/-- The first operand of an item that reads one object. -/
theorem SimulatesHang.first (first : SimulatesHang aml d e (.eval .object t))
    (feeds : Feeds aml item ops.length [.object]) (depth : ops.length = d)
    (fits : F.limit ≤ F.code.length) (within_ : mid ≤ F.limit)
    (encodes : Encodes aml F.handle F.code F.limit pc (.term t) mid) :
    Stuck aml (F.conf e pc (item :: st) ops) := by
  obtain ⟨s, parsed, stuck⟩ := first F pc mid (item :: st) ops depth fits within_ encodes
  have process := feeds F e pc st ops [] .object rfl rfl (encodes.le.1.trans within_)
  rw [List.append_nil] at process
  exact stuck.step (process.trans parsed)

/-! ### Conditionals and loops -/

theorem hangs_ifTest (first : SimulatesHang aml d e (.eval .object t)) :
    SimulatesHang aml d e (.stmt b (.if_ t ts)) := by
  rintro F pc pc' item st ops depth fits within_ encodes executing _
  have less := (encodes.le.2 _ rfl).trans_le within_
  cases encodes with
  | if_ place sized ends one others alone =>
    have upto := others.le.1
    exact stuck_of_parse executing less
      (laiExecParse_if fits place sized ends (one.le.1.trans upto) within_ alone)
      (first.first (F := F.inner _ _) (feeds_cond _ _ _ _) depth (within_.trans fits) upto one)

theorem hangs_ifTrue (first : Simulates aml d e (.eval .object t) e₁ (.values [.object (.integer x)]))
    (holds : x ≠ 0) (rest : SimulatesHang aml d e₁ (.block false ts)) :
    SimulatesHang aml d e (.stmt b (.if_ t ts)) := by
  rintro F pc pc' item st ops depth fits within_ encodes executing _
  have less := (encodes.le.2 _ rfl).trans_le within_
  cases encodes with
  | if_ place sized ends one others alone =>
    have upto := others.le.1
    refine stuck_of_parse executing less
      (laiExecParse_if fits place sized ends (one.le.1.trans upto) within_ alone) ?_
    refine Stuck.before (Stuck.step ?_ (laiExecProcess_ifTrue holds upto))
      (first.first (F := F.inner _ _) (feeds_cond _ _ _ _) depth (within_.trans fits) upto one)
    exact rest (F.inner _ _) _ _ _ ops depth (within_.trans fits) others rfl rfl

theorem hangs_elseTest (first : SimulatesHang aml d e (.eval .object t)) :
    SimulatesHang aml d e (.stmt b (.ifElse t ts us)) := by
  rintro F pc pc' item st ops depth fits within_ encodes executing _
  have less := (encodes.le.2 _ rfl).trans_le within_
  cases encodes with
  | @ifElse _ _ _ _ _ stop _ _ _ _ _ _ place sized ends one others other sized' ends' others' =>
    have upto := others.le.1
    have behind := sized'.lt
    have inside := others'.le.1
    have short : stop ≤ F.code.length := by omega
    exact stuck_of_parse executing less
      (laiExecParse_ifElse fits place sized ends (one.le.1.trans upto) other sized' ends' inside within_)
      (first.first (F := F.inner stop _) (feeds_cond _ _ _ _) depth short upto one)

theorem hangs_elseTrue
    (first : Simulates aml d e (.eval .object t) e₁ (.values [.object (.integer x)]))
    (holds : x ≠ 0) (rest : SimulatesHang aml d e₁ (.block false ts)) :
    SimulatesHang aml d e (.stmt b (.ifElse t ts us)) := by
  rintro F pc pc' item st ops depth fits within_ encodes executing _
  have less := (encodes.le.2 _ rfl).trans_le within_
  cases encodes with
  | @ifElse _ _ _ _ _ stop _ _ _ _ _ _ place sized ends one others other sized' ends' others' =>
    have upto := others.le.1
    have behind := sized'.lt
    have inside := others'.le.1
    have short : stop ≤ F.code.length := by omega
    refine stuck_of_parse executing less
      (laiExecParse_ifElse fits place sized ends (one.le.1.trans upto) other sized' ends' inside within_)
      ?_
    refine Stuck.before (Stuck.step ?_ (laiExecProcess_ifTrue holds upto))
      (first.first (F := F.inner stop _) (feeds_cond _ _ _ _) depth short upto one)
    exact rest (F.inner stop _) _ _ _ ops depth short others rfl rfl

theorem hangs_elseFalse
    (first : Simulates aml d e (.eval .object t) e₁ (.values [.object (.integer 0)]))
    (rest : SimulatesHang aml d e₁ (.block false us)) :
    SimulatesHang aml d e (.stmt b (.ifElse t ts us)) := by
  rintro F pc pc' item st ops depth fits within_ encodes executing _
  have less := (encodes.le.2 _ rfl).trans_le within_
  cases encodes with
  | @ifElse _ _ _ _ _ stop _ _ _ _ _ _ place sized ends one others other sized' ends' others' =>
    have upto := others.le.1
    have behind := sized'.lt
    have inside := others'.le.1
    have short : stop ≤ F.code.length := by omega
    refine stuck_of_parse executing less
      (laiExecParse_ifElse fits place sized ends (one.le.1.trans upto) other sized' ends' inside within_)
      ?_
    refine Stuck.before (Stuck.step ?_ (laiExecProcess_elseFalse upto))
      (first.first (F := F.inner stop _) (feeds_cond _ _ _ _) depth short upto one)
    exact rest (F.inner _ _) _ _ _ ops depth (within_.trans fits) others' rfl rfl

theorem hangs_whileTest (first : SimulatesHang aml d e (.eval .object t)) :
    SimulatesHang aml d e (.stmt b (.while_ t ts)) := by
  rintro F pc pc' item st ops depth fits within_ encodes executing _
  have less := (encodes.le.2 _ rfl).trans_le within_
  cases encodes with
  | while_ place sized ends one others =>
    have upto := others.le.1
    exact stuck_of_parse executing less
      (laiExecParse_while fits place sized ends (one.le.1.trans upto) within_)
      (first.first (F := F.inner _ _) (feeds_loop _ _) depth (within_.trans fits) upto one)

theorem hangs_whileBody
    (first : Simulates aml d e (.eval .object t) e₁ (.values [.object (.integer x)]))
    (holds : x ≠ 0) (turn : SimulatesHang aml d e₁ (.block true ts)) :
    SimulatesHang aml d e (.stmt b (.while_ t ts)) := by
  rintro F pc pc' item st ops depth fits within_ encodes executing _
  have less := (encodes.le.2 _ rfl).trans_le within_
  cases encodes with
  | while_ place sized ends one others =>
    have upto := others.le.1
    refine stuck_of_parse executing less
      (laiExecParse_while fits place sized ends (one.le.1.trans upto) within_) ?_
    refine Stuck.before (Stuck.step ?_ (laiExecProcess_whileTrue holds upto))
      (first.first (F := F.inner _ _) (feeds_loop _ _) depth (within_.trans fits) upto one)
    exact turn (F.inner _ _) _ _ _ ops depth (within_.trans fits) others rfl rfl

theorem hangs_whileAgain
    (first : Simulates aml d e (.eval .object t) e₁ (.values [.object (.integer x)]))
    (holds : x ≠ 0) (turn : Simulates aml d e₁ (.block true ts) e₂ (.values []))
    (again : SimulatesHang aml d e₂ (.stmt b (.while_ t ts))) :
    SimulatesHang aml d e (.stmt b (.while_ t ts)) := by
  rintro F pc pc' item st ops depth fits within_ encodes executing top
  have less := (encodes.le.2 _ rfl).trans_le within_
  have stuck := again F pc pc' item st ops depth fits within_ encodes executing top
  cases encodes with
  | while_ place sized ends one others =>
    have start := one.le.1.trans others.le.1
    -- The loop is entered again as it was entered the first time.
    have stuck' := stuck.after ((laiExecProcess_executing executing less).trans
      (laiExecParse_while fits place sized ends start within_))
    refine stuck_of_parse executing less (laiExecParse_while fits place sized ends start within_)
      (Stuck.before (Stuck.step stuck' ?_) (first.turn holds turn depth (within_.trans fits) one others
        rfl))
    rw [List.append_nil]
    exact laiExecProcess_whileAgain

/-! ### Blocks and methods -/

theorem hangs_here (first : SimulatesHang aml d e (.stmt b t)) :
    SimulatesHang aml d e (.block b (t :: ts)) := by
  rintro F pc item st ops depth fits encodes executing top
  cases encodes with
  | cons one others => exact first F pc _ item st ops depth fits others.le.1 one executing top

theorem hangs_next (first : Simulates aml d e (.stmt b t) e₁ (.values []))
    (rest : SimulatesHang aml d e₁ (.block b ts)) : SimulatesHang aml d e (.block b (t :: ts)) := by
  rintro F pc item st ops depth fits encodes executing top
  cases encodes with
  | cons one others =>
    have front := first.statement depth fits others.le.1 one executing top rfl
    rw [List.append_nil] at front
    exact (rest F _ item st ops depth fits others executing top).before front

theorem hangs_nextHere (first : Simulates aml d e (.stmt true t) e₁ .continue_)
    (rest : SimulatesHang aml d e₁ (.block true ts)) :
    SimulatesHang aml d e (.block true (t :: ts)) := by
  rintro F pc item st ops depth fits encodes executing top
  cases encodes with
  | @cons _ _ mid _ _ _ one others =>
    have back : F.land e₁ mid (item :: st) ops .continue_ = some (F.conf e₁ mid (item :: st) ops) := by
      cases item with
      | loop => rfl
      | _ => cases top
    exact (rest F _ item st ops depth fits others executing top).before
      (first.statement depth fits others.le.1 one executing top back)

/-- The interpreter is stuck wherever the rules say so. -/
theorem simulatesHang_of_hangs (loaded : Loaded aml body) (hangs : Hangs aml body d e task) :
    SimulatesHang aml d e task := by
  induction hangs with
  | continue_ => exact hangs_continue
  | op _ ih => exact hangs_op ih
  | callArgs use callable code count _ ih => exact hangs_callArgs use callable code count ih
  | call use callable code known count args _ ih =>
    exact hangs_call loaded use callable code known count (simulates_of_evaluates loaded args) ih
  | operand _ ih => exact hangs_operand ih
  | operands first _ ih => exact hangs_operands (simulates_of_evaluates loaded first) ih
  | term _ ih =>
    rintro F pc pc' item st ops depth fits within_ encodes executing _
    obtain ⟨s, parsed, stuck⟩ := ih F pc pc' (item :: st) ops depth fits within_ encodes
    exact stuck_of_parse executing ((encodes.le.2 _ rfl).trans_le within_) parsed stuck
  | return_ _ ih =>
    rintro F pc pc' item st ops depth fits within_ encodes executing _
    have less := (encodes.le.2 _ rfl).trans_le within_
    cases encodes with
    | @return_ _ _ mid _ _ place rest =>
      exact stuck_of_parse executing less (laiExecParse_return place (rest.le.1.trans within_))
        (ih.first (feeds_return _) depth fits within_ rest)
  | ifTest _ ih => exact hangs_ifTest ih
  | ifTrue first holds _ ih => exact hangs_ifTrue (simulates_of_evaluates loaded first) holds ih
  | elseTest _ ih => exact hangs_elseTest ih
  | elseTrue first holds _ ih => exact hangs_elseTrue (simulates_of_evaluates loaded first) holds ih
  | elseFalse first _ ih => exact hangs_elseFalse (simulates_of_evaluates loaded first) ih
  | whileTest _ ih => exact hangs_whileTest ih
  | whileBody first holds _ ih => exact hangs_whileBody (simulates_of_evaluates loaded first) holds ih
  | whileAgain first holds turn _ ih =>
    exact hangs_whileAgain (simulates_of_evaluates loaded first) holds
      (simulates_of_evaluates loaded turn) ih
  | here _ ih => exact hangs_here ih
  | next first _ ih => exact hangs_next (simulates_of_evaluates loaded first) ih
  | nextHere first _ ih => exact hangs_nextHere (simulates_of_evaluates loaded first) ih

/-- A method that comes to a `Continue` right in the body of a loop never returns. -/
theorem laiEvalArgs_hangs {n : NodeId} {m : Method} {args : List Variable} {object : NodeId → Variable}
    (loaded : Loaded aml body) (callable : (aml.ns.node n).type = .method)
    (code : aml.method n = some m) (known : body n = some ts)
    (hangs : Hangs aml body 0 ⟨.fresh args, object⟩ (.block false ts)) (turns : ℕ) :
    laiEvalArgs aml turns (laiInitState object) n args = none := by
  obtain ⟨inside, encodes⟩ := loaded n m ts code known
  have stuck := simulatesHang_of_hangs loaded hangs ⟨n, m.pointer, m.size, [], []⟩ 0 (.method true)
    [] [] rfl inside encodes trivial rfl
  have never : laiExecRun aml turns (startMethod (laiInitState object) n m args) = none :=
    stuck.laiExecRun
  rw [laiEvalArgs, callable]
  dsimp only
  rw [code]
  dsimp only
  rw [never]
  rfl

/-! ### The shortest such method -/

/-- `While (One) { Continue }` -/
def spinning : List Term := [.while_ (.integer 1) [.continue_]]

def spinningCode : Method where
  methodFlags := 0
  pointer := [0xA2, 0x03, 0x01, 0x9F]
  size := 4

def spinningAml : Aml where
  ns := rootOnly.create ⟨nameOf 'S' 'P' 'I' 'N', .method, some 0, none, .zeroed⟩
  method n := if n = 1 then some spinningCode else none

def spinningBody (n : NodeId) : Option (List Term) := if n = 1 then some spinning else none

theorem spinning_loaded : Loaded spinningAml spinningBody := by
  intro n m ts code known
  obtain ⟨rfl, same⟩ := Option.ite_none_right_eq_some.mp code
  obtain rfl := Option.some.inj same
  obtain rfl := Option.some.inj known
  have sized : SizeAt spinningCode.pointer 1 3 2 :=
    ⟨0, by decide, 0, by decide, by decide, rfl, by decide⟩
  exact ⟨le_rfl, .cons (.while_ ⟨0xA2, rfl, .inl ⟨rfl, rfl⟩⟩ sized rfl
    (.constant ⟨0x01, rfl, .inl ⟨rfl, rfl⟩⟩) (.cons (.continue_ ⟨0x9F, rfl, .inl ⟨rfl, rfl⟩⟩) .nil)) .nil⟩

theorem laiEvalArgs_hangs_of_spinning :
    laiEvalArgs spinningAml 1000 (laiInitState fun _ => .none) 1 [] = none :=
  laiEvalArgs_hangs spinning_loaded rfl rfl rfl
    (.here (.whileBody (.integer nofun) (by decide) (.here .continue_))) 1000

end X86Os.Lai
