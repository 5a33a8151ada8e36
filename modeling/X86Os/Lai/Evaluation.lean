import X86Os.Lai.ExecRuns

/-!
# Evaluating a method

`lai_eval_args` enters a method, runs the interpreter until its stack is empty
and takes the result from the operand stack.
-/

namespace X86Os.Lai

open Library.Memory Library.LittleEndian
set_option autoImplicit false

variable {aml : Aml} {body : NodeId → Option (List Term)} {e e' : Env} {d pc pc' turns : ℕ}
  {st : List StackItem} {ops : List Operand} {mode : Mode} {v : Variable} {F : Frame} {o : Outcome}
  {t : Term} {ts : List Term} {n : NodeId} {m : Method} {args : List Variable} {s s' : LaiState}

/-- A run that comes to an end. -/
theorem laiExecRun_of_steps (steps : Steps aml s s') (last : s'.stack = []) :
    ∃ enough, ∀ turns ≥ enough, laiExecRun aml turns s = some (.ok s') := by
  induction steps using Relation.ReflTransGen.head_induction_on with
  | refl =>
    refine ⟨0, fun turns _ => ?_⟩
    cases turns <;> rw [laiExecRun, if_pos last]
  | @head s t move _ ih =>
    obtain ⟨enough, runs⟩ := ih
    refine ⟨enough + 1, fun turns more => ?_⟩
    have some_ : s.stack ≠ [] := by
      intro none
      rw [laiExecProcess, none] at move
      cases move
    obtain ⟨turns, rfl⟩ : ∃ k, turns = k + 1 := ⟨turns - 1, by omega⟩
    rw [laiExecRun, if_neg some_, move]
    exact runs turns (by omega)

/-- The interpreter evaluates an encoded term in any surroundings: it pushes what the rules say, steps
behind the encoding and leaves the stacks below alone. -/
theorem laiExecParse_evaluates (loaded : Loaded aml body) {xs : List Operand}
    (evaluates : Evaluates aml body ops.length e (.eval mode t) e' (.values xs))
    (inside : F.limit ≤ F.code.length) (within_ : pc' ≤ F.limit)
    (encodes : Encodes aml F.handle F.code F.limit pc (.term t) pc') :
    ∃ s, laiExecParse aml mode (F.conf e pc st ops) = .ok s ∧
      Steps aml s (F.conf e' pc' st (ops ++ xs)) :=
  simulates_of_evaluates loaded evaluates F pc pc' st ops rfl inside within_ encodes xs rfl

theorem steps_of_returns (loaded : Loaded aml body) (has : m.Has aml n ts) {object : NodeId → Variable}
    (evaluates : Evaluates aml body 0 ⟨.fresh args, object⟩ (.block false ts) e o)
    (returns : Returns 0 o v) :
    Steps aml (startMethod (laiInitState object) n m args) ⟨[], [], [], [.object v], e.object⟩ := by
  have run := simulates_of_evaluates loaded evaluates ⟨n, m.pointer, m.size, [], []⟩ 0 (.method true)
    [] []
  cases returns with
  | return_ v => exact run _ rfl has.inside has.encodes trivial rfl rfl
  | atEnd =>
    refine (run _ rfl has.inside has.encodes trivial rfl rfl).tail ?_
    rw [laiExecProcess_conf (by exact le_rfl), processItem, processMethod, if_pos (by rfl),
      ensure_of (by exact rfl), ok_bind]
    rfl

/-- A method whose body has a value by the rules returns this value, with its effects on the named
objects and the interpreter's stacks empty again. -/
theorem laiEvalArgs_evaluates (loaded : Loaded aml body) (callable : (aml.ns.node n).type = .method)
    (code : aml.method n = some m) (known : body n = some ts) {object : NodeId → Variable}
    (evaluates : Evaluates aml body 0 ⟨.fresh args, object⟩ (.block false ts) e o)
    (returns : Returns 0 o v) : ∃ enough, ∀ turns ≥ enough,
      laiEvalArgs aml turns (laiInitState object) n args = some (.ok (v, laiInitState e.object)) := by
  have steps := steps_of_returns loaded (loaded n m ts code known) evaluates returns
  obtain ⟨enough, runs⟩ := laiExecRun_of_steps steps rfl
  refine ⟨enough, fun turns more => ?_⟩
  rw [laiEvalArgs, callable]
  dsimp only
  rw [code]
  dsimp only
  rw [runs turns more]
  rfl

/-! ### A countdown -/

theorem first_arg : 0 < 7 := by decide

/-- `While (Arg0) { Decrement (Arg0) } Return (Arg0)` -/
def countdown : List Term :=
  [.while_ (.arg ⟨0, first_arg⟩) [.op .decrement [.arg ⟨0, first_arg⟩]], .return_ (.arg ⟨0, first_arg⟩)]

def countdownCode : Method where
  methodFlags := 1
  pointer := [0xA2, 0x04, 0x68, 0x76, 0x68, 0xA4, 0x68]
  size := 7

def countdownAml : Aml where
  ns := rootOnly.create ⟨nameOf 'C' 'N' 'T' 'D', .method, some 0, none, .zeroed⟩
  method n := if n = 1 then some countdownCode else none

def countdownBody (n : NodeId) : Option (List Term) := if n = 1 then some countdown else none

theorem countdown_encodes : countdownCode.Has countdownAml 1 countdown := by
  have sized : SizeAt countdownCode.pointer 1 4 2 :=
    ⟨0, by decide, 0, by decide, by decide, rfl, by decide⟩
  have arg (limit : ℕ) {pc : ℕ} (here : countdownCode.pointer[pc]? = some 0x68) :
      Encodes countdownAml 1 countdownCode.pointer limit pc (.term (.arg 0)) (pc + 1) :=
    .arg ⟨0x68, here, .inl ⟨rfl, rfl⟩⟩
  refine ⟨le_rfl, .cons (.while_ ⟨0xA2, rfl, .inl ⟨rfl, rfl⟩⟩ sized rfl (arg 5 rfl) ?_)
    (.cons (.return_ ⟨0xA4, rfl, .inl ⟨rfl, rfl⟩⟩ (arg 7 rfl)) .nil)⟩
  exact .cons (.op ⟨0x76, rfl, .inl ⟨rfl, rfl⟩⟩ (.cons (arg 5 rfl) .nil)) .nil

theorem countdown_loaded : Loaded countdownAml countdownBody := by
  intro n m ts code known
  obtain ⟨rfl, same⟩ := Option.ite_none_right_eq_some.mp code
  obtain rfl := Option.some.inj same
  obtain rfl := Option.some.inj known
  exact countdown_encodes

def counting (x : Word) : Env := ⟨.fresh [.integer x], fun _ => .none⟩

theorem counting_assign (x y : Word) :
    (counting x).assign countdownAml true (.integer y) (.argName 0) = some (counting y) := by
  have updated : Function.update (counting x).invocation.arg 0 (.integer y) =
      (counting y).invocation.arg := by
    funext i
    cases i using Fin.cases with
    | zero => rfl
    | succ i => rfl
  rw [Env.assign, updated]
  rfl

theorem countdown_decrement (x : Word) : Evaluates countdownAml countdownBody 0 (counting x)
    (.eval .exec (.op .decrement [.arg 0])) (counting (x - 1)) (.values []) :=
  .op (.operand .argName .noOperand) (.counting rfl rfl (counting_assign x _))

theorem laiExecParse_evaluates_of_decrement : ∃ s,
    laiExecParse countdownAml .exec
        (Frame.conf ⟨1, countdownCode.pointer, 7, [], []⟩ (counting 3) 3 [] []) = .ok s ∧
      Steps countdownAml s (Frame.conf ⟨1, countdownCode.pointer, 7, [], []⟩ (counting 2) 5 [] []) :=
  laiExecParse_evaluates countdown_loaded (countdown_decrement 3) (by decide) (by decide)
    (.op ⟨0x76, rfl, .inl ⟨rfl, rfl⟩⟩ (.cons (.arg ⟨0x68, rfl, .inl ⟨rfl, rfl⟩⟩) .nil))

/-- The loop counts down to zero, by induction on the argument. -/
theorem countdown_loop (x : Word) : Evaluates countdownAml countdownBody 0 (counting x)
    (.stmt false (.while_ (.arg 0) [.op .decrement [.arg 0]])) (counting 0) (.values []) := by
  have value (x : Word) : Evaluates countdownAml countdownBody 0 (counting x)
      (.eval .object (.arg 0)) (counting x) (.values [.object (.integer x)]) := .arg
  induction size : x.toNat generalizing x with
  | zero =>
    obtain rfl : x = 0 := BitVec.eq_of_toNat_eq size
    exact .whileFalse (value 0)
  | succ k ih =>
    have more : x ≠ 0 := by
      rintro rfl
      cases size
    have less : (x - 1).toNat = k := by
      rw [BitVec.toNat_sub_of_le (BitVec.le_def.mpr (by rw [size]; exact Nat.succ_pos k)), size]
      rfl
    exact .whileTrue (value x) more (.next (.term (countdown_decrement x)) .done) (ih (x - 1) less)

theorem countdown_evaluates (x : Word) : Evaluates countdownAml countdownBody 0 (counting x)
    (.block false countdown) (counting 0) (.return_ (.integer 0)) :=
  .next (countdown_loop x) (.returnOut (.return_ .arg))

theorem laiEvalArgs_evaluates_of_countdown : ∃ enough, ∀ turns ≥ enough,
    laiEvalArgs countdownAml turns (laiInitState fun _ => .none) 1 [.integer 3] =
      some (.ok (.integer 0, laiInitState fun _ => .none)) :=
  laiEvalArgs_evaluates (n := 1) countdown_loaded rfl rfl rfl (countdown_evaluates 3) (.return_ _)

end X86Os.Lai
