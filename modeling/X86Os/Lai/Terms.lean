import X86Os.Lai.Exec

/-!
# The language of AML

Terms are what AML code stands for: expressions, targets and statements. A term
has many encodings, as the sizes of constructs and the integers in it do. Its
meaning is given by rules, in which the interpreter's stacks do not occur: all
that is left of them is the number of operands that wait below a term, because
a method can only end without a return where none does.
-/

namespace X86Os.Lai

open Library.Memory Library.LittleEndian
set_option autoImplicit false

/-- Names are resolved already; a bare name stands for a node that is no method. -/
inductive Term
  | integer (value : Word)
  | arg (index : Fin 7)
  | local_ (index : Fin 8)
  | name (node : NodeId)
  | null
  | debug
  | op (opcode : Opcode) (operands : List Term)
  | call (method : NodeId) (args : List Term)
  | nop
  | return_ (value : Term)
  | break_
  | continue_
  | if_ (pred : Term) (body : List Term)
  | ifElse (pred : Term) (body otherwise : List Term)
  | while_ (pred : Term) (body : List Term)

/-! ### Encodings -/

def InstrAt (code : List Byte) (pc : ℕ) (instr : Instr) (pc' : ℕ) : Prop :=
  ∃ first, code[pc]? = some first ∧
    (instrs.lookup first = some instr ∧ pc' = pc + 1 ∨
      first = extopPrefix ∧ ∃ second, code[pc + 1]? = some second ∧
        extInstrs.lookup second = some instr ∧ pc' = pc + 2)

def Instr.width : Instr → Option ℕ
  | byteprefixOp => some 1
  | wordprefixOp => some 2
  | dwordprefixOp => some 4
  | _ => none

def NameAt (aml : Aml) (handle : NodeId) (code : List Byte) (pc : ℕ) (node : NodeId) (pc' : ℕ) :
    Prop :=
  ∃ first amln size, code[pc]? = some first ∧ laiIsName first ∧
    laiAmlnameParse (code.drop pc) = .ok (amln, size) ∧
      laiDoResolve aml.ns handle amln = .ok (some node) ∧ 0 < size ∧ pc' = pc + size

inductive Form
  | term (t : Term)
  | terms (ts : List Term)

/-- The code between the two counters is an encoding of the form, in a block with this limit. -/
inductive Encodes (aml : Aml) (handle : NodeId) (code : List Byte) : ℕ → ℕ → Form → ℕ → Prop
  | zero {limit pc pc' : ℕ} (opcode : InstrAt code pc .zero pc') :
    Encodes aml handle code limit pc (.term (.integer 0)) pc'
  | constant {limit pc pc' : ℕ} {value : Word} (opcode : InstrAt code pc (.constant value) pc') :
    Encodes aml handle code limit pc (.term (.integer value)) pc'
  | literal {limit pc mid bytes value : ℕ} {instr : Instr} (opcode : InstrAt code pc instr mid)
    (wide : instr.width = some bytes) (fits : value < 256 ^ bytes)
    (word : leBytes bytes value <+: code.drop mid) :
    Encodes aml handle code limit pc (.term (.integer (BitVec.ofNat 32 value))) (mid + bytes)
  | arg {limit pc pc' : ℕ} {index : Fin 7} (opcode : InstrAt code pc (.arg index) pc') :
    Encodes aml handle code limit pc (.term (.arg index)) pc'
  | local_ {limit pc pc' : ℕ} {index : Fin 8} (opcode : InstrAt code pc (.local_ index) pc') :
    Encodes aml handle code limit pc (.term (.local_ index)) pc'
  | name {limit pc pc' : ℕ} {node : NodeId} (named : NameAt aml handle code pc node pc')
    (plain : (aml.ns.node node).type ≠ .method) :
    Encodes aml handle code limit pc (.term (.name node)) pc'
  | null {limit pc pc' : ℕ} (opcode : InstrAt code pc .zero pc') :
    Encodes aml handle code limit pc (.term .null) pc'
  | debug {limit pc pc' : ℕ} (opcode : InstrAt code pc .debug pc') :
    Encodes aml handle code limit pc (.term .debug) pc'
  | op {limit pc mid pc' : ℕ} {opcode_ : Opcode} {operands : List Term}
    (opcode : InstrAt code pc (.op opcode_) mid)
    (rest : Encodes aml handle code limit mid (.terms operands) pc') :
    Encodes aml handle code limit pc (.term (.op opcode_ operands)) pc'
  | call {limit pc mid pc' : ℕ} {node : NodeId} {args : List Term}
    (named : NameAt aml handle code pc node mid)
    (rest : Encodes aml handle code limit mid (.terms args) pc') :
    Encodes aml handle code limit pc (.term (.call node args)) pc'
  | nop {limit pc pc' : ℕ} (opcode : InstrAt code pc .nop pc') :
    Encodes aml handle code limit pc (.term .nop) pc'
  | return_ {limit pc mid pc' : ℕ} {value : Term} (opcode : InstrAt code pc .return_ mid)
    (rest : Encodes aml handle code limit mid (.term value) pc') :
    Encodes aml handle code limit pc (.term (.return_ value)) pc'
  | break_ {limit pc pc' : ℕ} (opcode : InstrAt code pc .break_ pc') :
    Encodes aml handle code limit pc (.term .break_) pc'
  | continue_ {limit pc pc' : ℕ} (opcode : InstrAt code pc .continue_ pc') :
    Encodes aml handle code limit pc (.term .continue_) pc'
  | if_ {limit pc size start mid stop : ℕ} {pred : Term} {body : List Term}
    (opcode : InstrAt code pc .if_ (pc + 1)) (sized : SizeAt code (pc + 1) size start)
    (ends : stop = pc + 1 + size) (first : Encodes aml handle code stop start (.term pred) mid)
    (rest : Encodes aml handle code stop mid (.terms body) stop)
    (alone : stop < limit → code[stop]? ≠ some elseOp) :
    Encodes aml handle code limit pc (.term (.if_ pred body)) stop
  | ifElse {limit pc size start mid stop size' start' stop' : ℕ} {pred : Term}
    {body otherwise : List Term} (opcode : InstrAt code pc .if_ (pc + 1))
    (sized : SizeAt code (pc + 1) size start) (ends : stop = pc + 1 + size)
    (first : Encodes aml handle code stop start (.term pred) mid)
    (rest : Encodes aml handle code stop mid (.terms body) stop)
    (other : code[stop]? = some elseOp) (sized' : SizeAt code (stop + 1) size' start')
    (ends' : stop' = stop + 1 + size')
    (rest' : Encodes aml handle code stop' start' (.terms otherwise) stop') :
    Encodes aml handle code limit pc (.term (.ifElse pred body otherwise)) stop'
  | while_ {limit pc size start mid stop : ℕ} {pred : Term} {body : List Term}
    (opcode : InstrAt code pc .while_ (pc + 1)) (sized : SizeAt code (pc + 1) size start)
    (ends : stop = pc + 1 + size) (first : Encodes aml handle code stop start (.term pred) mid)
    (rest : Encodes aml handle code stop mid (.terms body) stop) :
    Encodes aml handle code limit pc (.term (.while_ pred body)) stop
  | nil {limit pc : ℕ} : Encodes aml handle code limit pc (.terms []) pc
  | cons {limit pc mid pc' : ℕ} {t : Term} {ts : List Term}
    (first : Encodes aml handle code limit pc (.term t) mid)
    (rest : Encodes aml handle code limit mid (.terms ts) pc') :
    Encodes aml handle code limit pc (.terms (t :: ts)) pc'

structure Method.Has (m : Method) (aml : Aml) (n : NodeId) (ts : List Term) : Prop where
  inside : m.size ≤ m.pointer.length
  encodes : Encodes aml n m.pointer m.size 0 (.terms ts) m.size

def Loaded (aml : Aml) (body : NodeId → Option (List Term)) : Prop :=
  ∀ n m ts, aml.method n = some m → body n = some ts → m.Has aml n ts

/-! ### Meaning -/

structure Env where
  invocation : Invocation
  object : NodeId → Variable

def Invocation.fresh (args : List Variable) : Invocation where
  arg i := args.getD i .none
  local_ _ := .none

namespace Env

variable (e : Env)

/-- Storing to a target. Where the store converts, an integer cannot become an object without a
value. -/
def assign (aml : Aml) (converts : Bool) (value : Variable) : Operand → Option Env
  | .object _ => none
  | .nullName | .debugName => some e
  | .argName i =>
    some { e with invocation := { e.invocation with
      arg := Function.update e.invocation.arg i value } }
  | .localName i =>
    some { e with invocation := { e.invocation with
      local_ := Function.update e.invocation.local_ i value } }
  | .resolvedName n =>
    if (aml.ns.node n).type = .name ∧ ¬(converts ∧ value = .none ∧ e.object n ≠ .none) then
      some { e with object := Function.update e.object n value }
    else none

def load (aml : Aml) : Operand → Option Variable
  | .argName i => some (e.invocation.arg i)
  | .localName i => some (e.invocation.local_ i)
  | .resolvedName n => if (aml.ns.node n).type = .name then some (e.object n) else none
  | _ => none

end Env

namespace Opcode

def leftBit (x : Word) : Word := if x = 0 then 0 else BitVec.ofNat 32 (Nat.log2 x.toNat + 1)

/-- One more than the position of the lowest bit that is set, and 32 on top: the interpreter counts
down from 65, as for integers of 64 bits. -/
def rightBit (x : Word) : Word :=
  match (List.range 32).find? fun i => x.getLsbD i with
  | none => 0
  | some i => BitVec.ofNat 32 (i + 1 + 32)

def unary : Opcode → Option (Word → Word)
  | not => some (~~~·)
  | findSetLeftBit => some leftBit
  | findSetRightBit => some rightBit
  | _ => none

def binary : Opcode → Option (Word → Word → Option Word)
  | add => some fun x y => some (x + y)
  | subtract => some fun x y => some (x - y)
  | multiply => some fun x y => some (x * y)
  | mod => some fun x y => if y = 0 then none else some (x % y)
  | and => some fun x y => some (x &&& y)
  | nand => some fun x y => some (~~~(x &&& y))
  | or => some fun x y => some (x ||| y)
  | nor => some fun x y => some (~~~(x ||| y))
  | xor => some fun x y => some (x ^^^ y)
  | shl => some fun x y => if y.toNat < 32 then some (x <<< y.toNat) else none
  | shr => some fun x y => if y.toNat < 32 then some (x >>> y.toNat) else none
  | _ => none

/-- The connectives answer with one or zero, the comparisons with all bits or none. -/
def logical : Opcode → Option (Word → Word → Word)
  | land => some fun x y => if x ≠ 0 ∧ y ≠ 0 then 1 else 0
  | lor => some fun x y => if x ≠ 0 ∨ y ≠ 0 then 1 else 0
  | lequal => some fun x y => if x = y then BitVec.allOnes 32 else 0
  | lless => some fun x y => if x.toNat < y.toNat then BitVec.allOnes 32 else 0
  | lgreater => some fun x y => if y.toNat < x.toNat then BitVec.allOnes 32 else 0
  | _ => none

def counting : Opcode → Option (Word → Word)
  | increment => some (· + 1)
  | decrement => some (· - 1)
  | _ => none

end Opcode

/-- What an operator makes of its operands: its value and the variables afterwards. -/
inductive Applies (aml : Aml) (e : Env) : Opcode → List Operand → Variable → Env → Prop
  | store {e' : Env} {v : Variable} {t : Operand} (put : e.assign aml true v t = some e') :
    Applies aml e .store [.object v, t] v e'
  | copyObject {e' : Env} {v : Variable} {t : Operand} (put : e.assign aml false v t = some e') :
    Applies aml e .copyObject [.object v, t] v e'
  | unary {e' : Env} {o : Opcode} {f : Word → Word} {x : Word} {t : Operand}
    (means : o.unary = some f) (put : e.assign aml true (.integer (f x)) t = some e') :
    Applies aml e o [.object (.integer x), t] (.integer (f x)) e'
  | binary {e' : Env} {o : Opcode} {f : Word → Word → Option Word} {x y z : Word} {t : Operand}
    (means : o.binary = some f) (defined_ : f x y = some z)
    (put : e.assign aml true (.integer z) t = some e') :
    Applies aml e o [.object (.integer x), .object (.integer y), t] (.integer z) e'
  | logical {o : Opcode} {f : Word → Word → Word} {x y : Word} (means : o.logical = some f) :
    Applies aml e o [.object (.integer x), .object (.integer y)] (.integer (f x y)) e
  | lnot {x : Word} :
    Applies aml e .lnot [.object (.integer x)] (.integer (if x = 0 then 1 else 0)) e
  | counting {e' : Env} {o : Opcode} {f : Word → Word} {x : Word} {t : Operand}
    (means : o.counting = some f) (loaded : e.load aml t = some (.integer x))
    (put : e.assign aml true (.integer (f x)) t = some e') :
    Applies aml e o [t] (.integer (f x)) e'
  | divide {e' e'' : Env} {x y : Word} {r q : Operand} (divides : y ≠ 0)
    (putRest : e.assign aml true (.integer (x % y)) r = some e')
    (putQuotient : e'.assign aml true (.integer (x / y)) q = some e'') :
    Applies aml e .divide [.object (.integer x), .object (.integer y), r, q] .none e''

/-- How a task ends: with operands, or on its way out of the constructs around it. -/
inductive Outcome
  | values (operands : List Operand)
  | break_
  | continue_
  | return_ (value : Variable)

inductive Task
  | eval (mode : Mode) (t : Term)
  | evals (modes : List Mode) (ts : List Term)
  | stmt (inLoop : Bool) (t : Term)
  | block (inLoop : Bool) (ts : List Term)

def Mode.wanted (mode : Mode) (v : Variable) : List Operand :=
  if mode.result then [.object v] else []

inductive Returns : ℕ → Outcome → Variable → Prop
  | return_ {d : ℕ} (v : Variable) : Returns d (.return_ v) v
  | atEnd : Returns 0 (.values []) (.integer 0)

/-- The rules. The number counts the operands that wait below the task; a statement knows whether it
stands right in the body of a loop. -/
inductive Evaluates (aml : Aml) (body : NodeId → Option (List Term)) :
    ℕ → Env → Task → Env → Outcome → Prop
  | integer {d : ℕ} {e : Env} {mode : Mode} {v : Word} (use : mode ≠ .reference) :
    Evaluates aml body d e (.eval mode (.integer v)) e (.values (mode.wanted (.integer v)))
  | null {d : ℕ} {e : Env} :
    Evaluates aml body d e (.eval .reference .null) e (.values [.nullName])
  | debug {d : ℕ} {e : Env} :
    Evaluates aml body d e (.eval .reference .debug) e (.values [.debugName])
  | arg {d : ℕ} {e : Env} {i : Fin 7} :
    Evaluates aml body d e (.eval .object (.arg i)) e (.values [.object (e.invocation.arg i)])
  | argName {d : ℕ} {e : Env} {i : Fin 7} :
    Evaluates aml body d e (.eval .reference (.arg i)) e (.values [.argName i])
  | local_ {d : ℕ} {e : Env} {i : Fin 8} :
    Evaluates aml body d e (.eval .object (.local_ i)) e
      (.values [.object (e.invocation.local_ i)])
  | localName {d : ℕ} {e : Env} {i : Fin 8} :
    Evaluates aml body d e (.eval .reference (.local_ i)) e (.values [.localName i])
  | object {d : ℕ} {e : Env} {mode : Mode} {n : NodeId} (use : mode ≠ .reference)
    (named : (aml.ns.node n).type = .name) :
    Evaluates aml body d e (.eval mode (.name n)) e (.values (mode.wanted (e.object n)))
  | name {d : ℕ} {e : Env} {n : NodeId} :
    Evaluates aml body d e (.eval .reference (.name n)) e (.values [.resolvedName n])
  | op {d : ℕ} {e e₁ e₂ : Env} {mode : Mode} {o : Opcode} {ts : List Term} {xs : List Operand}
    {v : Variable} (operands : Evaluates aml body d e (.evals o.argModes ts) e₁ (.values xs))
    (applies : Applies aml e₁ o xs v e₂) :
    Evaluates aml body d e (.eval mode (.op o ts)) e₂ (.values (mode.wanted v))
  | call {d : ℕ} {e e₁ e₂ : Env} {mode : Mode} {n : NodeId} {m : Method} {ts : List Term}
    {us : List Term} {vs : List Variable} {o : Outcome} {v : Variable} (use : mode ≠ .reference)
    (callable : (aml.ns.node n).type = .method) (code : aml.method n = some m)
    (known : body n = some us) (count : ts.length = (m.methodFlags &&& 7).toNat)
    (args : Evaluates aml body (d + 1) e (.evals (List.replicate ts.length .object) ts) e₁
      (.values (vs.map .object)))
    (runs : Evaluates aml body d ⟨.fresh vs, e₁.object⟩ (.block false us) e₂ o)
    (returns : Returns d o v) :
    Evaluates aml body d e (.eval mode (.call n ts)) ⟨e₁.invocation, e₂.object⟩
      (.values (mode.wanted v))
  | noOperand {d : ℕ} {e : Env} : Evaluates aml body d e (.evals [] []) e (.values [])
  | operand {d : ℕ} {e e₁ e₂ : Env} {mode : Mode} {modes : List Mode} {t : Term} {ts : List Term}
    {x : Operand} {xs : List Operand} (first : Evaluates aml body d e (.eval mode t) e₁ (.values [x]))
    (rest : Evaluates aml body (d + 1) e₁ (.evals modes ts) e₂ (.values xs)) :
    Evaluates aml body d e (.evals (mode :: modes) (t :: ts)) e₂ (.values (x :: xs))
  | term {d : ℕ} {e e₁ : Env} {b : Bool} {t : Term}
    (first : Evaluates aml body d e (.eval .exec t) e₁ (.values [])) :
    Evaluates aml body d e (.stmt b t) e₁ (.values [])
  | nop {d : ℕ} {e : Env} {b : Bool} : Evaluates aml body d e (.stmt b .nop) e (.values [])
  | return_ {d : ℕ} {e e₁ : Env} {b : Bool} {t : Term} {v : Variable}
    (first : Evaluates aml body d e (.eval .object t) e₁ (.values [.object v])) :
    Evaluates aml body d e (.stmt b (.return_ t)) e₁ (.return_ v)
  | break_ {d : ℕ} {e : Env} {b : Bool} : Evaluates aml body d e (.stmt b .break_) e .break_
  | continue_ {d : ℕ} {e : Env} : Evaluates aml body d e (.stmt false .continue_) e .continue_
  | ifTrue {d : ℕ} {e e₁ e₂ : Env} {b : Bool} {t : Term} {ts : List Term} {x : Word} {o : Outcome}
    (first : Evaluates aml body d e (.eval .object t) e₁ (.values [.object (.integer x)]))
    (holds : x ≠ 0) (rest : Evaluates aml body d e₁ (.block false ts) e₂ o) :
    Evaluates aml body d e (.stmt b (.if_ t ts)) e₂ o
  | ifFalse {d : ℕ} {e e₁ : Env} {b : Bool} {t : Term} {ts : List Term}
    (first : Evaluates aml body d e (.eval .object t) e₁ (.values [.object (.integer 0)])) :
    Evaluates aml body d e (.stmt b (.if_ t ts)) e₁ (.values [])
  | elseTrue {d : ℕ} {e e₁ e₂ : Env} {b : Bool} {t : Term} {ts us : List Term} {x : Word}
    {o : Outcome}
    (first : Evaluates aml body d e (.eval .object t) e₁ (.values [.object (.integer x)]))
    (holds : x ≠ 0) (rest : Evaluates aml body d e₁ (.block false ts) e₂ o) :
    Evaluates aml body d e (.stmt b (.ifElse t ts us)) e₂ o
  | elseFalse {d : ℕ} {e e₁ e₂ : Env} {b : Bool} {t : Term} {ts us : List Term} {o : Outcome}
    (first : Evaluates aml body d e (.eval .object t) e₁ (.values [.object (.integer 0)]))
    (rest : Evaluates aml body d e₁ (.block false us) e₂ o) :
    Evaluates aml body d e (.stmt b (.ifElse t ts us)) e₂ o
  | whileFalse {d : ℕ} {e e₁ : Env} {b : Bool} {t : Term} {ts : List Term}
    (first : Evaluates aml body d e (.eval .object t) e₁ (.values [.object (.integer 0)])) :
    Evaluates aml body d e (.stmt b (.while_ t ts)) e₁ (.values [])
  | whileTrue {d : ℕ} {e e₁ e₂ e₃ : Env} {b : Bool} {t : Term} {ts : List Term} {x : Word}
    {o : Outcome}
    (first : Evaluates aml body d e (.eval .object t) e₁ (.values [.object (.integer x)]))
    (holds : x ≠ 0) (turn : Evaluates aml body d e₁ (.block true ts) e₂ (.values []))
    (again : Evaluates aml body d e₂ (.stmt b (.while_ t ts)) e₃ o) :
    Evaluates aml body d e (.stmt b (.while_ t ts)) e₃ o
  | whileBreak {d : ℕ} {e e₁ e₂ : Env} {b : Bool} {t : Term} {ts : List Term} {x : Word}
    (first : Evaluates aml body d e (.eval .object t) e₁ (.values [.object (.integer x)]))
    (holds : x ≠ 0) (turn : Evaluates aml body d e₁ (.block true ts) e₂ .break_) :
    Evaluates aml body d e (.stmt b (.while_ t ts)) e₂ (.values [])
  | whileReturn {d : ℕ} {e e₁ e₂ : Env} {b : Bool} {t : Term} {ts : List Term} {x : Word}
    {v : Variable}
    (first : Evaluates aml body d e (.eval .object t) e₁ (.values [.object (.integer x)]))
    (holds : x ≠ 0) (turn : Evaluates aml body d e₁ (.block true ts) e₂ (.return_ v)) :
    Evaluates aml body d e (.stmt b (.while_ t ts)) e₂ (.return_ v)
  | done {d : ℕ} {e : Env} {b : Bool} : Evaluates aml body d e (.block b []) e (.values [])
  | next {d : ℕ} {e e₁ e₂ : Env} {b : Bool} {t : Term} {ts : List Term} {o : Outcome}
    (first : Evaluates aml body d e (.stmt b t) e₁ (.values []))
    (rest : Evaluates aml body d e₁ (.block b ts) e₂ o) :
    Evaluates aml body d e (.block b (t :: ts)) e₂ o
  | breakOut {d : ℕ} {e e₁ : Env} {b : Bool} {t : Term} {ts : List Term}
    (first : Evaluates aml body d e (.stmt b t) e₁ .break_) :
    Evaluates aml body d e (.block b (t :: ts)) e₁ .break_
  | returnOut {d : ℕ} {e e₁ : Env} {b : Bool} {t : Term} {ts : List Term} {v : Variable}
    (first : Evaluates aml body d e (.stmt b t) e₁ (.return_ v)) :
    Evaluates aml body d e (.block b (t :: ts)) e₁ (.return_ v)
  | continueOut {d : ℕ} {e e₁ : Env} {t : Term} {ts : List Term}
    (first : Evaluates aml body d e (.stmt false t) e₁ .continue_) :
    Evaluates aml body d e (.block false (t :: ts)) e₁ .continue_
  -- The loop goes on behind the conditional that the `Continue` stands in.
  | continueHere {d : ℕ} {e e₁ e₂ : Env} {t : Term} {ts : List Term} {o : Outcome}
    (first : Evaluates aml body d e (.stmt true t) e₁ .continue_)
    (rest : Evaluates aml body d e₁ (.block true ts) e₂ o) :
    Evaluates aml body d e (.block true (t :: ts)) e₂ o

end X86Os.Lai
