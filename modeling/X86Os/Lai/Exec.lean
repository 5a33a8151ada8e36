import X86Os.Lai.Bytecode
import X86Os.Lai.Host
import X86Os.Lai.Namespace

/-!
# The AML interpreter

`lai_exec_run` processes the top of an execution stack until the stack is empty.
An item of the stack is a construct that has been entered; `lai_exec_parse`
reads the next opcode of the current block and either finishes it at once or
enters it. The model has the objects that arithmetic needs, integers and objects
without a value, and the opcodes that work on them; it stops where other objects
would be created. `uint64_t` is `unsigned long`, so integers have 32 bits.
-/

namespace X86Os.Lai

open Library.Memory
set_option autoImplicit false

inductive LaiError
  | executionFailure
  | unexpectedResult
  | illegalArguments
  | typeMismatch
  deriving DecidableEq, Repr

/-- Why the interpreter does not go on. A quotient by zero and a shift by the whole width or more
are undefined in C. -/
inductive Halt
  | stop (how : Stop)
  | error (code : LaiError)
  | undefined
  | unmodelled
  deriving DecidableEq, Repr

def within {α : Type} : Except Stop α → Except Halt α
  | .ok x => .ok x
  | .error how => .error (.stop how)

def ensure (cond : Prop) [Decidable cond] : Except Halt Unit := within (laiEnsure cond)

inductive Variable
  | none
  | integer (value : Word)
  deriving DecidableEq, Repr

inductive Operand
  | object (value : Variable)
  | nullName
  | resolvedName (handle : NodeId)
  | argName (index : Fin 7)
  | localName (index : Fin 8)
  | debugName
  deriving DecidableEq, Repr

inductive Mode
  | object
  | exec
  | reference
  deriving DecidableEq, Repr

namespace Mode

def result : Mode → Bool
  | exec => false
  | _ => true

def invoke : Mode → Bool
  | reference => false
  | _ => true

end Mode

/-- The operators whose operands are collected on the operand stack. -/
inductive Opcode
  | store | add | subtract | increment | decrement | multiply | divide | shl | shr | and | nand
  | or | nor | xor | not | findSetLeftBit | findSetRightBit | mod | land | lor | lnot | lequal
  | lgreater | lless | copyObject
  deriving DecidableEq, Repr

namespace Opcode

def all : List Opcode :=
  [store, add, subtract, increment, decrement, multiply, divide, shl, shr, and, nand, or, nor, xor,
    not, findSetLeftBit, findSetRightBit, mod, land, lor, lnot, lequal, lgreater, lless, copyObject]

def byte : Opcode → Byte
  | store => 0x70
  | add => 0x72
  | subtract => 0x74
  | increment => 0x75
  | decrement => 0x76
  | multiply => 0x77
  | divide => 0x78
  | shl => 0x79
  | shr => 0x7A
  | and => 0x7B
  | nand => 0x7C
  | or => 0x7D
  | nor => 0x7E
  | xor => 0x7F
  | not => 0x80
  | findSetLeftBit => 0x81
  | findSetRightBit => 0x82
  | mod => 0x85
  | land => 0x90
  | lor => 0x91
  | lnot => 0x92
  | lequal => 0x93
  | lgreater => 0x94
  | lless => 0x95
  | copyObject => 0x9D

def argModes : Opcode → List Mode
  | store | copyObject | not | findSetLeftBit | findSetRightBit => [.object, .reference]
  | add | subtract | mod | multiply | and | or | xor | shr | shl | nand | nor =>
    [.object, .object, .reference]
  | divide => [.object, .object, .reference, .reference]
  | increment | decrement => [.reference]
  | lnot => [.object]
  | land | lor | lequal | lless | lgreater => [.object, .object]

end Opcode

/-- The opcodes by what the parser does about them. -/
inductive Instr
  | nop
  | zero
  | constant (value : Word)
  | byteprefixOp
  | wordprefixOp
  | dwordprefixOp
  | qwordprefixOp
  | arg (index : Fin 7)
  | local_ (index : Fin 8)
  | debug
  | op (opcode : Opcode)
  | return_
  | while_
  | continue_
  | break_
  | if_
  | else_
  deriving DecidableEq, Repr

def extopPrefix : Byte := 0x5B

def elseOp : Byte := 0xA1

def instrs : List (Byte × Instr) :=
  [(0x00, .zero), (0x01, .constant 1), (0x0A, .byteprefixOp), (0x0B, .wordprefixOp),
    (0x0C, .dwordprefixOp), (0x0E, .qwordprefixOp), (0x60, .local_ 0), (0x61, .local_ 1), (0x62, .local_ 2), (0x63, .local_ 3),
    (0x64, .local_ 4), (0x65, .local_ 5), (0x66, .local_ 6), (0x67, .local_ 7), (0x68, .arg 0), (0x69, .arg 1),
    (0x6A, .arg 2), (0x6B, .arg 3), (0x6C, .arg 4), (0x6D, .arg 5), (0x6E, .arg 6),
    (0x9F, .continue_), (0xA0, .if_), (elseOp, .else_), (0xA2, .while_), (0xA3, .nop),
    (0xA4, .return_), (0xA5, .break_), (0xCC, .nop), (0xFF, .constant (BitVec.allOnes 32))] ++
  Opcode.all.map fun opcode => (opcode.byte, .op opcode)

/-- The opcodes behind `EXTOP_PREFIX`: `Revision` and `Debug`. -/
def extInstrs : List (Byte × Instr) := [(0x30, .constant 0x20200712), (0x31, .debug)]

/-! ### The state -/

structure Invocation where
  arg : Fin 7 → Variable
  local_ : Fin 8 → Variable

/-- `struct lai_ctxitem`. The table goes on behind the code of a method. -/
structure CtxItem where
  code : List Byte
  handle : NodeId
  invocation : Option Invocation

structure BlkItem where
  pc : ℕ
  limit : ℕ
  deriving DecidableEq, Repr

inductive StackItem
  | populate
  | method (wantResult : Bool)
  | loop (opstackFrame : ℕ) (iteration : Bool) (pred : ℕ)
  | cond (opstackFrame : ℕ) (branch hasElse : Bool) (elsePc elseLimit : ℕ)
  | op (opstackFrame : ℕ) (opcode : Opcode) (argModes : List Mode) (wantResult : Bool)
  | invoke (opstackFrame argc : ℕ) (wantResult : Bool)
  | return_ (opstackFrame : ℕ)
  deriving DecidableEq, Repr

/-- `lai_state_t`: the operand stack bottom first, the others top first. The objects of the named
nodes go with it. -/
structure LaiState where
  ctxstack : List CtxItem
  blkstack : List BlkItem
  stack : List StackItem
  opstack : List Operand
  object : NodeId → Variable

structure Method where
  methodFlags : Byte
  pointer : List Byte
  size : ℕ

/-- What the interpreter only reads: the namespace and the AML methods in it. -/
structure Aml where
  ns : Namespace
  method : NodeId → Option Method

namespace LaiState

def push (s : LaiState) (operand : Operand) : LaiState :=
  { s with opstack := s.opstack ++ [operand] }

def pushIf (s : LaiState) (wanted : Bool) (value : Variable) : LaiState :=
  if wanted then s.push (.object value) else s

def commitPc (s : LaiState) (pc : ℕ) : LaiState :=
  { s with blkstack := s.blkstack.modifyHead fun block => { block with pc := pc } }

def enter (s : LaiState) (item : StackItem) : LaiState := { s with stack := item :: s.stack }

def enterBlock (s : LaiState) (block : BlkItem) : LaiState :=
  { s with blkstack := block :: s.blkstack }

def setInvocation (s : LaiState) (invocation : Invocation) : LaiState :=
  { s with ctxstack := s.ctxstack.modifyHead fun ctx => { ctx with invocation := some invocation } }

end LaiState

/-- The pops of the stacks check that there is something to pop. -/
def popped {α : Type} : List α → Except Halt (List α)
  | [] => .error (.stop .ensure)
  | _ :: rest => .ok rest

def laiExecPopCtxstackBack (s : LaiState) : Except Halt LaiState := do
  let ctxstack ← popped s.ctxstack
  .ok { s with ctxstack := ctxstack }

def laiExecPopBlkstackBack (s : LaiState) : Except Halt LaiState := do
  let blkstack ← popped s.blkstack
  .ok { s with blkstack := blkstack }

def laiExecPopStackBack (s : LaiState) : Except Halt LaiState := do
  let stack ← popped s.stack
  .ok { s with stack := stack }

def leaveBlock (s : LaiState) : Except Halt LaiState := do
  let s ← laiExecPopBlkstackBack s
  laiExecPopStackBack s

/-! ### Operands -/

def laiExecGetObjectref : Operand → Except Halt Variable
  | .object value => .ok value
  | _ => .error (.stop .ensure)

def laiExecGetInteger (src : Operand) : Except Halt Word := do
  match ← laiExecGetObjectref src with
  | .none => .error (.error .executionFailure)
  | .integer value => .ok value

/-- `lai_exec_access`; the other types of nodes give other objects. -/
def laiExecAccess (aml : Aml) (s : LaiState) (src : NodeId) : Except Halt Variable :=
  if (aml.ns.node src).type = .name then .ok (s.object src) else .error .unmodelled

def topInvocation (s : LaiState) : Except Halt Invocation :=
  match s.ctxstack with
  | ⟨_, _, some invocation⟩ :: _ => .ok invocation
  | _ => .error (.stop .ensure)

def laiOperandLoad (aml : Aml) (s : LaiState) : Operand → Except Halt Variable
  | .argName index => do
    let invocation ← topInvocation s
    .ok (invocation.arg index)
  | .localName index => do
    let invocation ← topInvocation s
    .ok (invocation.local_ index)
  | .resolvedName handle => laiExecAccess aml s handle
  | _ => .error (.stop .ensure)

def laiStoreNs (aml : Aml) (s : LaiState) (target : NodeId) (object : Variable) :
    Except Halt LaiState :=
  if (aml.ns.node target).type = .name then
    .ok { s with object := Function.update s.object target object }
  else .error .unmodelled

/-- `lai_exec_mutate_ns`: an integer is converted to, not replaced. -/
def laiExecMutateNs (aml : Aml) (s : LaiState) (target : NodeId) (object : Variable) :
    Except Halt LaiState :=
  match s.object target, object with
  | .integer _, .none =>
    if (aml.ns.node target).type = .name then .error (.stop .ensure) else .error .unmodelled
  | _, _ => laiStoreNs aml s target object

/-- What `lai_operand_mutate` and `lai_operand_emplace` share. -/
def storeWith (storeNs : LaiState → NodeId → Variable → Except Halt LaiState) (s : LaiState)
    (dest : Operand) (object : Variable) : Except Halt LaiState :=
  match dest with
  | .object _ => .error (.stop .ensure)
  | .nullName | .debugName => .ok s
  | .resolvedName handle => storeNs s handle object
  | .argName index => do
    let invocation ← topInvocation s
    .ok (s.setInvocation { invocation with arg := Function.update invocation.arg index object })
  | .localName index => do
    let invocation ← topInvocation s
    .ok (s.setInvocation
      { invocation with local_ := Function.update invocation.local_ index object })

def laiOperandMutate (aml : Aml) := storeWith (laiExecMutateNs aml)

def laiOperandEmplace (aml : Aml) := storeWith (laiStoreNs aml)

/-! ### Operators -/

/-- The loop of `FINDSETLEFTBIT_OP`. -/
def countRight : ℕ → Word → ℕ → ℕ
  | 0, _, msb => msb
  | turns + 1, operand, msb =>
    if operand = 0 then msb else countRight turns (operand >>> 1) (msb + 1)

/-- The loop of `FINDSETRIGHTBIT_OP`. -/
def countLeft : ℕ → Word → ℕ → ℕ
  | 0, _, lsb => lsb
  | turns + 1, operand, lsb =>
    if operand = 0 then lsb else countLeft turns (operand <<< 1) (lsb + 1)

def reduceStore (store : LaiState → Operand → Variable → Except Halt LaiState) (s : LaiState) :
    List Operand → Except Halt (Variable × LaiState)
  | [source, target] => do
    let result ← laiExecGetObjectref source
    let s ← store s target result
    .ok (result, s)
  | _ => .error (.stop .wild)

def reduceUnary (aml : Aml) (f : Word → Word) (s : LaiState) :
    List Operand → Except Halt (Variable × LaiState)
  | [source, target] => do
    let operand ← laiExecGetInteger source
    let s ← laiOperandMutate aml s target (.integer (f operand))
    .ok (.integer (f operand), s)
  | _ => .error (.stop .wild)

def reduceBinary (aml : Aml) (f : Word → Word → Option Word) (s : LaiState) :
    List Operand → Except Halt (Variable × LaiState)
  | [left, right, target] => do
    let lhs ← laiExecGetInteger left
    let rhs ← laiExecGetInteger right
    match f lhs rhs with
    | none => .error .undefined
    | some value =>
      let s ← laiOperandMutate aml s target (.integer value)
      .ok (.integer value, s)
  | _ => .error (.stop .wild)

def reduceLogical (f : Word → Word → Word) (s : LaiState) :
    List Operand → Except Halt (Variable × LaiState)
  | [left, right] => do
    let lhs ← laiExecGetInteger left
    let rhs ← laiExecGetInteger right
    .ok (.integer (f lhs rhs), s)
  | _ => .error (.stop .wild)

/-- `lai_obj_exec_match_op` behind the comparisons, which answer with all bits. -/
def reduceMatch (f : Word → Word → Bool) (s : LaiState) :
    List Operand → Except Halt (Variable × LaiState)
  | [left, right] => do
    let lhs ← laiExecGetObjectref left
    let rhs ← laiExecGetObjectref right
    match lhs, rhs with
    | .integer lhs, .integer rhs => .ok (.integer (if f lhs rhs then BitVec.allOnes 32 else 0), s)
    | _, _ => .error (.error .illegalArguments)
  | _ => .error (.stop .wild)

def reduceStep (aml : Aml) (f : Word → Word) (s : LaiState) :
    List Operand → Except Halt (Variable × LaiState)
  | [target] => do
    match ← laiOperandLoad aml s target with
    | .none => .error (.stop .ensure)
    | .integer value =>
      let s ← laiOperandMutate aml s target (.integer (f value))
      .ok (.integer (f value), s)
  | _ => .error (.stop .wild)

def reduceNot (s : LaiState) : List Operand → Except Halt (Variable × LaiState)
  | [source] => do
    let operand ← laiExecGetInteger source
    .ok (.integer (if operand = 0 then 1 else 0), s)
  | _ => .error (.stop .wild)

/-- `DIVIDE_OP` stores the remainder and the quotient; its own result has no value. -/
def reduceDivide (aml : Aml) (s : LaiState) : List Operand → Except Halt (Variable × LaiState)
  | [left, right, remainder, quotient] => do
    let lhs ← laiExecGetInteger left
    let rhs ← laiExecGetInteger right
    if rhs = 0 then .error .undefined
    else
      let s ← laiOperandMutate aml s remainder (.integer (lhs % rhs))
      let s ← laiOperandMutate aml s quotient (.integer (lhs / rhs))
      .ok (.none, s)
  | _ => .error (.stop .wild)

def shiftBy (shift : Word → ℕ → Word) (lhs rhs : Word) : Option Word :=
  if rhs.toNat < 32 then some (shift lhs rhs.toNat) else none

def laiExecReduceOp (aml : Aml) (s : LaiState) :
    Opcode → List Operand → Except Halt (Variable × LaiState)
  | .store => reduceStore (laiOperandMutate aml) s
  | .copyObject => reduceStore (laiOperandEmplace aml) s
  | .not => reduceUnary aml (~~~·) s
  | .findSetLeftBit => reduceUnary aml (fun operand => BitVec.ofNat 32 (countRight 32 operand 0)) s
  | .findSetRightBit =>
    reduceUnary aml (fun operand =>
      let lsb := countLeft 32 operand 0
      BitVec.ofNat 32 (if lsb = 0 then 0 else 65 - lsb)) s
  | .add => reduceBinary aml (fun lhs rhs => some (lhs + rhs)) s
  | .subtract => reduceBinary aml (fun lhs rhs => some (lhs - rhs)) s
  | .mod => reduceBinary aml (fun lhs rhs => if rhs = 0 then none else some (lhs % rhs)) s
  | .multiply => reduceBinary aml (fun lhs rhs => some (lhs * rhs)) s
  | .and => reduceBinary aml (fun lhs rhs => some (lhs &&& rhs)) s
  | .or => reduceBinary aml (fun lhs rhs => some (lhs ||| rhs)) s
  | .xor => reduceBinary aml (fun lhs rhs => some (lhs ^^^ rhs)) s
  | .nand => reduceBinary aml (fun lhs rhs => some (~~~(lhs &&& rhs))) s
  | .nor => reduceBinary aml (fun lhs rhs => some (~~~(lhs ||| rhs))) s
  | .shl => reduceBinary aml (shiftBy (· <<< ·)) s
  | .shr => reduceBinary aml (shiftBy (· >>> ·)) s
  | .divide => reduceDivide aml s
  | .increment => reduceStep aml (· + 1) s
  | .decrement => reduceStep aml (· - 1) s
  | .lnot => reduceNot s
  | .land => reduceLogical (fun lhs rhs => if lhs ≠ 0 ∧ rhs ≠ 0 then 1 else 0) s
  | .lor => reduceLogical (fun lhs rhs => if lhs ≠ 0 ∨ rhs ≠ 0 then 1 else 0) s
  | .lequal => reduceMatch (· == ·) s
  | .lless => reduceMatch (fun lhs rhs => lhs.toNat < rhs.toNat) s
  | .lgreater => reduceMatch (fun lhs rhs => rhs.toNat < lhs.toNat) s

/-! ### Parsing -/

def parseName (aml : Aml) (mode : Mode) (s : LaiState) (ctx : CtxItem) (pc : ℕ) :
    Except Halt LaiState := do
  let (amln, size) ← within (laiAmlnameParse (ctx.code.drop pc))
  let s := s.commitPc (pc + size)
  match ← within (laiDoResolve aml.ns ctx.handle amln) with
  | none => .error (.error .unexpectedResult)
  | some handle =>
    if mode.invoke then
      if (aml.ns.node handle).type = .method then
        match aml.method handle with
        | none => .error .unmodelled
        | some method =>
          .ok ((s.enter (.invoke s.opstack.length (method.methodFlags &&& 7).toNat mode.result)).push
            (.resolvedName handle))
      else
        let value ← laiExecAccess aml s handle
        .ok (s.pushIf mode.result value)
    else .ok (s.push (.resolvedName handle))

/-- A constant, which the execution mode discards. -/
def pushConstant (mode : Mode) (s : LaiState) (value : Word) : Except Halt LaiState :=
  match mode with
  | .object => .ok (s.push (.object (.integer value)))
  | .exec => .ok s
  | .reference => .error (.stop .ensure)

def pushLiteral (mode : Mode) (s : LaiState) : Option (ℕ × ℕ) → Except Halt LaiState
  | none => .error (.error .executionFailure)
  | some (value, pc) => pushConstant mode (s.commitPc pc) (BitVec.ofNat 32 value)

/-- The upper four of the eight bytes are shifted by the whole width or more. -/
def laiParseU64 (pc limit : ℕ) : Except Halt (Option (ℕ × ℕ)) :=
  if limit < pc + 8 then .ok none else .error .undefined

def nestedInLoop : List StackItem → Except Halt ℕ
  | .loop .. :: _ => .ok 0
  | .cond .. :: items => do
    let m ← nestedInLoop items
    .ok (m + 1)
  | _ => .error (.stop .ensure)

/-- How many items are nested in the innermost method, and whether its result is wanted. -/
def nestedInMethod : List StackItem → Except Halt (ℕ × Bool)
  | .method wantResult :: _ => .ok (0, wantResult)
  | .cond .. :: items | .loop .. :: items => do
    let (m, wantResult) ← nestedInMethod items
    .ok (m + 1, wantResult)
  | _ => .error (.stop .ensure)

def popNested : ℕ → LaiState → Except Halt LaiState
  | 0, s => .ok s
  | m + 1, s =>
    match s.stack with
    | .cond .. :: _ | .loop .. :: _ => do
      let s ← leaveBlock s
      popNested m s
    | _ => .error (.stop .ensure)

/-- The size of a construct whose opcode stands at `opcodePc`, and where it starts. -/
def parseSize (ctx : CtxItem) (block : BlkItem) (pc : ℕ) : Except Halt (ℕ × ℕ) := do
  match ← within (laiParseVarint ctx.code pc block.limit) with
  | none => .error (.error .executionFailure)
  | some parsed => .ok parsed

def elseFollows (ctx : CtxItem) (block : BlkItem) (ifLimit : ℕ) : Except Halt Bool :=
  if ifLimit < block.limit then do
    let next ← within (readAt ctx.code ifLimit)
    .ok (decide (next = elseOp))
  else .ok false

def parseElse (ctx : CtxItem) (block : BlkItem) (ifLimit : ℕ) (hasElse : Bool) :
    Except Halt (ℕ × ℕ) :=
  if hasElse then parseSize ctx block (ifLimit + 1) else .ok (0, 0)

def parseIf (s : LaiState) (ctx : CtxItem) (block : BlkItem) (pc : ℕ) : Except Halt LaiState := do
  let (ifSize, ifPc) ← parseSize ctx block pc
  let ifLimit := block.pc + 1 + ifSize
  let hasElse ← elseFollows ctx block ifLimit
  let (elseSize, elsePc) ← parseElse ctx block ifLimit hasElse
  let elseLimit := ifLimit + 1 + elseSize
  let s := s.commitPc (if hasElse then elseLimit else ifLimit)
  .ok ((s.enterBlock ⟨ifPc, ifLimit⟩).enter
    (.cond s.opstack.length false hasElse elsePc elseLimit))

def parseWhile (s : LaiState) (ctx : CtxItem) (block : BlkItem) (pc : ℕ) : Except Halt LaiState := do
  let (loopSize, bodyPc) ← parseSize ctx block pc
  let limit := block.pc + 1 + loopSize
  let s := s.commitPc limit
  .ok ((s.enterBlock ⟨bodyPc, limit⟩).enter (.loop s.opstack.length false bodyPc))

/-- The cases of the opcodes; `pc` is behind the opcode. -/
def parseInstr (mode : Mode) (s : LaiState) (ctx : CtxItem) (block : BlkItem) (pc : ℕ) :
    Instr → Except Halt LaiState
  | .nop => .ok (s.commitPc pc)
  | .zero =>
    if mode = .reference then .ok ((s.commitPc pc).push .nullName)
    else pushConstant mode (s.commitPc pc) 0
  | .constant value => pushConstant mode (s.commitPc pc) value
  | .byteprefixOp => do pushLiteral mode s (← within (laiParseU8 ctx.code pc block.limit))
  | .wordprefixOp => do pushLiteral mode s (← within (laiParseU16 ctx.code pc block.limit))
  | .dwordprefixOp => do pushLiteral mode s (← within (laiParseU32 ctx.code pc block.limit))
  | .qwordprefixOp => do pushLiteral mode s (← laiParseU64 pc block.limit)
  | .arg index =>
    match mode with
    | .reference => .ok ((s.commitPc pc).push (.argName index))
    | .object => do
      let invocation ← topInvocation s
      .ok ((s.commitPc pc).push (.object (invocation.arg index)))
    | .exec => .error (.stop .ensure)
  | .local_ index =>
    match mode with
    | .reference => .ok ((s.commitPc pc).push (.localName index))
    | .object => do
      let invocation ← topInvocation s
      .ok ((s.commitPc pc).push (.object (invocation.local_ index)))
    | .exec => .error (.stop .ensure)
  | .debug =>
    if mode = .reference then .ok ((s.commitPc pc).push .debugName) else .error (.stop .ensure)
  | .op opcode =>
    .ok ((s.commitPc pc).enter (.op s.opstack.length opcode opcode.argModes mode.result))
  | .return_ => .ok ((s.commitPc pc).enter (.return_ s.opstack.length))
  | .while_ => parseWhile s ctx block pc
  | .continue_ => do
    -- The new program counter of the source is never committed.
    let m ← nestedInLoop s.stack
    popNested m s
  | .break_ => do
    let m ← nestedInLoop s.stack
    let s ← popNested m s
    leaveBlock s
  | .if_ => parseIf s ctx block pc
  | .else_ => .error (.stop .ensure)

def fetch (code : List Byte) (pc limit : ℕ) (first : Byte) : Except Halt (Instr × ℕ) :=
  if first = extopPrefix then
    if pc + 1 = limit then .error (.stop .ensure)
    else do
      let second ← within (readAt code (pc + 1))
      match extInstrs.lookup second with
      | none => .error .unmodelled
      | some instr => .ok (instr, pc + 2)
  else
    match instrs.lookup first with
    | none => .error .unmodelled
    | some instr => .ok (instr, pc + 1)

def laiExecParse (aml : Aml) (mode : Mode) (s : LaiState) : Except Halt LaiState :=
  match s.ctxstack, s.blkstack with
  | ctx :: _, block :: _ => do
    ensure (block.pc < block.limit)
    let first ← within (readAt ctx.code block.pc)
    if laiIsName first then parseName aml mode s ctx block.pc
    else
      let (instr, pc) ← fetch ctx.code block.pc block.limit first
      parseInstr mode s ctx block pc instr
  | _, _ => .error (.stop .ensure)

/-! ### Processing -/

def leaveContext (s : LaiState) : Except Halt LaiState := do
  let s ← laiExecPopCtxstackBack s
  leaveBlock s

def collected (s : LaiState) (opstackFrame : ℕ) : List Operand := s.opstack.drop opstackFrame

def popOperands (s : LaiState) (opstackFrame : ℕ) : LaiState :=
  { s with opstack := s.opstack.take opstackFrame }

/-- `LAI_METHOD_STACKITEM`: a method returns zero at its end. -/
def processMethod (aml : Aml) (s : LaiState) (block : BlkItem) (wantResult : Bool) :
    Except Halt LaiState :=
  if block.pc = block.limit then do
    ensure (s.opstack = [])
    leaveContext (s.pushIf wantResult (.integer 0))
  else laiExecParse aml .exec s

def processOp (aml : Aml) (s : LaiState) (opstackFrame : ℕ) (opcode : Opcode)
    (argModes : List Mode) (wantResult : Bool) : Except Halt LaiState :=
  match argModes[(collected s opstackFrame).length]? with
  | some mode => laiExecParse aml mode s
  | none => do
    let (result, s) ← laiExecReduceOp aml s opcode (collected s opstackFrame)
    laiExecPopStackBack ((popOperands s opstackFrame).pushIf wantResult result)

/-- `LAI_INVOKE_STACKITEM`; the first operand is the method. -/
def processInvoke (aml : Aml) (s : LaiState) (opstackFrame argc : ℕ) (wantResult : Bool) :
    Except Halt LaiState := do
  ensure ((collected s opstackFrame).length ≤ argc + 1)
  if (collected s opstackFrame).length = argc + 1 then
    match collected s opstackFrame with
    | .resolvedName handle :: operands =>
      match aml.method handle with
      | none => .error .unmodelled
      | some method =>
        let args ← operands.mapM laiExecGetObjectref
        let s ← laiExecPopStackBack (popOperands s opstackFrame)
        .ok { s with
          ctxstack := ⟨method.pointer, handle,
            some ⟨fun i => args.getD i .none, fun _ => .none⟩⟩ :: s.ctxstack
          blkstack := ⟨0, method.size⟩ :: s.blkstack
          stack := .method wantResult :: s.stack }
    | _ => .error (.stop .ensure)
  else laiExecParse aml .object s

def processReturn (aml : Aml) (s : LaiState) (opstackFrame : ℕ) : Except Halt LaiState := do
  ensure ((collected s opstackFrame).length ≤ 1)
  match collected s opstackFrame with
  | operand :: _ =>
    let result ← laiExecGetObjectref operand
    let (m, wantResult) ← nestedInMethod s.stack.tail
    let s ← laiExecPopStackBack ((popOperands s opstackFrame).pushIf wantResult result)
    let s ← popNested m s
    leaveContext s
  | [] => laiExecParse aml .object s

def predicate (s : LaiState) (opstackFrame : ℕ) : Except Halt (Option Word) := do
  ensure ((collected s opstackFrame).length ≤ 1)
  match collected s opstackFrame with
  | operand :: _ =>
    let value ← laiExecGetInteger operand
    .ok (some value)
  | [] => .ok none

def LaiState.setTop (s : LaiState) (item : StackItem) : LaiState :=
  { s with stack := s.stack.modifyHead fun _ => item }

def processLoop (aml : Aml) (s : LaiState) (block : BlkItem) (opstackFrame : ℕ) (iteration : Bool)
    (pred : ℕ) : Except Halt LaiState :=
  if iteration then
    if block.pc = block.limit then
      .ok ((s.commitPc pred).setTop (.loop opstackFrame false pred))
    else laiExecParse aml .exec s
  else do
    match ← predicate s opstackFrame with
    | none => laiExecParse aml .object s
    | some value =>
      if value ≠ 0 then .ok ((popOperands s opstackFrame).setTop (.loop opstackFrame true pred))
      else leaveBlock (popOperands s opstackFrame)

def processCond (aml : Aml) (s : LaiState) (block : BlkItem) (opstackFrame : ℕ)
    (branch hasElse : Bool) (elsePc elseLimit : ℕ) : Except Halt LaiState :=
  if branch then
    if block.pc = block.limit then leaveBlock s else laiExecParse aml .exec s
  else do
    match ← predicate s opstackFrame with
    | none => laiExecParse aml .object s
    | some value =>
      let s := popOperands s opstackFrame
      if value ≠ 0 then .ok (s.setTop (.cond opstackFrame true hasElse elsePc elseLimit))
      else if hasElse then
        .ok { s.setTop (.cond opstackFrame true hasElse elsePc elseLimit) with
          blkstack := s.blkstack.modifyHead fun _ => ⟨elsePc, elseLimit⟩ }
      else leaveBlock s

/-- The cases of `lai_exec_process`. -/
def processItem (aml : Aml) (s : LaiState) (block : BlkItem) : StackItem → Except Halt LaiState
  | .populate => if block.pc = block.limit then leaveContext s else laiExecParse aml .exec s
  | .method wantResult => processMethod aml s block wantResult
  | .op opstackFrame opcode argModes wantResult =>
    processOp aml s opstackFrame opcode argModes wantResult
  | .invoke opstackFrame argc wantResult => processInvoke aml s opstackFrame argc wantResult
  | .return_ opstackFrame => processReturn aml s opstackFrame
  | .loop opstackFrame iteration pred => processLoop aml s block opstackFrame iteration pred
  | .cond opstackFrame branch hasElse elsePc elseLimit =>
    processCond aml s block opstackFrame branch hasElse elsePc elseLimit

def laiExecProcess (aml : Aml) (s : LaiState) : Except Halt LaiState :=
  match s.stack, s.ctxstack, s.blkstack with
  | item :: _, _ :: _, block :: _ => do
    ensure (block.pc ≤ block.limit)
    processItem aml s block item
  | _, _, _ => .error (.stop .ensure)

/-- `lai_exec_run` within a number of turns; `none` stands for a run that has not ended by then. -/
def laiExecRun (aml : Aml) : ℕ → LaiState → Option (Except Halt LaiState)
  | 0, s => if s.stack = [] then some (.ok s) else none
  | turns + 1, s =>
    if s.stack = [] then some (.ok s)
    else
      match laiExecProcess aml s with
      | .error halt => some (.error halt)
      | .ok s => laiExecRun aml turns s

def laiInitState (object : NodeId → Variable) : LaiState := ⟨[], [], [], [], object⟩

def startMethod (s : LaiState) (handle : NodeId) (method : Method) (args : List Variable) :
    LaiState :=
  { s with
    ctxstack := ⟨method.pointer, handle,
      some ⟨fun i => args.getD i .none, fun _ => .none⟩⟩ :: s.ctxstack
    blkstack := ⟨0, method.size⟩ :: s.blkstack
    stack := .method true :: s.stack }

def finishMethod (s : LaiState) : Except Halt (Variable × LaiState) := do
  ensure (s.ctxstack = [])
  ensure (s.stack = [])
  match s.opstack with
  | [operand] => do
    let result ← laiExecGetObjectref operand
    .ok (result, { s with opstack := [] })
  | _ => .error (.stop .ensure)

/-- `lai_eval_args`; a failed run resets the state. -/
def laiEvalArgs (aml : Aml) (turns : ℕ) (s : LaiState) (handle : NodeId) (args : List Variable) :
    Option (Except Halt (Variable × LaiState)) :=
  match (aml.ns.node handle).type with
  | .name =>
    some (if args = [] then .ok (s.object handle, s) else .error (.error .typeMismatch))
  | .method =>
    match aml.method handle with
    | none => some (.error .unmodelled)
    | some method =>
      (laiExecRun aml turns (startMethod s handle method args)).map fun finished => do
        let s ← finished
        finishMethod s
  | .aliased => some (.error (.stop .ensure))
  | _ => some (.error (.error .typeMismatch))

end X86Os.Lai
