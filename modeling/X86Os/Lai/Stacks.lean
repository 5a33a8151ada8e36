import X86Os.Lai.Evaluation

/-!
# The stacks of the interpreter

Whatever bytes a method consists of, the four stacks stay in step: blocks and
contexts belong to items, and an item has collected just the operands that it
asked for. The checks of `lai_eval_args` after a run therefore never fail.
-/

namespace X86Os.Lai

open Library.Memory
set_option autoImplicit false

variable {aml : Aml} {s s' t : LaiState} {item : StackItem} {st nested : List StackItem}
  {nb nc : ℕ} {base ops xs : List Operand} {mode : Mode} {v : Variable} {y : Operand} {want : Bool}

namespace StackItem

def blocks : StackItem → ℕ
  | populate | method _ | loop .. | cond .. => 1
  | _ => 0

def contexts : StackItem → ℕ
  | populate | method _ => 1
  | _ => 0

def wants : StackItem → Bool
  | method want | op _ _ _ want | invoke _ _ want => want
  | _ => false

/-- The mode in which an item has the code read next, when there are `n` operands. -/
def next (n : ℕ) : StackItem → Option Mode
  | populate | method _ => some .exec
  | loop f iteration _ => if iteration then some .exec else if n ≤ f then some .object else none
  | cond f branch .. => if branch then some .exec else if n ≤ f then some .object else none
  | op f _ modes _ => modes[n - f]?
  | invoke f argc _ => if n - f ≤ argc then some .object else none
  | return_ f => if n ≤ f then some .object else none

end StackItem

def Mode.Accepts (mode : Mode) (y : Operand) : Prop := mode = .object → ∃ v, y = .object v

def AtMostOne (xs : List Operand) : Prop := xs = [] ∨ ∃ v, xs = [.object v]

/-- The operands that an item has collected on top of those that it found. -/
def Collected (base xs : List Operand) : StackItem → Prop
  | .populate | .method _ => xs = []
  | .loop f iteration _ => f = base.length ∧ if iteration then xs = [] else AtMostOne xs
  | .cond f branch .. => f = base.length ∧ if branch then xs = [] else AtMostOne xs
  | .op f _ modes _ => f = base.length ∧ xs.length ≤ modes.length ∧
    ∀ (i : ℕ) (mode : Mode) (y : Operand), modes[i]? = some mode → xs[i]? = some y → mode.Accepts y
  | .invoke f argc _ => f = base.length ∧
    ∃ (handle : NodeId) (vs : List Variable),
      xs = .resolvedName handle :: vs.map .object ∧ vs.length ≤ argc
  | .return_ f => f = base.length ∧ AtMostOne xs

def Reads (st : List StackItem) (n : ℕ) (mode : Mode) : Prop :=
  st.head?.bind (·.next n) = some mode

/-- The stacks belong together: items, numbers of blocks and of contexts, and operands. -/
inductive Stacked : List StackItem → ℕ → ℕ → List Operand → Prop
  | method : Stacked [.method true] 1 1 []
  | above {item : StackItem} {st : List StackItem} {nb nc : ℕ} {base xs : List Operand} {mode : Mode}
    (below : Stacked st nb nc base) (reads : Reads st base.length mode)
    (wants : item.wants → mode.result) (collected : Collected base xs item) :
    Stacked (item :: st) (nb + item.blocks) (nc + item.contexts) (base ++ xs)

theorem AtMostOne.push {n : ℕ} (reads : (if n + xs.length ≤ n then some Mode.object else none) = some mode)
    (accepts : mode.Accepts y) : AtMostOne (xs ++ [y]) := by
  obtain ⟨none_, same⟩ := Option.ite_none_right_eq_some.mp reads
  obtain rfl := Option.some.inj same
  obtain rfl : xs = [] := List.length_eq_zero_iff.mp (by omega)
  obtain ⟨v, rfl⟩ := accepts rfl
  exact .inr ⟨v, rfl⟩

/-- An operand arrives. -/
theorem Collected.push (collected : Collected base xs item)
    (reads : item.next (base.length + xs.length) = some mode) (result : mode.result)
    (accepts : mode.Accepts y) : Collected base (xs ++ [y]) item := by
  cases item with
  | populate | method =>
    obtain rfl := Option.some.inj reads
    cases result
  | loop f iteration p | cond f iteration h p l =>
    obtain ⟨rfl, one⟩ := collected
    cases iteration with
    | true =>
      obtain rfl := Option.some.inj reads
      cases result
    | false => exact ⟨rfl, AtMostOne.push reads accepts⟩
  | op f o modes w =>
    obtain ⟨rfl, few, typed⟩ := collected
    have here : modes[xs.length]? = some mode := by
      rwa [StackItem.next, Nat.add_sub_cancel_left] at reads
    obtain ⟨less, _⟩ := List.getElem?_eq_some_iff.mp here
    refine ⟨rfl, by rwa [List.length_append], fun i mode' y' at_ found => ?_⟩
    obtain old | new := lt_or_ge i xs.length
    · rw [List.getElem?_append_left old] at found
      exact typed i mode' y' at_ found
    · rw [List.getElem?_append_right new] at found
      rw [List.getElem?_singleton] at found
      obtain ⟨last, same⟩ := Option.ite_none_right_eq_some.mp found
      obtain rfl := Option.some.inj same
      obtain rfl : i = xs.length := by omega
      obtain rfl := Option.some.inj (at_.symm.trans here)
      exact accepts
  | invoke f argc w =>
    obtain ⟨rfl, handle, vs, rfl, few⟩ := collected
    rw [StackItem.next, Nat.add_sub_cancel_left, List.length_cons, List.length_map] at reads
    obtain ⟨more, same⟩ := Option.ite_none_right_eq_some.mp reads
    obtain rfl := Option.some.inj same
    obtain ⟨v, rfl⟩ := accepts rfl
    refine ⟨rfl, handle, vs ++ [v], ?_, by rwa [List.length_append]⟩
    rw [List.map_append, List.cons_append]
    rfl
  | return_ f =>
    obtain ⟨rfl, one⟩ := collected
    exact ⟨rfl, AtMostOne.push reads accepts⟩

theorem Stacked.push (stacked : Stacked st nb nc ops) (reads : Reads st ops.length mode)
    (result : mode.result) (accepts : mode.Accepts y) : Stacked st nb nc (ops ++ [y]) := by
  cases stacked with
  | method =>
    obtain rfl := Option.some.inj reads
    cases result
  | @above item st nb nc base xs _ below reads' wants collected =>
    rw [List.append_assoc]
    rw [List.length_append] at reads
    exact .above below reads' wants (collected.push reads result accepts)

def StackItem.Nested : StackItem → Prop
  | loop .. | cond .. => True
  | _ => False

theorem Collected.nil_of_nested (collected : Collected base xs item) (nested : item.Nested)
    (reads : item.next (base.length + xs.length) = some mode) : xs = [] := by
  cases item with
  | loop f iteration p | cond f iteration h p l =>
    obtain ⟨rfl, one⟩ := collected
    cases iteration with
    | true => exact one
    | false =>
      obtain ⟨none_, _⟩ := Option.ite_none_right_eq_some.mp reads
      exact List.length_eq_zero_iff.mp (by omega)
  | _ => cases nested

/-- What is nested in a loop or a method has no operands of its own. -/
theorem Stacked.unwind (stacked : Stacked (nested ++ st) nb nc ops)
    (inner : ∀ i ∈ nested, i.Nested) (reads : Reads (nested ++ st) ops.length mode) :
    ∃ nb', nb = nb' + nested.length ∧ Stacked st nb' nc ops ∧
      ∃ mode', Reads st ops.length mode' := by
  induction nested generalizing nb nc ops mode with
  | nil => exact ⟨nb, rfl, stacked, mode, reads⟩
  | cons item nested ih =>
    have here := inner item List.mem_cons_self
    rw [List.cons_append] at stacked reads
    generalize whole : nested ++ st = rest at stacked reads
    cases stacked with
    | method => cases here
    | @above _ _ nb nc base xs mode' below reads' wants collected =>
      rw [List.length_append] at reads
      obtain rfl := collected.nil_of_nested here reads
      rw [← whole] at below reads'
      obtain ⟨nb', rfl, stacked, found⟩ :=
        ih below (fun i member => inner i (List.mem_cons_of_mem _ member)) reads'
      have counts : item.blocks = 1 ∧ item.contexts = 0 := by
        cases item <;> first | exact ⟨rfl, rfl⟩ | cases here
      rw [List.append_nil, counts.1, counts.2]
      exact ⟨nb', by rw [List.length_cons, Nat.add_assoc], stacked, found⟩

/-! ### What parsing does -/

/-- A result has been pushed, an item has been entered, or items have been left. -/
inductive Parsed (mode : Mode) (s s' : LaiState) : Prop
  | value (y : Operand) (result : mode.result) (accepts : mode.Accepts y)
    (stack : s'.stack = s.stack) (blks : s'.blkstack.length = s.blkstack.length)
    (ctxs : s'.ctxstack.length = s.ctxstack.length) (ops : s'.opstack = s.opstack ++ [y])
  | enter (item : StackItem) (xs : List Operand) (wants : item.wants → mode.result)
    (collected : Collected s.opstack xs item) (stack : s'.stack = item :: s.stack)
    (blks : s'.blkstack.length = s.blkstack.length + item.blocks)
    (ctxs : s'.ctxstack.length = s.ctxstack.length + item.contexts)
    (ops : s'.opstack = s.opstack ++ xs)
  | leave (nested : List StackItem) (inner : ∀ i ∈ nested, i.Nested)
    (stack : s.stack = nested ++ s'.stack)
    (blks : s.blkstack.length = s'.blkstack.length + nested.length)
    (ctxs : s'.ctxstack.length = s.ctxstack.length) (ops : s'.opstack = s.opstack)

theorem within_eq_ok {α : Type} {x : Except Stop α} {a : α} : within x = .ok a ↔ x = .ok a := by
  cases x with
  | error how => exact ⟨(fun failed => nomatch failed), fun failed => nomatch failed⟩
  | ok x =>
    rw [within_ok, Except.ok.injEq, Except.ok.injEq]

theorem length_commitPc (s : LaiState) (pc : ℕ) :
    (s.commitPc pc).blkstack.length = s.blkstack.length :=
  List.length_modifyHead

/-- Only the program counter has changed. -/
theorem parsed_commitPc (s : LaiState) (pc : ℕ) : Parsed mode s (s.commitPc pc) :=
  .leave [] (fun _ member => nomatch member) rfl (length_commitPc s pc).symm rfl rfl

theorem parsed_push (s : LaiState) (pc : ℕ) (result : mode.result) (accepts : mode.Accepts y) :
    Parsed mode s ((s.commitPc pc).push y) :=
  .value y result accepts rfl (length_commitPc s pc) rfl rfl

theorem parsed_pushIf (s : LaiState) (pc : ℕ) :
    Parsed mode s ((s.commitPc pc).pushIf mode.result v) := by
  rw [LaiState.pushIf]
  split_ifs with result
  · exact parsed_push s pc result fun _ => ⟨v, rfl⟩
  · exact parsed_commitPc s pc

theorem parsed_constant {pc : ℕ} {value : Word}
    (pushed : pushConstant mode (s.commitPc pc) value = .ok s') : Parsed mode s s' := by
  cases mode with
  | object =>
    obtain rfl := Except.ok.inj pushed
    exact parsed_push s pc rfl fun _ => ⟨_, rfl⟩
  | exec =>
    obtain rfl := Except.ok.inj pushed
    exact parsed_commitPc s pc
  | reference => cases pushed

theorem nestedInLoop_spec {m : ℕ} (counted : nestedInLoop st = .ok m) :
    ∃ nested item rest, st = nested ++ item :: rest ∧ nested.length = m ∧
      (∀ i ∈ nested, i.Nested) ∧ item.Nested := by
  induction st generalizing m with
  | nil => cases counted
  | cons item st ih =>
    cases item with
    | loop f i p =>
      obtain rfl := Except.ok.inj counted
      exact ⟨[], _, st, rfl, rfl, (fun _ member => nomatch member), trivial⟩
    | cond f i h p l =>
      obtain ⟨k, counted', same⟩ := bind_eq_ok.mp counted
      obtain rfl := Except.ok.inj same
      obtain ⟨nested, item, rest, rfl, rfl, inner, last⟩ := ih counted'
      exact ⟨_ :: nested, item, rest, rfl, rfl, List.forall_mem_cons.mpr ⟨trivial, inner⟩, last⟩
    | _ => cases counted

theorem popped_eq_ok {α : Type} {xs rest : List α} (done : popped xs = .ok rest) :
    ∃ x, xs = x :: rest := by
  cases xs with
  | nil => cases done
  | cons x xs =>
    obtain rfl := Except.ok.inj done
    exact ⟨x, rfl⟩

theorem leaveBlock_eq_ok (left : leaveBlock s = .ok s') :
    ∃ block item, s.blkstack = block :: s'.blkstack ∧ s.stack = item :: s'.stack ∧
      s'.ctxstack = s.ctxstack ∧ s'.opstack = s.opstack := by
  obtain ⟨s₁, first, second⟩ := bind_eq_ok.mp left
  obtain ⟨bs, popped₁, same₁⟩ := bind_eq_ok.mp first
  obtain ⟨st, popped₂, same₂⟩ := bind_eq_ok.mp second
  obtain ⟨block, blks⟩ := popped_eq_ok popped₁
  obtain rfl := Except.ok.inj same₁
  obtain ⟨item, items⟩ := popped_eq_ok popped₂
  obtain rfl := Except.ok.inj same₂
  exact ⟨block, item, blks, items, rfl, rfl⟩

theorem popNested_eq_ok {m : ℕ} (popped_ : popNested m s = .ok s') :
    ∃ nested, nested.length = m ∧ (∀ i ∈ nested, i.Nested) ∧ s.stack = nested ++ s'.stack ∧
      s.blkstack.length = s'.blkstack.length + m ∧ s'.ctxstack = s.ctxstack ∧
        s'.opstack = s.opstack := by
  induction m generalizing s with
  | zero =>
    obtain rfl := Except.ok.inj popped_
    exact ⟨[], rfl, (fun _ member => nomatch member), rfl, rfl, rfl, rfl⟩
  | succ m ih =>
    have step : ∃ s₁, leaveBlock s = .ok s₁ ∧ popNested m s₁ = .ok s' ∧
        ∀ i rest, s.stack = i :: rest → i.Nested := by
      unfold popNested at popped_
      split at popped_
      · next stack =>
        obtain ⟨s₁, left, rest⟩ := bind_eq_ok.mp popped_
        refine ⟨s₁, left, rest, fun i rest' same => ?_⟩
        rw [(List.cons.inj (stack.symm.trans same)).1.symm]
        trivial
      · next stack =>
        obtain ⟨s₁, left, rest⟩ := bind_eq_ok.mp popped_
        refine ⟨s₁, left, rest, fun i rest' same => ?_⟩
        rw [(List.cons.inj (stack.symm.trans same)).1.symm]
        trivial
      · cases popped_
    obtain ⟨s₁, left, rest, first⟩ := step
    obtain ⟨block, item, blks, stack, ctxs, ops⟩ := leaveBlock_eq_ok left
    obtain ⟨nested, rfl, inner, stack', blks', ctxs', ops'⟩ := ih rest
    refine ⟨item :: nested, rfl, List.forall_mem_cons.mpr ⟨first item _ stack, inner⟩, ?_, ?_,
      ctxs'.trans ctxs, ops'.trans ops⟩
    · rw [stack, stack']
      rfl
    · rw [blks, List.length_cons, blks', Nat.add_assoc]

theorem parsed_continue {m : ℕ} (popped_ : popNested m s = .ok s') : Parsed mode s s' := by
  obtain ⟨nested, rfl, inner, stack, blks, ctxs, ops⟩ := popNested_eq_ok popped_
  exact .leave nested inner stack blks (by rw [ctxs]) ops

theorem parsed_break {m : ℕ} (counted : nestedInLoop s.stack = .ok m) {s₁ : LaiState}
    (popped_ : popNested m s = .ok s₁) (left : leaveBlock s₁ = .ok s') : Parsed mode s s' := by
  obtain ⟨nested, length, inner, stack, blks, ctxs, ops⟩ := popNested_eq_ok popped_
  obtain ⟨block, item, blks', stack', ctxs', ops'⟩ := leaveBlock_eq_ok left
  obtain ⟨nested', item', rest, whole, length', _, last⟩ := nestedInLoop_spec counted
  have same := List.append_inj_right (whole.symm.trans stack) (length'.trans length.symm)
  rw [stack'] at same
  obtain rfl := (List.cons.inj same).1
  refine .leave (nested ++ [item']) ?_ ?_ ?_ (by rw [ctxs', ctxs]) (ops'.trans ops)
  · intro i member
    obtain old | new := List.mem_append.mp member
    · exact inner i old
    · rwa [List.mem_singleton.mp new]
  · rw [stack, stack', List.append_assoc]
    rfl
  · rw [blks, blks', List.length_cons, List.length_append, length, List.length_singleton]
    omega

/-- A construct with a block is entered. -/
theorem parsed_enterBlock {pc : ℕ} {block : BlkItem} (one : item.blocks = 1)
    (none_ : item.contexts = 0) (wants : item.wants = false)
    (collected : Collected s.opstack [] item) :
    Parsed mode s (((s.commitPc pc).enterBlock block).enter item) := by
  refine .enter item [] (fun some_ => absurd (wants.symm.trans some_) Bool.false_ne_true) collected rfl
    ?_ (by rw [none_]; rfl) (List.append_nil _).symm
  rw [one]
  exact congrArg (· + 1) (length_commitPc s pc)

/-- A construct without one is entered. -/
theorem parsed_enter {pc : ℕ} (none : item.blocks = 0) (none_ : item.contexts = 0)
    (wants : item.wants → mode.result) (collected : Collected s.opstack [] item) :
    Parsed mode s ((s.commitPc pc).enter item) :=
  .enter item [] wants collected rfl (by rw [none]; exact length_commitPc s pc) (by rw [none_]; rfl)
    (List.append_nil _).symm

theorem parsed_if {ctx : CtxItem} {block : BlkItem} {pc : ℕ}
    (parsed : parseIf s ctx block pc = .ok s') : Parsed mode s s' := by
  obtain ⟨_, _, parsed⟩ := bind_eq_ok.mp parsed
  obtain ⟨_, _, parsed⟩ := bind_eq_ok.mp parsed
  obtain ⟨_, _, parsed⟩ := bind_eq_ok.mp parsed
  obtain rfl := Except.ok.inj parsed
  exact parsed_enterBlock rfl rfl rfl ⟨rfl, .inl rfl⟩

theorem parsed_while {ctx : CtxItem} {block : BlkItem} {pc : ℕ}
    (parsed : parseWhile s ctx block pc = .ok s') : Parsed mode s s' := by
  obtain ⟨_, _, parsed⟩ := bind_eq_ok.mp parsed
  obtain rfl := Except.ok.inj parsed
  exact parsed_enterBlock rfl rfl rfl ⟨rfl, .inl rfl⟩

theorem accepts_reference (y : Operand) : Mode.reference.Accepts y := by
  intro object
  cases object

/-- An operator has not collected anything when it is entered. -/
theorem collected_op (opcode : Opcode) (want : Bool) :
    Collected base [] (.op base.length opcode opcode.argModes want) := by
  refine ⟨rfl, Nat.zero_le _, fun i mode y _ found => ?_⟩
  cases found

theorem parseInstr_parsed {ctx : CtxItem} {block : BlkItem} {pc : ℕ} {instr : Instr}
    (parsed : parseInstr mode s ctx block pc instr = .ok s') : Parsed mode s s' := by
  cases instr with
  | nop =>
    obtain rfl := Except.ok.inj parsed
    exact parsed_commitPc s pc
  | zero =>
    rw [parseInstr] at parsed
    split_ifs at parsed with target
    · obtain rfl := Except.ok.inj parsed
      rw [target]
      exact parsed_push s pc rfl (accepts_reference _)
    · exact parsed_constant parsed
  | constant value => exact parsed_constant parsed
  | byteprefixOp | wordprefixOp | dwordprefixOp | qwordprefixOp =>
    obtain ⟨read, _, parsed⟩ := bind_eq_ok.mp parsed
    cases read with
    | none => cases parsed
    | some read => exact parsed_constant parsed
  | arg index | local_ index =>
    cases mode with
    | reference =>
      obtain rfl := Except.ok.inj parsed
      exact parsed_push s pc rfl (accepts_reference _)
    | object =>
      obtain ⟨invocation, _, parsed⟩ := bind_eq_ok.mp parsed
      obtain rfl := Except.ok.inj parsed
      exact parsed_push s pc rfl fun _ => ⟨_, rfl⟩
    | exec => cases parsed
  | debug =>
    rw [parseInstr] at parsed
    split_ifs at parsed with target
    obtain rfl := Except.ok.inj parsed
    rw [target]
    exact parsed_push s pc rfl (accepts_reference _)
  | op opcode =>
    obtain rfl := Except.ok.inj parsed
    exact parsed_enter rfl rfl id (collected_op opcode mode.result)
  | return_ =>
    obtain rfl := Except.ok.inj parsed
    exact parsed_enter rfl rfl (fun some_ => absurd some_ Bool.false_ne_true) ⟨rfl, .inl rfl⟩
  | while_ => exact parsed_while parsed
  | continue_ =>
    obtain ⟨m, _, parsed⟩ := bind_eq_ok.mp parsed
    exact parsed_continue parsed
  | break_ =>
    obtain ⟨m, counted, parsed⟩ := bind_eq_ok.mp parsed
    obtain ⟨s₁, popped_, left⟩ := bind_eq_ok.mp parsed
    exact parsed_break counted popped_ left
  | if_ => exact parsed_if parsed
  | else_ => cases parsed

theorem parseName_parsed {ctx : CtxItem} {pc : ℕ} (parsed : parseName aml mode s ctx pc = .ok s') :
    Parsed mode s s' := by
  obtain ⟨⟨amln, size⟩, _, parsed⟩ := bind_eq_ok.mp parsed
  obtain ⟨found, _, parsed⟩ := bind_eq_ok.mp parsed
  cases found with
  | none => cases parsed
  | some handle =>
    dsimp only at parsed
    split_ifs at parsed with invokes callable
    · cases code : aml.method handle with
      | none =>
        rw [code] at parsed
        cases parsed
      | some method =>
        rw [code] at parsed
        obtain rfl := Except.ok.inj parsed
        exact .enter (.invoke _ _ _) [.resolvedName handle] id ⟨rfl, handle, [], rfl, Nat.zero_le _⟩ rfl
          (length_commitPc s _) rfl rfl
    · obtain ⟨value, _, parsed⟩ := bind_eq_ok.mp parsed
      obtain rfl := Except.ok.inj parsed
      exact parsed_pushIf s _
    · obtain rfl := Except.ok.inj parsed
      obtain rfl : mode = .reference := by
        cases mode with
        | reference => rfl
        | _ => exact absurd rfl invokes
      exact parsed_push s _ rfl (accepts_reference _)

theorem laiExecParse_parsed (parsed : laiExecParse aml mode s = .ok s') : Parsed mode s s' := by
  unfold laiExecParse at parsed
  split at parsed
  · obtain ⟨_, _, parsed⟩ := bind_eq_ok.mp parsed
    obtain ⟨first, _, parsed⟩ := bind_eq_ok.mp parsed
    split_ifs at parsed
    · exact parseName_parsed parsed
    · obtain ⟨⟨instr, pc⟩, _, parsed⟩ := bind_eq_ok.mp parsed
      exact parseInstr_parsed parsed
  · cases parsed

/-- Parsing keeps the stacks in step. -/
theorem Stacked.parse (stacked : Stacked s.stack s.blkstack.length s.ctxstack.length s.opstack)
    (reads : Reads s.stack s.opstack.length mode) (parsed : laiExecParse aml mode s = .ok s') :
    Stacked s'.stack s'.blkstack.length s'.ctxstack.length s'.opstack := by
  cases laiExecParse_parsed parsed with
  | value y result accepts stack blks ctxs ops =>
    rw [stack, blks, ctxs, ops]
    exact stacked.push reads result accepts
  | enter item xs wants collected stack blks ctxs ops =>
    rw [stack, blks, ctxs, ops]
    exact .above stacked reads wants collected
  | leave nested inner stack blks ctxs ops =>
    rw [stack] at stacked reads
    obtain ⟨nb, count, stacked', _⟩ := stacked.unwind inner reads
    rw [ctxs, ops, show s'.blkstack.length = nb by omega]
    exact stacked'

end X86Os.Lai
