import X86Os.Lai.ExecSteps

/-!
# The operators of AML

The reduction of an operator computes its meaning. The two searches for a bit
count the shifts until nothing is left of the operand.
-/

namespace X86Os.Lai

open Library.Memory
set_option autoImplicit false

variable {aml : Aml} {F : Frame} {e e' : Env} {pc : ℕ} {st : List StackItem} {ops : List Operand}
  {v : Variable} {t : Operand} {turns k : ℕ} {x : Word}

/-! ### Searches for a bit -/

theorem countRight_spec (fits : x.toNat < 2 ^ turns) (msb : ℕ) :
    countRight turns x msb = msb + if x = 0 then 0 else Nat.log2 x.toNat + 1 := by
  induction turns generalizing x msb with
  | zero =>
    have zero : x = 0 := BitVec.eq_of_toNat_eq (Nat.lt_one_iff.mp fits)
    rw [countRight, if_pos zero]
    rfl
  | succ turns ih =>
    have half : (x >>> 1).toNat = x.toNat / 2 := by
      rw [BitVec.toNat_ushiftRight, Nat.shiftRight_one]
    rw [countRight]
    split_ifs with zero
    · rfl
    · have pos : x.toNat ≠ 0 := fun none => zero (BitVec.eq_of_toNat_eq none)
      rw [ih (by rw [half]; omega), Nat.log2_def x.toNat]
      obtain one | more := Nat.lt_or_ge x.toNat 2
      · rw [if_pos (BitVec.eq_of_toNat_eq (by rw [half]; exact Nat.div_eq_of_lt one)),
          if_neg (by omega)]
      · have some_ : x >>> 1 ≠ 0 := by
          intro none
          have zero' : x.toNat / 2 = 0 := by
            rw [← half, none]
            rfl
          omega
        rw [if_neg some_, if_pos more, half]
        omega

theorem countRight_leftBit (x : Word) :
    BitVec.ofNat 32 (countRight 32 x 0) = Opcode.leftBit x := by
  rw [countRight_spec x.isLt, Opcode.leftBit]
  split_ifs
  · rfl
  · rw [Nat.zero_add]

theorem getLsbD_none (j : ℕ) : (0 : Word).getLsbD j = false :=
  BitVec.getLsbD_zero

/-- Nothing is left as soon as the lowest bit has been shifted out. -/
theorem shiftLeft_eq_zero_iff {i : ℕ} (set : x.getLsbD i) (lowest : ∀ j < i, x.getLsbD j = false) :
    x <<< k = 0 ↔ 32 ≤ i + k := by
  constructor
  · intro zero
    by_contra fits
    have bit : (x <<< k).getLsbD (i + k) = true := by
      rw [BitVec.getLsbD_shiftLeft, Nat.add_sub_cancel, set, decide_eq_true (by omega),
        decide_eq_false (by omega)]
      rfl
    rw [zero, getLsbD_none] at bit
    cases bit
  · intro far
    apply BitVec.eq_of_getLsbD_eq
    intro j below
    rw [BitVec.getLsbD_shiftLeft, getLsbD_none]
    obtain shifted | kept := lt_or_ge j k
    · rw [decide_eq_true shifted, Bool.not_true, Bool.and_false, Bool.false_and]
    · rw [lowest (j - k) (by omega), Bool.and_false]

theorem countLeft_spec {i : ℕ} (set : x.getLsbD i) (lowest : ∀ j < i, x.getLsbD j = false)
    (inside : i < 32) (upto : k ≤ 32 - i) (enough : 32 - i ≤ k + turns) :
    countLeft turns (x <<< k) k = 32 - i := by
  induction turns generalizing k with
  | zero =>
    rw [countLeft]
    omega
  | succ turns ih =>
    rw [countLeft]
    split_ifs with zero
    · rw [shiftLeft_eq_zero_iff set lowest] at zero
      omega
    · rw [shiftLeft_eq_zero_iff set lowest] at zero
      rw [← BitVec.shiftLeft_add]
      exact ih (by omega) (by omega)

theorem countLeft_rightBit (x : Word) :
    BitVec.ofNat 32 (if countLeft 32 x 0 = 0 then 0 else 65 - countLeft 32 x 0) =
      Opcode.rightBit x := by
  rw [Opcode.rightBit]
  cases found : (List.range 32).find? fun i => x.getLsbD i with
  | none =>
    have zero : x = 0 := by
      apply BitVec.eq_of_getLsbD_eq
      intro i below
      have unset := List.find?_eq_none.mp found i (List.mem_range.mpr below)
      rwa [getLsbD_none, ← Bool.not_eq_true]
    rw [zero]
    rfl
  | some i =>
    obtain ⟨set, inside, lowest⟩ := List.find?_range_eq_some.mp found
    have inside : i < 32 := List.mem_range.mp inside
    have count : countLeft 32 x 0 = 32 - i := by
      have counted : countLeft 32 (x <<< 0) 0 = 32 - i :=
        countLeft_spec set (fun j below => by simpa using lowest j below) inside (Nat.zero_le _)
          (by omega)
      rwa [BitVec.shiftLeft_zero] at counted
    rw [count, if_neg (by omega)]
    dsimp only
    congr 1
    omega

/-! ### Targets -/

theorem storeWith_conf {converts : Bool}
    {storeNs : LaiState → NodeId → Variable → Except Halt LaiState}
    (named : ∀ {n e'}, e.assign aml converts v (.resolvedName n) = some e' →
      storeNs (F.conf e pc st ops) n v = .ok (F.conf e' pc st ops))
    (put : e.assign aml converts v t = some e') :
    storeWith storeNs (F.conf e pc st ops) t v = .ok (F.conf e' pc st ops) := by
  cases t with
  | object value => cases put
  | resolvedName n => exact named put
  | _ =>
    obtain rfl := Option.some.inj put
    rfl

theorem laiOperandEmplace_conf (put : e.assign aml false v t = some e') :
    laiOperandEmplace aml (F.conf e pc st ops) t v = .ok (F.conf e' pc st ops) := by
  apply storeWith_conf _ put
  intro n e' put
  obtain ⟨allowed, same⟩ := Option.ite_none_right_eq_some.mp put
  obtain rfl := Option.some.inj same
  exact if_pos allowed.1

theorem laiOperandMutate_conf (put : e.assign aml true v t = some e') :
    laiOperandMutate aml (F.conf e pc st ops) t v = .ok (F.conf e' pc st ops) := by
  apply storeWith_conf _ put
  intro n e' put
  obtain ⟨allowed, same⟩ := Option.ite_none_right_eq_some.mp put
  obtain rfl := Option.some.inj same
  unfold laiExecMutateNs
  split
  · next old _ =>
    have some_ : e.object n = .integer _ := old
    exact absurd ⟨rfl, rfl, by rw [some_]; exact Variable.noConfusion⟩ allowed.2
  · exact if_pos allowed.1

theorem laiOperandLoad_conf (loaded : e.load aml t = some v) :
    laiOperandLoad aml (F.conf e pc st ops) t = .ok v := by
  cases t with
  | resolvedName n =>
    rw [Env.load] at loaded
    split_ifs at loaded with named
    obtain rfl := Option.some.inj loaded
    exact if_pos named
  | argName i =>
    obtain rfl := Option.some.inj loaded
    rfl
  | localName i =>
    obtain rfl := Option.some.inj loaded
    rfl
  | _ => cases loaded

/-! ### Reductions -/

theorem reduceStore_conf {store : LaiState → Operand → Variable → Except Halt LaiState}
    (stored : store (F.conf e pc st ops) t v = .ok (F.conf e' pc st ops)) :
    reduceStore store (F.conf e pc st ops) [.object v, t] = .ok (v, F.conf e' pc st ops) := by
  rw [reduceStore, laiExecGetObjectref, ok_bind, stored, ok_bind]

theorem reduceUnary_conf {f : Word → Word}
    (put : e.assign aml true (.integer (f x)) t = some e') :
    reduceUnary aml f (F.conf e pc st ops) [.object (.integer x), t] =
      .ok (.integer (f x), F.conf e' pc st ops) := by
  have got : laiExecGetInteger (.object (.integer x)) = .ok x := rfl
  rw [reduceUnary, got, ok_bind, laiOperandMutate_conf put, ok_bind]

theorem reduceBinary_conf {f : Word → Word → Option Word} {y z : Word} (defined_ : f x y = some z)
    (put : e.assign aml true (.integer z) t = some e') :
    reduceBinary aml f (F.conf e pc st ops) [.object (.integer x), .object (.integer y), t] =
      .ok (.integer z, F.conf e' pc st ops) := by
  have gotX : laiExecGetInteger (.object (.integer x)) = .ok x := rfl
  have gotY : laiExecGetInteger (.object (.integer y)) = .ok y := rfl
  rw [reduceBinary, gotX, ok_bind, gotY, ok_bind, defined_]
  dsimp only
  rw [laiOperandMutate_conf put, ok_bind]

theorem reduceStep_conf {f : Word → Word} (loaded : e.load aml t = some (.integer x))
    (put : e.assign aml true (.integer (f x)) t = some e') :
    reduceStep aml f (F.conf e pc st ops) [t] = .ok (.integer (f x), F.conf e' pc st ops) := by
  rw [reduceStep, laiOperandLoad_conf loaded, ok_bind]
  dsimp only
  rw [laiOperandMutate_conf put, ok_bind]

theorem reduceMatch_conf {f : Word → Word → Bool} {y : Word} {holds : Prop} [Decidable holds]
    (same : f x y = decide holds) {s : LaiState} :
    reduceMatch f s [.object (.integer x), .object (.integer y)] =
      .ok (.integer (if holds then BitVec.allOnes 32 else 0), s) := by
  rw [reduceMatch, laiExecGetObjectref, ok_bind, laiExecGetObjectref, ok_bind]
  dsimp only
  rw [same]
  split_ifs <;> simp_all

theorem laiExecReduceOp_unary {o : Opcode} {f : Word → Word} {s : LaiState}
    (means : o.unary = some f) : laiExecReduceOp aml s o = reduceUnary aml f s := by
  cases o <;> cases means
  · rfl
  · exact congrArg (fun f => reduceUnary aml f s) (funext countRight_leftBit)
  · exact congrArg (fun f => reduceUnary aml f s) (funext countLeft_rightBit)

theorem laiExecReduceOp_binary {o : Opcode} {f : Word → Word → Option Word} {s : LaiState}
    (means : o.binary = some f) : laiExecReduceOp aml s o = reduceBinary aml f s := by
  cases o <;> cases means <;> rfl

theorem laiExecReduceOp_counting {o : Opcode} {f : Word → Word} {s : LaiState}
    (means : o.counting = some f) : laiExecReduceOp aml s o = reduceStep aml f s := by
  cases o <;> cases means <;> rfl

theorem laiExecReduceOp_logical {o : Opcode} {f : Word → Word → Word} {s : LaiState} {y : Word}
    (means : o.logical = some f) :
    laiExecReduceOp aml s o [.object (.integer x), .object (.integer y)] =
      .ok (.integer (f x y), s) := by
  cases o <;> cases means
  · rfl
  · rfl
  · exact reduceMatch_conf (f := (· == ·)) (beq_eq_decide x y)
  · exact reduceMatch_conf (f := fun lhs rhs => lhs.toNat < rhs.toNat) rfl
  · exact reduceMatch_conf (f := fun lhs rhs => rhs.toNat < lhs.toNat) rfl

/-- An operator computes its meaning. -/
theorem laiExecReduceOp_conf {o : Opcode} {xs : List Operand} (applies : Applies aml e o xs v e') :
    laiExecReduceOp aml (F.conf e pc st ops) o xs = .ok (v, F.conf e' pc st ops) := by
  cases applies with
  | store put => exact reduceStore_conf (laiOperandMutate_conf put)
  | copyObject put => exact reduceStore_conf (laiOperandEmplace_conf put)
  | unary means put =>
    rw [laiExecReduceOp_unary means]
    exact reduceUnary_conf put
  | binary means defined_ put =>
    rw [laiExecReduceOp_binary means]
    exact reduceBinary_conf defined_ put
  | logical means => exact laiExecReduceOp_logical means
  | lnot => rfl
  | counting means loaded put =>
    rw [laiExecReduceOp_counting means]
    exact reduceStep_conf loaded put
  | @divide e₁ e₂ x y r q divides putRest putQuotient =>
    have gotX : laiExecGetInteger (.object (.integer x)) = .ok x := rfl
    have gotY : laiExecGetInteger (.object (.integer y)) = .ok y := rfl
    rw [laiExecReduceOp, reduceDivide, gotX, ok_bind, gotY, ok_bind, if_neg divides,
      laiOperandMutate_conf putRest, ok_bind, laiOperandMutate_conf putQuotient, ok_bind]

end X86Os.Lai
