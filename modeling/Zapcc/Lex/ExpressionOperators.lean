import Zapcc.Lex.ConditionalExpression

/-!
# The operators of the evaluator

`applyOperator_spec` says that one step of the evaluator on two operands gives the value and the
type of the binary operator, where the amount of a right shift is cut to 32 bits. A division by
zero is an error in a live position.
-/

namespace Zapcc.Lex

open Option

variable {w : Nat}

theorem getPrecedence_token (op : BinaryOp) :
    getPrecedence (some (op.token : Token w)) = some op.level := by
  cases op <;> rfl

theorem operator_of_getPrecedence {t : Token w} {p : Nat} (h : getPrecedence (some t) = some p)
    (hp : 1 ≤ p) :
    t = .question ∧ p = 4 ∨ t = .colon ∧ p = 2 ∨ ∃ op : BinaryOp, t = op.token ∧ p = op.level := by
  cases t with
  | question => exact Or.inl ⟨rfl, (some.inj h).symm⟩
  | colon => exact Or.inr (Or.inl ⟨rfl, (some.inj h).symm⟩)
  | r_paren =>
    have : (0 : Nat) = p := some.inj h
    omega
  | star => exact Or.inr (Or.inr ⟨.mul, rfl, (some.inj h).symm⟩)
  | slash => exact Or.inr (Or.inr ⟨.div, rfl, (some.inj h).symm⟩)
  | percent => exact Or.inr (Or.inr ⟨.rem, rfl, (some.inj h).symm⟩)
  | plus => exact Or.inr (Or.inr ⟨.add, rfl, (some.inj h).symm⟩)
  | minus => exact Or.inr (Or.inr ⟨.sub, rfl, (some.inj h).symm⟩)
  | lessless => exact Or.inr (Or.inr ⟨.shl, rfl, (some.inj h).symm⟩)
  | greatergreater => exact Or.inr (Or.inr ⟨.shr, rfl, (some.inj h).symm⟩)
  | less => exact Or.inr (Or.inr ⟨.lt, rfl, (some.inj h).symm⟩)
  | lessequal => exact Or.inr (Or.inr ⟨.le, rfl, (some.inj h).symm⟩)
  | greater => exact Or.inr (Or.inr ⟨.gt, rfl, (some.inj h).symm⟩)
  | greaterequal => exact Or.inr (Or.inr ⟨.ge, rfl, (some.inj h).symm⟩)
  | equalequal => exact Or.inr (Or.inr ⟨.eq, rfl, (some.inj h).symm⟩)
  | exclaimequal => exact Or.inr (Or.inr ⟨.ne, rfl, (some.inj h).symm⟩)
  | amp => exact Or.inr (Or.inr ⟨.bitAnd, rfl, (some.inj h).symm⟩)
  | caret => exact Or.inr (Or.inr ⟨.bitXor, rfl, (some.inj h).symm⟩)
  | pipe => exact Or.inr (Or.inr ⟨.bitOr, rfl, (some.inj h).symm⟩)
  | ampamp => exact Or.inr (Or.inr ⟨.logicalAnd, rfl, (some.inj h).symm⟩)
  | pipepipe => exact Or.inr (Or.inr ⟨.logicalOr, rfl, (some.inj h).symm⟩)
  | comma => exact Or.inr (Or.inr ⟨.comma, rfl, (some.inj h).symm⟩)
  | numeric_constant | identifier | kw_true | kw_false | l_paren | tilde | exclaim | unknown =>
    cases h

theorem level_bounds (op : BinaryOp) : op.level = 3 ∨ 5 ≤ op.level ∧ op.level ≤ 14 := by
  cases op <;> decide

theorem RHSPrec_token (op : BinaryOp) (p : Nat) : RHSPrec (op.token : Token w) p = p + 1 := by
  cases op <;> rfl

theorem RHSIsLive_token (op : BinaryOp) (x : APSInt w) (ValueLive : Bool) :
    RHSIsLive op.token x ValueLive = (ValueLive && !op.shortCircuits x.Val) := by
  cases op with
  | logicalAnd | logicalOr =>
    by_cases h : x.Val = 0#w <;> simp [BinaryOp.token, RHSIsLive, BinaryOp.shortCircuits, h]
  | _ => exact (Bool.and_true _).symm

theorem shl_eq (x y : BitVec w) :
    APInt.shl x y = x <<< y.toNat ∨ w ≤ y.toNat := by
  by_cases h : w ≤ y.toNat
  · exact Or.inr h
  · rw [APInt.shl, APInt.toNat_getLimitedValue, Nat.min_eq_left (by omega)]
    exact Or.inl rfl

/-- The outcome of an operator: its value, or an error in a live position without one. -/
def OperatorOutcome (value : Option (BitVec w)) (isUnsigned ValueLive : Bool)
    (r : Run (APSInt w)) : Prop :=
  match value with
  | some v => r = .done ⟨v, isUnsigned⟩
  | none => if ValueLive then ∃ diag flag, r = .error diag flag else ∃ v, r = .done ⟨v, isUnsigned⟩

theorem outcome_division {y zero : BitVec w} {u ValueLive : Bool} {f : Option (BitVec w)}
    {q : BitVec w} {diag : PPExprError} (hf : y ≠ 0#w → f = some q) :
    OperatorOutcome (if y = 0#w then none else some q) u ValueLive
      (if y ≠ 0#w then .ofOption (f.map (⟨·, u⟩))
        else if ValueLive then .error diag false
        else .done ⟨zero, u⟩) := by
  by_cases hy : y = 0#w
  · rw [if_pos hy, if_neg (not_not.mpr hy)]
    cases ValueLive with
    | true => exact ⟨diag, false, rfl⟩
    | false => exact ⟨zero, rfl⟩
  · rw [if_neg hy, if_pos hy, hf hy]
    rfl

theorem applyOperator_spec (op : BinaryOp) (left right : Expr w) (LHS RHS : APSInt w)
    (ValueLive : Bool) (hleft : LHS.IsUnsigned = left.isUnsigned)
    (hright : RHS.IsUnsigned = right.isUnsigned) :
    OperatorOutcome (op.apply shiftAmount (op.signedness left right) LHS.Val RHS.Val)
      (Expr.binary op left right).isUnsigned ValueLive
      (applyOperator op.token LHS RHS ValueLive) := by
  obtain ⟨x, ux⟩ := LHS
  obtain ⟨y, uy⟩ := RHS
  subst hleft hright
  cases op with
  | mul =>
    cases hu : left.isUnsigned || right.isUnsigned <;>
      simp [OperatorOutcome, BinaryOp.apply, Expr.isUnsigned, applyOperator, usualConversion,
        hasUsualConversions, evaluateOperator, APSInt.setIsUnsigned, BinaryOp.token,
        APInt.smul_ov, hu]
  | div =>
    have hdiv := @outcome_division w y 0#w (left.isUnsigned || right.isUnsigned) ValueLive
      (if left.isUnsigned || right.isUnsigned then APInt.udiv x y else APInt.sdiv x y)
      (if left.isUnsigned || right.isUnsigned then x.udiv y else x.sdiv y)
      .err_pp_division_by_zero (fun hy => by
        split_ifs
        · exact APInt.udiv_eq x hy
        · exact APInt.sdiv_eq x hy)
    cases hu : left.isUnsigned || right.isUnsigned <;> rw [hu] at hdiv <;>
      simpa [BinaryOp.apply, BinaryOp.signedness, Expr.isUnsigned, applyOperator,
        usualConversion, hasUsualConversions, evaluateOperator, APSInt.setIsUnsigned,
        BinaryOp.token, APInt.sdiv_ov, APSInt.div, APSInt.zero, hu] using hdiv
  | rem =>
    have hrem := @outcome_division w y 0#w (left.isUnsigned || right.isUnsigned) ValueLive
      (if left.isUnsigned || right.isUnsigned then APInt.urem x y else APInt.srem x y)
      (if left.isUnsigned || right.isUnsigned then x.umod y else x.srem y)
      .err_pp_remainder_by_zero (fun hy => by
        split_ifs
        · exact APInt.urem_eq x hy
        · exact APInt.srem_eq x hy)
    cases hu : left.isUnsigned || right.isUnsigned <;> rw [hu] at hrem <;>
      simpa [BinaryOp.apply, BinaryOp.signedness, Expr.isUnsigned, applyOperator,
        usualConversion, hasUsualConversions, evaluateOperator, APSInt.setIsUnsigned,
        BinaryOp.token, APSInt.rem, APSInt.zero, hu] using hrem
  | shl =>
    have hshift : (if w ≤ y.toNat then 0#w else APInt.shl x y) =
        if w ≤ y.toNat then 0#w else x <<< y.toNat := by
      split_ifs with hw
      · rfl
      · exact (shl_eq x y).resolve_right hw
    cases hu : left.isUnsigned <;>
      simp [OperatorOutcome, BinaryOp.apply, Expr.isUnsigned, applyOperator, usualConversion,
        hasUsualConversions, evaluateOperator, BinaryOp.token, APInt.ushl_ov, APInt.sshl_ov,
        APSInt.assign, APSInt.zero, hshift, hu]
  | shr =>
    have hamount : (if w ≤ shiftAmount y then w - 1 else shiftAmount y) =
        min (shiftAmount y) (w - 1) := by
      split_ifs <;> omega
    cases hu : left.isUnsigned <;>
      simp [OperatorOutcome, BinaryOp.apply, BinaryOp.signedness, Expr.isUnsigned, applyOperator,
        usualConversion, hasUsualConversions, evaluateOperator, BinaryOp.token, APSInt.shr,
        hamount, hu]
  | add | sub =>
    cases hu : left.isUnsigned || right.isUnsigned <;>
      simp [OperatorOutcome, BinaryOp.apply, Expr.isUnsigned, applyOperator, usualConversion,
        hasUsualConversions, evaluateOperator, APSInt.setIsUnsigned, BinaryOp.token,
        APInt.sadd_ov, APInt.ssub_ov, hu]
  | lt | le | gt | ge =>
    cases hu : left.isUnsigned || right.isUnsigned <;>
      simp [OperatorOutcome, BinaryOp.apply, BinaryOp.signedness, Expr.isUnsigned, applyOperator,
        usualConversion, hasUsualConversions, evaluateOperator, APSInt.setIsUnsigned,
        BinaryOp.token, APSInt.lt, APSInt.le, APSInt.gt, APSInt.ge, hu]
  | eq | ne | bitAnd | bitXor | bitOr | logicalAnd | logicalOr | comma => rfl

end Zapcc.Lex
