import Zapcc.Lex.ExpressionSoundness

/-!
# The evaluator and the expressions of C

The main result is `evaluates_iff`: `EvaluateDirectiveExpression` gives what C says exactly when
cutting the amounts of right shifts to 32 bits does not change the outcome. `evaluates_cut` says
what it gives in any case.
-/

namespace Zapcc.Lex

open List

variable {w : Nat} {isMacroDefined : IdentifierInfo → Bool}

theorem Run.bind_ne_stuck {α β : Type} {r : Run α} {f : α → Run β} (hr : r ≠ .stuck)
    (hf : ∀ a, r = .done a → f a ≠ .stuck) : r.bind f ≠ .stuck := by
  cases r with
  | stuck => exact absurd rfl hr
  | error diag flag => exact fun h => by cases h
  | done a => exact hf a rfl

theorem Run.keepFlag_ne_stuck {α : Type} {r : Run α} {flag : Bool} (hr : r ≠ .stuck) :
    r.keepFlag flag ≠ .stuck := by
  cases r with
  | stuck => exact absurd rfl hr
  | error diag flag => exact fun h => by cases h
  | done a => exact hr

theorem applyOperator_ne_stuck (op : BinaryOp) (LHS RHS : APSInt w) (ValueLive : Bool) :
    applyOperator op.token LHS RHS ValueLive ≠ .stuck := by
  have hout := applyOperator_spec op (.literal 0#w LHS.IsUnsigned) (.literal 0#w RHS.IsUnsigned)
    LHS RHS ValueLive (by simp [Expr.isUnsigned]) (by simp [Expr.isUnsigned])
  unfold OperatorOutcome at hout
  split at hout
  · rw [hout]
    exact fun h => by cases h
  · split_ifs at hout
    · obtain ⟨diag, flag, heq⟩ := hout
      rw [heq]
      exact fun h => by cases h
    · obtain ⟨v, heq⟩ := hout
      rw [heq]
      exact fun h => by cases h

theorem checkMacroName_ne_stuck {flag : Bool} (ts : List (Token w)) :
    CheckMacroName flag ts ≠ .stuck := by
  cases ts with
  | nil => exact fun h => by cases h
  | cons t ts =>
    rw [CheckMacroName]
    cases t.getIdentifierInfo with
    | none | some II => exact fun h => by cases h

theorem evaluateDefined_ne_stuck (ts : List (Token w)) (DT : DefinedTracker) :
    EvaluateDefined isMacroDefined ts DT ≠ .stuck := by
  unfold EvaluateDefined
  split
  · refine Run.bind_ne_stuck (checkMacroName_ne_stuck _) fun r _ => ?_
    dsimp only
    split
    · exact fun h => by cases h
    · exact fun h => by cases h
  · exact Run.bind_ne_stuck (checkMacroName_ne_stuck _) fun r _ => fun h => by cases h

/-- With more fuel than tokens, the evaluator has an outcome. -/
def Total (isMacroDefined : IdentifierInfo → Bool) (w fuel : Nat) : Prop :=
  (∀ (ts : List (Token w)) DT ValueLive, ts.length < fuel →
    EvaluateValue isMacroDefined fuel ts DT ValueLive ≠ .stuck) ∧
  ∀ (LHS : PPValue w) MinPrec ts ValueLive flag, 1 ≤ MinPrec → ts.length < fuel →
    EvaluateDirectiveSubExpr isMacroDefined fuel LHS MinPrec ts ValueLive flag ≠ .stuck

theorem length_of_value {fuel : Nat} {ts rest : List (Token w)} {DT DT' : DefinedTracker}
    {ValueLive : Bool} {V : PPValue w}
    (h : EvaluateValue isMacroDefined fuel ts DT ValueLive = .done (V, rest, DT')) :
    rest.length ≤ ts.length := by
  obtain ⟨consumed, e, rfl, -⟩ := (evaluate_sound fuel).1 _ _ _ _ _ _ h
  rw [length_append]
  omega

theorem length_of_subExpr {fuel MinPrec : Nat} {LHS V : PPValue w} {ts rest : List (Token w)}
    {ValueLive flag flag' : Bool} (hmin : 1 ≤ MinPrec) (hmin' : MinPrec ≤ 15)
    (h : EvaluateDirectiveSubExpr isMacroDefined fuel LHS MinPrec ts ValueLive flag =
      .done (V, rest, flag')) :
    rest.length ≤ ts.length := by
  obtain ⟨consumed, e, p, rfl, -⟩ := (evaluate_sound fuel).2 _ _ _ _ _ _ _ _ _ _ 15 h .kw_true
    hmin hmin' (by omega) (Nat.le_refl _)
    fun p hp => ⟨Nat.le_succ_of_le (getPrecedence_le hp), by omega⟩
  rw [length_append]
  omega

theorem readRight_ne_stuck {β : Type} {fuel prec : Nat} {ts : List (Token w)} {live flag : Bool}
    {K : PPValue w × List (Token w) × Bool → Run β} (htotal : Total isMacroDefined w fuel)
    (hprec : 1 ≤ prec) (hprec' : prec ≤ 15) (hfuel : ts.length < fuel)
    (hK : ∀ R rest flag', rest.length ≤ ts.length → K (R, rest, flag') ≠ .stuck) :
    (((EvaluateValue isMacroDefined fuel ts .start live).keepFlag flag).bind fun (RHS, ts, DT) =>
      match getPrecedence ts.head? with
      | none => .error (diagnoseUnexpectedOperator RHS ts.head?) DT.IncludedUndefinedIds
      | some PeekPrec =>
        (if prec ≤ PeekPrec then
          EvaluateDirectiveSubExpr isMacroDefined fuel RHS prec ts live DT.IncludedUndefinedIds
        else .done (RHS, ts, DT.IncludedUndefinedIds)).bind K) ≠ .stuck := by
  refine Run.bind_ne_stuck (Run.keepFlag_ne_stuck (htotal.1 _ _ _ hfuel)) ?_
  rintro ⟨RHS, ts', DT⟩ hread
  have hlen := length_of_value (Run.keepFlag_eq_done hread)
  dsimp only
  cases getPrecedence ts'.head? with
  | none => exact fun h => by cases h
  | some PeekPrec =>
    dsimp only
    split_ifs
    · refine Run.bind_ne_stuck (htotal.2 _ _ _ _ _ hprec (by omega)) ?_
      rintro ⟨R, rest, flag'⟩ hloop
      exact hK R rest flag' ((length_of_subExpr hprec hprec' hloop).trans hlen)
    · exact hK RHS ts' _ hlen

theorem total_succ {fuel : Nat} (htotal : Total isMacroDefined w fuel) :
    Total isMacroDefined w (fuel + 1) := by
  have hunary : ∀ (ts : List (Token w)) DT ValueLive
      (f : PPValue w × List (Token w) × DefinedTracker →
        Run (PPValue w × List (Token w) × DefinedTracker)),
      ts.length < fuel → (∀ r, f r ≠ .stuck) →
      (EvaluateValue isMacroDefined fuel ts DT ValueLive).bind f ≠ .stuck :=
    fun ts DT ValueLive f hfuel hf => Run.bind_ne_stuck (htotal.1 _ _ _ hfuel) fun r _ => hf r
  constructor
  · intro ts DT ValueLive hfuel
    cases ts with
    | nil => exact fun h => by cases h
    | cons t ts =>
      rw [length_cons] at hfuel
      cases t with
      | identifier II =>
        rw [EvaluateValue]
        split_ifs
        · exact evaluateDefined_ne_stuck _ _
        · exact fun h => by cases h
      | plus | minus | tilde | exclaim =>
        exact hunary ts _ _ _ (by omega) fun r => fun h => by cases h
      | l_paren =>
        rw [evaluateValue_paren]
        refine Run.bind_ne_stuck (htotal.1 _ _ _ (by omega)) ?_
        rintro ⟨Result, ts', DT'⟩ hread
        have hlen := length_of_value hread
        unfold closeParen
        split
        · exact fun h => by cases h
        · next heq =>
          cases heq
          refine Run.bind_ne_stuck (htotal.2 _ _ _ _ _ (by omega) (by omega)) fun r _ => ?_
          dsimp only
          split
          · exact fun h => by cases h
          · exact fun h => by cases h
      | _ => exact fun h => by cases h
  · intro LHS MinPrec ts ValueLive flag hmin hfuel
    cases hprec : getPrecedence ts.head? with
    | none =>
      rw [EvaluateDirectiveSubExpr, hprec]
      exact fun h => by cases h
    | some ThisPrec =>
    by_cases hlt : ThisPrec < MinPrec
    · rw [subExpr_stop (by omega) hprec hlt]
      exact fun h => by cases h
    cases ts with
    | nil =>
      have : 0 = ThisPrec := Option.some.inj hprec
      omega
    | cons t ts =>
    rw [length_cons] at hfuel
    rcases operator_of_getPrecedence hprec (by omega) with ⟨rfl, rfl⟩ | ⟨rfl, rfl⟩ | ⟨op, rfl, rfl⟩
    · rw [subExpr_question (by omega)]
      refine readRight_ne_stuck htotal (by omega) (by omega) (by omega) ?_
      intro R rest flag' hlen
      unfold readConditional
      split
      · next heq =>
        cases heq
        rw [length_cons] at hlen
        refine Run.bind_ne_stuck
          (Run.keepFlag_ne_stuck (htotal.1 _ _ _ (by omega))) ?_
        rintro ⟨N, rest', DT⟩ hread
        have hlen' := length_of_value (Run.keepFlag_eq_done hread)
        refine Run.bind_ne_stuck (htotal.2 _ _ _ _ _ (by omega) (by omega)) ?_
        rintro ⟨N', rest'', flag''⟩ hloop
        have hlen'' := length_of_subExpr (by omega) (by omega) hloop
        exact htotal.2 _ _ _ _ _ hmin (by omega)
      · exact fun h => by cases h
    · show (if 2 < MinPrec then _ else _) ≠ _
      rw [if_neg hlt]
      refine @readRight_ne_stuck w isMacroDefined _ fuel 3 ts _ _ _ htotal (by omega) (by omega)
        (by omega) ?_
      intro R rest flag' hlen
      exact fun h => by cases h
    · have hbounds := level_bounds op
      rw [subExpr_binary (by omega)]
      refine readRight_ne_stuck htotal (by omega) (by omega) (by omega) ?_
      intro R rest flag' hlen
      refine Run.bind_ne_stuck (Run.keepFlag_ne_stuck (applyOperator_ne_stuck _ _ _ _)) ?_
      intro Res _
      exact htotal.2 _ _ _ _ _ hmin (by omega)

theorem evaluate_total (fuel : Nat) : Total isMacroDefined w fuel := by
  induction fuel with
  | zero => exact ⟨fun _ _ _ h => by omega, fun _ _ _ _ _ _ h => by omega⟩
  | succ fuel ih => exact total_succ ih

/-- What a result of the evaluator says about the truth of an expression. -/
def DirectiveEvalResult.Shows (r : DirectiveEvalResult) : Option Bool → Prop
  | none => r.reported ≠ none
  | some b => r.reported = none ∧ r.Conditional = b

/-- The evaluator reports an error when the tokens are not an expression or when a division by zero
is evaluated, and otherwise gives the truth of the expression. The parameter reads the amounts of
right shifts. -/
def EvaluatesExpression (amount : BitVec w → Nat) (isMacroDefined : IdentifierInfo → Bool)
    (ts : List (Token w)) : Prop :=
  ∃ r, EvaluateDirectiveExpression isMacroDefined ts = .done r ∧
    ((¬∃ e, Derives 4 ts e) → r.reported ≠ none) ∧
    ∀ e, Derives 4 ts e → r.Shows (e.truth amount isMacroDefined)

theorem evaluateDirective_eq (ts : List (Token w)) :
    ∃ r, EvaluateDirectiveExpression isMacroDefined ts = .done r ∧
      match readFrom isMacroDefined (ts.length + 1) 4 ts .start true (·.IncludedUndefinedIds) with
      | .stuck => False
      | .error _ _ => r.reported ≠ none
      | .done (V, rest, _) =>
        r.Conditional = (V.Val.Val != 0#w) ∧ (r.reported = none ↔ rest = []) := by
  have hvalue := (@evaluate_total w isMacroDefined (ts.length + 1)).1 ts .start true
    (Nat.lt_succ_self _)
  unfold EvaluateDirectiveExpression readFrom
  cases hread : EvaluateValue isMacroDefined (ts.length + 1) ts .start true with
  | stuck => exact absurd hread hvalue
  | error diag flag => exact ⟨_, rfl, fun h => by cases h⟩
  | done r =>
    obtain ⟨V, rest, DT⟩ := r
    have hlen := length_of_value hread
    show ∃ r : DirectiveEvalResult, evaluateAfterValue _ _ _ _ _ = Run.done r ∧
      match EvaluateDirectiveSubExpr isMacroDefined (ts.length + 1) V 4 rest true
        DT.IncludedUndefinedIds with
      | .stuck => False
      | .error _ _ => r.reported ≠ none
      | .done (V, rest, _) =>
        r.Conditional = (V.Val.Val != 0#w) ∧ (r.reported = none ↔ rest = [])
    cases rest with
    | nil =>
      exact ⟨_, rfl, rfl, iff_of_true rfl rfl⟩
    | cons t rest =>
      have hloop := (@evaluate_total w isMacroDefined (ts.length + 1)).2 V 4 (t :: rest) true
        DT.IncludedUndefinedIds (by omega) (by omega)
      unfold evaluateAfterValue
      dsimp only
      cases hsub : EvaluateDirectiveSubExpr isMacroDefined (ts.length + 1) V 4 (t :: rest) true
          DT.IncludedUndefinedIds with
      | stuck => exact absurd hsub hloop
      | error diag flag => exact ⟨_, rfl, Option.some_ne_none _⟩
      | done r =>
        refine ⟨_, rfl, rfl, ?_⟩
        split_ifs with hrest
        · exact iff_of_true rfl hrest
        · exact iff_of_false id hrest

theorem evaluates_cut (isMacroDefined : IdentifierInfo → Bool) (ts : List (Token w)) :
    EvaluatesExpression shiftAmount isMacroDefined ts := by
  obtain ⟨r, hrun, hr⟩ := @evaluateDirective_eq w isMacroDefined ts
  refine ⟨r, hrun, ?_, ?_⟩
  · intro hno
    split at hr
    · exact hr.elim
    · exact hr
    · next V rest flag hread =>
      obtain ⟨⟨V', rest', DT⟩, hvalue, hsub⟩ := Run.bind_eq_done hread
      obtain ⟨before, e, hts, hder⟩ := (evaluate_sound _).1 _ _ _ _ _ _ hvalue
      obtain ⟨after, e', p, hrest, hder', -, -⟩ :=
        (evaluate_sound _).2 _ _ _ _ _ _ _ _ _ _ 15 hsub hder (by omega) (by omega) (by omega)
          (by omega) fun p hp => ⟨Nat.le_succ_of_le (getPrecedence_le hp), by omega⟩
      rw [ne_eq, hr.2]
      rintro rfl
      rw [append_nil] at hrest
      rw [hts, hrest] at hno
      exact hno ⟨e', hder'⟩
  · intro e hder
    have hreads := (@reads_of_derives w isMacroDefined 4 ts e hder).2 4 (ts.length + 1) [] 0 .start
      true (·.IncludedUndefinedIds) (by omega) (by simp) rfl ⟨by omega, by omega⟩
    rw [append_nil] at hreads
    rcases hreads with ⟨⟨-, hnone⟩, diag, flag, herror⟩ | ⟨V, fuel', flag, hfuel', hV, hread⟩
    · rw [herror] at hr
      rw [Expr.truth, hnone]
      exact hr
    · rw [hread, subExpr_stop (p := 0) (by omega) rfl (by omega)] at hr
      rw [Expr.truth, hV.2 rfl]
      exact ⟨hr.2.mpr rfl, hr.1⟩

/-- The outcome is the same when the amounts of right shifts are cut to 32 bits. -/
def CutKeepsTruth (isMacroDefined : IdentifierInfo → Bool) (ts : List (Token w)) : Prop :=
  ∀ e : Expr w, Derives 4 ts e →
    e.truth shiftAmount isMacroDefined = e.truth BitVec.toNat isMacroDefined

/-- The amounts of the right shifts that are evaluated are below `2 ^ 32`, or their low 32 bits
shift out all bits but the sign as well. -/
def Expr.AmountsFit (isMacroDefined : IdentifierInfo → Bool) : Expr w → Prop
  | .literal _ _ | .boolean _ | .identifier _ | .defined _ => True
  | .unary _ operand => operand.AmountsFit isMacroDefined
  | .binary op left right =>
    left.AmountsFit isMacroDefined ∧
      ∀ x, left.value BitVec.toNat isMacroDefined = some x → op.shortCircuits x = false →
        right.AmountsFit isMacroDefined ∧
          (op = .shr → ∀ y, right.value BitVec.toNat isMacroDefined = some y →
            y.toNat < 2 ^ 32 ∨ w - 1 ≤ shiftAmount y)
  | .conditional condition yes no =>
    condition.AmountsFit isMacroDefined ∧
      ∀ x, condition.value BitVec.toNat isMacroDefined = some x →
        if x ≠ 0#w then yes.AmountsFit isMacroDefined else no.AmountsFit isMacroDefined

theorem min_shiftAmount {y : BitVec w} (h : y.toNat < 2 ^ 32 ∨ w - 1 ≤ shiftAmount y) :
    min (shiftAmount y) (w - 1) = min y.toNat (w - 1) := by
  have hle : shiftAmount y ≤ y.toNat := by
    refine (Nat.mod_le _ _).trans ?_
    rw [APInt.toNat_getLimitedValue]
    exact Nat.min_le_left _ _
  rcases h with h | h
  · have heq : shiftAmount y = y.toNat := by
      rw [shiftAmount, APInt.toNat_getLimitedValue, Nat.min_eq_left (by omega), Nat.mod_eq_of_lt h]
    rw [heq]
  · omega

theorem value_cut {e : Expr w} (h : e.AmountsFit isMacroDefined) :
    e.value shiftAmount isMacroDefined = e.value BitVec.toNat isMacroDefined := by
  induction e with
  | literal | boolean | identifier | defined => rfl
  | unary op operand ih => rw [Expr.value, Expr.value, ih h]
  | binary op left right ihl ihr =>
    obtain ⟨hleft, hright⟩ := h
    rw [Expr.value, Expr.value, ihl hleft]
    cases hx : left.value BitVec.toNat isMacroDefined with
    | none => rfl
    | some x =>
      show (if op.shortCircuits x = true then _ else _) =
        if op.shortCircuits x = true then _ else _
      by_cases hshort : op.shortCircuits x = true
      · rw [if_pos hshort, if_pos hshort]
      · obtain ⟨hfit, hshr⟩ := hright x hx (Bool.eq_false_of_not_eq_true hshort)
        rw [if_neg hshort, if_neg hshort, ihr hfit]
        cases hy : right.value BitVec.toNat isMacroDefined with
        | none => rfl
        | some y =>
          show op.apply shiftAmount _ x y = op.apply BitVec.toNat _ x y
          cases op with
          | shr =>
            unfold BinaryOp.apply
            rw [min_shiftAmount (hshr rfl y hy)]
          | _ => rfl
  | conditional condition yes no ihc ihy ihn =>
    obtain ⟨hcondition, hbranch⟩ := h
    rw [Expr.value, Expr.value, ihc hcondition]
    cases hx : condition.value BitVec.toNat isMacroDefined with
    | none => rfl
    | some x =>
      have hfit := hbranch x hx
      show (if x ≠ 0#w then _ else _) = if x ≠ 0#w then _ else _
      split_ifs at hfit ⊢ with hzero
      · exact ihy hfit
      · exact ihn hfit

/-- The evaluator gives what C says exactly when cutting the amounts of right shifts does not
change the truth of the expression, in particular when the amounts that are evaluated fit. -/
theorem evaluates_iff (isMacroDefined : IdentifierInfo → Bool) (ts : List (Token w)) :
    (EvaluatesExpression BitVec.toNat isMacroDefined ts ↔ CutKeepsTruth isMacroDefined ts) ∧
      ((∀ e, Derives 4 ts e → e.AmountsFit isMacroDefined) →
        EvaluatesExpression BitVec.toNat isMacroDefined ts) := by
  obtain ⟨r, hrun, herror, hcut⟩ := evaluates_cut isMacroDefined ts
  have hiff : EvaluatesExpression BitVec.toNat isMacroDefined ts ↔
      CutKeepsTruth isMacroDefined ts := by
    constructor
    · rintro ⟨r', hrun', -, hshows⟩ e hder
      cases hrun.symm.trans hrun'
      have h := hcut e hder
      have h' := hshows e hder
      cases hc : e.truth shiftAmount isMacroDefined with
      | none =>
        cases ht : e.truth BitVec.toNat isMacroDefined with
        | none => rfl
        | some b =>
          rw [hc] at h
          rw [ht] at h'
          exact absurd h'.1 h
      | some b =>
        cases ht : e.truth BitVec.toNat isMacroDefined with
        | none =>
          rw [hc] at h
          rw [ht] at h'
          exact absurd h.1 h'
        | some b' =>
          rw [hc] at h
          rw [ht] at h'
          rw [← h.2, ← h'.2]
    · intro hkeeps
      refine ⟨r, hrun, herror, fun e hder => ?_⟩
      rw [← hkeeps e hder]
      exact hcut e hder
  refine ⟨hiff, fun hfit => hiff.mpr fun e hder => ?_⟩
  rw [Expr.truth, Expr.truth, value_cut (hfit e hder)]

/-- One shifted right by `2 ^ 32` is zero, and the evaluator finds it to be one. -/
theorem not_evaluates : ¬∀ (isMacroDefined : IdentifierInfo → Bool) (ts : List (Token 64)),
    EvaluatesExpression BitVec.toNat isMacroDefined ts := by
  intro h
  obtain ⟨r, hrun, -, hshows⟩ := h (fun _ => false)
    [.numeric_constant 1#64 false, .greatergreater, .numeric_constant 4294967296#64 false]
  have hder : Derives 4
      [.numeric_constant 1#64 false, .greatergreater, .numeric_constant 4294967296#64 false]
      (.binary .shr (.literal 1#64 false) (.literal 4294967296#64 false)) :=
    derives_of_le (.binary .shr
      (derives_of_le (.literal 1#64 false) (by decide) (by decide) (by decide))
      (derives_of_le (.literal 4294967296#64 false) (by decide) (by decide) (by decide)))
      (by decide) (by decide) (by decide)
  have hresult : EvaluateDirectiveExpression (fun _ => false)
      [.numeric_constant 1#64 false, .greatergreater, .numeric_constant 4294967296#64 false] =
      .done ⟨true, false, none, none⟩ := by decide
  cases hresult.symm.trans hrun
  have hshow := hshows _ hder
  exact absurd hshow.2 (by decide)

end Zapcc.Lex
