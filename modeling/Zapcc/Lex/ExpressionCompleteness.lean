import Zapcc.Lex.ExpressionOperators

/-!
# The evaluator on the expressions of the grammar

`reads_of_derives` says what the evaluator does with the tokens of an expression: it comes to the
value and the type of the expression and goes on behind it, or reports an error when a division by
zero is evaluated. A value that is not live only has the right type. The induction is on the
derivation, and holds for every operator that may follow.
-/

namespace Zapcc.Lex

open List

variable {w : Nat} {isMacroDefined : IdentifierInfo → Bool}

/-- Read an operand, and the operators of at least some precedence after it. These start with a
flag that may depend on the operand. -/
def readFrom (isMacroDefined : IdentifierInfo → Bool) (fuel MinPrec : Nat) (ts : List (Token w))
    (DT : DefinedTracker) (ValueLive : Bool) (flagOf : DefinedTracker → Bool) :
    Run (PPValue w × List (Token w) × Bool) :=
  (EvaluateValue isMacroDefined fuel ts DT ValueLive).bind fun (LHS, ts, DT) =>
    EvaluateDirectiveSubExpr isMacroDefined fuel LHS MinPrec ts ValueLive (flagOf DT)

/-- A value has the type of an expression, and its value when that is live. -/
def Agrees (isMacroDefined : IdentifierInfo → Bool) (e : Expr w) (ValueLive : Bool)
    (x : APSInt w) : Prop :=
  x.IsUnsigned = e.isUnsigned ∧ (ValueLive = true → e.value shiftAmount isMacroDefined = some x.Val)

/-- An expression has no value, and is live. -/
def Fails (isMacroDefined : IdentifierInfo → Bool) (e : Expr w) (ValueLive : Bool) : Prop :=
  ValueLive = true ∧ e.value shiftAmount isMacroDefined = none

def Run.IsError {α : Type} (r : Run α) : Prop := ∃ diag flag, r = .error diag flag

/-- An operator of precedence `p` does not belong to an expression of level `n` in front of it. -/
def Stops (n p : Nat) : Prop := p ≤ n ∧ (n = 4 → p < 4)

def ReadsOperand (isMacroDefined : IdentifierInfo → Bool) (ts : List (Token w)) (e : Expr w) :
    Prop :=
  ∀ fuel rest DT ValueLive, (ts ++ rest).length < fuel → Fails isMacroDefined e ValueLive ∧
        (EvaluateValue isMacroDefined fuel (ts ++ rest) DT ValueLive).IsError ∨
      ∃ V DT', Agrees isMacroDefined e ValueLive V.Val ∧
        EvaluateValue isMacroDefined fuel (ts ++ rest) DT ValueLive = .done (V, rest, DT')

/-- The evaluator reads some tokens as an expression of some level, and goes on with the operators
behind it. -/
def Reads (isMacroDefined : IdentifierInfo → Bool) (n : Nat) (ts : List (Token w)) (e : Expr w) :
    Prop :=
  ∀ MinPrec fuel rest p DT ValueLive flagOf, MinPrec ≤ n → (ts ++ rest).length < fuel →
    getPrecedence rest.head? = some p → Stops n p →
    Fails isMacroDefined e ValueLive ∧
        (readFrom isMacroDefined fuel MinPrec (ts ++ rest) DT ValueLive flagOf).IsError ∨
      ∃ V fuel' flag, rest.length < fuel' ∧ Agrees isMacroDefined e ValueLive V.Val ∧
        readFrom isMacroDefined fuel MinPrec (ts ++ rest) DT ValueLive flagOf =
          EvaluateDirectiveSubExpr isMacroDefined fuel' V MinPrec rest ValueLive flag

theorem Run.IsError.bind {α β : Type} {r : Run α} (h : r.IsError) (f : α → Run β) :
    (r.bind f).IsError := by
  obtain ⟨diag, flag, rfl⟩ := h
  exact ⟨diag, flag, rfl⟩

/-- A run goes on with what another one comes to, or reports an error as that one does. -/
def Continues {α β : Type} (r : Run α) (K : α → Run β) (whole : Run β) : Prop :=
  (∀ x, r = .done x → whole = K x) ∧ (r.IsError → whole.IsError)

theorem Continues.bind {α β : Type} (r : Run α) (K : α → Run β) : Continues r K (r.bind K) :=
  ⟨fun _ h => by rw [h]; rfl, fun h => h.bind K⟩

theorem readRight_continues {β : Type} {fuel prec : Nat} {ts : List (Token w)} {live flag : Bool}
    (K : PPValue w × List (Token w) × Bool → Run β) :
    Continues (readFrom isMacroDefined fuel prec ts .start live (·.IncludedUndefinedIds)) K
      (((EvaluateValue isMacroDefined fuel ts .start live).keepFlag flag).bind fun (RHS, ts, DT) =>
        match getPrecedence ts.head? with
        | none => .error (diagnoseUnexpectedOperator RHS ts.head?) DT.IncludedUndefinedIds
        | some PeekPrec =>
          (if prec ≤ PeekPrec then
            EvaluateDirectiveSubExpr isMacroDefined fuel RHS prec ts live DT.IncludedUndefinedIds
          else .done (RHS, ts, DT.IncludedUndefinedIds)).bind K) := by
  unfold readFrom
  cases hvalue : EvaluateValue isMacroDefined fuel ts .start live with
  | stuck => exact ⟨nofun, nofun⟩
  | error diag flag' => exact ⟨nofun, fun _ => ⟨diag, flag, rfl⟩⟩
  | done r =>
    obtain ⟨RHS, ts', DT⟩ := r
    obtain ⟨fuel, rfl⟩ : ∃ n, fuel = n + 1 := by
      cases fuel with
      | zero => cases hvalue
      | succ n => exact ⟨n, rfl⟩
    change Continues (EvaluateDirectiveSubExpr isMacroDefined (fuel + 1) RHS prec ts' live
      DT.IncludedUndefinedIds) K _
    simp only [Run.keepFlag, Run.bind]
    cases hprec : getPrecedence ts'.head? with
    | none =>
      rw [EvaluateDirectiveSubExpr, hprec]
      refine ⟨fun x hx => ?_, fun _ => ⟨_, _, rfl⟩⟩
      cases hx
    | some PeekPrec =>
      dsimp only
      by_cases hle : prec ≤ PeekPrec
      · rw [if_pos hle]
        exact .bind _ K
      · rw [if_neg hle, subExpr_stop (Nat.succ_pos fuel) hprec (by omega)]
        exact .bind _ K

theorem readAfterColon_continues {β : Type} {fuel prec : Nat} {ts : List (Token w)}
    {live flag : Bool} (K : PPValue w × List (Token w) × Bool → Run β) :
    Continues (readFrom isMacroDefined fuel prec ts .start live (fun _ => flag)) K
      (((EvaluateValue isMacroDefined fuel ts .start live).keepFlag flag).bind fun (A, ts, _) =>
        (EvaluateDirectiveSubExpr isMacroDefined fuel A prec ts live flag).bind K) := by
  unfold readFrom
  cases EvaluateValue isMacroDefined fuel ts .start live with
  | stuck => exact ⟨nofun, nofun⟩
  | error diag flag' => exact ⟨nofun, fun _ => ⟨diag, flag, rfl⟩⟩
  | done r => exact .bind _ K

theorem subExpr_binary {op : BinaryOp} {fuel MinPrec : Nat} {LHS : PPValue w} {ts : List (Token w)}
    {ValueLive flag : Bool} (hmin : MinPrec ≤ op.level) :
    EvaluateDirectiveSubExpr isMacroDefined (fuel + 1) LHS MinPrec (op.token :: ts) ValueLive flag =
      ((EvaluateValue isMacroDefined fuel ts .start
        (ValueLive && !op.shortCircuits LHS.Val.Val)).keepFlag flag).bind fun (RHS, ts, DT) =>
        match getPrecedence ts.head? with
        | none => .error (diagnoseUnexpectedOperator RHS ts.head?) DT.IncludedUndefinedIds
        | some PeekPrec =>
          (if op.level + 1 ≤ PeekPrec then
            EvaluateDirectiveSubExpr isMacroDefined fuel RHS (op.level + 1) ts
              (ValueLive && !op.shortCircuits LHS.Val.Val) DT.IncludedUndefinedIds
          else .done (RHS, ts, DT.IncludedUndefinedIds)).bind fun (RHS, ts, flag) =>
            ((applyOperator op.token LHS.Val RHS.Val ValueLive).keepFlag flag).bind fun Res =>
              EvaluateDirectiveSubExpr isMacroDefined fuel ⟨LHS.II, Res⟩ MinPrec ts ValueLive
                flag := by
  rw [EvaluateDirectiveSubExpr, head?_cons, getPrecedence_token]
  dsimp only
  rw [if_neg (by omega), RHSPrec_token, RHSIsLive_token]
  cases op <;> rfl

def conditionalResult (LHS RHS AfterColonVal : APSInt w) : APSInt w :=
  (if LHS.Val ≠ 0#w then RHS else AfterColonVal).setIsUnsigned
    (RHS.IsUnsigned || AfterColonVal.IsUnsigned)

/-- What the loop does at a `?`, once the operand after it is read. -/
def readConditional (isMacroDefined : IdentifierInfo → Bool) (fuel MinPrec : Nat) (LHS : PPValue w)
    (ValueLive : Bool) : PPValue w × List (Token w) × Bool → Run (PPValue w × List (Token w) × Bool)
  | (RHS, .colon :: ts, flag) =>
    ((EvaluateValue isMacroDefined fuel ts .start (ValueLive && LHS.Val.Val == 0#w)).keepFlag
      flag).bind fun (AfterColonVal, ts, _) =>
      (EvaluateDirectiveSubExpr isMacroDefined fuel AfterColonVal 4 ts
        (ValueLive && LHS.Val.Val == 0#w) flag).bind fun (AfterColonVal, ts, flag) =>
        EvaluateDirectiveSubExpr isMacroDefined fuel
          ⟨LHS.II, conditionalResult LHS.Val RHS.Val AfterColonVal.Val⟩ MinPrec ts ValueLive flag
  | (_, _, flag) => .error .err_expected flag

theorem subExpr_question {fuel MinPrec : Nat} {LHS : PPValue w} {ts : List (Token w)}
    {ValueLive flag : Bool} (hmin : MinPrec ≤ 4) :
    EvaluateDirectiveSubExpr isMacroDefined (fuel + 1) LHS MinPrec (.question :: ts) ValueLive
        flag =
      ((EvaluateValue isMacroDefined fuel ts .start
        (ValueLive && LHS.Val.Val != 0#w)).keepFlag flag).bind fun (RHS, ts, DT) =>
        match getPrecedence ts.head? with
        | none => .error (diagnoseUnexpectedOperator RHS ts.head?) DT.IncludedUndefinedIds
        | some PeekPrec =>
          (if 3 ≤ PeekPrec then
            EvaluateDirectiveSubExpr isMacroDefined fuel RHS 3 ts
              (ValueLive && LHS.Val.Val != 0#w) DT.IncludedUndefinedIds
          else .done (RHS, ts, DT.IncludedUndefinedIds)).bind
            (readConditional isMacroDefined fuel MinPrec LHS ValueLive) := by
  have hlive : RHSIsLive (.question : Token w) LHS.Val ValueLive =
      (ValueLive && LHS.Val.Val != 0#w) := by
    by_cases h : LHS.Val.Val = 0#w <;> simp [RHSIsLive, h]
  show (if 4 < MinPrec then _ else _) = _
  rw [if_neg (by omega)]
  dsimp only
  rw [hlive]
  congr 1
  funext r
  obtain ⟨RHS, ts, DT⟩ := r
  cases getPrecedence ts.head? with
  | none => rfl
  | some PeekPrec =>
    dsimp only
    congr 1
    funext r
    obtain ⟨RHS, ts, flag⟩ := r
    cases ts with
    | nil => rfl
    | cons t ts => cases t <;> rfl

theorem value_binary {amount : BitVec w → Nat} {op : BinaryOp} {left right : Expr w}
    {x y : BitVec w} (hx : left.value amount isMacroDefined = some x)
    (hy : op.shortCircuits x = false → right.value amount isMacroDefined = some y) :
    (Expr.binary op left right).value amount isMacroDefined =
      op.apply amount (op.signedness left right) x y := by
  rw [Expr.value, hx]
  cases hshort : op.shortCircuits x with
  | false =>
    rw [hy hshort]
    show (if op.shortCircuits x = true then _ else _) = _
    rw [if_neg (by simp [hshort])]
    rfl
  | true =>
    show (if op.shortCircuits x = true then _ else _) = _
    rw [if_pos hshort]
    cases op with
    | logicalAnd =>
      have hzero : (x != 0#w) = false := by simpa [BinaryOp.shortCircuits] using hshort
      simp [BinaryOp.apply, hzero]
    | logicalOr =>
      have hone : (x != 0#w) = true := hshort
      simp [BinaryOp.apply, hone]
    | _ => cases hshort

theorem reads_binary {op : BinaryOp} {ts ts' : List (Token w)} {left right : Expr w}
    (hl : Reads isMacroDefined op.level ts left)
    (hr : Reads isMacroDefined (op.level + 1) ts' right) :
    Reads isMacroDefined op.level (ts ++ op.token :: ts') (.binary op left right) := by
  intro MinPrec fuel rest p DT ValueLive flagOf hmin hfuel hp hstops
  have hbounds := level_bounds op
  rw [append_assoc, cons_append] at hfuel ⊢
  rcases hl MinPrec fuel (op.token :: (ts' ++ rest)) op.level DT ValueLive flagOf hmin hfuel
      (getPrecedence_token op) ⟨Nat.le_refl _, by omega⟩ with
    ⟨⟨hlive, hnone⟩, herror⟩ | ⟨L, fuel1, flag1, hfuel1, hL, heq⟩
  · exact Or.inl ⟨⟨hlive, by rw [Expr.value, hnone]; rfl⟩, herror⟩
  obtain ⟨fuel1, rfl⟩ : ∃ n, fuel1 = n + 1 := ⟨fuel1 - 1, by simp at hfuel1; omega⟩
  rw [heq, subExpr_binary hmin]
  rcases hr (op.level + 1) fuel1 rest p .start (ValueLive && !op.shortCircuits L.Val.Val)
      (·.IncludedUndefinedIds) (Nat.le_refl _) (by simpa using hfuel1) hp
      ⟨Nat.le_succ_of_le hstops.1, fun h => by have := hstops.1; omega⟩ with
    ⟨⟨hlive, hnone⟩, herror⟩ | ⟨R, fuel2, flag2, hfuel2, hR, heqR⟩
  · left
    rw [Bool.and_eq_true, Bool.not_eq_true'] at hlive
    refine ⟨⟨hlive.1, ?_⟩, (readRight_continues _).2 herror⟩
    rw [Expr.value, hL.2 hlive.1]
    show (if op.shortCircuits L.Val.Val = true then _ else _) = _
    rw [if_neg (by simp [hlive.2]), hnone]
    rfl
  rw [subExpr_stop (by omega) hp (Nat.lt_succ_of_le hstops.1)] at heqR
  rw [(readRight_continues _).1 _ heqR]
  dsimp only
  have hvalue : ValueLive = true → (Expr.binary op left right).value shiftAmount isMacroDefined =
      op.apply shiftAmount (op.signedness left right) L.Val.Val R.Val.Val := by
    intro hlive
    refine value_binary (hL.2 hlive) fun hshort => hR.2 ?_
    rw [hlive, hshort]
    rfl
  have houtcome := applyOperator_spec op left right L.Val R.Val ValueLive hL.1 hR.1
  cases happly : op.apply shiftAmount (op.signedness left right) L.Val.Val R.Val.Val with
  | some v =>
    rw [happly] at houtcome
    rw [houtcome]
    exact Or.inr ⟨_, fuel1, flag2, by simp at hfuel1; omega,
      ⟨rfl, fun hlive => (hvalue hlive).trans happly⟩, rfl⟩
  | none =>
    rw [happly] at houtcome
    cases ValueLive with
    | true =>
      obtain ⟨diag, flag, herror⟩ := houtcome
      rw [herror]
      exact Or.inl ⟨⟨rfl, (hvalue rfl).trans happly⟩, diag, flag2, rfl⟩
    | false =>
      obtain ⟨v, hdone⟩ := houtcome
      rw [hdone]
      exact Or.inr ⟨_, fuel1, flag2, by simp at hfuel1; omega,
        ⟨rfl, fun hlive => nomatch hlive⟩, rfl⟩

theorem reads_conditional {ts ts' ts'' : List (Token w)} {condition yes no : Expr w}
    (hc : Reads isMacroDefined 5 ts condition) (hy : Reads isMacroDefined 3 ts' yes)
    (hn : Reads isMacroDefined 4 ts'' no) :
    Reads isMacroDefined 4 (ts ++ .question :: (ts' ++ .colon :: ts''))
      (.conditional condition yes no) := by
  intro MinPrec fuel rest p DT ValueLive flagOf hmin hfuel hp hstops
  have hlt : p < 4 := hstops.2 rfl
  have htokens : ts ++ .question :: (ts' ++ .colon :: ts'') ++ rest =
      ts ++ .question :: (ts' ++ .colon :: (ts'' ++ rest)) := by simp
  rw [htokens] at hfuel ⊢
  rcases hc MinPrec fuel (.question :: (ts' ++ .colon :: (ts'' ++ rest))) 4 DT ValueLive flagOf
      (by omega) hfuel rfl ⟨by omega, by omega⟩ with
    ⟨⟨hlive, hnone⟩, herror⟩ | ⟨C, fuel1, flag1, hfuel1, hC, heq⟩
  · exact Or.inl ⟨⟨hlive, by rw [Expr.value, hnone]; rfl⟩, herror⟩
  simp only [length_cons, length_append] at hfuel1
  obtain ⟨fuel1, rfl⟩ : ∃ n, fuel1 = n + 1 := ⟨fuel1 - 1, by omega⟩
  have hvalue : ValueLive = true →
      (Expr.conditional condition yes no).value shiftAmount isMacroDefined =
        if C.Val.Val ≠ 0#w then yes.value shiftAmount isMacroDefined
        else no.value shiftAmount isMacroDefined := by
    intro hlive
    rw [Expr.value, hC.2 hlive]
    rfl
  rw [heq, subExpr_question hmin]
  rcases hy 3 fuel1 (.colon :: (ts'' ++ rest)) 2 .start (ValueLive && C.Val.Val != 0#w)
      (·.IncludedUndefinedIds) (Nat.le_refl _) (by simp; omega) rfl ⟨by omega, by omega⟩ with
    ⟨⟨hlive, hnone⟩, herror⟩ | ⟨Y, fuel2, flag2, hfuel2, hY, heqY⟩
  · left
    rw [Bool.and_eq_true, bne_iff_ne] at hlive
    refine ⟨⟨hlive.1, ?_⟩, (readRight_continues _).2 herror⟩
    rw [hvalue hlive.1, if_pos hlive.2, hnone]
  rw [subExpr_stop (p := 2) (by omega) rfl (by omega)] at heqY
  rw [(readRight_continues _).1 _ heqY, readConditional]
  rcases hn 4 fuel1 rest p .start (ValueLive && C.Val.Val == 0#w) (fun _ => flag2)
      (Nat.le_refl _) (by simp; omega) hp ⟨by omega, fun _ => hlt⟩ with
    ⟨⟨hlive, hnone⟩, herror⟩ | ⟨N, fuel3, flag3, hfuel3, hN, heqN⟩
  · left
    rw [Bool.and_eq_true, beq_iff_eq] at hlive
    refine ⟨⟨hlive.1, ?_⟩, (readAfterColon_continues _).2 herror⟩
    rw [hvalue hlive.1, if_neg (not_not.mpr hlive.2), hnone]
  rw [subExpr_stop (by omega) hp hlt] at heqN
  rw [(readAfterColon_continues _).1 _ heqN]
  refine Or.inr ⟨_, fuel1, flag3, by omega, ⟨?_, ?_⟩, rfl⟩
  · show (Y.Val.IsUnsigned || N.Val.IsUnsigned) = (yes.isUnsigned || no.isUnsigned)
    rw [hY.1, hN.1]
  · intro hlive
    rw [hvalue hlive]
    unfold conditionalResult
    by_cases hzero : C.Val.Val = 0#w
    · rw [if_neg (not_not.mpr hzero), if_neg (not_not.mpr hzero)]
      exact hN.2 (by simp [hlive, hzero])
    · rw [if_pos hzero, if_pos hzero]
      exact hY.2 (by simp [hlive, hzero])

theorem checkMacroName_eq {token : Token w} {name : IdentifierInfo} {flag : Bool}
    (ts : List (Token w)) (h : token.getIdentifierInfo = some name) :
    CheckMacroName flag (token :: ts) = .done (name, ts) := by
  rw [CheckMacroName, h]

theorem evaluateDefined_eq {token : Token w} {name : IdentifierInfo} (ts : List (Token w))
    (DT : DefinedTracker) (h : token.getIdentifierInfo = some name) :
    EvaluateDefined isMacroDefined (token :: ts) DT = .done
      (⟨none, ⟨APInt.ofBool w (isMacroDefined name), false⟩⟩, ts,
        ⟨.DefinedMacro, some name, !isMacroDefined name⟩) := by
  unfold EvaluateDefined
  cases token with
  | l_paren => cases h
  | _ =>
    dsimp only
    rw [checkMacroName_eq _ h]
    rfl

theorem evaluateDefined_parens {token : Token w} {name : IdentifierInfo} (ts : List (Token w))
    (DT : DefinedTracker) (h : token.getIdentifierInfo = some name) :
    EvaluateDefined isMacroDefined (.l_paren :: token :: .r_paren :: ts) DT = .done
      (⟨none, ⟨APInt.ofBool w (isMacroDefined name), false⟩⟩, ts,
        ⟨.DefinedMacro, some name, !isMacroDefined name⟩) := by
  unfold EvaluateDefined
  dsimp only
  rw [checkMacroName_eq _ h]
  rfl

theorem readsOperand_of_done {ts : List (Token w)} {e : Expr w} {x : APSInt w}
    (htype : x.IsUnsigned = e.isUnsigned)
    (hvalue : e.value shiftAmount isMacroDefined = some x.Val)
    (h : ∀ fuel rest DT ValueLive, ∃ II DT',
      EvaluateValue isMacroDefined (fuel + 1) (ts ++ rest) DT ValueLive =
        .done (⟨II, x⟩, rest, DT')) :
    ReadsOperand isMacroDefined ts e := by
  intro fuel rest DT ValueLive hfuel
  obtain ⟨fuel, rfl⟩ : ∃ n, fuel = n + 1 := ⟨fuel - 1, by omega⟩
  obtain ⟨II, DT', heq⟩ := h fuel rest DT ValueLive
  exact Or.inr ⟨⟨II, x⟩, DT', ⟨htype, fun _ => hvalue⟩, heq⟩

theorem readsOperand_unary {op : UnaryOp} {ts : List (Token w)} {e : Expr w}
    (h : ReadsOperand isMacroDefined ts e) :
    ReadsOperand isMacroDefined (op.token :: ts) (.unary op e) := by
  intro fuel rest DT ValueLive hfuel
  obtain ⟨fuel, rfl⟩ : ∃ n, fuel = n + 1 := ⟨fuel - 1, by omega⟩
  rw [cons_append, length_cons] at hfuel
  rcases h fuel rest DT.forget ValueLive (by omega) with
    ⟨⟨hlive, hnone⟩, diag, flag, herror⟩ | ⟨V, DT', hV, hdone⟩
  · left
    refine ⟨⟨hlive, by rw [Expr.value, hnone]; rfl⟩, diag, flag, ?_⟩
    cases op <;> (
      show Run.bind (EvaluateValue isMacroDefined fuel (ts ++ rest) _ ValueLive) _ = _
      rw [herror]
      rfl)
  · right
    have hvalue : ValueLive = true → (Expr.unary op e).value shiftAmount isMacroDefined =
        some (op.apply V.Val.Val) := by
      intro hlive
      rw [Expr.value, hV.2 hlive]
      rfl
    cases op with
    | plus =>
      refine ⟨⟨none, V.Val⟩, DT', ⟨hV.1, hvalue⟩, ?_⟩
      show Run.bind (EvaluateValue isMacroDefined fuel (ts ++ rest) _ ValueLive) _ = _
      rw [hdone]
      rfl
    | minus =>
      refine ⟨⟨none, ⟨-V.Val.Val, V.Val.IsUnsigned⟩⟩, DT'.forget, ⟨hV.1, hvalue⟩, ?_⟩
      show Run.bind (EvaluateValue isMacroDefined fuel (ts ++ rest) _ ValueLive) _ = _
      rw [hdone]
      rfl
    | complement =>
      refine ⟨⟨none, ⟨~~~V.Val.Val, V.Val.IsUnsigned⟩⟩, DT'.forget, ⟨hV.1, hvalue⟩, ?_⟩
      show Run.bind (EvaluateValue isMacroDefined fuel (ts ++ rest) _ ValueLive) _ = _
      rw [hdone]
      rfl
    | not =>
      refine ⟨⟨none, ⟨APInt.ofBool w (V.Val.Val == 0#w), false⟩⟩, DT'.negate, ⟨rfl, hvalue⟩, ?_⟩
      show Run.bind (EvaluateValue isMacroDefined fuel (ts ++ rest) _ ValueLive) _ = _
      rw [hdone]
      rfl

/-- What follows the expression in parentheses. -/
def closeParen (ValueLive : Bool) (fuel : Nat) (isMacroDefined : IdentifierInfo → Bool) :
    PPValue w × List (Token w) × DefinedTracker → Run (PPValue w × List (Token w) × DefinedTracker)
  | (Result, .r_paren :: ts, DT) => .done (⟨none, Result.Val⟩, ts, DT)
  | (Result, ts, DT) =>
    (EvaluateDirectiveSubExpr isMacroDefined fuel Result 1 ts ValueLive
      DT.IncludedUndefinedIds).bind fun (Result, ts, IncludedUndefinedIds) =>
      match ts with
      | .r_paren :: ts =>
        .done (⟨none, Result.Val⟩, ts, ⟨.Unknown, DT.TheMacro, IncludedUndefinedIds⟩)
      | _ => .error .err_pp_expected_rparen IncludedUndefinedIds

theorem evaluateValue_paren {fuel : Nat} {ts : List (Token w)} {DT : DefinedTracker}
    {ValueLive : Bool} :
    EvaluateValue isMacroDefined (fuel + 1) (.l_paren :: ts) DT ValueLive =
      (EvaluateValue isMacroDefined fuel ts DT.forget ValueLive).bind
        (closeParen ValueLive fuel isMacroDefined) := by
  rw [EvaluateValue]
  congr 1
  funext r
  obtain ⟨Result, ts, DT⟩ := r
  cases ts with
  | nil => rfl
  | cons t ts => cases t <;> rfl

theorem readsOperand_parens {ts : List (Token w)} {e : Expr w} (h : Reads isMacroDefined 3 ts e) :
    ReadsOperand isMacroDefined (.l_paren :: ts ++ [.r_paren]) e := by
  intro fuel rest DT ValueLive hfuel
  obtain ⟨fuel, rfl⟩ : ∃ n, fuel = n + 1 := ⟨fuel - 1, by omega⟩
  have htokens : .l_paren :: ts ++ [.r_paren] ++ rest = .l_paren :: (ts ++ .r_paren :: rest) := by
    simp
  rw [htokens, length_cons] at hfuel
  rw [htokens, evaluateValue_paren]
  have hread := h 1 fuel (.r_paren :: rest) 0 DT.forget ValueLive
    (·.IncludedUndefinedIds) (by omega) (by omega) rfl ⟨by omega, by omega⟩
  unfold readFrom at hread
  cases hvalue : EvaluateValue isMacroDefined fuel (ts ++ .r_paren :: rest)
      DT.forget ValueLive with
  | stuck =>
    rw [hvalue] at hread
    rcases hread with ⟨-, diag, flag, hread⟩ | ⟨V, fuel', flag, hfuel', -, hread⟩
    · cases hread
    · rw [subExpr_stop (p := 0) (by omega) rfl (by omega)] at hread
      cases hread
  | error diag flag =>
    rw [hvalue] at hread
    rcases hread with ⟨hfails, -⟩ | ⟨V, fuel', flag, hfuel', -, hread⟩
    · exact Or.inl ⟨hfails, diag, flag, rfl⟩
    · rw [subExpr_stop (p := 0) (by omega) rfl (by omega)] at hread
      cases hread
  | done r =>
    obtain ⟨Result, ts', DT'⟩ := r
    have hpos : 0 < fuel := by omega
    rw [hvalue] at hread
    by_cases hclose : ∃ tail, ts' = .r_paren :: tail
    · obtain ⟨tail, rfl⟩ := hclose
      have hstop := @subExpr_stop w isMacroDefined fuel 1 0 Result (.r_paren :: tail) ValueLive
        DT'.IncludedUndefinedIds hpos rfl (by omega)
      rcases hread with ⟨-, diag, flag, hread⟩ | ⟨V, fuel', flag, hfuel', hV, hread⟩
      · cases hstop.symm.trans hread
      · rw [subExpr_stop (p := 0) (by omega) rfl (by omega)] at hread
        cases hstop.symm.trans hread
        exact Or.inr ⟨⟨none, Result.Val⟩, _, hV, rfl⟩
    · have hclose' : closeParen ValueLive fuel isMacroDefined (Result, ts', DT') =
          (EvaluateDirectiveSubExpr isMacroDefined fuel Result 1 ts' ValueLive
            DT'.IncludedUndefinedIds).bind fun (Result, ts, IncludedUndefinedIds) =>
            match ts with
            | .r_paren :: ts =>
              .done (⟨none, Result.Val⟩, ts, ⟨.Unknown, DT'.TheMacro, IncludedUndefinedIds⟩)
            | _ => .error .err_pp_expected_rparen IncludedUndefinedIds := by
        cases ts' with
        | nil => rfl
        | cons t ts' =>
          cases t with
          | r_paren => exact absurd ⟨ts', rfl⟩ hclose
          | _ => rfl
      show Fails isMacroDefined e ValueLive ∧ (closeParen _ _ _ _).IsError ∨ ∃ V DT'',
        _ ∧ closeParen _ _ _ _ = _
      rw [hclose']
      rcases hread with ⟨hfails, hread⟩ | ⟨V, fuel', flag, hfuel', hV, hread⟩
      · exact Or.inl ⟨hfails, hread.bind _⟩
      · rw [subExpr_stop (p := 0) (by omega) rfl (by omega)] at hread
        change EvaluateDirectiveSubExpr isMacroDefined fuel Result 1 ts' ValueLive
          DT'.IncludedUndefinedIds = _ at hread
        rw [hread]
        exact Or.inr ⟨⟨none, V.Val⟩, _, hV, rfl⟩

theorem reads_of_readsOperand {n : Nat} {ts : List (Token w)} {e : Expr w}
    (h : ReadsOperand isMacroDefined ts e) : Reads isMacroDefined n ts e := by
  intro MinPrec fuel rest p DT ValueLive flagOf hmin hfuel hp hstops
  rw [readFrom]
  rcases h fuel rest DT ValueLive hfuel with ⟨hfails, herror⟩ | ⟨V, DT', hV, hdone⟩
  · exact Or.inl ⟨hfails, herror.bind _⟩
  · rw [hdone]
    rw [length_append] at hfuel
    exact Or.inr ⟨V, fuel, flagOf DT', by omega, hV, rfl⟩

theorem reads_of_derives {n : Nat} {ts : List (Token w)} {e : Expr w} (h : Derives n ts e) :
    (n = 15 → ReadsOperand isMacroDefined ts e) ∧ Reads isMacroDefined n ts e := by
  induction h with
  | literal value isUnsigned =>
    have hreads : ReadsOperand isMacroDefined [.numeric_constant value isUnsigned]
        (.literal value isUnsigned) :=
      @readsOperand_of_done w _ _ _ ⟨value, isUnsigned || value.msb⟩ rfl rfl
        fun _ _ _ _ => ⟨_, _, rfl⟩
    exact ⟨fun _ => hreads, reads_of_readsOperand hreads⟩
  | kw_true =>
    have hreads : ReadsOperand isMacroDefined [.kw_true] (.boolean true : Expr w) :=
      @readsOperand_of_done w _ _ _ ⟨APInt.ofBool w true, false⟩ rfl rfl
        fun _ _ _ _ => ⟨_, _, rfl⟩
    exact ⟨fun _ => hreads, reads_of_readsOperand hreads⟩
  | kw_false =>
    have hreads : ReadsOperand isMacroDefined [.kw_false] (.boolean false : Expr w) :=
      @readsOperand_of_done w _ _ _ ⟨APInt.ofBool w false, false⟩ rfl rfl
        fun _ _ _ _ => ⟨_, _, rfl⟩
    exact ⟨fun _ => hreads, reads_of_readsOperand hreads⟩
  | identifier name hname =>
    have hreads : ReadsOperand isMacroDefined [.identifier name] (.identifier name : Expr w) :=
      @readsOperand_of_done w _ _ _ (APSInt.zero w false) rfl rfl
        fun _ _ _ _ => ⟨_, _, if_neg hname⟩
    exact ⟨fun _ => hreads, reads_of_readsOperand hreads⟩
  | defined token name htoken =>
    have hreads : ReadsOperand isMacroDefined [.identifier "defined", token] (.defined name) :=
      @readsOperand_of_done w _ _ _ ⟨APInt.ofBool w (isMacroDefined name), false⟩ rfl rfl
        fun _ _ _ _ => ⟨_, _, by
          exact evaluateDefined_eq _ _ htoken⟩
    exact ⟨fun _ => hreads, reads_of_readsOperand hreads⟩
  | definedParens token name htoken =>
    have hreads : ReadsOperand isMacroDefined
        [.identifier "defined", .l_paren, token, .r_paren] (.defined name) :=
      @readsOperand_of_done w _ _ _ ⟨APInt.ofBool w (isMacroDefined name), false⟩ rfl rfl
        fun _ _ _ _ => ⟨_, _, by
          rw [cons_append, EvaluateValue, if_pos rfl]
          exact evaluateDefined_parens _ _ htoken⟩
    exact ⟨fun _ => hreads, reads_of_readsOperand hreads⟩
  | parens _ ih =>
    have hreads := readsOperand_parens ih.2
    exact ⟨fun _ => hreads, reads_of_readsOperand hreads⟩
  | unary op _ ih =>
    have hreads := @readsOperand_unary w _ op _ _ (ih.1 rfl)
    exact ⟨fun _ => hreads, reads_of_readsOperand hreads⟩
  | binary op _ _ ihl ihr =>
    have hbounds := level_bounds op
    exact ⟨fun hn => by omega, reads_binary ihl.2 ihr.2⟩
  | conditional _ _ _ ihc ihy ihn =>
    exact ⟨fun hn => by omega, reads_conditional ihc.2 ihy.2 ihn.2⟩
  | up hlow hhigh _ ih =>
    refine ⟨fun hn => by omega, ?_⟩
    intro MinPrec fuel rest p DT ValueLive flagOf hmin hfuel hp hstops
    obtain ⟨hle, hfour⟩ := hstops
    exact ih.2 MinPrec fuel rest p DT ValueLive flagOf (by omega) hfuel hp
      ⟨by omega, fun h => by omega⟩

end Zapcc.Lex
