import Zapcc.Lex.ExpressionCompleteness

/-!
# What the evaluator accepts

Where the evaluator has a result, the tokens that it read are an expression of the grammar
(`evaluate_sound`), and with as much fuel as there are tokens it never gets stuck
(`evaluate_total`). Both are proved by induction on the fuel.
-/

namespace Zapcc.Lex

variable {w : Nat} {isMacroDefined : IdentifierInfo → Bool}

theorem derives_of_le {n m : Nat} {ts : List (Token w)} {e : Expr w} (h : Derives n ts e)
    (hm : 3 ≤ m) (hle : m ≤ n) (hn : n ≤ 15) : Derives m ts e := by
  obtain ⟨d, rfl⟩ := Nat.exists_eq_add_of_le hle
  clear hle
  induction d with
  | zero => exact h
  | succ d ih => exact ih (.up (by omega) (by omega) h) (by omega)

theorem getPrecedence_le {t : Option (Token w)} {p : Nat} (h : getPrecedence t = some p) :
    p ≤ 14 := by
  cases t with
  | none =>
    have : 0 = p := Option.some.inj h
    omega
  | some t =>
    rcases Nat.eq_zero_or_pos p with rfl | hpos
    · omega
    · rcases operator_of_getPrecedence h hpos with ⟨-, rfl⟩ | ⟨-, rfl⟩ | ⟨op, -, rfl⟩
      · omega
      · omega
      · have := level_bounds op
        omega

theorem Run.bind_eq_done {α β : Type} {r : Run α} {f : α → Run β} {b : β}
    (h : r.bind f = .done b) : ∃ a, r = .done a ∧ f a = .done b := by
  cases r with
  | stuck | error diag flag => cases h
  | done a => exact ⟨a, rfl, h⟩

theorem Run.keepFlag_eq_done {α : Type} {r : Run α} {flag : Bool} {a : α}
    (h : r.keepFlag flag = .done a) : r = .done a := by
  cases r with
  | stuck | error diag flag => cases h
  | done a => exact h

/-- What the evaluator of operands accepts, with some fuel. -/
def ValueSound (isMacroDefined : IdentifierInfo → Bool) (w fuel : Nat) : Prop :=
  ∀ (ts : List (Token w)) DT ValueLive V rest DT',
    EvaluateValue isMacroDefined fuel ts DT ValueLive = .done (V, rest, DT') →
      ∃ consumed e, ts = consumed ++ rest ∧ Derives 15 consumed e

/-- What the loop over the operators accepts behind an expression, with some fuel. -/
def SubExprSound (isMacroDefined : IdentifierInfo → Bool) (w fuel : Nat) : Prop :=
  ∀ (LHS : PPValue w) MinPrec ts ValueLive flag V rest flag' before e k,
    EvaluateDirectiveSubExpr isMacroDefined fuel LHS MinPrec ts ValueLive flag =
      .done (V, rest, flag') →
    Derives k before e → 1 ≤ MinPrec → MinPrec ≤ k → 3 ≤ k → k ≤ 15 →
    (∀ p, getPrecedence ts.head? = some p → Stops k p) → ∃ consumed e' p, ts = consumed ++ rest ∧
        Derives (max 3 MinPrec) (before ++ consumed) e' ∧
        getPrecedence rest.head? = some p ∧ p < MinPrec

theorem checkMacroName_done {flag : Bool} {ts : List (Token w)}
    {r : IdentifierInfo × List (Token w)} (h : CheckMacroName flag ts = .done r) :
    ∃ token, ts = token :: r.2 ∧ token.getIdentifierInfo = some r.1 := by
  cases ts with
  | nil => cases h
  | cons token ts =>
    rw [CheckMacroName] at h
    cases hinfo : token.getIdentifierInfo with
    | none =>
      rw [hinfo] at h
      cases h
    | some II =>
      rw [hinfo] at h
      cases h
      exact ⟨token, rfl, hinfo⟩

theorem evaluateDefined_sound {ts rest : List (Token w)} {DT DT' : DefinedTracker} {V : PPValue w}
    (h : EvaluateDefined isMacroDefined ts DT = .done (V, rest, DT')) :
    ∃ consumed e, .identifier "defined" :: ts = consumed ++ rest ∧ Derives 15 consumed e := by
  unfold EvaluateDefined at h
  split at h
  · replace h := Run.bind_eq_done h
    obtain ⟨⟨II, ts'⟩, hcheck, h⟩ := h
    obtain ⟨token, rfl, htoken⟩ := checkMacroName_done hcheck
    dsimp only at h htoken
    split at h
    · cases h
      exact ⟨[.identifier "defined", .l_paren, token, .r_paren], _, rfl,
        .definedParens token II htoken⟩
    · cases h
  · replace h := Run.bind_eq_done h
    obtain ⟨⟨II, ts'⟩, hcheck, h⟩ := h
    obtain ⟨token, rfl, htoken⟩ := checkMacroName_done hcheck
    cases h
    exact ⟨[.identifier "defined", token], _, rfl, .defined token II htoken⟩

theorem readRight_sound {β : Type} {fuel prec : Nat} {ts : List (Token w)} {live flag : Bool}
    {K : PPValue w × List (Token w) × Bool → Run β} {b : β}
    (hvalue : ValueSound isMacroDefined w fuel) (hsub : SubExprSound isMacroDefined w fuel)
    (hprec : 3 ≤ prec) (hprec' : prec ≤ 15)
    (h : (((EvaluateValue isMacroDefined fuel ts .start live).keepFlag flag).bind
      fun (RHS, ts, DT) =>
      match getPrecedence ts.head? with
      | none => .error (diagnoseUnexpectedOperator RHS ts.head?) DT.IncludedUndefinedIds
      | some PeekPrec =>
        (if prec ≤ PeekPrec then
          EvaluateDirectiveSubExpr isMacroDefined fuel RHS prec ts live DT.IncludedUndefinedIds
        else .done (RHS, ts, DT.IncludedUndefinedIds)).bind K) = .done b) :
    ∃ R consumed rest flag' e p, ts = consumed ++ rest ∧ Derives prec consumed e ∧
      getPrecedence rest.head? = some p ∧ p < prec ∧ K (R, rest, flag') = .done b := by
  replace h := Run.bind_eq_done h
  obtain ⟨⟨RHS, ts', DT⟩, hread, h⟩ := h
  obtain ⟨consumed, e, rfl, hder⟩ := hvalue _ _ _ _ _ _ (Run.keepFlag_eq_done hread)
  dsimp only at h
  cases hpeek : getPrecedence ts'.head? with
  | none =>
    rw [hpeek] at h
    cases h
  | some PeekPrec =>
    rw [hpeek] at h
    obtain ⟨⟨R, rest, flag'⟩, hloop, hK⟩ := Run.bind_eq_done h
    by_cases hle : prec ≤ PeekPrec
    · rw [if_pos hle] at hloop
      obtain ⟨more, e', p, rfl, hder', hp, hlt⟩ :=
        hsub _ _ _ _ _ _ _ _ _ _ _ hloop hder (by omega) hprec' (by omega) (Nat.le_refl _)
          fun p hp => ⟨Nat.le_succ_of_le (getPrecedence_le hp), by omega⟩
      rw [Nat.max_eq_right hprec] at hder'
      exact ⟨R, consumed ++ more, rest, flag', e', p, (List.append_assoc _ _ _).symm, hder', hp,
        hlt, hK⟩
    · rw [if_neg hle] at hloop
      cases hloop
      exact ⟨RHS, consumed, ts', _, e, PeekPrec, rfl,
        derives_of_le hder hprec hprec' (Nat.le_refl _), hpeek, by omega, hK⟩

theorem valueSound_succ {fuel : Nat} (hvalue : ValueSound isMacroDefined w fuel)
    (hsub : SubExprSound isMacroDefined w fuel) : ValueSound isMacroDefined w (fuel + 1) := by
  have hunary : ∀ (op : UnaryOp) (ts : List (Token w)) DT ValueLive
      (f : PPValue w × List (Token w) × DefinedTracker →
        Run (PPValue w × List (Token w) × DefinedTracker)) V rest DT',
      (∀ r, ∃ V DT, f r = .done (V, r.2.1, DT)) →
      (EvaluateValue isMacroDefined fuel ts DT ValueLive).bind f = .done (V, rest, DT') →
      ∃ consumed e, op.token :: ts = consumed ++ rest ∧ Derives 15 consumed e := by
    intro op ts DT ValueLive f V rest DT' hf h
    replace h := Run.bind_eq_done h
    obtain ⟨⟨V', rest', DT''⟩, hread, h⟩ := h
    obtain ⟨consumed, e, rfl, hder⟩ := hvalue _ _ _ _ _ _ hread
    obtain ⟨_, _, hdone⟩ := hf (V', rest', DT'')
    cases hdone.symm.trans h
    exact ⟨op.token :: consumed, _, rfl, .unary op hder⟩
  intro ts DT ValueLive V rest DT' h
  cases ts with
  | nil => cases h
  | cons t ts =>
    cases t with
    | numeric_constant value isUnsigned =>
      cases h
      exact ⟨[_], _, rfl, .literal value isUnsigned⟩
    | identifier II =>
      rw [EvaluateValue] at h
      split_ifs at h with hdefined
      · subst hdefined
        exact evaluateDefined_sound h
      · cases h
        exact ⟨[_], _, rfl, .identifier II hdefined⟩
    | kw_true =>
      cases h
      exact ⟨[_], _, rfl, .kw_true⟩
    | kw_false =>
      cases h
      exact ⟨[_], _, rfl, .kw_false⟩
    | plus => exact hunary .plus ts _ _ _ _ _ _ (fun r => ⟨_, _, rfl⟩) h
    | minus => exact hunary .minus ts _ _ _ _ _ _ (fun r => ⟨_, _, rfl⟩) h
    | tilde => exact hunary .complement ts _ _ _ _ _ _ (fun r => ⟨_, _, rfl⟩) h
    | exclaim => exact hunary .not ts _ _ _ _ _ _ (fun r => ⟨_, _, rfl⟩) h
    | l_paren =>
      rw [evaluateValue_paren] at h
      replace h := Run.bind_eq_done h
      obtain ⟨⟨Result, ts', DT''⟩, hread, h⟩ := h
      obtain ⟨consumed, e, rfl, hder⟩ := hvalue _ _ _ _ _ _ hread
      unfold closeParen at h
      split at h
      · next heq =>
        cases heq
        cases h
        exact ⟨.l_paren :: consumed ++ [.r_paren], e, by simp,
          .parens (derives_of_le hder (by omega) (by omega) (by omega))⟩
      · next heq =>
        cases heq
        replace h := Run.bind_eq_done h
        obtain ⟨⟨Result', ts'', flag⟩, hloop, h⟩ := h
        obtain ⟨more, e', p, rfl, hder', -, -⟩ :=
          hsub _ _ _ _ _ _ _ _ _ _ _ hloop hder (by omega) (by omega) (by omega) (by omega)
            fun p hp => ⟨Nat.le_succ_of_le (getPrecedence_le hp), by omega⟩
        dsimp only at h
        split at h
        · cases h
          exact ⟨.l_paren :: (consumed ++ more) ++ [.r_paren], e', by simp, .parens hder'⟩
        · cases h
    | _ => cases h

theorem subExprSound_succ {fuel : Nat} (hvalue : ValueSound isMacroDefined w fuel)
    (hsub : SubExprSound isMacroDefined w fuel) : SubExprSound isMacroDefined w (fuel + 1) := by
  intro LHS MinPrec ts ValueLive flag V rest flag' before e k h hder hmin hmin' hk hk' hstops
  cases hprec : getPrecedence ts.head? with
  | none =>
    rw [EvaluateDirectiveSubExpr, hprec] at h
    cases h
  | some ThisPrec =>
  by_cases hlt : ThisPrec < MinPrec
  · rw [subExpr_stop (by omega) hprec hlt] at h
    cases h
    refine ⟨[], e, ThisPrec, rfl, ?_, hprec, hlt⟩
    rw [List.append_nil]
    exact derives_of_le hder (Nat.le_max_left _ _) (by omega) hk'
  obtain ⟨hle, hfour⟩ := hstops ThisPrec hprec
  cases ts with
  | nil =>
    have : 0 = ThisPrec := Option.some.inj hprec
    omega
  | cons t ts =>
  rcases operator_of_getPrecedence hprec (by omega) with ⟨rfl, rfl⟩ | ⟨rfl, rfl⟩ | ⟨op, rfl, rfl⟩
  · rw [subExpr_question (by omega)] at h
    replace h := readRight_sound hvalue hsub (by omega) (by omega) h
    obtain ⟨Y, yes, rest1, flag1, ey, p1, rfl, hyes, -, -, h⟩ := h
    unfold readConditional at h
    split at h
    · next heq =>
      cases heq
      replace h := Run.bind_eq_done h
      obtain ⟨⟨N, rest2, DT⟩, hread, h⟩ := h
      obtain ⟨no, en, rfl, hno⟩ := hvalue _ _ _ _ _ _ (Run.keepFlag_eq_done hread)
      replace h := Run.bind_eq_done h
      obtain ⟨⟨N', rest3, flag3⟩, hloop, h⟩ := h
      obtain ⟨more, en', p3, rfl, hno', hp3, hlt3⟩ :=
        hsub _ _ _ _ _ _ _ _ _ _ _ hloop hno (by omega) (by omega) (by omega) (by omega)
          fun p hp => ⟨Nat.le_succ_of_le (getPrecedence_le hp), by omega⟩
      have hwhole := Derives.conditional (derives_of_le hder (by omega) (by omega) hk') hyes hno'
      obtain ⟨after, e', p, rfl, hder', hp, hplt⟩ :=
        hsub _ _ _ _ _ _ _ _ _ _ _ h hwhole hmin (by omega) (by omega) (by omega)
          fun p hp => by
            cases hp3.symm.trans hp
            exact ⟨by omega, fun _ => hlt3⟩
      refine ⟨.question :: (yes ++ .colon :: (no ++ more)) ++ after, e', p, by simp, ?_, hp, hplt⟩
      simpa using hder'
    · cases h
  · change (if 2 < MinPrec then _ else _) = _ at h
    rw [if_neg hlt] at h
    replace h := Run.bind_eq_done h
    obtain ⟨⟨RHS, ts', DT⟩, -, h⟩ := h
    dsimp only at h
    cases hpeek : getPrecedence ts'.head? with
    | none =>
      rw [hpeek] at h
      cases h
    | some PeekPrec =>
      rw [hpeek] at h
      replace h := Run.bind_eq_done h
      obtain ⟨⟨R, ts'', flag''⟩, -, h⟩ := h
      cases h
  · have hbounds := level_bounds op
    rw [subExpr_binary (by omega)] at h
    replace h := readRight_sound hvalue hsub (by omega) (by omega) h
    obtain ⟨R, right, rest1, flag1, er, p1, rfl, hright, hp1, hlt1, h⟩ := h
    replace h := Run.bind_eq_done h
    obtain ⟨Res, -, h⟩ := h
    have hwhole := Derives.binary op (derives_of_le hder (by omega) hle hk') hright
    obtain ⟨after, e', p, rfl, hder', hp, hplt⟩ :=
      hsub _ _ _ _ _ _ _ _ _ _ _ h hwhole hmin (by omega) (by omega) (by omega)
        fun p hp => by
          cases hp1.symm.trans hp
          exact ⟨by omega, fun _ => by omega⟩
    refine ⟨op.token :: right ++ after, e', p, by simp, ?_, hp, hplt⟩
    simpa using hder'

theorem evaluate_sound (fuel : Nat) :
    ValueSound isMacroDefined w fuel ∧ SubExprSound isMacroDefined w fuel := by
  induction fuel with
  | zero =>
    refine ⟨?_, ?_⟩
    · intro ts DT ValueLive V rest DT' h
      cases h
    · intro LHS MinPrec ts ValueLive flag V rest flag' before e k h
      cases h
  | succ fuel ih => exact ⟨valueSound_succ ih.1 ih.2, subExprSound_succ ih.1 ih.2⟩

end Zapcc.Lex
