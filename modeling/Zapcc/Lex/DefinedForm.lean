import Zapcc.Lex.ExpressionEvaluation
import Zapcc.Lex.MultipleIncludeOpt

/-!
# Expressions that ask whether a macro is defined

`DefinedTracker` recognises the expressions that are `defined(M)` up to parentheses, `+` and `!`.
Such an expression has no macro name to expand, and its value depends on the definition of `M` only.
-/

namespace Zapcc.Lex

open List

variable {Macro : Type} {w : Nat}

inductive DefinedForm : List (Token w) → Bool → IdentifierInfo → Prop where
  | defined {token M} : token.getIdentifierInfo = some M →
      DefinedForm [.identifier "defined", token] false M
  | definedParens {token M} : token.getIdentifierInfo = some M →
      DefinedForm [.identifier "defined", .l_paren, token, .r_paren] false M
  | parens {ts negated M} : DefinedForm ts negated M →
      DefinedForm (.l_paren :: ts ++ [.r_paren]) negated M
  | plus {ts negated M} : DefinedForm ts negated M → DefinedForm (.plus :: ts) negated M
  | not {ts negated M} : DefinedForm ts negated M → DefinedForm (.exclaim :: ts) (!negated) M

def DefinedTracker.TrackerState.stateOf (negated : Bool) : DefinedTracker.TrackerState :=
  if negated then .NotDefinedMacro else .DefinedMacro

variable {isMacroDefined : IdentifierInfo → Bool}

theorem form_of_defined {ts rest : List (Token w)}
    {DT DT' : DefinedTracker} {V : PPValue w}
    (h : EvaluateDefined isMacroDefined ts DT = .done (V, rest, DT')) :
    ∃ form M, .identifier "defined" :: ts = form ++ rest ∧ DefinedForm form false M ∧
      DT'.State = .DefinedMacro ∧ DT'.TheMacro = some M := by
  unfold EvaluateDefined at h
  split at h
  · replace h := Run.bind_eq_done h
    obtain ⟨⟨II, ts'⟩, hcheck, h⟩ := h
    obtain ⟨token, rfl, htoken⟩ := checkMacroName_done hcheck
    dsimp only at h
    split at h
    · cases h
      exact ⟨[.identifier "defined", .l_paren, token, .r_paren], II, rfl,
        .definedParens htoken, rfl, rfl⟩
    · cases h
  · replace h := Run.bind_eq_done h
    obtain ⟨⟨II, ts'⟩, hcheck, h⟩ := h
    obtain ⟨token, rfl, htoken⟩ := checkMacroName_done hcheck
    cases h
    exact ⟨[.identifier "defined", token], II, rfl, .defined htoken, rfl, rfl⟩

theorem form_of_value {fuel : Nat}
    {ts rest : List (Token w)} {DT DT' : DefinedTracker} {ValueLive : Bool} {V : PPValue w}
    (h : EvaluateValue isMacroDefined fuel ts DT ValueLive = .done (V, rest, DT'))
    (hstate : DT'.State ≠ .Unknown) :
    ∃ form negated M, ts = form ++ rest ∧ DefinedForm form negated M ∧
      DT'.State = .stateOf negated ∧ DT'.TheMacro = some M := by
  induction fuel generalizing ts DT ValueLive V rest DT' with
  | zero => cases h
  | succ fuel ih =>
  cases ts with
  | nil => cases h
  | cons t ts =>
    cases t with
    | identifier II =>
      rw [EvaluateValue] at h
      split_ifs at h with hdefined
      · subst hdefined
        obtain ⟨form, M, hts, hform, hstate', hidentifier⟩ := form_of_defined h
        exact ⟨form, false, M, hts, hform, hstate', hidentifier⟩
      · cases h
        exact absurd rfl hstate
    | l_paren =>
      rw [evaluateValue_paren] at h
      replace h := Run.bind_eq_done h
      obtain ⟨⟨Result, ts', DT''⟩, hread, h⟩ := h
      unfold closeParen at h
      split at h
      · next heq =>
        cases heq
        cases h
        obtain ⟨form, negated, M, rfl, hform, hstate', hidentifier⟩ := ih hread hstate
        exact ⟨.l_paren :: form ++ [.r_paren], negated, M, by simp, .parens hform, hstate',
          hidentifier⟩
      · replace h := Run.bind_eq_done h
        obtain ⟨r, -, h⟩ := h
        dsimp only at h
        split at h
        · cases h
          exact absurd rfl hstate
        · cases h
    | plus =>
      replace h := Run.bind_eq_done h
      obtain ⟨⟨Result, ts', DT''⟩, hread, h⟩ := h
      cases h
      obtain ⟨form, negated, M, rfl, hform, hstate', hidentifier⟩ := ih hread hstate
      exact ⟨.plus :: form, negated, M, rfl, .plus hform, hstate', hidentifier⟩
    | exclaim =>
      replace h := Run.bind_eq_done h
      obtain ⟨⟨Result, ts', DT''⟩, hread, h⟩ := h
      cases h
      have hknown : DT''.State ≠ .Unknown := by
        intro hunknown
        apply hstate
        unfold DefinedTracker.negate
        rw [hunknown]
      obtain ⟨form, negated, M, rfl, hform, hstate', hidentifier⟩ := ih hread hknown
      refine ⟨.exclaim :: form, !negated, M, rfl, .not hform, ?_, hidentifier⟩
      unfold DefinedTracker.negate
      rw [hstate']
      cases negated <;> rfl
    | minus | tilde =>
      replace h := Run.bind_eq_done h
      obtain ⟨r, -, h⟩ := h
      cases h
      exact absurd rfl hstate
    | numeric_constant | kw_true | kw_false =>
      cases h
      exact absurd rfl hstate
    | _ => cases h

theorem form_of_IfNDefMacro {ts : List (Token w)}
    {r : DirectiveEvalResult} {M : IdentifierInfo}
    (h : EvaluateDirectiveExpression isMacroDefined ts = .done r)
    (hidentifier : r.IfNDefMacro = some M) : DefinedForm ts true M := by
  unfold EvaluateDirectiveExpression at h
  split at h
  · cases h
  · cases h
    cases hidentifier
  · next V rest DT hread =>
    unfold evaluateAfterValue at h
    split at h
    · cases h
      split_ifs at hidentifier with hstate
      obtain ⟨form, negated, M', hts, hform, hstate', hidentifier'⟩ :=
        form_of_value hread (by rw [hstate]; exact fun h => nomatch h)
      rw [append_nil] at hts
      cases hidentifier.symm.trans hidentifier'
      rw [hstate] at hstate'
      cases negated with
      | false => cases hstate'
      | true => exact hts ▸ hform
    · split at h
      · cases h
      · cases h
        cases hidentifier
      · cases h
        cases hidentifier

theorem ofBool_bne_zero (b : Bool) : (APInt.ofBool w b != 0#w) = (decide (0 < w) && b) := by
  rcases Nat.eq_zero_or_pos w with rfl | hw
  · simp [Subsingleton.elim (APInt.ofBool 0 b) 0#0]
  · have hone : (1#w != 0#w) = true := by
      rw [bne_iff_ne]
      intro h
      have := congrArg BitVec.toNat h
      rw [BitVec.toNat_ofNat, BitVec.toNat_ofNat, Nat.zero_mod,
        Nat.mod_eq_of_lt (Nat.one_lt_two_pow (by omega))] at this
      omega
    cases b <;> simp [APInt.ofBool, hw, hone]

theorem value_of_form (isMacroDefined : IdentifierInfo → Bool) {form : List (Token w)}
    {negated : Bool} {M : IdentifierInfo} (h : DefinedForm form negated M) :
    ∀ fuel rest DT ValueLive, (form ++ rest).length < fuel →
      ∃ V, EvaluateValue isMacroDefined fuel (form ++ rest) DT ValueLive =
          .done (V, rest, ⟨.stateOf negated, some M, !isMacroDefined M⟩) ∧
        (V.Val.Val != 0#w) = (decide (0 < w) && (isMacroDefined M != negated)) := by
  induction h with
  | @defined token M htoken | @definedParens token M htoken =>
    intro fuel rest DT ValueLive hfuel
    obtain ⟨fuel, rfl⟩ : ∃ n, fuel = n + 1 := ⟨fuel - 1, by omega⟩
    refine ⟨⟨none, ⟨APInt.ofBool w (isMacroDefined M), false⟩⟩, ?_, ?_⟩
    swap
    · rw [ofBool_bne_zero, Bool.bne_false]
    first
    | exact evaluateDefined_eq _ _ htoken
    | exact evaluateDefined_parens _ _ htoken
  | @parens ts negated M _ ih =>
    intro fuel rest DT ValueLive hfuel
    obtain ⟨fuel, rfl⟩ : ∃ n, fuel = n + 1 := ⟨fuel - 1, by omega⟩
    have htokens : .l_paren :: ts ++ [.r_paren] ++ rest =
        .l_paren :: (ts ++ .r_paren :: rest) := by simp
    rw [htokens, length_cons] at hfuel
    obtain ⟨V, hdone, hvalue⟩ := ih fuel (.r_paren :: rest) DT.forget ValueLive (by omega)
    refine ⟨⟨none, V.Val⟩, ?_, hvalue⟩
    rw [htokens, evaluateValue_paren, hdone]
    rfl
  | @plus ts negated M _ ih =>
    intro fuel rest DT ValueLive hfuel
    obtain ⟨fuel, rfl⟩ : ∃ n, fuel = n + 1 := ⟨fuel - 1, by omega⟩
    rw [cons_append, length_cons] at hfuel
    obtain ⟨V, hdone, hvalue⟩ := ih fuel rest DT.forget ValueLive (by omega)
    refine ⟨⟨none, V.Val⟩, ?_, hvalue⟩
    show Run.bind (EvaluateValue isMacroDefined fuel (ts ++ rest) _ ValueLive) _ = _
    rw [hdone]
    rfl
  | @not ts negated M _ ih =>
    intro fuel rest DT ValueLive hfuel
    obtain ⟨fuel, rfl⟩ : ∃ n, fuel = n + 1 := ⟨fuel - 1, by omega⟩
    rw [cons_append, length_cons] at hfuel
    obtain ⟨V, hdone, hvalue⟩ := ih fuel rest DT.forget ValueLive (by omega)
    refine ⟨⟨none, ⟨APInt.ofBool w (V.Val.Val == 0#w), false⟩⟩, ?_, ?_⟩
    · show Run.bind (EvaluateValue isMacroDefined fuel (ts ++ rest) _ ValueLive) _ = _
      rw [hdone]
      cases negated <;> rfl
    · have hzero : (V.Val.Val == 0#w) = !(V.Val.Val != 0#w) := (Bool.not_not _).symm
      rw [ofBool_bne_zero, hzero, hvalue]
      cases decide (0 < w) <;> cases isMacroDefined M <;> cases negated <;> rfl

theorem evaluate_of_form {ts : List (Token w)}
    {M : IdentifierInfo} (h : DefinedForm ts true M) (hdefined : isMacroDefined M = true) :
    ∃ r, EvaluateDirectiveExpression isMacroDefined ts = .done r ∧ r.Conditional = false ∧
      r.IncludedUndefinedIds = false := by
  obtain ⟨V, hdone, hvalue⟩ := value_of_form isMacroDefined h (ts.length + 1) [] .start true
    (by simp)
  rw [append_nil] at hdone
  refine ⟨⟨V.Val.Val != 0#w, !isMacroDefined M, some M, none⟩, ?_, ?_, ?_⟩
  · unfold EvaluateDirectiveExpression
    rw [hdone]
    rfl
  · rw [hvalue, hdefined]
    exact Bool.and_false _
  · rw [hdefined]
    rfl

theorem lexExpression_form (opts : LexOptions Macro w) (macros : Macros Macro)
    {form : List (Token w)} {negated : Bool} {M : IdentifierInfo}
    (h : DefinedForm form negated M) (rest : List (Token w)) :
    opts.lexExpression macros (form ++ rest) =
      (form ++ (opts.lexExpression macros rest).1, (opts.lexExpression macros rest).2) := by
  have hskip : ∀ (t : Token w) ts, t = .l_paren ∨ t = .r_paren ∨ t = .plus ∨ t = .exclaim →
      opts.lexExpression macros (t :: ts) =
        (t :: (opts.lexExpression macros ts).1, (opts.lexExpression macros ts).2) := by
    rintro t ts (rfl | rfl | rfl | rfl) <;> rfl
  induction h generalizing rest with
  | @defined token M htoken =>
    cases token with
    | l_paren => cases htoken
    | _ => rfl
  | @definedParens token M htoken =>
    rfl
  | @parens ts negated M _ ih =>
    have htokens : .l_paren :: ts ++ [.r_paren] ++ rest =
        .l_paren :: (ts ++ .r_paren :: rest) := by simp
    rw [htokens, hskip _ _ (Or.inl rfl), ih, hskip _ _ (Or.inr (Or.inl rfl))]
    simp
  | plus _ ih =>
    rw [cons_append, hskip _ _ (Or.inr (Or.inr (Or.inl rfl))), ih]
    rfl
  | not _ ih =>
    rw [cons_append, hskip _ _ (Or.inr (Or.inr (Or.inr rfl))), ih]
    rfl

theorem lexExpression_eq {opts : LexOptions Macro w} {macros : Macros Macro}
    {ts : List (Token w)} (h : (opts.lexExpression macros ts).2 = false) :
    (opts.lexExpression macros ts).1 = ts := by
  fun_induction LexOptions.lexExpression opts macros ts with
  | case1 => rfl
  | case2 t ts rest expanded heq ih =>
    rw [heq] at ih
    exact congrArg (fun ts => .identifier "defined" :: .l_paren :: t :: ts) (ih h)
  | case3 t ts hparen rest expanded heq ih =>
    rw [heq] at ih
    exact congrArg (fun ts => .identifier "defined" :: t :: ts) (ih h)
  | case4 => cases h
  | case5 t ts _ _ hexpand rest expanded heq ih =>
    rw [heq] at ih
    exact congrArg (t :: ·) (ih h)

theorem evaluate_guard {opts : LexOptions Macro w} {macros : Macros Macro} {ts : List (Token w)}
    {M : IdentifierInfo} (h : DefinedForm ts true M) (hdefined : (macros M).isSome = true) :
    (opts.evaluate macros ts).1.Conditional = false ∧
      (opts.evaluate macros ts).1.IncludedUndefinedIds = false := by
  have hlex := lexExpression_form opts macros h []
  rw [append_nil] at hlex
  obtain ⟨r, hdone, hconditional, hundefined⟩ :=
    @evaluate_of_form w (fun II => (macros II).isSome) ts M h hdefined
  have heq : opts.evaluate macros ts = (r, false) := by
    unfold LexOptions.evaluate
    rw [hlex, show opts.lexExpression macros [] = ([], false) from rfl]
    dsimp only
    rw [append_nil, hdone]
  rw [heq]
  exact ⟨hconditional, hundefined⟩

theorem form_of_evaluate {opts : LexOptions Macro w} {macros : Macros Macro} {ts : List (Token w)}
    {M : IdentifierInfo} (hidentifier : (opts.evaluate macros ts).1.IfNDefMacro = some M)
    (hexpanded : (opts.evaluate macros ts).2 = false) : DefinedForm ts true M := by
  have hlexed := @lexExpression_eq Macro w opts macros ts
  unfold LexOptions.evaluate at hidentifier hexpanded
  cases hlex : opts.lexExpression macros ts with
  | mk ts' expanded =>
    dsimp only at hidentifier hexpanded hlexed
    split at hidentifier
    · next r hdone =>
      rw [hdone] at hexpanded
      rw [hlexed hexpanded] at hdone
      exact form_of_IfNDefMacro hdone hidentifier
    · cases hidentifier

end Zapcc.Lex
