import Zapcc.Lex.MacroDirective
import Zapcc.Support.APSInt

/-!
# The evaluator of `#if` expressions

`PPExpressions.cpp`: `EvaluateValue` reads an operand, and `EvaluateDirectiveSubExpr` reads the
operators after it by precedence and evaluates as it goes. The tokens are the ones that `Lex`
returns up to the end of the directive, so an identifier here is one that was not expanded. The
first of them is `PeekTok`, and no token is the end of the directive. An integer literal comes with
the value that `NumericLiteralParser` reads.

The recursion has fuel, and a run is stuck when the fuel is out or when an operation has no result.
-/

namespace Zapcc.Lex

/-- A preprocessor token of a directive, with values of `w` bits. -/
inductive Token (w : Nat) where
  | numeric_constant (Val : BitVec w) (isUnsigned : Bool)
  | identifier (II : IdentifierInfo)
  | kw_true
  | kw_false
  | l_paren
  | r_paren
  | comma
  | colon
  | question
  | plus
  | minus
  | star
  | slash
  | percent
  | lessless
  | greatergreater
  | less
  | lessequal
  | greater
  | greaterequal
  | equalequal
  | exclaimequal
  | amp
  | caret
  | pipe
  | ampamp
  | pipepipe
  | tilde
  | exclaim
  /-- A token that has no place in an expression. -/
  | unknown
  deriving DecidableEq

/-- The errors that the evaluator reports. -/
inductive PPExprError where
  | err_pp_missing_macro_name
  | err_pp_macro_not_identifier
  | err_pp_expected_after
  | err_pp_expr_bad_token_start_expr
  | err_pp_expected_value_in_expr
  | err_pp_expected_rparen
  | err_pp_expr_bad_token_lparen (II : IdentifierInfo)
  | err_pp_expr_bad_token_binop
  | err_pp_remainder_by_zero
  | err_pp_division_by_zero
  | err_expected
  | err_pp_colon_without_question
  | err_pp_expected_eol
  deriving DecidableEq

/-- How a run of the evaluator ends. An error comes with the flag that tells whether an identifier
was not defined, as it stands then. -/
inductive Run (α : Type) where
  | stuck
  | error (diag : PPExprError) (IncludedUndefinedIds : Bool)
  | done (a : α)
  deriving DecidableEq

/-- Go on with the result of a run. -/
def Run.bind {α β : Type} (r : Run α) (f : α → Run β) : Run β :=
  match r with
  | .stuck => .stuck
  | .error diag IncludedUndefinedIds => .error diag IncludedUndefinedIds
  | .done a => f a

/-- A run with a flag of its own: an error leaves the flag of the caller. -/
def Run.keepFlag {α : Type} (r : Run α) (IncludedUndefinedIds : Bool) : Run α :=
  match r with
  | .error diag _ => .error diag IncludedUndefinedIds
  | r => r

/-- A run that has a result if the operation has one. -/
def Run.ofOption {α : Type} : Option α → Run α
  | none => .stuck
  | some a => .done a

/-- A value, and the identifier when it is only that. -/
structure PPValue (w : Nat) where
  II : Option IdentifierInfo
  Val : APSInt w
  deriving DecidableEq

namespace DefinedTracker

/-- What a value is known to be. -/
inductive TrackerState where
  | DefinedMacro
  | NotDefinedMacro
  | Unknown
  deriving DecidableEq

end DefinedTracker

/-- Whether a value is `defined(X)` or `!defined(X)`, and for which macro. -/
structure DefinedTracker where
  State : DefinedTracker.TrackerState
  TheMacro : Option IdentifierInfo
  IncludedUndefinedIds : Bool
  deriving DecidableEq

namespace DefinedTracker

/-- The tracker of a value that has not been read. -/
def start : DefinedTracker := ⟨.Unknown, none, false⟩

/-- The tracker of a value that is not known. -/
def forget (DT : DefinedTracker) : DefinedTracker := { DT with State := .Unknown }

/-- The tracker of the negation of a value. -/
def negate (DT : DefinedTracker) : DefinedTracker :=
  { DT with
    State :=
      match DT.State with
      | .DefinedMacro => .NotDefinedMacro
      | .NotDefinedMacro => .DefinedMacro
      | .Unknown => .Unknown }

end DefinedTracker

variable {w : Nat}

def Token.getIdentifierInfo : Token w → Option IdentifierInfo
  | .identifier II => some II
  | .kw_true => some "true"
  | .kw_false => some "false"
  | _ => none

/-- The precedence of a binary operator, zero at the end of an expression. -/
def getPrecedence : Option (Token w) → Option Nat
  | some .percent | some .slash | some .star => some 14
  | some .plus | some .minus => some 13
  | some .lessless | some .greatergreater => some 12
  | some .lessequal | some .less | some .greaterequal | some .greater => some 11
  | some .exclaimequal | some .equalequal => some 10
  | some .amp => some 9
  | some .caret => some 8
  | some .pipe => some 7
  | some .ampamp => some 6
  | some .pipepipe => some 5
  | some .question => some 4
  | some .comma => some 3
  | some .colon => some 2
  | some .r_paren => some 0
  | none => some 0
  | _ => none

def diagnoseUnexpectedOperator (LHS : PPValue w) (PeekTok : Option (Token w)) : PPExprError :=
  match PeekTok, LHS.II with
  | some .l_paren, some II => .err_pp_expr_bad_token_lparen II
  | _, _ => .err_pp_expr_bad_token_binop

def CheckMacroName (IncludedUndefinedIds : Bool) :
    List (Token w) → Run (IdentifierInfo × List (Token w))
  | [] => .error .err_pp_missing_macro_name IncludedUndefinedIds
  | MacroNameTok :: ts =>
    match MacroNameTok.getIdentifierInfo with
    | none => .error .err_pp_macro_not_identifier IncludedUndefinedIds
    | some II => .done (II, ts)

/-- Evaluate `defined`, which was read. -/
def EvaluateDefined (isMacroDefined : IdentifierInfo → Bool) (ts : List (Token w))
    (DT : DefinedTracker) : Run (PPValue w × List (Token w) × DefinedTracker) :=
  let result := fun II ts => Run.done
    (⟨none, ⟨APInt.ofBool w (isMacroDefined II), false⟩⟩, ts,
      ⟨.DefinedMacro, some II, !isMacroDefined II⟩)
  match ts with
  | .l_paren :: ts =>
    (CheckMacroName DT.IncludedUndefinedIds ts).bind fun (II, ts) =>
      match ts with
      | .r_paren :: ts => result II ts
      | _ => .error .err_pp_expected_after (!isMacroDefined II)
  | ts => (CheckMacroName DT.IncludedUndefinedIds ts).bind fun (II, ts) => result II ts

/-- Whether the right operand of an operator is evaluated. -/
def RHSIsLive (Operator : Token w) (LHS : APSInt w) (ValueLive : Bool) : Bool :=
  match Operator with
  | .ampamp => if LHS.Val = 0#w then false else ValueLive
  | .pipepipe => if LHS.Val ≠ 0#w then false else ValueLive
  | .question => if LHS.Val = 0#w then false else ValueLive
  | _ => ValueLive

/-- The least precedence that the right operand of an operator takes in. -/
def RHSPrec (Operator : Token w) (ThisPrec : Nat) : Nat :=
  match Operator with
  | .question => 3
  | _ => ThisPrec + 1

/-- Whether the operands of an operator are converted to one type. -/
def hasUsualConversions : Token w → Bool
  | .question | .lessless | .greatergreater | .comma | .pipepipe | .ampamp => false
  | _ => true

/-- The signedness that both operands are converted to. -/
def usualConversion (Operator : Token w) (LHS RHS x : APSInt w) : APSInt w :=
  if hasUsualConversions Operator then x.setIsUnsigned (LHS.IsUnsigned || RHS.IsUnsigned) else x

/-- The amount of a right shift: the low 32 bits of the right operand. -/
def shiftAmount (RHS : BitVec w) : Nat := APInt.getLimitedValue RHS (2 ^ 64 - 1) % 2 ^ 32

/-- The operators other than `?`, on converted operands. `Res` holds the converted zero. -/
def evaluateOperator (Operator : Token w) (LHS RHS Res : APSInt w) (ValueLive : Bool) :
    Run (APSInt w) :=
  let truth := fun b => Run.done (⟨APInt.ofBool w b, false⟩ : APSInt w)
  match Operator with
  | .percent =>
    if RHS.Val ≠ 0#w then .ofOption (LHS.rem RHS)
    else if ValueLive then .error .err_pp_remainder_by_zero false
    else .done Res
  | .slash =>
    if RHS.Val ≠ 0#w then
      if LHS.IsUnsigned = false then .ofOption ((APInt.sdiv_ov LHS.Val RHS.Val).map (⟨·, false⟩))
      else .ofOption (LHS.div RHS)
    else if ValueLive then .error .err_pp_division_by_zero false
    else .done Res
  | .star =>
    .done (if Res.IsUnsigned = false then ⟨APInt.smul_ov LHS.Val RHS.Val, false⟩
      else ⟨LHS.Val * RHS.Val, LHS.IsUnsigned⟩)
  | .lessless =>
    .done (if LHS.IsUnsigned then Res.assign (APInt.ushl_ov LHS.Val RHS.Val)
      else ⟨APInt.sshl_ov LHS.Val RHS.Val, false⟩)
  | .greatergreater =>
    let ShAmt := shiftAmount RHS.Val
    .done (LHS.shr (if w ≤ ShAmt then w - 1 else ShAmt))
  | .plus =>
    .done (if LHS.IsUnsigned then ⟨LHS.Val + RHS.Val, LHS.IsUnsigned⟩
      else ⟨APInt.sadd_ov LHS.Val RHS.Val, false⟩)
  | .minus =>
    .done (if LHS.IsUnsigned then ⟨LHS.Val - RHS.Val, LHS.IsUnsigned⟩
      else ⟨APInt.ssub_ov LHS.Val RHS.Val, false⟩)
  | .lessequal => truth (LHS.le RHS)
  | .less => truth (LHS.lt RHS)
  | .greaterequal => truth (LHS.ge RHS)
  | .greater => truth (LHS.gt RHS)
  | .exclaimequal => truth (LHS.Val != RHS.Val)
  | .equalequal => truth (LHS.Val == RHS.Val)
  | .amp => .done ⟨LHS.Val &&& RHS.Val, LHS.IsUnsigned⟩
  | .caret => .done ⟨LHS.Val ^^^ RHS.Val, LHS.IsUnsigned⟩
  | .pipe => .done ⟨LHS.Val ||| RHS.Val, LHS.IsUnsigned⟩
  | .ampamp => truth (LHS.Val != 0#w && RHS.Val != 0#w)
  | .pipepipe => truth (LHS.Val != 0#w || RHS.Val != 0#w)
  | .comma => .done RHS
  | .colon => .error .err_pp_colon_without_question false
  | _ => .stuck

/-- Convert the operands, and evaluate an operator other than `?`. -/
def applyOperator (Operator : Token w) (LHS RHS : APSInt w) (ValueLive : Bool) : Run (APSInt w) :=
  evaluateOperator Operator (usualConversion Operator LHS RHS LHS)
    (usualConversion Operator LHS RHS RHS)
    (usualConversion Operator LHS RHS (APSInt.zero w true)) ValueLive

mutual
/-- Evaluate the operand at `PeekTok`. -/
def EvaluateValue (isMacroDefined : IdentifierInfo → Bool) :
    Nat → List (Token w) → DefinedTracker → Bool → Run (PPValue w × List (Token w) × DefinedTracker)
  | 0, _, _, _ => .stuck
  | fuel + 1, ts, DT, ValueLive =>
    let DT := DT.forget
    match ts with
    | [] => .error .err_pp_expected_value_in_expr DT.IncludedUndefinedIds
    | .r_paren :: _ => .error .err_pp_expected_value_in_expr DT.IncludedUndefinedIds
    | .numeric_constant Val isUnsigned :: ts =>
      .done (⟨none, ⟨Val, isUnsigned || Val.msb⟩⟩, ts, DT)
    | .identifier II :: ts =>
      if II = "defined" then EvaluateDefined isMacroDefined ts DT
      else .done (⟨some II, APSInt.zero w false⟩, ts, { DT with IncludedUndefinedIds := true })
    | .l_paren :: ts =>
      (EvaluateValue isMacroDefined fuel ts DT ValueLive).bind fun (Result, ts, DT) =>
        match ts with
        | .r_paren :: ts => .done (⟨none, Result.Val⟩, ts, DT)
        | ts =>
          (EvaluateDirectiveSubExpr isMacroDefined fuel Result 1 ts ValueLive
            DT.IncludedUndefinedIds).bind fun (Result, ts, IncludedUndefinedIds) =>
            match ts with
            | .r_paren :: ts =>
              .done (⟨none, Result.Val⟩, ts, ⟨.Unknown, DT.TheMacro, IncludedUndefinedIds⟩)
            | _ => .error .err_pp_expected_rparen IncludedUndefinedIds
    | .plus :: ts =>
      (EvaluateValue isMacroDefined fuel ts DT ValueLive).bind fun (Result, ts, DT) =>
        .done (⟨none, Result.Val⟩, ts, DT)
    | .minus :: ts =>
      (EvaluateValue isMacroDefined fuel ts DT ValueLive).bind fun (Result, ts, DT) =>
        .done (⟨none, ⟨-Result.Val.Val, Result.Val.IsUnsigned⟩⟩, ts, DT.forget)
    | .tilde :: ts =>
      (EvaluateValue isMacroDefined fuel ts DT ValueLive).bind fun (Result, ts, DT) =>
        .done (⟨none, ⟨~~~Result.Val.Val, Result.Val.IsUnsigned⟩⟩, ts, DT.forget)
    | .exclaim :: ts =>
      (EvaluateValue isMacroDefined fuel ts DT ValueLive).bind fun (Result, ts, DT) =>
        .done (⟨none, ⟨APInt.ofBool w (Result.Val.Val == 0#w), false⟩⟩, ts, DT.negate)
    | .kw_true :: ts => .done (⟨some "true", ⟨APInt.ofBool w true, false⟩⟩, ts, DT)
    | .kw_false :: ts => .done (⟨some "false", ⟨APInt.ofBool w false, false⟩⟩, ts, DT)
    | _ :: _ => .error .err_pp_expr_bad_token_start_expr DT.IncludedUndefinedIds

/-- Evaluate the operators of at least some precedence that follow the operand `LHS`. The loop
starts again with the result as `LHS`, at a token that was found to be an operator. -/
def EvaluateDirectiveSubExpr (isMacroDefined : IdentifierInfo → Bool) :
    Nat → PPValue w → Nat → List (Token w) → Bool → Bool → Run (PPValue w × List (Token w) × Bool)
  | 0, _, _, _, _, _ => .stuck
  | fuel + 1, LHS, MinPrec, ts, ValueLive, IncludedUndefinedIds =>
    match getPrecedence ts.head? with
    | none => .error (diagnoseUnexpectedOperator LHS ts.head?) IncludedUndefinedIds
    | some ThisPrec =>
      if ThisPrec < MinPrec then .done (LHS, ts, IncludedUndefinedIds)
      else
        match ts with
        | [] => .stuck
        | Operator :: ts =>
          let live := RHSIsLive Operator LHS.Val ValueLive
          ((EvaluateValue isMacroDefined fuel ts .start live).keepFlag IncludedUndefinedIds).bind
          fun (RHS, ts, DT) =>
            match getPrecedence ts.head? with
            | none => .error (diagnoseUnexpectedOperator RHS ts.head?) DT.IncludedUndefinedIds
            | some PeekPrec =>
              (if RHSPrec Operator ThisPrec ≤ PeekPrec then
                EvaluateDirectiveSubExpr isMacroDefined fuel RHS (RHSPrec Operator ThisPrec) ts live
                  DT.IncludedUndefinedIds
              else .done (RHS, ts, DT.IncludedUndefinedIds)).bind
              fun (RHS, ts, IncludedUndefinedIds) =>
                match Operator with
                | .question =>
                  match ts with
                  | .colon :: ts =>
                    let AfterColonLive := ValueLive && LHS.Val.Val == 0#w
                    ((EvaluateValue isMacroDefined fuel ts .start AfterColonLive).keepFlag
                      IncludedUndefinedIds).bind fun (AfterColonVal, ts, _) =>
                      (EvaluateDirectiveSubExpr isMacroDefined fuel AfterColonVal ThisPrec ts
                        AfterColonLive IncludedUndefinedIds).bind
                      fun (AfterColonVal, ts, IncludedUndefinedIds) =>
                        let Res := if LHS.Val.Val ≠ 0#w then RHS.Val else AfterColonVal.Val
                        let Res :=
                          Res.setIsUnsigned (RHS.Val.IsUnsigned || AfterColonVal.Val.IsUnsigned)
                        EvaluateDirectiveSubExpr isMacroDefined fuel ⟨LHS.II, Res⟩ MinPrec ts
                          ValueLive IncludedUndefinedIds
                  | _ => .error .err_expected IncludedUndefinedIds
                | Operator =>
                  ((applyOperator Operator LHS.Val RHS.Val ValueLive).keepFlag
                    IncludedUndefinedIds).bind fun Res =>
                    EvaluateDirectiveSubExpr isMacroDefined fuel ⟨LHS.II, Res⟩ MinPrec ts ValueLive
                      IncludedUndefinedIds
end

/-- What the evaluation of a directive gives: the truth of the value, whether an identifier was
not defined, the macro `X` of an expression `!defined(X)`, and the error that was reported. -/
structure DirectiveEvalResult where
  Conditional : Bool
  IncludedUndefinedIds : Bool
  IfNDefMacro : Option IdentifierInfo
  reported : Option PPExprError
  deriving DecidableEq

/-- The part of `EvaluateDirectiveExpression` after the first operand. -/
def evaluateAfterValue (isMacroDefined : IdentifierInfo → Bool) (fuel : Nat) (ResVal : PPValue w)
    (ts : List (Token w)) (DT : DefinedTracker) : Run DirectiveEvalResult :=
  match ts with
  | [] =>
    .done ⟨ResVal.Val.Val != 0#w, DT.IncludedUndefinedIds,
      if DT.State = .NotDefinedMacro then DT.TheMacro else none, none⟩
  | ts =>
    match EvaluateDirectiveSubExpr isMacroDefined fuel ResVal 4 ts true DT.IncludedUndefinedIds with
    | .stuck => .stuck
    | .error diag IncludedUndefinedIds => .done ⟨false, IncludedUndefinedIds, none, some diag⟩
    | .done (ResVal, ts, IncludedUndefinedIds) =>
      .done ⟨ResVal.Val.Val != 0#w, IncludedUndefinedIds, none,
        if ts = [] then none else some .err_pp_expected_eol⟩

/-- Evaluate the expression of a `#if` or `#elif` directive. -/
def EvaluateDirectiveExpression (isMacroDefined : IdentifierInfo → Bool) (ts : List (Token w)) :
    Run DirectiveEvalResult :=
  match EvaluateValue isMacroDefined (ts.length + 1) ts .start true with
  | .stuck => .stuck
  | .error diag IncludedUndefinedIds => .done ⟨false, IncludedUndefinedIds, none, some diag⟩
  | .done (ResVal, ts', DT) => evaluateAfterValue isMacroDefined (ts.length + 1) ResVal ts' DT

theorem subExpr_stop {isMacroDefined : IdentifierInfo → Bool} {fuel MinPrec p : Nat}
    {LHS : PPValue w} {ts : List (Token w)} {ValueLive flag : Bool} (hfuel : 0 < fuel)
    (hp : getPrecedence ts.head? = some p) (hlt : p < MinPrec) :
    EvaluateDirectiveSubExpr isMacroDefined fuel LHS MinPrec ts ValueLive flag =
      .done (LHS, ts, flag) := by
  obtain ⟨fuel, rfl⟩ : ∃ n, fuel = n + 1 := ⟨fuel - 1, by omega⟩
  rw [EvaluateDirectiveSubExpr, hp]
  exact if_pos hlt

end Zapcc.Lex
