import Zapcc.Lex.ExpressionSoundness

/-!
# The conditional directives of a file

A file is a list of lines. The lexer goes through them with a stack of conditionals, and tells
`MultipleIncludeOpt` what it meets, which decides at the end whether one macro controls the whole
file. `SkipExcludedConditionalBlock` is a loop of its own that goes on from the place where it was
called; here it is the raw mode of the lexer. The effects are the lines that gave tokens or were
directives that did something, conditionals apart.
-/

namespace Zapcc.Lex

/-- The state machine that looks for an include guard. -/
structure MultipleIncludeOpt where
  ReadAnyTokens : Bool
  ImmediatelyAfterTopLevelIfndef : Bool
  DidMacroExpansion : Bool
  TheMacro : Option IdentifierInfo
  DefinedMacro : Option IdentifierInfo
  deriving DecidableEq

namespace MultipleIncludeOpt

/-- The state when a file is opened. -/
def start : MultipleIncludeOpt := ⟨false, false, false, none, none⟩

def resetImmediatelyAfterTopLevelIfndef (opt : MultipleIncludeOpt) : MultipleIncludeOpt :=
  { opt with ImmediatelyAfterTopLevelIfndef := false }

/-- The macro that is defined right after the guard. -/
def SetDefinedMacro (opt : MultipleIncludeOpt) (M : IdentifierInfo) : MultipleIncludeOpt :=
  { opt with DefinedMacro := some M }

/-- The file has no include guard. -/
def Invalidate (opt : MultipleIncludeOpt) : MultipleIncludeOpt :=
  ⟨true, false, opt.DidMacroExpansion, none, none⟩

def ReadToken (opt : MultipleIncludeOpt) : MultipleIncludeOpt :=
  { opt with ReadAnyTokens := true, ImmediatelyAfterTopLevelIfndef := false }

def ExpandedMacro (opt : MultipleIncludeOpt) : MultipleIncludeOpt :=
  { opt with DidMacroExpansion := true }

/-- A top-level `#ifndef` without a token before it. -/
def EnterTopLevelIfndef (opt : MultipleIncludeOpt) (M : IdentifierInfo) : MultipleIncludeOpt :=
  if opt.TheMacro.isSome then opt.Invalidate
  else if opt.DidMacroExpansion then opt.Invalidate
  else
    { opt with
      ReadAnyTokens := true
      ImmediatelyAfterTopLevelIfndef := true
      TheMacro := some M }

def EnterTopLevelConditional (opt : MultipleIncludeOpt) : MultipleIncludeOpt := opt.Invalidate

def ExitTopLevelConditional (opt : MultipleIncludeOpt) : MultipleIncludeOpt :=
  if opt.TheMacro.isNone then opt.Invalidate
  else { opt with ReadAnyTokens := false, ImmediatelyAfterTopLevelIfndef := false }

def GetControllingMacroAtEndOfFile (opt : MultipleIncludeOpt) : Option IdentifierInfo :=
  if opt.ReadAnyTokens then none else opt.TheMacro

end MultipleIncludeOpt

structure PPConditionalInfo where
  WasSkipping : Bool
  FoundNonSkip : Bool
  FoundElse : Bool
  deriving DecidableEq

/-- The macros that are defined. -/
abbrev Macros (Macro : Type) := IdentifierInfo → Option Macro

/-- A line of a file: text, a conditional directive with its tokens, a definition of a macro, or
another directive, with what it does to the macros. -/
inductive Line (Macro : Type) (w : Nat) where
  | text (ts : List (Token w))
  | pp_if (ts : List (Token w))
  | pp_ifdef (ts : List (Token w))
  | pp_ifndef (ts : List (Token w))
  | pp_elif (ts : List (Token w))
  | pp_else
  | pp_endif
  | pp_define (II : IdentifierInfo) (MI : Macro) (hasBody : Bool)
  | directive (effect : Macros Macro → Macros Macro)

structure FileLexer (Macro : Type) (w : Nat) where
  MIOpt : MultipleIncludeOpt
  ConditionalStack : List PPConditionalInfo
  LexingRawMode : Bool
  macros : Macros Macro
  /-- The lines that gave tokens or had an effect. -/
  effects : List (Line Macro w)

/-- What the lexer of a file depends on: whether undefined identifiers enter all branches, and the
expansion of macros, which gives the tokens that replace a macro name and what follows it. A name
that is not expanded there, like one of a function-like macro without arguments, has none. -/
structure LexOptions (Macro : Type) (w : Nat) where
  SingleFileParseMode : Bool
  expandMacro : Macros Macro → IdentifierInfo → List (Token w) → Option (List (Token w))

variable {Macro : Type} {w : Nat}

def LexOptions.expand (opts : LexOptions Macro w) (macros : Macros Macro) (t : Token w)
    (ts : List (Token w)) : Option (List (Token w)) :=
  match t.getIdentifierInfo with
  | none => none
  | some II => if (macros II).isSome then opts.expandMacro macros II ts else none

/-- The tokens of the expression of a directive, where the operand of `defined` is not expanded,
and whether a macro was expanded. -/
def LexOptions.lexExpression (opts : LexOptions Macro w) (macros : Macros Macro) :
    List (Token w) → List (Token w) × Bool
  | [] => ([], false)
  | .identifier "defined" :: .l_paren :: t :: ts =>
    let (rest, expanded) := opts.lexExpression macros ts
    (.identifier "defined" :: .l_paren :: t :: rest, expanded)
  | .identifier "defined" :: t :: ts =>
    let (rest, expanded) := opts.lexExpression macros ts
    (.identifier "defined" :: t :: rest, expanded)
  | t :: ts =>
    match opts.expand macros t ts with
    | some ts => (ts, true)
    | none =>
      let (rest, expanded) := opts.lexExpression macros ts
      (t :: rest, expanded)

/-- Whether a macro is expanded in some text. -/
def LexOptions.expandsIn (opts : LexOptions Macro w) (macros : Macros Macro) :
    List (Token w) → Bool
  | [] => false
  | t :: ts => (opts.expand macros t ts).isSome || opts.expandsIn macros ts

/-- Evaluate the expression of a directive, which always has a result, and say whether a macro was
expanded. -/
def LexOptions.evaluate (opts : LexOptions Macro w) (macros : Macros Macro)
    (ts : List (Token w)) : DirectiveEvalResult × Bool :=
  let (ts, expanded) := opts.lexExpression macros ts
  match EvaluateDirectiveExpression (fun II => (macros II).isSome) ts with
  | .done r => (r, expanded)
  | _ => (⟨false, false, none, none⟩, expanded)

namespace FileLexer

def start (macros : Macros Macro) : FileLexer Macro w := ⟨.start, [], false, macros, []⟩

/-- Change the state of the search for a guard. -/
def onMIOpt (s : FileLexer Macro w) (f : MultipleIncludeOpt → MultipleIncludeOpt) :
    FileLexer Macro w :=
  { s with MIOpt := f s.MIOpt }

def pushConditionalLevel (s : FileLexer Macro w)
    (WasSkipping FoundNonSkip FoundElse : Bool) : FileLexer Macro w :=
  { s with ConditionalStack := ⟨WasSkipping, FoundNonSkip, FoundElse⟩ :: s.ConditionalStack }

def noteExpansion (s : FileLexer Macro w) (expanded : Bool) : FileLexer Macro w :=
  if expanded then s.onMIOpt .ExpandedMacro else s

def noteEffect (s : FileLexer Macro w) (line : Line Macro w) : FileLexer Macro w :=
  { s with effects := s.effects ++ [line] }

/-- Open a conditional, and skip its contents from here on. -/
def SkipExcludedConditionalBlock (s : FileLexer Macro w) (FoundNonSkipPortion FoundElse : Bool) :
    FileLexer Macro w :=
  { s.pushConditionalLevel false FoundNonSkipPortion FoundElse with LexingRawMode := true }

def HandleIfdefDirective (opts : LexOptions Macro w) (s : FileLexer Macro w) (ts : List (Token w))
    (isIfndef ReadAnyTokensBeforeDirective : Bool) : FileLexer Macro w :=
  match CheckMacroName false ts with
  | .done (MII, _) =>
    let undefined := (s.macros MII).isNone
    let s :=
      if s.ConditionalStack = [] then
        if !ReadAnyTokensBeforeDirective && undefined then s.onMIOpt (·.EnterTopLevelIfndef MII)
        else s.onMIOpt .EnterTopLevelConditional
      else s
    if opts.SingleFileParseMode && undefined then s.pushConditionalLevel false false false
    else if undefined = isIfndef then s.pushConditionalLevel false true false
    else s.SkipExcludedConditionalBlock false false
  | _ => s.SkipExcludedConditionalBlock false false

def HandleIfDirective (opts : LexOptions Macro w) (s : FileLexer Macro w) (ts : List (Token w))
    (ReadAnyTokensBeforeDirective : Bool) : FileLexer Macro w :=
  let (DER, expanded) := opts.evaluate s.macros ts
  let s := s.noteExpansion expanded
  let s :=
    if s.ConditionalStack = [] then
      match DER.IfNDefMacro with
      | some IfNDefMacro =>
        if !ReadAnyTokensBeforeDirective && DER.Conditional then
          s.onMIOpt (·.EnterTopLevelIfndef IfNDefMacro)
        else s.onMIOpt .EnterTopLevelConditional
      | none => s.onMIOpt .EnterTopLevelConditional
    else s
  if opts.SingleFileParseMode && DER.IncludedUndefinedIds then
    s.pushConditionalLevel false false false
  else if DER.Conditional then s.pushConditionalLevel false true false
  else s.SkipExcludedConditionalBlock false false

def HandleEndifDirective (s : FileLexer Macro w) : FileLexer Macro w :=
  match s.ConditionalStack with
  | [] => s
  | _ :: stack =>
    let s := { s with ConditionalStack := stack }
    if stack = [] then s.onMIOpt .ExitTopLevelConditional else s

/-- A `#else` behind a branch that was entered. -/
def HandleElseDirective (opts : LexOptions Macro w) (s : FileLexer Macro w) : FileLexer Macro w :=
  match s.ConditionalStack with
  | [] => s
  | CI :: stack =>
    let s := { s with ConditionalStack := stack }
    let s := if stack = [] then s.onMIOpt .EnterTopLevelConditional else s
    if opts.SingleFileParseMode && !CI.FoundNonSkip then s.pushConditionalLevel false false true
    else s.SkipExcludedConditionalBlock true true

/-- A `#elif` behind a branch that was entered. -/
def HandleElifDirective (opts : LexOptions Macro w) (s : FileLexer Macro w) : FileLexer Macro w :=
  match s.ConditionalStack with
  | [] => s
  | CI :: stack =>
    let s := { s with ConditionalStack := stack }
    let s := if stack = [] then s.onMIOpt .EnterTopLevelConditional else s
    if opts.SingleFileParseMode && !CI.FoundNonSkip then s.pushConditionalLevel false false false
    else s.SkipExcludedConditionalBlock true CI.FoundElse

def HandleDefineDirective (s : FileLexer Macro w) (II : IdentifierInfo) (MI : Macro)
    (hasBody ImmediatelyAfterHeaderGuard : Bool) : FileLexer Macro w :=
  let s := if !hasBody && ImmediatelyAfterHeaderGuard then s.onMIOpt (·.SetDefinedMacro II) else s
  { s with macros := fun M => if M = II then some MI else s.macros M }

def HandleDirective (opts : LexOptions Macro w) (s : FileLexer Macro w) (line : Line Macro w) :
    FileLexer Macro w :=
  let ImmediatelyAfterTopLevelIfndef := s.MIOpt.ImmediatelyAfterTopLevelIfndef
  let ReadAnyTokensBeforeDirective := s.MIOpt.ReadAnyTokens
  let s := s.onMIOpt fun opt => opt.resetImmediatelyAfterTopLevelIfndef.ReadToken
  match line with
  | .text _ => s
  | .pp_if ts => s.HandleIfDirective opts ts ReadAnyTokensBeforeDirective
  | .pp_ifdef ts => s.HandleIfdefDirective opts ts false true
  | .pp_ifndef ts => s.HandleIfdefDirective opts ts true ReadAnyTokensBeforeDirective
  | .pp_elif _ => s.HandleElifDirective opts
  | .pp_else => s.HandleElseDirective opts
  | .pp_endif => s.HandleEndifDirective
  | .pp_define II MI hasBody =>
    (s.HandleDefineDirective II MI hasBody ImmediatelyAfterTopLevelIfndef).noteEffect line
  | .directive effect => { s with macros := effect s.macros }.noteEffect line

/-- A line outside of a skipped block. -/
def lexLine (opts : LexOptions Macro w) (s : FileLexer Macro w) (line : Line Macro w) :
    FileLexer Macro w :=
  match line with
  | .text [] => s
  | .text ts =>
    ((s.onMIOpt .ReadToken).noteExpansion (opts.expandsIn s.macros ts)).noteEffect line
  | line => s.HandleDirective opts line

/-- The innermost conditional is met again while its contents are skipped. -/
def skipBranch (s : FileLexer Macro w) (CI : PPConditionalInfo) (stack : List PPConditionalInfo)
    (enter : Bool) : FileLexer Macro w :=
  { s with
    ConditionalStack := { CI with FoundNonSkip := CI.FoundNonSkip || enter } :: stack
    LexingRawMode := !enter }

/-- A line in a skipped block. -/
def skipLine (opts : LexOptions Macro w) (s : FileLexer Macro w) (line : Line Macro w) :
    FileLexer Macro w :=
  match line with
  | .text [] => s
  | line =>
    let s := s.onMIOpt .ReadToken
    match line, s.ConditionalStack with
    | .pp_if _, _ | .pp_ifdef _, _ | .pp_ifndef _, _ => s.pushConditionalLevel true false false
    | .pp_endif, CI :: stack =>
      { s with ConditionalStack := stack, LexingRawMode := CI.WasSkipping }
    | .pp_else, CI :: stack =>
      s.skipBranch { CI with FoundElse := true } stack (!CI.WasSkipping && !CI.FoundNonSkip)
    | .pp_elif ts, CI :: stack =>
      if CI.WasSkipping || CI.FoundNonSkip then s
      else
        let (DER, expanded) := opts.evaluate s.macros ts
        (s.noteExpansion expanded).skipBranch CI stack DER.Conditional
    | _, _ => s

def step (opts : LexOptions Macro w) (s : FileLexer Macro w) (line : Line Macro w) :
    FileLexer Macro w :=
  if s.LexingRawMode then s.skipLine opts line else s.lexLine opts line

def lexFile (opts : LexOptions Macro w) (macros : Macros Macro) (file : List (Line Macro w)) :
    FileLexer Macro w :=
  file.foldl (step opts) (start macros)

end FileLexer

end Zapcc.Lex
