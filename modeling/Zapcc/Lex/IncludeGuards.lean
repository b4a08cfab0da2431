import Zapcc.Lex.DefinedForm

/-!
# Include guards

The main result is `guard_sound`: if every top-level `#ifdef` and `#ifndef` of a file has a macro
name, then the macro that is reported for the file guards all of it, and the file has no effect
while the macro is defined. `Phase` is the invariant of the lexer. A conditional without a macro
name is not reported to `MultipleIncludeOpt`, but its end is (`not_guard_sound`).
-/

namespace Zapcc.Lex

open List Option

variable {Macro : Type} {w : Nat}

namespace Line

def IsBlank : Line Macro w → Prop
  | .text [] => True
  | _ => False

/-- A line that is true if `M` is not defined. -/
def IsGuard (M : IdentifierInfo) : Line Macro w → Prop
  | .pp_ifndef ts => ∃ rest, CheckMacroName false ts = .done (M, rest)
  | .pp_if ts => DefinedForm ts true M
  | _ => False

def Opens : Line Macro w → Prop
  | .pp_if _ | .pp_ifdef _ | .pp_ifndef _ => True
  | _ => False

def IsNamed : Line Macro w → Prop
  | .pp_ifdef ts | .pp_ifndef ts => ∃ r, CheckMacroName false ts = .done r
  | _ => True

/-- The number of open conditionals after a line. -/
def depth : Line Macro w → Nat → Nat
  | .pp_if _, n | .pp_ifdef _, n | .pp_ifndef _, n => n + 1
  | .pp_endif, n => n - 1
  | _, n => n

/-- The number of open conditionals after a line of a branch. It is missing when the line ends the
branch. -/
def nesting (n : Nat) : Line Macro w → Option Nat
  | .pp_if _ | .pp_ifdef _ | .pp_ifndef _ => some (n + 1)
  | .pp_endif => if n = 0 then none else some (n - 1)
  | .pp_else | .pp_elif _ => if n = 0 then none else some n
  | _ => some n

end Line

/-- The number of conditionals that are open after some lines of a branch, if these do not end the
branch. -/
def nesting : Nat → List (Line Macro w) → Option Nat
  | n, [] => some n
  | n, line :: rest => (line.nesting n).bind fun n => nesting n rest

/-- All that is in a file stands between a guard for `M` and its `#endif`, without a `#else` or a
`#elif` that belongs to the guard. -/
def Guarded (M : IdentifierInfo) (file : List (Line Macro w)) : Prop :=
  ∃ before guard body after, file = before ++ guard :: (body ++ .pp_endif :: after) ∧
    (∀ line ∈ before, line.IsBlank) ∧ (∀ line ∈ after, line.IsBlank) ∧ guard.IsGuard M ∧
    nesting 0 body = some 0

/-- Every `#ifdef` and `#ifndef` outside of the conditionals has a macro name. -/
def TopLevelNamed (file : List (Line Macro w)) : Prop :=
  ∀ before line after, file = before ++ line :: after →
    before.foldl (fun n line => line.depth n) 0 = 0 → line.IsNamed

theorem nesting_append (n : Nat) (a b : List (Line Macro w)) :
    nesting n (a ++ b) = (nesting n a).bind fun n => nesting n b := by
  induction a generalizing n with
  | nil => rfl
  | cons line a ih =>
    rw [cons_append, nesting, nesting, bind_assoc]
    congr 1
    funext n
    exact ih n

theorem nesting_concat {n k : Nat} {body : List (Line Macro w)} (h : nesting n body = some k)
    (line : Line Macro w) : nesting n (body ++ [line]) = line.nesting k := by
  rw [nesting_append, h]
  exact bind_fun_some _

namespace FileLexer

/-- The search for a guard has failed. -/
def Dead (s : FileLexer Macro w) : Prop :=
  s.MIOpt.ReadAnyTokens = true ∧ s.MIOpt.TheMacro = none

/-- The lexer skips a conditional that another one contains. -/
def SkipsInside (s : FileLexer Macro w) : Prop :=
  ∃ skipped CI stack, s.ConditionalStack = skipped ++ CI :: stack ∧ stack ≠ [] ∧
    CI.WasSkipping = false ∧ ∀ CI ∈ skipped, CI.WasSkipping = true

/-- The first token of a directive is read. -/
def readDirective (s : FileLexer Macro w) : FileLexer Macro w :=
  s.onMIOpt fun opt => opt.resetImmediatelyAfterTopLevelIfndef.ReadToken

variable {opts : LexOptions Macro w} {s : FileLexer Macro w} {ts : List (Token w)}

/-- A conditional inside of another one is only noted on the stack. -/
structure OpensInside (s r : FileLexer Macro w) : Prop where
  readAnyTokens : r.MIOpt.ReadAnyTokens = s.MIOpt.ReadAnyTokens
  theMacro : r.MIOpt.TheMacro = s.MIOpt.TheMacro
  stack : ∃ CI, CI.WasSkipping = false ∧ r.ConditionalStack = CI :: s.ConditionalStack

/-- The contents of a guard for `M` start. -/
structure Entered (s r : FileLexer Macro w) (M : IdentifierInfo) : Prop where
  theMacro : r.MIOpt.TheMacro = some M
  readAnyTokens : r.MIOpt.ReadAnyTokens = true
  stack : r.ConditionalStack.length = 1
  rawMode : r.LexingRawMode = s.LexingRawMode

/-- A conditional at the top level ends the search, or is a guard that nothing precedes. -/
def EntersGuard (s r : FileLexer Macro w) (before : Bool) (line : Line Macro w) : Prop :=
  r.Dead ∨ before = false ∧ s.MIOpt.TheMacro = none ∧ ∃ M, line.IsGuard M ∧ Entered s r M

theorem enterTopLevelIfndef_cases (hstack : s.ConditionalStack = []) (M : IdentifierInfo) :
    (s.onMIOpt (·.EnterTopLevelIfndef M)).Dead ∨
      s.MIOpt.TheMacro = none ∧ s.MIOpt.DidMacroExpansion = false ∧ ∀ a b c,
        Entered s ((s.onMIOpt (·.EnterTopLevelIfndef M)).pushConditionalLevel a b c) M := by
  unfold onMIOpt Dead MultipleIncludeOpt.EnterTopLevelIfndef
  dsimp only
  by_cases hidentifier : s.MIOpt.TheMacro.isSome = true
  · left
    rw [if_pos hidentifier]
    exact ⟨rfl, rfl⟩
  · by_cases hexpanded : s.MIOpt.DidMacroExpansion = true
    · left
      rw [if_neg hidentifier, if_pos hexpanded]
      exact ⟨rfl, rfl⟩
    · right
      refine ⟨by simpa using hidentifier, Bool.eq_false_of_not_eq_true hexpanded, fun a b c => ?_⟩
      rw [if_neg hidentifier, if_neg hexpanded]
      refine ⟨rfl, rfl, ?_, rfl⟩
      rw [hstack]
      rfl

theorem ifdef_inside {isIfndef before : Bool} (hstack : s.ConditionalStack ≠ []) :
    OpensInside s (s.HandleIfdefDirective opts ts isIfndef before) := by
  unfold HandleIfdefDirective
  split
  · dsimp only
    split_ifs
    · exact ⟨rfl, rfl, _, rfl, rfl⟩
    · exact ⟨rfl, rfl, _, rfl, rfl⟩
    · exact ⟨rfl, rfl, _, rfl, rfl⟩
  · exact ⟨rfl, rfl, _, rfl, rfl⟩

theorem if_inside {before : Bool} (hstack : s.ConditionalStack ≠ []) :
    OpensInside s (s.HandleIfDirective opts ts before) := by
  have hstack' : ∀ expanded, (s.noteExpansion expanded).ConditionalStack = s.ConditionalStack := by
    intro expanded
    cases expanded <;> rfl
  have hopens : ∀ expanded, OpensInside s
        ((s.noteExpansion expanded).pushConditionalLevel false false false) ∧
      OpensInside s ((s.noteExpansion expanded).pushConditionalLevel false true false) ∧
      OpensInside s ((s.noteExpansion expanded).SkipExcludedConditionalBlock false false) := by
    intro expanded
    cases expanded <;>
      exact ⟨⟨rfl, rfl, _, rfl, rfl⟩, ⟨rfl, rfl, _, rfl, rfl⟩, ⟨rfl, rfl, _, rfl, rfl⟩⟩
  obtain ⟨hall, hentered, hskipped⟩ := hopens (opts.evaluate s.macros ts).2
  unfold HandleIfDirective
  dsimp only
  rw [hstack', if_neg hstack]
  split_ifs
  · exact hall
  · exact hentered
  · exact hskipped

theorem ifdef_top {isIfndef before : Bool} {line : Line Macro w}
    (hline : isIfndef = true → line = .pp_ifndef ts) (hbefore : isIfndef = false → before = true)
    (hstack : s.ConditionalStack = []) (hnamed : ∃ r, CheckMacroName false ts = .done r) :
    EntersGuard s (s.HandleIfdefDirective opts ts isIfndef before) before line := by
  obtain ⟨⟨MII, rest⟩, hname⟩ := hnamed
  unfold HandleIfdefDirective
  rw [hname]
  dsimp only
  rw [if_pos hstack]
  by_cases hguard : (!before && (s.macros MII).isNone) = true
  · rw [if_pos hguard]
    rw [Bool.and_eq_true, Bool.not_eq_true'] at hguard
    obtain ⟨hfirst, hundefined⟩ := hguard
    have hindef : isIfndef = true := by
      cases isIfndef with
      | true => rfl
      | false => exact absurd ((hbefore rfl).symm.trans hfirst) (by decide)
    rcases enterTopLevelIfndef_cases hstack MII with hdead | ⟨hidentifier, -, hentered⟩
    · left
      split_ifs <;> exact hdead
    · right
      refine ⟨hfirst, hidentifier, MII, ?_, ?_⟩
      · rw [hline hindef]
        exact ⟨rest, hname⟩
      · rw [hundefined, hindef]
        by_cases hsingle : (opts.SingleFileParseMode && true) = true
        · rw [if_pos hsingle]
          exact hentered _ _ _
        · rw [if_neg hsingle, if_pos rfl]
          exact hentered _ _ _
  · left
    split_ifs <;> exact ⟨rfl, rfl⟩

theorem if_top {before : Bool} (hstack : s.ConditionalStack = []) :
    EntersGuard s (s.HandleIfDirective opts ts before) before (.pp_if ts) := by
  unfold HandleIfDirective
  dsimp only
  have hform := @form_of_evaluate Macro w opts s.macros ts
  cases heval : opts.evaluate s.macros ts with
  | mk DER expanded =>
  rw [heval] at hform
  have hstack' : (s.noteExpansion expanded).ConditionalStack = [] := by
    cases expanded <;> exact hstack
  rw [if_pos hstack']
  cases hidentifier : DER.IfNDefMacro with
  | none =>
    left
    dsimp only
    split_ifs <;> exact ⟨rfl, rfl⟩
  | some M =>
    dsimp only
    by_cases hguard : (!before && DER.Conditional) = true
    · rw [if_pos hguard]
      rw [Bool.and_eq_true, Bool.not_eq_true'] at hguard
      obtain ⟨hfirst, htrue⟩ := hguard
      rcases enterTopLevelIfndef_cases hstack' M with hdead | ⟨hnone, hfresh, hentered⟩
      · left
        split_ifs <;> exact hdead
      · right
        cases expanded with
        | true => cases hfresh
        | false =>
          refine ⟨hfirst, hnone, M, hform hidentifier rfl, ?_⟩
          rw [htrue]
          by_cases hsingle : (opts.SingleFileParseMode && DER.IncludedUndefinedIds) = true
          · rw [if_pos hsingle]
            exact hentered _ _ _
          · rw [if_neg hsingle, if_pos rfl]
            exact hentered _ _ _
    · left
      split_ifs <;> exact ⟨rfl, rfl⟩

theorem dead_ifdef {isIfndef : Bool} (h : s.Dead) :
    (s.HandleIfdefDirective opts ts isIfndef true).Dead := by
  unfold HandleIfdefDirective
  split
  · simp only [Bool.not_true, Bool.false_and, Bool.false_eq_true, if_false]
    split_ifs <;> first | exact h | exact ⟨rfl, rfl⟩
  · exact h

theorem dead_noteExpansion (h : s.Dead) (expanded : Bool) : (s.noteExpansion expanded).Dead := by
  cases expanded <;> exact h

theorem dead_if (h : s.Dead) : (s.HandleIfDirective opts ts true).Dead := by
  unfold HandleIfDirective
  cases opts.evaluate s.macros ts with
  | mk DER expanded =>
    have h' := dead_noteExpansion h expanded
    cases hidentifier : DER.IfNDefMacro <;>
      simp only [hidentifier, Bool.not_true, Bool.false_and, Bool.false_eq_true, if_false] <;>
      split_ifs <;> first | exact h' | exact ⟨rfl, rfl⟩

theorem dead_step (h : s.Dead) (line : Line Macro w) : (s.step opts line).Dead := by
  have hread : (s.onMIOpt .ReadToken).Dead := ⟨rfl, h.2⟩
  have hdirective : s.readDirective.Dead := ⟨rfl, h.2⟩
  unfold step
  split_ifs
  · unfold skipLine
    split
    · exact h
    · dsimp only
      split
      · exact hread
      · exact hread
      · exact hread
      · exact hread
      · exact hread
      · split_ifs
        · exact hread
        · exact dead_noteExpansion hread _
      · exact hread
  · unfold lexLine
    split
    · exact h
    · exact dead_noteExpansion hread _
    · unfold HandleDirective
      dsimp only
      rw [h.1]
      split
      · exact hdirective
      · exact dead_if hdirective
      · exact dead_ifdef hdirective
      · exact dead_ifdef hdirective
      · unfold HandleElifDirective
        split
        · exact hdirective
        · split_ifs <;> first | exact hdirective | exact ⟨rfl, rfl⟩
      · unfold HandleElseDirective
        split
        · exact hdirective
        · split_ifs <;> first | exact hdirective | exact ⟨rfl, rfl⟩
      · unfold HandleEndifDirective
        split
        · exact hdirective
        · dsimp only
          split_ifs
          · unfold onMIOpt Dead MultipleIncludeOpt.ExitTopLevelConditional
            have hnone :
                s.MIOpt.resetImmediatelyAfterTopLevelIfndef.ReadToken.TheMacro.isNone = true :=
              isNone_iff_eq_none.mpr h.2
            rw [if_pos hnone]
            exact ⟨rfl, rfl⟩
          · exact hdirective
      · unfold HandleDefineDirective
        split_ifs <;> exact hdirective
      · exact hdirective

/-- What the lexer has found out about the lines so far. -/
inductive Phase (lines : List (Line Macro w)) (s : FileLexer Macro w) : Prop where
  /-- Nothing stands before the guard. -/
  | fresh : (∀ line ∈ lines, line.IsBlank) → s.MIOpt.TheMacro = none →
      s.MIOpt.ReadAnyTokens = false → s.ConditionalStack = [] → s.LexingRawMode = false →
      Phase lines s
  /-- The lexer is inside of the guard. -/
  | inside (M before guard body depth) : lines = before ++ guard :: body →
      (∀ line ∈ before, line.IsBlank) → guard.IsGuard M → nesting 0 body = some depth →
      s.MIOpt.TheMacro = some M → s.MIOpt.ReadAnyTokens = true →
      s.ConditionalStack.length = depth + 1 → (s.LexingRawMode = true → s.SkipsInside) →
      Phase lines s
  /-- The guard has ended, and nothing stands after it. -/
  | after (M) : Guarded M lines → s.MIOpt.TheMacro = some M → s.MIOpt.ReadAnyTokens = false →
      s.ConditionalStack = [] → s.LexingRawMode = false → Phase lines s
  /-- Something stands after the guard. -/
  | passed : s.MIOpt.ReadAnyTokens = true → s.ConditionalStack = [] → s.LexingRawMode = false →
      Phase lines s
  | dead : s.Dead → Phase lines s

theorem stray_eq (hstack : s.ConditionalStack = []) :
    s.HandleElifDirective opts = s ∧ s.HandleElseDirective opts = s ∧
      s.HandleEndifDirective = s := by
  unfold HandleElifDirective HandleElseDirective HandleEndifDirective
  rw [hstack]
  exact ⟨rfl, rfl, rfl⟩

theorem noteExpansion_eq (s : FileLexer Macro w) (expanded : Bool) :
    (s.noteExpansion expanded).ConditionalStack = s.ConditionalStack ∧
      (s.noteExpansion expanded).LexingRawMode = s.LexingRawMode ∧
      (s.noteExpansion expanded).MIOpt.ReadAnyTokens = s.MIOpt.ReadAnyTokens ∧
      (s.noteExpansion expanded).MIOpt.TheMacro = s.MIOpt.TheMacro := by
  cases expanded <;> exact ⟨rfl, rfl, rfl, rfl⟩

theorem define_eq (s : FileLexer Macro w) (II : IdentifierInfo) (MI : Macro) (hasBody b : Bool) :
    (s.HandleDefineDirective II MI hasBody b).ConditionalStack = s.ConditionalStack ∧
      (s.HandleDefineDirective II MI hasBody b).LexingRawMode = s.LexingRawMode ∧
      (s.HandleDefineDirective II MI hasBody b).MIOpt.ReadAnyTokens = s.MIOpt.ReadAnyTokens ∧
      (s.HandleDefineDirective II MI hasBody b).MIOpt.TheMacro = s.MIOpt.TheMacro := by
  unfold HandleDefineDirective
  split_ifs <;> exact ⟨rfl, rfl, rfl, rfl⟩

theorem step_blank {line : Line Macro w} (h : line.IsBlank) : s.step opts line = s := by
  cases line with
  | text ts =>
    cases ts with
    | nil =>
      unfold step
      split_ifs <;> rfl
    | cons t ts => cases h
  | _ => cases h

variable {lines : List (Line Macro w)}

theorem phase_fresh {line : Line Macro w}
    (hlines : ∀ line ∈ lines, line.IsBlank) (hidentifier : s.MIOpt.TheMacro = none)
    (hread : s.MIOpt.ReadAnyTokens = false) (hstack : s.ConditionalStack = [])
    (hraw : s.LexingRawMode = false) (hblank : ¬line.IsBlank) :
    Phase (lines ++ [line]) (s.step opts line) := by
  have hdead : s.readDirective.Dead := ⟨rfl, hidentifier⟩
  have henters : ∀ {r : FileLexer Macro w}, EntersGuard s.readDirective r false line →
      Phase (lines ++ [line]) r := by
    rintro r (hr | ⟨-, -, M, hguard, hr⟩)
    · exact .dead hr
    · exact .inside M lines line [] 0 rfl hlines hguard rfl hr.theMacro hr.readAnyTokens hr.stack
        fun h => absurd (h.symm.trans (hr.rawMode.trans hraw)) (by decide)
  obtain ⟨helif, helse, hendif⟩ := @stray_eq Macro w opts s.readDirective hstack
  unfold step
  rw [if_neg (by rw [hraw]; decide)]
  cases line with
  | text ts =>
    cases ts with
    | nil => exact absurd trivial hblank
    | cons t ts =>
      exact .dead (dead_noteExpansion (s := s.onMIOpt .ReadToken) ⟨rfl, hidentifier⟩ _)
  | pp_if ts =>
    show Phase _ (s.readDirective.HandleIfDirective opts ts s.MIOpt.ReadAnyTokens)
    rw [hread]
    exact henters (if_top hstack)
  | pp_ifdef ts => exact .dead (dead_ifdef hdead)
  | pp_ifndef ts =>
    show Phase _ (s.readDirective.HandleIfdefDirective opts ts true s.MIOpt.ReadAnyTokens)
    rw [hread]
    cases hname : CheckMacroName false ts with
    | done r =>
      exact henters (ifdef_top (fun _ => rfl) (fun h => nomatch h) hstack ⟨r, hname⟩)
    | _ =>
      refine .dead ?_
      unfold HandleIfdefDirective
      rw [hname]
      exact hdead
  | pp_elif ts =>
    show Phase _ (s.readDirective.HandleElifDirective opts)
    rw [helif]
    exact .dead hdead
  | pp_else =>
    show Phase _ (s.readDirective.HandleElseDirective opts)
    rw [helse]
    exact .dead hdead
  | pp_endif =>
    show Phase _ s.readDirective.HandleEndifDirective
    rw [hendif]
    exact .dead hdead
  | pp_define II MI hasBody =>
    obtain ⟨-, -, hread', hidentifier'⟩ := define_eq s.readDirective II MI hasBody
      s.MIOpt.ImmediatelyAfterTopLevelIfndef
    exact .dead ⟨hread', hidentifier'.trans hidentifier⟩
  | directive effect => exact .dead hdead

theorem phase_outside {line : Line Macro w}
    (hbefore : s.MIOpt.ReadAnyTokens = true ∨ s.MIOpt.TheMacro ≠ none)
    (hstack : s.ConditionalStack = []) (hraw : s.LexingRawMode = false)
    (hblank : ¬line.IsBlank) (hnamed : line.IsNamed) :
    Phase (lines ++ [line]) (s.step opts line) := by
  have houtside : ∀ {r : FileLexer Macro w} {before : Bool} {line' : Line Macro w},
      before = true ∨ before = s.MIOpt.ReadAnyTokens →
      EntersGuard s.readDirective r before line' → Phase (lines ++ [line]) r := by
    rintro r before line' hflag (hr | ⟨rfl, hnone, -⟩)
    · exact .dead hr
    · rcases hflag with hflag | hflag
      · cases hflag
      · rcases hbefore with hbefore | hbefore
        · cases hflag.trans hbefore
        · exact absurd hnone hbefore
  obtain ⟨helif, helse, hendif⟩ := @stray_eq Macro w opts s.readDirective hstack
  unfold step
  rw [if_neg (by rw [hraw]; decide)]
  cases line with
  | text ts =>
    cases ts with
    | nil => exact absurd trivial hblank
    | cons t ts =>
      obtain ⟨hstack', hraw', hread', -⟩ := noteExpansion_eq (s.onMIOpt .ReadToken)
        (opts.expandsIn s.macros (t :: ts))
      exact .passed hread' (hstack'.trans hstack) (hraw'.trans hraw)
  | pp_if ts => exact houtside (Or.inr rfl) (if_top hstack)
  | pp_ifdef ts =>
    exact houtside (Or.inl rfl) (@ifdef_top Macro w opts s.readDirective ts false true
      (.pp_ifdef ts) (fun h => nomatch h) (fun _ => rfl) hstack hnamed)
  | pp_ifndef ts =>
    exact houtside (Or.inr rfl) (ifdef_top (fun _ => rfl) (fun h => nomatch h) hstack hnamed)
  | pp_elif ts =>
    show Phase _ (s.readDirective.HandleElifDirective opts)
    rw [helif]
    exact .passed rfl hstack hraw
  | pp_else =>
    show Phase _ (s.readDirective.HandleElseDirective opts)
    rw [helse]
    exact .passed rfl hstack hraw
  | pp_endif =>
    show Phase _ s.readDirective.HandleEndifDirective
    rw [hendif]
    exact .passed rfl hstack hraw
  | pp_define II MI hasBody =>
    obtain ⟨hstack', hraw', hread', -⟩ := define_eq s.readDirective II MI hasBody
      s.MIOpt.ImmediatelyAfterTopLevelIfndef
    exact .passed hread' (hstack'.trans hstack) (hraw'.trans hraw)
  | directive effect => exact .passed rfl hstack hraw

variable {M : IdentifierInfo}

theorem phase_inside_live {before body : List (Line Macro w)} {guard line : Line Macro w}
    {depth : Nat} (hbefore : ∀ line ∈ before, line.IsBlank)
    (hguard : guard.IsGuard M) (hnesting : nesting 0 body = some depth)
    (hidentifier : s.MIOpt.TheMacro = some M) (hstack : s.ConditionalStack.length = depth + 1)
    (hraw : s.LexingRawMode = false) (hblank : ¬line.IsBlank) :
    Phase (before ++ guard :: body ++ [line]) (s.step opts line) := by
  have hne : s.ConditionalStack ≠ [] := ne_nil_of_length_pos (by omega)
  have happend : before ++ guard :: body ++ [line] = before ++ guard :: (body ++ [line]) := by simp
  have hconcat := nesting_concat hnesting line
  have hsame : ∀ {r : FileLexer Macro w}, line.nesting depth = some depth →
      r.ConditionalStack = s.ConditionalStack → r.LexingRawMode = s.LexingRawMode →
      r.MIOpt.ReadAnyTokens = true → r.MIOpt.TheMacro = s.MIOpt.TheMacro →
      Phase (before ++ guard :: body ++ [line]) r := by
    intro r hdepth hstack' hraw' hread' hidentifier'
    refine .inside M before guard (body ++ [line]) depth happend hbefore hguard
      (hconcat.trans hdepth) (hidentifier'.trans hidentifier) hread' (hstack' ▸ hstack) fun h => ?_
    exact absurd (h.symm.trans (hraw'.trans hraw)) (by decide)
  have hopens : ∀ {r : FileLexer Macro w}, line.nesting depth = some (depth + 1) →
      OpensInside s.readDirective r → Phase (before ++ guard :: body ++ [line]) r := by
    intro r hdepth hr
    obtain ⟨CI, hCI, hstack'⟩ := hr.stack
    refine .inside M before guard (body ++ [line]) (depth + 1) happend hbefore hguard
      (hconcat.trans hdepth) (hr.theMacro.trans hidentifier) hr.readAnyTokens ?_ fun _ => ?_
    · rw [hstack', length_cons]
      exact congrArg (· + 1) hstack
    · exact ⟨[], CI, s.ConditionalStack, hstack', hne, hCI, fun _ h => nomatch h⟩
  have hbranch : ∀ {r : FileLexer Macro w},
      line.nesting depth = (if depth = 0 then none else some depth) → (depth = 0 → r.Dead) →
      (depth ≠ 0 → r.MIOpt.TheMacro = some M ∧ r.MIOpt.ReadAnyTokens = true ∧
        ∃ CI, CI.WasSkipping = false ∧ r.ConditionalStack = CI :: s.ConditionalStack.tail) →
      Phase (before ++ guard :: body ++ [line]) r := by
    intro r hdepth htop hnested
    by_cases hzero : depth = 0
    · exact .dead (htop hzero)
    · obtain ⟨hidentifier', hread', CI, hCI, hstack'⟩ := hnested hzero
      have hlength : s.ConditionalStack.tail.length = depth := by
        rw [length_tail]
        omega
      rw [if_neg hzero] at hdepth
      refine .inside M before guard (body ++ [line]) depth happend hbefore hguard
        (hconcat.trans hdepth) hidentifier' hread' ?_ fun _ => ?_
      · rw [hstack', length_cons, hlength]
      · exact ⟨[], CI, _, hstack', ne_nil_of_length_pos (by omega), hCI, fun _ h => nomatch h⟩
  obtain ⟨top, stack, hcons⟩ := exists_cons_of_ne_nil hne
  have hlength : stack.length = depth := by
    rw [hcons, length_cons] at hstack
    omega
  have hzero : stack = [] ↔ depth = 0 := by rw [← hlength, length_eq_zero_iff]
  unfold step
  rw [if_neg (by rw [hraw]; decide)]
  cases line with
  | text ts =>
    cases ts with
    | nil => exact absurd trivial hblank
    | cons t ts =>
      obtain ⟨hstack', hraw', hread', hidentifier'⟩ := noteExpansion_eq (s.onMIOpt .ReadToken)
        (opts.expandsIn s.macros (t :: ts))
      exact hsame rfl hstack' hraw' hread' hidentifier'
  | pp_if ts => exact hopens rfl (if_inside hne)
  | pp_ifdef ts | pp_ifndef ts => exact hopens rfl (ifdef_inside hne)
  | pp_elif ts =>
    show Phase _ (s.readDirective.HandleElifDirective opts)
    unfold HandleElifDirective
    rw [show s.readDirective.ConditionalStack = top :: stack from hcons]
    dsimp only
    refine hbranch rfl (fun h => ?_) (fun h => ?_)
    · rw [if_pos (hzero.mpr h)]
      split_ifs <;> exact ⟨rfl, rfl⟩
    · rw [if_neg fun h' => h (hzero.mp h'), hcons]
      split_ifs <;> exact ⟨hidentifier, rfl, _, rfl, rfl⟩
  | pp_else =>
    show Phase _ (s.readDirective.HandleElseDirective opts)
    unfold HandleElseDirective
    rw [show s.readDirective.ConditionalStack = top :: stack from hcons]
    dsimp only
    refine hbranch rfl (fun h => ?_) (fun h => ?_)
    · rw [if_pos (hzero.mpr h)]
      split_ifs <;> exact ⟨rfl, rfl⟩
    · rw [if_neg fun h' => h (hzero.mp h'), hcons]
      split_ifs <;> exact ⟨hidentifier, rfl, _, rfl, rfl⟩
  | pp_endif =>
    show Phase _ s.readDirective.HandleEndifDirective
    unfold HandleEndifDirective
    rw [show s.readDirective.ConditionalStack = top :: stack from hcons]
    dsimp only
    by_cases hdepth : depth = 0
    · rw [if_pos (hzero.mpr hdepth)]
      subst hdepth
      have hexit : s.readDirective.MIOpt.ExitTopLevelConditional = { s.readDirective.MIOpt with
            ReadAnyTokens := false
            ImmediatelyAfterTopLevelIfndef := false } := by
        unfold MultipleIncludeOpt.ExitTopLevelConditional
        rw [if_neg]
        rw [show s.readDirective.MIOpt.TheMacro = some M from hidentifier]
        exact fun h => nomatch h
      refine .after M ⟨before, guard, body, [], by simp, hbefore, fun _ h => (nomatch h), hguard,
        hnesting⟩ ?_ ?_ (hzero.mpr rfl) hraw
      · exact (congrArg (·.TheMacro) hexit).trans hidentifier
      · exact congrArg (·.ReadAnyTokens) hexit
    · rw [if_neg fun h => hdepth (hzero.mp h)]
      refine .inside M before guard (body ++ [.pp_endif]) (depth - 1) happend hbefore hguard
        (hconcat.trans (if_neg hdepth)) hidentifier rfl (by dsimp only; omega) fun h => ?_
      exact absurd (h.symm.trans hraw) (by decide)
  | pp_define II MI hasBody =>
    obtain ⟨hstack', hraw', hread', hidentifier'⟩ := define_eq s.readDirective II MI hasBody
      s.MIOpt.ImmediatelyAfterTopLevelIfndef
    exact hsame rfl hstack' hraw' hread' hidentifier'
  | directive effect => exact hsame rfl rfl rfl rfl rfl

theorem phase_inside_raw {before body : List (Line Macro w)} {guard line : Line Macro w}
    {depth : Nat} (hbefore : ∀ line ∈ before, line.IsBlank)
    (hguard : guard.IsGuard M) (hnesting : nesting 0 body = some depth)
    (hidentifier : s.MIOpt.TheMacro = some M) (hstack : s.ConditionalStack.length = depth + 1)
    (hraw : s.LexingRawMode = true) (hskips : s.SkipsInside) (hblank : ¬line.IsBlank) :
    Phase (before ++ guard :: body ++ [line]) (s.step opts line) := by
  obtain ⟨skipped, CI, stack, hcons, hne, hCI, hskipped⟩ := hskips
  have happend : before ++ guard :: body ++ [line] = before ++ guard :: (body ++ [line]) := by simp
  have hconcat := nesting_concat hnesting line
  have hpos := length_pos_of_ne_nil hne
  have hdepth : depth ≠ 0 := by
    rw [hcons, length_append, length_cons] at hstack
    omega
  have hinside : ∀ {r : FileLexer Macro w} {depth' : Nat}, line.nesting depth = some depth' →
      r.MIOpt.TheMacro = some M → r.MIOpt.ReadAnyTokens = true →
      r.ConditionalStack.length = depth' + 1 → (r.LexingRawMode = true → r.SkipsInside) →
      Phase (before ++ guard :: body ++ [line]) r :=
    fun hdepth' hidentifier' hread' hstack' hraw' =>
      .inside M before guard (body ++ [line]) _ happend hbefore hguard (hconcat.trans hdepth')
        hidentifier' hread' hstack' hraw'
  unfold step
  rw [if_pos hraw]
  cases line with
  | text ts =>
    cases ts with
    | nil => exact absurd trivial hblank
    | cons t ts =>
      exact hinside rfl hidentifier rfl hstack
        fun _ => ⟨skipped, CI, stack, hcons, hne, hCI, hskipped⟩
  | pp_if ts | pp_ifdef ts | pp_ifndef ts =>
    refine hinside rfl hidentifier rfl (congrArg (· + 1) hstack) fun _ => ?_
    refine ⟨⟨true, false, false⟩ :: skipped, CI, stack, congrArg _ hcons, hne, hCI, ?_⟩
    intro CI' hmem
    rcases mem_cons.mp hmem with rfl | hmem
    · rfl
    · exact hskipped CI' hmem
  | pp_define II MI hasBody | directive effect =>
    exact hinside rfl hidentifier rfl hstack
      fun _ => ⟨skipped, CI, stack, hcons, hne, hCI, hskipped⟩
  | pp_endif =>
    cases skipped with
    | nil =>
      have heq : s.skipLine opts .pp_endif = { s.onMIOpt .ReadToken with
            ConditionalStack := stack
            LexingRawMode := CI.WasSkipping } := by
        unfold skipLine
        dsimp only
        rw [show (s.onMIOpt .ReadToken).ConditionalStack = CI :: stack from hcons]
      rw [heq]
      rw [hcons, nil_append, length_cons] at hstack
      refine hinside (if_neg hdepth) hidentifier rfl (by dsimp only; omega) fun h => ?_
      exact absurd (hCI.symm.trans h) (by decide)
    | cons top skipped =>
      have heq : s.skipLine opts .pp_endif = { s.onMIOpt .ReadToken with
            ConditionalStack := skipped ++ CI :: stack
            LexingRawMode := top.WasSkipping } := by
        unfold skipLine
        dsimp only
        rw [show (s.onMIOpt .ReadToken).ConditionalStack = top :: (skipped ++ CI :: stack) from
          hcons]
      rw [heq]
      rw [hcons, cons_append, length_cons] at hstack
      refine hinside (if_neg hdepth) hidentifier rfl (by dsimp only; omega) fun _ => ?_
      exact ⟨skipped, CI, stack, rfl, hne, hCI, fun CI' h => hskipped CI' (.tail _ h)⟩
  | pp_else =>
    cases skipped with
    | nil =>
      have heq : s.skipLine opts .pp_else = (s.onMIOpt .ReadToken).skipBranch
          { CI with FoundElse := true } stack (!CI.WasSkipping && !CI.FoundNonSkip) := by
        unfold skipLine
        dsimp only
        rw [show (s.onMIOpt .ReadToken).ConditionalStack = CI :: stack from hcons]
      rw [heq]
      rw [hcons, nil_append, length_cons] at hstack
      exact hinside (if_neg hdepth) hidentifier rfl hstack fun _ =>
        ⟨[], _, stack, rfl, hne, hCI, fun _ h => nomatch h⟩
    | cons top skipped =>
      have heq : s.skipLine opts .pp_else = (s.onMIOpt .ReadToken).skipBranch
          { top with FoundElse := true } (skipped ++ CI :: stack)
          (!top.WasSkipping && !top.FoundNonSkip) := by
        unfold skipLine
        dsimp only
        rw [show (s.onMIOpt .ReadToken).ConditionalStack = top :: (skipped ++ CI :: stack) from
          hcons]
      rw [heq]
      rw [hcons, cons_append, length_cons] at hstack
      refine hinside (if_neg hdepth) hidentifier rfl hstack fun _ => ?_
      refine ⟨_ :: skipped, CI, stack, rfl, hne, hCI, ?_⟩
      intro CI' hmem
      rcases mem_cons.mp hmem with rfl | hmem
      · exact hskipped top (.head _)
      · exact hskipped CI' (.tail _ hmem)
  | pp_elif ts =>
    unfold skipLine
    dsimp only
    cases skipped with
    | nil =>
      rw [show (s.onMIOpt .ReadToken).ConditionalStack = CI :: stack from hcons]
      dsimp only
      split_ifs
      · exact hinside (if_neg hdepth) hidentifier rfl hstack fun _ =>
          ⟨[], CI, stack, hcons, hne, hCI, fun _ h => nomatch h⟩
      · obtain ⟨-, -, hread', hidentifier'⟩ := noteExpansion_eq (s.onMIOpt .ReadToken)
          (opts.evaluate (s.onMIOpt .ReadToken).macros ts).2
        rw [hcons, nil_append, length_cons] at hstack
        exact hinside (if_neg hdepth) (hidentifier'.trans hidentifier) hread' hstack fun _ =>
          ⟨[], _, stack, rfl, hne, hCI, fun _ h => nomatch h⟩
    | cons top skipped =>
      have htop := hskipped top (.head _)
      rw [show (s.onMIOpt .ReadToken).ConditionalStack = top :: (skipped ++ CI :: stack) from
        hcons]
      dsimp only
      rw [if_pos (by rw [htop]; rfl)]
      exact hinside (if_neg hdepth) hidentifier rfl hstack fun _ =>
        ⟨top :: skipped, CI, stack, hcons, hne, hCI, hskipped⟩

theorem phase_step {line : Line Macro w} (h : Phase lines s)
    (hnamed : s.ConditionalStack = [] → line.IsNamed) :
    Phase (lines ++ [line]) (s.step opts line) := by
  by_cases hblank : line.IsBlank
  · rw [step_blank hblank]
    cases h with
    | fresh hlines hidentifier hread hstack hraw =>
      refine .fresh (fun line' hmem => ?_) hidentifier hread hstack hraw
      rcases mem_append.mp hmem with hmem | hmem
      · exact hlines line' hmem
      · exact mem_singleton.mp hmem ▸ hblank
    | inside M before guard body depth hlines hbefore hguard hnesting hidentifier hread hstack
        hraw =>
        refine .inside M before guard (body ++ [line]) depth (by rw [hlines]; simp) hbefore hguard
          ((nesting_concat hnesting line).trans ?_) hidentifier hread hstack hraw
        cases line with
        | text ts => rfl
        | _ => cases hblank
    | after M hguarded hidentifier hread hstack hraw =>
      obtain ⟨before, guard, body, after, hlines, hbefore, hafter, hguard, hnesting⟩ := hguarded
      refine .after M ⟨before, guard, body, after ++ [line], by rw [hlines]; simp, hbefore, ?_,
        hguard, hnesting⟩ hidentifier hread hstack hraw
      intro line' hmem
      rcases mem_append.mp hmem with hmem | hmem
      · exact hafter line' hmem
      · exact mem_singleton.mp hmem ▸ hblank
    | passed hread hstack hraw => exact .passed hread hstack hraw
    | dead hdead => exact .dead hdead
  · cases h with
    | fresh hlines hidentifier hread hstack hraw =>
      exact phase_fresh hlines hidentifier hread hstack hraw hblank
    | inside M before guard body depth hlines hbefore hguard hnesting hidentifier hread hstack
        hraw =>
        rw [hlines]
        cases hmode : s.LexingRawMode with
        | false => exact phase_inside_live hbefore hguard hnesting hidentifier hstack hmode hblank
        | true =>
          exact phase_inside_raw hbefore hguard hnesting hidentifier hstack hmode (hraw hmode)
            hblank
    | after M hguarded hidentifier hread hstack hraw =>
      exact phase_outside (Or.inr (by rw [hidentifier]; exact fun h => nomatch h)) hstack hraw
        hblank (hnamed hstack)
    | passed hread hstack hraw =>
      exact phase_outside (Or.inl hread) hstack hraw hblank (hnamed hstack)
    | dead hdead => exact .dead (dead_step hdead line)

theorem step_depth (s : FileLexer Macro w) (line : Line Macro w) :
    (s.step opts line).ConditionalStack.length = line.depth s.ConditionalStack.length := by
  have hnote : ∀ (s : FileLexer Macro w) expanded,
      (s.noteExpansion expanded).ConditionalStack.length = s.ConditionalStack.length := by
    intro s expanded
    rw [(noteExpansion_eq s expanded).1]
  have hifdef : ∀ (s : FileLexer Macro w) ts isIfndef before,
      (s.HandleIfdefDirective opts ts isIfndef before).ConditionalStack.length =
        s.ConditionalStack.length + 1 := by
    intro s ts isIfndef before
    unfold HandleIfdefDirective
    split
    · dsimp only
      split_ifs <;> rfl
    · rfl
  have hif : ∀ (s : FileLexer Macro w) ts before,
      (s.HandleIfDirective opts ts before).ConditionalStack.length =
        s.ConditionalStack.length + 1 := by
    intro s ts before
    unfold HandleIfDirective
    cases opts.evaluate s.macros ts with
    | mk DER expanded =>
      have hpush := congrArg (· + 1) (hnote s expanded)
      cases hidentifier : DER.IfNDefMacro <;> simp only [hidentifier] <;> split_ifs <;>
        exact hpush
  unfold step
  split_ifs
  · have hread : (s.onMIOpt .ReadToken).ConditionalStack = s.ConditionalStack := rfl
    cases line with
    | text ts => cases ts <;> rfl
    | pp_endif | pp_else =>
      unfold skipLine
      cases hcons : s.ConditionalStack <;> simp only [hread, hcons] <;> rfl
    | pp_elif ts =>
      unfold skipLine
      cases hcons : s.ConditionalStack with
      | nil =>
        simp only [hread, hcons]
        rfl
      | cons CI stack =>
        simp only [hread, hcons]
        split_ifs
        · exact congrArg List.length hcons
        · rfl
    | _ => rfl
  · cases line with
    | text ts =>
      cases ts with
      | nil => rfl
      | cons t ts => exact hnote (s.onMIOpt .ReadToken) _
    | pp_if ts => exact hif _ _ _
    | pp_ifdef ts | pp_ifndef ts => exact hifdef _ _ _ _
    | pp_elif ts =>
      show (s.readDirective.HandleElifDirective opts).ConditionalStack.length = _
      unfold HandleElifDirective
      split
      · rfl
      · next CI stack heq =>
        have hlength : s.ConditionalStack.length = stack.length + 1 := congrArg List.length heq
        rw [hlength]
        split_ifs <;> rfl
    | pp_else =>
      show (s.readDirective.HandleElseDirective opts).ConditionalStack.length = _
      unfold HandleElseDirective
      split
      · rfl
      · next CI stack heq =>
        have hlength : s.ConditionalStack.length = stack.length + 1 := congrArg List.length heq
        rw [hlength]
        split_ifs <;> rfl
    | pp_endif =>
      show s.readDirective.HandleEndifDirective.ConditionalStack.length = _
      unfold HandleEndifDirective
      split
      · next heq =>
        have hlength : s.ConditionalStack.length = 0 := congrArg List.length heq
        show s.ConditionalStack.length = s.ConditionalStack.length - 1
        omega
      · next CI stack heq =>
        have hlength : s.ConditionalStack.length = stack.length + 1 := congrArg List.length heq
        rw [hlength]
        split_ifs <;> rfl
    | pp_define II MI hasBody =>
      exact congrArg List.length (define_eq s.readDirective II MI hasBody _).1
    | directive effect => rfl

theorem phase_run {file : List (Line Macro w)} (hnamed : TopLevelNamed file)
    (rest : List (Line Macro w)) : ∀ (lines : List (Line Macro w)) (s : FileLexer Macro w),
    file = lines ++ rest → Phase lines s →
    s.ConditionalStack.length = lines.foldl (fun n line => line.depth n) 0 →
    Phase file (rest.foldl (step opts) s) := by
  induction rest with
  | nil =>
    intro lines s hfile hphase _
    rw [hfile, append_nil]
    exact hphase
  | cons line rest ih =>
    intro lines s hfile hphase hdepth
    refine ih (lines ++ [line]) (s.step opts line) (by rw [hfile]; simp)
      (phase_step hphase fun hstack => ?_) ?_
    · refine hnamed lines line rest hfile ?_
      rw [← hdepth, hstack]
      rfl
    · rw [step_depth, hdepth, foldl_append]
      rfl

theorem run_blank (h : ∀ line ∈ lines, line.IsBlank)
    (s : FileLexer Macro w) : lines.foldl (step opts) s = s := by
  induction lines with
  | nil => rfl
  | cons line lines ih =>
    rw [foldl_cons, step_blank (h line (.head _))]
    exact ih fun line' hmem => h line' (.tail _ hmem)

/-- The lexer skips a whole guarded block. -/
structure Skipping (s : FileLexer Macro w) (macros : Macros Macro) (depth : Nat) : Prop where
  rawMode : s.LexingRawMode = true
  effects : s.effects = []
  macros : s.macros = macros
  stack : ∃ skipped FoundElse, s.ConditionalStack = skipped ++ [⟨false, false, FoundElse⟩] ∧
    skipped.length = depth ∧ ∀ CI ∈ skipped, CI.WasSkipping = true

variable {macros : Macros Macro}

theorem skipping_guard {guard : Line Macro w} (hguard : guard.IsGuard M)
    (hdefined : (macros M).isSome = true) :
    Skipping ((start macros : FileLexer Macro w).step opts guard) macros 0 := by
  cases guard with
  | pp_ifndef ts =>
    obtain ⟨rest, hname⟩ := hguard
    have hsome : ((start macros : FileLexer Macro w).readDirective.macros M).isNone = false := by
      rw [isNone_eq_false_iff]
      exact hdefined
    show Skipping ((start macros : FileLexer Macro w).readDirective.HandleIfdefDirective opts ts
      true _) macros 0
    unfold HandleIfdefDirective
    rw [hname]
    dsimp only
    rw [hsome, Bool.and_false, Bool.and_false]
    rw [if_neg (by decide), if_neg (by decide)]
    split_ifs <;> exact ⟨rfl, rfl, rfl, [], false, rfl, rfl, fun _ h => nomatch h⟩
  | pp_if ts =>
    obtain ⟨hfalse, hknown⟩ := @evaluate_guard Macro w opts macros ts M hguard hdefined
    show Skipping ((start macros : FileLexer Macro w).readDirective.HandleIfDirective opts ts _)
      macros 0
    unfold HandleIfDirective
    rw [show (start macros : FileLexer Macro w).readDirective.macros = macros from rfl]
    cases heval : opts.evaluate macros ts with
    | mk DER expanded =>
      rw [heval] at hfalse hknown
      dsimp only at hfalse hknown ⊢
      rw [hfalse, hknown, Bool.and_false, Bool.and_false]
      cases DER.IfNDefMacro <;> cases expanded <;>
        exact ⟨rfl, rfl, rfl, [], false, rfl, rfl, fun _ h => nomatch h⟩
  | _ => cases hguard

theorem skipping_step {depth depth' : Nat} (h : s.Skipping macros depth)
    {line : Line Macro w} (hline : line.nesting depth = some depth') :
    (s.step opts line).Skipping macros depth' := by
  obtain ⟨hraw, heffects, hidentifiers, skipped, FoundElse, hcons, hlength, hskipped⟩ := h
  unfold step
  rw [if_pos hraw]
  have hsame : depth = depth' → (s.onMIOpt .ReadToken).Skipping macros depth' := by
    rintro rfl
    exact ⟨hraw, heffects, hidentifiers, skipped, FoundElse, hcons, hlength, hskipped⟩
  have hpush : depth + 1 = depth' →
      ((s.onMIOpt .ReadToken).pushConditionalLevel true false false).Skipping macros depth' := by
    rintro rfl
    refine ⟨hraw, heffects, hidentifiers, ⟨true, false, false⟩ :: skipped, FoundElse,
      congrArg _ hcons, congrArg (· + 1) hlength, ?_⟩
    intro CI hmem
    rcases mem_cons.mp hmem with rfl | hmem
    · rfl
    · exact hskipped CI hmem
  have hnested : depth ≠ 0 → ∃ top stack, skipped = top :: stack := by
    intro hdepth
    cases skipped with
    | nil => exact absurd hlength.symm hdepth
    | cons top stack => exact ⟨top, stack, rfl⟩
  cases line with
  | text ts =>
    cases ts with
    | nil =>
      cases hline
      exact ⟨hraw, heffects, hidentifiers, skipped, FoundElse, hcons, hlength, hskipped⟩
    | cons t ts => exact hsame (some.inj hline)
  | pp_if ts | pp_ifdef ts | pp_ifndef ts => exact hpush (some.inj hline)
  | pp_define II MI hasBody | directive effect => exact hsame (some.inj hline)
  | pp_endif =>
    change (if depth = 0 then none else some (depth - 1)) = some depth' at hline
    split_ifs at hline with hdepth
    obtain ⟨top, stack, rfl⟩ := hnested hdepth
    cases hline
    unfold skipLine
    dsimp only
    rw [show (s.onMIOpt .ReadToken).ConditionalStack =
      top :: (stack ++ [⟨false, false, FoundElse⟩]) from hcons]
    refine ⟨hskipped top (.head _), heffects, hidentifiers, stack, FoundElse, rfl, ?_,
      fun CI hmem => hskipped CI (.tail _ hmem)⟩
    rw [length_cons] at hlength
    omega
  | pp_else =>
    change (if depth = 0 then none else some depth) = some depth' at hline
    split_ifs at hline with hdepth
    obtain ⟨top, stack, rfl⟩ := hnested hdepth
    cases hline
    have htop := hskipped top (.head _)
    unfold skipLine
    dsimp only
    rw [show (s.onMIOpt .ReadToken).ConditionalStack =
      top :: (stack ++ [⟨false, false, FoundElse⟩]) from hcons]
    refine ⟨?_, heffects, hidentifiers, _ :: stack, FoundElse, rfl, hlength, ?_⟩
    · show (!(!top.WasSkipping && !top.FoundNonSkip)) = true
      rw [htop]
      rfl
    · intro CI hmem
      rcases mem_cons.mp hmem with rfl | hmem
      · exact htop
      · exact hskipped CI (.tail _ hmem)
  | pp_elif ts =>
    change (if depth = 0 then none else some depth) = some depth' at hline
    split_ifs at hline with hdepth
    obtain ⟨top, stack, rfl⟩ := hnested hdepth
    have htop := hskipped top (.head _)
    unfold skipLine
    dsimp only
    rw [show (s.onMIOpt .ReadToken).ConditionalStack =
      top :: (stack ++ [⟨false, false, FoundElse⟩]) from hcons]
    dsimp only
    rw [if_pos (by rw [htop]; rfl)]
    exact hsame (some.inj hline)

theorem skipping_run {body : List (Line Macro w)} {depth depth' : Nat}
    (h : s.Skipping macros depth) (hbody : nesting depth body = some depth') :
    (body.foldl (step opts) s).Skipping macros depth' := by
  induction body generalizing s depth with
  | nil =>
    cases hbody
    exact h
  | cons line body ih =>
    obtain ⟨middle, hline, hbody⟩ := bind_eq_some_iff.mp hbody
    exact ih (skipping_step h hline) hbody

theorem skipping_end (h : s.Skipping macros 0) :
    (s.step opts .pp_endif).effects = [] ∧ (s.step opts .pp_endif).macros = macros := by
  obtain ⟨hraw, heffects, hidentifiers, skipped, FoundElse, hcons, hlength, -⟩ := h
  cases skipped with
  | cons top stack => cases hlength
  | nil =>
    unfold step
    rw [if_pos hraw]
    unfold skipLine
    dsimp only
    rw [show (s.onMIOpt .ReadToken).ConditionalStack = [⟨false, false, FoundElse⟩] from hcons]
    exact ⟨heffects, hidentifiers⟩

theorem no_effect_of_guarded {file : List (Line Macro w)}
    (h : Guarded M file) (hdefined : (macros M).isSome = true) :
    (lexFile opts macros file).effects = [] ∧ (lexFile opts macros file).macros = macros := by
  obtain ⟨before, guard, body, after, rfl, hbefore, hafter, hguard, hnesting⟩ := h
  unfold lexFile
  rw [foldl_append, run_blank hbefore, foldl_cons, foldl_append, foldl_cons, run_blank hafter]
  exact skipping_end (skipping_run (skipping_guard hguard hdefined) hnesting)

/-- The macro that is reported for a file guards it, and the file has no effect while it is
defined, if every top-level `#ifdef` and `#ifndef` has a macro name. -/
theorem guard_sound (opts : LexOptions Macro w) (macros : Macros Macro)
    (file : List (Line Macro w)) (hnamed : TopLevelNamed file) (M : IdentifierInfo)
    (hidentifier : (lexFile opts macros file).MIOpt.GetControllingMacroAtEndOfFile = some M) :
    Guarded M file ∧ ∀ macros' : Macros Macro, (macros' M).isSome = true →
      (lexFile opts macros' file).effects = [] ∧ (lexFile opts macros' file).macros = macros' := by
  have hphase : Phase file (lexFile opts macros file) :=
    phase_run hnamed file [] (start macros) rfl
      (.fresh (fun _ h => nomatch h) rfl rfl rfl rfl) rfl
  unfold MultipleIncludeOpt.GetControllingMacroAtEndOfFile at hidentifier
  split_ifs at hidentifier with hread
  have hguarded : Guarded M file := by
    cases hphase with
    | fresh _ hnone => cases hnone.symm.trans hidentifier
    | inside _ _ _ _ _ _ _ _ _ _ hread' => exact absurd hread' hread
    | after M' hguarded hidentifier' =>
      cases hidentifier'.symm.trans hidentifier
      exact hguarded
    | passed hread' => exact absurd hread' hread
    | dead hdead => exact absurd hdead.1 hread
  exact ⟨hguarded, fun macros' hdefined => no_effect_of_guarded hguarded hdefined⟩

theorem topLevelNamed_of_all {file : List (Line Macro w)} (h : ∀ line ∈ file, line.IsNamed) :
    TopLevelNamed file := by
  rintro before line after rfl -
  exact h line (by simp)

/-- A file with a guard around one token. -/
def guardedToken : List (Line Unit 64) :=
  [.pp_ifndef [.identifier "M"], .text [.identifier "x"], .pp_endif]

/-- Options under which no macro is expanded. -/
def noExpansion : LexOptions Unit 64 := ⟨false, fun _ _ _ => none⟩

/-- A guard around one token. -/
theorem guard_sound_token :
    Guarded "M" guardedToken ∧ ∀ macros' : Macros Unit, ( macros' "M").isSome = true →
      (lexFile noExpansion macros' guardedToken).effects = [] ∧
        (lexFile noExpansion macros' guardedToken).macros = macros' :=
  guard_sound noExpansion (fun _ => none) guardedToken
    (topLevelNamed_of_all fun line h => by
      simp only [guardedToken, mem_cons, not_mem_nil, or_false] at h
      rcases h with rfl | rfl | rfl
      · exact ⟨("M", []), rfl⟩
      · trivial
      · trivial)
    "M" (by rfl)

/-- The `#else` of a `#ifdef` without a macro name is not guarded. -/
theorem not_guard_sound : ¬∀ (opts : LexOptions Unit 64) (macros : Macros Unit)
    (file : List (Line Unit 64)) (M : IdentifierInfo),
    (lexFile opts macros file).MIOpt.GetControllingMacroAtEndOfFile = some M →
      Guarded M file ∧ ∀ macros' : Macros Unit, (macros' M).isSome = true →
        (lexFile opts macros' file).effects = [] ∧
          (lexFile opts macros' file).macros = macros' := by
  intro h
  have hbad := (h noExpansion (fun _ => none)
    [.pp_ifndef [.identifier "M"], .pp_endif, .pp_ifdef [], .pp_else, .text [.identifier "x"],
      .pp_endif] "M" (by rfl)).2 (fun _ => some ()) rfl
  exact absurd (congrArg List.length hbad.1) (by decide)

end FileLexer

end Zapcc.Lex
