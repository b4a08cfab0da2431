import Mathlib.Data.List.Range

/-!
# Backtracking over the token stream

The `Preprocessor` caches tokens for look-ahead and for backtracking. `run_eq_cursor` says that a
user of it sees a single cursor over the stream of tokens, and that the lexers below are asked for
each token once, no further than the user has looked. There is no result when an assertion fails.
-/

namespace Zapcc.TokenCaching

open List Option

variable {Token : Type}

/-- `CLK_Lexer` stands for all lexers below the cache. -/
inductive LexerKind
  | CLK_Lexer
  | CLK_CachingLexer
  deriving DecidableEq

/-- `IncludeStackInfo`, with a lexer that is given by how many tokens it has returned. -/
structure IncludeStackInfo where
  CurLexerKind : LexerKind
  TheLexer : Option Nat

/-- The parts of the `Preprocessor` that cache tokens. The last include and the last backtrack
position come first. -/
structure Preprocessor (Token : Type) where
  CurLexerKind : LexerKind
  CurLexer : Option Nat
  IncludeMacroStack : List IncludeStackInfo
  CachedTokens : List Token
  CachedLexPos : Nat
  BacktrackPositions : List Nat
  CachedTokenRangeToErase : Option (Nat × Nat)

namespace Preprocessor

variable (stream : Nat → Token) (pp : Preprocessor Token)

def InCachingLexMode : Bool := pp.CurLexer.isNone && !pp.IncludeMacroStack.isEmpty

def isBacktrackEnabled : Bool := !pp.BacktrackPositions.isEmpty

def PushIncludeMacroStack : Option (Preprocessor Token) :=
  if pp.CurLexerKind = .CLK_CachingLexer then none
  else some { pp with
    IncludeMacroStack := ⟨pp.CurLexerKind, pp.CurLexer⟩ :: pp.IncludeMacroStack
    CurLexer := none }

def RemoveTopOfLexerStack : Option (Preprocessor Token) :=
  match pp.IncludeMacroStack with
  | [] => none
  | top :: rest => some { pp with
      CurLexerKind := top.CurLexerKind
      CurLexer := top.TheLexer
      IncludeMacroStack := rest }

def EnterCachingLexMode : Option (Preprocessor Token) :=
  if pp.InCachingLexMode then
    if pp.CurLexerKind = .CLK_CachingLexer then some pp else none
  else do
    let pp ← pp.PushIncludeMacroStack
    some { pp with CurLexerKind := .CLK_CachingLexer }

def ExitCachingLexMode : Option (Preprocessor Token) :=
  if pp.InCachingLexMode then pp.RemoveTopOfLexerStack else some pp

def recomputeCurLexerKind : Preprocessor Token :=
  { pp with CurLexerKind := if pp.CurLexer.isSome then .CLK_Lexer else .CLK_CachingLexer }

def EraseCachedTokens (Begin End : Nat) : Option (Preprocessor Token) :=
  if End < Begin then none
  else if pp.CachedLexPos = Begin ∧ Begin ≠ End then
    if pp.CachedTokenRangeToErase.isSome then none
    else some { pp with CachedTokenRangeToErase := some (Begin, End) }
  else if End ≠ pp.CachedLexPos then none
  else { pp with
    CachedTokens := pp.CachedTokens.take Begin ++ pp.CachedTokens.drop End
    CachedLexPos := Begin }.ExitCachingLexMode

def lexCached (Result : Token) : Option (Token × Preprocessor Token) :=
  let pp := { pp with CachedLexPos := pp.CachedLexPos + 1 }
  match pp.CachedTokenRangeToErase with
  | none => some (Result, pp)
  | some (Begin, End) =>
    if End = pp.CachedLexPos then do
      let pp ← pp.EraseCachedTokens Begin End
      some (Result, { pp with CachedTokenRangeToErase := none })
    else some (Result, pp)

/-- The end of `CachingLex`, with a token from below the cache. -/
def cacheLexed (Result : Token) : Option (Token × Preprocessor Token) :=
  if pp.isBacktrackEnabled then do
    let pp ← pp.EnterCachingLexMode
    some (Result, { pp with
      CachedTokens := pp.CachedTokens ++ [Result]
      CachedLexPos := pp.CachedLexPos + 1 })
  else if pp.CachedLexPos < pp.CachedTokens.length then do
    let pp ← pp.EnterCachingLexMode
    some (Result, pp)
  else some (Result, { pp with CachedTokens := [], CachedLexPos := 0 })

/-- `CachingLex`, with the function `Lex` that it calls. -/
def CachingLex (Lex : Preprocessor Token → Option (Token × Preprocessor Token)) :
    Option (Token × Preprocessor Token) :=
  if !pp.InCachingLexMode then none
  else
    match pp.CachedTokens[pp.CachedLexPos]? with
    | some Result => pp.lexCached Result
    | none => do
        let pp ← pp.ExitCachingLexMode
        let (Result, pp) ← Lex pp
        pp.cacheLexed Result

def lexNested : Nat → Preprocessor Token → Option (Token × Preprocessor Token)
  | 0, _ => none
  | fuel + 1, pp =>
    match pp.CurLexerKind with
    | .CLK_Lexer => do
        let taken ← pp.CurLexer
        some (stream taken, { pp with CurLexer := some (taken + 1) })
    | .CLK_CachingLexer => pp.CachingLex (lexNested fuel)

/-- `Lex`. Each nested call has one include less. -/
def Lex : Option (Token × Preprocessor Token) :=
  lexNested stream (pp.IncludeMacroStack.length + 1) pp

/-- The loop of `PeekAhead`, with `C` tokens to go. Tokens are lexed into the cache. -/
def peekLoop : Nat → Preprocessor Token → Option (Preprocessor Token)
  | 0, pp => some pp
  | C + 1, pp => do
      let (Result, pp) ← pp.Lex stream
      peekLoop C { pp with CachedTokens := pp.CachedTokens ++ [Result] }

def PeekAhead (N : Nat) : Option (Token × Preprocessor Token) :=
  if pp.CachedLexPos + N ≤ pp.CachedTokens.length then none
  else do
    let pp ← pp.ExitCachingLexMode
    let pp ← peekLoop stream (pp.CachedLexPos + N - pp.CachedTokens.length) pp
    let pp ← pp.EnterCachingLexMode
    let Result ← pp.CachedTokens.getLast?
    some (Result, pp)

def LookAhead (N : Nat) : Option (Token × Preprocessor Token) :=
  match pp.CachedTokens[pp.CachedLexPos + N]? with
  | some Result => some (Result, pp)
  | none => pp.PeekAhead stream (N + 1)

def EnableBacktrackAtThisPos : Option (Preprocessor Token) :=
  { pp with BacktrackPositions := pp.CachedLexPos :: pp.BacktrackPositions }.EnterCachingLexMode

def CommitBacktrackedTokens : Option (Preprocessor Token) :=
  match pp.BacktrackPositions with
  | [] => none
  | _ :: positions => some { pp with BacktrackPositions := positions }

def Backtrack : Option (Preprocessor Token) :=
  match pp.BacktrackPositions with
  | [] => none
  | position :: positions => some ({ pp with
      CachedLexPos := position
      BacktrackPositions := positions } : Preprocessor Token).recomputeCurLexerKind

/-- A preprocessor that has lexed nothing, inside of includes. -/
def start (includes : List IncludeStackInfo) : Preprocessor Token where
  CurLexerKind := .CLK_Lexer
  CurLexer := some 0
  IncludeMacroStack := includes
  CachedTokens := []
  CachedLexPos := 0
  BacktrackPositions := []
  CachedTokenRangeToErase := none

end Preprocessor

inductive Call
  | Lex
  | LookAhead (N : Nat)
  | EnableBacktrackAtThisPos
  | CommitBacktrackedTokens
  | Backtrack

open Preprocessor

variable (stream : Nat → Token)

/-- A call, with the token that it returns if it returns one. -/
def Preprocessor.step (pp : Preprocessor Token) : Call → Option (Option Token × Preprocessor Token)
  | .Lex => (pp.Lex stream).map (Prod.map some id)
  | .LookAhead N => (pp.LookAhead stream N).map (Prod.map some id)
  | .EnableBacktrackAtThisPos => pp.EnableBacktrackAtThisPos.map (none, ·)
  | .CommitBacktrackedTokens => pp.CommitBacktrackedTokens.map (none, ·)
  | .Backtrack => pp.Backtrack.map (none, ·)

/-- The calls one after the other, with what they return. -/
def Preprocessor.run : List Call → Preprocessor Token →
    Option (List (Option Token) × Preprocessor Token)
  | [], pp => some ([], pp)
  | call :: calls, pp => do
      let (result, pp) ← pp.step stream call
      let (results, pp) ← run calls pp
      some (result :: results, pp)

/-- How many tokens the lexers below the cache have returned. -/
def Preprocessor.taken (pp : Preprocessor Token) : Option Nat :=
  if pp.InCachingLexMode then (pp.IncludeMacroStack.head?).bind (·.TheLexer) else pp.CurLexer

/-- A cursor over the stream: where it is, the places to go back to with the last one first, and how
far the user has looked. -/
structure Cursor where
  position : Nat
  saved : List Nat
  seen : Nat

namespace Cursor

def start : Cursor := ⟨0, [], 0⟩

/-- What a call does to the cursor, and the token that it returns. -/
def step (c : Cursor) : Call → Option Token × Cursor
  | .Lex => (some (stream c.position),
      { c with position := c.position + 1, seen := max c.seen (c.position + 1) })
  | .LookAhead N => (some (stream (c.position + N)),
      { c with seen := max c.seen (c.position + N + 1) })
  | .EnableBacktrackAtThisPos => (none, { c with saved := c.position :: c.saved })
  | .CommitBacktrackedTokens => (none, { c with saved := c.saved.tail })
  | .Backtrack => (none, { c with
      position := c.saved.headD c.position
      saved := c.saved.tail })

/-- The calls one after the other, with what they return. -/
def run : List Call → Cursor → List (Option Token) × Cursor
  | [], c => ([], c)
  | call :: calls, c =>
    let (result, c) := c.step stream call
    let (results, c) := run calls c
    (result :: results, c)

end Cursor

/-- How many places there are to go back to after a call, if the call is allowed. -/
def depthAfter (depth : Nat) : Call → Option Nat
  | .Lex | .LookAhead _ => some depth
  | .EnableBacktrackAtThisPos => some (depth + 1)
  | .CommitBacktrackedTokens | .Backtrack => if depth = 0 then none else some (depth - 1)

/-- Each `CommitBacktrackedTokens` and each `Backtrack` has its `EnableBacktrackAtThisPos`. -/
def WellNested : Nat → List Call → Prop
  | _, [] => True
  | depth, call :: calls => ∃ next, depthAfter depth call = some next ∧ WellNested next calls

/-- The tokens of the stream from a place to another. -/
def window (base seen : Nat) : List Token := (range' base (seen - base)).map stream

/-- A state in which the lexer below the cache is the current one. -/
def direct (includes : List IncludeStackInfo) (taken : Nat) (tokens : List Token)
    (position : Nat) (positions : List Nat) : Preprocessor Token where
  CurLexerKind := .CLK_Lexer
  CurLexer := some taken
  IncludeMacroStack := includes
  CachedTokens := tokens
  CachedLexPos := position
  BacktrackPositions := positions
  CachedTokenRangeToErase := none

/-- A state in which the lexer below the cache is on the stack. -/
def caching (includes : List IncludeStackInfo) (taken : Nat) (tokens : List Token)
    (position : Nat) (positions : List Nat) : Preprocessor Token where
  CurLexerKind := .CLK_CachingLexer
  CurLexer := none
  IncludeMacroStack := ⟨.CLK_Lexer, some taken⟩ :: includes
  CachedTokens := tokens
  CachedLexPos := position
  BacktrackPositions := positions
  CachedTokenRangeToErase := none

/-- The state of a preprocessor for a cursor. The cache holds a window of the stream that ends where
the lexer below is, and the positions in it are relative to its begin. -/
inductive Represents (includes : List IncludeStackInfo) : Preprocessor Token → Cursor → Prop
  | direct (seen : Nat) : Represents includes (direct includes seen [] 0 []) ⟨seen, [], seen⟩
  | caching {base position seen : Nat} {positions : List Nat} (hposition : base + position ≤ seen)
      (hpositions : ∀ saved ∈ positions, base + saved ≤ seen) :
      Represents includes (caching includes seen (window stream base seen) position positions)
        ⟨base + position, positions.map (base + ·), seen⟩

section States

variable {includes : List IncludeStackInfo} {taken position : Nat} {tokens : List Token}
  {positions : List Nat}

@[simp] theorem exit_direct :
    (direct includes taken tokens position positions).ExitCachingLexMode =
      some (direct includes taken tokens position positions) := rfl

@[simp] theorem exit_caching :
    (caching includes taken tokens position positions).ExitCachingLexMode =
      some (direct includes taken tokens position positions) := rfl

@[simp] theorem enter_direct :
    (direct includes taken tokens position positions).EnterCachingLexMode =
      some (caching includes taken tokens position positions) := rfl

@[simp] theorem enter_caching :
    (caching includes taken tokens position positions).EnterCachingLexMode =
      some (caching includes taken tokens position positions) := rfl

@[simp] theorem lex_direct :
    (direct includes taken tokens position positions).Lex stream =
      some (stream taken, direct includes (taken + 1) tokens position positions) := rfl

theorem lex_caching :
    (caching includes taken tokens position positions).Lex stream =
      (caching includes taken tokens position positions).CachingLex
        (lexNested stream (includes.length + 1)) := rfl

theorem lex_cached {Result : Token} (h : tokens[position]? = some Result) :
    (caching includes taken tokens position positions).Lex stream =
      some (Result, caching includes taken tokens (position + 1) positions) := by
  rw [lex_caching, CachingLex]
  dsimp only [caching]
  rw [h]
  rfl

theorem lookAhead_cached {Result : Token} {N : Nat} (h : tokens[position + N]? = some Result) :
    (caching includes taken tokens position positions).LookAhead stream N =
      some (Result, caching includes taken tokens position positions) := by
  unfold LookAhead
  dsimp only [caching]
  rw [h]

theorem lookAhead_uncached {N : Nat} (h : tokens[position + N]? = none) :
    (caching includes taken tokens position positions).LookAhead stream N =
      (caching includes taken tokens position positions).PeekAhead stream (N + 1) := by
  unfold LookAhead
  dsimp only [caching]
  rw [h]

theorem lex_uncached (h : tokens[position]? = none) :
    (caching includes taken tokens position positions).Lex stream =
      (direct includes (taken + 1) tokens position positions).cacheLexed (stream taken) := by
  rw [lex_caching, CachingLex]
  dsimp only [caching]
  rw [h]
  rfl

theorem peekLoop_direct (C : Nat) :
    peekLoop stream C (direct includes taken tokens position positions) =
      some (direct includes (taken + C) (tokens ++ window stream taken (taken + C)) position
        positions) := by
  induction C generalizing taken tokens with
  | zero => simp [peekLoop, window]
  | succ C ih =>
    have hnext : [stream taken] ++ window stream (taken + 1) (taken + 1 + C) =
        window stream taken (taken + (C + 1)) := by
      rw [window, window, Nat.add_sub_cancel_left, Nat.add_sub_cancel_left, range'_succ]
      rfl
    change peekLoop stream C (direct includes (taken + 1) (tokens ++ [stream taken]) position
      positions) = _
    rw [ih, append_assoc, hnext, Nat.add_right_comm, Nat.add_assoc]

end States

theorem window_length (base seen : Nat) : (window stream base seen).length = seen - base := by
  rw [window, length_map, length_range']

theorem window_append {base seen C : Nat} (h : base ≤ seen) :
    window stream base seen ++ window stream seen (seen + C) = window stream base (seen + C) := by
  obtain ⟨length, rfl⟩ := Nat.exists_eq_add_of_le h
  rw [window, window, window, ← map_append, Nat.add_sub_cancel_left, Nat.add_sub_cancel_left,
    Nat.add_assoc, Nat.add_sub_cancel_left, range'_append_1]

theorem window_succ {base seen : Nat} (h : base ≤ seen) :
    window stream base seen ++ [stream seen] = window stream base (seen + 1) := by
  rw [← window_append stream h]
  simp [window]

theorem window_getElem? {base seen i : Nat} (h : base + i < seen) :
    (window stream base seen)[i]? = some (stream (base + i)) := by
  rw [window, getElem?_map, getElem?_range' (by omega), Nat.one_mul]
  rfl

theorem window_getElem?_none {base seen i : Nat} (h : seen ≤ base + i) :
    (window stream base seen)[i]? = none := by
  rw [List.getElem?_eq_none_iff, window_length]
  omega

theorem window_getLast? {base seen : Nat} (h : base ≤ seen) :
    (window stream base (seen + 1)).getLast? = some (stream seen) := by
  rw [← window_succ stream h, getLast?_concat]

section Steps

variable {includes : List IncludeStackInfo} {pp : Preprocessor Token} {base position seen N : Nat}
  {positions : List Nat}

theorem peekAhead_spec
    (hexit : pp.ExitCachingLexMode =
      some (direct includes seen (window stream base seen) position positions))
    (htokens : pp.CachedTokens = window stream base seen) (hlexPos : pp.CachedLexPos = position)
    (hposition : base + position ≤ seen) (hN : seen ≤ base + position + N) :
    pp.PeekAhead stream (N + 1) =
      some (stream (base + position + N), caching includes (base + position + N + 1)
        (window stream base (base + position + N + 1)) position positions) := by
  have hC : seen + (position + (N + 1) - (seen - base)) = base + position + N + 1 := by omega
  rw [PeekAhead, if_neg (by rw [htokens, hlexPos, window_length]; omega), hexit]
  change (peekLoop stream (position + (N + 1) - (window stream base seen).length)
    (direct includes seen (window stream base seen) position positions)).bind _ = _
  rw [peekLoop_direct, window_length, window_append stream (by omega), hC]
  change ((window stream base (base + position + N + 1)).getLast?).bind _ = _
  rw [window_getLast? stream (by omega)]
  rfl

theorem lookAhead_spec {c : Cursor} (h : Represents stream includes pp c) (N : Nat) :
    ∃ pp', pp.LookAhead stream N = some (stream (c.position + N), pp') ∧
      Represents stream includes pp' { c with seen := max c.seen (c.position + N + 1) } := by
  cases h with
  | direct seen =>
    have hempty : window stream seen seen = [] := by simp [window]
    have hmax : max seen (seen + N + 1) = seen + N + 1 := by omega
    have hexit : (direct includes seen ([] : List Token) 0 []).ExitCachingLexMode =
        some (direct includes seen (window stream seen seen) 0 []) := by
      rw [hempty]
      rfl
    have hpeek := peekAhead_spec stream hexit hempty.symm rfl le_rfl
      (show seen ≤ seen + 0 + N by omega)
    refine ⟨_, hpeek, ?_⟩
    rw [hmax]
    exact @Represents.caching _ stream includes seen 0 _ [] (by omega) (by simp)
  | @caching base position seen positions hposition hpositions =>
    by_cases hcached : base + (position + N) < seen
    · have hmax : max seen (base + position + N + 1) = seen := by omega
      rw [hmax, Nat.add_assoc]
      exact ⟨_, lookAhead_cached stream (window_getElem? stream hcached),
        .caching hposition hpositions⟩
    · have hmax : max seen (base + position + N + 1) = base + position + N + 1 := by omega
      rw [hmax, lookAhead_uncached stream (window_getElem?_none stream (by omega))]
      refine ⟨_, peekAhead_spec stream exit_caching rfl rfl hposition (by omega),
        .caching (by omega) fun saved hsaved => ?_⟩
      have := hpositions saved hsaved
      omega

theorem lex_spec {c : Cursor} (h : Represents stream includes pp c) :
    ∃ pp', pp.Lex stream = some (stream c.position, pp') ∧ Represents stream includes pp'
        { c with position := c.position + 1, seen := max c.seen (c.position + 1) } := by
  cases h with
  | direct seen =>
    have hmax : max seen (seen + 1) = seen + 1 := by omega
    refine ⟨_, lex_direct stream, ?_⟩
    dsimp only
    rw [hmax]
    exact .direct (seen + 1)
  | @caching base position seen positions hposition hpositions =>
    dsimp only
    by_cases hcached : base + position < seen
    · have hmax : max seen (base + position + 1) = seen := by omega
      refine ⟨_, lex_cached stream (window_getElem? stream hcached), ?_⟩
      rw [hmax]
      exact .caching hcached hpositions
    · have hseen : base + position = seen := by omega
      have hmax : max seen (base + position + 1) = seen + 1 := by omega
      rw [lex_uncached stream (window_getElem?_none stream (not_lt.mp hcached)), hmax, hseen]
      cases positions with
      | nil =>
        refine ⟨direct includes (seen + 1) [] 0 [], ?_, .direct (seen + 1)⟩
        change (if position < (window stream base seen).length then _ else _) = _
        rw [if_neg (by rw [window_length]; omega)]
        rfl
      | cons saved positions =>
        refine ⟨caching includes (seen + 1) (window stream base seen ++ [stream seen])
          (position + 1) (saved :: positions), rfl, ?_⟩
        rw [window_succ stream (by omega), ← hseen]
        refine .caching (Nat.le_of_eq (Nat.add_assoc _ _ _).symm) fun place hplace => ?_
        have := hpositions place hplace
        omega

theorem step_spec {c : Cursor} (h : Represents stream includes pp c) {call : Call} {depth : Nat}
    (hdepth : depthAfter c.saved.length call = some depth) :
    ∃ pp', pp.step stream call = some ((c.step stream call).1, pp') ∧
      Represents stream includes pp' (c.step stream call).2 ∧
      (c.step stream call).2.saved.length = depth := by
  cases call with
  | Lex =>
    obtain ⟨pp', hlex, hpp'⟩ := lex_spec stream h
    refine ⟨pp', ?_, hpp', some.inj hdepth⟩
    rw [Preprocessor.step, hlex]
    rfl
  | LookAhead N =>
    obtain ⟨pp', hlook, hpp'⟩ := lookAhead_spec stream h N
    refine ⟨pp', ?_, hpp', some.inj hdepth⟩
    rw [Preprocessor.step, hlook]
    rfl
  | EnableBacktrackAtThisPos =>
    cases h with
    | direct seen =>
      refine ⟨caching includes seen [] 0 [0], rfl, ?_, some.inj hdepth⟩
      have hempty : [] = window stream seen seen := by simp [window]
      rw [hempty]
      exact @Represents.caching _ stream includes seen 0 seen [0] le_rfl (by simp)
    | @caching base position seen positions hposition hpositions =>
      exact ⟨caching includes seen (window stream base seen) position (position :: positions),
        rfl, .caching hposition (forall_mem_cons.mpr ⟨hposition, hpositions⟩),
        some.inj hdepth⟩
  | CommitBacktrackedTokens =>
    cases h with
    | direct seen => cases hdepth
    | @caching base position seen positions hposition hpositions =>
      cases positions with
      | nil => cases hdepth
      | cons saved positions =>
        exact ⟨caching includes seen (window stream base seen) position positions, rfl,
          .caching hposition (forall_mem_cons.mp hpositions).2, some.inj hdepth⟩
  | Backtrack =>
    cases h with
    | direct seen => cases hdepth
    | @caching base position seen positions hposition hpositions =>
      cases positions with
      | nil => cases hdepth
      | cons saved positions =>
        have hall := forall_mem_cons.mp hpositions
        exact ⟨caching includes seen (window stream base seen) saved positions, rfl,
          .caching hall.1 hall.2, some.inj hdepth⟩

theorem run_spec {c : Cursor} (h : Represents stream includes pp c) {calls : List Call}
    (hnested : WellNested c.saved.length calls) :
    ∃ pp', pp.run stream calls = some ((c.run stream calls).1, pp') ∧
      Represents stream includes pp' (c.run stream calls).2 := by
  induction calls generalizing pp c with
  | nil => exact ⟨pp, rfl, h⟩
  | cons call calls ih =>
    obtain ⟨depth, hdepth, hrest⟩ := hnested
    obtain ⟨next, hstep, hnext, hlength⟩ := step_spec stream h hdepth
    obtain ⟨last, hrun, hlast⟩ := ih hnext (hlength ▸ hrest)
    refine ⟨last, ?_, hlast⟩
    rw [Preprocessor.run, hstep]
    change (next.run stream calls).bind _ = _
    rw [hrun]
    rfl

theorem Represents.taken {c : Cursor} (h : Represents stream includes pp c) :
    pp.taken = some c.seen := by
  cases h <;> rfl

end Steps

/-- A user of the preprocessor sees a single cursor over the stream of tokens, and no assertion
fails. The tokens are taken from the lexers below in order and once, up to the furthest one that the
user has looked at. -/
theorem run_eq_cursor (includes : List IncludeStackInfo) {calls : List Call}
    (h : WellNested 0 calls) :
    ∃ pp, (Preprocessor.start includes).run stream calls =
        some ((Cursor.start.run stream calls).1, pp) ∧
      pp.taken = some (Cursor.start.run stream calls).2.seen := by
  obtain ⟨pp, hrun, hpp⟩ := run_spec stream (@Represents.direct _ stream includes 0) h
  exact ⟨pp, hrun, hpp.taken⟩

/-- A token that is lexed again, with a look past both. -/
theorem run_eq_cursor_backtrack :
    ∃ pp, (Preprocessor.start []).run id
        [.Lex, .EnableBacktrackAtThisPos, .Lex, .LookAhead 2, .Backtrack, .Lex] =
        some ([some 0, none, some 1, some 4, none, some 1], pp) ∧ pp.taken = some 5 :=
  run_eq_cursor id [] ⟨0, rfl, 1, rfl, 1, rfl, 1, rfl, 0, rfl, 0, rfl, trivial⟩

end Zapcc.TokenCaching
