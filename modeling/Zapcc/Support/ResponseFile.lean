import Mathlib.Data.List.TakeWhile

/-!
# Response files

`Command::writeResponseFile` writes every argument between double quotes, and
`TokenizeGNUCommandLine` reads the arguments back. The main result is `round_trip_iff`: the
tokenizer keeps a token only if it is not empty, so that an empty argument is lost.
-/

namespace Zapcc.ResponseFile

open List

/-- A string, by its characters. -/
abbrev Text := List Char

/-- A character in the quotes, where a quote and a backslash are escaped. -/
def escape (c : Char) : Text := if c = '"' ∨ c = '\\' then ['\\', c] else [c]

/-- The characters of a C string, up to its end. -/
def upToNul (Arg : Text) : Text := Arg.takeWhile (· ≠ '\x00')

def writeArgument (Arg : Text) : Text := '"' :: ((upToNul Arg).flatMap escape ++ ['"', ' '])

def writeResponseFile (Arguments : List Text) : Text := Arguments.flatMap writeArgument

/-- Whether a character separates tokens. -/
def isWhitespace (C : Char) : Bool := C = ' ' || C = '\t' || C = '\r' || C = '\n'

/-- Whether a character starts a quoted string. -/
def isQuote (C : Char) : Bool := C = '"' || C = '\''

/-- Skip whitespace. The result has a null pointer for every end of a line if these are marked,
and the rest of the source. -/
def skipWhitespace (MarkEOLs : Bool) : Text → List (Option Text) × Text
  | [] => ([], [])
  | C :: Src =>
    if isWhitespace C then
      let (marks, rest) := skipWhitespace MarkEOLs Src
      (if MarkEOLs ∧ C = '\n' then none :: marks else marks, rest)
    else ([], C :: Src)

/-- Read a string up to the quote `C`. There is no rest when the source ends before it. -/
def readQuoted (C : Char) : Text → Text → Text × Option Text
  | [], Token => (Token, none)
  | c :: Src, Token =>
    if c = C then (Token, some Src)
    else if c = '\\' then
      match Src with
      | [] => (Token ++ [c], none)
      | d :: Src => readQuoted C Src (Token ++ [d])
    else readQuoted C Src (Token ++ [c])

/-- The token that is kept, unless it is empty. -/
def endToken (Token : Text) (NewArgv : List (Option Text)) : List (Option Text) :=
  if Token = [] then NewArgv else NewArgv ++ [some Token]

def tokenizeLoop (MarkEOLs : Bool) :
    Nat → Text → Text → List (Option Text) → Option (List (Option Text))
  | 0, _, _, _ => none
  | fuel + 1, Src, Token, NewArgv =>
    let (marks, Src) := if Token = [] then skipWhitespace MarkEOLs Src else ([], Src)
    let NewArgv := NewArgv ++ marks
    match Src with
    | [] => some (endToken Token NewArgv)
    | [C] =>
      if isQuote C then some (endToken Token NewArgv)
      else if isWhitespace C then tokenizeLoop MarkEOLs fuel [] [] (endToken Token NewArgv)
      else tokenizeLoop MarkEOLs fuel [] (Token ++ [C]) NewArgv
    | C :: D :: Src =>
      if C = '\\' then tokenizeLoop MarkEOLs fuel Src (Token ++ [D]) NewArgv
      else if isQuote C then
        match readQuoted C (D :: Src) Token with
        | (Token, none) => some (endToken Token NewArgv)
        | (Token, some Src) => tokenizeLoop MarkEOLs fuel Src Token NewArgv
      else if isWhitespace C then
        tokenizeLoop MarkEOLs fuel (D :: Src) [] (endToken Token NewArgv)
      else tokenizeLoop MarkEOLs fuel (D :: Src) (Token ++ [C]) NewArgv

/-- Split a source into the arguments, with null pointers at the ends of lines if these are
marked. -/
def TokenizeGNUCommandLine (Src : Text) (MarkEOLs : Bool) : Option (List (Option Text)) :=
  (tokenizeLoop MarkEOLs (Src.length + 1) Src [] []).map fun NewArgv =>
    if MarkEOLs then NewArgv ++ [none] else NewArgv

theorem readQuoted_escape (Arg rest Token : Text) :
    readQuoted '"' (Arg.flatMap escape ++ '"' :: rest) Token = (Token ++ Arg, some rest) := by
  induction Arg generalizing Token with
  | nil =>
    rw [readQuoted.eq_def, append_nil]
    exact if_pos rfl
  | cons c Arg ih =>
    rw [flatMap_cons, append_assoc]
    have hrest : Token ++ c :: Arg = Token ++ [c] ++ Arg := by simp
    unfold escape
    split_ifs with hescaped
    · show readQuoted '"' ('\\' :: c :: (Arg.flatMap escape ++ '"' :: rest)) Token = _
      rw [readQuoted.eq_def]
      dsimp only
      rw [if_neg (by decide), if_pos rfl, hrest]
      exact ih _
    · rw [not_or] at hescaped
      show readQuoted '"' (c :: (Arg.flatMap escape ++ '"' :: rest)) Token = _
      rw [readQuoted.eq_def]
      dsimp only
      rw [if_neg hescaped.1, if_neg hescaped.2, hrest]
      exact ih _

theorem tokenizeLoop_quoted (MarkEOLs : Bool) (fuel : Nat) (Arg rest : Text)
    (NewArgv : List (Option Text)) :
    tokenizeLoop MarkEOLs (fuel + 1) ('"' :: (Arg.flatMap escape ++ '"' :: rest)) [] NewArgv =
      tokenizeLoop MarkEOLs fuel rest Arg NewArgv := by
  have hread := readQuoted_escape Arg rest []
  obtain ⟨D, Src, hsrc⟩ : ∃ D Src, Arg.flatMap escape ++ '"' :: rest = D :: Src := by
    cases h : Arg.flatMap escape ++ '"' :: rest with
    | nil => simp at h
    | cons D Src => exact ⟨D, Src, rfl⟩
  rw [hsrc] at hread ⊢
  rw [tokenizeLoop, if_pos rfl, skipWhitespace, if_neg (by decide)]
  simp only [append_nil]
  rw [if_neg (by decide), if_pos (by decide), hread]
  rfl

theorem tokenizeLoop_space (fuel : Nat) (Token : Text) {rest : Text}
    (NewArgv : List (Option Text)) (hrest : rest = [] ∨ rest.head? = some '"') :
    ∃ fuel', fuel ≤ fuel' ∧ tokenizeLoop false (fuel + 2) (' ' :: rest) Token NewArgv =
      tokenizeLoop false (fuel' + 1) rest [] (endToken Token NewArgv) := by
  have hskip : skipWhitespace false rest = ([], rest) := by
    rcases hrest with rfl | hhead
    · rfl
    · obtain ⟨tail, rfl⟩ : ∃ tail, rest = '"' :: tail := head?_eq_some_iff.mp hhead
      rfl
  by_cases hToken : Token = []
  · refine ⟨fuel + 1, by omega, ?_⟩
    have hspace : skipWhitespace false (' ' :: rest) = ([], rest) := by
      rw [skipWhitespace, if_pos (by decide), hskip]
      rfl
    rw [tokenizeLoop.eq_def, tokenizeLoop.eq_def]
    dsimp only
    rw [if_pos hToken, if_pos rfl, hspace, hskip, hToken]
    rfl
  · refine ⟨fuel, Nat.le_refl _, ?_⟩
    rw [tokenizeLoop.eq_def]
    dsimp only
    rw [if_neg hToken, append_nil]
    cases rest with
    | nil => exact (if_neg (by decide)).trans (if_pos (by decide))
    | cons D Src =>
      exact (if_neg (by decide)).trans ((if_neg (by decide)).trans (if_pos (by decide)))

theorem writeResponseFile_head (Arguments : List Text) :
    writeResponseFile Arguments = [] ∨ (writeResponseFile Arguments).head? = some '"' := by
  cases Arguments with
  | nil => exact Or.inl rfl
  | cons Arg Arguments => exact Or.inr rfl

/-- The arguments that are not empty, up to their ends, as the loop adds them. -/
def kept (Arguments : List Text) : List (Option Text) :=
  ((Arguments.map upToNul).filter (· ≠ [])).map some

theorem tokenizeLoop_write {fuel : Nat} (Arguments : List Text) (NewArgv : List (Option Text))
    (hfuel : (writeResponseFile Arguments).length < fuel) :
    tokenizeLoop false fuel (writeResponseFile Arguments) [] NewArgv =
      some (NewArgv ++ kept Arguments) := by
  induction Arguments generalizing fuel NewArgv with
  | nil =>
    obtain ⟨fuel, rfl⟩ : ∃ n, fuel = n + 1 := ⟨fuel - 1, by omega⟩
    rfl
  | cons Arg Arguments ih =>
    have htext : writeResponseFile (Arg :: Arguments) =
        '"' :: ((upToNul Arg).flatMap escape ++ '"' :: ' ' :: writeResponseFile Arguments) := by
      simp [writeResponseFile, writeArgument]
    rw [htext] at hfuel ⊢
    simp only [length_cons, length_append] at hfuel
    obtain ⟨fuel, rfl⟩ : ∃ n, fuel = n + 3 := ⟨fuel - 3, by omega⟩
    obtain ⟨fuel', hle, hspace⟩ := tokenizeLoop_space fuel (upToNul Arg) NewArgv
      (writeResponseFile_head Arguments)
    rw [tokenizeLoop_quoted, hspace, ih _ (by omega), Option.some.injEq]
    unfold endToken kept
    rw [map_cons]
    by_cases hArg : upToNul Arg = []
    · rw [if_pos hArg, filter_cons_of_neg (by simpa using hArg)]
    · rw [if_neg hArg, filter_cons_of_pos (by simpa using hArg), map_cons, append_assoc]
      rfl

theorem upToNul_eq {Arg : Text} (h : '\x00' ∉ Arg) : upToNul Arg = Arg := by
  refine takeWhile_eq_self_iff.mpr fun c hc => ?_
  exact decide_eq_true fun heq => h (heq ▸ hc)

theorem tokenize_writeResponseFile {Arguments : List Text}
    (hnul : ∀ Arg ∈ Arguments, '\x00' ∉ Arg) :
    TokenizeGNUCommandLine (writeResponseFile Arguments) false =
      some ((Arguments.filter (· ≠ [])).map some) := by
  have hwhole : Arguments.map upToNul = Arguments :=
    (map_congr_left fun Arg hArg => upToNul_eq (hnul Arg hArg)).trans
      (map_id' Arguments)
  rw [TokenizeGNUCommandLine, tokenizeLoop_write Arguments [] (Nat.lt_succ_self _), kept, hwhole]
  rfl

/-- What is written is read back exactly when no argument is empty. -/
theorem round_trip_iff (Arguments : List Text) (hnul : ∀ Arg ∈ Arguments, '\x00' ∉ Arg) :
    TokenizeGNUCommandLine (writeResponseFile Arguments) false = some (Arguments.map some) ↔
      [] ∉ Arguments := by
  rw [tokenize_writeResponseFile hnul, Option.some.injEq]
  constructor
  · intro heq hmem
    have hfilter : Arguments.filter (· ≠ []) = Arguments :=
      (List.map_inj_right fun _ _ => Option.some.inj).mp heq
    have := filter_eq_self.mp hfilter [] hmem
    exact absurd rfl (of_decide_eq_true this)
  · intro hmem
    rw [filter_eq_self.mpr]
    intro Arg hArg
    exact decide_eq_true fun heq => hmem (heq ▸ hArg)

/-- Arguments with a space, a quote and a backslash are read back. -/
theorem round_trip_special :
    TokenizeGNUCommandLine (writeResponseFile ["a b".toList, ['"', '\\', '\n']]) false =
      some (["a b".toList, ['"', '\\', '\n']].map some) :=
  (round_trip_iff _ (by decide)).mpr (by decide)

/-- An empty argument is lost. -/
theorem not_round_trip :
    ¬ ∀ Arguments : List Text, (∀ Arg ∈ Arguments, '\x00' ∉ Arg) →
      TokenizeGNUCommandLine (writeResponseFile Arguments) false =
        some (Arguments.map some) := by
  intro h
  exact absurd (h [[]] (by decide)) (by decide)

end Zapcc.ResponseFile
