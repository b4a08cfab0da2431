import Zapcc.Support.MathExtras
import Zapcc.Support.ResponseFile

/-!
# Windows command lines

`flattenArgs` writes the arguments of a program as one string, and `TokenizeWindowsCommandLine`
reads the arguments back. The main result is `faithful_iff`: this works for command lines whose
length fits the `unsigned` that it is computed in, and whose runs of backslashes fit an `int`.
-/

namespace Zapcc.WindowsCommandLine

open MathExtras ResponseFile List

/-! ## Writing -/

/-- The characters for which an argument is quoted. -/
def quotedChars : Text :=
  ['\t', ' ', '"', '&', '\'', '(', ')', '*', '<', '>', '\\', '`', '^', '|']

/-- Whether an argument is quoted. -/
def ArgNeedsQuotes (Str : Text) : Bool := Str.isEmpty || Str.any fun C => C ∈ quotedChars

/-- The number of backslashes before the current character, from the text before it. -/
def CountPrecedingBackslashes (before : Text) : Nat :=
  toUnsigned (before.reverse.takeWhile (· = '\\')).length

/-- A backslash for each backslash before the current character. -/
def EscapePrecedingEscapes (before : Text) : Text :=
  replicate (CountPrecedingBackslashes before) '\\'

def argLenLoop (before : Text) : Text → Nat → Nat
  | [], len => len
  | C :: Str, len =>
    let len :=
      if C = '"' then toUnsigned (len + toUnsigned (CountPrecedingBackslashes before + 1))
      else len
    argLenLoop (before ++ [C]) Str (toUnsigned (len + 1))

def ArgLenWithQuotes (Str : Text) : Nat :=
  let Quoted := ArgNeedsQuotes Str
  let len := argLenLoop [] Str (if Quoted then 2 else 0)
  if Quoted then toUnsigned (len + toUnsigned (CountPrecedingBackslashes Str + 1)) else len

/-- The length of the command line that `flattenArgs` computes. -/
def commandLength (Args : List Text) : Nat :=
  Args.foldl (fun len arg => toUnsigned (len + toUnsigned (ArgLenWithQuotes arg + 1))) 0

/-- The loop over the characters of an argument. -/
def writeChars (before : Text) : Text → Text
  | [] => []
  | C :: arg =>
    (if C = '"' then EscapePrecedingEscapes before ++ ['\\'] else []) ++
      C :: writeChars (before ++ [C]) arg

/-- What is written for an argument. -/
def flattenArg (arg : Text) : Text :=
  let needsQuoting := ArgNeedsQuotes arg
  (if needsQuoting then ['"'] else []) ++ writeChars [] arg ++
    (if needsQuoting then EscapePrecedingEscapes arg ++ ['"'] else []) ++ [' ']

/-- The characters that `flattenArgs` writes, before the final null. -/
def flattenArgs (Args : List Text) : Text := Args.flatMap flattenArg

/-! ## Reading -/

/-- `parseBackslash`, from behind the first backslash, with the rest of the source and the token.
There is no result where the `int` overflows. -/
def parseBackslash (Src Token : Text) : Option (Text × Text) :=
  let BackslashCount := (Src.takeWhile (· = '\\')).length + 1
  let Rest := Src.dropWhile (· = '\\')
  if BackslashCount < 2 ^ 31 then
    if Rest.head? = some '"' then
      let Token := Token ++ replicate (BackslashCount / 2) '\\'
      if BackslashCount % 2 = 0 then some (Rest, Token) else some (Rest.tail, Token ++ ['"'])
    else some (Rest, Token ++ replicate BackslashCount '\\')
  else none

theorem length_parseBackslash {Src Token Rest Token' : Text}
    (h : parseBackslash Src Token = some (Rest, Token')) : Rest.length ≤ Src.length := by
  have hdrop : (Src.dropWhile (· = '\\')).length ≤ Src.length :=
    (dropWhile_suffix _).length_le
  unfold parseBackslash at h
  dsimp only at h
  split_ifs at h
  · simp only [Option.some.injEq, Prod.mk.injEq] at h
    rwa [h.1] at hdrop
  · simp only [Option.some.injEq, Prod.mk.injEq] at h
    rw [← h.1, length_tail]
    omega
  · simp only [Option.some.injEq, Prod.mk.injEq] at h
    rwa [h.1] at hdrop

inductive State where
  | INIT
  | UNQUOTED
  | QUOTED

/-- A null pointer at the end of a line, if these are marked. -/
def markEOL (MarkEOLs : Bool) (C : Char) (NewArgv : List (Option Text)) : List (Option Text) :=
  if MarkEOLs ∧ C = '\n' then NewArgv ++ [none] else NewArgv

def tokenizeLoop (MarkEOLs : Bool) (S : State) (Src Token : Text) (NewArgv : List (Option Text)) :
    Option (List (Option Text)) :=
  match Src with
  | [] => some (endToken Token NewArgv)
  | C :: Src =>
    match S with
    | .INIT =>
      if isWhitespace C then
        tokenizeLoop MarkEOLs .INIT Src Token (markEOL MarkEOLs C NewArgv)
      else if C = '"' then tokenizeLoop MarkEOLs .QUOTED Src Token NewArgv
      else if C = '\\' then
        match _h : parseBackslash Src Token with
        | none => none
        | some (Rest, Token) => tokenizeLoop MarkEOLs .UNQUOTED Rest Token NewArgv
      else tokenizeLoop MarkEOLs .UNQUOTED Src (Token ++ [C]) NewArgv
    | .UNQUOTED =>
      if isWhitespace C then
        tokenizeLoop MarkEOLs .INIT Src [] (markEOL MarkEOLs C (NewArgv ++ [some Token]))
      else if C = '"' then tokenizeLoop MarkEOLs .QUOTED Src Token NewArgv
      else if C = '\\' then
        match _h : parseBackslash Src Token with
        | none => none
        | some (Rest, Token) => tokenizeLoop MarkEOLs .UNQUOTED Rest Token NewArgv
      else tokenizeLoop MarkEOLs .UNQUOTED Src (Token ++ [C]) NewArgv
    | .QUOTED =>
      if C = '"' then tokenizeLoop MarkEOLs .UNQUOTED Src Token NewArgv
      else if C = '\\' then
        match _h : parseBackslash Src Token with
        | none => none
        | some (Rest, Token) => tokenizeLoop MarkEOLs .QUOTED Rest Token NewArgv
      else tokenizeLoop MarkEOLs .QUOTED Src (Token ++ [C]) NewArgv
termination_by Src.length
decreasing_by
  all_goals
    first
    | exact Nat.lt_succ_self _
    | exact Nat.lt_succ_of_le (length_parseBackslash _h)

theorem tokenize_close {MarkEOLs : Bool} {rest Token : Text} {NewArgv : List (Option Text)} :
    tokenizeLoop MarkEOLs .QUOTED ('"' :: rest) Token NewArgv =
      tokenizeLoop MarkEOLs .UNQUOTED rest Token NewArgv := by
  rw [tokenizeLoop, if_pos rfl]

def TokenizeWindowsCommandLine (Src : Text) (MarkEOLs : Bool) : Option (List (Option Text)) :=
  (tokenizeLoop MarkEOLs .INIT Src [] []).map fun NewArgv =>
    if MarkEOLs then NewArgv ++ [none] else NewArgv

/-! ## The length -/

/-- The number of characters that are counted for an argument's text, behind some of it. -/
def charsLength (before : Text) : Text → Nat
  | [] => 0
  | C :: Str =>
    (if C = '"' then CountPrecedingBackslashes before + 1 else 0) + 1 +
      charsLength (before ++ [C]) Str

/-- The length of an argument as it is counted, without a bound. -/
def argLength (Str : Text) : Nat :=
  (if ArgNeedsQuotes Str then CountPrecedingBackslashes Str + 3 else 0) + charsLength [] Str

/-- The length of a command line as it is counted, without a bound. -/
def fullLength (Args : List Text) : Nat := (Args.map fun arg => argLength arg + 1).foldr (· + ·) 0

theorem argLenLoop_eq (before Str : Text) (len : Nat) :
    toUnsigned (argLenLoop before Str len) = toUnsigned (len + charsLength before Str) := by
  induction Str generalizing before len with
  | nil => rfl
  | cons C Str ih =>
    rw [argLenLoop, ih, charsLength]
    unfold toUnsigned
    split_ifs <;> omega

theorem ArgLenWithQuotes_eq (Str : Text) :
    toUnsigned (ArgLenWithQuotes Str) = toUnsigned (argLength Str) := by
  have hloop := argLenLoop_eq [] Str
  unfold ArgLenWithQuotes argLength
  cases ArgNeedsQuotes Str with
  | true =>
    have h := hloop 2
    simp only [if_true]
    unfold toUnsigned at *
    omega
  | false =>
    have h := hloop 0
    simp only [Bool.false_eq_true, if_false]
    rw [h]

theorem commandLength_eq (Args : List Text) :
    commandLength Args = toUnsigned (fullLength Args) := by
  have hfold : ∀ len, Args.foldl
      (fun len arg => toUnsigned (len + toUnsigned (ArgLenWithQuotes arg + 1))) (toUnsigned len) =
        toUnsigned (len + fullLength Args) := by
    induction Args with
    | nil => exact fun len => rfl
    | cons arg Args ih =>
      intro len
      have harg := ArgLenWithQuotes_eq arg
      have hstep : toUnsigned (toUnsigned len + toUnsigned (ArgLenWithQuotes arg + 1)) =
          toUnsigned (len + (argLength arg + 1)) := by
        unfold toUnsigned at *
        omega
      have hfull : fullLength (arg :: Args) = argLength arg + 1 + fullLength Args := rfl
      rw [foldl_cons, hstep, ih, hfull, Nat.add_assoc]
  have h := hfold 0
  rwa [Nat.zero_add] at h

theorem length_writeChars (before arg : Text) :
    (writeChars before arg).length = charsLength before arg := by
  induction arg generalizing before with
  | nil => rfl
  | cons C arg ih =>
    rw [writeChars, charsLength, length_append, length_cons, ih]
    split_ifs
    · simp [EscapePrecedingEscapes]
      omega
    · simp
      omega

theorem length_flattenArg (arg : Text) :
    (flattenArg arg).length + (if ArgNeedsQuotes arg then 1 else 0) = argLength arg + 1 := by
  unfold flattenArg argLength
  simp only [length_append, length_writeChars]
  split_ifs
  · simp [EscapePrecedingEscapes]
    omega
  · simp

theorem length_flattenArgs (Args : List Text) :
    ∃ q, (flattenArgs Args).length + q = fullLength Args ∧
    3 * q ≤ (flattenArgs Args).length := by
  induction Args with
  | nil => exact ⟨0, rfl, Nat.zero_le _⟩
  | cons arg Args ih =>
    obtain ⟨q, hq, hle⟩ := ih
    have harg := length_flattenArg arg
    have hfull : fullLength (arg :: Args) = argLength arg + 1 + fullLength Args := rfl
    have hlength : (flattenArgs (arg :: Args)).length =
        (flattenArg arg).length + (flattenArgs Args).length := by
      unfold flattenArgs
      rw [flatMap_cons, length_append]
    cases hquoted : ArgNeedsQuotes arg with
    | true =>
      have hthree : 3 ≤ argLength arg := by
        unfold argLength
        rw [if_pos hquoted]
        omega
      rw [if_pos hquoted] at harg
      exact ⟨q + 1, by omega, by omega⟩
    | false =>
      rw [if_neg (by simp [hquoted])] at harg
      exact ⟨q, by omega, by omega⟩

theorem length_le_iff (Args : List Text) :
    (flattenArgs Args).length ≤ commandLength Args ↔ fullLength Args < 2 ^ 32 := by
  obtain ⟨q, hq, hle⟩ := length_flattenArgs Args
  rw [commandLength_eq]
  unfold toUnsigned
  omega

/-! ## The round trip -/

/-- The runs of backslashes that are written for an argument, with a number of backslashes before
its text. -/
def runs : Nat → Text → List Nat
  | k, [] => [2 * k]
  | k, C :: arg =>
    if C = '"' then (2 * k + 1) :: runs 0 arg
    else if C = '\\' then runs (k + 1) arg
    else k :: runs 0 arg

/-- The runs of backslashes of an argument fit an `int`. -/
def ShortRuns (arg : Text) : Prop := ∀ r ∈ runs 0 arg, r < 2 ^ 31

/-- What is written behind a number of backslashes. -/
def escaped : Nat → Text → Text
  | k, [] => replicate k '\\' ++ ['"']
  | k, C :: arg =>
    if C = '"' then replicate k '\\' ++ '\\' :: '"' :: escaped 0 arg
    else if C = '\\' then '\\' :: escaped (k + 1) arg
    else C :: escaped 0 arg

theorem length_takeWhile_concat (before : Text) (C : Char) :
    ((before ++ [C]).reverse.takeWhile (· = '\\')).length =
      if C = '\\' then (before.reverse.takeWhile (· = '\\')).length + 1 else 0 := by
  rw [reverse_append, reverse_singleton, singleton_append]
  split_ifs with hC
  · rw [takeWhile_cons_of_pos (by simpa using hC), length_cons]
  · rw [takeWhile_cons_of_neg (by simpa using hC), length_nil]

theorem writeChars_eq (before arg : Text) (h : before.length + arg.length < 2 ^ 32) :
    writeChars before arg ++ (EscapePrecedingEscapes (before ++ arg) ++ ['"']) =
      escaped (before.reverse.takeWhile (· = '\\')).length arg := by
  have hescape : ∀ {text : Text}, text.length < 2 ^ 32 → EscapePrecedingEscapes text =
      replicate (text.reverse.takeWhile (· = '\\')).length '\\' := by
    intro text hlt
    have hprefix : text.reverse.takeWhile (· = '\\') <+: text.reverse := takeWhile_prefix _
    have hle := hprefix.length_le
    rw [length_reverse] at hle
    unfold EscapePrecedingEscapes CountPrecedingBackslashes
    rw [toUnsigned_of_lt (by omega)]
  induction arg generalizing before with
  | nil =>
    rw [append_nil, hescape (by omega)]
    rfl
  | cons C arg ih =>
    rw [length_cons] at h
    have hrest := ih (before ++ [C]) (by simp; omega)
    have hassoc : before ++ C :: arg = before ++ [C] ++ arg := by simp
    rw [writeChars, hassoc, escaped, append_assoc, cons_append, hrest, length_takeWhile_concat]
    by_cases hquote : C = '"'
    · subst hquote
      rw [if_pos rfl, if_pos rfl, if_neg (by simp), hescape (by omega)]
      simp
    · rw [if_neg hquote, if_neg hquote]
      by_cases hslash : C = '\\'
      · rw [if_pos hslash, if_pos hslash, hslash, nil_append]
      · rw [if_neg hslash, if_neg hslash, nil_append]

section Tokens

variable {MarkEOLs : Bool} {rest Token : Text} {NewArgv : List (Option Text)}

theorem takeWhile_run {rest : Text} (n : Nat) {C : Char} (hC : C ≠ '\\') :
    (replicate n '\\' ++ C :: rest).takeWhile (· = '\\') = replicate n '\\' ∧
      (replicate n '\\' ++ C :: rest).dropWhile (· = '\\') = C :: rest := by
  induction n with
  | zero =>
    exact ⟨takeWhile_cons_of_neg (by simpa using hC), dropWhile_cons_of_neg (by simpa using hC)⟩
  | succ n ih =>
    rw [replicate_succ, cons_append]
    rw [takeWhile_cons_of_pos (by simp), dropWhile_cons_of_pos (by simp), ih.1]
    exact ⟨rfl, ih.2⟩

theorem parseBackslash_quote (n : Nat) :
    parseBackslash (replicate n '\\' ++ '"' :: rest) Token =
      if n + 1 < 2 ^ 31 then
        if (n + 1) % 2 = 0 then
          some ('"' :: rest, Token ++ replicate ((n + 1) / 2) '\\')
        else some (rest, Token ++ replicate ((n + 1) / 2) '\\' ++ ['"'])
      else none := by
  have hquote : '"' ≠ '\\' := by simp
  obtain ⟨htake, hdrop⟩ := takeWhile_run n hquote
  unfold parseBackslash
  rw [htake, hdrop, length_replicate]
  dsimp only
  rw [head?_cons, if_pos rfl, tail_cons]

theorem parseBackslash_other (n : Nat) {C : Char} (hslash : C ≠ '\\') (hquote : C ≠ '"') :
    parseBackslash (replicate n '\\' ++ C :: rest) Token =
      if n + 1 < 2 ^ 31 then some (C :: rest, Token ++ replicate (n + 1) '\\') else none := by
  obtain ⟨htake, hdrop⟩ := takeWhile_run n hslash
  unfold parseBackslash
  rw [htake, hdrop, length_replicate]
  dsimp only
  rw [head?_cons, if_neg fun heq => hquote (Option.some.inj heq)]

theorem tokenize_slash {Src : Text} :
    tokenizeLoop MarkEOLs .QUOTED ('\\' :: Src) Token NewArgv =
      (parseBackslash Src Token).bind fun r => tokenizeLoop MarkEOLs .QUOTED r.1 r.2 NewArgv := by
  rw [tokenizeLoop, if_neg (by simp), if_pos rfl]
  split
  · next heq => rw [heq]; rfl
  · next heq => rw [heq]; rfl

theorem tokenize_oddRun (k : Nat) :
    tokenizeLoop MarkEOLs .QUOTED (replicate (2 * k + 1) '\\' ++ '"' :: rest) Token NewArgv =
      if 2 * k + 1 < 2 ^ 31 then
        tokenizeLoop MarkEOLs .QUOTED rest (Token ++ (replicate k '\\' ++ ['"'])) NewArgv
      else none := by
  rw [replicate_succ, cons_append, tokenize_slash, parseBackslash_quote,
    if_neg (by omega : ¬(2 * k + 1) % 2 = 0)]
  split_ifs
  · have hhalf : (2 * k + 1) / 2 = k := by omega
    rw [Option.bind_some, hhalf, append_assoc]
  · rfl

theorem tokenize_evenRun (k : Nat) :
    tokenizeLoop MarkEOLs .QUOTED (replicate (2 * k) '\\' ++ '"' :: rest) Token NewArgv =
      if 2 * k < 2 ^ 31 then
        tokenizeLoop MarkEOLs .UNQUOTED rest (Token ++ replicate k '\\') NewArgv
      else none := by
  cases k with
  | zero =>
    rw [if_pos (by decide), replicate_zero, append_nil]
    exact tokenize_close
  | succ k =>
    have hlen : 2 * (k + 1) = 2 * k + 1 + 1 := by omega
    rw [hlen, replicate_succ, cons_append, tokenize_slash, parseBackslash_quote,
      if_pos (by omega : (2 * k + 1 + 1) % 2 = 0)]
    split_ifs
    · have hhalf : (2 * k + 1 + 1) / 2 = k + 1 := by omega
      rw [Option.bind_some, hhalf]
      exact tokenize_close
    · rfl

theorem tokenize_plainRun (k : Nat) {C : Char} (hslash : C ≠ '\\') (hquote : C ≠ '"') :
    tokenizeLoop MarkEOLs .QUOTED (replicate k '\\' ++ C :: rest) Token NewArgv =
      if k < 2 ^ 31 then
        tokenizeLoop MarkEOLs .QUOTED rest (Token ++ (replicate k '\\' ++ [C])) NewArgv
      else none := by
  have hchar : ∀ Token, tokenizeLoop MarkEOLs .QUOTED (C :: rest) Token NewArgv =
      tokenizeLoop MarkEOLs .QUOTED rest (Token ++ [C]) NewArgv := by
    intro Token
    rw [tokenizeLoop, if_neg hquote, if_neg hslash]
  cases k with
  | zero =>
    exact hchar Token
  | succ k =>
    rw [replicate_succ, cons_append, tokenize_slash, parseBackslash_other k hslash hquote]
    split_ifs
    · rw [Option.bind_some, hchar, append_assoc, replicate_succ]
    · rfl

theorem read_cons {α : Type} {n : Nat} {ns : List Nat} {text text' result : Option α}
    (htext : text = if n < 2 ^ 31 then text' else none)
    (h : ((∀ r ∈ ns, r < 2 ^ 31) → text' = result) ∧ ((∃ r ∈ ns, ¬r < 2 ^ 31) → text' = none)) :
    ((∀ r ∈ n :: ns, r < 2 ^ 31) → text = result) ∧
      ((∃ r ∈ n :: ns, ¬r < 2 ^ 31) → text = none) := by
  subst htext
  refine ⟨fun hall => ?_, fun ⟨r, hr, hlong⟩ => ?_⟩
  · rw [if_pos (hall _ mem_cons_self), h.1 fun r hr => hall r (mem_cons_of_mem _ hr)]
  · split_ifs with hshort
    · rcases mem_cons.mp hr with rfl | hr
      · exact absurd hshort hlong
      · exact h.2 ⟨r, hr, hlong⟩
    · rfl

theorem tokenize_escaped (k : Nat) (arg : Text) :
    ((∀ r ∈ runs k arg, r < 2 ^ 31) →
      tokenizeLoop MarkEOLs .QUOTED (replicate k '\\' ++ (escaped k arg ++ rest)) Token
        NewArgv = tokenizeLoop MarkEOLs .UNQUOTED rest
          (Token ++ (replicate k '\\' ++ arg)) NewArgv) ∧
    ((∃ r ∈ runs k arg, ¬r < 2 ^ 31) →
      tokenizeLoop MarkEOLs .QUOTED (replicate k '\\' ++ (escaped k arg ++ rest)) Token
        NewArgv = none) := by
  induction arg generalizing k Token with
  | nil =>
    have htext : replicate k '\\' ++ (escaped k [] ++ rest) =
        replicate (2 * k) '\\' ++ '"' :: rest := by
      rw [escaped, append_assoc, ← append_assoc, replicate_append_replicate, Nat.two_mul]
      rfl
    rw [htext, tokenize_evenRun, append_nil]
    refine ⟨fun h => if_pos (h _ (by simp [runs])), fun ⟨r, hr, h⟩ => if_neg ?_⟩
    rw [runs, mem_singleton] at hr
    rwa [← hr]
  | cons C arg ih =>
    by_cases hquote : C = '"'
    · subst hquote
      have htext : replicate k '\\' ++ (escaped k ('"' :: arg) ++ rest) =
          replicate (2 * k + 1) '\\' ++ '"' :: (escaped 0 arg ++ rest) := by
        have hrun : replicate (2 * k + 1) '\\' =
            replicate k '\\' ++ (replicate k '\\' ++ ['\\']) := by
          rw [replicate_succ', Nat.two_mul, ← replicate_append_replicate, append_assoc]
        rw [escaped, if_pos rfl, hrun]
        simp
      have hruns : runs k ('"' :: arg) = (2 * k + 1) :: runs 0 arg := by rw [runs, if_pos rfl]
      have hrest := @ih (Token ++ (replicate k '\\' ++ ['"'])) 0
      rw [replicate_zero, nil_append, nil_append, append_assoc, append_assoc] at hrest
      rw [htext, hruns]
      exact read_cons (tokenize_oddRun k) hrest
    · by_cases hslash : C = '\\'
      · subst hslash
        have hruns : runs k ('\\' :: arg) = runs (k + 1) arg := by
          rw [runs, if_neg hquote, if_pos rfl]
        have htext : replicate k '\\' ++ (escaped k ('\\' :: arg) ++ rest) =
            replicate (k + 1) '\\' ++ (escaped (k + 1) arg ++ rest) := by
          rw [escaped, if_neg hquote, if_pos rfl, replicate_succ']
          simp
        have htoken : replicate k '\\' ++ '\\' :: arg = replicate (k + 1) '\\' ++ arg := by
          rw [replicate_succ']
          simp
        rw [htext, hruns, htoken]
        exact ih (k + 1)
      · have htext : replicate k '\\' ++ (escaped k (C :: arg) ++ rest) =
            replicate k '\\' ++ C :: (escaped 0 arg ++ rest) := by
          rw [escaped, if_neg hquote, if_neg hslash, cons_append]
        have hruns : runs k (C :: arg) = k :: runs 0 arg := by
          rw [runs, if_neg hquote, if_neg hslash]
        have hrest := @ih (Token ++ (replicate k '\\' ++ [C])) 0
        rw [replicate_zero, nil_append, nil_append, append_assoc, append_assoc] at hrest
        rw [htext, hruns]
        exact read_cons (tokenize_plainRun k hslash hquote) hrest

theorem tokenize_space :
    tokenizeLoop MarkEOLs .UNQUOTED (' ' :: rest) Token NewArgv =
      tokenizeLoop MarkEOLs .INIT rest [] (NewArgv ++ [some Token]) := by
  rw [tokenizeLoop, if_pos (by simp [isWhitespace])]
  unfold markEOL
  rw [if_neg (by simp)]

theorem tokenize_unquoted {arg : Text}
    (h : ∀ C ∈ arg, C ∉ quotedChars ∧ C ≠ '\r' ∧ C ≠ '\n') :
    tokenizeLoop MarkEOLs .UNQUOTED (arg ++ ' ' :: rest) Token NewArgv =
      tokenizeLoop MarkEOLs .INIT rest [] (NewArgv ++ [some (Token ++ arg)]) := by
  induction arg generalizing Token with
  | nil =>
    rw [append_nil]
    exact tokenize_space
  | cons C arg ih =>
    obtain ⟨hquoted, hcr, hlf⟩ := h C mem_cons_self
    simp only [quotedChars, mem_cons, not_mem_nil, or_false, not_or] at hquoted
    rw [cons_append, tokenizeLoop, if_neg (by simp [isWhitespace, hquoted, hcr, hlf]),
      if_neg hquoted.2.2.1, if_neg (by simp [hquoted]),
      ih fun C hC => h C (mem_cons_of_mem _ hC)]
    simp

theorem writeChars_plain (before : Text) {arg : Text} (h : ∀ C ∈ arg, C ∉ quotedChars) :
    writeChars before arg = arg := by
  induction arg generalizing before with
  | nil => rfl
  | cons C arg ih =>
    have hquote : C ≠ '"' := fun heq => h C mem_cons_self (by simp [heq, quotedChars])
    rw [writeChars, if_neg hquote, ih _ fun D hD => h D (mem_cons_of_mem _ hD)]
    rfl

theorem runs_plain {arg : Text} (h : ∀ C ∈ arg, C ∉ quotedChars) : ∀ r ∈ runs 0 arg, r = 0 := by
  induction arg with
  | nil => simp [runs]
  | cons C arg ih =>
    have hC := h C mem_cons_self
    have hquote : C ≠ '"' := fun heq => hC (by simp [heq, quotedChars])
    have hslash : C ≠ '\\' := fun heq => hC (by simp [heq, quotedChars])
    intro r hr
    rw [runs, if_neg hquote, if_neg hslash] at hr
    rcases mem_cons.mp hr with rfl | hr
    · rfl
    · exact ih (fun D hD => h D (mem_cons_of_mem _ hD)) r hr

theorem tokenize_flattenArg {arg : Text} (hlength : arg.length < 2 ^ 32)
    (h : ∀ C ∈ arg, C ≠ '\r' ∧ C ≠ '\n') :
    (ShortRuns arg → tokenizeLoop MarkEOLs .INIT (flattenArg arg ++ rest) [] NewArgv =
      tokenizeLoop MarkEOLs .INIT rest [] (NewArgv ++ [some arg])) ∧
    (¬ShortRuns arg → tokenizeLoop MarkEOLs .INIT (flattenArg arg ++ rest) [] NewArgv = none) := by
  cases hquotes : ArgNeedsQuotes arg with
  | true =>
    have htext : flattenArg arg ++ rest = '"' :: (escaped 0 arg ++ ' ' :: rest) := by
      have heq := writeChars_eq [] arg (by simpa using hlength)
      rw [reverse_nil, takeWhile_nil, length_nil, nil_append] at heq
      unfold flattenArg
      simp only [hquotes, if_true]
      rw [← heq]
      simp
    have hopen : tokenizeLoop MarkEOLs .INIT ('"' :: (escaped 0 arg ++ ' ' :: rest)) [] NewArgv =
        tokenizeLoop MarkEOLs .QUOTED (escaped 0 arg ++ ' ' :: rest) [] NewArgv := by
      rw [tokenizeLoop, if_neg (by simp [isWhitespace]), if_pos rfl]
    obtain ⟨hshort, hlong⟩ := @tokenize_escaped MarkEOLs (' ' :: rest) [] NewArgv 0 arg
    rw [htext, hopen]
    refine ⟨fun hruns => (hshort hruns).trans tokenize_space, fun hruns => hlong ?_⟩
    unfold ShortRuns at hruns
    push Not at hruns
    obtain ⟨r, hr, hle⟩ := hruns
    exact ⟨r, hr, Nat.not_lt.mpr hle⟩
  | false =>
    unfold ArgNeedsQuotes at hquotes
    simp only [Bool.or_eq_false_iff, any_eq_false, decide_eq_true_eq] at hquotes
    obtain ⟨hne, hplain⟩ := hquotes
    have hclean : ∀ C ∈ arg, C ∉ quotedChars ∧ C ≠ '\r' ∧ C ≠ '\n' :=
      fun C hC => ⟨hplain C hC, h C hC⟩
    have htext : flattenArg arg ++ rest = arg ++ ' ' :: rest := by
      have hneeds : ArgNeedsQuotes arg = false := by
        simp only [ArgNeedsQuotes, Bool.or_eq_false_iff, any_eq_false, decide_eq_true_eq]
        exact ⟨hne, hplain⟩
      unfold flattenArg
      simp only [hneeds, Bool.false_eq_true, if_false]
      rw [writeChars_plain [] fun C hC => (hclean C hC).1]
      simp
    obtain ⟨C, arg', rfl⟩ : ∃ C arg', arg = C :: arg' :=
      exists_cons_of_ne_nil fun hnil => by simp [hnil] at hne
    have hfirst : tokenizeLoop MarkEOLs .INIT (C :: arg' ++ ' ' :: rest) [] NewArgv =
        tokenizeLoop MarkEOLs .UNQUOTED (C :: arg' ++ ' ' :: rest) [] NewArgv := by
      obtain ⟨hquoted, hcr, hlf⟩ := hclean C mem_cons_self
      simp only [quotedChars, mem_cons, not_mem_nil, or_false, not_or] at hquoted
      have hspace : ¬isWhitespace C = true := by simp [isWhitespace, hquoted, hcr, hlf]
      have hslash : C ≠ '\\' := by simp [hquoted]
      rw [cons_append, tokenizeLoop, tokenizeLoop, if_neg hspace, if_neg hspace,
        if_neg hquoted.2.2.1, if_neg hslash]
    have hruns : ShortRuns (C :: arg') := by
      intro r hr
      rw [runs_plain (fun D hD => (hclean D hD).1) r hr]
      decide
    rw [htext, hfirst, tokenize_unquoted hclean]
    exact ⟨fun _ => rfl, fun hnot => absurd hruns hnot⟩

theorem tokenize_flattenArgs {Args : List Text} (hlength : ∀ arg ∈ Args, arg.length < 2 ^ 32)
    (h : ∀ arg ∈ Args, ∀ C ∈ arg, C ≠ '\r' ∧ C ≠ '\n') :
    ((∀ arg ∈ Args, ShortRuns arg) → tokenizeLoop MarkEOLs .INIT (flattenArgs Args) [] NewArgv =
      some (NewArgv ++ Args.map some)) ∧
    ((∃ arg ∈ Args, ¬ShortRuns arg) →
      tokenizeLoop MarkEOLs .INIT (flattenArgs Args) [] NewArgv = none) := by
  induction Args generalizing NewArgv with
  | nil =>
    refine ⟨fun _ => ?_, fun ⟨arg, harg, _⟩ => absurd harg not_mem_nil⟩
    have hnil : flattenArgs [] = [] := rfl
    rw [hnil, tokenizeLoop, map_nil, append_nil]
    rfl
  | cons arg Args ih =>
    have hcons : flattenArgs (arg :: Args) = flattenArg arg ++ flattenArgs Args :=
      flatMap_cons
    obtain ⟨hshort, hlong⟩ := @tokenize_flattenArg MarkEOLs (flattenArgs Args) NewArgv arg
      (hlength arg mem_cons_self) (h arg mem_cons_self)
    obtain ⟨hall, hex⟩ := @ih (NewArgv ++ [some arg])
      (fun a ha => hlength a (mem_cons_of_mem _ ha))
      (fun a ha => h a (mem_cons_of_mem _ ha))
    rw [hcons]
    refine ⟨fun hruns => ?_, fun ⟨a, ha, hruns⟩ => ?_⟩
    · rw [hshort (hruns arg mem_cons_self), hall fun a ha => hruns a (mem_cons_of_mem _ ha)]
      simp
    · by_cases harg : ShortRuns arg
      · rw [hshort harg]
        rcases mem_cons.mp ha with rfl | ha
        · exact absurd harg hruns
        · exact hex ⟨a, ha, hruns⟩
      · exact hlong harg

end Tokens

theorem length_le_charsLength (before Str : Text) : Str.length ≤ charsLength before Str := by
  induction Str generalizing before with
  | nil => exact Nat.le_refl _
  | cons C Str ih =>
    have := ih (before ++ [C])
    rw [charsLength, length_cons]
    omega

theorem length_lt_fullLength {Args : List Text} {arg : Text} (h : arg ∈ Args) :
    arg.length < fullLength Args := by
  induction Args with
  | nil => exact absurd h not_mem_nil
  | cons a Args ih =>
    have hfull : fullLength (a :: Args) = argLength a + 1 + fullLength Args := rfl
    rw [hfull]
    rcases mem_cons.mp h with rfl | h
    · have hle := length_le_charsLength [] arg
      unfold argLength
      omega
    · have := ih h
      omega

/-- The tokenizer gives back the arguments, and no more characters are written than were counted. -/
def Faithful (MarkEOLs : Bool) (Args : List Text) : Prop :=
  TokenizeWindowsCommandLine (flattenArgs Args) MarkEOLs =
      some (Args.map some ++ if MarkEOLs then [none] else []) ∧
    (flattenArgs Args).length ≤ commandLength Args

/-- The command line is faithful if its length fits an `unsigned`, and its runs of backslashes an
`int`. -/
theorem faithful_iff (MarkEOLs : Bool) {Args : List Text}
    (h : ∀ arg ∈ Args, ∀ C ∈ arg, C ≠ '\x00' ∧ C ≠ '\r' ∧ C ≠ '\n') :
    Faithful MarkEOLs Args ↔ fullLength Args < 2 ^ 32 ∧ ∀ arg ∈ Args, ShortRuns arg := by
  unfold Faithful
  rw [length_le_iff, and_comm]
  refine and_congr_right fun hlength => ?_
  obtain ⟨hall, hex⟩ := @tokenize_flattenArgs MarkEOLs [] Args
    (fun arg harg => (length_lt_fullLength harg).trans hlength)
    (fun arg harg C hC => (h arg harg C hC).2)
  unfold TokenizeWindowsCommandLine
  by_cases hruns : ∀ arg ∈ Args, ShortRuns arg
  · rw [hall hruns]
    refine iff_of_true ?_ hruns
    cases MarkEOLs with
    | true | false => simp
  · refine iff_of_false ?_ hruns
    push Not at hruns
    rw [hex hruns]
    simp

theorem faithful_quoted : Faithful false [['a', '\\', '"', ' ', '\\'], [], ['b']] := by
  refine (faithful_iff false ?_).mpr ⟨?_, ?_⟩
  · simp
  · simp [fullLength, argLength, charsLength, CountPrecedingBackslashes, toUnsigned,
      ArgNeedsQuotes, quotedChars]
  · simp [ShortRuns, runs]

/-- The length of four gigabytes of text is cut. -/
theorem not_faithful_long : ¬Faithful false [replicate (2 ^ 32) 'a'] := by
  rintro ⟨-, hlength⟩
  rw [length_le_iff] at hlength
  have hlt := length_lt_fullLength (mem_singleton_self (replicate (2 ^ 32) 'a'))
  rw [length_replicate] at hlt
  omega

end Zapcc.WindowsCommandLine
