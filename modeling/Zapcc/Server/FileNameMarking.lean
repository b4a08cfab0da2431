import Mathlib.Data.List.Induction
import Zapcc.Server.ArgsHistory

/-!
# Marking the main file name

The server reads the words of a compilation and marks the main file name, the last word that looks
like one. `kept` is what it hands on, `isInput` says which of these words look like a file name.
The main result is `readArgs_marksOnlyMain_iff`: just the main input, the last word, is marked and
made absolute if and only if no option is in the way.
-/

namespace Zapcc.ArgsHistory

open StringRef List

/-- Options whose value is the next argument, which is no input. -/
def nextArgNotInput (Arg : String) : Bool :=
  ["-internal-isystem", "-o", "-I", "-x", "-coverage-file", "-internal-externc-isystem",
    "-main-file-name", "-target-abi", "-target-feature", "-triple", "-ferror-limit",
    "-fmessage-length", "-ftype-visibility", "-fvisibility"].contains Arg

/-- Options that are skipped together with the next argument. -/
def skipsNextArg (Arg : String) : Bool :=
  Arg = "-include-pch" || Arg = "-include-pth" || startswith Arg "-stack-protector"

/-- The variables of the loop that reads the arguments. -/
structure ArgsLoop where
  AH : ArgsHistory
  ResetFlag : Bool := false
  SkipNextArg : Bool := false
  NextArgNotInput : Bool := false

def readArg (s : ArgsLoop) (Arg : String) : ArgsLoop :=
  if s.SkipNextArg then { s with SkipNextArg := false }
  else if Arg = ResetSwitch then { s with ResetFlag := true, AH := s.AH.push_back Arg }
  else if skipsNextArg Arg then { s with SkipNextArg := true }
  else if Arg = "c++-cpp-output" then { s with AH := s.AH.push_back "c++" }
  else if nextArgNotInput Arg then { s with NextArgNotInput := true, AH := s.AH.push_back Arg }
  else if s.NextArgNotInput then { s with NextArgNotInput := false, AH := s.AH.push_back Arg }
  else if startswith Arg "-" then { s with AH := s.AH.push_back Arg }
  -- must be the main file name
  else { s with AH := s.AH.markFileName.push_back Arg }

/-- Read the arguments of a compilation. -/
def readArgs (AH : ArgsHistory) (Args : List String) : ArgsLoop :=
  Args.foldl readArg { AH }

def makeFileNameAbsolute (make_absolute : String → String) (h : ArgsHistory) : ArgsHistory :=
  if h.getFileName = "-" then h
  else { h with currentArgs := h.currentArgs.set h.currentFileNameIndex
                  (make_absolute h.getFileName) }

/-- The words that are not skipped. -/
def kept : List String → List String
  | [] => []
  | Arg :: rest =>
    if skipsNextArg Arg then
      match rest with
      | [] => []
      | _ :: rest => kept rest
    else Arg :: kept rest

/-- The word that is handed on: the language of preprocessed files is replaced. -/
def handedOn (word : String) : String := if word = "c++-cpp-output" then "c++" else word

/-- Whether a word decides if the next one is a value. -/
def decides (word : String) : Bool := word ≠ ResetSwitch && word ≠ "c++-cpp-output"

/-- Whether a value is expected after some words: an option of the list is the last that decides. -/
def expectsValue (words : List String) : Bool :=
  (words.filter decides).getLast?.any nextArgNotInput

/-- Whether a word looks like a file name, after the words before it. -/
def isInput (before : List String) (word : String) : Bool :=
  !startswith word "-" && word ≠ "c++-cpp-output" && !expectsValue before

/-- Just the main input is marked and made absolute, and it is the file name; `-` is no file. -/
structure MarksOnlyMain (make_absolute : String → String) (h : ArgsHistory) (words : List String)
    (main : String) : Prop where
  marked : main ≠ "-" → h.currentFileNameIndex = words.length
  fileName : h.getFileName = main
  unchanged : (h.makeFileNameAbsolute make_absolute).currentArgs =
    words ++ [if main = "-" then main else make_absolute main]

/-- No option is in the way: the last word is kept and looks like a file name, no language is
replaced, and for the standard input no word after the first looks like a file name. -/
structure OnlyMainIsInput (opts : List String) (main : String) : Prop where
  kept_main : kept (opts ++ [main]) = kept opts ++ [main]
  noLanguage : "c++-cpp-output" ∉ kept opts
  file : main ≠ "-" → kept opts ≠ [] ∧ isInput (kept opts) main = true
  stdin : main = "-" → ∀ before word after, kept opts = before ++ word :: after →
    isInput before word = true → before = []

theorem kept_cons (Arg : String) (rest : List String) :
    kept (Arg :: rest) = if skipsNextArg Arg then kept rest.tail else Arg :: kept rest := by
  cases rest <;> rfl

theorem startswith_of_nextArgNotInput {Arg : String} (h : nextArgNotInput Arg = true) :
    startswith Arg "-" = true := by
  have hall : ∀ option ∈ ["-internal-isystem", "-o", "-I", "-x", "-coverage-file",
      "-internal-externc-isystem", "-main-file-name", "-target-abi", "-target-feature", "-triple",
      "-ferror-limit", "-fmessage-length", "-ftype-visibility", "-fvisibility"],
      startswith option "-" = true := by decide
  exact hall Arg (contains_iff_mem.mp h)

theorem ne_resetSwitch_of_skips {Arg : String} (h : skipsNextArg Arg = true) :
    Arg ≠ ResetSwitch := by
  intro heq
  rw [heq] at h
  exact absurd h (by decide)

theorem startswith_of_skips {Arg : String} (h : skipsNextArg Arg = true) :
    startswith Arg "-" = true := by
  simp only [skipsNextArg, Bool.or_eq_true, decide_eq_true_eq] at h
  rcases h with (heq | heq) | hprefix
  · rw [heq]
    decide
  · rw [heq]
    decide
  · refine isPrefixOf_iff_prefix.mpr (List.IsPrefix.trans ?_ ( isPrefixOf_iff_prefix.mp hprefix))
    exact isPrefixOf_iff_prefix.mp (by decide)

theorem expectsValue_append (words : List String) (word : String) :
    expectsValue (words ++ [word]) =
      if decides word then nextArgNotInput word else expectsValue words := by
  unfold expectsValue
  cases hdecides : decides word with
  | true | false => simp [hdecides]

variable {before : List String} {word : String} {s : ArgsLoop}

theorem handedOn_of_isInput
    (h : isInput before word = true) : handedOn word = word := by
  simp only [isInput, Bool.and_eq_true, decide_eq_true_eq] at h
  exact if_neg h.1.2

/-- What reading a word that is not skipped does. -/
structure Reads (before : List String) (word : String) (s s' : ArgsLoop) : Prop where
  args : s'.AH.currentArgs = s.AH.currentArgs ++ [handedOn word]
  skip : s'.SkipNextArg = false
  value : s'.NextArgNotInput = expectsValue (before ++ [word])
  mark : s'.AH.currentFileNameIndex =
    if isInput before word then s.AH.currentArgs.length else s.AH.currentFileNameIndex

theorem readArg_spec
    (hskip : s.SkipNextArg = false) (hword : skipsNextArg word = false)
    (hvalue : s.NextArgNotInput = expectsValue before) :
    Reads before word s (readArg s word) := by
  by_cases hreset : word = ResetSwitch
  · have hread : readArg s word = { s with ResetFlag := true, AH := s.AH.push_back word } := by
      simp [readArg, hskip, hreset]
    have hdash : startswith word "-" = true := by
      rw [hreset]
      decide
    have hcpp : word ≠ "c++-cpp-output" := by
      rw [hreset]
      decide
    rw [hread]
    refine ⟨?_, hskip, ?_, ?_⟩
    · simp [push_back, handedOn, hcpp]
    · simp [expectsValue_append, decides, hreset, hvalue]
    · simp [push_back, isInput, hdash]
  by_cases hcpp : word = "c++-cpp-output"
  · have hread : readArg s word = { s with AH := s.AH.push_back "c++" } := by
      rw [hcpp] at hreset hword ⊢
      simp [readArg, hskip, hreset, hword]
    rw [hread]
    refine ⟨?_, hskip, ?_, ?_⟩
    · simp [push_back, handedOn, hcpp]
    · simp [expectsValue_append, decides, hcpp, hvalue]
    · simp [push_back, isInput, hcpp]
  have hdecides : decides word = true := by simp [decides, hreset, hcpp]
  have hhanded : handedOn word = word := if_neg hcpp
  cases hoption : nextArgNotInput word with
  | true =>
    have hread : readArg s word =
        { s with NextArgNotInput := true, AH := s.AH.push_back word } := by
      simp [readArg, hskip, hreset, hword, hcpp, hoption]
    have hdash := startswith_of_nextArgNotInput hoption
    rw [hread]
    refine ⟨?_, hskip, ?_, ?_⟩
    · simp [push_back, hhanded]
    · simp [expectsValue_append, hdecides, hoption]
    · simp [push_back, isInput, hdash]
  | false =>
    cases hexpects : s.NextArgNotInput with
    | true =>
      have hread : readArg s word =
          { s with NextArgNotInput := false, AH := s.AH.push_back word } := by
        simp [readArg, hskip, hreset, hword, hcpp, hoption, hexpects]
      rw [hread]
      refine ⟨?_, hskip, ?_, ?_⟩
      · simp [push_back, hhanded]
      · simp [expectsValue_append, hdecides, hoption]
      · simp [push_back, isInput, ← hvalue, hexpects]
    | false =>
      have hbefore : expectsValue before = false := hvalue.symm.trans hexpects
      cases hdash : startswith word "-" with
      | true =>
        have hread : readArg s word = { s with AH := s.AH.push_back word } := by
          simp [readArg, hskip, hreset, hword, hcpp, hoption, hexpects, hdash]
        rw [hread]
        refine ⟨?_, hskip, ?_, ?_⟩
        · simp [push_back, hhanded]
        · simp [expectsValue_append, hdecides, hoption, hexpects]
        · simp [push_back, isInput, hdash]
      | false =>
        have hread : readArg s word = { s with AH := s.AH.markFileName.push_back word } := by
          simp [readArg, hskip, hreset, hword, hcpp, hoption, hexpects, hdash]
        rw [hread]
        refine ⟨?_, hskip, ?_, ?_⟩
        · simp [push_back, markFileName, hhanded]
        · simp [expectsValue_append, hdecides, hoption, hexpects]
        · simp [push_back, markFileName, isInput, hdash, hcpp, hbefore]

theorem readArg_skip (hskip : s.SkipNextArg = false)
    (hword : skipsNextArg word = false) : (readArg s word).SkipNextArg = false := by
  unfold readArg
  simp only [hskip, hword, Bool.false_eq_true, if_false]
  split_ifs <;> rfl

theorem readArg_of_skips (hskip : s.SkipNextArg = false)
    (hword : skipsNextArg word = true) : readArg s word = { s with SkipNextArg := true } := by
  simp [readArg, hskip, ne_resetSwitch_of_skips hword, hword]

theorem foldl_readArg_kept (Args : List String) (hskip : s.SkipNextArg = false) :
    { Args.foldl readArg s with SkipNextArg := false } = (kept Args).foldl readArg s := by
  induction Args using kept.induct generalizing s with
  | case1 =>
    show { s with SkipNextArg := false } = s
    rw [← hskip]
  | case2 Arg h =>
    simp only [kept, h, if_true, foldl_cons, foldl_nil, readArg_of_skips hskip h]
    rw [← hskip]
  | case3 Arg h value rest ih =>
    have hvalue : readArg { s with SkipNextArg := true } value = s := by
      simp only [readArg, if_true]
      rw [← hskip]
    simp only [kept, h, if_true, foldl_cons, readArg_of_skips hskip h, hvalue]
    exact ih hskip
  | case4 Arg rest h ih =>
    rw [kept_cons, if_neg h, foldl_cons, foldl_cons]
    exact ih (readArg_skip hskip (by simpa using h))

theorem skipsNextArg_of_mem_kept {Args : List String} (h : word ∈ kept Args) :
    skipsNextArg word = false := by
  induction Args using kept.induct with
  | case1 => exact absurd h not_mem_nil
  | case2 Arg hskips => simp [kept, hskips] at h
  | case3 Arg hskips value rest ih => exact ih (by simpa [kept, hskips] using h)
  | case4 Arg rest hskips ih =>
    rw [kept_cons, if_neg hskips] at h
    rcases mem_cons.mp h with heq | h
    · rw [heq]
      simpa using hskips
    · exact ih h

theorem kept_append (opts : List String) {main : String} (hmain : skipsNextArg main = false) :
    kept (opts ++ [main]) = kept opts ++ [main] ∨ kept (opts ++ [main]) = kept opts := by
  induction opts using kept.induct with
  | case1 => simp [kept, hmain]
  | case2 Arg hskips => simp [kept, hskips]
  | case3 Arg hskips value rest ih => simpa [kept, hskips] using ih
  | case4 Arg rest hskips ih =>
    rw [cons_append, kept_cons, kept_cons, if_neg hskips, if_neg hskips]
    simpa using ih

/-- The marked position after some words: the last word that looks like a file name, or zero. -/
structure MarkOf (words : List String) (index : Nat) : Prop where
  last : ∀ before word after, words = before ++ word :: after → isInput before word = true →
    before.length ≤ index
  mem : index ≠ 0 → ∃ before word after, words = before ++ word :: after ∧
    isInput before word = true ∧ index = before.length

theorem append_singleton_eq_append_cons {words after : List String} {last : String} :
    words ++ [last] = before ++ word :: after ↔ (before = words ∧ word = last ∧ after = []) ∨
        ∃ rest, after = rest ++ [last] ∧ words = before ++ word :: rest := by
  constructor
  · intro h
    rcases eq_nil_or_concat after with hnil | ⟨rest, final, hconcat⟩
    · rw [hnil] at h
      obtain ⟨hbefore, hword⟩ := append_inj' h rfl
      exact Or.inl ⟨hbefore.symm, (singleton_inj.mp hword).symm, hnil⟩
    · rw [hconcat, concat_eq_append, ← cons_append, ← append_assoc] at h
      obtain ⟨hwords, hfinal⟩ := append_inj' h rfl
      refine Or.inr ⟨rest, ?_, hwords⟩
      rw [hconcat, concat_eq_append, singleton_inj.mp hfinal]
  · intro h
    rcases h with ⟨hbefore, hword, hafter⟩ | ⟨rest, hafter, hwords⟩
    · rw [hbefore, hword, hafter]
    · rw [hafter, hwords, append_assoc, cons_append]

theorem MarkOf.append {words : List String} {index : Nat} (h : MarkOf words index)
    (word : String) :
    MarkOf (words ++ [word]) (if isInput words word then words.length else index) := by
  have hle : index ≤ words.length := by
    by_contra hlt
    obtain ⟨before, found, after, hwords, -, hindex⟩ := h.mem (by omega)
    have hlength := congrArg List.length hwords
    simp only [length_append, length_cons] at hlength
    omega
  refine ⟨fun before found after heq hinput => ?_, fun hne => ?_⟩
  · rcases append_singleton_eq_append_cons.mp heq with ⟨hbefore, hfound, -⟩ | ⟨rest, -, hwords⟩
    · rw [hbefore, hfound] at hinput
      rw [if_pos hinput, hbefore]
    · have hlast := h.last before found rest hwords hinput
      split_ifs <;> omega
  · by_cases hinput : isInput words word = true
    · exact ⟨words, word, [], rfl, hinput, if_pos hinput⟩
    · rw [if_neg hinput] at hne ⊢
      obtain ⟨before, found, after, hwords, hfound, hindex⟩ := h.mem hne
      exact ⟨before, found, after ++ [word], by rw [hwords]; simp, hfound, hindex⟩

/-- The state of the loop after some words that are not skipped. -/
structure LoopAfter (words : List String) (s : ArgsLoop) : Prop where
  args : s.AH.currentArgs = words.map handedOn
  skip : s.SkipNextArg = false
  value : s.NextArgNotInput = expectsValue words
  mark : MarkOf words s.AH.currentFileNameIndex

theorem loopAfter_foldl {AH : ArgsHistory} (hargs : AH.currentArgs = [])
    (hindex : AH.currentFileNameIndex = 0) (words : List String)
    (hwords : ∀ word ∈ words, skipsNextArg word = false) :
    LoopAfter words (words.foldl readArg { AH }) := by
  induction words using List.reverseRecOn with
  | nil =>
    refine ⟨hargs, rfl, rfl, ⟨fun before word after h _ => ?_, fun hne => absurd hindex hne⟩⟩
    exact absurd h.symm (by simp)
  | append_singleton words word ih =>
    have hbefore := ih fun w hw => hwords w (mem_append_left _ hw)
    have hread := readArg_spec hbefore.skip (hwords word (by simp)) hbefore.value
    rw [foldl_append, foldl_cons, foldl_nil]
    refine ⟨?_, hread.skip, hread.value, ?_⟩
    · rw [hread.args, hbefore.args, map_append, map_singleton]
    · rw [hread.mark, hbefore.args, length_map]
      exact hbefore.mark.append word

structure HistoryAfter (words : List String) (h : ArgsHistory) : Prop where
  args : h.currentArgs = words.map handedOn
  mark : MarkOf words h.currentFileNameIndex

theorem readArgs_spec (AH : ArgsHistory) (Reset : Bool) (Args : List String) :
    HistoryAfter (kept Args) (readArgs (AH.clear Reset) Args).AH := by
  have hclear : (AH.clear Reset).currentArgs = [] ∧ (AH.clear Reset).currentFileNameIndex = 0 := by
    cases Reset <;> exact ⟨rfl, rfl⟩
  have hloop := loopAfter_foldl hclear.1 hclear.2 (kept Args) fun _ => skipsNextArg_of_mem_kept
  rw [← foldl_readArg_kept Args rfl] at hloop
  exact ⟨hloop.args, hloop.mark⟩

section MarksOnlyMain

variable {words : List String} {h : ArgsHistory} {main : String}

theorem HistoryAfter.getFileName_eq (hafter : HistoryAfter words h)
    (hne : h.currentFileNameIndex ≠ 0) :
    ∃ before after, words = before ++ h.getFileName :: after ∧
      isInput before h.getFileName = true ∧ h.currentFileNameIndex = before.length := by
  obtain ⟨before, word, after, hwords, hinput, hindex⟩ := hafter.mark.mem hne
  have hname : h.getFileName = word := by
    rw [getFileName, if_neg hne, hafter.args, hindex, hwords]
    simp [getD_eq_getElem?_getD, handedOn_of_isInput hinput]
  rw [hname]
  exact ⟨before, after, hwords, hinput, hindex⟩

theorem HistoryAfter.index_eq_zero (hafter : HistoryAfter words h) (hname : h.getFileName = "-") :
    h.currentFileNameIndex = 0 := by
  by_contra hne
  obtain ⟨before, after, -, hinput, -⟩ := hafter.getFileName_eq hne
  rw [hname] at hinput
  simp [isInput, startswith] at hinput

theorem map_handedOn_eq_iff : words.map handedOn = words ↔ "c++-cpp-output" ∉ words := by
  constructor
  · intro heq hmem
    have hall : ∀ word ∈ words, handedOn word = id word :=
      map_inj_left.mp (heq.trans (map_id words).symm)
    exact absurd (hall _ hmem) (by decide)
  · intro hnot
    refine (map_congr_left fun word hword => ?_).trans (map_id words)
    refine if_neg fun heq => hnot ?_
    rw [← heq]
    exact hword

theorem HistoryAfter.currentArgs_makeFileNameAbsolute
    (hafter : HistoryAfter (words ++ [main]) h) (make_absolute : String → String)
    (hname : h.getFileName = main) (hmarked : main ≠ "-" → h.currentFileNameIndex = words.length) :
    (h.makeFileNameAbsolute make_absolute).currentArgs =
      words.map handedOn ++ [if main = "-" then main else make_absolute main] := by
  by_cases hstdin : main = "-"
  · simp [makeFileNameAbsolute, hname, hstdin, hafter.args, handedOn]
  · simp [makeFileNameAbsolute, hname, hstdin, hafter.args, hmarked hstdin]

theorem length_makeFileNameAbsolute (make_absolute : String → String) (h : ArgsHistory) :
    (h.makeFileNameAbsolute make_absolute).currentArgs.length = h.currentArgs.length := by
  unfold makeFileNameAbsolute
  split_ifs <;> simp

theorem HistoryAfter.onlyMainIsInput {opts : List String} {make_absolute : String → String}
    (hafter : HistoryAfter (kept opts ++ [main]) h)
    (hkept : kept (opts ++ [main]) = kept opts ++ [main])
    (hmarks : MarksOnlyMain make_absolute h (kept opts) main) : OnlyMainIsInput opts main := by
  refine ⟨hkept, ?_, fun hfile => ?_, fun hstdin before word after hopts hinput => ?_⟩
  · have hunchanged := hmarks.unchanged
    rw [hafter.currentArgs_makeFileNameAbsolute make_absolute hmarks.fileName hmarks.marked]
      at hunchanged
    exact map_handedOn_eq_iff.mp (append_cancel_right hunchanged)
  · have hne : h.currentFileNameIndex ≠ 0 := by
      intro hzero
      have hname := hmarks.fileName
      rw [getFileName, if_pos hzero] at hname
      exact hfile hname.symm
    obtain ⟨before, after, hwords, hinput, hindex⟩ := hafter.getFileName_eq hne
    rw [hmarks.marked hfile] at hindex hne
    rw [hmarks.fileName] at hinput
    have hbefore : kept opts = before := (append_inj hwords hindex).1
    refine ⟨fun hnil => hne ?_, ?_⟩
    · rw [hnil]
      rfl
    · rw [hbefore]
      exact hinput
  · have hzero := hafter.index_eq_zero (hmarks.fileName.trans hstdin)
    have hlast := hafter.mark.last before word (after ++ [main]) (by rw [hopts]; simp) hinput
    rw [hzero] at hlast
    exact length_eq_zero_iff.mp (Nat.le_zero.mp hlast)

theorem HistoryAfter.marksOnlyMain {opts : List String} (make_absolute : String → String)
    (hafter : HistoryAfter (kept opts ++ [main]) h) (honly : OnlyMainIsInput opts main) :
    MarksOnlyMain make_absolute h (kept opts) main := by
  have hmarked (hfile : main ≠ "-") : h.currentFileNameIndex = (kept opts).length := by
    obtain ⟨hne, hinput⟩ := honly.file hfile
    have hlast := hafter.mark.last (kept opts) main [] rfl hinput
    have hpositive := length_pos_iff.mpr hne
    obtain ⟨before, word, after, hwords, -, hindex⟩ := hafter.mark.mem (by omega)
    have hlength := congrArg List.length hwords
    simp only [length_append, length_cons, length_nil] at hlength
    omega
  have hname : h.getFileName = main := by
    by_cases hstdin : main = "-"
    · rw [getFileName, if_pos, hstdin]
      by_contra hne
      obtain ⟨before, word, after, hwords, hinput, hindex⟩ := hafter.mark.mem hne
      rcases append_singleton_eq_append_cons.mp hwords with ⟨-, hword, -⟩ | ⟨rest, -, hopts⟩
      · rw [hword, hstdin] at hinput
        simp [isInput, startswith] at hinput
      · rw [honly.stdin hstdin before word rest hopts hinput] at hindex
        exact hne hindex
    · obtain ⟨hne, hinput⟩ := honly.file hstdin
      have hlength := length_pos_iff.mpr hne
      have hindex : h.currentFileNameIndex ≠ 0 := by
        rw [hmarked hstdin]
        omega
      rw [getFileName, if_neg hindex, hafter.args, hmarked hstdin]
      simp [getD_eq_getElem?_getD, handedOn_of_isInput hinput]
  refine ⟨hmarked, hname, ?_⟩
  rw [hafter.currentArgs_makeFileNameAbsolute make_absolute hname hmarked,
    map_handedOn_eq_iff.mpr honly.noLanguage]

/-- Just the main input is marked and made absolute if and only if no option is in the way. -/
theorem readArgs_marksOnlyMain_iff (make_absolute : String → String) (AH : ArgsHistory)
    (Reset : Bool) (opts : List String) (main : String)
    (hmain : main = "-" ∨ startswith main "-" = false) :
    MarksOnlyMain make_absolute (readArgs (AH.clear Reset) (opts ++ [main])).AH (kept opts) main ↔
      OnlyMainIsInput opts main := by
  have hskips : skipsNextArg main = false := by
    by_contra hskips
    rcases hmain with hstdin | hfile
    · rw [hstdin] at hskips
      exact hskips (by decide)
    · rw [startswith_of_skips (by simpa using hskips)] at hfile
      exact absurd hfile (by decide)
  have hafter := readArgs_spec AH Reset (opts ++ [main])
  constructor
  · intro hmarks
    rcases kept_append opts hskips with hkept | hkept
    · rw [hkept] at hafter
      exact hafter.onlyMainIsInput hkept hmarks
    · rw [hkept] at hafter
      have hlength := congrArg List.length hmarks.unchanged
      rw [length_makeFileNameAbsolute, hafter.args] at hlength
      simp at hlength
  · intro honly
    rw [honly.kept_main] at hafter
    exact hafter.marksOnlyMain make_absolute honly

/-- Just the file is marked after options with and without values. -/
theorem readArgs_marksOnlyMain_file :
    MarksOnlyMain (fun FileName => "/src/" ++ FileName)
      (readArgs (clear {} true) (["-cc1", "-O2", "-o", "a.o", "-x", "c++"] ++ ["a.cpp"])).AH
      (kept ["-cc1", "-O2", "-o", "a.o", "-x", "c++"]) "a.cpp" :=
  (readArgs_marksOnlyMain_iff _ {} true _ "a.cpp" (Or.inr (by decide))).mpr
    ⟨by decide, by decide, fun _ => ⟨by decide, by decide⟩, fun h => absurd h (by decide)⟩

/-- The value of an option that is not in the list is taken for the file name. -/
theorem readArgs_marks_option_value :
    (readArgs (clear {} true) (["-cc1", "-mrelocation-model", "pic"] ++ ["-"])).AH.getFileName =
        "pic" ∧
      ¬ MarksOnlyMain (fun FileName => "/src/" ++ FileName)
        (readArgs (clear {} true) (["-cc1", "-mrelocation-model", "pic"] ++ ["-"])).AH
        (kept ["-cc1", "-mrelocation-model", "pic"]) "-" := by
  have hname : (readArgs (clear {} true)
      (["-cc1", "-mrelocation-model", "pic"] ++ ["-"])).AH.getFileName = "pic" := by decide
  refine ⟨hname, fun h => ?_⟩
  exact absurd (hname.symm.trans h.fileName) (by decide)

end MarksOnlyMain

end Zapcc.ArgsHistory
