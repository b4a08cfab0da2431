import Mathlib.Data.List.Count
import Zapcc.Library.Wildcards
import Zapcc.Support.ResponseFile

/-!
# The patterns of files

The sections of the configuration that say which files are unloaded, and which are not, hold
patterns with wildcards. A pattern is matched by its shape: most patterns are suffixes, parts of
names or names, and the loop of `WildMatch6` is for the others. It remembers only the last star.
The main result is `match_iff`: all of these agree with the meaning of the patterns.
-/

namespace Zapcc.Unload

open Wildcards List Nat
open ResponseFile (Text upToNul)

/-- What a character of a pattern means. -/
def item (c : Char) : Item Char :=
  if c = '*' then .any else if c = '?' then .one (· ≠ '.') else .one (· = c)

/-- Whether a pattern matches a name. -/
def Glob (pat name : Text) : Prop := Matches (pat.map item) name

/-- How the comparison of a string with a pattern ends: at the end of the string, at a star of the
pattern or at a character that does not match. -/
inductive Scan
  | finished (result : Bool)
  | star (s p : Text)
  | mismatch

/-- Compare a string with a pattern. -/
def scan : Text → Text → Scan
  | [], p => .finished (p.dropWhile (· = '*')).isEmpty
  | _ :: _, [] => .mismatch
  | c :: s, q :: p =>
    if q = '?' then
      if c = '.' then .mismatch else scan s p
    else if q = '*' then .star (c :: s) p
    else if c ≠ q then .mismatch
    else scan s p

variable {pat s : Text} {c : Char}

theorem length_of_scan_star {str p : Text} (h : scan str pat = .star s p) :
    p.length < pat.length := by
  induction str generalizing pat with
  | nil => cases h
  | cons c str ih =>
    cases pat with
    | nil => cases h
    | cons q pat =>
      unfold scan at h
      split_ifs at h
      · exact lt_succ_of_lt (ih h)
      · cases h
        exact lt_succ_self _
      · exact lt_succ_of_lt (ih h)

/-- The string `str` from the last star on, and the pattern behind the star. -/
def wildLoop (star : Bool) (str pat : Text) : Bool :=
  match _hscan : scan str pat with
  | .finished result => result
  | .star s p =>
    let pat := p.dropWhile (· = '*')
    if pat = [] then true else wildLoop true s pat
  | .mismatch =>
    -- without a star there is no other try
    if star then
      match str with
      | [] => false
      | _ :: str => wildLoop star str pat
    else false
  termination_by (pat.length, str.length)
  decreasing_by
    · exact Prod.Lex.left _ _ (Nat.lt_of_le_of_lt (dropWhile_suffix _).length_le
        (length_of_scan_star _hscan))
    · exact Prod.Lex.right _ (lt_succ_self _)

/-- Match a string with a pattern, up to their ends. -/
def WildMatch6 (pat str : Text) : Bool := wildLoop false (upToNul str) (upToNul pat)

/-- The characters of a name as they are compared. -/
def normalizeSlashes (Output : Text) : Text :=
  Output.map fun c => if c = '/' ∨ c = '\\' then '/' else c.toLower

/-- How a pattern is matched. -/
inductive MatchType
  | EndsWith
  | Find
  | Same
  | Wild
  deriving DecidableEq, Repr

/-- A pattern, without the stars that its shape says. -/
structure Match where
  Pattern : Text
  type : MatchType

/-- The patterns that a name has to match, and those that it may not match. -/
structure WildRegex where
  YesMatches : List Match
  NoMatches : List Match

/-- The place of a text in a name. -/
def find (Name Str : Text) : Option Nat :=
  (List.range (Name.length + 1)).find? fun From => Str.isPrefixOf (Name.drop From)

/-- The way to match a normalized pattern. -/
def classify (Pat : Text) : Match :=
  if Pat.count '?' = 0 then
    if Pat.count '*' = 0 then ⟨Pat, .Same⟩
    else if Pat.count '*' = 1 ∧ Pat.head? = some '*' then ⟨Pat.tail, .EndsWith⟩
    else if Pat.count '*' = 2 ∧ Pat.head? = some '*' ∧ Pat.getLast? = some '*' then
      ⟨Pat.tail.dropLast, .Find⟩
    else ⟨Pat, .Wild⟩
  else ⟨Pat, .Wild⟩

def WildRegex.addPattern (Regex : WildRegex) (Pattern : Text) : WildRegex :=
  if Pattern.head? = some '!' then
    { Regex with
      NoMatches := Regex.NoMatches ++ [classify (normalizeSlashes Pattern.tail)] }
  else { Regex with YesMatches := Regex.YesMatches ++ [classify (normalizeSlashes Pattern)] }

/-- The patterns of a section. -/
def WildRegex.ofPatterns (Patterns : List Text) : WildRegex := Patterns.foldl addPattern ⟨[], []⟩

def Match.matchOne (M : Match) (Name : Text) : Bool :=
  match M.type with
  | .EndsWith => M.Pattern.isSuffixOf Name
  | .Find => (find Name M.Pattern).isSome
  | .Same => Name = M.Pattern
  | .Wild => WildMatch6 M.Pattern Name

/-- Match a name with some pattern of a kind. -/
def WildRegex.matchAny (Regex : WildRegex) (Name : Text) (No : Bool) : Bool :=
  (if No then Regex.NoMatches else Regex.YesMatches).any fun M => M.matchOne Name

def WildRegex.match (Regex : WildRegex) (Name : Text) : Bool :=
  Regex.matchAny Name false && !Regex.matchAny Name true

/-! ## The loop -/

theorem matchesOne_item {q : Char} (hq : q ≠ '*') :
    (item q).MatchesOne c ↔ if q = '?' then c ≠ '.' else c = q := by
  unfold item
  rw [if_neg hq]
  split_ifs <;> rfl

theorem item_star : item '*' = .any := if_pos rfl

theorem need_cons_of_ne {q : Char} (hq : q ≠ '*') (items : List (Item Char)) :
    need (item q :: items) = need items + 1 := by
  unfold item
  rw [if_neg hq]
  split_ifs <;> rfl

theorem matches_dropWhile_iff {p t : Text} :
    Matches (.any :: (p.dropWhile (· = '*')).map item) t ↔ Matches (.any :: p.map item) t := by
  induction p with
  | nil => exact Iff.rfl
  | cons q p ih =>
    by_cases hq : q = '*'
    · subst hq
      rw [dropWhile_cons_of_pos (by simp), ih, map_cons, item_star, matches_any_any_iff]
    · rw [dropWhile_cons_of_neg (by simpa using hq)]

theorem need_eq_zero_iff {p : Text} :
    need (p.map item) = 0 ↔ (p.dropWhile (· = '*')).isEmpty = true := by
  induction p with
  | nil => exact iff_of_true rfl rfl
  | cons q p ih =>
    by_cases hq : q = '*'
    · subst hq
      rw [dropWhile_cons_of_pos (by simp), ← ih, map_cons, item_star, need]
    · rw [dropWhile_cons_of_neg (by simpa using hq), map_cons, need_cons_of_ne hq]
      exact iff_of_false (succ_ne_zero _) Bool.false_ne_true

theorem item_ne_any {q : Char} (hq : q ≠ '*') : item q ≠ .any := by
  unfold item
  rw [if_neg hq]
  split_ifs
  · exact fun h => by cases h
  · exact fun h => by cases h

theorem scan_cons {q : Char} {p : Text} (hq : q ≠ '*') :
    ((item q).MatchesOne c ∧ scan (c :: s) (q :: p) = scan s p) ∨
      (¬ (item q).MatchesOne c ∧ scan (c :: s) (q :: p) = .mismatch) := by
  rw [matchesOne_item hq, scan]
  split_ifs with hquestion hdot hne <;> simp_all

/-- What the comparison of a string with a pattern says about their match. -/
def Scan.Says (str pat : Text) : Scan → Prop
  | finished result =>
    if result then Glob pat str else str.length < need (pat.map item)
  | star s p => ∃ front r, pat = front ++ '*' :: p ∧ str = r ++ s ∧
      Forall₂ Item.MatchesOne (front.map item) r
  | mismatch => str ≠ [] ∧ ¬ Glob pat str

theorem Scan.Says.cons {q : Char} {str : Text} (hitem : (item q).MatchesOne c)
    {result : Scan} (h : result.Says str pat) : result.Says (c :: str) (q :: pat) := by
  have hfront : Forall₂ Item.MatchesOne [item q] [c] := .cons hitem .nil
  have hne : q ≠ '*' := fun heq => by
    subst heq
    exact hitem
  cases result with
  | finished result =>
    cases result with
    | true =>
      exact (matches_append_iff hfront).mpr h
    | false =>
      show (c :: str).length < need (item q :: pat.map item)
      rw [need_cons_of_ne hne, length_cons]
      exact succ_lt_succ h
  | star s p =>
    obtain ⟨front, r, rfl, rfl, hmatch⟩ := h
    exact ⟨q :: front, c :: r, rfl, rfl, .cons hitem hmatch⟩
  | mismatch =>
    refine ⟨cons_ne_nil c str, fun hglob => h.2 ?_⟩
    exact (matches_append_iff (s := [c]) hfront).mp hglob

theorem scan_says (str pat : Text) : (scan str pat).Says str pat := by
  induction str generalizing pat with
  | nil =>
    show if _ then _ else _
    split_ifs with hempty
    · exact matches_nil_right_iff.mpr (need_eq_zero_iff.mpr hempty)
    · exact Nat.pos_of_ne_zero fun hzero => hempty (need_eq_zero_iff.mp hzero)
  | cons c str ih =>
    cases pat with
    | nil =>
      refine ⟨cons_ne_nil c str, fun hglob => ?_⟩
      exact cons_ne_nil c str (matches_nil_iff.mp hglob)
    | cons q pat =>
      by_cases hq : q = '*'
      · subst hq
        exact ⟨[], [], rfl, rfl, .nil⟩
      · rcases scan_cons (c := c) (s := str) (p := pat) hq with ⟨hitem, hscan⟩ | ⟨hitem, hscan⟩
        · rw [hscan]
          exact (ih pat).cons hitem
        · rw [hscan]
          exact ⟨cons_ne_nil c str, fun hglob =>
            hitem (Matches.matchesOne hglob (item_ne_any hq))⟩

theorem wildLoop_finished {star : Bool} {str : Text} {result : Bool}
    (h : scan str pat = .finished result) : wildLoop star str pat = result := by
  unfold wildLoop
  split <;> simp_all

theorem wildLoop_star {star : Bool} {str p : Text} (h : scan str pat = .star s p) :
    wildLoop star str pat = if p.dropWhile (· = '*') = [] then true
      else wildLoop true s (p.dropWhile (· = '*')) := by
  rw [wildLoop]
  split <;> simp_all

theorem wildLoop_mismatch {star : Bool} {str : Text}
    (h : scan (c :: str) pat = .mismatch) :
    wildLoop star (c :: str) pat = if star then wildLoop star str pat else false := by
  rw [wildLoop]
  split <;> simp_all

theorem matches_of_says_star (star : Bool) {str p : Text}
    (h : (Scan.star s p).Says str pat) :
    (if star then Matches (.any :: pat.map item) str else Glob pat str) ↔
      Matches (.any :: p.map item) s := by
  obtain ⟨front, r, rfl, rfl, hfront⟩ := h
  unfold Glob
  rw [map_append, map_cons, item_star]
  split_ifs
  · exact matches_any_append_iff hfront
  · exact matches_append_iff hfront

theorem wildLoop_iff (star : Bool) (str pat : Text) :
    wildLoop star str pat = true ↔
      if star then Matches (.any :: pat.map item) str else Glob pat str := by
  induction star, str, pat using wildLoop.induct with
  | case1 star str pat result hscan =>
    have hsays := scan_says str pat
    rw [hscan] at hsays
    rw [wildLoop_finished hscan]
    cases result with
    | true =>
      refine iff_of_true rfl ?_
      split_ifs
      · exact matches_any_iff.mpr ⟨str, suffix_refl str, hsays⟩
      · exact hsays
    | false =>
      have hlt : str.length < need (pat.map item) := hsays
      refine iff_of_false Bool.false_ne_true fun h => ?_
      have hle : need (pat.map item) ≤ str.length := by
        split_ifs at h
        · exact h.need_le
        · exact Matches.need_le h
      omega
  | case2 star str pat s p hscan pat' hempty =>
    have hsays := scan_says str pat
    rw [hscan] at hsays
    have hempty : p.dropWhile (· = '*') = [] := hempty
    rw [wildLoop_star hscan, if_pos hempty, matches_of_says_star star hsays,
      ← matches_dropWhile_iff, hempty]
    exact iff_of_true rfl (matches_any_iff.mpr ⟨[], nil_suffix, .nil⟩)
  | case3 star str pat s p hscan pat' hne ih =>
    have hsays := scan_says str pat
    rw [hscan] at hsays
    rw [wildLoop_star hscan, if_neg hne, matches_of_says_star star hsays, ← matches_dropWhile_iff]
    exact ih
  | case4 pat hscan =>
    have hsays := scan_says [] pat
    rw [hscan] at hsays
    exact absurd rfl hsays.1
  | case5 pat c str hscan ih =>
    have hsays := scan_says (c :: str) pat
    rw [hscan] at hsays
    rw [wildLoop_mismatch hscan, if_pos rfl, ih, if_pos rfl, matches_any_cons_iff]
    exact (or_iff_right hsays.2).symm
  | case6 star str pat hscan hstar =>
    have hsays := scan_says str pat
    rw [hscan] at hsays
    rw [if_neg hstar]
    cases str with
    | nil => exact absurd rfl hsays.1
    | cons c str =>
      rw [wildLoop_mismatch hscan, if_neg hstar]
      exact iff_of_false Bool.false_ne_true hsays.2

/-! ## The shapes of patterns -/

theorem map_item_eq_literal (hstar : pat.count '*' = 0)
    (hquestion : pat.count '?' = 0) : pat.map item = literal pat := by
  refine map_congr_left fun c hc => ?_
  rw [count_eq_zero] at hstar hquestion
  have hc' : c ≠ '*' := fun heq => hstar (by rwa [← heq])
  have hc'' : c ≠ '?' := fun heq => hquestion (by rwa [← heq])
  rw [item, if_neg hc', if_neg hc'']

theorem find_isSome_iff {Name Str : Text} : (find Name Str).isSome = true ↔ Str <:+: Name := by
  unfold find
  rw [find?_isSome]
  refine ⟨fun ⟨From, _, h⟩ => ?_, fun ⟨front, back, heq⟩ => ⟨front.length, ?_, ?_⟩⟩
  · exact ( isPrefixOf_iff_prefix.mp h).isInfix.trans (drop_suffix From Name).isInfix
  · rw [mem_range, ← heq]
    simp only [length_append]
    omega
  · rw [ isPrefixOf_iff_prefix, ← heq, append_assoc, drop_left]
    exact prefix_append Str back

/-- Whether a string ends where its characters end. -/
def NulFree (s : Text) : Prop := '\x00' ∉ s

theorem eq_cons_tail (h : s.head? = some c) : s = c :: s.tail := by
  cases s with
  | nil => cases h
  | cons d s =>
    cases h
    rfl

theorem eq_dropLast_concat (h : s.getLast? = some c) :
    s = s.dropLast ++ [c] := (dropLast_append_getLast? c h).symm

theorem matchOne_classify {Pat Name : Text} (hPat : NulFree Pat) (hName : NulFree Name) :
    (classify Pat).matchOne Name = true ↔ Glob Pat Name := by
  have hwild : (⟨Pat, .Wild⟩ : Match).matchOne Name = true ↔ Glob Pat Name := by
    show wildLoop false (upToNul Name) (upToNul Pat) = true ↔ Glob Pat Name
    rw [ResponseFile.upToNul_eq hName, ResponseFile.upToNul_eq hPat, wildLoop_iff]
    exact Iff.rfl
  unfold classify
  split_ifs with hquestion hsame hends hfind
  · show decide (Name = Pat) = true ↔ Glob Pat Name
    rw [decide_eq_true_iff, Glob, map_item_eq_literal hsame hquestion, matches_literal_iff]
  · show Pat.tail.isSuffixOf Name = true ↔ Glob Pat Name
    obtain ⟨hstars, hhead⟩ := hends
    have hPat' := eq_cons_tail hhead
    rw [hPat', count_cons_self] at hstars
    rw [hPat', count_cons_of_ne (by decide)] at hquestion
    have hitems : Pat.map item = .any :: literal Pat.tail := by
      rw [← map_item_eq_literal (by omega) hquestion, ← item_star, ← map_cons, ← hPat']
    rw [isSuffixOf_iff_suffix, Glob, hitems, matches_any_literal_iff]
  · show (find Name Pat.tail.dropLast).isSome = true ↔ Glob Pat Name
    obtain ⟨hstars, hhead, hlast⟩ := hfind
    have hPat' := eq_cons_tail hhead
    rw [hPat', count_cons_self] at hstars
    rw [hPat', count_cons_of_ne (by decide)] at hquestion
    have hne : Pat.tail ≠ [] := fun hnil => by
      rw [hnil, count_nil] at hstars
      omega
    have hlast' : Pat.tail.getLast? = some '*' := by
      rw [hPat', getLast?_cons_of_ne_nil hne] at hlast
      exact hlast
    have htail := eq_dropLast_concat hlast'
    rw [htail, count_append] at hstars hquestion
    have hitems : Pat.map item = .any :: (literal Pat.tail.dropLast ++ [.any]) := by
      have hmiddle : Pat.tail.dropLast.map item = literal Pat.tail.dropLast :=
        map_item_eq_literal (by simpa using hstars) (by omega)
      rw [← hmiddle, ← item_star, ← map_singleton, ← map_append, ← htail, ← map_cons, ← hPat']
    rw [find_isSome_iff, Glob, hitems, matches_any_literal_any_iff]
  · exact hwild
  · exact hwild

/-- What a set of patterns means: some pattern matches, and none behind a `!`. -/
def Selects (Patterns : List Text) (Name : Text) : Prop :=
  (∃ Pattern ∈ Patterns, Pattern.head? ≠ some '!' ∧ Glob (normalizeSlashes Pattern) Name) ∧
    ¬ ∃ Pattern ∈ Patterns, Pattern.head? = some '!' ∧ Glob (normalizeSlashes Pattern.tail) Name

theorem toLower_ne_nul (h : c ≠ '\x00') : c.toLower ≠ '\x00' := by
  unfold Char.toLower
  split_ifs with hupper
  · intro heq
    have hval : (c.val + ('a'.val - 'A'.val)).toNat = 0 := congrArg (fun d => d.val.toNat) heq
    have hhigh := UInt32.le_iff_toNat_le.mp hupper.2
    rw [UInt32.toNat_add, show ('a'.val - 'A'.val).toNat = 32 from rfl] at hval
    rw [show 'Z'.val.toNat = 90 from rfl] at hhigh
    omega
  · exact h

theorem normalizeSlashes_nulFree (h : NulFree s) : NulFree (normalizeSlashes s) := by
  unfold NulFree normalizeSlashes
  rw [mem_map]
  intro ⟨c, hc, heq⟩
  split_ifs at heq
  · exact absurd heq (by decide)
  · exact toLower_ne_nul (fun hnul => h (hnul ▸ hc)) heq

theorem nulFree_tail (h : NulFree s) : NulFree s.tail := fun hmem =>
  h (mem_of_mem_tail hmem)

theorem matchAny_addPattern {Regex : WildRegex} {Pattern Name : Text} (hPattern : NulFree Pattern)
    (hName : NulFree Name) (No : Bool) :
    (Regex.addPattern Pattern).matchAny Name No = true ↔ Regex.matchAny Name No = true ∨
        if No then Pattern.head? = some '!' ∧ Glob (normalizeSlashes Pattern.tail) Name
        else Pattern.head? ≠ some '!' ∧ Glob (normalizeSlashes Pattern) Name := by
  have hyes := matchOne_classify (normalizeSlashes_nulFree hPattern) hName
  have hno := matchOne_classify (normalizeSlashes_nulFree (nulFree_tail hPattern)) hName
  unfold WildRegex.addPattern WildRegex.matchAny
  cases No <;> by_cases hhead : Pattern.head? = some '!' <;> simp [hhead, hyes, hno]

theorem matchAny_foldl {Patterns : List Text} {Name : Text}
    (hPatterns : ∀ Pattern ∈ Patterns, NulFree Pattern) (hName : NulFree Name) (No : Bool)
    (Regex : WildRegex) :
    (Patterns.foldl WildRegex.addPattern Regex).matchAny Name No = true ↔
      Regex.matchAny Name No = true ∨ ∃ Pattern ∈ Patterns,
        if No then Pattern.head? = some '!' ∧ Glob (normalizeSlashes Pattern.tail) Name
        else Pattern.head? ≠ some '!' ∧ Glob (normalizeSlashes Pattern) Name := by
  induction Patterns generalizing Regex with
  | nil => simp
  | cons Pattern Patterns ih =>
    rw [foldl_cons, ih fun P hP => hPatterns P (mem_cons_of_mem _ hP),
      matchAny_addPattern (hPatterns Pattern mem_cons_self) hName, or_assoc]
    simp only [exists_mem_cons_iff]

/-- The patterns match the names that they mean. -/
theorem match_iff {Patterns : List Text} {Name : Text}
    (hPatterns : ∀ Pattern ∈ Patterns, NulFree Pattern) (hName : NulFree Name) :
    (WildRegex.ofPatterns Patterns).match Name = true ↔ Selects Patterns Name := by
  have hany := matchAny_foldl hPatterns hName
  unfold WildRegex.match WildRegex.ofPatterns Selects
  rw [Bool.and_eq_true, Bool.not_eq_true', ← Bool.not_eq_true, hany, hany]
  simp [WildRegex.matchAny]

/-- A name with a part, where files of a kind are left out. -/
theorem match_iff_header :
    (WildRegex.ofPatterns ["*/include/*".toList, "!*.inc".toList]).match "/a/include/b.h".toList =
      true ↔ Selects ["*/include/*".toList, "!*.inc".toList] "/a/include/b.h".toList :=
  match_iff (by simp [NulFree]) (by simp [NulFree])

end Zapcc.Unload
