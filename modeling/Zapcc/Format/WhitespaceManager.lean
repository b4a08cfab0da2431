import Mathlib.Data.BitVec

/-!
# Whitespace of the formatter

The text that `WhitespaceManager` puts before a token. The main result is `lands_iff`: it ends at
the column it was computed for, unless indentation always uses tabs and begins between two tab stops
with room for one tab only (`Misaligned`).
-/

namespace Zapcc.Format

open List Nat

inductive UseTabStyle where
  | Never
  | ForIndentation
  | ForContinuationAndIndentation
  | Always
  deriving DecidableEq

/-- The options that matter for whitespace. A tab has a width. -/
structure FormatStyle where
  UseTab : UseTabStyle
  TabWidth : BitVec 32
  IndentWidth : BitVec 32
  TabWidth_pos : 0 < TabWidth.toNat

/-! ## The code -/

/-- `Text.append(n, c)` to an empty text. -/
def fill (n : BitVec 32) (c : Char) : List Char := List.replicate n.toNat c

/-- What `appendIndentText` appends. -/
def indentText (Style : FormatStyle) (IndentLevel Spaces WhitespaceStartColumn : BitVec 32) :
    List Char :=
  match Style.UseTab with
  | .Never => fill Spaces ' '
  | .Always =>
    let FirstTabWidth := Style.TabWidth - WhitespaceStartColumn % Style.TabWidth
    let first := FirstTabWidth + Style.TabWidth ≤ Spaces
    let Spaces := if first then Spaces - FirstTabWidth else Spaces
    (if first then ['\t'] else []) ++ fill (Spaces / Style.TabWidth) '\t' ++
      fill (Spaces % Style.TabWidth) ' '
  | .ForIndentation =>
    if WhitespaceStartColumn = 0 then
      let Indentation := IndentLevel * Style.IndentWidth
      let Indentation := if Indentation > Spaces then Spaces else Indentation
      let Tabs := Indentation / Style.TabWidth
      fill Tabs '\t' ++ fill (Spaces - Tabs * Style.TabWidth) ' '
    else fill Spaces ' '
  | .ForContinuationAndIndentation =>
    if WhitespaceStartColumn = 0 then
      let Tabs := Spaces / Style.TabWidth
      fill Tabs '\t' ++ fill (Spaces - Tabs * Style.TabWidth) ' '
    else fill Spaces ' '

/-- What `appendNewlineText` appends. -/
def newlineText (UseCRLF : Bool) (Newlines : BitVec 32) : List Char :=
  (List.replicate Newlines.toNat (if UseCRLF then ['\r', '\n'] else ['\n'])).flatten

/-- `std::max<int>(bound, n)`, used as unsigned. -/
def maxInt (bound n : BitVec 32) : BitVec 32 := if bound.slt n then n else bound

/-- The loop of `appendEscapedNewlineText`. -/
def escapedNewlines (UseCRLF : Bool) (EscapedNewlineColumn : BitVec 32) :
    Nat → BitVec 32 → List Char
  | 0, _ => []
  | n + 1, Spaces =>
    fill Spaces ' ' ++ (if UseCRLF then ['\\', '\r', '\n'] else ['\\', '\n']) ++
      escapedNewlines UseCRLF EscapedNewlineColumn n (maxInt 0 (EscapedNewlineColumn - 1))

/-- What `appendEscapedNewlineText` appends. -/
def escapedNewlineText (UseCRLF : Bool)
    (Newlines PreviousEndOfTokenColumn EscapedNewlineColumn : BitVec 32) : List Char :=
  escapedNewlines UseCRLF EscapedNewlineColumn Newlines.toNat
    (maxInt 1 (EscapedNewlineColumn - PreviousEndOfTokenColumn - 1))

/-- A change before a token or inside one. Locations are offsets in the file. -/
structure Change where
  IndentLevel : BitVec 32
  CreateReplacement : Bool
  OriginalWhitespaceRange : Nat × Nat
  StartOfTokenColumn : BitVec 32
  NewlinesBefore : BitVec 32
  PreviousLinePostfix : List Char
  CurrentLinePrefix : List Char
  ContinuesPPDirective : Bool
  /-- A signed number. -/
  Spaces : BitVec 32
  PreviousEndOfTokenColumn : BitVec 32
  EscapedNewlineColumn : BitVec 32

/-- The text that `generateChanges` makes for a change. -/
def replacementText (Style : FormatStyle) (UseCRLF : Bool) (C : Change) : List Char :=
  C.PreviousLinePostfix ++ (if C.ContinuesPPDirective then
      escapedNewlineText UseCRLF C.NewlinesBefore C.PreviousEndOfTokenColumn C.EscapedNewlineColumn
    else newlineText UseCRLF C.NewlinesBefore) ++
    indentText Style C.IndentLevel (maxInt 0 C.Spaces)
      (C.StartOfTokenColumn - maxInt 0 C.Spaces) ++
    C.CurrentLinePrefix

/-- A replacement to store: an offset, a length and the text. -/
structure Replacement where
  Offset : Nat
  Length : Nat
  Text : List Char
  deriving DecidableEq

/-- `storeReplacement` up to the call of `Replaces.add`. -/
def storeReplacement (Code : List Char) (Range : Nat × Nat) (Text : List Char) :
    List Replacement :=
  let WhitespaceLength := Range.2 - Range.1
  if (Code.drop Range.1).take WhitespaceLength = Text then []
  else [⟨Range.1, WhitespaceLength, Text⟩]

/-- `generateChanges`, with what it stores, after the change `previous`. There is no result where
the assertion fails. -/
def generateChangesFrom (Style : FormatStyle) (UseCRLF : Bool) (Code : List Char) :
    Option Change → List Change → Option (List Replacement)
  | _, [] => some []
  | previous, C :: Changes =>
    if previous.any (·.OriginalWhitespaceRange.1 = C.OriginalWhitespaceRange.1) then none
    else
      let stored := if C.CreateReplacement then
        storeReplacement Code C.OriginalWhitespaceRange (replacementText Style UseCRLF C) else []
      (generateChangesFrom Style UseCRLF Code (some C) Changes).map (stored ++ ·)

def generateChanges (Style : FormatStyle) (UseCRLF : Bool) (Code : List Char)
    (Changes : List Change) : Option (List Replacement) :=
  generateChangesFrom Style UseCRLF Code none Changes

/-! ## Columns -/

/-- The column behind a character, with tab stops at the multiples of `width`. -/
def advance (width column : Nat) (c : Char) : Nat :=
  if c = '\t' then (column / width + 1) * width else if c = '\n' then 0 else column + 1

/-- The column behind a text that begins at `column`. -/
def render (width column : Nat) (text : List Char) : Nat := text.foldl (advance width) column

variable {Style : FormatStyle} {IndentLevel Spaces Start : BitVec 32} {UseCRLF : Bool}
  {Code text : List Char} {Changes : List Change} {width column : Nat}

@[simp] theorem render_append (text' : List Char) :
    render width column (text ++ text') = render width (render width column text) text' :=
  foldl_append

theorem render_spaces (n : BitVec 32) : render width column (fill n ' ') = column + n.toNat := by
  suffices ∀ n column, render width column (List.replicate n ' ') = column + n from this _ _
  intro n
  induction n with
  | zero => exact fun _ => rfl
  | succ n ih =>
    intro column
    exact (ih (column + 1)).trans (by omega)

theorem render_tabs (n : BitVec 32) (hn : 0 < n.toNat) :
    render width column (fill n '\t') = (column / width + n.toNat) * width := by
  suffices ∀ n, ∀ column, render width column (List.replicate (n + 1) '\t') =
      (column / width + (n + 1)) * width by
    obtain ⟨k, hk⟩ := exists_eq_succ_of_ne_zero hn.ne'
    rw [fill, hk]
    exact this k column
  intro n
  induction n with
  | zero => exact fun _ => rfl
  | succ n ih =>
    intro column
    refine (ih _).trans ?_
    rcases Nat.eq_zero_or_pos width with rfl | hwidth
    · rfl
    · rw [advance, if_pos rfl, Nat.mul_div_cancel _ hwidth, Nat.add_right_comm,
        Nat.add_assoc (column / width)]

theorem render_tabs_of_dvd (n : BitVec 32) (h : width ∣ column) :
    render width column (fill n '\t') = column + n.toNat * width := by
  rcases Nat.eq_zero_or_pos n.toNat with hzero | hpos
  · simp [fill, hzero, render]
  · rw [render_tabs n hpos, Nat.add_mul, Nat.div_mul_cancel h]

theorem render_fill_of_dvd (h : Style.TabWidth.toNat ∣ column) :
    render Style.TabWidth.toNat column (fill (Spaces / Style.TabWidth) '\t' ++
      fill (Spaces % Style.TabWidth) ' ') = column + Spaces.toNat := by
  rw [render_append, render_tabs_of_dvd _ h, render_spaces, BitVec.toNat_udiv, BitVec.toNat_umod,
    Nat.add_assoc, div_add_mod']

/-- The text begins and ends where it should. -/
def Lands (Style : FormatStyle) (IndentLevel Spaces Start : BitVec 32) : Prop :=
  render Style.TabWidth.toNat Start.toNat (indentText Style IndentLevel Spaces Start) =
    Start.toNat + Spaces.toNat

/-- Indentation always uses tabs and begins between two tab stops, and there is room for one tab
but not for the rest of the first and one more. The second case is that their sum wraps. -/
def Misaligned (Style : FormatStyle) (Spaces Start : BitVec 32) : Prop :=
  let first := Style.TabWidth.toNat - Start.toNat % Style.TabWidth.toNat
  let both := first + Style.TabWidth.toNat
  Style.UseTab = .Always ∧
    if both < 2 ^ 32 then
      Start.toNat % Style.TabWidth.toNat ≠ 0 ∧ Style.TabWidth.toNat ≤ Spaces.toNat ∧
        Spaces.toNat < both
    else both - 2 ^ 32 ≤ Spaces.toNat ∧ Spaces.toNat < first

theorem render_tabs_zero {Indentation : BitVec 32} (h : Indentation ≤ Spaces) :
    render Style.TabWidth.toNat 0 (fill (Indentation / Style.TabWidth) '\t' ++
      fill (Spaces - Indentation / Style.TabWidth * Style.TabWidth) ' ') = Spaces.toNat := by
  have hle : Indentation.toNat / Style.TabWidth.toNat * Style.TabWidth.toNat ≤ Spaces.toNat :=
    (div_mul_le_self _ _).trans h
  have hmul : (Indentation / Style.TabWidth * Style.TabWidth).toNat =
      Indentation.toNat / Style.TabWidth.toNat * Style.TabWidth.toNat := by
    rw [BitVec.toNat_mul, BitVec.toNat_udiv, mod_eq_of_lt (hle.trans_lt Spaces.isLt)]
  rw [render_append, render_tabs_of_dvd _ (Nat.dvd_zero _), render_spaces, BitVec.toNat_udiv,
    BitVec.toNat_sub_of_le (by rw [BitVec.le_def, hmul]; exact hle), hmul]
  omega

theorem render_first {S : BitVec 32} {first : Nat}
    (hfirst : first = Style.TabWidth.toNat - Start.toNat % Style.TabWidth.toNat) :
    render Style.TabWidth.toNat Start.toNat (['\t'] ++ (fill (S / Style.TabWidth) '\t' ++
      fill (S % Style.TabWidth) ' ')) = Start.toNat + first + S.toNat := by
  have hlt := mod_lt Start.toNat Style.TabWidth_pos
  have hdiv := div_add_mod' Start.toNat Style.TabWidth.toNat
  have hstop : render Style.TabWidth.toNat Start.toNat ['\t'] = Start.toNat + first := by
    show (Start.toNat / Style.TabWidth.toNat + 1) * Style.TabWidth.toNat = _
    rw [Nat.add_mul, Nat.one_mul]
    omega
  rw [render_append, hstop, render_fill_of_dvd]
  rw [← hstop]
  exact Nat.dvd_mul_left _ _

theorem lands_always (halways : Style.UseTab = .Always) :
    Lands Style IndentLevel Spaces Start ↔ ¬ Misaligned Style Spaces Start := by
  obtain ⟨first, hfirst⟩ : ∃ first,
    first = Style.TabWidth.toNat - Start.toNat % Style.TabWidth.toNat := ⟨_, rfl⟩
  have hpos := Style.TabWidth_pos
  have hmod := mod_lt Start.toNat hpos
  have hdiv := div_add_mod' Start.toNat Style.TabWidth.toNat
  have hwidth : (Style.TabWidth - Start % Style.TabWidth).toNat = first := by
    rw [BitVec.toNat_sub_of_le (by rw [BitVec.le_def, BitVec.toNat_umod]; exact hmod.le),
      BitVec.toNat_umod, hfirst]
  have hboth : (Style.TabWidth - Start % Style.TabWidth + Style.TabWidth).toNat =
      (first + Style.TabWidth.toNat) % 2 ^ 32 := by rw [BitVec.toNat_add, hwidth]
  unfold Lands Misaligned indentText
  simp only [halways, true_and, ← hfirst, BitVec.le_def, hboth, append_assoc]
  by_cases hroom : (first + Style.TabWidth.toNat) % 2 ^ 32 ≤ Spaces.toNat
  · rw [if_pos hroom, if_pos hroom, render_first hfirst]
    have hsub := BitVec.toNat_sub Spaces (Style.TabWidth - Start % Style.TabWidth)
    split <;> omega
  · rw [if_neg hroom, if_neg hroom, nil_append]
    by_cases hone : Spaces.toNat < Style.TabWidth.toNat
    · have hzero : Spaces / Style.TabWidth = 0 :=
        BitVec.eq_of_toNat_eq (by simp [div_eq_of_lt hone])
      rw [hzero, show fill 0 '\t' = [] from rfl, nil_append, render_spaces, BitVec.toNat_umod,
        mod_eq_of_lt hone]
      split <;> omega
    · have hquot : Spaces.toNat / Style.TabWidth.toNat = 1 :=
        Nat.div_eq_of_lt_le (by omega) (by omega)
      have hrest := div_add_mod' Spaces.toNat Style.TabWidth.toNat
      rw [render_append, render_tabs _ (by rw [BitVec.toNat_udiv, hquot]; omega), render_spaces,
        BitVec.toNat_udiv, BitVec.toNat_umod, hquot, Nat.add_mul]
      rw [hquot] at hrest
      split <;> omega

theorem lands_indentText :
    Lands Style IndentLevel Spaces Start ↔ ¬ Misaligned Style Spaces Start := by
  cases htab : Style.UseTab with
  | Always => exact lands_always htab
  | Never =>
    refine iff_of_true ?_ fun h => absurd (htab.symm.trans h.1) (by decide)
    unfold Lands indentText
    rw [htab]
    exact render_spaces _
  | ForIndentation =>
    refine iff_of_true ?_ fun h => absurd (htab.symm.trans h.1) (by decide)
    unfold Lands indentText
    rw [htab]
    dsimp only
    split
    · next hzero =>
      subst hzero
      refine (render_tabs_zero ?_).trans (by simp)
      split
      · exact BitVec.le_refl _
      · next hle => exact BitVec.not_lt.mp hle
    · exact render_spaces _
  | ForContinuationAndIndentation =>
    refine iff_of_true ?_ fun h => absurd (htab.symm.trans h.1) (by decide)
    unfold Lands indentText
    rw [htab]
    dsimp only
    split
    · next hzero =>
      subst hzero
      exact (render_tabs_zero (BitVec.le_refl _)).trans (by simp)
    · exact render_spaces _

/-! ## Stored replacements -/

/-- The change has nothing in front of its whitespace. -/
def Change.Plain (C : Change) : Prop := C.NewlinesBefore = 0 ∧ C.PreviousLinePostfix = []

/-- Where the whitespace of `C` begins as many columns before `StartOfTokenColumn` as it should be
wide, it ends at `StartOfTokenColumn`. -/
def Change.Puts (Style : FormatStyle) (C : Change) (Text : List Char) : Prop :=
  ∀ column, column + (maxInt 0 C.Spaces).toNat = C.StartOfTokenColumn.toNat →
    ∃ whitespace, Text = whitespace ++ C.CurrentLinePrefix ∧
      render Style.TabWidth.toNat column whitespace = C.StartOfTokenColumn.toNat

theorem replacementText_of_plain {C : Change} (h : C.Plain) :
    replacementText Style UseCRLF C = indentText Style C.IndentLevel (maxInt 0 C.Spaces)
      (C.StartOfTokenColumn - maxInt 0 C.Spaces) ++ C.CurrentLinePrefix := by
  unfold replacementText
  rw [h.1, h.2]
  cases C.ContinuesPPDirective <;> rfl

theorem puts_iff {C : Change} (h : C.Plain) :
    C.Puts Style (replacementText Style UseCRLF C) ↔
      ((maxInt 0 C.Spaces).toNat ≤ C.StartOfTokenColumn.toNat →
        ¬ Misaligned Style (maxInt 0 C.Spaces) (C.StartOfTokenColumn - maxInt 0 C.Spaces)) := by
  rw [replacementText_of_plain h]
  have hcolumn (hle : (maxInt 0 C.Spaces).toNat ≤ C.StartOfTokenColumn.toNat) :
      (C.StartOfTokenColumn - maxInt 0 C.Spaces).toNat + (maxInt 0 C.Spaces).toNat =
        C.StartOfTokenColumn.toNat := by
    rw [BitVec.toNat_sub_of_le hle]
    omega
  constructor
  · intro hputs hle
    obtain ⟨whitespace, htext, hend⟩ := hputs _ (hcolumn hle)
    rw [← append_cancel_right htext, ← hcolumn hle] at hend
    exact lands_indentText.mp hend
  · intro hlands column hstart
    have hle : (maxInt 0 C.Spaces).toNat ≤ C.StartOfTokenColumn.toNat := by omega
    refine ⟨_, rfl, ?_⟩
    have hend := (@lands_indentText Style C.IndentLevel _ _).mpr (hlands hle)
    rw [show column = (C.StartOfTokenColumn - maxInt 0 C.Spaces).toNat by
      omega]
    exact hend.trans (hcolumn hle)

theorem mem_generateChangesFrom {previous : Option Change} {stored : List Replacement}
    (h : generateChangesFrom Style UseCRLF Code previous Changes = some stored) {r : Replacement}
    (hr : r ∈ stored) :
    ∃ C ∈ Changes, C.CreateReplacement ∧ r.Text = replacementText Style UseCRLF C := by
  induction Changes generalizing previous stored with
  | nil =>
    obtain rfl := Option.some.inj h
    exact absurd hr (not_mem_nil)
  | cons C Changes ih =>
    unfold generateChangesFrom at h
    split at h
    · exact absurd h (by simp)
    · obtain ⟨rest, hrest, rfl⟩ := Option.map_eq_some_iff.mp h
      rcases List.mem_append.mp hr with hr | hr
      · refine ⟨C, mem_cons_self, ?_⟩
        cases hcreate : C.CreateReplacement with
        | false => simp [hcreate] at hr
        | true =>
          rw [hcreate, if_pos rfl, storeReplacement] at hr
          split at hr
          · exact absurd hr (not_mem_nil)
          · exact ⟨rfl, by rw [List.mem_singleton.mp hr]⟩
      · obtain ⟨C', hC', hmade⟩ := ih hrest hr
        exact ⟨C', mem_cons_of_mem _ hC', hmade⟩

/-- Whitespace ends where it should exactly if it is not misaligned: the text for every indentation,
and what is stored for every change with nothing in front of its whitespace. -/
theorem lands_iff (Style : FormatStyle) :
    (∀ IndentLevel Spaces Start,
      Lands Style IndentLevel Spaces Start ↔ ¬ Misaligned Style Spaces Start) ∧
    ∀ UseCRLF Code Changes stored,
      generateChanges Style UseCRLF Code Changes = some stored → ∀ r ∈ stored,
      ∃ C ∈ Changes, r.Text = replacementText Style UseCRLF C ∧ (C.Plain →
        (C.Puts Style r.Text ↔ ((maxInt 0 C.Spaces).toNat ≤ C.StartOfTokenColumn.toNat →
          ¬ Misaligned Style (maxInt 0 C.Spaces) (C.StartOfTokenColumn - maxInt 0 C.Spaces)))) := by
  refine ⟨fun _ _ _ => lands_indentText, fun UseCRLF Code Changes stored h r hr => ?_⟩
  obtain ⟨C, hC, -, htext⟩ := mem_generateChangesFrom h hr
  exact ⟨C, hC, htext, fun hplain => htext ▸ puts_iff hplain⟩

/-- Eight columns from column 1, with tab stops every eight columns: the tab ends at column 8. -/
theorem not_lands_one : ¬ ∀ (Style : FormatStyle) (IndentLevel Spaces Start : BitVec 32),
    Lands Style IndentLevel Spaces Start := by
  intro h
  have hlands := h ⟨.Always, 8, 2, by decide⟩ 0 8 1
  revert hlands
  unfold Lands
  decide

end Zapcc.Format
