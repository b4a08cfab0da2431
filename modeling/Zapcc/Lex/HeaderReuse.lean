import Zapcc.Lex.WatchedMacros

/-!
# Reusing a cached header under other macros

While a header is lexed, `macroIdentifierUsed` records the tracked text of the watched
identifiers that it meets, one text for each, and only on some of the paths that look an
identifier up. When the header is included from the cache, `macroCheckChanged` compares the
recorded texts with the tracked ones. `sees` is what the uses in a header depend on, as a
function of the definitions before it, and `lexFile_eq` says that the preprocessor computes it.
`reuse_sound_iff` says for which headers the comparison is good enough.
-/

namespace Zapcc.Lex

open LinkedList List Option Function

namespace Preprocessor

variable (pp : Preprocessor)

/-- Set the value that is recorded for an identifier. The order of the pairs does not matter. -/
def setValue (II : IdentifierInfo) (text : String) (values : List (IdentifierInfo × String)) :
    List (IdentifierInfo × String) :=
  values.filter (fun pair => pair.1 ≠ II) ++ [(II, text)]

/-- Record the tracked text of a watched identifier for the current file. -/
def macroIdentifierUsed (II : IdentifierInfo) : Preprocessor :=
  if !pp.cachingMode then pp
  else
    match pp.curPPLexer with
    | none => pp
    | some lexer =>
      match pp.commandLineMainIdentifiersIdentifiers II, lexer.fileEntry with
      | some text, some fe =>
        { pp with
          filesIdentifiersValues := update pp.filesIdentifiersValues fe
            (setValue II text (pp.filesIdentifiersValues fe)) }
      | _, _ => pp

/-- Compare the values that were recorded for a cached file with the tracked ones, and report
the first difference. -/
def macroCheckChanged (includee : FileEntry) : Preprocessor :=
  match (pp.filesIdentifiersValues includee).find? fun pair =>
      pair.2 ≠ (pp.commandLineMainIdentifiersIdentifiers pair.1).getD "" with
  | some (II, oldValue) =>
    { pp with
      diags := pp.diags ++ [⟨includee, II, "'" ++ oldValue ++ "'",
        "'" ++ (pp.commandLineMainIdentifiersIdentifiers II).getD "" ++ "'"⟩] }
  | none => pp

/-- Include a file, and the files that it is known to include. There is no result when the fuel
runs out. -/
def includeFile : Nat → Preprocessor → FileEntry → Option Preprocessor
  | 0, _, _ => none
  | fuel + 1, pp, includee =>
    if pp.includes.contains includee then some pp
    else
      let included := { pp with includes := includee :: pp.includes }
      let checked :=
        if included.insertedVisibleFEs then included.macroCheckChanged includee else included
      (checked.includeesMap includee).foldlM (includeFile fuel) checked

/-- Lex an identifier that may be expanded, in text or in the condition of an `#if`. It is
recorded only if it has a definition. -/
def handleIdentifier (II : IdentifierInfo) : Option (Preprocessor × Option MacroInfo) := do
  let mi ← pp.definition II
  some (if mi.isSome then pp.macroIdentifierUsed II else pp, mi)

/-- Process an `#ifdef` or an `#ifndef`. -/
def handleIfdefDirective (II : IdentifierInfo) : Option (Preprocessor × Option MacroInfo) := do
  let mi ← pp.definition II
  some (pp.macroIdentifierUsed II, mi)

/-- Evaluate a `defined` in the condition of an `#if`. -/
def evaluateDefined (II : IdentifierInfo) : Option (Preprocessor × Option MacroInfo) := do
  let mi ← pp.definition II
  some (pp.macroIdentifierUsed II, mi)

/-- Forget what is recorded for the unloaded files. -/
def eraseFileEntries (fileEntries : List FileEntry) : Preprocessor :=
  { pp with
    visibleFEs := pp.visibleFEs.filter fun fe => fe ∉ fileEntries
    includeesMap := fun fe => if fe ∈ fileEntries then [] else pp.includeesMap fe
    filesIdentifiersValues := fun fe =>
      if fe ∈ fileEntries then [] else pp.filesIdentifiersValues fe }

/-- The definitions of all identifiers. -/
def environment (II : IdentifierInfo) : Option MacroInfo := (pp.definition II).getD none

end Preprocessor

/-- The places where lexing depends on the definition of an identifier. -/
inductive Use where
  | identifier
  | ifdef
  | ifndef
  | defined

/-- What happens to the macros while a header is lexed. -/
inductive HeaderEvent where
  | use (use : Use) (II : IdentifierInfo)
  | define (II : IdentifierInfo) (mi : MacroInfo)
  | undef (II : IdentifierInfo)

/-- The definitions that the uses in a header see, with their identifiers. -/
abbrev Seen := List (IdentifierInfo × Option MacroInfo)

def Preprocessor.lexEvent (fe : FileEntry) (pp : Preprocessor) :
    HeaderEvent → Option (Preprocessor × Seen)
  | .use use II =>
    let used :=
      match use with
      | .identifier => (pp.enter (.file fe)).handleIdentifier II
      | .ifdef => (pp.enter (.file fe)).handleIfdefDirective II
      | .ifndef => (pp.enter (.file fe)).handleIfdefDirective II
      | .defined => (pp.enter (.file fe)).evaluateDefined II
    used.map fun (pp, mi) => (pp, [(II, mi)])
  | .define II mi => (pp.handleDefineDirective (.file fe) II mi).map fun pp => (pp, [])
  | .undef II => (pp.handleUndefDirective (.file fe) II).map fun pp => (pp, [])

def Preprocessor.lexFile (fe : FileEntry) :
    Preprocessor → List HeaderEvent → Option (Preprocessor × Seen)
  | pp, [] => some (pp, [])
  | pp, event :: rest => do
      let (pp, seen) ← pp.lexEvent fe event
      let (pp, seen') ← lexFile fe pp rest
      some (pp, seen ++ seen')

/-- What the uses in a header see when it is lexed under the given definitions. -/
def sees (environment : IdentifierInfo → Option MacroInfo) : List HeaderEvent → Seen
  | [] => []
  | .use _ II :: rest => (II, environment II) :: sees environment rest
  | .define II mi :: rest => sees (update environment II (some mi)) rest
  | .undef II :: rest => sees (update environment II none) rest

/-- Some use of the identifier comes before every directive of the header for it. -/
def Exposed (II : IdentifierInfo) : List HeaderEvent → Prop
  | [] => False
  | .use _ J :: rest => J = II ∨ Exposed II rest
  | .define J _ :: rest => J ≠ II ∧ Exposed II rest
  | .undef J :: rest => J ≠ II ∧ Exposed II rest

theorem update_eq_iff (p : IdentifierInfo → Bool)
    (environment other : IdentifierInfo → Option MacroInfo) (J : IdentifierInfo)
    (mi : Option MacroInfo) (rest : List HeaderEvent) :
    (∀ II, p II = true → Exposed II rest → update environment J mi II = update other J mi II) ↔
      ∀ II, p II = true → (J ≠ II ∧ Exposed II rest) → environment II = other II := by
  refine forall_congr' fun II => imp_congr_right fun _ => ?_
  by_cases hII : II = J
  · subst hII
    simp
  · simp [update_of_ne hII, Ne.symm hII]

/-- The uses of some identifiers see the same exactly when the definitions of the exposed ones
are the same. -/
theorem sees_filter_eq_iff (p : IdentifierInfo → Bool)
    (environment other : IdentifierInfo → Option MacroInfo) (events : List HeaderEvent) :
    (sees environment events).filter (fun seen => p seen.1) =
        (sees other events).filter (fun seen => p seen.1) ↔
      ∀ II, p II = true → Exposed II events → environment II = other II := by
  induction events generalizing environment other with
  | nil => simp [sees, Exposed]
  | cons event rest ih =>
    cases event with
    | use use J =>
      simp only [sees, Exposed, filter_cons]
      have hrest := ih environment other
      cases hp : p J with
      | false =>
        refine hrest.trans (forall_congr' fun II => imp_congr_right fun hII => ?_)
        have hne : J ≠ II := by
          intro heq
          subst heq
          rw [hp] at hII
          cases hII
        simp [hne]
      | true =>
        simp only [if_true, List.cons.injEq, Prod.mk.injEq, true_and]
        rw [hrest]
        constructor
        · rintro ⟨hJ, hall⟩ II hII (rfl | hexposed)
          · exact hJ
          · exact hall II hII hexposed
        · intro hall
          exact ⟨hall J hp (Or.inl rfl), fun II hII hexposed =>
            hall II hII (Or.inr hexposed)⟩
    | define J mi => exact (ih _ _).trans (update_eq_iff p environment other J (some mi) rest)
    | undef J => exact (ih _ _).trans (update_eq_iff p environment other J none rest)

/-- A state in which a file can be lexed or included from the cache: the values recorded for the
file belong to different watched identifiers, and it is not known to include other files. -/
structure Lexes (fe : FileEntry) (pp : Preprocessor) (h : History) : Prop
    extends Represents pp h where
  tracked : ∀ II text, pp.commandLineMainIdentifiersIdentifiers II = some text → text ≠ ""
  keys : ((pp.filesIdentifiersValues fe).map Prod.fst).Nodup
  values : ∀ pair ∈ pp.filesIdentifiersValues fe, pair.2 ≠ "" ∧
    (pp.commandLineMainIdentifiersIdentifiers pair.1).isSome = true
  includees : pp.includeesMap fe = []

/-- The two states watch the same identifiers. -/
def SameWatched (pp pp' : Preprocessor) : Prop :=
  ∀ II, (pp'.commandLineMainIdentifiersIdentifiers II).isSome =
    (pp.commandLineMainIdentifiersIdentifiers II).isSome

theorem SameWatched.trans {pp pp' pp'' : Preprocessor} (h : SameWatched pp pp')
    (h' : SameWatched pp' pp'') : SameWatched pp pp'' := fun II => (h' II).trans (h II)

theorem Preprocessor.getMacroText_ne (mi : MacroInfo) : Preprocessor.getMacroText mi ≠ "" := by
  unfold Preprocessor.getMacroText
  split
  · decide
  · next h => exact h

theorem Preprocessor.isSome_trackedAfter (tracked : IdentifierInfo → Option String)
    (J : IdentifierInfo) (info : Option MacroInfo) (II : IdentifierInfo) :
    (trackedAfter tracked J info II).isSome = (tracked II).isSome := by
  cases info with
  | none => rfl
  | some mi =>
    by_cases hwatched : (tracked J).isSome = true
    · by_cases hII : II = J
      · rw [hII, trackedAfter_self hwatched, hwatched]
        rfl
      · rw [trackedAfter_of_ne _ hII]
    · simp only [trackedAfter, if_neg hwatched]

theorem Preprocessor.trackedAfter_ne {tracked : IdentifierInfo → Option String}
    (htracked : ∀ II text, tracked II = some text → text ≠ "") (J : IdentifierInfo)
    (info : Option MacroInfo) (II : IdentifierInfo) (text : String)
    (htext : trackedAfter tracked J info II = some text) : text ≠ "" := by
  cases info with
  | none => exact htracked II text htext
  | some mi =>
    by_cases hwatched : (tracked J).isSome = true
    · by_cases hII : II = J
      · rw [hII, trackedAfter_self hwatched] at htext
        rw [← some.inj htext]
        exact getMacroText_ne mi
      · rw [trackedAfter_of_ne _ hII] at htext
        exact htracked II text htext
    · simp only [trackedAfter, if_neg hwatched] at htext
      exact htracked II text htext

namespace Lexes

variable {fe : FileEntry} {pp pp' : Preprocessor} {h h' : History}

theorem of_eq (hpp : Lexes fe pp h) (hrepresents : Represents pp' h')
    (htracked : ∀ II text, pp'.commandLineMainIdentifiersIdentifiers II = some text → text ≠ "")
    (hwatched : SameWatched pp pp')
    (hvalues : pp'.filesIdentifiersValues = pp.filesIdentifiersValues)
    (hincludees : pp'.includeesMap = pp.includeesMap) : Lexes fe pp' h' := by
  refine ⟨hrepresents, htracked, ?_, ?_, ?_⟩
  · rw [hvalues]
    exact hpp.keys
  · intro pair hpair
    rw [hvalues] at hpair
    rw [hwatched]
    exact hpp.values pair hpair
  · rw [hincludees]
    exact hpp.includees

theorem enter (hpp : Lexes fe pp h) (place : Place) : Lexes fe (pp.enter place) h :=
  hpp.of_eq (hpp.toRepresents.enter place) hpp.tracked (fun _ => rfl) rfl rfl

theorem appendNewDirective (hpp : Lexes fe pp h) (II : IdentifierInfo)
    (kind : MacroDirective.Kind) (location : SourceLocation) :
    ∃ pp', pp.appendNewDirective II kind location = some pp' ∧
      Appends pp h (pp.nextEntry II kind location) pp' ∧
      Lexes fe pp' (h ++ [pp.nextEntry II kind location]) ∧ SameWatched pp pp' := by
  obtain ⟨pp', hpp', happends, hrepresents⟩ :=
    hpp.toRepresents.appendNewDirective II kind location
  have hwatched : SameWatched pp pp' := by
    intro J
    rw [happends.tracked]
    split
    · exact Preprocessor.isSome_trackedAfter _ _ _ J
    · rfl
  refine ⟨pp', hpp', happends, hpp.of_eq hrepresents (fun J text htext => ?_) hwatched
    happends.filesIdentifiersValues happends.includeesMap, hwatched⟩
  rw [happends.tracked] at htext
  split at htext
  · exact Preprocessor.trackedAfter_ne hpp.tracked _ _ J text htext
  · exact hpp.tracked J text htext

theorem define (hpp : Lexes fe pp h) (place : Place) (J : IdentifierInfo) (mi : MacroInfo) :
    ∃ pp' h', pp.handleDefineDirective place J mi = some pp' ∧ Lexes fe pp' h' ∧
      SameWatched pp pp' ∧
      pp'.environment = update (pp.enter place).environment J (some mi) ∧
      pp'.commandLineMainIdentifiersIdentifiers =
        Preprocessor.trackedAfter pp.commandLineMainIdentifiersIdentifiers J (some mi) ∧
      pp'.filesIdentifiersValues = pp.filesIdentifiersValues ∧
      pp'.includes = place.addTo pp.includes := by
  have henter := hpp.enter place
  obtain ⟨pp', hpp', happends, hlexes, hwatched⟩ :=
    henter.appendNewDirective J (.define mi) place.location
  obtain ⟨hself, -, hother⟩ := happends.definition henter.toAttached henter.leafModuleMacros
    (Represents.wasIncluded_enter pp place)
  refine ⟨pp', _, hpp', hlexes, hwatched, ?_, ?_, happends.filesIdentifiersValues,
    happends.includes⟩
  · funext II
    unfold Preprocessor.environment
    by_cases hII : II = J
    · subst hII
      rw [update_self, show pp'.definition II = some (some mi) from hself mi rfl]
      rfl
    · rw [update_of_ne hII, hother II hII]
  · rw [happends.tracked]
    rfl

theorem undef (hpp : Lexes fe pp h) (place : Place) (J : IdentifierInfo) :
    ∃ pp' h', pp.handleUndefDirective place J = some pp' ∧ Lexes fe pp' h' ∧ SameWatched pp pp' ∧
      pp'.environment = update (pp.enter place).environment J none ∧
      pp'.filesIdentifiersValues = pp.filesIdentifiersValues ∧
      pp'.includes = place.addTo pp.includes := by
  have henter := hpp.enter place
  obtain ⟨md, hmd, hnone⟩ := henter.toRepresents.getMacroDefinition_isSome J
  have hprocess : pp.handleUndefDirective place J =
      if md.isSome then (pp.enter place).appendNewDirective J .undefine place.location
      else some (pp.enter place) := by
    unfold Preprocessor.handleUndefDirective
    rw [hmd]
    rfl
  rw [hprocess]
  cases hcase : md with
  | none =>
    refine ⟨_, h, rfl, henter, fun _ => rfl, ?_, rfl, rfl⟩
    have hundefined : (pp.enter place).environment J = none := by
      unfold Preprocessor.environment
      rw [hnone.mp hcase]
      rfl
    rw [← hundefined, update_eq_self]
  | some a =>
    obtain ⟨pp', hpp', happends, hlexes, hwatched⟩ :=
      henter.appendNewDirective J .undefine place.location
    obtain ⟨-, hself, hother⟩ := happends.definition henter.toAttached henter.leafModuleMacros
      (Represents.wasIncluded_enter pp place)
    refine ⟨pp', _, hpp', hlexes, hwatched, ?_, happends.filesIdentifiersValues, happends.includes⟩
    funext II
    unfold Preprocessor.environment
    by_cases hII : II = J
    · subst hII
      rw [update_self, show pp'.definition II = some none from hself rfl]
      rfl
    · rw [update_of_ne hII, hother II hII]

theorem macroIdentifierUsed_eq (hpp : Lexes fe pp h) (II : IdentifierInfo)
    (hlexer : pp.curPPLexer = some ⟨false, some fe⟩) :
    (pp.commandLineMainIdentifiersIdentifiers II = none ∧ pp.macroIdentifierUsed II = pp) ∨
      ∃ text, pp.commandLineMainIdentifiersIdentifiers II = some text ∧
        pp.macroIdentifierUsed II = { pp with
          filesIdentifiersValues := update pp.filesIdentifiersValues fe
            (Preprocessor.setValue II text (pp.filesIdentifiersValues fe)) } := by
  have hcaching := hpp.cachingMode
  unfold Preprocessor.macroIdentifierUsed
  split
  · next h => simp [hcaching] at h
  · split
    · next h =>
        rw [hlexer] at h
        cases h
    · next lexer h =>
        rw [hlexer] at h
        cases h
        cases htext : pp.commandLineMainIdentifiersIdentifiers II with
        | none => exact Or.inl ⟨rfl, rfl⟩
        | some text => exact Or.inr ⟨text, rfl, rfl⟩

theorem macroIdentifierUsed (hpp : Lexes fe pp h) (II : IdentifierInfo)
    (hlexer : pp.curPPLexer = some ⟨false, some fe⟩) :
    Lexes fe (pp.macroIdentifierUsed II) h ∧ SameWatched pp (pp.macroIdentifierUsed II) ∧
      (pp.macroIdentifierUsed II).environment = pp.environment ∧
      (pp.macroIdentifierUsed II).includes = pp.includes := by
  rcases hpp.macroIdentifierUsed_eq II hlexer with ⟨-, heq⟩ | ⟨text, htext, heq⟩
  · rw [heq]
    exact ⟨hpp, fun _ => rfl, rfl, rfl⟩
  · rw [heq]
    refine ⟨⟨hpp.toRepresents.of_eq rfl rfl rfl (fun slot => by cases slot <;> rfl) rfl rfl,
        hpp.tracked, ?_, ?_, hpp.includees⟩, fun _ => rfl, rfl, rfl⟩
    · show ((update pp.filesIdentifiersValues fe _ fe).map Prod.fst).Nodup
      rw [update_self]
      unfold Preprocessor.setValue
      rw [map_append, nodup_append]
      refine ⟨hpp.keys.sublist (filter_sublist.map _), nodup_singleton _, ?_⟩
      intro J hJ K hK
      obtain ⟨pair, hpair, rfl⟩ := List.mem_map.mp hJ
      rw [mem_singleton.mp hK]
      exact of_decide_eq_true (mem_filter.mp hpair).2
    · intro pair hpair
      change pair ∈ update pp.filesIdentifiersValues fe _ fe at hpair
      rw [update_self] at hpair
      rcases mem_append.mp hpair with hpair | hpair
      · exact hpp.values pair (mem_filter.mp hpair).1
      · rw [mem_singleton.mp hpair]
        refine ⟨hpp.tracked II text htext, ?_⟩
        rw [htext]
        rfl

end Lexes

theorem Preprocessor.environment_enter {pp : Preprocessor} {fe : FileEntry}
    (hincluded : fe ∈ pp.includes) : (pp.enter (.file fe)).environment = pp.environment := by
  have hincludes : (pp.enter (.file fe)).includes = pp.includes := insert_of_mem hincluded
  unfold environment definition getMacroDefinition wasIncluded
  rw [hincludes]
  rfl

namespace Lexes

variable {fe : FileEntry} {pp : Preprocessor} {h : History}

theorem lexEvent (hpp : Lexes fe pp h) (hincluded : fe ∈ pp.includes) (event : HeaderEvent)
    (rest : List HeaderEvent) :
    ∃ pp' seen h', pp.lexEvent fe event = some (pp', seen) ∧ Lexes fe pp' h' ∧
      SameWatched pp pp' ∧ fe ∈ pp'.includes ∧
      sees pp.environment (event :: rest) = seen ++ sees pp'.environment rest := by
  have henvironment := Preprocessor.environment_enter hincluded
  have haddTo : Place.addTo pp.includes (.file fe) = pp.includes := insert_of_mem hincluded
  cases event with
  | use use II =>
    have henter := hpp.enter (.file fe)
    obtain ⟨mi, hmi⟩ := henter.toRepresents.exists_definition II
    have hsees : pp.environment II = mi := by
      rw [← henvironment]
      unfold Preprocessor.environment
      rw [hmi]
      rfl
    obtain ⟨hlexes, hwatched, hsame, hincludes⟩ := henter.macroIdentifierUsed II rfl
    have hmem : fe ∈ (pp.enter (.file fe)).includes := by
      show fe ∈ Place.addTo pp.includes (.file fe)
      rw [haddTo]
      exact hincluded
    have hrecorded : ∃ pp' seen h', some ((pp.enter (.file fe)).macroIdentifierUsed II,
          [(II, mi)]) = some (pp', seen) ∧ Lexes fe pp' h' ∧ SameWatched pp pp' ∧
        fe ∈ pp'.includes ∧
        sees pp.environment (.use use II :: rest) = seen ++ sees pp'.environment rest := by
      refine ⟨_, _, h, rfl, hlexes, hwatched, ?_, ?_⟩
      · rw [hincludes]
        exact hmem
      · rw [hsame, henvironment, sees, hsees]
        rfl
    unfold Preprocessor.lexEvent Preprocessor.handleIdentifier
      Preprocessor.handleIfdefDirective Preprocessor.evaluateDefined
    simp only [hmi, bind_eq_bind, bind_some]
    cases use with
    | identifier =>
      cases mi with
      | some _ => exact hrecorded
      | none =>
        -- an undefined identifier is not recorded
        refine ⟨_, _, h, rfl, henter, fun _ => rfl, hmem, ?_⟩
        rw [sees, hsees]
        show _ = [(II, none)] ++ sees (pp.enter (.file fe)).environment rest
        rw [henvironment]
        rfl
    | ifdef | ifndef | defined => exact hrecorded
  | define J mi =>
    obtain ⟨pp', h', hpp', hlexes, hwatched, hsame, -, -, hincludes⟩ := hpp.define (.file fe) J mi
    refine ⟨pp', [], h', ?_, hlexes, hwatched, ?_, ?_⟩
    · show (pp.handleDefineDirective (.file fe) J mi).map _ = _
      rw [hpp']
      rfl
    · rw [hincludes, haddTo]
      exact hincluded
    · rw [hsame, henvironment]
      rfl
  | undef J =>
    obtain ⟨pp', h', hpp', hlexes, hwatched, hsame, -, hincludes⟩ := hpp.undef (.file fe) J
    refine ⟨pp', [], h', ?_, hlexes, hwatched, ?_, ?_⟩
    · show (pp.handleUndefDirective (.file fe) J).map _ = _
      rw [hpp']
      rfl
    · rw [hincludes, haddTo]
      exact hincluded
    · rw [hsame, henvironment]
      rfl

theorem lexFile_eq (hpp : Lexes fe pp h) (hincluded : fe ∈ pp.includes)
    (events : List HeaderEvent) :
    ∃ pp' h', pp.lexFile fe events = some (pp', sees pp.environment events) ∧
      Lexes fe pp' h' ∧ SameWatched pp pp' := by
  induction events generalizing pp h with
  | nil => exact ⟨pp, h, rfl, hpp, fun _ => rfl⟩
  | cons event rest ih =>
    obtain ⟨middle, seen, h', hmiddle, hlexes, hwatched, hincluded', hsees⟩ :=
      hpp.lexEvent hincluded event rest
    obtain ⟨pp', h'', hpp', hlexes', hwatched'⟩ := ih hlexes hincluded'
    refine ⟨pp', h'', ?_, hlexes', hwatched.trans hwatched'⟩
    unfold Preprocessor.lexFile
    rw [hmiddle, bind_eq_bind, bind_some]
    simp only [hpp', bind_some, hsees]

end Lexes

/-- The states that follow while a file stays in the cache: events of the same compilation
outside the file, and new compilations that do not unload it. -/
inductive Later (fe : FileEntry) (pp : Preprocessor) : Preprocessor → Prop where
  | refl : Later fe pp pp
  | define {pp' pp'' : Preprocessor} {place : Place} {II : IdentifierInfo} {mi : MacroInfo} :
      Later fe pp pp' → place ≠ .file fe → pp'.process (.define place II mi) = some pp'' →
        Later fe pp pp''
  | undef {pp' pp'' : Preprocessor} {place : Place} {II : IdentifierInfo} :
      Later fe pp pp' → place ≠ .file fe → pp'.process (.undef place II) = some pp'' →
        Later fe pp pp''
  | included {pp' pp'' : Preprocessor} {fileEntries : List FileEntry} :
      Later fe pp pp' → pp'.process (.included fileEntries) = some pp'' → Later fe pp pp''
  | newCompilation {pp' pp'' : Preprocessor} {fileEntries : List FileEntry} :
      Later fe pp pp' → fe ∉ fileEntries → pp'.eraseMacros fileEntries = some pp'' →
        Later fe pp (pp''.eraseFileEntries fileEntries).reset

/-- Including the file from the cache reports no changed macro. -/
def ReusesSilently (fe : FileEntry) (pp : Preprocessor) : Prop :=
  fe ∉ pp.includes ∧ ∃ fuel pp', Preprocessor.includeFile fuel
      { pp with insertedVisibleFEs := true } fe = some pp' ∧ pp'.diags = pp.diags

/-- Reusing a header that was first lexed in the state `pp` is sound: in every later state in
which it is included from the cache without a report, lexing it again would show every use of a
watched identifier the definition that it saw. -/
def ReuseSound (fe : FileEntry) (events : List HeaderEvent) (pp : Preprocessor) : Prop :=
  ∃ pp₁ seen, (pp.enter (.file fe)).lexFile fe events = some (pp₁, seen) ∧
    ∀ pp₂, Later fe pp₁ pp₂ → ReusesSilently fe pp₂ → (sees pp₂.environment events).filter
          (fun seen => (pp.commandLineMainIdentifiersIdentifiers seen.1).isSome) =
        seen.filter fun seen => (pp.commandLineMainIdentifiersIdentifiers seen.1).isSome

namespace Lexes

variable {fe : FileEntry} {pp : Preprocessor} {h : History}

theorem process (hpp : Lexes fe pp h) (event : Event) :
    ∃ pp' h', pp.process event = some pp' ∧ Lexes fe pp' h' ∧ SameWatched pp pp' := by
  cases event with
  | define place J mi =>
    obtain ⟨pp', h', hpp', hlexes, hwatched, -⟩ := hpp.define place J mi
    exact ⟨pp', h', hpp', hlexes, hwatched⟩
  | undef place J =>
    obtain ⟨pp', h', hpp', hlexes, hwatched, -⟩ := hpp.undef place J
    exact ⟨pp', h', hpp', hlexes, hwatched⟩
  | included fileEntries =>
    refine ⟨_, h, rfl, hpp.of_eq ?_ hpp.tracked (fun _ => rfl) rfl rfl, fun _ => rfl⟩
    exact hpp.toRepresents.of_eq rfl rfl rfl (fun slot => by cases slot <;> rfl) rfl rfl

theorem processAll (hpp : Lexes fe pp h) (events : List Event) :
    ∃ pp' h', pp.processAll events = some pp' ∧ Lexes fe pp' h' ∧ SameWatched pp pp' := by
  induction events generalizing pp h with
  | nil => exact ⟨pp, h, rfl, hpp, fun _ => rfl⟩
  | cons event rest ih =>
    obtain ⟨middle, h', hmiddle, hlexes, hwatched⟩ := hpp.process event
    obtain ⟨pp', h'', hpp', hlexes', hwatched'⟩ := ih hlexes
    refine ⟨pp', h'', ?_, hlexes', hwatched.trans hwatched'⟩
    unfold Preprocessor.processAll
    rw [foldlM_cons, hmiddle]
    exact hpp'

theorem newCompilation (hpp : Lexes fe pp h) :
    ∃ pp' h', pp.eraseMacros [] = some pp' ∧ Lexes fe (pp'.eraseFileEntries []).reset h' ∧
      (pp'.eraseFileEntries []).reset.filesIdentifiersValues = pp.filesIdentifiersValues := by
  obtain ⟨pp', hpp', hrepresents, -, hsame, -, htracked⟩ := hpp.toRepresents.eraseMacros []
  have hreset : Represents (pp'.eraseFileEntries []).reset
      (h.filter fun e => e.slot ∉ erasedSlots []) :=
    hrepresents.of_eq rfl rfl rfl (fun slot => by cases slot <;> rfl) rfl rfl
  have hwatched : SameWatched pp (pp'.eraseFileEntries []).reset := by
    intro II
    show (pp'.commandLineMainIdentifiersIdentifiers II).isSome = _
    rw [htracked, isSome_map]
  have hvalues : (pp'.eraseFileEntries []).reset.filesIdentifiersValues =
      pp.filesIdentifiersValues := by
    rw [← hsame.filesIdentifiersValues]
    simp [Preprocessor.eraseFileEntries, Preprocessor.reset]
  have hincludees : (pp'.eraseFileEntries []).reset.includeesMap = pp.includeesMap := by
    rw [← hsame.includeesMap]
    simp [Preprocessor.eraseFileEntries, Preprocessor.reset]
  refine ⟨pp', _, hpp', hpp.of_eq hreset (fun II text htext => ?_) hwatched hvalues hincludees,
    hvalues⟩
  change pp'.commandLineMainIdentifiersIdentifiers II = some text at htext
  rw [htracked] at htext
  obtain ⟨-, -, rfl⟩ := map_eq_some_iff.mp htext
  decide

end Lexes

/-- The macros that a sequence of texts defines in the predefines, function-like ones or not. -/
def defineAll (functionLike : Bool) (texts : List (IdentifierInfo × String)) : List Event :=
  texts.map fun pair => .define (.predefines none) pair.1 ⟨functionLike, [], pair.2⟩

/-- What defining a sequence of texts does to a state. -/
structure DefinesAll (fe : FileEntry) (functionLike : Bool)
    (texts : List (IdentifierInfo × String)) (pp pp' : Preprocessor) : Prop where
  watched : SameWatched pp pp'
  filesIdentifiersValues : pp'.filesIdentifiersValues = pp.filesIdentifiersValues
  includes : pp'.includes = pp.includes
  other : ∀ J, J ∉ texts.map Prod.fst → pp'.environment J = pp.environment J ∧
    pp'.commandLineMainIdentifiersIdentifiers J = pp.commandLineMainIdentifiersIdentifiers J
  defined : ∀ J ∈ texts.map Prod.fst, ∃ text, pp'.environment J = some ⟨functionLike, [], text⟩
  tracked : (texts.map Prod.fst).Nodup → ∀ pair ∈ texts, pair.2 ≠ "" →
    (pp.commandLineMainIdentifiersIdentifiers pair.1).isSome = true →
      pp'.commandLineMainIdentifiersIdentifiers pair.1 = some pair.2
  later : ∀ pp₀, Later fe pp₀ pp → Later fe pp₀ pp'

theorem Lexes.defineAll {fe : FileEntry} {pp : Preprocessor} {h : History} (hpp : Lexes fe pp h)
    (functionLike : Bool) (texts : List (IdentifierInfo × String)) :
    ∃ pp' h', Lexes fe pp' h' ∧ DefinesAll fe functionLike texts pp pp' := by
  induction texts generalizing pp h with
  | nil =>
    refine ⟨pp, h, hpp, fun _ => rfl, rfl, rfl, fun _ _ => ⟨rfl, rfl⟩, ?_, ?_, fun _ => id⟩
    · intro J hJ
      cases hJ
    · intro _ pair hpair
      cases hpair
  | cons first rest ih =>
    obtain ⟨J, text⟩ := first
    obtain ⟨middle, h', hmiddle, hlexes, hwatched, henvironment, htracked, hvalues, hincludes⟩ :=
      hpp.define (.predefines none) J ⟨functionLike, [], text⟩
    obtain ⟨pp', h'', hlexes', hrest⟩ := ih hlexes
    have hother : ∀ K, K ≠ J → middle.environment K = pp.environment K ∧
        middle.commandLineMainIdentifiersIdentifiers K =
          pp.commandLineMainIdentifiersIdentifiers K := by
      intro K hK
      rw [henvironment, htracked, update_of_ne hK, Preprocessor.trackedAfter_of_ne _ hK]
      exact ⟨rfl, rfl⟩
    refine ⟨pp', h'', hlexes', hwatched.trans hrest.watched,
      hrest.filesIdentifiersValues.trans hvalues, hrest.includes.trans hincludes,
      fun K hK => ?_, fun K hK => ?_, fun hnodup pair hpair hne hpresent => ?_,
      fun pp₀ hlater => hrest.later pp₀ (hlater.define Place.noConfusion hmiddle)⟩
    · rw [map_cons, mem_cons, not_or] at hK
      obtain ⟨heq, htext⟩ := hrest.other K hK.2
      rw [heq, htext]
      exact hother K hK.1
    · by_cases hmem : K ∈ rest.map Prod.fst
      · exact hrest.defined K hmem
      · have hKJ : K = J := (mem_cons.mp hK).resolve_right hmem
        rw [(hrest.other K hmem).1, henvironment, hKJ, update_self]
        exact ⟨text, rfl⟩
    · obtain ⟨hnotMem, hnodup'⟩ := nodup_cons.mp hnodup
      rcases mem_cons.mp hpair with rfl | hpair
      · rw [(hrest.other _ hnotMem).2, htracked, Preprocessor.trackedAfter_self hpresent]
        exact congrArg some (if_neg hne)
      · refine hrest.tracked hnodup' pair hpair hne ?_
        rw [hwatched]
        exact hpresent

theorem Lexes.reusesSilently {fe : FileEntry} {pp : Preprocessor} {h : History}
    (hpp : Lexes fe pp h) (hincludes : fe ∉ pp.includes)
    (htracked : ∀ pair ∈ pp.filesIdentifiersValues fe,
      pp.commandLineMainIdentifiersIdentifiers pair.1 = some pair.2) : ReusesSilently fe pp := by
  have hfind : (pp.filesIdentifiersValues fe).find? (fun pair =>
      pair.2 ≠ (pp.commandLineMainIdentifiersIdentifiers pair.1).getD "") = none := by
    refine find?_eq_none.mpr fun pair hpair => ?_
    rw [htracked pair hpair]
    simp
  refine ⟨hincludes, 1, { pp with insertedVisibleFEs := true, includes := fe :: pp.includes },
    ?_, rfl⟩
  unfold Preprocessor.includeFile
  have hnotMem : pp.includes.contains fe = false := by simpa using hincludes
  simp only [hnotMem, Bool.false_eq_true, if_false, if_true, Preprocessor.macroCheckChanged,
    hfind, hpp.includees]
  rfl

theorem Lexes.exists_later {fe : FileEntry} {pp : Preprocessor} {h : History}
    (hpp : Lexes fe pp h) (II : IdentifierInfo) (seen : Option MacroInfo) :
    ∃ pp', Later fe pp pp' ∧ ReusesSilently fe pp' ∧ pp'.environment II ≠ seen := by
  -- the recorded texts do not say whether a macro is function-like
  have hflag : ∃ functionLike, ∀ text, some ⟨functionLike, [], text⟩ ≠ seen := by
    cases seen with
    | none => exact ⟨false, fun text => some_ne_none _⟩
    | some mi =>
      refine ⟨!mi.isFunctionLike, fun text heq => ?_⟩
      have hsame := congrArg MacroInfo.isFunctionLike (some.inj heq)
      simp at hsame
  obtain ⟨functionLike, hdiffers⟩ := hflag
  obtain ⟨erased, h₁, herased, hlexes, hvalues⟩ := hpp.newCompilation
  obtain ⟨middle, h₂, hlexes', hfirst⟩ := hlexes.defineAll functionLike [(II, "1")]
  obtain ⟨pp', h₃, hlexes'', hrest⟩ :=
    hlexes'.defineAll functionLike (middle.filesIdentifiersValues fe)
  have hnil : fe ∉ ([] : List FileEntry) := not_mem_nil
  refine ⟨pp', hrest.later pp (hfirst.later pp (Later.refl.newCompilation hnil herased)), ?_, ?_⟩
  · refine hlexes''.reusesSilently ?_ fun pair hpair => ?_
    · rw [hrest.includes, hfirst.includes]
      exact hnil
    · rw [hrest.filesIdentifiersValues] at hpair
      obtain ⟨hne, hpresent⟩ := hlexes'.values pair hpair
      exact hrest.tracked hlexes'.keys pair hpair hne hpresent
  · by_cases hmem : II ∈ (middle.filesIdentifiersValues fe).map Prod.fst
    · obtain ⟨text, htext⟩ := hrest.defined II hmem
      rw [htext]
      exact hdiffers text
    · obtain ⟨text, htext⟩ := hfirst.defined II (by simp)
      rw [(hrest.other II hmem).1, htext]
      exact hdiffers text

theorem run_sameRest (isUserFile : FileEntry → Bool) (watched : List IdentifierInfo)
    (operations : List Operation) (pp : Preprocessor)
    (hrun : (Preprocessor.start isUserFile watched).run operations = some pp) :
    Preprocessor.SameRest (.start isUserFile watched) pp := by
  induction operations using List.reverseRecOn generalizing pp with
  | nil =>
    cases hrun
    exact .refl _
  | append_singleton before operation ih =>
    obtain ⟨middle, hmiddle, hholds, -⟩ := run_holds isUserFile watched before
    unfold Preprocessor.run at hrun hmiddle
    rw [foldlM_append, hmiddle] at hrun
    have hstep : middle.perform operation = some pp := by simpa using hrun
    refine (ih middle hmiddle).trans ?_
    cases operation with
    | append lexer II kind location =>
      obtain ⟨pp', hpp', happends, -⟩ :=
        (hholds.withLexer lexer).toRepresents.appendNewDirective II kind location
      have heq : some pp' = some pp := hpp'.symm.trans hstep
      cases heq
      have hlexer : Preprocessor.SameRest middle (middle.setLexer lexer) :=
        ⟨rfl, rfl, rfl, rfl, rfl⟩
      exact hlexer.trans happends.toSameRest
    | eraseMacros fileEntries =>
      obtain ⟨pp', hpp', -, -, hsame, -⟩ := hholds.toRepresents.eraseMacros fileEntries
      have heq : some pp' = some pp := hpp'.symm.trans hstep
      cases heq
      exact hsame

theorem StartsCompilation.lexes {pp₀ : Preprocessor} (hstart : StartsCompilation pp₀)
    (fe : FileEntry) : ∃ h₀, Lexes fe pp₀ h₀ := by
  obtain ⟨isUserFile, watched, operations, pp, hrun, hmarked, rfl⟩ := hstart
  have hsame := run_sameRest isUserFile watched operations pp hrun
  obtain ⟨pp', hpp', hholds, -⟩ := run_holds isUserFile watched operations
  rw [hrun] at hpp'
  cases hpp'
  have hvalues : pp.reset.filesIdentifiersValues fe = [] := by
    show pp.filesIdentifiersValues fe = []
    rw [hsame.filesIdentifiersValues]
    rfl
  refine ⟨_, hholds.toRepresents.of_eq rfl rfl rfl (fun slot => by cases slot <;> rfl) rfl rfl,
    fun II text htext => ?_, ?_, ?_, ?_⟩
  · rw [hmarked II text htext]
    decide
  · rw [hvalues]
    exact nodup_nil
  · intro pair hpair
    rw [hvalues] at hpair
    cases hpair
  · show pp.includeesMap fe = []
    rw [hsame.includeesMap]
    rfl

/-- Reusing a header is sound if and only if the header uses no watched identifier before its
own directives for it. Where it does, the recorded text does not say what the use saw: it leaves
out the parameters, there is one text for all uses, an identifier that is not defined need not be
recorded, and the tracked text may be the one of an undefined macro. -/
theorem reuse_sound_iff {pp₀ pp : Preprocessor} (hstart : StartsCompilation pp₀)
    (before : List Event) (hbefore : pp₀.processAll before = some pp) (fe : FileEntry)
    (events : List HeaderEvent) :
    ReuseSound fe events pp ↔
      ∀ II, (pp.commandLineMainIdentifiersIdentifiers II).isSome = true → ¬ Exposed II events := by
  obtain ⟨h₀, hlexes₀⟩ := hstart.lexes fe
  obtain ⟨pp', h, hpp', hlexes, -⟩ := hlexes₀.processAll before
  rw [hbefore] at hpp'
  cases hpp'
  have hincluded : fe ∈ (pp.enter (.file fe)).includes := mem_insert_self
  obtain ⟨pp₁, h₁, hpp₁, hlexes₁, -⟩ := (hlexes.enter (.file fe)).lexFile_eq hincluded events
  constructor
  · rintro ⟨pp₁', seen, hlexed, hsound⟩ II hwatched hexposed
    rw [hpp₁] at hlexed
    cases hlexed
    obtain ⟨pp₂, hlater, hsilent, hdiffers⟩ :=
      hlexes₁.exists_later II ((pp.enter (.file fe)).environment II)
    have hsame := (sees_filter_eq_iff
      (fun II => (pp.commandLineMainIdentifiersIdentifiers II).isSome) _ _ events).mp
        (hsound pp₂ hlater hsilent)
    exact hdiffers (hsame II hwatched hexposed)
  · intro hunexposed
    refine ⟨pp₁, _, hpp₁, fun pp₂ _ _ => ?_⟩
    exact (sees_filter_eq_iff (fun II => (pp.commandLineMainIdentifiersIdentifiers II).isSome)
      _ _ events).mpr fun II hwatched hexposed => absurd hexposed (hunexposed II hwatched)

/-- The header is lexed when a new server starts, and defines the watched macro before using it. -/
theorem reuse_sound_iff_define :
    ReuseSound "a.h" [.define "X" ⟨false, [], "1"⟩, .use .identifier "X"]
        (Preprocessor.start (fun _ => true) ["X"]).reset ↔
      ∀ II, ((Preprocessor.start (fun _ => true) ["X"]).reset.commandLineMainIdentifiersIdentifiers
        II).isSome = true → ¬ Exposed II [.define "X" ⟨false, [], "1"⟩, .use .identifier "X"] := by
  refine reuse_sound_iff ⟨fun _ => true, ["X"], [], _, rfl, fun II text htext => ?_, rfl⟩ [] rfl
    "a.h" _
  unfold Preprocessor.start at htext
  simp only at htext
  split at htext
  · exact (some.inj htext).symm
  · cases htext

/-- A header with `#if X` that is lexed while `X` is not defined is reused when `X` is `1`. -/
theorem undefinedUse_not_sound :
    ¬ ReuseSound "a.h" [.use .identifier "X"] (Preprocessor.start (fun _ => true) ["X"]).reset := by
  rintro ⟨pp₁, seen, hlexed, hsound⟩
  cases hlexed
  -- a new compilation with `-DX=1`
  have hunloaded : "a.h" ∉ ([] : List FileEntry) := not_mem_nil
  have hplace : Place.predefines (some "<command line>") ≠ .file "a.h" := Place.noConfusion
  have hreused := hsound _ (@Later.define "a.h" _ _ _ (.predefines (some "<command line>")) "X"
    ⟨false, [], "1"⟩ (.newCompilation .refl hunloaded (by rfl)) hplace (by rfl))
    ⟨by decide, 1, _, by rfl, by rfl⟩
  exact absurd hreused (by decide)

end Zapcc.Lex
