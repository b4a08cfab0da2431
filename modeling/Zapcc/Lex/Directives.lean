import Zapcc.Lex.Visibility

/-!
# Processing the directives of one compilation

The `#define` and `#undef` directives that the preprocessor meets, and the current definition of
an identifier. `Processes` says what one directive does to the history, to the definitions and to
the tracked texts: it changes those of its own identifier only.
-/

namespace Zapcc.Lex

open LinkedList List Option

/-- Where a directive stands: in the predefines, under a presumed file name, or in a file. -/
inductive Place where
  | predefines (presumedFilename : Option String)
  | file (fe : FileEntry)
  deriving DecidableEq

def Place.lexer : Place → PPLexer
  | predefines _ => ⟨true, none⟩
  | file fe => ⟨false, some fe⟩

def Place.location : Place → SourceLocation
  | predefines presumedFilename => ⟨none, presumedFilename⟩
  | file fe => ⟨some fe, some fe⟩

/-- The included files after the place was entered. -/
def Place.addTo (includes : List FileEntry) : Place → List FileEntry
  | predefines _ => includes
  | file fe => includes.insert fe

namespace Preprocessor

variable (pp : Preprocessor)

/-- Lex at a place. A file that is lexed was included when it was entered. -/
def enter (place : Place) : Preprocessor :=
  { pp.setLexer (some place.lexer) with includes := place.addTo pp.includes }

/-- The macro that defines an identifier now, if any. -/
def definition (II : IdentifierInfo) : Option (Option MacroInfo) :=
  (pp.getMacroDefinition II).map fun md => md.bind fun a => (pp.directive a).kind.getInfo

/-- Process a `#define`. The comparison with the previous definition only warns. -/
def handleDefineDirective (place : Place) (II : IdentifierInfo) (mi : MacroInfo) :
    Option Preprocessor :=
  (pp.enter place).appendNewDirective II (.define mi) place.location

/-- Process an `#undef`. It does nothing when the macro is not defined. -/
def handleUndefDirective (place : Place) (II : IdentifierInfo) : Option Preprocessor := do
  let md ← (pp.enter place).getMacroDefinition II
  if md.isSome then (pp.enter place).appendNewDirective II .undefine place.location
  else some (pp.enter place)

end Preprocessor

/-- What happens to the macros in a compilation: a directive is processed, or cached files are
included, which makes their directives count. -/
inductive Event where
  | define (place : Place) (II : IdentifierInfo) (mi : MacroInfo)
  | undef (place : Place) (II : IdentifierInfo)
  | included (fileEntries : List FileEntry)

def Preprocessor.process (pp : Preprocessor) : Event → Option Preprocessor
  | .define place II mi => pp.handleDefineDirective place II mi
  | .undef place II => pp.handleUndefDirective place II
  | .included fileEntries => some { pp with includes := fileEntries ++ pp.includes }

def Preprocessor.processAll (pp : Preprocessor) (events : List Event) : Option Preprocessor :=
  events.foldlM Preprocessor.process pp

theorem Attached.definition_eq {pp : Preprocessor} {h : History} (hpp : Attached pp h)
    (II : IdentifierInfo) :
    pp.definition II = some (if pp.hasMacroDefinition II then
      (History.found pp (h.chain II)).bind fun e => e.kind.getInfo else none) := by
  unfold Preprocessor.definition
  rw [hpp.getMacroDefinition_eq II, map_some]
  split
  · cases hfound : History.found pp (h.chain II) with
    | none => rfl
    | some e =>
      have he : e ∈ h.chain II := (dropWhile_suffix _).mem
        ((dropWhile_suffix _).mem (mem_of_mem_head? hfound))
      have hkind := (hpp.content e (History.mem_chain.mp he).1).1
      rw [filter_some, bind_some]
      cases hcase : e.kind with
      | define mi =>
        change some (pp.directive e.address).kind.getInfo = _
        rw [hkind, hcase]
      | undefine | visibility isPublic => rfl
  · rfl

theorem History.found_congr {pp pp' : Preprocessor} (hcaching : pp'.cachingMode = pp.cachingMode)
    (hincludes : pp'.includes = pp.includes) (chain : List Appended) :
    History.found pp' chain = History.found pp chain := by
  unfold History.found Preprocessor.wasIncluded
  rw [hcaching, hincludes]

theorem Appends.definition {pp pp' : Preprocessor} {h : History} {e : Appended}
    (happends : Appends pp h e pp') (hpp : Attached pp h)
    (hleaf : ∀ II, pp.leafModuleMacros II = false)
    (hcounts : pp.wasIncluded e.location = true) :
    (∀ mi, e.kind = .define mi → pp'.definition e.identifier = some (some mi)) ∧
      (e.kind = .undefine → pp'.definition e.identifier = some none) ∧
      ∀ II, II ≠ e.identifier → pp'.definition II = pp.definition II := by
  have hself := happends.attached.definition_eq e.identifier
  rw [happends.flags, Function.update_self, hleaf, Bool.or_false,
    History.chain_append_self h rfl] at hself
  refine ⟨fun mi hkind => ?_, fun hkind => ?_, fun II hII => ?_⟩
  · have hdefined : History.isDefined (e :: h.chain e.identifier) = true := by
      unfold History.isDefined
      rw [find?_cons, hkind]
      simp only [MacroDirective.Kind.isVisibility, Bool.not_false, hkind]
      rfl
    have hfound : History.found pp' (e :: h.chain e.identifier) = some e := by
      rw [History.found_congr happends.cachingMode happends.includes]
      unfold History.found
      rw [dropWhile_cons_of_neg (by simp [hkind, MacroDirective.Kind.isVisibility]),
        dropWhile_cons_of_neg (by simp [hcounts])]
      rfl
    rw [hself, if_pos hdefined, hfound, bind_some, hkind]
    rfl
  · have hdefined : History.isDefined (e :: h.chain e.identifier) = false := by
      unfold History.isDefined
      rw [find?_cons, hkind]
      simp only [MacroDirective.Kind.isVisibility, Bool.not_false, hkind]
      rfl
    rw [hself, hdefined]
    rfl
  · rw [happends.attached.definition_eq II, hpp.definition_eq II, happends.flags,
      Function.update_of_ne hII, History.chain_append_of_ne h e (Ne.symm hII),
      History.found_congr happends.cachingMode happends.includes]

theorem Represents.of_eq {pp pp' : Preprocessor} {h : History} (hpp : Represents pp h)
    (hdirective : pp'.directive = pp.directive) (hmacros : pp'.macros = pp.macros)
    (hallocated : pp'.allocated = pp.allocated)
    (hrecorded : ∀ slot, pp'.recorded slot = pp.recorded slot)
    (hcaching : pp'.cachingMode = pp.cachingMode)
    (hleaf : pp'.leafModuleMacros = pp.leafModuleMacros) : Represents pp' h := by
  refine ⟨hpp.toAttached.of_eq hdirective hmacros hallocated, fun slot hslot => ?_, ?_, ?_⟩
  · rw [hrecorded]
    exact hpp.recorded slot hslot
  · rw [hcaching]
    exact hpp.cachingMode
  · rw [hleaf]
    exact hpp.leafModuleMacros

namespace Represents

variable {pp : Preprocessor} {h : History}

theorem enter (hpp : Represents pp h) (place : Place) : Represents (pp.enter place) h := by
  exact hpp.of_eq rfl rfl rfl (fun slot => by cases slot <;> rfl) rfl rfl

theorem wasIncluded_enter (pp : Preprocessor) (place : Place) :
    (pp.enter place).wasIncluded place.location = true := by
  cases place with
  | predefines name => simp [Preprocessor.wasIncluded, Place.location]
  | file fe =>
    simp [Preprocessor.wasIncluded, Place.location, Preprocessor.enter, Place.addTo]

theorem appendNewDirective (hpp : Represents pp h) (II : IdentifierInfo)
    (kind : MacroDirective.Kind) (location : SourceLocation) :
    ∃ pp', pp.appendNewDirective II kind location = some pp' ∧
      Appends pp h (pp.nextEntry II kind location) pp' ∧
      Represents pp' (h ++ [pp.nextEntry II kind location]) := by
  obtain ⟨pp', hpp', happends⟩ := hpp.toAttached.appendNewDirective hpp.cachingMode II kind location
  refine ⟨pp', hpp', happends, happends.attached, happends.recorded hpp.recorded, ?_, ?_⟩
  · rw [happends.cachingMode]
    exact hpp.cachingMode
  · rw [happends.leafModuleMacros]
    exact hpp.leafModuleMacros

theorem exists_definition (hpp : Represents pp h) (II : IdentifierInfo) :
    ∃ mi, pp.definition II = some mi := ⟨_, hpp.toAttached.definition_eq II⟩

theorem getMacroDefinition_isSome (hpp : Represents pp h) (II : IdentifierInfo) :
    ∃ md, pp.getMacroDefinition II = some md ∧ (md = none ↔ pp.definition II = some none) := by
  refine ⟨_, hpp.toAttached.getMacroDefinition_eq II, ?_⟩
  rw [hpp.toAttached.definition_eq II]
  split
  · cases History.found pp (h.chain II) with
    | none => simp
    | some e => cases hkind : e.kind <;> simp [hkind, MacroDirective.Kind.isDefine,
        MacroDirective.Kind.getInfo]
  · simp

end Represents

end Zapcc.Lex
