import Zapcc.Lex.MacroDirective
import Zapcc.StringConst

/-!
# The macro state of the preprocessor

The preprocessor keeps the latest directive of every identifier, a flag on the identifier that
says whether it has a definition, and lists of the directives that each file appended. In
caching mode a directive counts only while its file is included. `appendMacroDirective` adds a
directive, `getMacroDefinition` looks a definition up, and `eraseMacros` takes the directives of
unloaded files out again. Loops that follow the links have as much fuel as there are
directives; an operation without a result is one that would not return, or that would read
through a null pointer.
-/

namespace Zapcc.Lex

open LinkedList StringRef Function

/-- The lexer of the current file: whether it reads the predefines, and its file entry. -/
structure PPLexer where
  isPredefines : Bool
  fileEntry : Option FileEntry

/-- A report that a watched macro has another value than when a header was cached. -/
structure MacroChanged where
  includee : FileEntry
  identifier : IdentifierInfo
  oldValue : String
  newValue : String
  deriving DecidableEq

structure Preprocessor where
  cachingMode : Bool
  directive : Addr → MacroDirective
  /-- The number of directives that were allocated. -/
  allocated : Nat
  macros : IdentifierInfo → Option Addr
  hasMacroDefinition : IdentifierInfo → Bool
  leafModuleMacros : IdentifierInfo → Bool
  curPPLexer : Option PPLexer
  isUserFile : FileEntry → Bool
  includes : List FileEntry
  insertedVisibleFEs : Bool
  includeesMap : FileEntry → List FileEntry
  visibleFEs : List FileEntry
  generatedMacros : FileEntry → List (IdentifierInfo × Addr)
  needMacros : List (IdentifierInfo × Addr)
  generatedMacrosCommandLine : List (IdentifierInfo × Addr)
  /-- The watched identifiers, with the text that is tracked for each. -/
  commandLineMainIdentifiersIdentifiers : IdentifierInfo → Option String
  filesIdentifiersValues : FileEntry → List (IdentifierInfo × String)
  diags : List MacroChanged

namespace Preprocessor

/-- The preprocessor of a new server that watches the identifiers in `watched`. -/
def start (isUserFile : FileEntry → Bool) (watched : List IdentifierInfo) : Preprocessor where
  cachingMode := true
  directive _ := ⟨.undefine, ⟨none, none⟩, none⟩
  allocated := 0
  macros _ := none
  hasMacroDefinition _ := false
  leafModuleMacros _ := false
  curPPLexer := none
  isUserFile := isUserFile
  includes := []
  insertedVisibleFEs := false
  includeesMap _ := []
  visibleFEs := []
  generatedMacros _ := []
  needMacros := []
  generatedMacrosCommandLine := []
  commandLineMainIdentifiersIdentifiers II := if II ∈ watched then some macroUndefined else none
  filesIdentifiersValues _ := []
  diags := []

variable (pp : Preprocessor)

/-- The links between the directives. -/
def previous (a : Addr) : Option Addr := (pp.directive a).previous

/-- The state with another active lexer. -/
def setLexer (lexer : Option PPLexer) : Preprocessor := { pp with curPPLexer := lexer }

/-- More than the number of cells of any list of directives. -/
def fuel : Nat := pp.allocated + 1

/-- Change the link of the directive at `a`. -/
def setPrevious (a : Addr) (target : Option Addr) : Preprocessor :=
  { pp with
    directive := update pp.directive a { pp.directive a with previous := target } }

/-- Allocate a directive that is not yet attached to an identifier. -/
def allocateMacroDirective (kind : MacroDirective.Kind) (location : SourceLocation) :
    Preprocessor × Addr :=
  ({ pp with
    directive := update pp.directive pp.allocated ⟨kind, location, none⟩
    allocated := pp.allocated + 1 }, pp.allocated)

def setHasMacroDefinition (II : IdentifierInfo) (value : Bool) : Preprocessor :=
  { pp with hasMacroDefinition := update pp.hasMacroDefinition II value }

/-- Whether the directives at a location count in this compilation. -/
def wasIncluded (location : SourceLocation) : Bool :=
  !pp.cachingMode ||
    match location.fileEntry with
    | some fe => pp.includes.contains fe
    | none => true

/-- Find the directive that defines `II` now. The outer result is missing when a loop does not
end. -/
def getMacroDefinition (II : IdentifierInfo) : Option (Option Addr) :=
  if pp.hasMacroDefinition II then do
    let md ← skipWhile pp.previous (fun a => (pp.directive a).kind.isVisibility) pp.fuel
      (pp.macros II)
    let md ← skipWhile pp.previous (fun a => !pp.wasIncluded (pp.directive a).location) pp.fuel md
    some (md.filter fun a => (pp.directive a).kind.isDefine)
  else some none

def getMacroText (mi : MacroInfo) : String :=
  if mi.replacement = "" then "(defined)" else mi.replacement

/-- The part of `macroDefined` that records which file appended a directive. -/
def recordMacro (lexer : PPLexer) (II : IdentifierInfo) (md : Addr) : Preprocessor :=
  if lexer.isPredefines then
    if (pp.directive md).location.presumedFilename = some "<command line>" then
      { pp with generatedMacrosCommandLine := pp.generatedMacrosCommandLine ++ [(II, md)] }
    else pp
  else
    match lexer.fileEntry with
    | none => pp
    | some fe =>
      let visible :=
        if startswith II "_" && endswith II.toLower "_defined" && !pp.isUserFile fe then
          { pp with visibleFEs := pp.visibleFEs.insert fe }
        else pp
      if startswith II "__need_" then
        { visible with needMacros := pp.needMacros ++ [(II, md)] }
      else
        { visible with
          generatedMacros :=
            update pp.generatedMacros fe (pp.generatedMacros fe ++ [(II, md)]) }

/-- The part of `macroDefined` that tracks the text of a watched identifier. -/
def trackMacro (II : IdentifierInfo) (mi : MacroInfo) : Preprocessor :=
  if (pp.commandLineMainIdentifiersIdentifiers II).isSome then
    { pp with
      commandLineMainIdentifiersIdentifiers :=
        update pp.commandLineMainIdentifiersIdentifiers II (some (getMacroText mi)) }
  else pp

/-- Record a directive that was appended in caching mode. -/
def macroDefined (II : IdentifierInfo) (md : Addr) : Option Preprocessor :=
  match pp.curPPLexer with
  | none => some pp
  | some lexer => do
      let recorded := pp.recordMacro lexer II md
      match ← MacroDirective.getMacroInfo recorded.directive recorded.fuel md with
      | some mi => some (recorded.trackMacro II mi)
      | none => some recorded

/-- Put a directive in front of the latest one of an identifier. -/
def setLatest (II : IdentifierInfo) (md : Addr) : Preprocessor :=
  { pp.setPrevious md (pp.macros II) with macros := update pp.macros II (some md) }

/-- Make a directive the latest one of an identifier. -/
def appendMacroDirective (II : IdentifierInfo) (md : Addr) : Option Preprocessor := do
  let linked := pp.setLatest II md
  let isDefined ← MacroDirective.isDefined linked.directive linked.fuel md
  let flagged := linked.setHasMacroDefinition II
    (if !isDefined && !pp.leafModuleMacros II then false else true)
  if pp.cachingMode then flagged.macroDefined II md else some flagged

/-- Allocate a directive and make it the latest one of an identifier. -/
def appendNewDirective (II : IdentifierInfo) (kind : MacroDirective.Kind)
    (location : SourceLocation) : Option Preprocessor :=
  let (allocated, md) := pp.allocateMacroDirective kind location
  allocated.appendMacroDirective II md

/-- Take a directive out of the history of its identifier. -/
def removeMacro (II : IdentifierInfo) (md : Addr) : Option Preprocessor :=
  let prev := pp.previous md
  if pp.macros II = some md then
    match prev with
    | some p => do
        let isDefined ← MacroDirective.isDefined pp.directive pp.fuel p
        some ({ pp with
          macros := update pp.macros II (some p) }.setHasMacroDefinition II isDefined)
    | none =>
      some ({ pp with
        macros := update pp.macros II none }.setHasMacroDefinition II false)
  else do
    let next ← findNext pp.previous md pp.fuel (pp.macros II)
    some (pp.setPrevious next prev)

/-- The part of `reset` that ends a compilation. -/
def reset : Preprocessor :=
  { pp with curPPLexer := none, includes := [], insertedVisibleFEs := false }

/-- Remove the directives of a list, the last one first. -/
def removeMacrosVector (macros : List (IdentifierInfo × Addr)) : Option Preprocessor :=
  macros.reverse.foldlM (fun pp pair => pp.removeMacro pair.1 pair.2) pp

/-- Remove the directives that the unloaded files appended, and those that every compilation
appends anew, and mark every watched identifier as undefined. -/
def eraseMacros (fileEntries : List FileEntry) : Option Preprocessor := do
  let pp ← fileEntries.foldlM (fun (pp : Preprocessor) fe => do
    let pp ← pp.removeMacrosVector (pp.generatedMacros fe)
    some { pp with generatedMacros := update pp.generatedMacros fe [] }) pp
  let pp ← pp.removeMacrosVector pp.needMacros
  let pp := { pp with needMacros := [] }
  let pp ← pp.removeMacrosVector pp.generatedMacrosCommandLine
  let pp := { pp with generatedMacrosCommandLine := [] }
  some { pp with
    commandLineMainIdentifiersIdentifiers := fun II =>
      (pp.commandLineMainIdentifiersIdentifiers II).map fun _ => macroUndefined }

end Preprocessor

end Zapcc.Lex
