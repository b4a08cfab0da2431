import Zapcc.Library.LinkedList

/-!
# Macro directives

Every `#define`, `#undef` and visibility pragma of an identifier is a directive that points to
the previous one. The directives live in a heap. `getDefinition` walks back to the definition
that a directive belongs to; `isDefined_eq` and `getMacroInfo_eq` say what it finds in terms of
the cells of the list.
-/

namespace Zapcc.Lex

open LinkedList

/-- An identifier, told apart by its name. -/
abbrev IdentifierInfo := String

/-- A file, told apart by its name. -/
abbrev FileEntry := String

/-- The address of a directive. -/
abbrev Addr := Nat

/-- The definition of a macro. `replacement` is the source text from the first to the last
replacement token, and empty when there is no such token. -/
structure MacroInfo where
  isFunctionLike : Bool
  parameters : List IdentifierInfo
  replacement : String
  deriving DecidableEq

/-- A position in the source: the file entry it belongs to and the name under which that file
is presented. Buffers without a file have no entry. -/
structure SourceLocation where
  fileEntry : Option FileEntry
  presumedFilename : Option String
  deriving DecidableEq

/-- The kinds of macro directives, with what is specific to each. -/
inductive MacroDirective.Kind where
  | define (info : MacroInfo)
  | undefine
  | visibility (isPublic : Bool)
  deriving DecidableEq

/-- A directive with the link to the previous one of its identifier. -/
structure MacroDirective where
  kind : MacroDirective.Kind
  location : SourceLocation
  previous : Option Addr
  deriving DecidableEq

namespace MacroDirective

/-- `isa<VisibilityMacroDirective>`. -/
def Kind.isVisibility : Kind → Bool
  | visibility _ => true
  | _ => false

/-- `isa<DefMacroDirective>`. -/
def Kind.isDefine : Kind → Bool
  | define _ => true
  | _ => false

def Kind.getInfo : Kind → Option MacroInfo
  | define info => some info
  | _ => none

/-- The result of `getDefinition`. -/
structure DefInfo where
  defDirective : Option Addr
  undefLoc : Option SourceLocation
  isPublic : Bool

/-- Whether there is a definition. -/
def DefInfo.isValid (d : DefInfo) : Bool := d.defDirective.isSome

/-- Whether the definition was undefined later on. -/
def DefInfo.isUndefined (d : DefInfo) : Bool := d.undefLoc.isSome

variable (directive : Addr → MacroDirective)

/-- The loop of `getDefinition`. There is no result when the fuel runs out. -/
def getDefinitionFrom :
    Nat → Option Addr → Option SourceLocation → Option Bool → Option DefInfo
  | 0, _, _, _ => none
  | _ + 1, none, undefLoc, isPublic => some ⟨none, undefLoc, isPublic.getD true⟩
  | fuel + 1, some a, undefLoc, isPublic =>
    match (directive a).kind with
    | .define _ => some ⟨some a, undefLoc, isPublic.getD true⟩
    | .undefine =>
      getDefinitionFrom fuel (directive a).previous (some (directive a).location) isPublic
    | .visibility visible =>
      getDefinitionFrom fuel (directive a).previous undefLoc
        (if isPublic.isNone then some visible else isPublic)

/-- The definition that the directive at `a` belongs to. -/
def getDefinition (fuel : Nat) (a : Addr) : Option DefInfo :=
  getDefinitionFrom directive fuel (some a) none none

/-- Whether the macro is defined after the directive at `a`. -/
def isDefined (fuel : Nat) (a : Addr) : Option Bool :=
  (getDefinition directive fuel a).map fun d => if d.isValid then !d.isUndefined else false

/-- The macro that the directive at `a` belongs to, whether or not it was undefined. -/
def getMacroInfo (fuel : Nat) (a : Addr) : Option (Option MacroInfo) :=
  (getDefinition directive fuel a).map fun d =>
    d.defDirective.bind fun a => (directive a).kind.getInfo

/-- The first directive that is not a visibility directive is a definition. -/
def definedIn (cells : List Addr) : Bool :=
  match cells.find? fun a => !(directive a).kind.isVisibility with
  | some a => (directive a).kind.isDefine
  | none => false

/-- The macro of the first definition. -/
def lastInfo (cells : List Addr) : Option MacroInfo :=
  cells.findSome? fun a => (directive a).kind.getInfo

variable {directive}

theorem getDefinitionFrom_eq {start : Option Addr} {cells : List Addr}
    (h : Linked (fun a => (directive a).previous) start cells) {fuel : Nat}
    (hfuel : cells.length < fuel) (undefLoc : Option SourceLocation) (isPublic : Option Bool) :
    ∃ d, getDefinitionFrom directive fuel start undefLoc isPublic = some d ∧
      (d.defDirective.bind fun a => (directive a).kind.getInfo) = lastInfo directive cells ∧
      (undefLoc.isSome = true → d.isUndefined = true) ∧
      (undefLoc = none →
        (if d.isValid then !d.isUndefined else false) = definedIn directive cells) := by
  induction h generalizing fuel undefLoc isPublic with
  | nil =>
    obtain ⟨fuel, rfl⟩ := Nat.exists_eq_succ_of_ne_zero (Nat.ne_zero_of_lt hfuel)
    exact ⟨_, rfl, rfl, id, fun _ => rfl⟩
  | @cons a rest h ih =>
    obtain ⟨fuel, rfl⟩ := Nat.exists_eq_succ_of_ne_zero (Nat.ne_zero_of_lt hfuel)
    have hrest : rest.length < fuel := by simpa using hfuel
    unfold getDefinitionFrom
    cases hkind : (directive a).kind with
    | define mi =>
      refine ⟨_, rfl, ?_, id, ?_⟩
      · simp [lastInfo, Kind.getInfo, hkind]
      · intro heq
        subst heq
        simp [definedIn, Kind.isVisibility, Kind.isDefine, hkind, DefInfo.isValid,
          DefInfo.isUndefined]
    | undefine =>
      obtain ⟨d, hd, hinfo, hundef, -⟩ := ih hrest (some (directive a).location) isPublic
      refine ⟨d, hd, ?_, fun _ => hundef rfl, fun _ => ?_⟩
      · rw [hinfo]
        simp [lastInfo, Kind.getInfo, hkind]
      · simp [hundef rfl, definedIn, Kind.isVisibility, Kind.isDefine, hkind]
    | visibility visible =>
      obtain ⟨d, hd, hinfo, hundef, hdefined⟩ := ih hrest undefLoc
        (if isPublic.isNone then some visible else isPublic)
      refine ⟨d, hd, ?_, hundef, fun hnone => ?_⟩
      · rw [hinfo]
        simp [lastInfo, Kind.getInfo, hkind]
      · rw [hdefined hnone]
        simp [definedIn, Kind.isVisibility, hkind]

/-- A macro is defined after a directive exactly when the last directive up to it that is not a
visibility directive is a definition. -/
theorem isDefined_eq {a : Addr} {rest : List Addr}
    (h : Linked (fun a => (directive a).previous) (some a) (a :: rest)) {fuel : Nat}
    (hfuel : (a :: rest).length < fuel) :
    isDefined directive fuel a = some (definedIn directive (a :: rest)) := by
  obtain ⟨d, hd, -, -, hdefined⟩ := getDefinitionFrom_eq h hfuel none none
  unfold isDefined getDefinition
  rw [hd, Option.map_some, hdefined rfl]

theorem getMacroInfo_eq {a : Addr} {rest : List Addr}
    (h : Linked (fun a => (directive a).previous) (some a) (a :: rest)) {fuel : Nat}
    (hfuel : (a :: rest).length < fuel) :
    getMacroInfo directive fuel a = some (lastInfo directive (a :: rest)) := by
  obtain ⟨d, hd, hinfo, -, -⟩ := getDefinitionFrom_eq h hfuel none none
  unfold getMacroInfo getDefinition
  rw [hd, Option.map_some, hinfo]

end MacroDirective

end Zapcc.Lex
