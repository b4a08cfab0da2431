import Zapcc.Unload.VisitRedeclarable

/-!
# Unloading a namespace

The first declaration of a namespace holds the anonymous namespace inside it and the lookup table of
the namespace. In the other declarations the same field leads to the first one. `visitNamespaceDecl`
unloads the declarations inside a namespace, moves what the first declaration holds to the second
one, and takes the declaration out of its chain.
-/

namespace Zapcc.Unload

open LinkedList AST Function

/-- What does not change while namespaces are unloaded. A namespace is declared in another one or
in the translation unit. Declarations inside linkage specifications count as declarations of the
enclosing namespace. -/
structure NamespaceContexts (Decl DeclContext : Type) where
  contexts : DeclContexts Decl DeclContext
  getRedeclContext : Decl → Option Decl
  decls : Decl → List Decl

/-- What the declarations of namespaces, the translation unit and the semantic analysis hold, and
what the unloader has visited. -/
structure NamespaceState (Decl StoredDeclsMap : Type) where
  redeclarables : Redeclarables Decl
  /-- The anonymous namespace in a first declaration, and the first declaration in the others. -/
  AnonOrFirstNamespace : Decl → Option Decl
  LookupPtr : Decl → Option StoredDeclsMap
  HasLazyLocalLexicalLookups : Decl → Bool
  /-- The anonymous namespace of the translation unit. -/
  AnonymousNamespace : Option Decl
  KnownNamespaces : Decl → Bool
  StdNamespace : Option Decl
  StdExperimentalNamespaceCache : Option Decl
  Visited : Decl → Bool

namespace NamespaceState

variable {Decl DeclContext StoredDeclsMap : Type} [DecidableEq Decl]
variable (s : NamespaceState Decl StoredDeclsMap)

/-- The first declaration of a namespace. -/
def getOriginalNamespace (d : Decl) : Option Decl :=
  if s.redeclarables.isFirstDecl d then some d else s.AnonOrFirstNamespace d

/-- Change the field that is shared. -/
def setRawNamespace (d : Decl) (D : Option Decl) : NamespaceState Decl StoredDeclsMap :=
  { s with AnonOrFirstNamespace := update s.AnonOrFirstNamespace d D }

/-- The anonymous namespace inside a namespace. There is no result if a null pointer is read. -/
def getAnonymousNamespace (d : Decl) : Option (Option Decl) :=
  (s.getOriginalNamespace d).map s.AnonOrFirstNamespace

/-- Change the anonymous namespace inside a namespace. -/
def setAnonymousNamespace (d : Decl) (D : Option Decl) :
    Option (NamespaceState Decl StoredDeclsMap) :=
  (s.getOriginalNamespace d).map fun original => s.setRawNamespace original D

/-- Change the lookup table of a declaration. -/
def setLookupPtr (d : Decl) (Ptr : Option StoredDeclsMap) : NamespaceState Decl StoredDeclsMap :=
  { s with LookupPtr := update s.LookupPtr d Ptr }

/-- Change whether a declaration is to be added to the lookup table. -/
def setHasLazyLocalLexicalLookups (d : Decl) (b : Bool) : NamespaceState Decl StoredDeclsMap :=
  { s with HasLazyLocalLexicalLookups := update s.HasLazyLocalLexicalLookups d b }

/-- Forget a namespace in the caches of the semantic analysis. -/
def forget (NSD : Decl) : NamespaceState Decl StoredDeclsMap :=
  { s with
    KnownNamespaces := update s.KnownNamespaces NSD false
    StdExperimentalNamespaceCache :=
      if s.StdExperimentalNamespaceCache = some NSD then none
      else s.StdExperimentalNamespaceCache }

/-- If the enclosing context leads to an anonymous namespace, let it lead to the previous
declaration. -/
def eraseFromParent (T : NamespaceContexts Decl DeclContext) (NSD : Decl) :
    Option (NamespaceState Decl StoredDeclsMap) :=
  match T.getRedeclContext NSD with
  | none =>
    some (if s.AnonymousNamespace = some NSD then
      { s with AnonymousNamespace := s.redeclarables.getPreviousDecl NSD } else s)
  | some ND => do
      let anonymous ← s.getAnonymousNamespace ND
      if anonymous = some NSD then
        s.setAnonymousNamespace ND (s.redeclarables.getPreviousDecl NSD)
      else some s

/-- Let `Last` and the declarations before it lead to `Second`, up to `Second` itself. There is no
result when the fuel runs out, or when a null pointer is read. -/
def setRawNamespaces (Second : Decl) : Nat → NamespaceState Decl StoredDeclsMap → Decl →
    Option (NamespaceState Decl StoredDeclsMap)
  | 0, _, _ => none
  | fuel + 1, s, Last =>
    if Last = Second then some s
    else do
      let s := s.setRawNamespace Last (some Second)
      let Last ← s.redeclarables.getPreviousDecl Last
      setRawNamespaces Second fuel s Last

/-- Move what the first declaration holds to the second one. -/
def moveToSecond (fuel : Nat) (NSD Second Last : Decl) :
    Option (NamespaceState Decl StoredDeclsMap) := do
  let s := if s.StdNamespace = some NSD then { s with StdNamespace := some Second } else s
  -- `Second` is not yet the first declaration
  let anonymous ← s.getAnonymousNamespace NSD
  let s := s.setRawNamespace Second anonymous
  let s ← setRawNamespaces Second fuel s Last
  let s :=
    match s.LookupPtr NSD with
    | some Ptr => s.setLookupPtr Second (some Ptr)
    | none => s
  let s :=
    if s.HasLazyLocalLexicalLookups NSD then s.setHasLazyLocalLexicalLookups Second true else s
  some (s.setLookupPtr NSD none)

/-- Let the other declarations do without `NSD`. -/
def fixOriginalNamespace (fuel : Nat) (NSD : Decl) :
    Option (NamespaceState Decl StoredDeclsMap) :=
  if s.redeclarables.isFirstDecl NSD then
    let Last := s.redeclarables.getMostRecentDecl NSD
    if NSD = Last then
      some (if s.StdNamespace = some NSD then { s with StdNamespace := none } else s)
    else do
      let Second ← findNext s.redeclarables.getPreviousDecl NSD fuel (some Last)
      s.moveToSecond fuel NSD Second Last
  else
    some (if s.StdNamespace = some NSD then
      { s with StdNamespace := s.redeclarables.getPreviousDecl NSD } else s)

variable [DecidableEq DeclContext]

/-- Take a namespace out of its chain. -/
def leaveChain (T : NamespaceContexts Decl DeclContext) (fuel : Nat) (NSD : Decl) :
    Option (NamespaceState Decl StoredDeclsMap) := do
  let s ← s.fixOriginalNamespace fuel NSD
  let (redeclarables, _) ← visitRedeclarable T.contexts fuel s.redeclarables NSD
  some { s with redeclarables := redeclarables }

/-- Unload a declaration of a namespace, where `unload` unloads the ones inside it. -/
def visitNamespaceDecl (T : NamespaceContexts Decl DeclContext) (fuel : Nat)
    (unload : NamespaceState Decl StoredDeclsMap → Decl →
      Option (NamespaceState Decl StoredDeclsMap)) (NSD : Decl) :
    Option (NamespaceState Decl StoredDeclsMap) := do
  let s ← (s.forget NSD).eraseFromParent T NSD
  let s ← (T.decls NSD).foldlM unload s
  s.leaveChain T fuel NSD

/-- Unload a declaration that was not visited yet. There is no result when the namespaces are
nested deeper than `depth`. -/
def unloadDecl (T : NamespaceContexts Decl DeclContext) (fuel : Nat) :
    Nat → NamespaceState Decl StoredDeclsMap → Decl → Option (NamespaceState Decl StoredDeclsMap)
  | 0, _, _ => none
  | depth + 1, s, D =>
    if s.Visited D then some s
    else
      { s with Visited := update s.Visited D true }.visitNamespaceDecl T fuel
        (unloadDecl T fuel depth) D

/-- Unload declarations, one after the other. -/
def unloadDecls (T : NamespaceContexts Decl DeclContext) (fuel depth : Nat) (Decls : List Decl) :
    Option (NamespaceState Decl StoredDeclsMap) :=
  Decls.foldlM (unloadDecl T fuel depth) s

end NamespaceState

end Zapcc.Unload
