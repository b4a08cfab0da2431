import Zapcc.Unload.DebugInfoScanner

/-!
# Erasing debug types

`eraseDebugTypes` takes the cached nodes of dead types as seeds, scans the nodes that the compile
unit lists for users of them, and erases the users from the type cache. A cached node that is not
on every path from a listed node can be missed, since a scan ends at the first user. The main
result is `eraseDebugTypes_noStale`: when no cached user can be missed, no stale entry remains,
and a cached user that the scan does not come to does remain.
-/

namespace Zapcc.Unload

open Relation List

/-- The lists of a compile unit; a global variable expression is its variable. -/
structure DICompileUnit (Node : Type*) where
  enumTypes : List Node
  retainedTypes : List Node
  globalVariables : List Node
  importedEntities : List Node

/-- The caches of the debug info of a module, and the lists of its builder. -/
structure CGDebugInfo (Key Node : Type*) where
  TypeCache : List (Key × Option Node)
  RetainedTypes : List Key
  AllEnumTypes : List Node
  AllRetainTypes : List Node
  AllSubprograms : List Node
  AllGVs : List Node
  AllImportedModules : List Node

/-- What the unloader knows: the types that are unloaded, and those that keep a declaration only.
A key of the type cache is a qualified type, perhaps without a type. -/
structure UnloadedTypes (Key Ty Node : Type*) where
  getTypePtr : Key → Option Ty
  Types : Finset Ty
  TypesToKeepDeclaration : Finset Ty
  getCU : Option (DICompileUnit Node)
  debugInfo : DebugInfo Node

namespace UnloadedTypes

variable {Key Ty Node : Type*} (UD : UnloadedTypes Key Ty Node)

section Definitions

variable [DecidableEq Key] [DecidableEq Ty] [DecidableEq Node]

/-- Whether a type is unloaded, or its definition is. -/
def isDead (T : Ty) : Bool := T ∈ UD.Types || T ∈ UD.TypesToKeepDeclaration

/-- The node of an entry with a dead type. -/
def deadNode (I : Key × Option Node) : Option Node :=
  match UD.getTypePtr I.1 with
  | none => none
  | some T => if UD.isDead T then I.2 else none

/-- The nodes that the scan starts from. -/
def seeds (TypeCache : List (Key × Option Node)) : Finset Node :=
  (TypeCache.filterMap UD.deadNode).toFinset

/-- Whether an entry of the type cache is erased. -/
def erases (UserDINodes : Finset Node) (I : Key × Option Node) : Bool :=
  match UD.getTypePtr I.1 with
  | none => false
  | some T =>
    match I.2 with
    | none => true
    | some DIN => DIN ∈ UserDINodes || UD.isDead T

def CurrentDINodes (CU : DICompileUnit Node) : List Node :=
  CU.enumTypes ++ CU.retainedTypes ++ CU.globalVariables ++ CU.importedEntities

def eraseUsers (CGDI : CGDebugInfo Key Node) (CU : DICompileUnit Node)
    (UserDINodes : Finset Node) : CGDebugInfo Key Node :=
  let TypeCache := CGDI.TypeCache.filter fun I => !UD.erases UserDINodes I
  let notUser := fun DIN => DIN ∉ UserDINodes
  { TypeCache
    RetainedTypes := CGDI.RetainedTypes.filter fun T => (TypeCache.lookup T).isSome
    AllEnumTypes := CU.enumTypes.filter notUser
    AllRetainTypes := CU.retainedTypes.filter notUser
    AllSubprograms := []
    AllGVs := CU.globalVariables.filter notUser
    AllImportedModules := CU.importedEntities.filter notUser }

/-- Erase the nodes of dead types, and the users that the scan finds. -/
def eraseDebugTypes (fuel rounds : Nat) (CGDI : CGDebugInfo Key Node) :
    Option (CGDebugInfo Key Node) :=
  match UD.getCU with
  | none => some CGDI
  | some CU =>
    (UD.debugInfo.scan fuel (CurrentDINodes CU) rounds (UD.seeds CGDI.TypeCache)).map
      (UD.eraseUsers CGDI CU)

def DeadNodes (TypeCache : List (Key × Option Node)) : Set Node :=
  {DIN | ∃ key T, (key, some DIN) ∈ TypeCache ∧ UD.getTypePtr key = some T ∧ UD.isDead T}

/-- An entry of a type whose node is or references a node of a dead type. -/
def IsStale (Dead : Set Node) (I : Key × Option Node) : Prop :=
  ∃ T DIN, UD.getTypePtr I.1 = some T ∧ I.2 = some DIN ∧ UD.debugInfo.ReferencesTo Dead DIN

/-- The erasure ends and leaves no stale entry. -/
def LeavesNoStale (fuel rounds : Nat) (CGDI : CGDebugInfo Key Node) : Prop :=
  ∃ CGDI', UD.eraseDebugTypes fuel rounds CGDI = some CGDI' ∧
    ∀ I ∈ CGDI'.TypeCache, ¬ UD.IsStale (UD.DeadNodes CGDI.TypeCache) I

/-- A node from which a path that avoids another node leads to a dead node. -/
def ReferencesAround (Dead : Set Node) (avoided DIN : Node) : Prop :=
  DIN ≠ avoided ∧ ∃ dead ∈ Dead,
    ReflTransGen (fun a b => b ∈ UD.debugInfo.operands a ∧ b ≠ avoided) DIN dead

/-- A node that the scan cannot miss: a listed node references dead nodes only through it. -/
def IsUnavoidable (Dead : Set Node) (CU : DICompileUnit Node) (DIN : Node) : Prop :=
  DIN ∈ Dead ∨ ∃ root ∈ CurrentDINodes CU,
    UD.debugInfo.ReferencesTo Dead root ∧ ¬ UD.ReferencesAround Dead DIN root

/-- A node that the scan can come to: it does not go on from dead nodes. -/
def IsReached (Dead : Set Node) (CU : DICompileUnit Node) (DIN : Node) : Prop :=
  DIN ∈ Dead ∨ ∃ root ∈ CurrentDINodes CU,
    ReflTransGen (fun a b => a ∉ Dead ∧ b ∈ UD.debugInfo.operands a) root DIN

end Definitions

variable {UD}

theorem referencesAround_of_linked {Dead : Set Node} {Reach : Set Node} {Seeds Users : Finset Node}
    (hdead : ↑Seeds = Dead) (hfinds : UD.debugInfo.Finds Reach Seeds Users) {root DIN : Node}
    (hroot : root ∈ Users) (hDIN : DIN ∉ Users) : UD.ReferencesAround Dead DIN root := by
  have hne {x : Node} (hx : x ∈ Users) : x ≠ DIN := fun heq => hDIN (heq ▸ hx)
  obtain ⟨seed, hseed, hpath⟩ := hfinds.linked root hroot
  refine ⟨hne hroot, seed, hdead ▸ hseed, ?_⟩
  exact ReflTransGen.mono (fun a b hstep => ⟨hstep.1, hne hstep.2⟩) _ _ hpath

variable [DecidableEq Ty]

theorem deadNode_eq_some {I : Key × Option Node} {DIN : Node} :
    UD.deadNode I = some DIN ↔ ∃ T, I.2 = some DIN ∧ UD.getTypePtr I.1 = some T ∧ UD.isDead T := by
  unfold deadNode
  cases UD.getTypePtr I.1 with
  | none => simp
  | some T => cases hdead : UD.isDead T <;> simp [hdead]

variable [DecidableEq Node]

theorem coe_seeds (UD : UnloadedTypes Key Ty Node) (TypeCache : List (Key × Option Node)) :
    (↑(UD.seeds TypeCache) : Set Node) = UD.DeadNodes TypeCache := by
  ext DIN
  simp only [seeds, Finset.mem_coe, mem_toFinset, mem_filterMap, deadNode_eq_some,
    DeadNodes, Set.mem_ofPred_eq]
  constructor
  · intro h
    obtain ⟨⟨key, node⟩, hmem, T, hnode, hT⟩ := h
    exact ⟨key, T, by rw [← hnode]; exact hmem, hT⟩
  · intro h
    obtain ⟨key, T, hmem, hT⟩ := h
    exact ⟨(key, some DIN), hmem, T, rfl, hT⟩

theorem erases_eq_false {UserDINodes : Finset Node} {I : Key × Option Node} {T : Ty} {DIN : Node}
    (hT : UD.getTypePtr I.1 = some T) (hDIN : I.2 = some DIN) :
    UD.erases UserDINodes I = false ↔ DIN ∉ UserDINodes ∧ UD.isDead T = false := by
  simp [erases, hT, hDIN]

variable [DecidableEq Key] {fuel rounds : Nat} {CGDI : CGDebugInfo Key Node}
  {CU : DICompileUnit Node}

theorem eraseDebugTypes_spec (CGDI : CGDebugInfo Key Node)
    (hfuel : UD.debugInfo.nodes.length < fuel)
    (hrounds : UD.debugInfo.nodes.length < rounds) (hCU : UD.getCU = some CU) :
    ∃ Users, UD.eraseDebugTypes fuel rounds CGDI = some (UD.eraseUsers CGDI CU Users) ∧
      UD.debugInfo.Finds {DIN | UD.IsReached (UD.DeadNodes CGDI.TypeCache) CU DIN}
        (UD.seeds CGDI.TypeCache) Users ∧
      ∀ DIN ∈ CurrentDINodes CU, UD.debugInfo.ReferencesTo ↑Users DIN → DIN ∈ Users := by
  have hunseen : Traversal.unseen UD.debugInfo.nodes (UD.seeds CGDI.TypeCache) < rounds :=
    lt_of_le_of_lt (length_filter_le _ _) hrounds
  have hclosed : ∀ x ∈ {DIN | UD.IsReached (UD.DeadNodes CGDI.TypeCache) CU DIN},
      x ∉ UD.DeadNodes CGDI.TypeCache → UD.debugInfo.next x ⊆
        {DIN | UD.IsReached (UD.DeadNodes CGDI.TypeCache) CU DIN} := by
    intro x hx hdead operand hoperand
    obtain ⟨root, hroot, hpath⟩ := hx.resolve_left hdead
    exact Or.inr ⟨root, hroot, hpath.tail ⟨hdead, hoperand⟩⟩
  obtain ⟨Users, hscan, hfinds, hcomplete⟩ := DebugInfo.scan_spec hclosed hfuel
    (fun DIN hDIN => Or.inr ⟨DIN, hDIN, ReflTransGen.refl⟩) rounds (UD.seeds CGDI.TypeCache)
    (coe_seeds UD CGDI.TypeCache).symm.subset hunseen
  refine ⟨Users, ?_, hfinds, hcomplete⟩
  simp [eraseDebugTypes, hCU, hscan]

theorem leavesNoStale_of_unavoidable (hfuel : UD.debugInfo.nodes.length < fuel)
    (hrounds : UD.debugInfo.nodes.length < rounds) (hCU : UD.getCU = some CU)
    (hall : ∀ key T DIN, (key, some DIN) ∈ CGDI.TypeCache → UD.getTypePtr key = some T →
      UD.debugInfo.ReferencesTo (UD.DeadNodes CGDI.TypeCache) DIN →
        UD.IsUnavoidable (UD.DeadNodes CGDI.TypeCache) CU DIN) :
    UD.LeavesNoStale fuel rounds CGDI := by
  obtain ⟨Users, herase, hfinds, hcomplete⟩ := eraseDebugTypes_spec CGDI hfuel hrounds hCU
  have hseeds := coe_seeds UD CGDI.TypeCache
  have hsubset : UD.DeadNodes CGDI.TypeCache ⊆ ↑Users :=
    hseeds ▸ Finset.coe_subset.mpr hfinds.subset
  refine ⟨UD.eraseUsers CGDI CU Users, herase, fun I hI hstale => ?_⟩
  obtain ⟨hmem, hstays⟩ := mem_filter.mp hI
  obtain ⟨T, DIN, hT, hDIN, href⟩ := hstale
  obtain ⟨hUser, -⟩ := (erases_eq_false hT hDIN).mp (by simpa using hstays)
  rcases hall I.1 T DIN (by rw [← hDIN]; exact hmem) hT href with hdead | hroot
  · exact hUser (hsubset hdead)
  · obtain ⟨root, hroot, hrefRoot, haround⟩ := hroot
    have hrootUser := hcomplete root hroot (DebugInfo.ReferencesTo.mono hsubset hrefRoot)
    exact haround (referencesAround_of_linked hseeds hfinds hrootUser hUser)

theorem not_leavesNoStale_of_notReached (hfuel : UD.debugInfo.nodes.length < fuel)
    (hrounds : UD.debugInfo.nodes.length < rounds) {key : Key} {T : Ty} {DIN : Node}
    (hmem : (key, some DIN) ∈ CGDI.TypeCache) (hT : UD.getTypePtr key = some T)
    (href : UD.debugInfo.ReferencesTo (UD.DeadNodes CGDI.TypeCache) DIN)
    (hnot : ∀ CU, UD.getCU = some CU → ¬ UD.IsReached (UD.DeadNodes CGDI.TypeCache) CU DIN) :
    ¬ UD.LeavesNoStale fuel rounds CGDI := by
  intro h
  obtain ⟨CGDI', herase, hnone⟩ := h
  refine hnone (key, some DIN) ?_ ⟨T, DIN, hT, rfl, href⟩
  cases hCU : UD.getCU with
  | none =>
    have heq : CGDI = CGDI' := by simpa [eraseDebugTypes, hCU] using herase
    exact heq ▸ hmem
  | some CU =>
    obtain ⟨Users, herase', hfinds, -⟩ := eraseDebugTypes_spec CGDI hfuel hrounds hCU
    have heq : UD.eraseUsers CGDI CU Users = CGDI' :=
      Option.some_inj.mp (herase'.symm.trans herase)
    have hnotReached := hnot CU hCU
    have hUser : DIN ∉ Users := fun hUser => (hfinds.within DIN hUser).elim
      (fun hseed => hnotReached (Or.inl ((coe_seeds UD CGDI.TypeCache).subset hseed))) hnotReached
    have hlive : UD.isDead T = false := by
      by_contra hdead
      exact hnotReached (Or.inl ⟨key, T, hmem, hT, by simpa using hdead⟩)
    rw [← heq]
    refine mem_filter.mpr ⟨hmem, ?_⟩
    simpa using (erases_eq_false (I := (key, some DIN)) hT rfl).mpr ⟨hUser, hlive⟩

/-- A class and a pointer to it, as types and as nodes. -/
inductive PointerNode
  | cls | pointer
  deriving DecidableEq

def pointerToClass (retainedTypes : List PointerNode) :
    UnloadedTypes PointerNode PointerNode PointerNode where
  getTypePtr := some
  Types := {.cls}
  TypesToKeepDeclaration := ∅
  getCU := some ⟨[], retainedTypes, [], []⟩
  debugInfo :=
    { node := fun DIN =>
        if DIN = .cls then .DICompositeType none none [] none []
        else .DIDerivedType none (some .cls) false none
      nodes := [.cls, .pointer]
      mem_nodes := fun DIN => by cases DIN <;> simp }

def pointerCache : CGDebugInfo PointerNode PointerNode :=
  ⟨[(.cls, some .cls), (.pointer, some .pointer)], [], [], [], [], [], []⟩

theorem pointerToClass_dead (retainedTypes : List PointerNode) :
    .cls ∈ (pointerToClass retainedTypes).DeadNodes pointerCache.TypeCache :=
  ⟨.cls, .cls, by decide, rfl, rfl⟩

theorem pointerToClass_referencesTo (retainedTypes : List PointerNode) :
    (pointerToClass retainedTypes).debugInfo.ReferencesTo
      ((pointerToClass retainedTypes).DeadNodes pointerCache.TypeCache) .pointer :=
  ⟨.cls, pointerToClass_dead retainedTypes, ReflTransGen.single (mem_singleton.mpr rfl)⟩

/-- The types of `void (*)(Dead *, Dead &)`, and a global variable of this type. -/
inductive CallbackNode
  | dead | pointer | reference | function | functionPointer | callback
  deriving DecidableEq

/-- The class is unloaded, and the compile unit lists the variable. -/
def callback : UnloadedTypes CallbackNode CallbackNode CallbackNode where
  getTypePtr := some
  Types := {.dead}
  TypesToKeepDeclaration := ∅
  getCU := some ⟨[], [], [.callback], []⟩
  debugInfo :=
    { node := fun
        | .dead => .DICompositeType none none [] none []
        | .pointer | .reference => .DIDerivedType none (some .dead) false none
        | .function => .DISubroutineType none [none, some .pointer, some .reference]
        | .functionPointer => .DIDerivedType none (some .function) false none
        | .callback => .DIGlobalVariable none (some .functionPointer) none
      nodes := [.dead, .pointer, .reference, .function, .functionPointer, .callback]
      mem_nodes := fun DIN => by cases DIN <;> simp }

/-- All types of the declaration are cached. -/
def callbackCache : CGDebugInfo CallbackNode CallbackNode :=
  ⟨[(.dead, some .dead), (.pointer, some .pointer), (.reference, some .reference),
    (.function, some .function), (.functionPointer, some .functionPointer)], [], [], [], [], [], []⟩

end UnloadedTypes

end Zapcc.Unload
