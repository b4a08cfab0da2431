import Mathlib.Data.Finset.Basic
import Zapcc.Support.SetVector

/-!
# The dependency map

Declarations, types, nested name specifiers and files depend on each other. `update` walks what a
compilation has created and records who uses what, and `collectUsers` collects everything that
has to be unloaded with some files, and removes it from the map. Both walk cyclic graphs and mark
what they have seen. What the walk of a node reports is fixed.
-/

namespace Zapcc.Unload

open Function

inductive DependentKind where
  | decl
  | type
  | nestedNameSpecifier
  | fileEntry
  deriving DecidableEq

/-- What is known about the nodes. Sets of nodes are iterated in any order. -/
structure DependencyGraph (Node : Type*) where
  kind : Node → DependentKind
  /-- What the walk of a node reports. -/
  dependees : Node → List Node
  getCanonicalType : Node → Node
  shouldRecanonType : Node → Bool
  /-- A redeclaration that takes the place of a declaration, other than the unloaded ones. -/
  findReplacement : Node → List Node → Option Node
  /-- Whether a user refers to a declaration, or its replacement, where this can be changed. -/
  wasReplaced : Node → Node → Node → Bool
  isMutable : Node → Bool
  /-- Whether the extension of a file starts like that of C sources. -/
  isSource : Node → Bool
  nodes : List Node
  mem_nodes : ∀ n, n ∈ nodes
  iterate : Finset Node → List Node
  mem_iterate : ∀ S n, n ∈ iterate S ↔ n ∈ S

abbrev DependencyGraph.FileEntry {Node : Type*} (g : DependencyGraph Node) :=
  { FE : Node // g.kind FE = .fileEntry }

/-- Which file a declaration is in. -/
structure FileDeclsMapping (Node : Type*) where
  fileDecls : Node → Finset Node
  declFiles : Node → Option Node

/-- What is unloaded, in the order of insertion, and the types that need a new canonical type. -/
structure UserData (Node : Type*) where
  users : List Node
  recanonTypes : Finset Node

structure DependencyMap (Node : Type*) where
  visited : Finset Node
  visitedUsers : Finset Node
  currentDependent : Option Node
  dependents : Node → Option (Finset Node)
  removeDependencies : Bool
  FDMapping : FileDeclsMapping Node
  UD : UserData Node

/-- What a compilation has created and modified, as it is reported to the dependency map. -/
structure Compilation {Node : Type*} (g : DependencyGraph Node) where
  mainFile : Option g.FileEntry
  /-- Included files, and which file included them. -/
  newFEs : List (g.FileEntry × Option g.FileEntry)
  /-- Modified declarations, each after what it may no longer depend on. -/
  modifiedDecls : List (Option Node × Node)
  newDecls : List Node
  newTypes : List Node
  newNestedNameSpecifiers : List Node
  getFileIDEntry : Node → Option Node

variable {Node : Type*}

def UserData.ofKind (UD : UserData Node) (g : DependencyGraph Node) (kind : DependentKind) :
    List Node :=
  UD.users.filter fun n => g.kind n = kind

/-- What is unloaded, one kind after the other. -/
def UserData.byKind (UD : UserData Node) (g : DependencyGraph Node) : List Node :=
  UD.ofKind g .decl ++ UD.ofKind g .type ++ UD.ofKind g .nestedNameSpecifier ++
    UD.ofKind g .fileEntry

/-- The declarations that have to be walked. -/
def Compilation.declsToWalk {g : DependencyGraph Node} (compilation : Compilation g) : List Node :=
  compilation.newDecls ++ compilation.modifiedDecls.map Prod.snd

variable [DecidableEq Node]

/-- The included files that have to be walked. The main file is always removed. -/
def Compilation.filesToWalk {g : DependencyGraph Node} (compilation : Compilation g) : List Node :=
  (compilation.newFEs.filter fun I => some I.1 ≠ compilation.mainFile).map fun I => I.1.val

namespace FileDeclsMapping

variable (m : FileDeclsMapping Node)

def eraseDecl (D : Node) : FileDeclsMapping Node :=
  match m.declFiles D with
  | none => m
  | some FE =>
    { fileDecls := update m.fileDecls FE ((m.fileDecls FE).erase D)
      declFiles := update m.declFiles D none }

def eraseFile (FE : Node) : FileDeclsMapping Node :=
  { fileDecls := update m.fileDecls FE ∅
    declFiles := fun D => if D ∈ m.fileDecls FE then none else m.declFiles D }

/-- Put a declaration into a file. -/
def insert (D FE : Node) : FileDeclsMapping Node :=
  let m := m.eraseDecl D
  { fileDecls := update m.fileDecls FE (Insert.insert D (m.fileDecls FE))
    declFiles := update m.declFiles D (some FE) }

end FileDeclsMapping

def UserData.insert (UD : UserData Node) (n : Node) : UserData Node :=
  { UD with users := SetVector.insert UD.users n }

namespace DependencyMap

/-- The map before the first compilation. -/
def empty : DependencyMap Node where
  visited := ∅
  visitedUsers := ∅
  currentDependent := none
  dependents _ := none
  removeDependencies := false
  FDMapping := { fileDecls _ := ∅, declFiles _ := none }
  UD := { users := [], recanonTypes := ∅ }

variable (g : DependencyGraph Node) (dm : DependencyMap Node)

/-- Record that a node depends on another. -/
def insertDependent (dependee n : Node) : DependencyMap Node :=
  { dm with
    dependents :=
      update dm.dependents dependee (some (insert n ((dm.dependents dependee).getD ∅))) }

/-- Forget that a node depends on another. -/
def eraseDependent (dependee n : Node) : DependencyMap Node :=
  { dm with
    dependents :=
      update dm.dependents dependee ((dm.dependents dependee).map fun S => S.erase n) }

/-- Record that the node which is being walked depends on another. -/
def recordDependent (newDependee : Node) : DependencyMap Node :=
  { dm with
    dependents :=
      match dm.currentDependent with
      | some current => (dm.insertDependent newDependee current).dependents
      | none => dm.dependents }

/-- Forget everything that depends on a node. -/
def eraseDependents (dependee : Node) : DependencyMap Node :=
  { dm with dependents := update dm.dependents dependee none }

/-- Unload a node, and mark it. -/
def insertUser (n : Node) : DependencyMap Node :=
  { dm with
    visitedUsers := insert n dm.visitedUsers
    UD := dm.UD.insert n }

/-- Report a node to the walk. The flag says that there is no need to walk it. -/
def findProlog (newDependee : Node) : Bool × DependencyMap Node :=
  if dm.removeDependencies then
    match dm.currentDependent with
    | some current => (true, dm.eraseDependent newDependee current)
    | none => (false, { dm with currentDependent := some newDependee })
  else
    let dm := dm.recordDependent newDependee
    if newDependee ∈ dm.visited then (true, dm)
    else
      (false, { dm with
        visited := insert newDependee dm.visited
        currentDependent := some newDependee })

/-- Walk a node and what it depends on. There is no result when the fuel runs out. -/
def findIn : Nat → DependencyMap Node → Node → Option (DependencyMap Node)
  | 0, _, _ => none
  | fuel + 1, dm, n =>
    match dm.findProlog n with
    | (true, dm') => some dm'
    | (false, dm') => do
        let dm' ← (g.dependees n).foldlM (findIn fuel) dm'
        some { dm' with currentDependent := dm.currentDependent }

variable {g}

/-- Unload files that have changed since they were read. -/
def findModifiedFiles (FEs : List g.FileEntry) : DependencyMap Node :=
  { dm with UD := FEs.foldl (fun UD FE => UD.insert FE.val) dm.UD }

/-- Forget that two declarations depend on each other. -/
def eraseModifiedDecl (pair : Option Node × Node) : DependencyMap Node :=
  match pair.1 with
  | none => dm
  | some dependee => (dm.eraseDependent dependee pair.2).eraseDependent pair.2 dependee

variable (compilation : Compilation g)

/-- Note that a file was included, and unload it if it is not to stay in memory. -/
def insertNewFE (I : g.FileEntry × Option g.FileEntry) : DependencyMap Node :=
  { dm with
    visited := dm.visited.erase I.1.val
    UD :=
      if some I.1 = compilation.mainFile ∨
          I.2 = compilation.mainFile ∧ g.isSource I.1.val ∨ g.isMutable I.1.val then
        dm.UD.insert I.1.val
      else dm.UD }

/-- Note which file a declaration is in, and that it has to be walked. -/
def insertNewDecl (D : Node) : DependencyMap Node :=
  { dm with
    FDMapping :=
      match compilation.getFileIDEntry D with
      | some FE => dm.FDMapping.insert D FE
      | none => dm.FDMapping
    visited := dm.visited.erase D }

/-- What `update` changes before it walks. -/
def beforeWalk : DependencyMap Node :=
  let dm := compilation.newFEs.foldl (fun dm I => dm.insertNewFE compilation I) dm
  let dm := compilation.modifiedDecls.foldl eraseModifiedDecl dm
  compilation.declsToWalk.foldl (fun dm D => dm.insertNewDecl compilation D) dm

/-- Bring the map up to date with a compilation. -/
def update : Option (DependencyMap Node) :=
  let dm := dm.beforeWalk compilation
  (compilation.filesToWalk ++ compilation.declsToWalk ++ compilation.newTypes ++
    compilation.newNestedNameSpecifiers).foldlM (findIn g (g.nodes.length + 1)) dm

variable (g)

/-- What a user of an unloaded declaration can refer to instead. -/
def nextReplacement (DT : Node) (replacement : Option Node) : Option Node :=
  match replacement with
  | some D =>
    if D ∈ dm.UD.ofKind g .decl then g.findReplacement DT (dm.UD.ofKind g .decl) else some D
  | none => none

/-- Unload a user of `DT`, or change what it refers to. -/
def collectDependent (collect : DependencyMap Node → Node → Option (DependencyMap Node))
    (DT : Node) (state : DependencyMap Node × Option Node) (dependent : Node) :
    Option (DependencyMap Node × Option Node) :=
  let dm := state.1
  let replacement := dm.nextReplacement g DT state.2
  match replacement with
  | some D =>
    -- the user depends on the replacement from now on
    if g.wasReplaced DT D dependent then some (dm.insertDependent D dependent, replacement)
    else (collect dm dependent).map fun dm => (dm, replacement)
  | none =>
    if g.kind DT = .type ∧ g.kind dependent = .type ∧ g.getCanonicalType dependent = DT ∧
        dependent ∉ dm.UD.users ∧ g.shouldRecanonType dependent then
      some ({ dm with
        UD := { dm.UD with recanonTypes := insert dependent dm.UD.recanonTypes } }, replacement)
    else (collect dm dependent).map fun dm => (dm, replacement)

/-- Unload all users of `DT`. -/
def collectDependents (collect : DependencyMap Node → Node → Option (DependencyMap Node))
    (DT : Node) (dependentsSet : Finset Node) : Option (DependencyMap Node) :=
  ((g.iterate dependentsSet).foldlM (collectDependent g collect DT)
    (dm, if g.kind DT = .decl then some DT else none)).map Prod.fst

/-- Unload a node and its users. There is no result when the fuel runs out. -/
def collectUsersOf : Nat → DependencyMap Node → Node → Option (DependencyMap Node)
  | 0, _, _ => none
  | fuel + 1, dm, DT =>
    if DT ∈ dm.visitedUsers then some dm
    else
      let dm := dm.insertUser DT
      match dm.dependents DT with
      | none => some dm
      -- the set is taken away first, as users may depend on each other
      | some dependentsSet =>
        (dm.eraseDependents DT).collectDependents g (collectUsersOf fuel) DT dependentsSet

/-- Unload a file and its declarations with their users. -/
def collectFileEntry (FE : Node) : Option (DependencyMap Node) :=
  (FE :: g.iterate (dm.FDMapping.fileDecls FE)).foldlM (collectUsersOf g (g.nodes.length + 1)) dm

/-- Walk the unloaded files from a position on, while there are more and more of them. There is no
result when the fuel runs out. -/
def collectFileEntries : Nat → Nat → DependencyMap Node → Option (DependencyMap Node)
  | 0, _, _ => none
  | fuel + 1, I, dm =>
    match (dm.UD.ofKind g .fileEntry)[I]? with
    | none => some dm
    | some FE => do
        let dm ← dm.collectFileEntry g FE
        collectFileEntries fuel (I + 1) dm

def removeUser (n : Node) : Option (DependencyMap Node) := do
  let dm ← findIn g (g.nodes.length + 1) dm n
  some { dm with
    visited := dm.visited.erase n
    UD := { dm.UD with
      recanonTypes :=
        if g.kind n = .type then dm.UD.recanonTypes.erase n else dm.UD.recanonTypes } }

/-- Collect everything that has to be unloaded, and remove it from the map. -/
def collectUsers : Option (DependencyMap Node) := do
  let dm ← collectFileEntries g (g.nodes.length + 1) 0 { dm with visitedUsers := ∅ }
  let dm ← (dm.UD.byKind g).foldlM (removeUser g) { dm with removeDependencies := true }
  some { dm with removeDependencies := false }

/-- What the unloader does to the map after everything that was collected is gone. -/
def unload : DependencyMap Node :=
  let FDMapping := (dm.UD.ofKind g .decl).foldl FileDeclsMapping.eraseDecl dm.FDMapping
  { dm with
    FDMapping := (dm.UD.ofKind g .fileEntry).foldl FileDeclsMapping.eraseFile FDMapping
    UD := { users := [], recanonTypes := ∅ } }

end DependencyMap

/-!
## Declarations of files

The maps of `FileDeclsMapping`, from files to their declarations and from declarations to their
files, stay inverse to each other: `run_consistent`.
-/

namespace FileDeclsMapping

variable {Node : Type*} [DecidableEq Node]

inductive Call (Node : Type*) where
  | insert (D FE : Node)
  | eraseDecl (D : Node)
  | eraseFile (FE : Node)

def apply (m : FileDeclsMapping Node) : Call Node → FileDeclsMapping Node
  | .insert D FE => m.insert D FE
  | .eraseDecl D => m.eraseDecl D
  | .eraseFile FE => m.eraseFile FE

/-- A sequence of calls on an empty mapping. -/
def run (calls : List (Call Node)) : FileDeclsMapping Node :=
  calls.foldl apply ⟨fun _ => ∅, fun _ => none⟩

/-- The maps are inverse to each other. The assertion of an erasure, that the set of the file is
there, is one direction of it. -/
def Consistent (m : FileDeclsMapping Node) : Prop :=
  ∀ FE D, D ∈ m.fileDecls FE ↔ m.declFiles D = some FE

variable {m : FileDeclsMapping Node} {D : Node}

theorem Consistent.eraseDecl (h : m.Consistent) :
    (m.eraseDecl D).Consistent ∧ (m.eraseDecl D).declFiles D = none := by
  unfold FileDeclsMapping.eraseDecl
  cases hfile : m.declFiles D with
  | none => exact ⟨h, hfile⟩
  | some FE =>
    refine ⟨fun FE' D' => ?_, update_self ..⟩
    have hD' := h FE' D'
    by_cases hFE : FE' = FE
    · by_cases hD : D' = D <;> simp_all
    · by_cases hD : D' = D
      · have hne : ¬ FE = FE' := Ne.symm hFE
        simp_all
      · simp_all

theorem Consistent.eraseFile (h : m.Consistent) (FE : Node) : (m.eraseFile FE).Consistent := by
  intro FE' D'
  have hD := h FE D'
  have hD' := h FE' D'
  unfold FileDeclsMapping.eraseFile
  by_cases hmem : D' ∈ m.fileDecls FE
  · by_cases hFE : FE' = FE
    · simp_all
    · have hne : ¬ FE = FE' := Ne.symm hFE
      simp_all
  · by_cases hFE : FE' = FE <;> simp_all

theorem Consistent.insert (h : m.Consistent) (FE : Node) : (m.insert D FE).Consistent := by
  obtain ⟨h₁, hnone⟩ := h.eraseDecl (D := D)
  intro FE' D'
  have hD' := h₁ FE' D'
  unfold FileDeclsMapping.insert
  by_cases hFE : FE' = FE
  · by_cases hD : D' = D <;> simp_all
  · by_cases hD : D' = D
    · have hne : ¬ FE = FE' := Ne.symm hFE
      simp_all
    · simp_all

/-- After every sequence of calls a declaration is in the set of a file if and only if it is mapped
to the file. -/
theorem run_consistent (calls : List (Call Node)) (FE D : Node) :
    D ∈ (run calls).fileDecls FE ↔ (run calls).declFiles D = some FE := by
  suffices ∀ m : FileDeclsMapping Node, m.Consistent → (calls.foldl apply m).Consistent from
    this _ (fun FE D => by simp) FE D
  induction calls with
  | nil => exact fun m h => h
  | cons c calls ih =>
    intro m h
    refine ih _ ?_
    cases c with
    | insert D FE => exact h.insert FE
    | eraseDecl D => exact h.eraseDecl.1
    | eraseFile FE => exact h.eraseFile FE

end FileDeclsMapping

end Zapcc.Unload
