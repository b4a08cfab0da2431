import Zapcc.Library.Traversal
import Zapcc.Unload.DependencyMap

/-!
# Variables that emitted functions depend on

A variable is needed when a function that is emitted depends on it, maybe through other functions
and through virtual methods, which keep the other methods of their class. The query walks the
dependents and marks what it has seen, also on cycles. It is exact: `dependsOnEmittedFunction_iff`.
-/

namespace Zapcc.Unload

open Traversal Finset List

/-- How a function was specialized. -/
inductive TemplateSpecializationKind
  | TSK_Undeclared
  | TSK_ImplicitInstantiation
  | TSK_ExplicitSpecialization
  | TSK_ExplicitInstantiationDeclaration
  | TSK_ExplicitInstantiationDefinition
  deriving DecidableEq, Repr

/-- What is known about the functions among the nodes. -/
structure FunctionDecls (Node : Type*) where
  isFunctionDecl : Node → Bool
  LiveDecls : Node → Bool
  /-- Whether a function is written outside of all classes and functions. -/
  isFileContext : Node → Bool
  getTemplateSpecializationKind : Node → TemplateSpecializationKind
  /-- Whether a function is a virtual method. -/
  isVirtual : Node → Bool
  /-- The methods of the class of a method, in the order of their declarations. -/
  methods : Node → List Node
  /-- Virtual methods that are written outside of their class are not instantiated. -/
  outOfClass : ∀ n, isVirtual n = true → isFileContext n = true →
    getTemplateSpecializationKind n = .TSK_Undeclared ∨
      getTemplateSpecializationKind n = .TSK_ExplicitSpecialization

variable {Node : Type*} [DecidableEq Node]

namespace FunctionDecls

variable (F : FunctionDecls Node)

/-- Whether a function is emitted in any case. -/
def IsEmitted (FD : Node) : Prop :=
  F.isFileContext FD = true ∧ (F.getTemplateSpecializationKind FD = .TSK_Undeclared ∨
      F.getTemplateSpecializationKind FD = .TSK_ExplicitSpecialization)

instance (FD : Node) : Decidable (F.IsEmitted FD) := inferInstanceAs (Decidable (_ ∧ _))

/-- The other methods that a virtual method keeps. -/
def siblings (FD : Node) : List Node :=
  if F.isFileContext FD then []
  else if F.isVirtual FD then (F.methods FD).filter fun Method => Method ≠ FD
  else []

end FunctionDecls

namespace DependencyMap

variable (dm : DependencyMap Node) (g : DependencyGraph Node) (F : FunctionDecls Node)

def functionDependents (n : Node) : List Node :=
  match dm.dependents n with
  | none => []
  | some S => (g.iterate S).filter fun Dependent => F.isFunctionDecl Dependent

def dependsOnEmittedFunctionOf : Nat → Finset Node → Node → Option (Bool × Finset Node)
  | 0, _, _ => none
  | fuel + 1, VisitedDepend, FD =>
    if FD ∈ VisitedDepend then some (false, VisitedDepend)
    else
      let VisitedDepend := insert FD VisitedDepend
      if ¬ F.LiveDecls FD then some (false, VisitedDepend)
      else if F.IsEmitted FD then some (true, VisitedDepend)
      else do
        let (found, VisitedDepend) ←
          search (dependsOnEmittedFunctionOf fuel) VisitedDepend (F.siblings FD)
        if found then some (true, VisitedDepend)
        else
          search (dependsOnEmittedFunctionOf fuel) VisitedDepend (dm.functionDependents g F FD)

def dependsOnEmittedFunction (fuel : Nat) (VD : Node) : Option Bool :=
  (search (dm.dependsOnEmittedFunctionOf g F fuel) ∅ (dm.functionDependents g F VD)).map Prod.fst

/-- A recorded dependency of a function on another one, or one of a method that a virtual method
of its class keeps. -/
inductive Leads : Node → Node → Prop
  | dependent {FD DepFD : Node} (h : DepFD ∈ dm.functionDependents g F FD) : Leads FD DepFD
  | sibling {MD Method : Node} (hvirtual : F.isVirtual MD = true) (h : Method ∈ F.methods MD)
      (hne : Method ≠ MD) : Leads MD Method

/-- A path through live functions to an emitted one. -/
inductive LeadsToEmitted : Node → Prop
  | here {FD : Node} (hlive : F.LiveDecls FD = true) (h : F.IsEmitted FD) : LeadsToEmitted FD
  | step {FD DepFD : Node} (hlive : F.LiveDecls FD = true) (h : dm.Leads g F FD DepFD)
      (hpath : LeadsToEmitted DepFD) : LeadsToEmitted FD

/-- The functions that the walk goes on to. -/
def followed (FD : Node) : Set Node :=
  { DepFD | F.LiveDecls FD = true ∧ (DepFD ∈ F.siblings FD ∨ DepFD ∈ dm.functionDependents g F FD) }

/-- What a walk that finds nothing leaves. -/
structure Searched (S S' : Finset Node) : Prop where
  marked : Extends (dm.followed g F) ↑S ↑S'
  quiet : ∀ FD ∈ S', FD ∉ S → ¬ (F.LiveDecls FD = true ∧ F.IsEmitted FD)

variable {dm : DependencyMap Node} {g : DependencyGraph Node} {F : FunctionDecls Node}
  {S S' S'' : Finset Node} {FD DepFD : Node}

namespace Searched

theorem refl (S : Finset Node) : Searched dm g F S S :=
  ⟨.refl _ _, fun _ hmem hnot => absurd hmem hnot⟩

theorem trans (h : Searched dm g F S S') (h' : Searched dm g F S' S'') :
    Searched dm g F S S'' := by
  refine ⟨h.marked.trans h'.marked, fun FD hmem hnot => ?_⟩
  by_cases hmiddle : FD ∈ S'
  · exact h.quiet FD hmiddle hnot
  · exact h'.quiet FD hmem hmiddle

theorem subset (h : Searched dm g F S S') : S ⊆ S' := coe_subset.mp h.marked.subset

theorem visit (h : Searched dm g F (insert FD S) S')
    (hnext : ∀ DepFD ∈ dm.followed g F FD, DepFD ∈ S')
    (hquiet : ¬ (F.LiveDecls FD = true ∧ F.IsEmitted FD)) : Searched dm g F S S' := by
  have hmarked := h.marked
  rw [coe_insert] at hmarked
  refine ⟨hmarked.visit hnext, fun other hmem hnot => ?_⟩
  by_cases heq : other = FD
  · rw [heq]
    exact hquiet
  · exact h.quiet other hmem fun hinsert => (mem_insert.mp hinsert).elim heq hnot

end Searched

theorem LeadsToEmitted.of_followed (h : DepFD ∈ dm.followed g F FD)
    (hpath : dm.LeadsToEmitted g F DepFD) : dm.LeadsToEmitted g F FD := by
  obtain ⟨hlive, hsibling | hdependent⟩ := h
  · unfold FunctionDecls.siblings at hsibling
    split_ifs at hsibling with hfile hvirtual
    · exact absurd hsibling not_mem_nil
    · obtain ⟨hmethod, hne⟩ := List.mem_filter.mp hsibling
      exact .step hlive (.sibling hvirtual hmethod (of_decide_eq_true hne)) hpath
    · exact absurd hsibling not_mem_nil
  · exact .step hlive (.dependent hdependent) hpath

/-- What the search of a function finds or marks. -/
def SearchesOf (dm : DependencyMap Node) (g : DependencyGraph Node) (F : FunctionDecls Node)
    (fuel : Nat) (S : Finset Node) (FD : Node) : Prop :=
  ∃ found S', dm.dependsOnEmittedFunctionOf g F fuel S FD = some (found, S') ∧
    (found = true → dm.LeadsToEmitted g F FD) ∧
    (found = false → Searched dm g F S S' ∧ FD ∈ S')

theorem search_dependents {fuel : Nat} (FDs : List Node)
    (hvisit : ∀ FD S, unseen g.nodes S < fuel → SearchesOf dm g F fuel S FD)
    (hfuel : unseen g.nodes S < fuel) :
    ∃ found S', search (dm.dependsOnEmittedFunctionOf g F fuel) S FDs = some (found, S') ∧
      (found = true → ∃ FD ∈ FDs, dm.LeadsToEmitted g F FD) ∧
      (found = false → Searched dm g F S S' ∧ ∀ FD ∈ FDs, FD ∈ S') := by
  have hsearches : ∀ FD ∈ FDs, ∀ S, unseen g.nodes S < fuel →
      ∃ found S', dm.dependsOnEmittedFunctionOf g F fuel S FD = some (found, S') ∧
        (found = true → dm.LeadsToEmitted g F FD) ∧
        (found = false → unseen g.nodes S' < fuel ∧ Searched dm g F S S' ∧ FD ∈ S') := by
    intro FD _ S hS
    obtain ⟨found, S', hof, htrue, hfalse⟩ := hvisit FD S hS
    refine ⟨found, S', hof, htrue, fun h => ?_⟩
    obtain ⟨hsearched, hmem⟩ := hfalse h
    exact ⟨Nat.lt_of_le_of_lt (unseen_mono _ hsearched.subset) hS, hsearched, hmem⟩
  obtain ⟨found, S', hsearch, htrue, hfalse⟩ := search_spec
    (P := fun S => unseen g.nodes S < fuel) (R := Searched dm g F) (Q := fun FD S => FD ∈ S)
    (F := fun FD _ => dm.LeadsToEmitted g F FD) Searched.refl (fun _ _ _ h h' => h.trans h')
    (fun _ _ _ h hmem => h.subset hmem) hsearches hfuel
  exact ⟨found, S', hsearch, htrue, fun h => (hfalse h).2⟩

/-- With more fuel than functions that are not marked, the search of a function returns. What it
finds is on a path, and if it finds nothing there is nothing to find among what it marks. -/
theorem dependsOnEmittedFunctionOf_spec {fuel : Nat} (FD : Node) (S : Finset Node)
    (hfuel : unseen g.nodes S < fuel) : SearchesOf dm g F fuel S FD := by
  induction fuel generalizing FD S with
  | zero => exact absurd hfuel (Nat.not_lt_zero _)
  | succ fuel ih =>
    unfold SearchesOf dependsOnEmittedFunctionOf
    by_cases hseen : FD ∈ S
    · rw [if_pos hseen]
      exact ⟨false, S, rfl, fun h => absurd h Bool.false_ne_true, fun _ => ⟨.refl S, hseen⟩⟩
    rw [if_neg hseen]
    have hless : unseen g.nodes (insert FD S) < fuel :=
      Nat.lt_of_lt_of_le (unseen_insert_lt (g.mem_nodes FD) hseen) (Nat.le_of_lt_succ hfuel)
    have hself : FD ∈ insert FD S := Finset.mem_insert_self FD S
    by_cases hlive : F.LiveDecls FD = true
    swap
    · rw [if_pos hlive]
      refine ⟨false, _, rfl, fun h => absurd h Bool.false_ne_true, fun _ => ⟨?_, hself⟩⟩
      exact (Searched.refl _).visit (fun _ h => absurd h.1 hlive) fun h => hlive h.1
    rw [if_neg (not_not_intro hlive)]
    by_cases hemitted : F.IsEmitted FD
    · rw [if_pos hemitted]
      exact ⟨true, _, rfl, fun _ => .here hlive hemitted, fun h => absurd h Bool.false_ne_true.symm⟩
    rw [if_neg hemitted]
    obtain ⟨found, S₁, hsiblings, htrue, hfalse⟩ :=
      search_dependents (F.siblings FD) ih hless
    cases found with
    | true =>
      obtain ⟨Method, hMethod, hpath⟩ := htrue rfl
      refine ⟨true, S₁, by simp [hsiblings], fun _ => ?_, fun h => absurd h Bool.false_ne_true.symm⟩
      exact hpath.of_followed ⟨hlive, .inl hMethod⟩
    | false =>
      obtain ⟨hsearched, hmethods⟩ := hfalse rfl
      obtain ⟨found, S₂, hdependents, htrue', hfalse'⟩ :=
        search_dependents (dm.functionDependents g F FD) ih
          (Nat.lt_of_le_of_lt (unseen_mono _ hsearched.subset) hless)
      refine ⟨found, S₂, by simp [hsiblings, hdependents], fun h => ?_, fun h => ?_⟩
      · obtain ⟨DepFD, hDepFD, hpath⟩ := htrue' h
        exact hpath.of_followed ⟨hlive, .inr hDepFD⟩
      · obtain ⟨hsearched', hdeps⟩ := hfalse' h
        have hboth := hsearched.trans hsearched'
        refine ⟨hboth.visit (fun DepFD hfollowed => ?_) fun h => hemitted h.2, hboth.subset hself⟩
        exact hfollowed.2.elim (fun h => hsearched'.subset (hmethods DepFD h)) (hdeps DepFD)

theorem LeadsToEmitted.notMem (h : Searched dm g F ∅ S) (hpath : dm.LeadsToEmitted g F FD) :
    FD ∉ S := by
  induction hpath with
  | here hlive hemitted =>
    exact fun hmem => h.quiet _ hmem (notMem_empty _) ⟨hlive, hemitted⟩
  | @step FD DepFD hlive hleads _ ih =>
    intro hmem
    have hquiet := h.quiet FD hmem (notMem_empty FD)
    have hclosed : dm.followed g F FD ⊆ ↑S := by
      refine h.marked.closed FD hmem ?_
      rw [coe_empty]
      exact Set.notMem_empty FD
    cases hleads with
    | dependent hdependent => exact ih (hclosed ⟨hlive, .inr hdependent⟩)
    | sibling hvirtual hmethod hne =>
      -- a virtual method outside of its class is emitted
      have hfile : ¬ F.isFileContext FD = true := fun hfile =>
        hquiet ⟨hlive, hfile, F.outOfClass FD hvirtual hfile⟩
      refine ih (hclosed ⟨hlive, .inl ?_⟩)
      rw [FunctionDecls.siblings, if_neg hfile, if_pos hvirtual, List.mem_filter]
      exact ⟨hmethod, decide_eq_true hne⟩

/-- The query returns, with more fuel than there are functions, and is true if and only if there
is a path through live functions from a function that depends on the variable to an emitted one. -/
theorem dependsOnEmittedFunction_iff (dm : DependencyMap Node) (g : DependencyGraph Node)
    (F : FunctionDecls Node) (VD : Node) {fuel : Nat} (hfuel : g.nodes.length < fuel) :
    ∃ found, dm.dependsOnEmittedFunction g F fuel VD = some found ∧
      (found = true ↔ ∃ FD ∈ dm.functionDependents g F VD, dm.LeadsToEmitted g F FD) := by
  have hunseen : unseen g.nodes ∅ < fuel :=
    Nat.lt_of_le_of_lt (length_filter_le _ _) hfuel
  obtain ⟨found, S, hsearch, htrue, hfalse⟩ :=
    search_dependents (dm.functionDependents g F VD)
      (fun FD S hS => dependsOnEmittedFunctionOf_spec FD S hS) hunseen
  refine ⟨found, by simp [dependsOnEmittedFunction, hsearch], htrue, fun hpath => ?_⟩
  obtain ⟨FD, hFD, hpath⟩ := hpath
  cases found with
  | true => rfl
  | false =>
    obtain ⟨hsearched, hmem⟩ := hfalse rfl
    exact absurd (hmem FD hFD) (hpath.notMem hsearched)

/-- A variable and a function, as nodes. -/
def twoDecls : DependencyGraph Bool where
  kind _ := .decl
  dependees _ := []
  getCanonicalType := id
  shouldRecanonType _ := false
  findReplacement _ _ := none
  wasReplaced _ _ _ := false
  isMutable _ := false
  isSource _ := false
  nodes := [false, true]
  mem_nodes n := by cases n <;> simp
  iterate S := [false, true].filter fun n => n ∈ S
  mem_iterate S n := by cases n <;> simp

/-- The function is emitted. -/
def oneFunction : FunctionDecls Bool where
  isFunctionDecl n := n
  LiveDecls _ := true
  isFileContext _ := true
  getTemplateSpecializationKind _ := .TSK_Undeclared
  isVirtual _ := false
  methods _ := []
  outOfClass _ _ _ := .inl rfl

/-- The function depends on the variable. -/
def oneDependent : DependencyMap Bool :=
  { (empty : DependencyMap Bool) with dependents := fun n => if n then none else some {true} }

/-- The query for the variable. -/
theorem dependsOnEmittedFunction_iff_oneDependent :
    ∃ found, oneDependent.dependsOnEmittedFunction twoDecls oneFunction 3 false = some found ∧
      (found = true ↔ ∃ FD ∈ oneDependent.functionDependents twoDecls oneFunction false,
        oneDependent.LeadsToEmitted twoDecls oneFunction FD) :=
  dependsOnEmittedFunction_iff oneDependent twoDecls oneFunction false (by decide)

end DependencyMap

end Zapcc.Unload
