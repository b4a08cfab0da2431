import Mathlib.Data.Fintype.Basic
import Mathlib.Data.Finset.Card
import Mathlib.Order.WithBot

/-!
# The iterator over strongly connected components

Tarjan's algorithm, suspended after each component: the numbers of the visited nodes, the stack
of the nodes whose component is not complete, and the stack of the search with the children that
are left. A function has no result where an assertion fails or an empty vector is read.
-/

namespace Zapcc.ADT

open Finset

/-- The number of a visited node, where `⊤` stands for `~0U`. The map of the numbers cannot hold
as many nodes as there are values of `unsigned`, so that the counter does not get there. -/
abbrev VisitNum := WithTop Nat

/-- An element of the visit stack: a node, its next children and the minimum uplink value. -/
structure StackElement (V : Type*) where
  Node : V
  NextChild : List V
  MinVisited : VisitNum

/-- The iterator. The back of a stack is the head of its list. -/
structure SccIterator (V : Type*) where
  visitNum : Nat
  nodeVisitNumbers : V → Option VisitNum
  SCCNodeStack : List V
  CurrentSCC : List V
  VisitStack : List (StackElement V)

namespace SccIterator

variable {V : Type*} [DecidableEq V] (children : V → List V)

def setNumber (it : SccIterator V) (N : V) (num : VisitNum) : SccIterator V :=
  { it with nodeVisitNumbers := fun M => if M = N then some num else it.nodeVisitNumbers M }

/-- A single visit within the traversal. -/
def DFSVisitOne (it : SccIterator V) (N : V) : SccIterator V :=
  { it.setNumber N (WithTop.some (it.visitNum + 1)) with
    visitNum := it.visitNum + 1
    SCCNodeStack := N :: it.SCCNodeStack
    VisitStack := ⟨N, children N, WithTop.some (it.visitNum + 1)⟩ :: it.VisitStack }

/-! ## What is left to visit -/

/-- The number of the nodes that have no number. -/
def unvisited [Fintype V] (it : SccIterator V) : Nat :=
  (Finset.univ.filter fun v => it.nodeVisitNumbers v = none).card

theorem unvisited_DFSVisitOne [Fintype V] (it : SccIterator V) {N : V}
    (h : it.nodeVisitNumbers N = none) :
    (it.DFSVisitOne children N).unvisited < it.unvisited := by
  apply card_lt_card
  rw [ssubset_iff_of_subset]
  · refine ⟨N, by simpa using h, fun hmem => ?_⟩
    have hnone := (mem_filter.mp hmem).2
    simp [DFSVisitOne, setNumber] at hnone
  · intro v hv
    have hv := (mem_filter.mp hv).2
    refine mem_filter.mpr ⟨mem_univ v, ?_⟩
    simp only [DFSVisitOne, setNumber] at hv
    split at hv
    · simp at hv
    · exact hv

/-- The number of the children that are left to the top of the visit stack. -/
def childrenLeft (it : SccIterator V) : Nat :=
  match it.VisitStack with
  | [] => 0
  | top :: _ => top.NextChild.length

/-! ## The search -/

/-- Follow the children of the top of the visit stack, until it has none left. -/
def DFSVisitChildren [Fintype V] (it : SccIterator V) : SccIterator V :=
  match _ : it.VisitStack with
  | [] => it
  | ⟨_, [], _⟩ :: _ => it
  | ⟨Node, childN :: NextChild, MinVisited⟩ :: rest =>
    match _ : it.nodeVisitNumbers childN with
    | none =>
      -- this node has never been seen
      DFSVisitChildren
        (DFSVisitOne children
          { it with VisitStack := ⟨Node, NextChild, MinVisited⟩ :: rest } childN)
    | some childNum =>
      DFSVisitChildren
        { it with
          VisitStack :=
            ⟨Node, NextChild, if MinVisited > childNum then childNum else MinVisited⟩ :: rest }
termination_by (it.unvisited, it.childrenLeft)
decreasing_by
  · refine Prod.Lex.left _ _ ?_
    exact unvisited_DFSVisitOne children { it with VisitStack := _ } ‹_›
  · refine Prod.Lex.right _ ?_
    simp [childrenLeft, ‹it.VisitStack = _›]

theorem DFSVisitChildren_measure [Fintype V] (it : SccIterator V) :
    (it.DFSVisitChildren children).unvisited < it.unvisited ∨
      (it.DFSVisitChildren children).unvisited = it.unvisited ∧
        (it.DFSVisitChildren children).VisitStack.length = it.VisitStack.length := by
  fun_induction DFSVisitChildren children it with
  | case1 | case2 => exact .inr ⟨rfl, rfl⟩
  | case3 it Node childN NextChild MinVisited rest hstack hchild ih =>
    have hless := unvisited_DFSVisitOne children
      { it with VisitStack := ⟨Node, NextChild, MinVisited⟩ :: rest } hchild
    have hsame : unvisited { it with VisitStack := ⟨Node, NextChild, MinVisited⟩ :: rest } =
        it.unvisited := rfl
    omega
  | case4 it Node childN NextChild MinVisited rest hstack childNum hchild ih =>
    rw [hstack]
    exact ih

/-- Move the nodes above a node, and the node itself, to the current component. -/
def popSCC (visitingN : V) : List V → SccIterator V → Option (SccIterator V)
  | [], _ => none
  | N :: stack, it =>
    let it := { it.setNumber N ⊤ with
      CurrentSCC := it.CurrentSCC ++ [N]
      SCCNodeStack := stack }
    if N ≠ visitingN then popSCC visitingN stack it else some it

/-- Propagate the minimum of a node to its parent. -/
def propagate (minVisitNum : VisitNum) : List (StackElement V) → List (StackElement V)
  | [] => []
  | ⟨Node, NextChild, MinVisited⟩ :: rest =>
    ⟨Node, NextChild, if MinVisited > minVisitNum then minVisitNum else MinVisited⟩ :: rest

omit [DecidableEq V] in
@[simp] theorem length_propagate (minVisitNum : VisitNum) (stack : List (StackElement V)) :
    (propagate minVisitNum stack).length = stack.length := by
  unfold propagate
  split <;> rfl

/-- Pop leaves off the visit stack until a component is complete. -/
def popLeaves [Fintype V] (it : SccIterator V) : Option (SccIterator V) :=
  if _ : it.VisitStack = [] then some it
  else
    match _ : (it.DFSVisitChildren children).VisitStack with
    | [] => none
    | ⟨visitingN, _, minVisitNum⟩ :: rest =>
      let popped := { it.DFSVisitChildren children with
        VisitStack := propagate minVisitNum rest }
      if minVisitNum ≠ (popped.nodeVisitNumbers visitingN).getD (WithTop.some 0) then
        popLeaves popped
      else
        popSCC visitingN popped.SCCNodeStack popped
termination_by (it.unvisited, it.VisitStack.length)
decreasing_by
  have hlen : rest.length < (it.DFSVisitChildren children).VisitStack.length := by
    simp [‹(it.DFSVisitChildren children).VisitStack = _›]
  rcases DFSVisitChildren_measure children it with hless | ⟨hsame, hstack'⟩
  · exact Prod.Lex.left _ _ hless
  · refine Prod.Lex.right' _ hsame.le ?_
    simp only [length_propagate]
    omega

/-- Compute the next component. -/
def GetNextSCC [Fintype V] (it : SccIterator V) : Option (SccIterator V) :=
  popLeaves children { it with CurrentSCC := [] }

/-- An iterator before its first search. -/
def start (entryN : V) : SccIterator V :=
  DFSVisitOne children ⟨0, fun _ => none, [], [], []⟩ entryN

/-- The iterator at the first component. -/
def begin [Fintype V] (entryN : V) : Option (SccIterator V) :=
  GetNextSCC children (start children entryN)

/-- The iterator is at its end, as an iterator that was not started. -/
def isAtEnd (it : SccIterator V) : Bool := it.VisitStack.isEmpty && it.CurrentSCC.isEmpty

/-- Whether the current component has a loop. -/
def hasLoop (it : SccIterator V) : Option Bool :=
  match it.CurrentSCC with
  | [] => none
  | [N] => some ((children N).any fun M => M = N)
  | _ :: _ :: _ => some true

/-- The iterators from one on, which is advanced until it is at the end. -/
inductive Enumerates [Fintype V] : SccIterator V → List (SccIterator V) → Prop where
  | atEnd {it : SccIterator V} : it.isAtEnd = true → Enumerates it []
  | next {it it' : SccIterator V} {its : List (SccIterator V)} : it.isAtEnd = false →
      GetNextSCC children it = some it' → Enumerates it' its → Enumerates it (it :: its)

end SccIterator

end Zapcc.ADT
