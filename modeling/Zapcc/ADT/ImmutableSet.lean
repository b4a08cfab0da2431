import Mathlib.Order.Lattice

/-!
# Immutable sets

The AVL trees behind immutable sets, as their factory builds them in memory: a node is an address,
a pointer is an address or null, and a node holds the number of references to it. An operation
builds new nodes over the ones of its argument, discards some of them when it rotates, and in the
end returns the discarded nodes to a list from which later nodes are made. A failed assertion and
the use of memory that holds no node give no result.
-/

namespace Zapcc.ADT

structure ImutAVLTree (α : Type) where
  left : Option Nat
  right : Option Nat
  height : Nat
  IsMutable : Bool
  value : α
  refCount : Nat

/-- A factory with the memory of its nodes: the addresses from `allocated` on are not in use yet,
and the last one of the free nodes is the first of the list. -/
structure ImutAVLFactory (α : Type) where
  memory : Nat → Option (ImutAVLTree α)
  allocated : Nat
  createdNodes : List Nat
  freeNodes : List Nat

namespace ImutAVLFactory

variable {α : Type}

/-- A factory without nodes. -/
def empty : ImutAVLFactory α :=
  { memory := fun _ => none, allocated := 0, createdNodes := [], freeNodes := [] }

def write (F : ImutAVLFactory α) (T : Nat) (N : ImutAVLTree α) : ImutAVLFactory α :=
  { F with memory := Function.update F.memory T (some N) }

/-! ## References -/

def retain (F : ImutAVLFactory α) : Option Nat → Option (ImutAVLFactory α)
  | none => some F
  | some T => do
      let N ← F.memory T
      return F.write T { N with refCount := N.refCount + 1 }

mutual

/-- One reference less to a node, which is destroyed with the last one. -/
def release : Nat → ImutAVLFactory α → Option Nat → Option (ImutAVLFactory α)
  | _, F, none => some F
  | 0, _, some _ => none
  | fuel + 1, F, some T => do
      let N ← F.memory T
      if N.refCount = 0 then none
      else if N.refCount - 1 = 0 then
        destroy fuel (F.write T { N with refCount := N.refCount - 1 }) T
      else return F.write T { N with refCount := N.refCount - 1 }

/-- The children are released, and the node can be used again. -/
def destroy : Nat → ImutAVLFactory α → Nat → Option (ImutAVLFactory α)
  | 0, _, _ => none
  | fuel + 1, F, T => do
      let N ← F.memory T
      let F ← release fuel F N.left
      let N ← F.memory T
      let F ← release fuel F N.right
      let N ← F.memory T
      let F := F.write T { N with IsMutable := false }
      return { F with freeNodes := T :: F.freeNodes }

end

/-- Enough for one step at each node, and for one at each pointer to it. -/
def releaseFuel (F : ImutAVLFactory α) : Nat := 2 * F.allocated + 2

/-! ## Nodes -/

def getHeight (F : ImutAVLFactory α) : Option Nat → Option Nat
  | none => some 0
  | some T => do
      let N ← F.memory T
      return N.height

def incrementHeight (F : ImutAVLFactory α) (L R : Option Nat) : Option Nat := do
  let hl ← F.getHeight L
  let hr ← F.getHeight R
  return (if hl > hr then hl else hr) + 1

/-- The constructor of a node at an address. -/
def construct (F : ImutAVLFactory α) (T : Nat) (L : Option Nat) (V : α) (R : Option Nat)
    (height : Nat) : Option (ImutAVLFactory α) := do
  let F := F.write T
    { left := L, right := R, height := height, IsMutable := true, value := V, refCount := 0 }
  let F ← F.retain L
  F.retain R

def createNode (F : ImutAVLFactory α) (L : Option Nat) (V : α) (R : Option Nat) :
    Option (Nat × ImutAVLFactory α) := do
  let height ← F.incrementHeight L R
  match F.freeNodes with
  | T :: rest =>
    if some T = L ∨ some T = R then none
    else
      let F ← construct { F with freeNodes := rest } T L V R height
      return (T, { F with createdNodes := F.createdNodes ++ [T] })
  | [] =>
    let T := F.allocated
    let F ← construct { F with allocated := F.allocated + 1 } T L V R height
    return (T, { F with createdNodes := F.createdNodes ++ [T] })

/-- A node with the value of another one. -/
def createNodeFrom (F : ImutAVLFactory α) (newLeft : Option Nat) (oldTree : Nat)
    (newRight : Option Nat) : Option (Nat × ImutAVLFactory α) := do
  let N ← F.memory oldTree
  F.createNode newLeft N.value newRight

/-- The node whose existence an assertion states. -/
def deref (F : ImutAVLFactory α) (T : Option Nat) : Option (Nat × ImutAVLTree α) := do
  let T ← T
  let N ← F.memory T
  return (T, N)

def balanceTree (F : ImutAVLFactory α) (L : Option Nat) (V : α) (R : Option Nat) :
    Option (Nat × ImutAVLFactory α) := do
  let hl ← F.getHeight L
  let hr ← F.getHeight R
  if hl > hr + 2 then
    let (L, NL) ← F.deref L
    let hll ← F.getHeight NL.left
    let hlr ← F.getHeight NL.right
    if hll ≥ hlr then
      let (T, F) ← F.createNode NL.right V R
      F.createNodeFrom NL.left L (some T)
    else
      let (LR, NLR) ← F.deref NL.right
      let (T1, F) ← F.createNodeFrom NL.left L NLR.left
      let (T2, F) ← F.createNode NLR.right V R
      F.createNodeFrom (some T1) LR (some T2)
  else if hr > hl + 2 then
    let (R, NR) ← F.deref R
    let hrr ← F.getHeight NR.right
    let hrl ← F.getHeight NR.left
    if hrr ≥ hrl then
      let (T, F) ← F.createNode L V NR.left
      F.createNodeFrom (some T) R NR.right
    else
      let (RL, NRL) ← F.deref NR.left
      let (T1, F) ← F.createNode L V NRL.left
      let (T2, F) ← F.createNodeFrom NRL.right R NR.right
      F.createNodeFrom (some T1) RL (some T2)
  else F.createNode L V R

/-! ## Adding and removing -/

section Operations

variable [LinearOrder α]

def add_internal : Nat → ImutAVLFactory α → α → Option Nat → Option (Nat × ImutAVLFactory α)
  | 0, _, _, _ => none
  | _ + 1, F, V, none => F.createNode none V none
  | fuel + 1, F, V, some T => do
      let N ← F.memory T
      if N.IsMutable then none
      else if V = N.value then F.createNode N.left V N.right
      else if V < N.value then
        let (L, F) ← add_internal fuel F V N.left
        F.balanceTree (some L) N.value N.right
      else
        let (R, F) ← add_internal fuel F V N.right
        F.balanceTree N.left N.value (some R)

/-- The node with the first value, and the tree without it. -/
def removeMinBinding : Nat → ImutAVLFactory α → Option Nat →
    Option (Nat × Option Nat × ImutAVLFactory α)
  | 0, _, _ => none
  | fuel + 1, F, T => do
      let (T, N) ← F.deref T
      match N.left with
      | none => return (T, N.right, F)
      | some L =>
        let (Noderemoved, L, F) ← removeMinBinding fuel F (some L)
        let (T, F) ← F.balanceTree L N.value N.right
        return (Noderemoved, some T, F)

def combineTrees (fuel : Nat) (F : ImutAVLFactory α) :
    Option Nat → Option Nat → Option (Option Nat × ImutAVLFactory α)
  | none, R => some (R, F)
  | some L, none => some (some L, F)
  | some L, some R => do
      let (OldNode, newRight, F) ← removeMinBinding fuel F (some R)
      let N ← F.memory OldNode
      let (T, F) ← F.balanceTree (some L) N.value newRight
      return (some T, F)

def remove_internal : Nat → ImutAVLFactory α → α → Option Nat →
    Option (Option Nat × ImutAVLFactory α)
  | 0, _, _, _ => none
  | _ + 1, F, _, none => some (none, F)
  | fuel + 1, F, K, some T => do
      let N ← F.memory T
      if N.IsMutable then none
      else if K = N.value then combineTrees fuel F N.left N.right
      else if K < N.value then
        let (L, F) ← remove_internal fuel F K N.left
        let (T, F) ← F.balanceTree L N.value N.right
        return (some T, F)
      else
        let (R, F) ← remove_internal fuel F K N.right
        let (T, F) ← F.balanceTree N.left N.value R
        return (some T, F)

end Operations

def markImmutable : Nat → ImutAVLFactory α → Option Nat → Option (ImutAVLFactory α)
  | _, F, none => some F
  | 0, _, some _ => none
  | fuel + 1, F, some T => do
      let N ← F.memory T
      if N.IsMutable then
        let F ← markImmutable fuel (F.write T { N with IsMutable := false }) N.left
        markImmutable fuel F N.right
      else return F

/-- A created node that is not part of a finished tree is destroyed. -/
def recoverNode (F : ImutAVLFactory α) (T : Nat) : Option (ImutAVLFactory α) := do
  let N ← F.memory T
  if N.IsMutable ∧ N.refCount = 0 then F.destroy F.releaseFuel T else return F

def recoverNodes (F : ImutAVLFactory α) : Option (ImutAVLFactory α) := do
  let F ← F.createdNodes.foldlM recoverNode F
  return { F with createdNodes := [] }

/-- Enough for one step at each node of a path. -/
def pathFuel (F : ImutAVLFactory α) : Nat := F.allocated + 1

def finish (F : ImutAVLFactory α) (T : Option Nat) : Option (Option Nat × ImutAVLFactory α) := do
  let F ← F.markImmutable F.pathFuel T
  let F ← F.recoverNodes
  return (T, F)

def add [LinearOrder α] (F : ImutAVLFactory α) (T : Option Nat) (V : α) :
    Option (Option Nat × ImutAVLFactory α) := do
  let (T, F) ← F.add_internal F.pathFuel V T
  F.finish (some T)

def remove [LinearOrder α] (F : ImutAVLFactory α) (T : Option Nat) (V : α) :
    Option (Option Nat × ImutAVLFactory α) := do
  let (T, F) ← F.remove_internal F.pathFuel V T
  F.finish T

/-! ## Membership -/

/-- The node with a value below a node. -/
def find [LinearOrder α] : Nat → ImutAVLFactory α → Option Nat → α → Option (Option Nat)
  | _, _, none, _ => some none
  | 0, _, some _, _ => none
  | fuel + 1, F, some T, K => do
      let N ← F.memory T
      if K = N.value then return some T
      else if K < N.value then find fuel F N.left K
      else find fuel F N.right K

def contains [LinearOrder α] (fuel : Nat) (F : ImutAVLFactory α) (Root : Option Nat) (V : α) :
    Option Bool :=
  (F.find fuel Root V).map Option.isSome

/-! ## Walks -/

/-- What of a node on the stack of a walk has been visited. -/
inductive VisitFlag where
  | VisitedNone
  | VisitedLeft
  | VisitedRight
deriving DecidableEq

/-- The nodes from the current one up to the root. -/
abbrev Stack := List (Nat × VisitFlag)

def skipToParent : Stack → Option Stack
  | [] => none
  | [_] => some []
  | _ :: (T, .VisitedNone) :: stack => some ((T, .VisitedLeft) :: stack)
  | _ :: (T, .VisitedLeft) :: stack => some ((T, .VisitedRight) :: stack)
  | _ :: (_, .VisitedRight) :: _ => none

def increment (F : ImutAVLFactory α) : Stack → Option Stack
  | [] => none
  | (T, .VisitedNone) :: stack => do
      let N ← F.memory T
      match N.left with
      | some L => return (L, .VisitedNone) :: (T, .VisitedNone) :: stack
      | none => return (T, .VisitedLeft) :: stack
  | (T, .VisitedLeft) :: stack => do
      let N ← F.memory T
      match N.right with
      | some R => return (R, .VisitedNone) :: (T, .VisitedLeft) :: stack
      | none => return (T, .VisitedRight) :: stack
  | (T, .VisitedRight) :: stack => skipToParent ((T, .VisitedRight) :: stack)

/-- The walk is at its end or at a value. -/
def atStop : Stack → Bool
  | [] => true
  | (_, flag) :: _ => flag = .VisitedLeft

/-- The loop of both ways to go on. -/
def settle : Nat → ImutAVLFactory α → Stack → Option Stack
  | 0, _, stack => if atStop stack then some stack else none
  | fuel + 1, F, stack =>
    if atStop stack then some stack
    else do
      let stack ← F.increment stack
      settle fuel F stack

/-- The next value in order. -/
def advance (fuel : Nat) (F : ImutAVLFactory α) (stack : Stack) : Option Stack := do
  let stack ← F.increment stack
  F.settle fuel stack

/-- The next value that is not in the subtree of the current one. -/
def skipSubTree (fuel : Nat) (F : ImutAVLFactory α) (stack : Stack) : Option Stack := do
  let stack ← skipToParent stack
  F.settle fuel stack

def begin (fuel : Nat) (F : ImutAVLFactory α) (Root : Nat) : Option Stack :=
  F.advance fuel [(Root, .VisitedNone)]

/-- The loop over two walks, which leaves out the subtrees that are shared. -/
def isEqualLoop [DecidableEq α] : Nat → ImutAVLFactory α → Stack → Stack → Option Bool
  | 0, _, _, _ => none
  | fuel + 1, F, (L, fl) :: LItr, (R, fr) :: RItr =>
    if L = R then do
      let LItr ← F.skipSubTree fuel ((L, fl) :: LItr)
      let RItr ← F.skipSubTree fuel ((R, fr) :: RItr)
      isEqualLoop fuel F LItr RItr
    else do
      let NL ← F.memory L
      let NR ← F.memory R
      if NL.value ≠ NR.value then return false
      else
        let LItr ← F.advance fuel ((L, fl) :: LItr)
        let RItr ← F.advance fuel ((R, fr) :: RItr)
        isEqualLoop fuel F LItr RItr
  | _ + 1, _, [], RItr => some RItr.isEmpty
  | _ + 1, _, _ :: _, [] => some false

def isEqual [DecidableEq α] (fuel : Nat) (F : ImutAVLFactory α) (LHS RHS : Nat) : Option Bool :=
  if RHS = LHS then some true
  else do
    let LItr ← F.begin fuel LHS
    let RItr ← F.begin fuel RHS
    isEqualLoop fuel F LItr RItr

end ImutAVLFactory

/-! ## Sets -/

/-- The equality of two sets, by their roots. -/
def ImmutableSet.isEqual {α : Type} [DecidableEq α] (fuel : Nat) (F : ImutAVLFactory α) :
    Option Nat → Option Nat → Option Bool
  | some L, some R => F.isEqual fuel L R
  | L, R => some (L = R)

end Zapcc.ADT
