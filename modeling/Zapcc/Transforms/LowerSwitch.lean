import Mathlib.Data.BitVec

/-!
# Lowering a switch

`processSwitchInst` replaces a switch by a tree of compares. The blocks of a function are numbered,
and new blocks are put at the end. A PHI node is the list of its incoming values and blocks. A call
whose assertion fails has no result.
-/

namespace Zapcc.LowerSwitch

variable {w : Nat} {V : Type}

/-- The compares of the condition that the pass makes. -/
inductive Compare (w : Nat) where
  | eq (c : BitVec w)
  | slt (c : BitVec w)
  | sle (c : BitVec w)
  | ule (c : BitVec w)
  /-- The condition plus `NegLo` is at most `UpperBound`. -/
  | offset (NegLo UpperBound : BitVec w)

/-- What a compare says of the condition. -/
def Compare.holds : Compare w → BitVec w → Prop
  | eq c, v => v = c
  | slt c, v => v.toInt < c.toInt
  | sle c, v => v.toInt ≤ c.toInt
  | ule c, v => v ≤ c
  | offset NegLo UpperBound, v => v + NegLo ≤ UpperBound

instance : (c : Compare w) → (v : BitVec w) → Decidable (c.holds v)
  | .eq c, v => inferInstanceAs (Decidable (v = c))
  | .slt c, v => inferInstanceAs (Decidable (v.toInt < c.toInt))
  | .sle c, v => inferInstanceAs (Decidable (v.toInt ≤ c.toInt))
  | .ule c, v => inferInstanceAs (Decidable (v ≤ c))
  | .offset NegLo UpperBound, v => inferInstanceAs (Decidable (v + NegLo ≤ UpperBound))

inductive Terminator (w : Nat) where
  | switch (Default : Nat) (cases : List (BitVec w × Nat))
  | br (dest : Nat)
  | condBr (Comp : Compare w) (ifTrue ifFalse : Nat)
  | other (successors : List Nat)

/-- One block for each edge that leaves. -/
def Terminator.successors : Terminator w → List Nat
  | switch Default cases => Default :: cases.map Prod.snd
  | br dest => [dest]
  | condBr _ ifTrue ifFalse => [ifTrue, ifFalse]
  | other successors => successors

/-- The block that is entered for a value of the condition. -/
def Terminator.next (v : BitVec w) : Terminator w → Option Nat
  | switch Default cases => some (((cases.find? fun c => c.1 = v).map Prod.snd).getD Default)
  | br dest => some dest
  | condBr Comp ifTrue ifFalse => some (if Comp.holds v then ifTrue else ifFalse)
  | other _ => none

/-- The incoming values of a PHI node, each with its block. -/
abbrev PHINode (V : Type) := List (V × Nat)

/-- The number of entries for a block. -/
def PHINode.countFrom (PN : PHINode V) (BB : Nat) : Nat := (PN.map Prod.snd).count BB

/-- A block. `startsUnreachable` says that the first instruction behind the PHI nodes is
`unreachable`. -/
structure BasicBlock (w : Nat) (V : Type) where
  phis : List (PHINode V)
  startsUnreachable : Bool
  terminator : Terminator w

/-- The blocks of a function. -/
abbrev Function (w : Nat) (V : Type) := List (BasicBlock w V)

namespace Function

/-- The number of edges between two blocks. -/
def edges (F : Function w V) (P B : Nat) : Nat :=
  ((F[P]?.map fun b => b.terminator.successors).getD []).count B

/-- The blocks that the edges to a block come from. -/
def predecessors (F : Function w V) (B : Nat) : List Nat :=
  (List.range F.length).flatMap fun P => List.replicate (F.edges P B) P

/-- The block of the only edge to a block. -/
def getSinglePredecessor (F : Function w V) (B : Nat) : Option Nat :=
  match F.predecessors B with
  | [P] => some P
  | _ => none

/-- Change the PHI nodes of a block. -/
def mapPhis (F : Function w V) (B : Nat) (f : PHINode V → PHINode V) : Function w V :=
  F.modify B fun b => { b with phis := b.phis.map f }

/-- Change the end of a block. -/
def setTerminator (F : Function w V) (B : Nat) (t : Terminator w) : Function w V :=
  F.modify B fun b => { b with terminator := t }

/-- Each PHI node of a block has more entries for another block. -/
def MoreEntries (F : Function w V) (B OrigBB n : Nat) : Prop :=
  ∀ b ∈ F[B]?, ∀ PN ∈ b.phis, n < PN.countFrom OrigBB

instance (F : Function w V) (B OrigBB n : Nat) : Decidable (F.MoreEntries B OrigBB n) :=
  inferInstanceAs (Decidable (∀ b ∈ F[B]?, ∀ PN ∈ b.phis, n < PN.countFrom OrigBB))

end Function

/-- Remove the first `n` entries for a block. -/
def removeEntries (OrigBB : Nat) : Nat → PHINode V → PHINode V
  | _, [] => []
  | 0, PN => PN
  | n + 1, (x, BB) :: PN =>
    if BB = OrigBB then removeEntries OrigBB n PN else (x, BB) :: removeEntries OrigBB (n + 1) PN

/-- `fixPhis`, for one PHI node: the first entry for `OrigBB` is for `NewBB`, and the next ones
are removed. -/
def fixPhi (OrigBB NewBB NumMergedCases : Nat) : PHINode V → PHINode V
  | [] => []
  | (x, BB) :: PN =>
    if BB = OrigBB then (x, NewBB) :: removeEntries OrigBB NumMergedCases PN
    else (x, BB) :: fixPhi OrigBB NewBB NumMergedCases PN

/-- Let the first entry for `OrigBB` be for `NewBB`. -/
def setIncomingBlock (OrigBB NewBB : Nat) : PHINode V → PHINode V
  | [] => []
  | (x, BB) :: PN =>
    if BB = OrigBB then (x, NewBB) :: PN else (x, BB) :: setIncomingBlock OrigBB NewBB PN

/-- A new block, without PHI nodes. -/
def newBlock (t : Terminator w) : BasicBlock w V :=
  { phis := [], startsUnreachable := false, terminator := t }

/-- Case values that lead to the same block. -/
structure CaseRange (w : Nat) where
  Low : BitVec w
  High : BitVec w
  BB : Nat

/-- The values from `Low` to `High`. -/
structure IntRange where
  Low : Int
  High : Int

def leafCompare (Leaf : CaseRange w) : Compare w :=
  if Leaf.Low = Leaf.High then .eq Leaf.Low
  else if Leaf.Low = BitVec.intMin w then .sle Leaf.High
  else if Leaf.Low = 0 then .ule Leaf.High
  else .offset (-Leaf.Low) (-Leaf.Low + Leaf.High)

/-- Make a block that checks the values of a case range. -/
def newLeafBlock (F : Function w V) (Leaf : CaseRange w) (OrigBlock Default : Nat) :
    Option (Function w V × Nat) :=
  let NewLeaf := F.length
  let F := F ++ [newBlock (.condBr (leafCompare Leaf) Leaf.BB Default)]
  let Range := (Leaf.High.toInt - Leaf.Low.toInt).toNat
  if F.MoreEntries Leaf.BB OrigBlock Range then
    some (F.mapPhis Leaf.BB fun PN =>
      setIncomingBlock OrigBlock NewLeaf (removeEntries OrigBlock Range PN), NewLeaf)
  else
    none

/-- The ranges are sorted and do not overlap. -/
def IsInRanges (R : IntRange) (Ranges : List IntRange) : Bool :=
  match Ranges.find? fun A => ¬ A.High < R.High with
  | none => false
  | some I => I.Low ≤ R.Low

/-- Make a tree of compares for case ranges. -/
def switchConvert (UnreachableRanges : List IntRange) (OrigBlock Default : Nat) :
    Nat → List (CaseRange w) → Option (BitVec w) → Option (BitVec w) → Nat → Function w V →
      Option (Function w V × Nat)
  | 0, _, _, _, _, _ => none
  | _ + 1, [], _, _, _, _ => none
  | _ + 1, [Begin], LowerBound, UpperBound, Predecessor, F =>
    if LowerBound = some Begin.Low ∧ UpperBound = some Begin.High then
      let NumMergedCases := (Begin.High.toInt - Begin.Low.toInt).toNat
      some (F.mapPhis Begin.BB (fixPhi OrigBlock Predecessor NumMergedCases), Begin.BB)
    else
      newLeafBlock F Begin OrigBlock Default
  | fuel + 1, Cases, LowerBound, UpperBound, _, F => do
      let Mid := Cases.length / 2
      let LHS := Cases.take Mid
      let RHS := Cases.drop Mid
      let Pivot ← RHS.head?
      let Last ← LHS.getLast?
      let GapLow := Last.High.toInt + 1
      let GapHigh := Pivot.Low.toInt - 1
      -- the gap between both halves may be unreachable
      let NewUpperBound :=
        if GapLow ≤ GapHigh ∧ IsInRanges ⟨GapLow, GapHigh⟩ UnreachableRanges then Last.High
        else Pivot.Low - 1
      let NewNode := F.length
      let F := F ++ [newBlock (.other [])]
      let (F, LBranch) ← switchConvert UnreachableRanges OrigBlock Default fuel LHS LowerBound
        (some NewUpperBound) NewNode F
      let (F, RBranch) ← switchConvert UnreachableRanges OrigBlock Default fuel RHS
        (some Pivot.Low) UpperBound NewNode F
      some (F.setTerminator NewNode (.condBr (.slt Pivot.Low) LBranch RBranch), NewNode)

/-- The loop of `Clusterify` that merges neighbouring cases. -/
def mergeCases : CaseRange w → List (CaseRange w) → List (CaseRange w)
  | I, [] => [I]
  | I, J :: Cases =>
    if J.Low.toInt = I.High.toInt + 1 ∧ I.BB = J.BB then
      mergeCases { I with High := J.High } Cases
    else
      I :: mergeCases J Cases

/-- Transform the cases into case ranges. -/
def Clusterify (cases : List (BitVec w × Nat)) : List (CaseRange w) :=
  match (cases.map fun c => CaseRange.mk c.1 c.1 c.2).insertionSort
    fun C1 C2 => C1.Low.toInt ≤ C2.High.toInt with
  | [] => []
  | I :: Cases => mergeCases I Cases

def unreachableRanges : Int → List (CaseRange w) → List IntRange
  | Low, [] => [⟨Low, 2 ^ 63 - 1⟩]
  | Low, I :: Cases =>
    (if Low = I.Low.toInt then [] else [⟨Low, I.Low.toInt - 1⟩]) ++
      if I.High.toInt ≠ 2 ^ 63 - 1 then unreachableRanges (I.High.toInt + 1) Cases else []

/-- The loop that looks for the block of the most cases. -/
def popularSucc : List (CaseRange w) → (Nat → Nat) → Nat → Option Nat → Option Nat
  | [], _, _, PopSucc => PopSucc
  | I :: Cases, Popularity, MaxPop, PopSucc =>
    let Pop := Popularity I.BB + (I.High.toInt - I.Low.toInt + 1).toNat
    if MaxPop < Pop then
      popularSucc Cases (Function.update Popularity I.BB Pop) Pop (some I.BB)
    else
      popularSucc Cases (Function.update Popularity I.BB Pop) MaxPop PopSucc

/-- The last part of `processSwitchInst`, with a block for the default. -/
def convertCases (F : Function w V) (CurBlock Default OldDefault : Nat)
    (Cases : List (CaseRange w)) (LowerBound UpperBound : Option (BitVec w))
    (UnreachableRanges : List IntRange) : Option (Function w V × List Nat) := do
  let NewDefault := F.length
  let F := F ++ [newBlock (.br Default)]
  if F.MoreEntries Default CurBlock 0 then
    let F := F.mapPhis Default (setIncomingBlock CurBlock NewDefault)
    let (F, SwitchBlock) ← switchConvert UnreachableRanges CurBlock NewDefault Cases.length Cases
      LowerBound UpperBound CurBlock F
    let F := F.setTerminator CurBlock (.br SwitchBlock)
    some (F, if F.predecessors OldDefault = [] then [OldDefault] else [])
  else
    none

/-- Replace the switch at the end of a block. The result has the blocks that are to be deleted. -/
def processSwitchInst (F : Function w V) (CurBlock : Nat) :
    Option (Function w V × List Nat) := do
  let b ← F[CurBlock]?
  match b.terminator with
  | .switch Default cases =>
    if CurBlock ≠ 0 ∧ F.predecessors CurBlock = [] ∨
        F.getSinglePredecessor CurBlock = some CurBlock then
      some (F, [CurBlock])
    else if cases = [] then
      some (F.setTerminator CurBlock (.br Default), [])
    else
      let Cases := Clusterify cases
      let d ← F[Default]?
      if d.startsUnreachable then
        let PopSucc ← popularSucc Cases (fun _ => 0) 0 none
        let First ← Cases.head?
        let Last ← Cases.getLast?
        let Rest := Cases.filter fun R => R.BB ≠ PopSucc
        if Rest = [] then
          some (F.setTerminator CurBlock (.br PopSucc), [])
        else
          convertCases F CurBlock PopSucc Default Rest (some First.Low) (some Last.High)
            (unreachableRanges (-2 ^ 63) Cases)
      else
        convertCases F CurBlock Default Default Cases none none []
  | _ => none

end Zapcc.LowerSwitch
