import Zapcc.ADT.PostOrder
import Zapcc.Library.Dominance

/-!
# The loops of a function

`LoopInfoBase::analyze` discovers the loops in a post-order walk of the dominator tree, with a
backward walk from the back edges of each, and fills their lists in a forward walk of the control
flow graph. A loop is named by its header, which is the first of its blocks since its allocation.
-/

namespace Zapcc.IR

/-- A control flow graph. A block can be more than once among the successors of a block. -/
structure CFG (V : Type*) where
  entry : V
  blocks : List V
  succs : V → List V
  preds : V → List V
  blocks_nodup : blocks.Nodup
  mem_blocks : ∀ b, b ∈ blocks
  mem_preds : ∀ p b, p ∈ preds b ↔ b ∈ succs p

abbrev CFG.edge {V : Type*} (G : CFG V) (a b : V) : Prop := b ∈ G.succs a

namespace CFG

variable {V : Type*} (G : CFG V)

abbrev IsHeader (h : V) : Prop := Dominance.IsHeader G.edge G.entry h

abbrev InLoop (h b : V) : Prop := Dominance.InLoop G.edge G.entry h b

abbrev Innermost (P : V → Prop) (b : V) (o : Option V) : Prop :=
  Dominance.Innermost G.edge G.entry P b o

end CFG

end Zapcc.IR

namespace Zapcc.Analysis

open Zapcc.ADT.po_iterator Zapcc.Dominance Zapcc.IR

/-- A correct dominator tree of a graph, with what the analysis asks of it. -/
structure DomTree {V : Type*} (G : CFG V) where
  children : V → List V
  isReachableFromEntry : V → Bool
  dominates : V → V → Bool
  mem_children : ∀ a b, b ∈ children a ↔ IDom G.edge G.entry a b
  reachable_iff : ∀ b, isReachableFromEntry b ↔ Reachable G.edge G.entry b
  dominates_iff : ∀ a b, dominates a b ↔ Dominates G.edge G.entry a b

theorem exists_domTree {V : Type*} [Fintype V] (G : CFG V) : Nonempty (DomTree G) := by
  classical
  exact ⟨{
    children := fun a => (Finset.univ.filter (IDom G.edge G.entry a)).toList
    isReachableFromEntry := fun b => decide (Reachable G.edge G.entry b)
    dominates := fun a b => decide (Dominates G.edge G.entry a b)
    mem_children := by simp
    reachable_iff := by simp
    dominates_iff := by simp }⟩

/-- The loops that are allocated, their fields, and the loop of each block. -/
structure LoopInfo (V : Type*) where
  BBMap : V → Option V
  Loops : List V
  ParentLoop : V → Option V
  SubLoops : V → List V
  Blocks : V → List V
  TopLevelLoops : List V

namespace LoopInfo

variable {V : Type*} [DecidableEq V] (LI : LoopInfo V)

def empty : LoopInfo V := ⟨fun _ => none, [], fun _ => none, fun _ => [], fun _ => [], []⟩

def getLoopFor (BB : V) : Option V := LI.BBMap BB

def changeLoopFor (BB L : V) : LoopInfo V :=
  { LI with BBMap := Function.update LI.BBMap BB (some L) }

def setParentLoop (L Parent : V) : LoopInfo V :=
  { LI with ParentLoop := Function.update LI.ParentLoop L (some Parent) }

def addSubLoop (L Subloop : V) : LoopInfo V :=
  { LI with SubLoops := Function.update LI.SubLoops L (LI.SubLoops L ++ [Subloop]) }

def addTopLevelLoop (New : V) : LoopInfo V :=
  { LI with TopLevelLoops := LI.TopLevelLoops ++ [New] }

def addBlockEntry (L BB : V) : LoopInfo V :=
  { LI with Blocks := Function.update LI.Blocks L (LI.Blocks L ++ [BB]) }

def reverseBlock (L : V) (from' : Nat) : LoopInfo V :=
  { LI with
    Blocks := Function.update LI.Blocks L
      ((LI.Blocks L).take from' ++ ((LI.Blocks L).drop from').reverse) }

def reverseSubLoops (L : V) : LoopInfo V :=
  { LI with SubLoops := Function.update LI.SubLoops L (LI.SubLoops L).reverse }

/-- A new loop, which holds its header only. -/
def AllocateLoop (Header : V) : LoopInfo V :=
  { LI with
    Loops := LI.Loops ++ [Header]
    ParentLoop := Function.update LI.ParentLoop Header none
    SubLoops := Function.update LI.SubLoops Header []
    Blocks := Function.update LI.Blocks Header [Header] }

/-- The outermost loop that a loop is known to be in. The number bounds the steps. -/
def outermost : Nat → V → Option V
  | 0, _ => none
  | n + 1, Subloop =>
    match LI.ParentLoop Subloop with
    | none => some Subloop
    | some Parent => outermost n Parent

/-- The loop of `getLoopDepth`. The number bounds the steps. -/
def depthLoop : Nat → Option V → Nat → Option Nat
  | _, none, D => some D
  | 0, some _, _ => none
  | n + 1, some CurLoop, D => depthLoop n (LI.ParentLoop CurLoop) (D + 1)

/-- The depth of a block, which is the one of its innermost loop. -/
def getLoopDepth (n : Nat) (BB : V) : Option Nat :=
  match LI.getLoopFor BB with
  | none => some 0
  | some L => LI.depthLoop n (LI.ParentLoop L) 1

/-- The test of a loop to contain another one. -/
def contains (L : V) : Nat → Option V → Option Bool
  | _, none => some false
  | 0, some L' => if L' = L then some true else none
  | n + 1, some L' => if L' = L then some true else contains L n (LI.ParentLoop L')

omit [DecidableEq V] in
theorem ParentLoop_outermost {n : Nat} {l S : V} (h : LI.outermost n l = some S) :
    LI.ParentLoop S = none := by
  induction n generalizing l with
  | zero => cases h
  | succ n ih =>
    unfold outermost at h
    split at h
    · next hnone => exact Option.some.inj h ▸ hnone
    · exact ih h

end LoopInfo

section Discovery

variable {V : Type*} [Fintype V] [DecidableEq V] {G : CFG V} (T : DomTree G)

/-- A step of the backward walk, with the predecessors to walk on from. -/
def visitPred (L PredBB : V) (LI : LoopInfo V) : Option (LoopInfo V × List V) :=
  match LI.getLoopFor PredBB with
  | none =>
    if !T.isReachableFromEntry PredBB then some (LI, [])
    else if PredBB = L then some (LI.changeLoopFor PredBB L, [])
    else some (LI.changeLoopFor PredBB L, G.preds PredBB)
  | some Subloop =>
    match LI.outermost (Fintype.card V) Subloop with
    | none => none
    | some Subloop =>
      if Subloop = L then some (LI, [])
      else
        let LI := LI.setParentLoop Subloop L
        some (LI, (G.preds Subloop).filter fun Pred => LI.getLoopFor Pred ≠ some Subloop)

/-- The predecessors of what a map does not hold. -/
def unmappedPreds (G : CFG V) (f : V → Option V) : Nat := ∑ b with f b = none, (G.preds b).length

theorem unmappedPreds_update (f : V → Option V) {a : V} (b : V) (ha : f a = none) :
    unmappedPreds G (Function.update f a (some b)) + (G.preds a).length = unmappedPreds G f := by
  have hset : ({v | Function.update f a (some b) v = none} : Finset V) =
      ({v | f v = none} : Finset V).erase a := by
    ext v
    by_cases hv : v = a <;> simp [Function.update_apply, hv]
  unfold unmappedPreds
  rw [hset]
  exact Finset.sum_erase_add _ _ (by simpa using ha)

/-- The predecessors that the walk can still meet. -/
def LoopInfo.work (G : CFG V) (LI : LoopInfo V) : Nat :=
  unmappedPreds G LI.BBMap + unmappedPreds G LI.ParentLoop

theorem work_visitPred {L PredBB : V} {LI LI' : LoopInfo V} {pushed : List V}
    (h : visitPred T L PredBB LI = some (LI', pushed)) :
    pushed.length + LI'.work G ≤ LI.work G := by
  unfold visitPred at h
  split at h
  · next hnone =>
    have hsum := unmappedPreds_update (G := G) LI.BBMap L hnone
    split_ifs at h <;> obtain ⟨rfl, rfl⟩ := Prod.mk.inj (Option.some.inj h)
    · exact (Nat.zero_add _).le
    · simp only [LoopInfo.work, LoopInfo.changeLoopFor, List.length_nil]
      omega
    · simp only [LoopInfo.work, LoopInfo.changeLoopFor]
      omega
  · split at h
    · cases h
    · next S hS =>
      have hsum := unmappedPreds_update (G := G) LI.ParentLoop L (LI.ParentLoop_outermost hS)
      split_ifs at h <;> obtain ⟨rfl, rfl⟩ := Prod.mk.inj (Option.some.inj h)
      · exact (Nat.zero_add _).le
      · have hle := List.length_filter_le
          (fun Pred => decide ((LI.setParentLoop S L).getLoopFor Pred ≠ some S)) (G.preds S)
        simp only [LoopInfo.work, LoopInfo.setParentLoop] at hle ⊢
        omega

/-- The backward walk from the back edges of a loop. The back of the worklist is the head of its
list. -/
def discoverAndMapSubloop (L : V) (ReverseCFGWorklist : List V) (LI : LoopInfo V) :
    Option (LoopInfo V) :=
  match ReverseCFGWorklist with
  | [] => some LI
  | PredBB :: rest =>
    match _h : visitPred T L PredBB LI with
    | none => none
    | some (LI, pushed) => discoverAndMapSubloop L (pushed.reverse ++ rest) LI
termination_by ReverseCFGWorklist.length + LI.work G
decreasing_by
  have := work_visitPred T _h
  simp only [List.length_append, List.length_reverse, List.length_cons]
  omega

/-- The predecessors that the header dominates. -/
def backedges (Header : V) : List V :=
  (G.preds Header).filter fun Backedge =>
    T.dominates Header Backedge && T.isReachableFromEntry Backedge

/-- The loop of a header, if there is one. -/
def discoverHeader (LI : LoopInfo V) (Header : V) : Option (LoopInfo V) :=
  let Backedges := backedges T Header
  if Backedges ≠ [] then discoverAndMapSubloop T Header Backedges.reverse (LI.AllocateLoop Header)
  else some LI

end Discovery

section Population

variable {V : Type*} [Fintype V] [DecidableEq V]

/-- Add a block to a loop and the loops around it. The number bounds the steps. -/
def addBlockEntries (Block : V) : Nat → Option V → LoopInfo V → Option (LoopInfo V)
  | _, none, LI => some LI
  | 0, some _, _ => none
  | n + 1, some Subloop, LI =>
    addBlockEntries Block n (LI.ParentLoop Subloop) (LI.addBlockEntry Subloop Block)

/-- Put a complete subloop in its list, and reverse its own lists. -/
def completeSubloop (LI : LoopInfo V) (Subloop : V) : LoopInfo V :=
  let LI := match LI.ParentLoop Subloop with
    | some Parent => LI.addSubLoop Parent Subloop
    | none => LI.addTopLevelLoop Subloop
  (LI.reverseBlock Subloop 1).reverseSubLoops Subloop

def insertIntoLoop (LI : LoopInfo V) (Block : V) : Option (LoopInfo V) :=
  match LI.getLoopFor Block with
  | none => some LI
  | some Subloop =>
    if Block = Subloop then
      let LI := completeSubloop LI Subloop
      addBlockEntries Block (Fintype.card V) (LI.ParentLoop Subloop) LI
    else addBlockEntries Block (Fintype.card V) (some Subloop) LI

def traverse (G : CFG V) (EntryBlock : V) (LI : LoopInfo V) : Option (LoopInfo V) :=
  (post_order G.succs EntryBlock).foldlM insertIntoLoop LI

end Population

def analyze {V : Type*} [Fintype V] [DecidableEq V] {G : CFG V} (T : DomTree G) :
    Option (LoopInfo V) := do
  let LI ← (post_order T.children G.entry).foldlM (discoverHeader T) LoopInfo.empty
  traverse G G.entry LI

end Zapcc.Analysis
