import Zapcc.Library.IntervalLists

/-!
# Live ranges

A live range is an ordered list of segments, each with a pointer to its value number. While it is
first computed, the segments can be in a set instead. The algorithms are written once over the two
collections (`Impl`): they search a position, and go on from there to the segments before and
after it. An assertion that fails has no result.
-/

namespace Zapcc.LiveInterval

open Intervals

/-!
A `SlotIndex` is a number here: the place of its instruction in the list of instructions, times
four, plus one of the four slots of the instruction.
-/

namespace SlotIndex

/-- The place of the instruction. -/
def listEntry (I : Nat) : Nat := I / 4

def isSameInstr (A B : Nat) : Prop := listEntry A = listEntry B

def isEarlierInstr (A B : Nat) : Prop := listEntry A < listEntry B

instance (A B : Nat) : Decidable (isSameInstr A B) :=
  inferInstanceAs (Decidable (listEntry A = listEntry B))

instance (A B : Nat) : Decidable (isEarlierInstr A B) :=
  inferInstanceAs (Decidable (listEntry A < listEntry B))

/-- The dead def kill slot of the instruction. -/
def getDeadSlot (I : Nat) : Nat := listEntry I * 4 + 3

def isDead (I : Nat) : Prop := I % 4 = 3

instance (I : Nat) : Decidable (isDead I) := inferInstanceAs (Decidable (I % 4 = 3))

def getPrevSlot (I : Nat) : Nat := I - 1

def getNextSlot (I : Nat) : Nat := I + 1

end SlotIndex

open SlotIndex

/-- Value number information. An unused value has no def. -/
structure VNInfo where
  id : Nat
  defn : Option Nat

/-- `LiveRange::Segment`. Its value is a pointer to a `VNInfo`. -/
abbrev Segment := ValuedInterval Nat

/-- `LiveRange`, together with what its `VNInfo` pointers lead to and the next pointer that the
allocator gives out. -/
structure LiveRange where
  segments : List Segment
  valnos : List Nat
  segmentSet : Option (List Segment)
  info : Nat → VNInfo
  next : Nat

namespace LiveRange

/-- The value that a pointer leads to is replaced. -/
def setInfo (LR : LiveRange) (VNI : Nat) (info : VNInfo) : LiveRange :=
  { LR with info := fun V => if V = VNI then info else LR.info V }

/-- Create a new value number. -/
def getNextValue (LR : LiveRange) (Def : Nat) : LiveRange × Nat :=
  ({ LR.setInfo LR.next ⟨LR.valnos.length, some Def⟩ with
      valnos := LR.valnos ++ [LR.next], next := LR.next + 1 }, LR.next)

/-- `ForVNI ? ForVNI : LR->getNextValue(Def, *VNInfoAllocator)`. -/
def valueFor (LR : LiveRange) (Def : Nat) : Option Nat → LiveRange × Nat
  | some V => (LR, V)
  | none => LR.getNextValue Def

/-- Whether an index is undefined somewhere in an interval. -/
def isUndefIn (Undefs : List Nat) (Begin End : Nat) : Bool :=
  Undefs.any fun Idx => Begin ≤ Idx && Idx < End

end LiveRange

/-- The parts of `CalcLiveRangeUtilBase` that depend on the collection: the positions that are
searched, and insertion. -/
structure Impl where
  find : List Segment → Nat → Nat
  findInsertPos : List Segment → Segment → Nat
  insert : List Segment → Nat → Segment → List Segment
  insertAtEnd : List Segment → Segment → List Segment

/-- The loop over the segments that end up inside of the extended one: where the last of them ends,
and the segments that follow. -/
def skipMerged (ValNo : Nat) (NewEnd : Nat) :
    Nat → List Segment → Option (Nat × List Segment)
  | last, [] => some (last, [])
  | last, MergeTo :: rest =>
    if MergeTo.end_ ≤ NewEnd then
      if MergeTo.value = ValNo then skipMerged ValNo NewEnd MergeTo.end_ rest else none
    else
      some (last, MergeTo :: rest)

def extendSegmentEndTo (S : Segment) (after : List Segment) (NewEnd : Nat) :
    Option (Segment × List Segment) :=
  (skipMerged S.value NewEnd S.end_ after).map fun merged =>
    let S' := { S with end_ := max NewEnd merged.1 }
    match merged.2 with
    | [] => (S', [])
    | MergeTo :: rest =>
      if MergeTo.start ≤ S'.end_ ∧ MergeTo.value = S.value then
        ({ S with end_ := MergeTo.end_ }, rest)
      else
        (S', MergeTo :: rest)

/-- The loop backwards from the segment `MergeTo`, where `before` are the segments before it, the
nearest one first. -/
def extendStartFrom (S : Segment) (NewStart : Nat) :
    Segment → List Segment → Option (List Segment × Segment)
  | _, [] => some ([], { S with start := NewStart })
  | MergeTo, Previous :: before =>
    if MergeTo.value = S.value then
      if NewStart ≤ Previous.start then
        extendStartFrom S NewStart Previous before
      else if NewStart ≤ Previous.end_ ∧ Previous.value = S.value then
        some (before, { Previous with end_ := S.end_ })
      else
        some (Previous :: before, { MergeTo with start := NewStart, end_ := S.end_ })
    else
      none

/-- Extend the segment `S` to start at `NewStart`. The result is what precedes the segment, the
nearest one first, and the segment. -/
def extendSegmentStartTo (before : List Segment) (S : Segment) (NewStart : Nat) :
    Option (List Segment × Segment) :=
  extendStartFrom S NewStart S before

/-- The last case of `addSegment`: a segment that does not touch the ones around it. -/
def insertSegment (M : Impl) (coll : List Segment) (S : Segment) : List Segment :=
  M.insert coll (M.findInsertPos coll S) S

/-- The second case of `addSegment`: merge `S` into the segment that it ends in. -/
def addToNext (M : Impl) (coll : List Segment) (S : Segment) (before after : List Segment) :
    Option (List Segment) :=
  match after with
  | [] => some (insertSegment M coll S)
  | I :: rest =>
    if S.value = I.value then
      if I.start ≤ S.end_ then
        (extendSegmentStartTo before I S.start).bind fun extended =>
          if extended.2.end_ < S.end_ then
            (extendSegmentEndTo extended.2 rest S.end_).map fun I' =>
              extended.1.reverse ++ I'.1 :: I'.2
          else
            some (extended.1.reverse ++ extended.2 :: rest)
      else
        some (insertSegment M coll S)
    else if S.end_ ≤ I.start then
      some (insertSegment M coll S)
    else
      none

def addSegment (M : Impl) (coll : List Segment) (S : Segment) : Option (List Segment) :=
  let before := (coll.take (M.findInsertPos coll S)).reverse
  let after := coll.drop (M.findInsertPos coll S)
  match before with
  | [] => addToNext M coll S before after
  | B :: rest =>
    if S.value = B.value then
      if B.start ≤ S.start ∧ S.start ≤ B.end_ then
        (extendSegmentEndTo B after S.end_).map fun B' => rest.reverse ++ B'.1 :: B'.2
      else
        addToNext M coll S before after
    else if B.end_ ≤ S.start then
      addToNext M coll S before after
    else
      none

/-- Make sure that the range has a value defined at `Def`. -/
def createDeadDef (M : Impl) (LR : LiveRange) (coll : List Segment) (Def : Nat)
    (ForVNI : Option Nat) : Option (LiveRange × List Segment × Nat) :=
  if isDead Def then none
  else
    let I := M.find coll Def
    let VNI := LR.valueFor Def ForVNI
    match coll.drop I with
    | [] => some (VNI.1, M.insertAtEnd coll ⟨Def, getDeadSlot Def, VNI.2⟩, VNI.2)
    | S :: after =>
      if isSameInstr Def S.start then
        if (ForVNI = none ∨ ForVNI = some S.value) ∧ (LR.info S.value).defn = some S.start then
          if min Def S.start ≠ S.start then
            some (LR.setInfo S.value { LR.info S.value with defn := some (min Def S.start) },
              coll.take I ++ { S with start := min Def S.start } :: after, S.value)
          else
            some (LR, coll, S.value)
        else
          none
      else if isEarlierInstr Def S.start then
        some (VNI.1, M.insert coll I ⟨Def, getDeadSlot Def, VNI.2⟩, VNI.2)
      else
        none

/-- Extend the value that is live before `Use` up to it. -/
def extendInBlock (M : Impl) (coll : List Segment) (StartIdx Use : Nat) :
    Option (List Segment × Option Nat) :=
  if coll = [] then some (coll, none)
  else
    let pos := M.findInsertPos coll ⟨getPrevSlot Use, Use, 0⟩
    match (coll.take pos).reverse with
    | [] => some (coll, none)
    | I :: before =>
      if I.end_ ≤ StartIdx then some (coll, none)
      else if I.end_ < Use then
        (extendSegmentEndTo I (coll.drop pos) Use).map fun I' =>
          (before.reverse ++ I'.1 :: I'.2, some I'.1.value)
      else
        some (coll, some I.value)

/-- Extend the value that is live before `Use` up to it, unless an undef intervenes. -/
def extendInBlockUndefs (M : Impl) (coll : List Segment) (Undefs : List Nat)
    (StartIdx Use : Nat) : Option (List Segment × Option Nat × Bool) :=
  if coll = [] then some (coll, none, false)
  else
    let BeforeUse := getPrevSlot Use
    let pos := M.findInsertPos coll ⟨BeforeUse, Use, 0⟩
    match (coll.take pos).reverse with
    | [] => some (coll, none, LiveRange.isUndefIn Undefs StartIdx BeforeUse)
    | I :: before =>
      if I.end_ ≤ StartIdx then
        some (coll, none, LiveRange.isUndefIn Undefs StartIdx BeforeUse)
      else if I.end_ < Use then
        if LiveRange.isUndefIn Undefs I.end_ BeforeUse then some (coll, none, true)
        else
          (extendSegmentEndTo I (coll.drop pos) Use).map fun I' =>
            (before.reverse ++ I'.1 :: I'.2, some I'.1.value, false)
      else
        some (coll, some I.value, false)

/-- The binary search of `LiveRange::find`, among the `Len` segments from `I` on. -/
def findLoop (segments : List Segment) (Pos : Nat) : Nat → Nat → Nat → Nat
  | 0, I, _ => I
  | fuel + 1, I, Len =>
    if Len = 0 then I
    else if (segments[I + Len / 2]?).any (fun S => Pos < S.end_) then
      findLoop segments Pos fuel I (Len / 2)
    else
      findLoop segments Pos fuel (I + Len / 2 + 1) (Len - (Len / 2 + 1))

/-- The position of the first segment that ends after `Pos`. -/
def find (segments : List Segment) (Pos : Nat) : Nat :=
  match segments.getLast? with
  | none => segments.length
  | some last =>
    if last.end_ ≤ Pos then segments.length
    else findLoop segments Pos segments.length 0 segments.length

def liveAt (segments : List Segment) (index : Nat) : Bool :=
  (segments[find segments index]?).any fun S => S.start ≤ index

def CalcLiveRangeUtilVector : Impl where
  find := LiveInterval.find
  findInsertPos := fun segments S => segments.findIdx fun T => S.start < T.start
  insert := fun segments I S => segments.take I ++ S :: segments.drop I
  insertAtEnd := fun segments S => segments ++ [S]

/-- `Segment::operator<`. -/
def Segment.lt (S T : Segment) : Bool :=
  S.start < T.start || (S.start == T.start && S.end_ < T.end_)

def upper_bound (segmentSet : List Segment) (S : Segment) : Nat :=
  segmentSet.findIdx fun T => Segment.lt S T

def setInsert (segmentSet : List Segment) (S : Segment) : List Segment :=
  let after := segmentSet.dropWhile fun T => Segment.lt T S
  if after.head?.any (fun T => !Segment.lt S T) then segmentSet
  else segmentSet.takeWhile (fun T => Segment.lt T S) ++ S :: after

/-- `CalcLiveRangeUtilSet`. The positions that insertion is told are only hints. -/
def CalcLiveRangeUtilSet : Impl where
  find := fun segmentSet Pos =>
    let I := upper_bound segmentSet ⟨Pos, getNextSlot Pos, 0⟩
    match (segmentSet.take I).getLast? with
    | none => I
    | some PrevI => if Pos < PrevI.end_ then I - 1 else I
  findInsertPos := fun segmentSet S =>
    let I := upper_bound segmentSet S
    match segmentSet[I]? with
    | none => I
    | some T => if S.start < T.start then I else I + 1
  insert := fun segmentSet _ S => setInsert segmentSet S
  insertAtEnd := setInsert

def upperBoundStart (segments : List Segment) (first Start : Nat) : Nat :=
  first + (segments.drop first).findIdx fun T => Start < T.start

/-- The loop of `overlapsFrom`, over the segments from `i` and from `j` on. -/
def overlapsLoop : List Segment → List Segment → Option Bool
  | [], _ => some false
  | _ :: _, [] => none
  | I :: i, J :: j =>
    if J.start < I.start then
      if I.start < J.end_ then some true else overlapsLoop j (I :: i)
    else if J.start < I.end_ then some true
    else overlapsLoop i (J :: j)
termination_by i j => i.length + j.length

/-- `LiveRange::overlapsFrom`, where the hint is a position in the other range. -/
def overlapsFrom (segments other : List Segment) (StartPos : Nat) : Option Bool := do
  let I ← segments.head?
  let J ← other[StartPos]?
  let scan (i j : Nat) : Option Bool :=
    if other.drop j = [] then some false else overlapsLoop (segments.drop i) (other.drop j)
  if I.start < J.start ∧ StartPos ≠ 0 then none
  else if I.start < J.start then scan (upperBoundStart segments 0 J.start - 1) StartPos
  else if J.start < I.start then
    if (other[StartPos + 1]?).any (fun S => S.start ≤ I.start) then
      scan 0 (upperBoundStart other StartPos I.start - 1)
    else scan 0 StartPos
  else some true

/-- `LiveRange::advanceTo`, from the segments `I` of a range on. -/
def advanceTo (segments I : List Segment) (Pos : Nat) : Option (List Segment) :=
  if I = [] then none
  else if segments.getLast?.any (fun S => S.end_ ≤ Pos) then some []
  else some (I.dropWhile fun S => S.end_ ≤ Pos)

/-- The inner loop of `covers`: segments that touch, up to one that does not end before `End`. -/
def adjacentTo (End : Nat) : List Segment → Option (List Segment)
  | [] => none
  | I :: is =>
    if I.end_ < End then
      if is.head?.all (fun J => I.end_ ≠ J.start) then none else adjacentTo End is
    else some (I :: is)

def coversLoop (segments : List Segment) : List Segment → List Segment → Option Bool
  | _, [] => some true
  | I, O :: Os => do
    let I ← advanceTo segments I O.start
    if I.head?.all (fun S => O.start < S.start) then some false
    else
      match adjacentTo O.end_ I with
      | none => some false
      | some I => coversLoop segments I Os

/-- `LiveRange::covers`. -/
def covers (segments other : List Segment) : Option Bool :=
  if segments = [] then some other.isEmpty else coversLoop segments segments other

namespace LiveRange

/-- The collection that is in use. -/
def coll (LR : LiveRange) : List Segment := LR.segmentSet.getD LR.segments

/-- The implementation for the collection that is in use. -/
def impl (LR : LiveRange) : Impl :=
  match LR.segmentSet with
  | none => CalcLiveRangeUtilVector
  | some _ => CalcLiveRangeUtilSet

/-- The collection that is in use is replaced. -/
def setColl (LR : LiveRange) (coll : List Segment) : LiveRange :=
  match LR.segmentSet with
  | none => { LR with segments := coll }
  | some _ => { LR with segmentSet := some coll }

/-- `while (!valnos.empty() && valnos.back()->isUnused()) valnos.pop_back();`. -/
def popUnused (LR : LiveRange) (valnos : List Nat) : List Nat :=
  (valnos.reverse.dropWhile fun V => (LR.info V).defn.isNone).reverse

/-- Remove a dead value from the value numbers, or mark it so that it can be removed later. -/
def markValNoForDeletion (LR : LiveRange) (ValNo : Nat) : LiveRange :=
  if (LR.info ValNo).id + 1 = LR.valnos.length then
    { LR with valnos := LR.popUnused LR.valnos.dropLast }
  else
    LR.setInfo ValNo { LR.info ValNo with defn := none }

def removeSegment (LR : LiveRange) (Start End : Nat) (RemoveDeadValNo : Bool) :
    Option LiveRange :=
  let I := LiveInterval.find LR.segments Start
  let before := LR.segments.take I
  match LR.segments.drop I with
  | [] => none
  | S :: after =>
    if S.start ≤ Start ∧ Start < End ∧ End ≤ S.end_ then
      if S.start = Start then
        if S.end_ = End then
          let isDead := (before ++ after).all fun T => T.value ≠ S.value
          let LR' := if RemoveDeadValNo && isDead then LR.markValNoForDeletion S.value else LR
          some { LR' with segments := before ++ after }
        else
          some { LR with segments := before ++ { S with start := End } :: after }
      else if S.end_ = End then
        some { LR with segments := before ++ { S with end_ := Start } :: after }
      else
        some { LR with segments := before ++ { S with end_ := Start } ::
          ⟨End, S.end_, S.value⟩ :: after }
    else
      none

/-- Remove all the segments of a value. -/
def removeValNo (LR : LiveRange) (ValNo : Nat) : LiveRange :=
  if LR.segments = [] then LR
  else
    let LR' := { LR with segments := LR.segments.filter fun S => S.value ≠ ValNo }
    LR'.markValNoForDeletion ValNo

/-- A segment of `V1` extends a previous, touching segment of `V2`, and becomes one of `V2`. -/
def mergeBackward (V2 : Nat) (before : List Segment) (S : Segment) : List Segment × Segment :=
  match before with
  | [] => ([], { S with value := V2 })
  | Prev :: rest =>
    if Prev.value = V2 ∧ Prev.end_ = S.start then (rest, { Prev with end_ := S.end_ })
    else (Prev :: rest, { S with value := V2 })

/-- The loop that merges the segments of `V1` into `V2`, where `before` are the segments before the
current one, the nearest one first. -/
def mergeSegments (V1 V2 : Nat) : List Segment → List Segment → List Segment
  | before, [] => before.reverse
  | before, S :: rest =>
    if S.value ≠ V1 then mergeSegments V1 V2 (S :: before) rest
    else
      let merged := mergeBackward V2 before S
      match rest with
      | [] => (merged.2 :: merged.1).reverse
      | I :: after =>
        if I.start = merged.2.end_ ∧ I.value = V2 then
          mergeSegments V1 V2 ({ merged.2 with end_ := I.end_ } :: merged.1) after
        else
          mergeSegments V1 V2 (merged.2 :: merged.1) (I :: after)

/-- Replace the value with the larger number by the other one. `V2` keeps its def. -/
def MergeValueNumberInto (LR : LiveRange) (V1 V2 : Nat) : Option (LiveRange × Nat) :=
  if V1 = V2 then none
  else
    let swapped := (LR.info V1).id < (LR.info V2).id
    let LR₁ := if swapped then LR.setInfo V1 { LR.info V1 with defn := (LR.info V2).defn } else LR
    let dead := if swapped then V2 else V1
    let kept := if swapped then V1 else V2
    let LR₂ := { LR₁ with segments := mergeSegments dead kept [] LR₁.segments }
    some (LR₂.markValNoForDeletion dead, kept)

/-- Move the segments of the set to the vector. -/
def flushSegmentSet (LR : LiveRange) : Option LiveRange :=
  match LR.segmentSet with
  | none => none
  | some segmentSet =>
    if LR.segments = [] then some { LR with segments := segmentSet, segmentSet := none } else none

/-- What `verify` checks. -/
structure verify (LR : LiveRange) : Prop where
  nonempty : ∀ S ∈ LR.segments, S.start < S.end_
  valno : ∀ S ∈ LR.segments, LR.valnos[(LR.info S.value).id]? = some S.value
  next : LR.segments.IsChain fun S T => S.end_ ≤ T.start ∧ (S.end_ = T.start → S.value ≠ T.value)

end LiveRange

/-- The calls that update a live range. -/
inductive Call where
  | addSegment (S : Segment)
  | extendInBlock (StartIdx Use : Nat)
  | extendInBlockUndefs (Undefs : List Nat) (StartIdx Use : Nat)
  | createDeadDef (Def : Nat)
  | createDeadDefOf (VNI : Nat)
  | removeSegment (Start End : Nat) (RemoveDeadValNo : Bool)
  | removeValNo (ValNo : Nat)
  | MergeValueNumberInto (V1 V2 : Nat)

/-- What a call returns: a value number, if any, and whether an undef was encountered. -/
structure Result where
  valno : Option Nat
  undef : Bool

namespace LiveRange

def step (LR : LiveRange) : Call → Option (LiveRange × Result)
  | .addSegment S =>
    (LiveInterval.addSegment LR.impl LR.coll S).map fun coll => (LR.setColl coll, ⟨none, false⟩)
  | .extendInBlock StartIdx Use =>
    (LiveInterval.extendInBlock LR.impl LR.coll StartIdx Use).map fun r =>
      (LR.setColl r.1, ⟨r.2, false⟩)
  | .extendInBlockUndefs Undefs StartIdx Use =>
    (LiveInterval.extendInBlockUndefs LR.impl LR.coll Undefs StartIdx Use).map fun r =>
      (LR.setColl r.1, ⟨r.2.1, r.2.2⟩)
  | .createDeadDef Def =>
    (LiveInterval.createDeadDef LR.impl LR LR.coll Def none).map fun r =>
      (r.1.setColl r.2.1, ⟨some r.2.2, false⟩)
  | .createDeadDefOf VNI =>
    (LR.info VNI).defn.bind fun Def =>
      (LiveInterval.createDeadDef LR.impl LR LR.coll Def (some VNI)).map fun r =>
        (r.1.setColl r.2.1, ⟨some r.2.2, false⟩)
  | .removeSegment Start End RemoveDeadValNo =>
    (LR.removeSegment Start End RemoveDeadValNo).map fun LR' => (LR', ⟨none, false⟩)
  | .removeValNo ValNo => some (LR.removeValNo ValNo, ⟨none, false⟩)
  | .MergeValueNumberInto V1 V2 =>
    (LR.MergeValueNumberInto V1 V2).map fun r => (r.1, ⟨some r.2, false⟩)

/-- Perform calls one after the other. -/
def run (LR : LiveRange) (calls : List Call) : Option LiveRange :=
  calls.foldlM (fun LR c => (LR.step c).map Prod.fst) LR

end LiveRange

end Zapcc.LiveInterval
