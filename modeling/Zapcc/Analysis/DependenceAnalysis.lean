import Zapcc.IR.CompareRegions

/-!
# The dependence tests for one induction variable

A source subscript `c1 + a1*i` and a destination subscript `c2 + a2*j` are tested for iterations
`i` and `j` of one loop in which they are equal. A test disproves the dependence, or it refines the
set of its directions. The constants are bit vectors, and the arithmetic wraps around. A test whose
assertion fails has no result.
-/

namespace Zapcc.SIV

open ConstantRange

variable {w : Nat}

/-- The directions of a dependence, one bit each. -/
inductive DVEntry
  | NONE
  | LT
  | EQ
  | LE
  | GT
  | NE
  | GE
  | ALL
  deriving DecidableEq

/-- The bits of the directions. -/
def DVEntry.bits : DVEntry → BitVec 3
  | NONE => 0
  | LT => 1
  | EQ => 2
  | LE => 3
  | GT => 4
  | NE => 5
  | GE => 6
  | ALL => 7

/-- The compares that `isKnownPredicate` proves of the difference of the operands. -/
def differenceHolds : Predicate → BitVec w → Prop
  | .eq, Delta => Delta = 0
  | .ne, Delta => Delta ≠ 0
  | .sge, Delta => 0 ≤ Delta.toInt
  | .sle, Delta => Delta.toInt ≤ 0
  | .sgt, Delta => 0 < Delta.toInt
  | .slt, Delta => Delta.toInt < 0
  | _, _ => False

/-- `DependenceInfo::isKnownPredicate`, for constants. -/
def isKnownPredicate (Pred : Predicate) (X Y : BitVec w) : Prop :=
  Pred.holds X Y ∨ differenceHolds Pred (X - Y)

instance : (Pred : Predicate) → (Delta : BitVec w) → Decidable (differenceHolds Pred Delta)
  | .eq, Delta => inferInstanceAs (Decidable (Delta = 0))
  | .ne, Delta => inferInstanceAs (Decidable (Delta ≠ 0))
  | .sge, Delta => inferInstanceAs (Decidable (0 ≤ Delta.toInt))
  | .sle, Delta => inferInstanceAs (Decidable (Delta.toInt ≤ 0))
  | .sgt, Delta => inferInstanceAs (Decidable (0 < Delta.toInt))
  | .slt, Delta => inferInstanceAs (Decidable (Delta.toInt < 0))
  | .ugt, _ | .uge, _ | .ult, _ | .ule, _ => inferInstanceAs (Decidable False)

instance : (Pred : Predicate) → (X Y : BitVec w) → Decidable (Pred.holds X Y)
  | .eq, X, Y => inferInstanceAs (Decidable (X = Y))
  | .ne, X, Y => inferInstanceAs (Decidable (X ≠ Y))
  | .ugt, X, Y => inferInstanceAs (Decidable (Y.toNat < X.toNat))
  | .uge, X, Y => inferInstanceAs (Decidable (Y.toNat ≤ X.toNat))
  | .ult, X, Y => inferInstanceAs (Decidable (X.toNat < Y.toNat))
  | .ule, X, Y => inferInstanceAs (Decidable (X.toNat ≤ Y.toNat))
  | .sgt, X, Y => inferInstanceAs (Decidable (Y.toInt < X.toInt))
  | .sge, X, Y => inferInstanceAs (Decidable (Y.toInt ≤ X.toInt))
  | .slt, X, Y => inferInstanceAs (Decidable (X.toInt < Y.toInt))
  | .sle, X, Y => inferInstanceAs (Decidable (X.toInt ≤ Y.toInt))

instance (Pred : Predicate) (X Y : BitVec w) : Decidable (isKnownPredicate Pred X Y) :=
  inferInstanceAs (Decidable (_ ∨ _))

/-- What a test says: whether the dependence is disproved, and the directions that are left. -/
structure Verdict where
  disproven : Bool
  Direction : BitVec 3
  deriving DecidableEq

/-- `strongSIVtest`, for two subscripts with the same coefficient. -/
def strongSIVtest (Coeff SrcConst DstConst : BitVec w) (UpperBound : Option (BitVec w))
    (Direction : BitVec 3) : Verdict :=
  let Delta := SrcConst - DstConst
  let AbsDelta := if 0 ≤ Delta.toInt then Delta else -Delta
  let AbsCoeff := if 0 ≤ Coeff.toInt then Coeff else -Coeff
  if ∃ U ∈ UpperBound, isKnownPredicate .sgt AbsDelta (U * AbsCoeff) then ⟨true, Direction⟩
  else
    let Distance := Delta.sdiv Coeff
    let Remainder := Delta.srem Coeff
    if Remainder ≠ 0 then ⟨true, Direction⟩
    else if 0 < Distance.toInt then ⟨false, Direction &&& DVEntry.LT.bits⟩
    else if Distance.toInt < 0 then ⟨false, Direction &&& DVEntry.GT.bits⟩
    else ⟨false, Direction &&& DVEntry.EQ.bits⟩

/-- Keep the direction of equal iterations only. -/
def onlyEqual (Direction : BitVec 3) : Verdict :=
  let Direction := Direction &&& ~~~DVEntry.LT.bits &&& ~~~DVEntry.GT.bits
  ⟨Direction = 0, Direction⟩

/-- `weakCrossingSIVtest`, for two subscripts with opposite coefficients. -/
def weakCrossingSIVtest (Coeff SrcConst DstConst : BitVec w) (UpperBound : Option (BitVec w))
    (Direction : BitVec 3) : Option Verdict :=
  let Delta := DstConst - SrcConst
  if Delta = 0 then some (onlyEqual Direction)
  else
    let ConstCoeff := if Coeff.toInt < 0 then -Coeff else Coeff
    let Delta := if Coeff.toInt < 0 then -Delta else Delta
    -- ConstCoeff should be positive
    if ConstCoeff.toInt ≤ 0 then none
    else if Delta.toInt < 0 then some ⟨true, Direction⟩
    else if ∃ U ∈ UpperBound, isKnownPredicate .sgt Delta (ConstCoeff * U * 2) then
      some ⟨true, Direction⟩
    else if ∃ U ∈ UpperBound, isKnownPredicate .eq Delta (ConstCoeff * U * 2) then
      some (onlyEqual Direction)
    else if Delta.srem ConstCoeff ≠ 0 then some ⟨true, Direction⟩
    else if (Delta.sdiv ConstCoeff).srem 2 ≠ 0 then
      some ⟨false, Direction &&& ~~~DVEntry.EQ.bits⟩
    else some ⟨false, Direction⟩

def findGCDLoop : Nat → BitVec w → BitVec w → BitVec w → BitVec w → BitVec w → BitVec w →
    Option (BitVec w × BitVec w × BitVec w)
  | 0, _, _, _, _, _, _ => none
  | fuel + 1, G0, G1, A0, A1, B0, B1 =>
    let Q := G0.sdiv G1
    let R := G0.srem G1
    if R ≠ 0 then findGCDLoop fuel G1 R A1 (A0 - Q * A1) B1 (B0 - Q * B1)
    else some (G1, A1, B1)

/-- `findGCD`: the greatest common divisor of `AM` and `BM`, and a solution of
`AM*X - BM*Y = Delta`, unless the divisor does not divide `Delta`. -/
def findGCD (AM BM Delta : BitVec w) : Option (BitVec w × Option (BitVec w × BitVec w)) :=
  (findGCDLoop (BM.toInt.natAbs + 1) AM.abs BM.abs 1 0 0 1).map fun r =>
    let G := r.1
    let X := if AM.toInt < 0 then -r.2.1 else r.2.1
    let Y := if BM.toInt < 0 then r.2.2 else -r.2.2
    if Delta.srem G ≠ 0 then (G, none)
    else (G, some (X * Delta.sdiv G, Y * Delta.sdiv G))

def floorOfQuotient (A B : BitVec w) : BitVec w :=
  if A.srem B = 0 then A.sdiv B
  else if 0 < A.toInt ∧ 0 < B.toInt ∨ A.toInt < 0 ∧ B.toInt < 0 then A.sdiv B
  else A.sdiv B - 1

def ceilingOfQuotient (A B : BitVec w) : BitVec w :=
  if A.srem B = 0 then A.sdiv B
  else if 0 < A.toInt ∧ 0 < B.toInt ∨ A.toInt < 0 ∧ B.toInt < 0 then A.sdiv B + 1
  else A.sdiv B

def maxAPInt (A B : BitVec w) : BitVec w := if B.toInt < A.toInt then A else B

def minAPInt (A B : BitVec w) : BitVec w := if A.toInt < B.toInt then A else B

/-- The values of the parameter of the solutions, from `TL` to `TU`. -/
structure Parameters (w : Nat) where
  TL : BitVec w
  TU : BitVec w

/-- Keep the parameters that are at least `A`, times `TMUL`. -/
def Parameters.atLeast (T : Parameters w) (A TMUL : BitVec w) : Parameters w :=
  if 0 < TMUL.toInt then { T with TL := maxAPInt T.TL (ceilingOfQuotient A TMUL) }
  else { T with TU := minAPInt T.TU (floorOfQuotient A TMUL) }

/-- Keep the parameters that are at most `A`, times `TMUL`. -/
def Parameters.atMost (T : Parameters w) (A TMUL : BitVec w) : Parameters w :=
  if 0 < TMUL.toInt then { T with TU := minAPInt T.TU (floorOfQuotient A TMUL) }
  else { T with TL := maxAPInt T.TL (ceilingOfQuotient A TMUL) }

/-- Keep the parameters of iterations of the loop. -/
def Parameters.within (T : Parameters w) (X TMUL : BitVec w) (UM : Option (BitVec w)) :
    Parameters w :=
  match UM with
  | none => T.atLeast (-X) TMUL
  | some UM => (T.atLeast (-X) TMUL).atMost (UM - X) TMUL

def Parameters.direction (T : Parameters w) (entry : DVEntry) : BitVec 3 :=
  if T.TL.toInt ≤ T.TU.toInt then entry.bits else DVEntry.NONE.bits

/-- The part of `exactSIVtest` that explores the directions. -/
def exploreDirections (T : Parameters w) (X Y AM BM : BitVec w) (Direction : BitVec 3) : Verdict :=
  if T.TU.toInt < T.TL.toInt then ⟨true, Direction⟩
  else
    let LT := (T.atLeast (X - Y + 1) (AM - BM)).direction .LT
    let EQ := ((T.atLeast (X - Y) (AM - BM)).atLeast (Y - X) (BM - AM)).direction .EQ
    let GT := (T.atLeast (Y - X + 1) (BM - AM)).direction .GT
    let Direction := Direction &&& (DVEntry.NONE.bits ||| LT ||| EQ ||| GT)
    ⟨Direction = DVEntry.NONE.bits, Direction⟩

/-- `exactSIVtest`, for two subscripts with any coefficients. -/
def exactSIVtest (SrcCoeff DstCoeff SrcConst DstConst : BitVec w) (UpperBound : Option (BitVec w))
    (Direction : BitVec 3) : Option Verdict :=
  let AM := SrcCoeff
  let BM := DstCoeff
  (findGCD AM BM (DstConst - SrcConst)).map fun r =>
    match r.2 with
    | none => ⟨true, Direction⟩
    | some (X, Y) =>
      let T : Parameters w := ⟨BitVec.intMin w, BitVec.intMax w⟩
      let T := (T.within X (BM.sdiv r.1) UpperBound).within Y (AM.sdiv r.1) UpperBound
      exploreDirections T X Y AM BM Direction

/-- What both weak-zero tests do: the subscript with the coefficient takes the other one's value
where its coefficient times the iteration is `Delta`. -/
def weakZeroSIVtest (Coeff Const OtherConst : BitVec w) (UpperBound : Option (BitVec w))
    (Direction : BitVec 3) : Verdict :=
  let Delta := OtherConst - Const
  if isKnownPredicate .eq OtherConst Const then ⟨false, Direction &&& DVEntry.LE.bits⟩
  else
    let AbsCoeff := if Coeff.toInt < 0 then -Coeff else Coeff
    let NewDelta := if Coeff.toInt < 0 then -Delta else Delta
    if ∃ U ∈ UpperBound, isKnownPredicate .sgt NewDelta (AbsCoeff * U) then ⟨true, Direction⟩
    else if ∃ U ∈ UpperBound, isKnownPredicate .eq NewDelta (AbsCoeff * U) then
      ⟨false, Direction &&& DVEntry.GE.bits⟩
    else if NewDelta.toInt < 0 then ⟨true, Direction⟩
    else if Delta.srem Coeff ≠ 0 then ⟨true, Direction⟩
    else ⟨false, Direction⟩

def weakZeroSrcSIVtest (DstCoeff SrcConst DstConst : BitVec w) (UpperBound : Option (BitVec w))
    (Direction : BitVec 3) : Verdict :=
  weakZeroSIVtest DstCoeff DstConst SrcConst UpperBound Direction

def weakZeroDstSIVtest (SrcCoeff SrcConst DstConst : BitVec w) (UpperBound : Option (BitVec w))
    (Direction : BitVec 3) : Verdict :=
  weakZeroSIVtest SrcCoeff SrcConst DstConst UpperBound Direction

/-- The test that `testSIV` chooses. A subscript whose coefficient is zero is no recurrence. -/
def testSIV (SrcConst SrcCoeff DstConst DstCoeff : BitVec w) (UpperBound : Option (BitVec w))
    (Direction : BitVec 3) : Option Verdict :=
  if SrcCoeff ≠ 0 ∧ DstCoeff ≠ 0 then
    if SrcCoeff = DstCoeff then
      some (strongSIVtest SrcCoeff SrcConst DstConst UpperBound Direction)
    else if SrcCoeff = -DstCoeff then
      weakCrossingSIVtest SrcCoeff SrcConst DstConst UpperBound Direction
    else
      exactSIVtest SrcCoeff DstCoeff SrcConst DstConst UpperBound Direction
  else if SrcCoeff ≠ 0 then
    some (weakZeroDstSIVtest SrcCoeff SrcConst DstConst UpperBound Direction)
  else if DstCoeff ≠ 0 then
    some (weakZeroSrcSIVtest DstCoeff SrcConst DstConst UpperBound Direction)
  else
    none

end Zapcc.SIV
