import Zapcc.IR.NoWrapRegion

/-!
# Decisions from ranges

Compares and overflows are decided from the ranges of the operands. A decision is one question:
whether a region has all values of a range. What is written in place of an instruction means the
same, as long as the operands are in their ranges.
-/

namespace Zapcc.CorrelatedValuePropagation

open ConstantRange

variable {w : Nat}

/-- The values that a compare with a constant is true for. -/
def makeExactICmpRegion (Pred : Predicate) (C : BitVec w) : ConstantRange w :=
  makeAllowedICmpRegion Pred (single C)

inductive Tristate
  | Unknown
  | False
  | True
  deriving DecidableEq

/-- What a compare of a value with a constant gives, when the range of the value is known. -/
def getPredicateResult (Pred : Predicate) (C : BitVec w) (CR : ConstantRange w) : Tristate :=
  match Pred with
  | .eq =>
    if ¬ CR.contains C then .False
    else if CR.isSingleElement then .True
    else .Unknown
  | .ne =>
    if ¬ CR.contains C then .True
    else if CR.isSingleElement then .False
    else .Unknown
  | _ =>
    let TrueValues := makeExactICmpRegion Pred C
    if TrueValues.containsRange CR then .True
    else if TrueValues.inverse.containsRange CR then .False
    else .Unknown

/-- Whether the members of `LRange` are in the region without overflow of `RRange`. -/
def NoWrap (BinOp : BinaryOps) (Kind : NoWrapKind) (LRange RRange : ConstantRange w) : Bool :=
  let NWRegion := makeGuaranteedNoWrapRegion BinOp RRange Kind
  -- the other range is not asked for when the region is empty
  if NWRegion.isEmptySet then false else NWRegion.containsRange LRange

/-- An addition with its flags. The sum is poison when a flag excludes its overflow. -/
def evalAdd (NUW NSW : Bool) (x y : BitVec w) : Option (BitVec w) :=
  if (NUW && x.uaddOverflow y) || (NSW && x.saddOverflow y) then none else some (x + y)

/-- Infer the flags of an addition. It returns them, and whether one has changed. -/
def processAdd (NUW NSW : Bool) (LRange RRange : ConstantRange w) : Bool × Bool × Bool :=
  if NSW && NUW then (NUW, NSW, false)
  else
    -- the regions are made for the first operand
    let NewNUW := !NUW && NoWrap .Add NoUnsignedWrap RRange LRange
    let NewNSW := !NSW && NoWrap .Add NoSignedWrap RRange LRange
    (NUW || NewNUW, NSW || NewNSW, NewNUW || NewNSW)

/-- The intrinsics that also return whether an operation overflows. -/
inductive OverflowIntrinsic
  | uadd_with_overflow
  | sadd_with_overflow
  | usub_with_overflow
  | ssub_with_overflow

def OverflowIntrinsic.eval (x y : BitVec w) : OverflowIntrinsic → BitVec w × Bool
  | uadd_with_overflow => (x + y, x.uaddOverflow y)
  | sadd_with_overflow => (x + y, x.saddOverflow y)
  | usub_with_overflow => (x - y, x.usubOverflow y)
  | ssub_with_overflow => (x - y, x.ssubOverflow y)

/-- Whether an intrinsic is seen not to overflow. -/
def willNotOverflow (II : OverflowIntrinsic) (LRange RRange : ConstantRange w) : Bool :=
  match II with
  | .uadd_with_overflow => NoWrap .Add NoUnsignedWrap LRange RRange
  | .sadd_with_overflow => NoWrap .Add NoSignedWrap LRange RRange
  | .usub_with_overflow => NoWrap .Sub NoUnsignedWrap LRange RRange
  | .ssub_with_overflow => NoWrap .Sub NoSignedWrap LRange RRange

/-- What stands in place of an intrinsic that does not overflow. -/
def processOverflowIntrinsic (x y : BitVec w) : OverflowIntrinsic → BitVec w × Bool
  | .uadd_with_overflow | .sadd_with_overflow => (x + y, false)
  | .usub_with_overflow | .ssub_with_overflow => (x - y, false)

/-- What a call of an intrinsic returns after it was processed. -/
def processCallSite (II : OverflowIntrinsic) (LRange RRange : ConstantRange w) (x y : BitVec w) :
    BitVec w × Bool :=
  if willNotOverflow II LRange RRange then processOverflowIntrinsic x y II else II.eval x y

variable {L R : ConstantRange w} {C v x y : BitVec w}

theorem contains_makeExactICmpRegion (hw : 0 < w) (Pred : Predicate) :
    (makeExactICmpRegion Pred C).contains v ↔ Pred.holds v C := by
  have hsingle : (single C).isSingleElement := rfl
  simp only [makeExactICmpRegion, contains_makeAllowedICmpRegion hw,
    contains_iff_of_isSingleElement hw hsingle]
  exact exists_eq_left

/-- Whether an answer about some values is right, and missing only when there are both kinds. -/
def Tristate.IsExact (values P : BitVec w → Prop) : Tristate → Prop
  | Unknown => (∃ v, values v ∧ P v) ∧ ∃ v, values v ∧ ¬ P v
  | False => ∀ v, values v → ¬ P v
  | True => ∀ v, values v → P v

theorem contains_cases (hw : 0 < w) (C : BitVec w) (R : ConstantRange w) :
    if ¬ R.contains C then ∀ v, R.contains v → v ≠ C
    else if R.isSingleElement then ∀ v, R.contains v → v = C
    else (∃ v, R.contains v ∧ v = C) ∧ ∃ v, R.contains v ∧ v ≠ C := by
  split_ifs with hC hsingle
  · have hmember := fun v => contains_iff_of_isSingleElement (v := v) hw hsingle
    intro v hv
    rw [(hmember v).mp hv, (hmember C).mp hC]
  · obtain ⟨y, hy, hne⟩ := exists_contains_ne hw (not_isEmptySet hw hC) hsingle C
    exact ⟨⟨C, hC, rfl⟩, y, hy, hne.symm⟩
  · intro v hv heq
    exact hC (heq ▸ hv)

theorem getPredicateResult_exact (hw : 0 < w) (Pred : Predicate) (C : BitVec w)
    (CR : ConstantRange w) :
    (getPredicateResult Pred C CR).IsExact CR.contains (Pred.holds · C) := by
  have hregion : (if (makeExactICmpRegion Pred C).containsRange CR then Tristate.True
      else if (makeExactICmpRegion Pred C).inverse.containsRange CR then .False
      else .Unknown).IsExact CR.contains (Pred.holds · C) := by
    split_ifs with htrue hfalse
    all_goals
      simp only [containsRange_iff, contains_inverse hw, contains_makeExactICmpRegion hw,
        not_forall, not_not, exists_prop] at *
    · exact htrue
    · exact hfalse
    · exact ⟨hfalse, htrue⟩
  have hcases := contains_cases hw C CR
  cases Pred with
  | eq =>
    rw [getPredicateResult]
    split_ifs at hcases ⊢ <;> exact hcases
  | ne =>
    rw [getPredicateResult]
    split_ifs at hcases ⊢
    · exact fun v hv hne => hne (hcases v hv)
    · exact ⟨hcases.2, hcases.1.imp fun v hv => ⟨hv.1, fun hne => hne hv.2⟩⟩
    · exact hcases
  | _ => exact hregion

theorem getPredicateResult_exact_ult :
    (∃ v, (ofBounds 2#4 10#4 (by decide)).contains v ∧ Predicate.ult.holds v 8#4) ∧
      ∃ v, (ofBounds 2#4 10#4 (by decide)).contains v ∧ ¬ Predicate.ult.holds v 8#4 :=
  getPredicateResult_exact (by decide) .ult 8#4 (ofBounds 2#4 10#4 (by decide))

theorem noWrap_sound (hw : 0 < w) {BinOp : BinaryOps} {Kind : NoWrapKind} {f : Int → Int → Int}
    (hop : BinOp.onInt = some f) (h : NoWrap BinOp Kind L R = true) (hx : L.contains x)
    (hy : R.contains y) : DoesNotWrap f Kind x y := by
  unfold NoWrap at h
  dsimp only at h
  split_ifs at h with hempty
  have hregion := containsRange_iff.mp (of_decide_eq_true h) x hx
  cases BinOp with
  | Add =>
    cases hop
    exact contains_addRegion hw hregion hy
  | Sub =>
    cases hop
    exact contains_subRegion hw hregion hy
  | _ => cases hop

theorem overflow_eq_false_iff (x y : BitVec w) :
    (x.uaddOverflow y = false ↔ DoesNotWrap (· + ·) NoUnsignedWrap x y) ∧
      (x.saddOverflow y = false ↔ DoesNotWrap (· + ·) NoSignedWrap x y) ∧
      (x.usubOverflow y = false ↔ DoesNotWrap (· - ·) NoUnsignedWrap x y) ∧
      (x.ssubOverflow y = false ↔ DoesNotWrap (· - ·) NoSignedWrap x y) := by
  have hpow : (2 ^ (w - 1) : Int) = (2 ^ (w - 1) : Nat) := by push_cast; rfl
  simp only [BitVec.uaddOverflow, BitVec.saddOverflow, BitVec.usubOverflow, BitVec.ssubOverflow,
    DoesNotWrap, NoUnsignedWrap, NoSignedWrap, Bool.or_eq_false_iff, decide_eq_false_iff_not,
    forall_const, Bool.false_eq_true, false_imp_iff, and_true, true_and, hpow]
  omega

theorem processAdd_preserves (hw : 0 < w) (NUW NSW : Bool) (LRange RRange : ConstantRange w) :
    let result := processAdd NUW NSW LRange RRange
    (∀ x y, LRange.contains x → RRange.contains y →
        evalAdd result.1 result.2.1 x y = evalAdd NUW NSW x y) ∧
      (result.2.2 = true ↔ (result.1, result.2.1) ≠ (NUW, NSW)) := by
  -- a flag that excludes no overflow of the operands makes no sum poison
  have hpoison : ∀ NUW NSW a b u s : Bool, (a = true → u = false) → (b = true → s = false) →
      ((NUW || !NUW && a) && u || (NSW || !NSW && b) && s) = (NUW && u || NSW && s) := by decide
  have hchanged : ∀ NUW NSW a b : Bool, (!NUW && a || !NSW && b) = true ↔
      (NUW || !NUW && a, NSW || !NSW && b) ≠ (NUW, NSW) := by decide
  have hsound : ∀ {Kind x y}, LRange.contains x → RRange.contains y →
      NoWrap .Add Kind RRange LRange = true → DoesNotWrap (· + ·) Kind x y := by
    intro Kind x y hx hy h
    simpa only [DoesNotWrap, Int.add_comm] using noWrap_sound hw rfl h hy hx
  unfold processAdd
  by_cases hboth : (NSW && NUW) = true
  · rw [if_pos hboth]
    exact ⟨fun _ _ _ _ => rfl, iff_of_false Bool.false_ne_true fun hne => hne rfl⟩
  · rw [if_neg hboth]
    refine ⟨fun x y hx hy => ?_, hchanged ..⟩
    obtain ⟨hunsigned, hsigned, _⟩ := overflow_eq_false_iff x y
    dsimp only [evalAdd]
    rw [hpoison NUW NSW _ _ _ _ (fun h => hunsigned.mpr (hsound hx hy h))
      fun h => hsigned.mpr (hsound hx hy h)]

theorem processAdd_preserves_small :
    processAdd false false (ofBounds 0#4 4#4 (by decide)) (single 1#4) = (true, true, true) ∧
      evalAdd true true 3#4 1#4 = evalAdd false false 3#4 1#4 :=
  have hflags : processAdd false false (ofBounds 0#4 4#4 (by decide)) (single 1#4) =
      (true, true, true) := by decide
  have hpreserves := (processAdd_preserves (by decide) false false
    (ofBounds 0#4 4#4 (by decide)) (single 1#4)).1 3#4 1#4 (by decide) (by decide)
  ⟨hflags, by rwa [hflags] at hpreserves⟩

theorem processCallSite_preserves (hw : 0 < w) (II : OverflowIntrinsic) (hx : L.contains x)
    (hy : R.contains y) : processCallSite II L R x y = II.eval x y := by
  obtain ⟨huadd, hsadd, husub, hssub⟩ := overflow_eq_false_iff x y
  unfold processCallSite
  split_ifs with h
  · cases II with
    | uadd_with_overflow => exact congrArg _ (huadd.mpr (noWrap_sound hw rfl h hx hy)).symm
    | sadd_with_overflow => exact congrArg _ (hsadd.mpr (noWrap_sound hw rfl h hx hy)).symm
    | usub_with_overflow => exact congrArg _ (husub.mpr (noWrap_sound hw rfl h hx hy)).symm
    | ssub_with_overflow => exact congrArg _ (hssub.mpr (noWrap_sound hw rfl h hx hy)).symm
  · rfl

theorem processCallSite_preserves_usub :
    processCallSite .usub_with_overflow (ofBounds 8#4 0#4 (by decide))
      (ofBounds 0#4 9#4 (by decide)) 12#4 3#4 = (9#4, false) :=
  processCallSite_preserves (by decide) _ (by decide) (by decide)

end Zapcc.CorrelatedValuePropagation
