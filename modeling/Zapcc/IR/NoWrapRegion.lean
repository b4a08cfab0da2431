import Zapcc.IR.CompareRegions
import Zapcc.IR.RangeHulls

/-!
# Regions without overflow

The region of an addition or a subtraction holds values for which the operation does not wrap
around with any member of a range. It is built from one part for each bound of the range, and
nothing is lost when the range has one member (`makeGuaranteedNoWrapRegion_sound_complete`).
-/

namespace Zapcc.ConstantRange

open WrapAround APInt

variable {w : Nat}

inductive BinaryOps
  | Add
  | FAdd
  | Sub
  | FSub
  | Mul
  | FMul
  | UDiv
  | SDiv
  | FDiv
  | URem
  | SRem
  | FRem
  | Shl
  | LShr
  | AShr
  | And
  | Or
  | Xor
  deriving DecidableEq, Repr

/-- The senses in which an operation does not wrap around: at least one. -/
structure NoWrapKind where
  NoUnsignedWrap : Bool
  NoSignedWrap : Bool
  valid : NoUnsignedWrap = true ∨ NoSignedWrap = true

def NoUnsignedWrap : NoWrapKind := ⟨true, false, .inl rfl⟩

def NoSignedWrap : NoWrapKind := ⟨false, true, .inr rfl⟩

/-- A range with values that are in two ranges, maybe not with all of them. -/
def SubsetIntersect (A B : ConstantRange w) : ConstantRange w :=
  (A.inverse.unionWith B.inverse).inverse

def isStrictlyPositive (v : BitVec w) : Prop := v.msb = false ∧ v ≠ 0#w

def isNegative (v : BitVec w) : Prop := v.msb = true

instance (v : BitVec w) : Decidable (isStrictlyPositive v) := inferInstanceAs (Decidable (_ ∧ _))

instance (v : BitVec w) : Decidable (isNegative v) := inferInstanceAs (Decidable (_ = _))

theorem isStrictlyPositive_iff {v : BitVec w} : isStrictlyPositive v ↔ 0 < v.toInt := by
  have hcases := toInt_cases v
  rw [isStrictlyPositive, BitVec.msb_eq_toInt, decide_eq_false_iff_not, ne_eq, ← BitVec.toNat_inj,
    BitVec.toNat_zero]
  omega

theorem isNegative_iff {v : BitVec w} : isNegative v ↔ v.toInt < 0 := by
  rw [isNegative, BitVec.msb_eq_toInt, decide_eq_true_iff]

theorem ne_zero_of_isNegative {v : BitVec w} (h : isNegative v) : v ≠ 0#w := by
  intro heq
  rw [isNegative_iff, heq, BitVec.toInt_zero] at h
  omega

theorem sub_ne_self {a b : BitVec w} (h : b ≠ 0#w) : a - b ≠ a := by
  intro heq
  rw [BitVec.sub_eq_iff_eq_add, BitVec.self_eq_add_right] at heq
  exact h heq

theorem add_ne_self {a b : BitVec w} (h : b ≠ 0#w) : a + b ≠ a := by
  intro heq
  rw [BitVec.add_right_eq_self] at heq
  exact h heq

/-- The part of a region for additions that does not overflow with the signed bounds. -/
def addSignedRegion (Other Result : ConstantRange w) : ConstantRange w :=
  let Result :=
    if hpos : isStrictlyPositive Other.getSignedMax then
      Result.SubsetIntersect (ofBounds (BitVec.intMin w) (BitVec.intMin w - Other.getSignedMax)
        (sub_ne_self hpos.2).symm)
    else Result
  if hneg : isNegative Other.getSignedMin then
    Result.SubsetIntersect (ofBounds (BitVec.intMin w - Other.getSignedMin) (BitVec.intMin w)
      (sub_ne_self (ne_zero_of_isNegative hneg)))
  else Result

/-- The part of a region for subtractions that does not overflow with the signed bounds. -/
def subSignedRegion (Other Result : ConstantRange w) : ConstantRange w :=
  let Result :=
    if hpos : isStrictlyPositive Other.getSignedMax then
      Result.SubsetIntersect (ofBounds (BitVec.intMin w + Other.getSignedMax) (BitVec.intMin w)
        (add_ne_self hpos.2))
    else Result
  if hneg : isNegative Other.getSignedMin then
    Result.SubsetIntersect (ofBounds (BitVec.intMin w) (BitVec.intMin w + Other.getSignedMin)
      (add_ne_self (ne_zero_of_isNegative hneg)).symm)
  else Result

/-- The values that an addition of a member of a range does not wrap around. -/
def addRegion (Other : ConstantRange w) (NoWrapKind : NoWrapKind) : ConstantRange w :=
  -- nothing wraps around when zero is added
  if Other.getSingleElement = some 0#w then full w
  else
    let Result :=
      if NoWrapKind.NoUnsignedWrap then
        (full w).SubsetIntersect ⟨0#w, -Other.getUnsignedMax, fun _ => .inr rfl⟩
      else full w
    if NoWrapKind.NoSignedWrap then Other.addSignedRegion Result else Result

/-- The values that a subtraction of a member of a range does not wrap around. -/
def subRegion (Other : ConstantRange w) (NoWrapKind : NoWrapKind) : ConstantRange w :=
  -- nothing wraps around when zero is subtracted
  if Other.getSingleElement = some 0#w then full w
  else
    let Result :=
      if NoWrapKind.NoUnsignedWrap then
        (full w).SubsetIntersect ⟨Other.getUnsignedMax, 0#w, fun heq => .inr heq⟩
      else full w
    if NoWrapKind.NoSignedWrap then Other.subSignedRegion Result else Result

/-- The values for which an operation does not wrap around with any member of a range. The answer
for an operator that is not supported is conservative. -/
def makeGuaranteedNoWrapRegion (BinOp : BinaryOps) (Other : ConstantRange w)
    (NoWrapKind : NoWrapKind) : ConstantRange w :=
  match BinOp with
  | .Add => Other.addRegion NoWrapKind
  | .Sub => Other.subRegion NoWrapKind
  | _ => empty w

theorem eq_zero_of_eq_succ {V : BitVec w} (heq : V = V + 1#w) : V = 0#w := by
  rw [BitVec.self_eq_add_right] at heq
  have hnat := congrArg BitVec.toNat heq
  refine BitVec.eq_of_toNat_eq ?_
  rcases Nat.eq_zero_or_pos w with hzero | hpos
  · subst hzero
    omega
  · rw [toNat_one hpos, BitVec.toNat_zero] at hnat
    omega

def single (V : BitVec w) : ConstantRange w :=
  ⟨V, V + 1#w, fun heq => .inr (eq_zero_of_eq_succ heq)⟩

/-- The sums of the members that do not wrap around as signed values. -/
def addWithNoSignedWrap (R : ConstantRange w) (Other : BitVec w) : ConstantRange w :=
  let NSWRange := makeGuaranteedNoWrapRegion .Add (single Other) ⟨false, true, .inr rfl⟩
  (R.intersectWith NSWRange).add (single Other)

/-- The operation on integers of a supported operator. -/
def BinaryOps.onInt : BinaryOps → Option (Int → Int → Int)
  | Add => some (· + ·)
  | Sub => some (· - ·)
  | _ => none

/-- Whether the result of an operation on integers is a value of the width, in all senses. -/
def DoesNotWrap (f : Int → Int → Int) (NoWrapKind : NoWrapKind) (x y : BitVec w) : Prop :=
  (NoWrapKind.NoUnsignedWrap = true → 0 ≤ f x.toNat y.toNat ∧ f x.toNat y.toNat < (2 ^ w : Nat)) ∧
    (NoWrapKind.NoSignedWrap = true →
      -(2 ^ (w - 1) : Nat) ≤ f x.toInt y.toInt ∧ f x.toInt y.toInt < (2 ^ (w - 1) : Nat))

section Regions

variable {R A B : ConstantRange w} {v x y : BitVec w}

theorem contains_SubsetIntersect (hw : 0 < w) (h : (A.SubsetIntersect B).contains v) :
    A.contains v ∧ B.contains v := by
  rw [SubsetIntersect, contains_inverse hw] at h
  have hA : ¬ A.inverse.contains v := fun hv => h (contains_unionWith hw (.inl hv))
  have hB : ¬ B.inverse.contains v := fun hv => h (contains_unionWith hw (.inr hv))
  rw [contains_inverse hw, not_not] at hA hB
  exact ⟨hA, hB⟩

theorem contains_full_SubsetIntersect (hw : 0 < w) :
    ((full w).SubsetIntersect B).contains v ↔ B.contains v := by
  have hfull : (full w).inverse = empty w := by rw [inverse, dif_pos ⟨rfl, rfl⟩]
  refine ⟨fun h => (contains_SubsetIntersect hw h).2, fun h => ?_⟩
  rw [SubsetIntersect, contains_inverse hw]
  intro hv
  have hnot : ¬ B.inverse.contains v := fun hin => (contains_inverse hw).mp hin h
  refine hnot ?_
  rw [hfull, unionWith] at hv
  split_ifs at hv with hleft hright hswap
  · exact absurd hv (not_contains_empty hw)
  · exact hv
  · exact absurd (Or.inr ⟨rfl, rfl⟩) hright
  · exact absurd (Or.inr ⟨rfl, rfl⟩) hright

theorem contains_zero_neg (hw : 0 < w) {m : BitVec w} {hvalid : 0#w = -m → _} :
    (⟨0#w, -m, hvalid⟩ : ConstantRange w).contains v ↔ m ≠ 0#w ∧ v.toNat + m.toNat < 2 ^ w := by
  by_cases hm : m = 0#w
  · subst hm
    have hempty : isEmptySet (⟨0#w, -0#w, hvalid⟩ : ConstantRange w) :=
      ⟨by simp, rfl⟩
    exact iff_of_false (fun h => not_isEmptySet hw h hempty) fun h => h.1 rfl
  · have hpos := toNat_pos_of_ne hm
    have hneg := toNat_sub_cases 0#w m
    rw [BitVec.zero_sub, BitVec.toNat_zero] at hneg
    have hne : 0#w ≠ -m := fun heq => by
      have hnat := congrArg BitVec.toNat heq
      rw [BitVec.toNat_zero] at hnat
      omega
    have hbound := @contains_zero_upper w v _ hne
    rw [and_iff_right hm]
    exact hbound.trans (by omega)

theorem contains_self_zero (hw : 0 < w) {m : BitVec w} {hvalid : m = 0#w → _} :
    (⟨m, 0#w, hvalid⟩ : ConstantRange w).contains v ↔ m ≠ 0#w ∧ m.toNat ≤ v.toNat := by
  by_cases hm : m = 0#w
  · subst hm
    have hempty : isEmptySet (⟨0#w, 0#w, hvalid⟩ : ConstantRange w) := ⟨rfl, rfl⟩
    exact iff_of_false (fun h => not_isEmptySet hw h hempty) fun h => h.1 rfl
  · rw [and_iff_right hm]
    exact @contains_lower_zero w v m hm

theorem toInt_intMin_sub (hw : 0 < w) (m : BitVec w) :
    (BitVec.intMin w - m).toInt + m.toInt =
      if 0 < m.toInt then ((2 ^ (w - 1) : Nat) : Int) else -(2 ^ (w - 1) : Nat) := by
  have hhalf := two_pow_eq_two_mul hw
  have hsub := toNat_sub_cases (BitVec.intMin w) m
  have hm' := toInt_cases m
  have hres := toInt_cases (BitVec.intMin w - m)
  rw [BitVec.toNat_intMin_of_pos hw] at hsub
  split_ifs <;> omega

theorem toInt_intMin_add (hw : 0 < w) (m : BitVec w) :
    (BitVec.intMin w + m).toInt - m.toInt =
      if m.toInt < 0 then ((2 ^ (w - 1) : Nat) : Int) else -(2 ^ (w - 1) : Nat) := by
  have hhalf := two_pow_eq_two_mul hw
  have hadd := toNat_add_cases (BitVec.intMin w) m
  have hm' := toInt_cases m
  have hres := toInt_cases (BitVec.intMin w + m)
  rw [BitVec.toNat_intMin_of_pos hw] at hadd
  split_ifs <;> omega

theorem contains_narrowed (hw : 0 < w) {p : Prop} [Decidable p]
    (h : (if p then A.SubsetIntersect B else A).contains v) :
    A.contains v ∧ (p → B.contains v) := by
  split_ifs at h with hp
  · exact (contains_SubsetIntersect hw h).imp_right fun hB _ => hB
  · exact ⟨h, fun hp' => absurd hp' hp⟩

theorem contains_narrowed_of (hw : 0 < w) {p : Prop} [Decidable p] {P : p → ConstantRange w}
    (h : (if hp : p then A.SubsetIntersect (P hp) else A).contains v) :
    A.contains v ∧ ∀ hp : p, (P hp).contains v := by
  split_ifs at h with hp
  · exact (contains_SubsetIntersect hw h).imp_right fun hB _ => hB
  · exact ⟨h, fun hp' => absurd hp' hp⟩

theorem contains_addSignedRegion (hw : 0 < w) (h : (R.addSignedRegion A).contains x)
    (hy : R.contains y) : A.contains x ∧ -(2 ^ (w - 1) : Nat) ≤ x.toInt + y.toInt ∧
      x.toInt + y.toInt < (2 ^ (w - 1) : Nat) := by
  have hx := toInt_cases x
  have hhalf := two_pow_eq_two_mul hw
  have hmin := getSignedMin_le hw hy
  have hmax := le_getSignedMax hw hy
  obtain ⟨hresult, hneg⟩ := contains_narrowed_of hw h
  obtain ⟨hA, hpos⟩ := contains_narrowed_of hw hresult
  refine ⟨hA, ?_, ?_⟩
  · by_cases hcond : isNegative R.getSignedMin
    · have hbound := (contains_lower_intMin hw).mp (hneg hcond)
      have hmove := toInt_intMin_sub hw R.getSignedMin
      omega
    · rw [isNegative_iff] at hcond
      omega
  · by_cases hcond : isStrictlyPositive R.getSignedMax
    · have hbound := (contains_intMin_upper hw).mp (hpos hcond)
      have hmove := toInt_intMin_sub hw R.getSignedMax
      omega
    · rw [isStrictlyPositive_iff] at hcond
      omega

theorem contains_subSignedRegion (hw : 0 < w) (h : (R.subSignedRegion A).contains x)
    (hy : R.contains y) : A.contains x ∧ -(2 ^ (w - 1) : Nat) ≤ x.toInt - y.toInt ∧
      x.toInt - y.toInt < (2 ^ (w - 1) : Nat) := by
  have hx := toInt_cases x
  have hhalf := two_pow_eq_two_mul hw
  have hmin := getSignedMin_le hw hy
  have hmax := le_getSignedMax hw hy
  obtain ⟨hresult, hneg⟩ := contains_narrowed_of hw h
  obtain ⟨hA, hpos⟩ := contains_narrowed_of hw hresult
  refine ⟨hA, ?_, ?_⟩
  · by_cases hcond : isStrictlyPositive R.getSignedMax
    · have hbound := (contains_lower_intMin hw).mp (hpos hcond)
      have hmove := toInt_intMin_add hw R.getSignedMax
      omega
    · rw [isStrictlyPositive_iff] at hcond
      omega
  · by_cases hcond : isNegative R.getSignedMin
    · have hbound := (contains_intMin_upper hw).mp (hneg hcond)
      have hmove := toInt_intMin_add hw R.getSignedMin
      omega
    · rw [isNegative_iff] at hcond
      omega

theorem eq_zero_of_getSingleElement (hw : 0 < w) (hzero : R.getSingleElement = some 0#w)
    (hy : R.contains y) : y = 0#w := by
  unfold getSingleElement at hzero
  split_ifs at hzero with hsingle
  rw [(contains_iff_of_isSingleElement hw hsingle).mp hy]
  exact Option.some.inj hzero

theorem contains_addRegion (hw : 0 < w) {NoWrapKind : NoWrapKind}
    (h : (R.addRegion NoWrapKind).contains x) (hy : R.contains y) :
    DoesNotWrap (· + ·) NoWrapKind x y := by
  unfold addRegion at h
  by_cases hzero : R.getSingleElement = some 0#w
  · have hx := toInt_cases x
    have hhalf := two_pow_eq_two_mul hw
    rw [eq_zero_of_getSingleElement hw hzero hy]
    simp only [DoesNotWrap, BitVec.toNat_zero, BitVec.toInt_zero]
    omega
  · rw [if_neg hzero] at h
    have hle := le_getUnsignedMax hw hy
    have hsigned : NoWrapKind.NoSignedWrap = true →
        -(2 ^ (w - 1) : Nat) ≤ x.toInt + y.toInt ∧ x.toInt + y.toInt < (2 ^ (w - 1) : Nat) :=
      fun hnsw => (contains_addSignedRegion hw (by rwa [if_pos hnsw] at h) hy).2
    have hresult : (if NoWrapKind.NoUnsignedWrap then
        (full w).SubsetIntersect ⟨0#w, -R.getUnsignedMax, fun _ => .inr rfl⟩
      else full w).contains x := by
      by_cases hnsw : NoWrapKind.NoSignedWrap = true
      · rw [if_pos hnsw] at h
        exact (contains_addSignedRegion hw h hy).1
      · rwa [if_neg hnsw] at h
    refine ⟨fun hnuw => ?_, hsigned⟩
    have hpart := (contains_zero_neg hw).mp ((contains_narrowed hw hresult).2 hnuw)
    dsimp only
    omega

theorem contains_subRegion (hw : 0 < w) {NoWrapKind : NoWrapKind}
    (h : (R.subRegion NoWrapKind).contains x) (hy : R.contains y) :
    DoesNotWrap (· - ·) NoWrapKind x y := by
  unfold subRegion at h
  by_cases hzero : R.getSingleElement = some 0#w
  · have hx := toInt_cases x
    have hhalf := two_pow_eq_two_mul hw
    rw [eq_zero_of_getSingleElement hw hzero hy]
    simp only [DoesNotWrap, BitVec.toNat_zero, BitVec.toInt_zero]
    omega
  · rw [if_neg hzero] at h
    have hle := le_getUnsignedMax hw hy
    have hsigned : NoWrapKind.NoSignedWrap = true →
        -(2 ^ (w - 1) : Nat) ≤ x.toInt - y.toInt ∧ x.toInt - y.toInt < (2 ^ (w - 1) : Nat) :=
      fun hnsw => (contains_subSignedRegion hw (by rwa [if_pos hnsw] at h) hy).2
    have hresult : (if NoWrapKind.NoUnsignedWrap then
        (full w).SubsetIntersect ⟨R.getUnsignedMax, 0#w, fun heq => .inr heq⟩
      else full w).contains x := by
      by_cases hnsw : NoWrapKind.NoSignedWrap = true
      · rw [if_pos hnsw] at h
        exact (contains_subSignedRegion hw h hy).1
      · rwa [if_neg hnsw] at h
    refine ⟨fun hnuw => ?_, hsigned⟩
    have hpart := (contains_self_zero hw).mp ((contains_narrowed hw hresult).2 hnuw)
    dsimp only
    omega

theorem bounds_eq_of_isSingleElement (hw : 0 < w) (hsingle : R.isSingleElement) :
    R.getUnsignedMax = R.lower ∧ R.getSignedMin = R.lower ∧ R.getSignedMax = R.lower := by
  have hmember {v : BitVec w} := contains_iff_of_isSingleElement (v := v) hw hsingle
  have hempty := not_isEmptySet hw (hmember.mpr rfl)
  exact ⟨hmember.mp (contains_getUnsignedMax hw hempty),
    hmember.mp (contains_getSignedMin hw hempty), hmember.mp (contains_getSignedMax hw hempty)⟩

theorem getSingleElement_of_isSingleElement (hsingle : R.isSingleElement) :
    R.getSingleElement = some R.lower := if_pos hsingle

theorem contains_addRegion_of_doesNotWrap (hw : 0 < w) {NoWrapKind : NoWrapKind}
    (hsingle : R.isSingleElement)
    (hone : ¬ (NoWrapKind.NoUnsignedWrap = true ∧ NoWrapKind.NoSignedWrap = true))
    (h : DoesNotWrap (· + ·) NoWrapKind x R.lower) : (R.addRegion NoWrapKind).contains x := by
  obtain ⟨humax, hsmin, hsmax⟩ := bounds_eq_of_isSingleElement hw hsingle
  unfold addRegion
  rw [getSingleElement_of_isSingleElement hsingle]
  by_cases hzero : R.lower = 0#w
  · rw [if_pos (congrArg some hzero)]
    exact contains_full x
  rw [if_neg fun heq => hzero (Option.some.inj heq)]
  rcases NoWrapKind.valid with hnuw | hnsw
  · have hnsw : ¬ NoWrapKind.NoSignedWrap = true := fun hnsw => hone ⟨hnuw, hnsw⟩
    have hfits := h.1 hnuw
    dsimp only at hfits ⊢
    rw [if_pos hnuw, if_neg hnsw, contains_full_SubsetIntersect hw, contains_zero_neg hw, humax]
    exact ⟨hzero, by omega⟩
  · have hnuw : ¬ NoWrapKind.NoUnsignedWrap = true := fun hnuw => hone ⟨hnuw, hnsw⟩
    have hfits := h.2 hnsw
    have hmove := toInt_intMin_sub hw R.lower
    dsimp only at hfits ⊢
    rw [if_neg hnuw, if_pos hnsw, addSignedRegion]
    by_cases hpos : 0 < R.lower.toInt
    · rw [dif_neg (by rw [isNegative_iff, hsmin]; omega),
        dif_pos (by rw [isStrictlyPositive_iff, hsmax]; exact hpos),
        contains_full_SubsetIntersect hw, contains_intMin_upper hw, hsmax]
      omega
    · have hne : R.lower.toInt ≠ 0 := fun heq => hzero (BitVec.eq_of_toInt_eq (by
        rw [heq, BitVec.toInt_zero]))
      rw [dif_pos (by rw [isNegative_iff, hsmin]; omega),
        dif_neg (by rw [isStrictlyPositive_iff, hsmax]; exact hpos),
        contains_full_SubsetIntersect hw, contains_lower_intMin hw, hsmin]
      omega

theorem contains_subRegion_of_doesNotWrap (hw : 0 < w) {NoWrapKind : NoWrapKind}
    (hsingle : R.isSingleElement)
    (hone : ¬ (NoWrapKind.NoUnsignedWrap = true ∧ NoWrapKind.NoSignedWrap = true))
    (h : DoesNotWrap (· - ·) NoWrapKind x R.lower) : (R.subRegion NoWrapKind).contains x := by
  obtain ⟨humax, hsmin, hsmax⟩ := bounds_eq_of_isSingleElement hw hsingle
  unfold subRegion
  rw [getSingleElement_of_isSingleElement hsingle]
  by_cases hzero : R.lower = 0#w
  · rw [if_pos (congrArg some hzero)]
    exact contains_full x
  rw [if_neg fun heq => hzero (Option.some.inj heq)]
  rcases NoWrapKind.valid with hnuw | hnsw
  · have hnsw : ¬ NoWrapKind.NoSignedWrap = true := fun hnsw => hone ⟨hnuw, hnsw⟩
    have hfits := h.1 hnuw
    dsimp only at hfits ⊢
    rw [if_pos hnuw, if_neg hnsw, contains_full_SubsetIntersect hw, contains_self_zero hw, humax]
    exact ⟨hzero, by omega⟩
  · have hnuw : ¬ NoWrapKind.NoUnsignedWrap = true := fun hnuw => hone ⟨hnuw, hnsw⟩
    have hfits := h.2 hnsw
    have hmove := toInt_intMin_add hw R.lower
    dsimp only at hfits ⊢
    rw [if_neg hnuw, if_pos hnsw, subSignedRegion]
    by_cases hneg : R.lower.toInt < 0
    · rw [dif_pos (by rw [isNegative_iff, hsmin]; exact hneg),
        dif_neg (by rw [isStrictlyPositive_iff, hsmax]; omega),
        contains_full_SubsetIntersect hw, contains_intMin_upper hw, hsmin]
      omega
    · have hne : R.lower.toInt ≠ 0 := fun heq => hzero (BitVec.eq_of_toInt_eq (by
        rw [heq, BitVec.toInt_zero]))
      rw [dif_neg (by rw [isNegative_iff, hsmin]; exact hneg),
        dif_pos (by rw [isStrictlyPositive_iff, hsmax]; omega),
        contains_full_SubsetIntersect hw, contains_lower_intMin hw, hsmax]
      omega

/-- No member of a region wraps around with a member of the range, in any of the senses that are
asked for. The region of one value for one flag has all values that do not wrap around, and the
region of an operator that is not supported is empty. -/
theorem makeGuaranteedNoWrapRegion_sound_complete (hw : 0 < w) (R : ConstantRange w)
    (NoWrapKind : NoWrapKind) :
    (∀ BinOp f, BinaryOps.onInt BinOp = some f → ∀ x y,
      (makeGuaranteedNoWrapRegion BinOp R NoWrapKind).contains x → R.contains y →
        DoesNotWrap f NoWrapKind x y) ∧
    (∀ BinOp f, BinaryOps.onInt BinOp = some f → R.isSingleElement →
      ¬ (NoWrapKind.NoUnsignedWrap = true ∧ NoWrapKind.NoSignedWrap = true) →
      ∀ x, DoesNotWrap f NoWrapKind x R.lower →
        (makeGuaranteedNoWrapRegion BinOp R NoWrapKind).contains x) ∧
    ∀ BinOp, BinaryOps.onInt BinOp = none → ∀ x,
      ¬ (makeGuaranteedNoWrapRegion BinOp R NoWrapKind).contains x := by
  refine ⟨fun BinOp f hop x y h hy => ?_, fun BinOp f hop hsingle hone x h => ?_,
    fun BinOp hop x => ?_⟩
  · cases BinOp with
    | Add =>
      cases hop
      exact contains_addRegion hw h hy
    | Sub =>
      cases hop
      exact contains_subRegion hw h hy
    | _ => cases hop
  · cases BinOp with
    | Add =>
      cases hop
      exact contains_addRegion_of_doesNotWrap hw hsingle hone h
    | Sub =>
      cases hop
      exact contains_subRegion_of_doesNotWrap hw hsingle hone h
    | _ => cases hop
  · cases BinOp with
    | Add | Sub => cases hop
    | _ => exact not_contains_empty hw

/-- An addition of three that does not carry out of three bits. -/
theorem makeGuaranteedNoWrapRegion_sound_complete_three :
    DoesNotWrap (· + ·) ⟨true, false, .inl rfl⟩ 4#3 3#3 :=
  (makeGuaranteedNoWrapRegion_sound_complete (by decide) (single 3#3) _).1 .Add _ rfl 4#3 3#3
    ((makeGuaranteedNoWrapRegion_sound_complete (by decide) (single 3#3)
      ⟨true, false, .inl rfl⟩).2.1 .Add _ rfl rfl (by decide) 4#3
        ⟨fun _ => by decide, fun h => by cases h⟩) (by decide)

end Regions

end Zapcc.ConstantRange
