import Zapcc.IR.ConstantRange

/-!
# Unions and truncations of constant ranges

The union of two ranges is the smallest range around both that the case analysis finds. A
truncation keeps the low bits of the members: a range that wraps around is the union of its two
parts. `contains_unionWith` and `contains_truncate` say that no member is lost.
-/

namespace Zapcc.ConstantRange

open WrapAround APInt Nat

variable {w : Nat}

theorem hull_ne {a b c d : BitVec w} {p : Prop} [Decidable p] (hab : a < b) (hcd : c < d) :
    (if c < a then c else a) ≠ (if p then d else b) := by
  split_ifs <;> bv_omega

theorem ne_of_lt_sub {a b c : BitVec w} (h : a < b - c) : b ≠ c := by
  intro heq
  rw [heq, BitVec.sub_self] at h
  exact BitVec.not_lt_zero h

theorem ne_of_not_sub_lt_sub {a b c d : BitVec w} (h : ¬ a - b < c - d) (hne : c ≠ d) :
    a ≠ b := by
  intro heq
  rw [heq, BitVec.sub_self, BitVec.not_lt, BitVec.le_zero_iff, BitVec.sub_eq_iff_eq_add,
    BitVec.zero_add] at h
  exact hne h

/-- The union of two ranges with different bounds. The second one wraps around only if the first
one does. -/
def unionWithBounds (A B : ConstantRange w) (hA : A.lower ≠ A.upper) (hB : B.lower ≠ B.upper)
    (hswap : B.isWrappedSet → A.isWrappedSet) : ConstantRange w :=
  if hplain : ¬ A.isWrappedSet ∧ ¬ B.isWrappedSet then
    have hA : A.lower < A.upper := by unfold isWrappedSet at hplain; bv_omega
    have hB : B.lower < B.upper := by unfold isWrappedSet at hplain; bv_omega
    if hapart : B.upper < A.lower ∨ A.upper < B.lower then
      -- the ranges are disjoint: bridge the smaller gap
      if B.lower - A.upper < A.lower - B.upper then ofBounds A.lower B.upper (by bv_omega)
      else ofBounds B.lower A.upper (by bv_omega)
    else
      let L := if B.lower < A.lower then B.lower else A.lower
      let U := if A.upper - 1#w < B.upper - 1#w then B.upper else A.upper
      if L = 0#w ∧ U = 0#w then full w else ofBounds L U (hull_ne hA hB)
  else if hone : ¬ B.isWrappedSet then
    have hA : A.upper < A.lower := by unfold isWrappedSet at hplain hone; bv_omega
    have hB : B.lower < B.upper := by unfold isWrappedSet at hone; bv_omega
    if hin : B.upper ≤ A.upper ∨ A.lower ≤ B.lower then A
    else if hboth : B.lower ≤ A.upper ∧ A.lower ≤ B.upper then full w
    else if hinside : A.upper ≤ B.lower ∧ B.upper ≤ A.lower then
      if hgap : B.lower - A.upper < A.lower - B.upper then
        ofBounds A.lower B.upper (ne_of_lt_sub hgap)
      else
        ofBounds B.lower A.upper fun heq => ne_of_not_sub_lt_sub hgap (by bv_omega) heq
    else if hlower : A.upper < B.lower ∧ A.lower < B.upper then
      ofBounds B.lower A.upper (by bv_omega)
    else ofBounds A.lower B.upper (by bv_omega)
  else
    have hA : A.upper < A.lower := hswap (Classical.not_not.mp hone)
    have hB : B.upper < B.lower := Classical.not_not.mp hone
    if hcover : B.lower ≤ A.upper ∨ A.lower ≤ B.upper then full w
    else
      let L := if B.lower < A.lower then B.lower else A.lower
      let U := if A.upper < B.upper then B.upper else A.upper
      ofBounds L U (by dsimp only [L, U]; split_ifs <;> bv_omega)

/-- A range around two ranges. -/
def unionWith (A B : ConstantRange w) : ConstantRange w :=
  if hleft : A.isFullSet ∨ B.isEmptySet then A
  else if hright : B.isFullSet ∨ A.isEmptySet then B
  else
    have hA := lower_ne_upper (fun h => hleft (.inl h)) (fun h => hright (.inr h))
    have hB := lower_ne_upper (fun h => hright (.inl h)) (fun h => hleft (.inr h))
    -- the recursive call with the operands exchanged gets to this point again
    if hswap : ¬ A.isWrappedSet ∧ B.isWrappedSet then
      unionWithBounds B A hB hA (fun h => absurd h hswap.1)
    else unionWithBounds A B hA hB (fun h => Classical.byContradiction fun hA => hswap ⟨hA, h⟩)

variable {v lower upper : BitVec w}

theorem contains_iff_of_ne {R : ConstantRange w} (hR : R.lower ≠ R.upper) :
    R.contains v ↔
      R.lower.toNat < R.upper.toNat ∧ R.lower.toNat ≤ v.toNat ∧ v.toNat < R.upper.toNat ∨
      R.upper.toNat < R.lower.toNat ∧ (R.lower.toNat ≤ v.toNat ∨ v.toNat < R.upper.toNat) := by
  rw [contains_iff, or_iff_right fun hfull => hR hfull.1]

theorem contains_ofBounds_of_ne {hne : lower ≠ upper}
    (h : lower.toNat ≠ upper.toNat →
      lower.toNat < upper.toNat ∧ lower.toNat ≤ v.toNat ∧ v.toNat < upper.toNat ∨
      upper.toNat < lower.toNat ∧ (lower.toNat ≤ v.toNat ∨ v.toNat < upper.toNat)) :
    (ofBounds lower upper hne).contains v :=
  contains_ofBounds.mpr (h fun heq => hne (BitVec.eq_of_toNat_eq heq))

theorem toNat_lower_hull (a b : BitVec w) :
    (if b < a then b else a).toNat = min a.toNat b.toNat := by
  split_ifs <;> bv_omega

theorem toNat_upper_hull {a b : BitVec w} (ha : 0 < a.toNat) (hb : 0 < b.toNat) :
    (if a - 1#w < b - 1#w then b else a).toNat = max a.toNat b.toNat := by
  have hw : 0 < w := by
    by_contra hzero
    have hpow : 2 ^ w = 1 := by rw [Nat.eq_zero_of_not_pos hzero, pow_zero]
    omega
  have ha' := toNat_sub_one hw ha
  have hb' := toNat_sub_one hw hb
  simp only [BitVec.lt_def]
  split_ifs <;> omega

theorem contains_unionWithBounds {A B : ConstantRange w} {hA : A.lower ≠ A.upper}
    {hB : B.lower ≠ B.upper} {hswap : B.isWrappedSet → A.isWrappedSet}
    (h : A.contains v ∨ B.contains v) : (unionWithBounds A B hA hB hswap).contains v := by
  rw [contains_iff_of_ne hA, contains_iff_of_ne hB] at h
  unfold unionWithBounds
  by_cases hplain : ¬ A.isWrappedSet ∧ ¬ B.isWrappedSet
  · rw [dif_pos hplain]
    simp only [isWrappedSet, BitVec.lt_def] at hplain
    by_cases hapart : B.upper < A.lower ∨ A.upper < B.lower
    · rw [dif_pos hapart]
      split_ifs
      all_goals
        refine contains_ofBounds_of_ne fun hne => ?_
        bv_omega
    · rw [dif_neg hapart]
      have hltA : A.lower.toNat < A.upper.toNat := by bv_omega
      have hltB : B.lower.toNat < B.upper.toNat := by bv_omega
      have hlower := toNat_lower_hull A.lower B.lower
      have hupper := toNat_upper_hull (a := A.upper) (b := B.upper) (by omega) (by omega)
      by_cases hzero : (if B.lower < A.lower then B.lower else A.lower) = 0#w ∧
          (if A.upper - 1#w < B.upper - 1#w then B.upper else A.upper) = 0#w
      · rw [if_pos hzero]
        exact contains_full v
      · rw [if_neg hzero]
        refine contains_ofBounds_of_ne fun hne => ?_
        omega
  · rw [dif_neg hplain]
    by_cases hone : ¬ B.isWrappedSet
    · rw [dif_pos hone]
      simp only [isWrappedSet, BitVec.lt_def] at hplain hone
      split_ifs with hin hboth hinside hgap hlower
      · rw [contains_iff_of_ne hA]
        bv_omega
      · exact contains_full v
      all_goals
        refine contains_ofBounds_of_ne fun hne => ?_
        bv_omega
    · rw [dif_neg hone]
      have hwrapped := hswap (Classical.not_not.mp hone)
      simp only [isWrappedSet, BitVec.lt_def] at hone hwrapped
      by_cases hcover : B.lower ≤ A.upper ∨ A.lower ≤ B.upper
      · rw [dif_pos hcover]
        exact contains_full v
      · rw [dif_neg hcover]
        refine contains_ofBounds_of_ne fun hne => ?_
        split_ifs <;> bv_omega

theorem contains_unionWith (hw : 0 < w) {A B : ConstantRange w}
    (h : A.contains v ∨ B.contains v) : (A.unionWith B).contains v := by
  unfold unionWith
  split_ifs with hleft hright hswap
  · rcases h with hA | hB
    · exact hA
    · exact hleft.elim (fun hfull => contains_iff.mpr (.inl hfull))
        fun hempty => absurd hempty (not_isEmptySet hw hB)
  · rcases h with hA | hB
    · exact hright.elim (fun hfull => contains_iff.mpr (.inl hfull))
        fun hempty => absurd hempty (not_isEmptySet hw hA)
    · exact hB
  · exact contains_unionWithBounds h.symm
  · exact contains_unionWithBounds h

/-- The lower bound of a range without the bits that its truncation loses. -/
def lowerDiv (lower : BitVec w) (dstTySize : Nat) : BitVec w :=
  if dstTySize < getActiveBits lower then lower - (lower &&& getBitsSetFrom w dstTySize) else lower

/-- The upper bound, moved by the same distance. -/
def upperDiv (lower upper : BitVec w) (dstTySize : Nat) : BitVec w :=
  if dstTySize < getActiveBits lower then upper - (lower &&& getBitsSetFrom w dstTySize) else upper

theorem toNat_lowerDiv (lower : BitVec w) (d : Nat) :
    (lowerDiv lower d).toNat = lower.toNat % 2 ^ d := by
  have hmod := mod_add_div' lower.toNat (2 ^ d)
  have hsub := toNat_sub_cases lower (lower &&& getBitsSetFrom w d)
  rw [toNat_and_getBitsSetFrom] at hsub
  unfold lowerDiv
  split_ifs with hactive
  · omega
  · rw [Nat.not_lt, getActiveBits_le] at hactive
    exact (mod_eq_of_lt hactive).symm

theorem toNat_upperDiv (hle : lower ≤ upper) (d : Nat) :
    (upperDiv lower upper d).toNat + lower.toNat = upper.toNat + lower.toNat % 2 ^ d := by
  have hmod := mod_add_div' lower.toNat (2 ^ d)
  have hsub := toNat_sub_cases upper (lower &&& getBitsSetFrom w d)
  rw [toNat_and_getBitsSetFrom] at hsub
  rw [BitVec.le_def] at hle
  unfold upperDiv
  split_ifs with hactive
  · omega
  · rw [Nat.not_lt, getActiveBits_le] at hactive
    rw [mod_eq_of_lt hactive]

theorem lowerDiv_lt_upperDiv (hlt : lower < upper) (d : Nat) :
    (lowerDiv lower d).toNat < (upperDiv lower upper d).toNat := by
  have hupper := toNat_upperDiv (BitVec.le_of_lt hlt) d
  rw [BitVec.lt_def] at hlt
  rw [toNat_lowerDiv]
  omega

theorem setWidth_ne {a b : BitVec w} {d : Nat} (hlt : a.toNat < b.toNat) (hb : b.toNat < 2 ^ d) :
    a.setWidth d ≠ b.setWidth d := by
  intro heq
  have hnat := congrArg BitVec.toNat heq
  rw [BitVec.toNat_setWidth, BitVec.toNat_setWidth, mod_eq_of_lt hb,
    mod_eq_of_lt (by omega)] at hnat
  omega

theorem lt_of_ne_of_le {a b : BitVec w} (hne : a ≠ b) (hle : a ≤ b) : a < b := by
  bv_omega

/-- The truncation of a range that does not wrap around, and its union with another range. -/
def truncateUnwrapped (lower upper : BitVec w) (hlt : lower < upper) {dstTySize : Nat}
    (Union : ConstantRange dstTySize) : ConstantRange dstTySize :=
  if hfits : getActiveBits (upperDiv lower upper dstTySize) ≤ dstTySize then
    (ofBounds ((lowerDiv lower dstTySize).setWidth dstTySize)
      ((upperDiv lower upper dstTySize).setWidth dstTySize)
      (setWidth_ne (lowerDiv_lt_upperDiv hlt dstTySize) (getActiveBits_le.mp hfits))).unionWith
        Union
  else if hnext : getActiveBits (upperDiv lower upper dstTySize) = dstTySize + 1 then
    -- the truncated range wraps around
    if hwrap : clearBit (upperDiv lower upper dstTySize) dstTySize < lowerDiv lower dstTySize then
      (ofBounds ((lowerDiv lower dstTySize).setWidth dstTySize)
        ((clearBit (upperDiv lower upper dstTySize) dstTySize).setWidth dstTySize)
        (setWidth_ne hwrap (by
          rw [toNat_lowerDiv]
          exact mod_lt _ (Nat.two_pow_pos _))).symm).unionWith Union
    else full dstTySize
  else full dstTySize

/-- The largest value, and the values below an upper bound. -/
def maxValueUpTo (upper : BitVec w) : ConstantRange w :=
  ⟨BitVec.allOnes w, upper, fun _ => .inl rfl⟩

/-- The range of the low bits. -/
def truncate (R : ConstantRange w) (dstTySize : Nat) : ConstantRange dstTySize :=
  if hempty : R.isEmptySet then empty dstTySize
  else if hfull : R.isFullSet then full dstTySize
  else if hwrapped : R.isWrappedSet then
    if dstTySize < getActiveBits R.upper ∨ countTrailingOnes R.upper = dstTySize then
      full dstTySize
    else
      -- the part up to the upper bound, together with the largest value
      let Union := maxValueUpTo (R.upper.setWidth dstTySize)
      if hmax : R.lower = BitVec.allOnes w then Union
      else
        truncateUnwrapped R.lower (BitVec.allOnes w) (BitVec.lt_allOnes_iff.mpr hmax) Union
  else
    truncateUnwrapped R.lower R.upper
      (lt_of_ne_of_le (lower_ne_upper hfull hempty) (BitVec.not_lt.mp hwrapped)) (empty dstTySize)

theorem mod_eq_sub_add_mod {a v n : Nat} (h : a ≤ v) : v % n = (v - a + a % n) % n := by
  have hdiv := mod_add_div a n
  rw [← add_mul_mod_self_left (v - a + a % n) n (a / n)]
  congr 1
  omega

theorem mod_eq_sub {a n : Nat} (hle : n ≤ a) (hlt : a < 2 * n) : a % n = a - n := by
  rw [mod_eq_sub_mod hle, mod_eq_of_lt (by omega)]

theorem contains_truncateUnwrapped {hlt : lower < upper} {d : Nat}
    (hdst : d < w) (hd : 0 < d) {Union : ConstantRange d}
    (h : lower ≤ v ∧ v < upper ∨ Union.contains (v.setWidth d)) :
    (truncateUnwrapped lower upper hlt Union).contains (v.setWidth d) := by
  have hlower := toNat_lowerDiv lower d
  have hupper := toNat_upperDiv (BitVec.le_of_lt hlt) d
  unfold truncateUnwrapped
  split_ifs with hfits hnext hwrap
  · refine contains_unionWith hd (h.imp_left fun hrange => contains_ofBounds.mpr ?_)
    obtain ⟨hle, hlast⟩ := hrange
    rw [BitVec.le_def] at hle
    rw [BitVec.lt_def] at hlast
    rw [getActiveBits_le] at hfits
    have hv : (v.toNat - lower.toNat + lower.toNat % 2 ^ d) % 2 ^ d =
        v.toNat - lower.toNat + lower.toNat % 2 ^ d := mod_eq_of_lt (by omega)
    simp only [BitVec.toNat_setWidth, hlower, mod_mod, mod_eq_of_lt hfits,
      mod_eq_sub_add_mod hle, hv]
    omega
  · refine contains_unionWith hd (h.imp_left fun hrange => contains_ofBounds.mpr ?_)
    obtain ⟨hle, hlast⟩ := hrange
    rw [BitVec.lt_def] at hlast
    have hbits := getActiveBits_le.mp (Nat.le_of_eq hnext)
    rw [getActiveBits_le] at hfits
    have hclear := toNat_clearBit hdst hbits
    rw [BitVec.lt_def, hclear, hlower] at hwrap
    have hwrapped : (upperDiv lower upper d).toNat % 2 ^ d =
        (upperDiv lower upper d).toNat - 2 ^ d := mod_eq_sub (Nat.not_lt.mp hfits) (by omega)
    have hv := mod_eq_sub_add_mod hle (n := 2 ^ d)
    simp only [BitVec.toNat_setWidth, hlower, hclear, mod_mod, hv]
    by_cases hsmall : v.toNat - lower.toNat + lower.toNat % 2 ^ d < 2 ^ d
    · rw [mod_eq_of_lt hsmall]
      omega
    · rw [mod_eq_sub (Nat.not_lt.mp hsmall) (by omega)]
      omega
  · exact contains_full _
  · exact contains_full _

theorem contains_maxValueUpTo
    (h : v = BitVec.allOnes w ∨ v.toNat < upper.toNat) : (maxValueUpTo upper).contains v := by
  rw [contains_iff]
  by_cases heq : BitVec.allOnes w = upper
  · exact .inl ⟨heq, rfl⟩
  · have hlt := BitVec.lt_allOnes_iff.mpr (Ne.symm heq)
    refine .inr (.inr ⟨hlt, h.imp_left fun hmax => ?_⟩)
    rw [hmax]
    exact Nat.le_refl _

theorem setWidth_allOnes {d : Nat} (hdst : d < w) :
    (BitVec.allOnes w).setWidth d = BitVec.allOnes d := by
  refine BitVec.eq_of_getLsbD_eq fun i hi => ?_
  simp [hi]
  omega

theorem contains_truncate {R : ConstantRange w} {d : Nat} (hdst : d < w) (hd : 0 < d)
    (h : R.contains v) : (R.truncate d).contains (v.setWidth d) := by
  have hcases := contains_iff.mp h
  have hunion (hfits : R.upper.toNat < 2 ^ d)
      (hv : v = BitVec.allOnes w ∨ v.toNat < R.upper.toNat) :
      (maxValueUpTo (R.upper.setWidth d)).contains (v.setWidth d) := by
    refine contains_maxValueUpTo (hv.imp (fun hmax => ?_) fun hlt => ?_)
    · rw [hmax, setWidth_allOnes hdst]
    · rw [BitVec.toNat_setWidth, BitVec.toNat_setWidth, mod_eq_of_lt hfits, mod_eq_of_lt (by omega)]
      exact hlt
  unfold truncate
  split_ifs with hempty hfull hwrapped hcover hmax
  · exact absurd hempty (not_isEmptySet (by omega) h)
  · exact contains_full _
  · exact contains_full _
  · rw [not_or, Nat.not_lt, getActiveBits_le] at hcover
    have hrange := hcases.resolve_left hfull
    rw [isWrappedSet, BitVec.lt_def] at hwrapped
    have hones := congrArg BitVec.toNat hmax
    refine hunion hcover.1 (Classical.or_iff_not_imp_left.mpr fun hne => ?_)
    have hv := BitVec.lt_allOnes_iff.mpr hne
    rw [BitVec.lt_def] at hv
    omega
  · rw [not_or, Nat.not_lt, getActiveBits_le] at hcover
    have hrange := hcases.resolve_left hfull
    refine contains_truncateUnwrapped hdst hd ?_
    by_cases hv : v = BitVec.allOnes w ∨ v.toNat < R.upper.toNat
    · exact .inr (hunion hcover.1 hv)
    · rw [not_or] at hv
      refine .inl ⟨?_, BitVec.lt_allOnes_iff.mpr hv.1⟩
      rw [BitVec.le_def]
      omega
  · have hrange := hcases.resolve_left hfull
    rw [isWrappedSet] at hwrapped
    exact contains_truncateUnwrapped hdst hd (.inl (by bv_omega))

end Zapcc.ConstantRange
