import Mathlib.Tactic.Abel
import Mathlib.Tactic.Linarith
import Zapcc.IR.RangeTruncate

/-!
# Arithmetic on constant ranges

Each operation returns a range for the results on all members of two ranges. `arithmetic_sound`
says that none of these results is missing.
-/

namespace Zapcc.ConstantRange

open WrapAround APInt Nat

variable {w : Nat}

theorem getUnsignedMin_le_getUnsignedMax (hw : 0 < w) {R : ConstantRange w}
    (h : ¬ R.isEmptySet) : R.getUnsignedMin.toNat ≤ R.getUnsignedMax.toNat :=
  Nat.le_trans (getUnsignedMin_le (contains_lower h)) (le_getUnsignedMax hw (contains_lower h))

theorem zero_ne_succ {x : BitVec w} (h : x ≠ BitVec.allOnes w) : 0#w ≠ x + 1#w := by
  have hlt := BitVec.lt_allOnes_iff.mpr h
  have hadd := toNat_add_cases x 1#w
  rw [BitVec.lt_def] at hlt
  have hone : (1#w).toNat = 1 := by
    refine toNat_one (Nat.pos_of_ne_zero fun hzero => ?_)
    have hpow : 2 ^ w = 1 := by rw [hzero, pow_zero]
    omega
  intro heq
  have hnat := congrArg BitVec.toNat heq
  rw [BitVec.toNat_zero] at hnat
  omega

theorem toNat_shl_of_lt {x s : BitVec w} (h : s.toNat < countLeadingZeros x) :
    (APInt.shl x s).toNat = x.toNat * 2 ^ s.toNat ∧ 2 * (x.toNat * 2 ^ s.toNat) < 2 ^ w := by
  have hle : s.toNat ≤ w := by
    unfold countLeadingZeros at h
    omega
  have hx : x.toNat < 2 ^ (w - s.toNat - 1) := by
    rw [← size_le]
    unfold countLeadingZeros at h
    omega
  have hmul : x.toNat * 2 ^ s.toNat * 2 < 2 ^ w := by
    have hpow : 2 ^ w = 2 ^ (w - s.toNat - 1) * (2 ^ s.toNat * 2) := by
      rw [← pow_succ, ← pow_add]
      congr 1
      unfold countLeadingZeros at h
      omega
    rw [hpow, Nat.mul_assoc]
    exact Nat.mul_lt_mul_of_pos_right hx (Nat.mul_pos (Nat.two_pow_pos _) Nat.two_pos)
  rw [APInt.shl, toNat_getLimitedValue, Nat.min_eq_left hle, BitVec.toNat_shiftLeft,
    shiftLeft_eq, mod_eq_of_lt (by omega)]
  exact ⟨rfl, by omega⟩

theorem shl_bounds_le {A B : ConstantRange w} (h : ¬ (A.isEmptySet ∨ B.isEmptySet))
    (hover : ¬ countLeadingZeros A.getUnsignedMax ≤ B.getUnsignedMax.toNat) :
    (APInt.shl A.getUnsignedMin B.getUnsignedMin).toNat ≤
      (APInt.shl A.getUnsignedMax B.getUnsignedMax).toNat := by
  rw [not_or] at h
  have hw : 0 < w := by
    unfold countLeadingZeros at hover
    omega
  have hA := getUnsignedMin_le_getUnsignedMax hw h.1
  have hB := getUnsignedMin_le_getUnsignedMax hw h.2
  have hmax := toNat_shl_of_lt (Nat.not_le.mp hover)
  have hsize := size_le_size hA
  have hmin : B.getUnsignedMin.toNat < countLeadingZeros A.getUnsignedMin := by
    unfold countLeadingZeros at hover ⊢
    omega
  rw [hmax.1, (toNat_shl_of_lt hmin).1]
  exact Nat.mul_le_mul hA (Nat.pow_le_pow_right Nat.two_pos hB)

theorem shl_bounds_ne {A B : ConstantRange w} (h : ¬ (A.isEmptySet ∨ B.isEmptySet))
    (hover : ¬ countLeadingZeros A.getUnsignedMax ≤ B.getUnsignedMax.toNat) :
    APInt.shl A.getUnsignedMin B.getUnsignedMin ≠
      APInt.shl A.getUnsignedMax B.getUnsignedMax + 1#w := by
  have hle := shl_bounds_le h hover
  have hmax := toNat_shl_of_lt (Nat.not_le.mp hover)
  have hone : (1#w).toNat = 1 := by
    refine toNat_one ?_
    unfold countLeadingZeros at hover
    omega
  have hadd := toNat_add_cases (APInt.shl A.getUnsignedMax B.getUnsignedMax) 1#w
  intro heq
  have hnat := congrArg BitVec.toNat heq
  omega

theorem valid_of_ne {lower upper : BitVec w} (h : 0 < w → lower ≠ upper) :
    lower = upper → lower = BitVec.allOnes w ∨ lower = 0#w := by
  intro heq
  rcases Nat.eq_zero_or_pos w with hzero | hpos
  · subst hzero
    exact .inr (BitVec.of_length_zero)
  · exact absurd heq (h hpos)

theorem toNat_mul_setWidth (x y : BitVec w) :
    (x.setWidth (w * 2) * y.setWidth (w * 2)).toNat = x.toNat * y.toNat := by
  have hpow : 2 ^ w * 2 ^ w = 2 ^ (w * 2) := by rw [← pow_add, Nat.mul_two]
  have hle : 2 ^ w ≤ 2 ^ (w * 2) := Nat.pow_le_pow_right Nat.two_pos (by omega)
  have hx := x.isLt
  have hy := y.isLt
  rw [BitVec.toNat_mul, BitVec.toNat_setWidth, BitVec.toNat_setWidth,
    mod_eq_of_lt (Nat.lt_of_lt_of_le hx hle), mod_eq_of_lt (Nat.lt_of_lt_of_le hy hle),
    ← hpow, mod_eq_of_lt (Nat.mul_lt_mul'' hx hy)]

theorem unsignedProducts_ne {A B : ConstantRange w} (h : ¬ (A.isEmptySet ∨ B.isEmptySet))
    (hdouble : 0 < w * 2) :
    A.getUnsignedMin.setWidth (w * 2) * B.getUnsignedMin.setWidth (w * 2) ≠
      A.getUnsignedMax.setWidth (w * 2) * B.getUnsignedMax.setWidth (w * 2) + 1#(w * 2) := by
  rw [not_or] at h
  have hw : 0 < w := Nat.pos_of_mul_pos_right hdouble
  have hle := Nat.mul_le_mul (getUnsignedMin_le_getUnsignedMax hw h.1)
    (getUnsignedMin_le_getUnsignedMax hw h.2)
  have hA := A.getUnsignedMax.isLt
  have hB := B.getUnsignedMax.isLt
  have htwo := Nat.one_lt_two_pow (Nat.ne_of_gt hw)
  -- the largest product is below the largest value
  have hlast : A.getUnsignedMax.toNat * B.getUnsignedMax.toNat + 1 < 2 ^ (w * 2) := by
    have hpow : 2 ^ (w * 2) = 2 ^ w * 2 ^ w := by rw [← pow_add, Nat.mul_two]
    have hmul := Nat.mul_le_mul (le_sub_one_of_lt hA) (le_sub_one_of_lt hB)
    have hsquare : (2 ^ w - 1) * (2 ^ w - 1) + 1 < 2 ^ w * 2 ^ w := by
      obtain ⟨n, hn⟩ : ∃ n, 2 ^ w = n + 1 := ⟨2 ^ w - 1, by omega⟩
      rw [hn, Nat.add_sub_cancel]
      nlinarith
    omega
  have hadd := toNat_add_cases
    (A.getUnsignedMax.setWidth (w * 2) * B.getUnsignedMax.setWidth (w * 2)) 1#(w * 2)
  rw [toNat_mul_setWidth, toNat_one hdouble] at hadd
  intro heq
  have hnat := congrArg BitVec.toNat heq
  rw [toNat_mul_setWidth] at hnat
  omega

/-- The range between the bounds of a sum, or all values if its size shows that it wraps around to
itself. -/
def sumBounds (A B : ConstantRange w) (newLower newUpper : BitVec w) : ConstantRange w :=
  if h : newLower = newUpper then full w
  else
    let X := ofBounds newLower newUpper h
    if X.isSizeStrictlySmallerThan A ∨ X.isSizeStrictlySmallerThan B then full w else X

def add (A B : ConstantRange w) : ConstantRange w :=
  if A.isEmptySet ∨ B.isEmptySet then empty w
  else if A.isFullSet ∨ B.isFullSet then full w
  else sumBounds A B (A.lower + B.lower) (A.upper + B.upper - 1#w)

def sub (A B : ConstantRange w) : ConstantRange w :=
  if A.isEmptySet ∨ B.isEmptySet then empty w
  else if A.isFullSet ∨ B.isFullSet then full w
  else sumBounds A B (A.lower - B.upper + 1#w) (A.upper - B.lower)

/-- The range of the products at twice the width, with the members as unsigned values. -/
def unsignedProducts (A B : ConstantRange w) (h : ¬ (A.isEmptySet ∨ B.isEmptySet)) :
    ConstantRange (w * 2) :=
  ⟨A.getUnsignedMin.setWidth (w * 2) * B.getUnsignedMin.setWidth (w * 2),
    A.getUnsignedMax.setWidth (w * 2) * B.getUnsignedMax.setWidth (w * 2) + 1#(w * 2),
    valid_of_ne (unsignedProducts_ne h)⟩

/-- The first one of some signed values that no other one is below. -/
def minSigned (first : BitVec w) (rest : List (BitVec w)) : BitVec w :=
  rest.foldl (fun m x => APInt.smin x m) first

/-- The first one of some signed values that no other one is above. -/
def maxSigned (first : BitVec w) (rest : List (BitVec w)) : BitVec w :=
  rest.foldl (fun m x => APInt.smax x m) first

/-- The smallest product of two signed bounds at twice the width. -/
def minProduct (A B : ConstantRange w) : BitVec (w * 2) :=
  let this_min := A.getSignedMin.signExtend (w * 2)
  let this_max := A.getSignedMax.signExtend (w * 2)
  let Other_min := B.getSignedMin.signExtend (w * 2)
  let Other_max := B.getSignedMax.signExtend (w * 2)
  minSigned (this_min * Other_min)
    [this_min * Other_max, this_max * Other_min, this_max * Other_max]

/-- The largest product of two signed bounds at twice the width. -/
def maxProduct (A B : ConstantRange w) : BitVec (w * 2) :=
  let this_min := A.getSignedMin.signExtend (w * 2)
  let this_max := A.getSignedMax.signExtend (w * 2)
  let Other_min := B.getSignedMin.signExtend (w * 2)
  let Other_max := B.getSignedMax.signExtend (w * 2)
  maxSigned (this_min * Other_min)
    [this_min * Other_max, this_max * Other_min, this_max * Other_max]

theorem toInt_mul_signExtend (hw : 0 < w) (x y : BitVec w) :
    (x.signExtend (w * 2) * y.signExtend (w * 2)).toInt = x.toInt * y.toInt := by
  rw [BitVec.toInt_mul, BitVec.toInt_signExtend_of_le (by omega),
    BitVec.toInt_signExtend_of_le (by omega)]
  have hle := BitVec.toInt_mul_toInt_le (x := x) (y := y)
  have hge := BitVec.le_toInt_mul_toInt (x := x) (y := y)
  have hpow : (2 : Int) ^ (w * 2) = 2 ^ (w * 2 - 2) * 4 := by
    rw [show (4 : Int) = 2 ^ 2 from rfl, ← pow_add]
    congr 1
    omega
  have hpos : (0 : Int) < 2 ^ (w * 2 - 2) := Int.pow_pos (by omega)
  refine Int.bmod_eq_of_le_mul_two ?_ ?_
  · push_cast
    omega
  · push_cast
    omega

theorem toInt_minProduct (hw : 0 < w) (A B : ConstantRange w) :
    (minProduct A B).toInt = min (A.getSignedMax.toInt * B.getSignedMax.toInt)
        (min (A.getSignedMax.toInt * B.getSignedMin.toInt)
          (min (A.getSignedMin.toInt * B.getSignedMax.toInt)
            (A.getSignedMin.toInt * B.getSignedMin.toInt))) := by
  simp only [minProduct, minSigned, List.foldl_cons, List.foldl_nil, toInt_smin,
    toInt_mul_signExtend hw]

theorem toInt_maxProduct (hw : 0 < w) (A B : ConstantRange w) :
    (maxProduct A B).toInt = max (A.getSignedMax.toInt * B.getSignedMax.toInt)
        (max (A.getSignedMax.toInt * B.getSignedMin.toInt)
          (max (A.getSignedMin.toInt * B.getSignedMax.toInt)
            (A.getSignedMin.toInt * B.getSignedMin.toInt))) := by
  simp only [maxProduct, maxSigned, List.foldl_cons, List.foldl_nil, toInt_smax,
    toInt_mul_signExtend hw]

theorem minProduct_ne_maxProduct (A B : ConstantRange w) (hdouble : 0 < w * 2) :
    minProduct A B ≠ maxProduct A B + 1#(w * 2) := by
  have hw : 0 < w := Nat.pos_of_mul_pos_right hdouble
  have hmin := toInt_minProduct hw A B
  have hmax := toInt_maxProduct hw A B
  -- the products are at most a quarter of the values away from zero
  have hquarter : 2 ^ (w * 2) = 2 ^ (w * 2 - 2) * 4 := by
    rw [show 4 = 2 ^ 2 from rfl, ← pow_add]
    congr 1
    omega
  have hbounds (x y : BitVec w) :
      -((2 ^ (w * 2 - 2) : Nat) : Int) ≤ x.toInt * y.toInt ∧
        x.toInt * y.toInt ≤ ((2 ^ (w * 2 - 2) : Nat) : Int) := by
    exact ⟨BitVec.le_toInt_mul_toInt, BitVec.toInt_mul_toInt_le⟩
  have hll := hbounds A.getSignedMin B.getSignedMin
  have hlu := hbounds A.getSignedMin B.getSignedMax
  have hul := hbounds A.getSignedMax B.getSignedMin
  have huu := hbounds A.getSignedMax B.getSignedMax
  have hone := toNat_one hdouble
  have hadd := toNat_add_cases (maxProduct A B) 1#(w * 2)
  have hminCases := toInt_cases (minProduct A B)
  have hmaxCases := toInt_cases (maxProduct A B)
  intro heq
  have hnat := congrArg BitVec.toNat heq
  omega

/-- The range of the products at twice the width, with the members as signed values. -/
def signedProducts (A B : ConstantRange w) : ConstantRange (w * 2) :=
  ⟨minProduct A B, maxProduct A B + 1#(w * 2), valid_of_ne (minProduct_ne_maxProduct A B)⟩

def multiply (A B : ConstantRange w) : ConstantRange w :=
  if h : A.isEmptySet ∨ B.isEmptySet then empty w
  else
    let UR := (unsignedProducts A B h).truncate w
    if ¬ UR.isWrappedSet ∧ (¬ UR.upper.msb ∨ UR.upper = BitVec.intMin w) then UR
    else
      let SR := (signedProducts A B).truncate w
      if UR.isSizeStrictlySmallerThan SR then UR else SR

/-- The range of an operation that is monotone in both operands, from the bounds of the ranges. -/
def monotoneBounds (op : BitVec w → BitVec w → BitVec w)
    (getMin getMax : ConstantRange w → BitVec w) (A B : ConstantRange w) : ConstantRange w :=
  if A.isEmptySet ∨ B.isEmptySet then empty w
  else ofBoundsOrFull (op (getMin A) (getMin B)) (op (getMax A) (getMax B) + 1#w)

def smax : ConstantRange w → ConstantRange w → ConstantRange w :=
  monotoneBounds APInt.smax getSignedMin getSignedMax

def umax : ConstantRange w → ConstantRange w → ConstantRange w :=
  monotoneBounds APInt.umax getUnsignedMin getUnsignedMax

def smin : ConstantRange w → ConstantRange w → ConstantRange w :=
  monotoneBounds APInt.smin getSignedMin getSignedMax

def umin : ConstantRange w → ConstantRange w → ConstantRange w :=
  monotoneBounds APInt.umin getUnsignedMin getUnsignedMax

/-- The lowest member, or the lowest one but zero: `RHS_umin` of `udiv`. -/
def lowestDivisor (B : ConstantRange w) : BitVec w :=
  if B.getUnsignedMin = 0#w then if B.upper = 1#w then B.lower else 1#w else B.getUnsignedMin

def udiv (A B : ConstantRange w) : ConstantRange w :=
  if A.isEmptySet ∨ B.isEmptySet ∨ B.getUnsignedMax = 0#w then empty w
  else if B.isFullSet then full w
  else ofBoundsOrFull (A.getUnsignedMin / B.getUnsignedMax)
    (A.getUnsignedMax / lowestDivisor B + 1#w)

def binaryAnd (A B : ConstantRange w) : ConstantRange w :=
  if A.isEmptySet ∨ B.isEmptySet then empty w
  else
    let umin := APInt.umin B.getUnsignedMax A.getUnsignedMax
    if h : umin = BitVec.allOnes w then full w
    else ofBounds 0#w (umin + 1#w) (zero_ne_succ h)

def binaryOr (A B : ConstantRange w) : ConstantRange w :=
  if A.isEmptySet ∨ B.isEmptySet then empty w
  else
    let umax := APInt.umax A.getUnsignedMin B.getUnsignedMin
    if h : umax = 0#w then full w else ofBounds umax 0#w h

def shl (A B : ConstantRange w) : ConstantRange w :=
  if h : A.isEmptySet ∨ B.isEmptySet then empty w
  else if hover : countLeadingZeros A.getUnsignedMax ≤ B.getUnsignedMax.toNat then full w
  else ofBounds (APInt.shl A.getUnsignedMin B.getUnsignedMin)
    (APInt.shl A.getUnsignedMax B.getUnsignedMax + 1#w) (shl_bounds_ne h hover)

def lshr (A B : ConstantRange w) : ConstantRange w :=
  if A.isEmptySet ∨ B.isEmptySet then empty w
  else ofBoundsOrFull (APInt.lshr A.getUnsignedMin B.getUnsignedMax)
    (APInt.lshr A.getUnsignedMax B.getUnsignedMin + 1#w)

def ashr (A B : ConstantRange w) : ConstantRange w :=
  if A.isEmptySet ∨ B.isEmptySet then empty w
  else
    let posMax := APInt.ashr A.getSignedMax B.getUnsignedMin + 1#w
    let posMin := APInt.ashr A.getSignedMin B.getUnsignedMax
    let negMax := APInt.ashr A.getSignedMax B.getUnsignedMax + 1#w
    let negMin := APInt.ashr A.getSignedMin B.getUnsignedMin
    if ¬ A.getSignedMin.msb then ofBoundsOrFull posMin posMax
    else if A.getSignedMax.msb then ofBoundsOrFull negMin negMax
    else ofBoundsOrFull negMin posMax

section Soundness

variable {A B : ConstantRange w} {x y v : BitVec w}

theorem nonempty (hw : 0 < w) (hx : A.contains x) (hy : B.contains y) :
    ¬ (A.isEmptySet ∨ B.isEmptySet) :=
  not_or.mpr ⟨not_isEmptySet hw hx, not_isEmptySet hw hy⟩

theorem contains_iff_sub_lt {R : ConstantRange w} (hR : R.lower ≠ R.upper) :
    R.contains v ↔ (v - R.lower).toNat < (R.upper - R.lower).toNat := by
  have hsub := toNat_sub_cases v R.lower
  have hsize := toNat_sub_cases R.upper R.lower
  rw [contains_iff_of_ne hR]
  omega

theorem contains_sumBounds (hA : ¬ A.isFullSet) (hB : ¬ B.isFullSet) {i j : BitVec w}
    (hi : i.toNat < (A.upper - A.lower).toNat) (hj : j.toNat < (B.upper - B.lower).toNat)
    {newLower newUpper : BitVec w}
    (hsize : newUpper - newLower = (A.upper - A.lower) + (B.upper - B.lower) - 1#w)
    (hv : v - newLower = i + j) : (sumBounds A B newLower newUpper).contains v := by
  have hw : 0 < w := by
    by_contra hzero
    have hpow : 2 ^ w = 1 := by rw [Nat.eq_zero_of_not_pos hzero, pow_zero]
    omega
  unfold sumBounds
  by_cases heq : newLower = newUpper
  · rw [dif_pos heq]
    exact contains_full v
  · dsimp only
    split_ifs with hsmaller
    · exact contains_full v
    · have hX : ¬ (ofBounds newLower newUpper heq).isFullSet := fun hfull => heq hfull.1
      simp only [isSizeStrictlySmallerThan, if_neg hX, if_neg hA, if_neg hB, not_or,
        BitVec.lt_def] at hsmaller
      rw [contains_iff_sub_lt (R := ofBounds newLower newUpper heq) heq]
      simp only [ofBounds, hsize, hv] at hsmaller ⊢
      have hone := toNat_one hw
      have hadd := toNat_add_cases i j
      have hsum := toNat_add_cases (A.upper - A.lower) (B.upper - B.lower)
      have hsub := toNat_sub_cases ((A.upper - A.lower) + (B.upper - B.lower)) 1#w
      omega

theorem contains_add (hw : 0 < w) (hx : A.contains x) (hy : B.contains y) :
    (A.add B).contains (x + y) := by
  have hnonempty := nonempty hw hx hy
  unfold add
  split_ifs with hfull
  · exact contains_full _
  · rw [not_or] at hfull hnonempty
    have hA := lower_ne_upper hfull.1 hnonempty.1
    have hB := lower_ne_upper hfull.2 hnonempty.2
    refine contains_sumBounds hfull.1 hfull.2 ((contains_iff_sub_lt hA).mp hx)
      ((contains_iff_sub_lt hB).mp hy) ?_ ?_
    · abel
    · abel

theorem sub_one_sub_lt {R : ConstantRange w} (hR : R.lower ≠ R.upper) (h : R.contains v) :
    (R.upper - 1#w - v).toNat < (R.upper - R.lower).toNat := by
  have hlt := (contains_iff_sub_lt hR).mp h
  have hw : 0 < w := by
    by_contra hzero
    have hpow : 2 ^ w = 1 := by rw [Nat.eq_zero_of_not_pos hzero, pow_zero]
    omega
  have heq : R.upper - 1#w - v = R.upper - R.lower - 1#w - (v - R.lower) := by abel
  have hone := toNat_one hw
  have hsub := toNat_sub_cases (R.upper - R.lower) 1#w
  have hsub' := toNat_sub_cases (R.upper - R.lower - 1#w) (v - R.lower)
  rw [heq]
  omega

theorem contains_sub (hw : 0 < w) (hx : A.contains x) (hy : B.contains y) :
    (A.sub B).contains (x - y) := by
  have hnonempty := nonempty hw hx hy
  unfold sub
  split_ifs with hfull
  · exact contains_full _
  · rw [not_or] at hfull hnonempty
    have hA := lower_ne_upper hfull.1 hnonempty.1
    have hB := lower_ne_upper hfull.2 hnonempty.2
    refine contains_sumBounds hfull.1 hfull.2 ((contains_iff_sub_lt hA).mp hx)
      (sub_one_sub_lt hB hy) ?_ ?_
    · abel
    · abel

theorem contains_monotoneBounds (hw : 0 < w) (hx : A.contains x) (hy : B.contains y)
    {op : BitVec w → BitVec w → BitVec w} {f : Nat → Nat → Nat}
    (hop : ∀ a b, (op a b).toNat = f a.toNat b.toNat)
    (hf : ∀ a b c d, a ≤ c → b ≤ d → f a b ≤ f c d) :
    (monotoneBounds op getUnsignedMin getUnsignedMax A B).contains (op x y) := by
  unfold monotoneBounds
  rw [if_neg (nonempty hw hx hy)]
  refine contains_of_le hw ?_ ?_
  · rw [hop, hop]
    exact hf _ _ _ _ (getUnsignedMin_le hx) (getUnsignedMin_le hy)
  · rw [hop, hop]
    exact hf _ _ _ _ (le_getUnsignedMax hw hx) (le_getUnsignedMax hw hy)

theorem contains_monotoneBounds_signed (hw : 0 < w) (hx : A.contains x) (hy : B.contains y)
    {op : BitVec w → BitVec w → BitVec w} {f : Int → Int → Int}
    (hop : ∀ a b, (op a b).toInt = f a.toInt b.toInt)
    (hf : ∀ a b c d, a ≤ c → b ≤ d → f a b ≤ f c d) :
    (monotoneBounds op getSignedMin getSignedMax A B).contains (op x y) := by
  unfold monotoneBounds
  rw [if_neg (nonempty hw hx hy)]
  refine contains_of_sle hw ?_ ?_
  · rw [hop, hop]
    exact hf _ _ _ _ (getSignedMin_le hw hx) (getSignedMin_le hw hy)
  · rw [hop, hop]
    exact hf _ _ _ _ (le_getSignedMax hw hx) (le_getSignedMax hw hy)

theorem contains_binaryAnd (hw : 0 < w) (hx : A.contains x) (hy : B.contains y) :
    (A.binaryAnd B).contains (x &&& y) := by
  have hxmax := le_getUnsignedMax hw hx
  have hymax := le_getUnsignedMax hw hy
  have hxand : (x &&& y).toNat ≤ x.toNat := by
    exact and_le_left
  have hyand : (x &&& y).toNat ≤ y.toNat := by
    exact and_le_right
  unfold binaryAnd
  rw [if_neg (nonempty hw hx hy)]
  dsimp only
  split_ifs with hones
  · exact contains_full _
  · refine contains_ofBounds.mpr (between_of_le hw (.inl ⟨?_, ?_⟩) (zero_ne_succ hones))
    · exact Nat.zero_le _
    · rw [toNat_umin]
      omega

theorem contains_binaryOr (hw : 0 < w) (hx : A.contains x) (hy : B.contains y) :
    (A.binaryOr B).contains (x ||| y) := by
  have hxmin := getUnsignedMin_le hx
  have hymin := getUnsignedMin_le hy
  have hxor : x.toNat ≤ (x ||| y).toNat := by
    rw [BitVec.toNat_or]
    exact left_le_or
  have hyor : y.toNat ≤ (x ||| y).toNat := by
    exact right_le_or
  unfold binaryOr
  rw [if_neg (nonempty hw hx hy)]
  dsimp only
  split_ifs with hzero
  · exact contains_full _
  · refine contains_ofBounds_of_ne fun hne => ?_
    rw [toNat_umax, BitVec.toNat_zero] at hne ⊢
    omega

theorem toNat_pos_of_ne {y : BitVec w} (hne : y ≠ 0#w) : 0 < y.toNat :=
  Nat.pos_of_ne_zero fun hzero => hne (BitVec.eq_of_toNat_eq (hzero.trans BitVec.toNat_zero.symm))

theorem lowestDivisor_spec (hw : 0 < w) (hy : B.contains y) (hfull : ¬ B.isFullSet)
    (hne : y ≠ 0#w) : 0 < (lowestDivisor B).toNat ∧ (lowestDivisor B).toNat ≤ y.toNat := by
  have hypos := toNat_pos_of_ne hne
  unfold lowestDivisor
  split_ifs with hzero hone
  · have hcases := (contains_iff.mp hy).resolve_left hfull
    rw [hone, toNat_one hw] at hcases
    omega
  · rw [toNat_one hw]
    omega
  · exact ⟨toNat_pos_of_ne hzero, getUnsignedMin_le hy⟩

theorem contains_udiv (hw : 0 < w) (hx : A.contains x) (hy : B.contains y) (hne : y ≠ 0#w) :
    (A.udiv B).contains (x / y) := by
  have hypos := toNat_pos_of_ne hne
  have hymax := le_getUnsignedMax hw hy
  unfold udiv
  split_ifs with hempty hfull
  · rcases hempty with hA | hB | hzero
    · exact absurd hA (not_isEmptySet hw hx)
    · exact absurd hB (not_isEmptySet hw hy)
    · rw [hzero, BitVec.toNat_zero] at hymax
      omega
  · exact contains_full _
  · obtain ⟨hpos, hle⟩ := lowestDivisor_spec hw hy hfull hne
    refine contains_of_le hw ?_ ?_
    · exact Nat.div_le_div (getUnsignedMin_le hx) hymax (Nat.ne_of_gt hypos)
    · exact Nat.div_le_div (le_getUnsignedMax hw hx) hle (Nat.ne_of_gt hpos)

theorem contains_shl (hw : 0 < w) (hx : A.contains x) (hy : B.contains y) :
    (A.shl B).contains (x <<< y.toNat) := by
  have hxmin := getUnsignedMin_le hx
  have hxmax := le_getUnsignedMax hw hx
  have hymin := getUnsignedMin_le hy
  have hymax := le_getUnsignedMax hw hy
  unfold shl
  rw [dif_neg (nonempty hw hx hy)]
  split_ifs with hover
  · exact contains_full _
  · have hsize := size_le_size hxmax
    have hsize' := size_le_size (Nat.le_trans hxmin hxmax)
    unfold countLeadingZeros at hover
    have hshift : y.toNat < countLeadingZeros x := by
      unfold countLeadingZeros
      omega
    have hmin := toNat_shl_of_lt (x := A.getUnsignedMin) (s := B.getUnsignedMin) (by
      unfold countLeadingZeros
      omega)
    have hmax := toNat_shl_of_lt (x := A.getUnsignedMax) (s := B.getUnsignedMax) (by
      unfold countLeadingZeros
      omega)
    have hresult : x <<< y.toNat = APInt.shl x y := by
      rw [APInt.shl, toNat_getLimitedValue, Nat.min_eq_left (by omega)]
    refine contains_ofBounds.mpr (between_of_le hw (.inl ⟨?_, ?_⟩)
      (shl_bounds_ne (nonempty hw hx hy) hover))
    · rw [hresult, hmin.1, (toNat_shl_of_lt hshift).1]
      exact Nat.mul_le_mul hxmin (Nat.pow_le_pow_right Nat.two_pos hymin)
    · rw [hresult, hmax.1, (toNat_shl_of_lt hshift).1]
      exact Nat.mul_le_mul hxmax (Nat.pow_le_pow_right Nat.two_pos hymax)

theorem contains_lshr (hw : 0 < w) (hx : A.contains x) (hy : B.contains y) (hlt : y.toNat < w) :
    (A.lshr B).contains (x >>> y.toNat) := by
  have hymin := getUnsignedMin_le hy
  have hymax := le_getUnsignedMax hw hy
  unfold lshr
  rw [if_neg (nonempty hw hx hy)]
  refine contains_of_le hw ?_ ?_
  · rw [APInt.lshr, toNat_getLimitedValue, BitVec.toNat_ushiftRight, BitVec.toNat_ushiftRight,
      shiftRight_eq_div_pow, shiftRight_eq_div_pow]
    exact Nat.div_le_div (getUnsignedMin_le hx) (Nat.pow_le_pow_right Nat.two_pos (by omega))
      (Nat.ne_of_gt (Nat.two_pow_pos _))
  · rw [APInt.lshr, toNat_getLimitedValue, BitVec.toNat_ushiftRight, BitVec.toNat_ushiftRight,
      shiftRight_eq_div_pow, shiftRight_eq_div_pow]
    exact Nat.div_le_div (le_getUnsignedMax hw hx) (Nat.pow_le_pow_right Nat.two_pos (by omega))
      (Nat.ne_of_gt (Nat.two_pow_pos _))

theorem shiftRight_mono {a b : Int} (hab : a ≤ b) (k : Nat) : a >>> k ≤ b >>> k := by
  rw [Int.shiftRight_eq_div_pow, Int.shiftRight_eq_div_pow]
  exact Int.ediv_le_ediv (Int.natCast_pos.mpr (Nat.two_pow_pos k)) hab

theorem shiftRight_nonneg_iff {a : Int} (k : Nat) : 0 ≤ a >>> k ↔ 0 ≤ a := by
  rw [Int.shiftRight_eq_div_pow]
  exact Int.ediv_nonneg_iff_of_pos (Int.natCast_pos.mpr (Nat.two_pow_pos k))

theorem shiftRight_le_shiftRight {b : Int} {k l : Nat} (hkl : k ≤ l) (hb : 0 ≤ b) :
    b >>> l ≤ b >>> k := by
  rw [← Nat.add_sub_cancel' hkl, Int.shiftRight_add, Int.shiftRight_eq_div_pow _ (l - k)]
  exact Int.ediv_le_self _ ((shiftRight_nonneg_iff k).mpr hb)

theorem shiftRight_le_shiftRight_of_neg {a : Int} {k l : Nat} (hkl : k ≤ l) (ha : a < 0) :
    a >>> k ≤ a >>> l := by
  have hneg : a >>> k < 0 := Int.not_le.mp fun hnonneg =>
    absurd ((shiftRight_nonneg_iff k).mp hnonneg) (Int.not_le.mpr ha)
  have hpos := Nat.two_pow_pos (l - k)
  rw [← Nat.add_sub_cancel' hkl, Int.shiftRight_add, Int.shiftRight_eq_div_pow _ (l - k)]
  refine Int.le_ediv_of_mul_le (Int.natCast_pos.mpr hpos) ?_
  have hone : (1 : Int) ≤ (2 ^ (l - k) : Nat) := Int.natCast_pos.mpr hpos
  have hmul := Int.mul_le_mul_of_nonpos_left (Int.le_of_lt hneg) hone
  rw [Int.mul_one] at hmul
  exact hmul

theorem contains_ashr (hw : 0 < w) (hx : A.contains x) (hy : B.contains y) (hlt : y.toNat < w) :
    (A.ashr B).contains (x.sshiftRight y.toNat) := by
  have hxmin := getSignedMin_le hw hx
  have hxmax := le_getSignedMax hw hx
  have hymin := getUnsignedMin_le hy
  have hymax := le_getUnsignedMax hw hy
  have hminShift : getLimitedValue B.getUnsignedMin w ≤ y.toNat := by
    rw [toNat_getLimitedValue]
    omega
  have hmaxShift : y.toNat ≤ getLimitedValue B.getUnsignedMax w := by
    rw [toNat_getLimitedValue]
    omega
  unfold ashr
  rw [if_neg (nonempty hw hx hy)]
  simp only [BitVec.msb_eq_toInt, decide_eq_true_iff, Int.not_lt]
  split_ifs with hnonneg hneg
  all_goals
    refine contains_of_sle hw ?_ ?_
    all_goals rw [APInt.ashr, BitVec.toInt_sshiftRight, BitVec.toInt_sshiftRight]
  · calc _ ≤ x.toInt >>> getLimitedValue B.getUnsignedMax w := shiftRight_mono hxmin _
      _ ≤ _ := shiftRight_le_shiftRight hmaxShift (by omega)
  · calc _ ≤ A.getSignedMax.toInt >>> y.toNat := shiftRight_mono hxmax _
      _ ≤ _ := shiftRight_le_shiftRight hminShift (by omega)
  · calc _ ≤ A.getSignedMin.toInt >>> y.toNat :=
          shiftRight_le_shiftRight_of_neg hminShift (by omega)
      _ ≤ _ := shiftRight_mono hxmin _
  · calc _ ≤ A.getSignedMax.toInt >>> y.toNat := shiftRight_mono hxmax _
      _ ≤ _ := shiftRight_le_shiftRight_of_neg hmaxShift hneg
  · calc _ ≤ A.getSignedMin.toInt >>> y.toNat :=
          shiftRight_le_shiftRight_of_neg hminShift (by omega)
      _ ≤ _ := shiftRight_mono hxmin _
  · calc _ ≤ A.getSignedMax.toInt >>> y.toNat := shiftRight_mono hxmax _
      _ ≤ _ := shiftRight_le_shiftRight hminShift (by omega)

theorem setWidth_mul_setWidth (x y : BitVec w) :
    (x.setWidth (w * 2) * y.setWidth (w * 2)).setWidth w = x * y := by
  rw [BitVec.setWidth_mul _ _ (by omega), BitVec.setWidth_setWidth_of_le _ (by omega),
    BitVec.setWidth_setWidth_of_le _ (by omega), BitVec.setWidth_eq, BitVec.setWidth_eq]

theorem setWidth_mul_signExtend (x y : BitVec w) :
    (x.signExtend (w * 2) * y.signExtend (w * 2)).setWidth w = x * y := by
  have hlow (z : BitVec w) : (z.signExtend (w * 2)).setWidth w = z := by
    refine BitVec.eq_of_getLsbD_eq fun i hi => ?_
    have hi' : i < w * 2 := by omega
    rw [BitVec.getLsbD_setWidth, BitVec.getLsbD_signExtend]
    simp only [hi, hi', decide_true, Bool.true_and, if_true]
  rw [BitVec.setWidth_mul _ _ (by omega), hlow, hlow]

theorem mul_mem_bounds {a b x : Int} (hax : a ≤ x) (hxb : x ≤ b) (y : Int) :
    min (a * y) (b * y) ≤ x * y ∧ x * y ≤ max (a * y) (b * y) := by
  rcases Int.le_total 0 y with hy | hy
  · have hleft := Int.mul_le_mul_of_nonneg_right hax hy
    have hright := Int.mul_le_mul_of_nonneg_right hxb hy
    omega
  · have hleft := Int.mul_le_mul_of_nonpos_right hax hy
    have hright := Int.mul_le_mul_of_nonpos_right hxb hy
    omega

theorem mul_mem_corners {a b c d x y : Int} (hax : a ≤ x) (hxb : x ≤ b) (hcy : c ≤ y)
    (hyd : y ≤ d) :
    min (b * d) (min (b * c) (min (a * d) (a * c))) ≤ x * y ∧
      x * y ≤ max (b * d) (max (b * c) (max (a * d) (a * c))) := by
  have hx := mul_mem_bounds hax hxb y
  have ha := mul_mem_bounds hcy hyd a
  have hb := mul_mem_bounds hcy hyd b
  rw [Int.mul_comm c, Int.mul_comm d, Int.mul_comm y] at ha hb
  omega

theorem contains_multiply (hw : 0 < w) (hx : A.contains x) (hy : B.contains y) :
    (A.multiply B).contains (x * y) := by
  have hnonempty := nonempty hw hx hy
  have hunsigned : (unsignedProducts A B hnonempty).contains
      (x.setWidth (w * 2) * y.setWidth (w * 2)) := by
    have hne := unsignedProducts_ne hnonempty (by omega)
    refine (contains_iff_of_ne hne).mpr (between_of_le (by omega) (.inl ⟨?_, ?_⟩) hne)
    · show (A.getUnsignedMin.setWidth (w * 2) * B.getUnsignedMin.setWidth (w * 2)).toNat ≤ _
      rw [toNat_mul_setWidth, toNat_mul_setWidth]
      exact Nat.mul_le_mul (getUnsignedMin_le hx) (getUnsignedMin_le hy)
    · rw [toNat_mul_setWidth, toNat_mul_setWidth]
      exact Nat.mul_le_mul (le_getUnsignedMax hw hx) (le_getUnsignedMax hw hy)
  have hsigned : (signedProducts A B).contains (x.signExtend (w * 2) * y.signExtend (w * 2)) := by
    have hne := minProduct_ne_maxProduct A B (by omega)
    have hcorners := mul_mem_corners (getSignedMin_le hw hx) (le_getSignedMax hw hx)
      (getSignedMin_le hw hy) (le_getSignedMax hw hy)
    refine (contains_iff_of_ne hne).mpr (between_of_le (by omega) (.inr ⟨?_, ?_⟩) hne)
    · show (minProduct A B).toInt ≤ _
      rw [toInt_mul_signExtend hw, toInt_minProduct hw]
      exact hcorners.1
    · rw [toInt_mul_signExtend hw, toInt_maxProduct hw]
      exact hcorners.2
  have hUR := contains_truncate (d := w) (by omega) hw hunsigned
  have hSR := contains_truncate (d := w) (by omega) hw hsigned
  rw [setWidth_mul_setWidth] at hUR
  rw [setWidth_mul_signExtend] at hSR
  unfold multiply
  dsimp only
  split_ifs
  · exact hUR
  · exact hUR
  · exact hSR

/-- The result of each operation on two members is in the range that the operation returns. -/
theorem arithmetic_sound (hw : 0 < w) (hx : A.contains x) (hy : B.contains y) :
    (A.add B).contains (x + y) ∧ (A.sub B).contains (x - y) ∧ (A.multiply B).contains (x * y) ∧
      (y ≠ 0#w → (A.udiv B).contains (x / y)) ∧
      (y.toNat < w → (A.shl B).contains (x <<< y.toNat) ∧ (A.lshr B).contains (x >>> y.toNat) ∧
        (A.ashr B).contains (x.sshiftRight y.toNat)) ∧
      (A.binaryAnd B).contains (x &&& y) ∧ (A.binaryOr B).contains (x ||| y) ∧
      (A.smax B).contains (APInt.smax x y) ∧ (A.umax B).contains (APInt.umax x y) ∧
      (A.smin B).contains (APInt.smin x y) ∧ (A.umin B).contains (APInt.umin x y) := by
  have hmin {α : Type} [LinearOrder α] (a b c d : α) (hac : a ≤ c) (hbd : b ≤ d) :
      min a b ≤ min c d := min_le_min hac hbd
  have hmax {α : Type} [LinearOrder α] (a b c d : α) (hac : a ≤ c) (hbd : b ≤ d) :
      max a b ≤ max c d := max_le_max hac hbd
  exact ⟨contains_add hw hx hy, contains_sub hw hx hy, contains_multiply hw hx hy,
    contains_udiv hw hx hy,
    fun hlt => ⟨contains_shl hw hx hy, contains_lshr hw hx hy hlt, contains_ashr hw hx hy hlt⟩,
    contains_binaryAnd hw hx hy, contains_binaryOr hw hx hy,
    contains_monotoneBounds_signed hw hx hy toInt_smax hmax,
    contains_monotoneBounds hw hx hy toNat_umax hmax,
    contains_monotoneBounds_signed hw hx hy toInt_smin hmin,
    contains_monotoneBounds hw hx hy toNat_umin hmin⟩

/-- The values 15 and 3 are in a range that wraps around and in one that does not. -/
theorem arithmetic_sound_wrapped :
    ((ofBounds 14#4 3#4 (by decide)).multiply (ofBounds 2#4 5#4 (by decide))).contains
        (15#4 * 3#4) ∧
      ((ofBounds 14#4 3#4 (by decide)).ashr (ofBounds 2#4 5#4 (by decide))).contains
        (BitVec.sshiftRight 15#4 3) := by
  have hx : (ofBounds 14#4 3#4 (by decide)).contains 15#4 := by decide
  have hy : (ofBounds 2#4 5#4 (by decide)).contains 3#4 := by decide
  obtain ⟨_, _, hmultiply, _, hshifts, _⟩ := arithmetic_sound (by decide) hx hy
  exact ⟨hmultiply, (hshifts (by decide)).2.2⟩

end Soundness

end Zapcc.ConstantRange
