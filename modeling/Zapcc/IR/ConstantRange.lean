import Zapcc.Support.APIntValue

/-!
# Constant ranges

A range holds the values from `lower` up to `upper`, which may wrap around. When both are equal it
is full or empty, and then both are the largest or the smallest value. The bounds of a range are
the bounds of its members, as unsigned and as signed values.
-/

namespace Zapcc

open WrapAround

/-- A set of values of `w` bits. -/
structure ConstantRange (w : Nat) where
  lower : BitVec w
  upper : BitVec w
  valid : lower = upper → lower = BitVec.allOnes w ∨ lower = 0#w

namespace ConstantRange

variable {w : Nat}

def full (w : Nat) : ConstantRange w := ⟨BitVec.allOnes w, BitVec.allOnes w, fun _ => .inl rfl⟩

def empty (w : Nat) : ConstantRange w := ⟨0#w, 0#w, fun _ => .inr rfl⟩

/-- The values between two different bounds. -/
def ofBounds (lower upper : BitVec w) (h : lower ≠ upper) : ConstantRange w :=
  ⟨lower, upper, fun heq => absurd heq h⟩

/-- The values between two bounds, and all values if the bounds are equal. -/
def ofBoundsOrFull (lower upper : BitVec w) : ConstantRange w :=
  if h : lower = upper then full w else ofBounds lower upper h

variable (R : ConstantRange w)

def isFullSet : Prop := R.lower = R.upper ∧ R.lower = BitVec.allOnes w

def isEmptySet : Prop := R.lower = R.upper ∧ R.lower = 0#w

def isWrappedSet : Prop := R.upper < R.lower

instance : Decidable R.isFullSet := inferInstanceAs (Decidable (_ ∧ _))

instance : Decidable R.isEmptySet := inferInstanceAs (Decidable (_ ∧ _))

instance : Decidable R.isWrappedSet := inferInstanceAs (Decidable (_ < _))

/-- Whether a value is in the range. -/
def contains (v : BitVec w) : Prop :=
  if R.lower = R.upper then R.isFullSet
  else if ¬ R.isWrappedSet then R.lower ≤ v ∧ v < R.upper
  else R.lower ≤ v ∨ v < R.upper

instance (v : BitVec w) : Decidable (R.contains v) := by
  unfold contains
  infer_instance

/-- Whether a range has all values of another one. -/
def containsRange (Other : ConstantRange w) : Prop :=
  if R.isFullSet ∨ Other.isEmptySet then True
  else if R.isEmptySet ∨ Other.isFullSet then False
  else if ¬ R.isWrappedSet then
    if Other.isWrappedSet then False else R.lower ≤ Other.lower ∧ Other.upper ≤ R.upper
  else if ¬ Other.isWrappedSet then Other.upper ≤ R.upper ∨ R.lower ≤ Other.lower
  else Other.upper ≤ R.upper ∧ R.lower ≤ Other.lower

instance (Other : ConstantRange w) : Decidable (R.containsRange Other) := by
  unfold containsRange
  infer_instance

/-- Whether a range has less values than another one. -/
def isSizeStrictlySmallerThan (other : ConstantRange w) : Prop :=
  if R.isFullSet then False
  else if other.isFullSet then True
  else R.upper - R.lower < other.upper - other.lower

instance (other : ConstantRange w) : Decidable (R.isSizeStrictlySmallerThan other) := by
  unfold isSizeStrictlySmallerThan
  infer_instance

def getUnsignedMax : BitVec w :=
  if R.isFullSet ∨ R.isWrappedSet then BitVec.allOnes w else R.upper - 1#w

def getUnsignedMin : BitVec w :=
  if R.isFullSet ∨ R.isWrappedSet ∧ R.upper ≠ 0#w then 0#w else R.lower

def getSignedMax : BitVec w :=
  if R.isFullSet ∨ R.upper.slt R.lower then BitVec.intMax w else R.upper - 1#w

def getSignedMin : BitVec w :=
  if R.isFullSet ∨ R.upper.slt R.lower ∧ R.upper ≠ BitVec.intMin w then BitVec.intMin w
  else R.lower

variable {R}

theorem lower_ne_upper (hfull : ¬ R.isFullSet) (hempty : ¬ R.isEmptySet) : R.lower ≠ R.upper := by
  intro heq
  rcases R.valid heq with hmax | hmin
  · exact hfull ⟨heq, hmax⟩
  · exact hempty ⟨heq, hmin⟩

theorem contains_iff {v : BitVec w} :
    R.contains v ↔ R.isFullSet ∨
      R.lower.toNat < R.upper.toNat ∧ R.lower.toNat ≤ v.toNat ∧ v.toNat < R.upper.toNat ∨
      R.upper.toNat < R.lower.toNat ∧ (R.lower.toNat ≤ v.toNat ∨ v.toNat < R.upper.toNat) := by
  unfold contains
  by_cases heq : R.lower = R.upper
  · have hnat := congrArg BitVec.toNat heq
    rw [if_pos heq]
    exact ⟨.inl, fun h => h.resolve_right (by omega)⟩
  · have hfull : ¬ R.isFullSet := fun h => heq h.1
    rw [if_neg heq, or_iff_right hfull]
    simp only [isWrappedSet, BitVec.lt_def, BitVec.le_def]
    split_ifs <;> omega

theorem contains_full (v : BitVec w) : (full w).contains v := contains_iff.mpr (.inl ⟨rfl, rfl⟩)

theorem not_isEmptySet (hw : 0 < w) {v : BitVec w} (h : R.contains v) : ¬ R.isEmptySet := by
  intro hempty
  obtain ⟨heq, hzero⟩ := hempty
  rw [contains, if_pos heq] at h
  have hones := toNat_allOnes_succ (w := w)
  rw [← h.2, hzero, BitVec.toNat_zero] at hones
  have hpow := Nat.one_lt_two_pow (by omega : w ≠ 0)
  omega

theorem contains_lower (h : ¬ R.isEmptySet) : R.contains R.lower := by
  rw [contains_iff]
  by_cases hfull : R.isFullSet
  · exact .inl hfull
  · have hne : R.lower.toNat ≠ R.upper.toNat :=
      fun heq => lower_ne_upper hfull h (BitVec.eq_of_toNat_eq heq)
    omega

theorem contains_ofBounds {lower upper v : BitVec w} {hne : lower ≠ upper} :
    (ofBounds lower upper hne).contains v ↔
      lower.toNat < upper.toNat ∧ lower.toNat ≤ v.toNat ∧ v.toNat < upper.toNat ∨
      upper.toNat < lower.toNat ∧ (lower.toNat ≤ v.toNat ∨ v.toNat < upper.toNat) := by
  have hfull : ¬ (ofBounds lower upper hne).isFullSet := fun h => hne h.1
  rw [contains_iff, or_iff_right hfull]
  rfl

theorem contains_ofBoundsOrFull {lower upper v : BitVec w} :
    (ofBoundsOrFull lower upper).contains v ↔ lower = upper ∨
      lower.toNat < upper.toNat ∧ lower.toNat ≤ v.toNat ∧ v.toNat < upper.toNat ∨
      upper.toNat < lower.toNat ∧ (lower.toNat ≤ v.toNat ∨ v.toNat < upper.toNat) := by
  unfold ofBoundsOrFull
  split_ifs with heq
  · exact iff_of_true (contains_full v) (.inl heq)
  · rw [contains_ofBounds, or_iff_right heq]

variable {lower last v : BitVec w}

/-- A value from `lower` to `last`, signed or not, is between `lower` and the bound behind
`last`. -/
theorem between_of_le (hw : 0 < w) (h : lower.toNat ≤ v.toNat ∧ v.toNat ≤ last.toNat ∨
      lower.toInt ≤ v.toInt ∧ v.toInt ≤ last.toInt) (hne : lower ≠ last + 1#w) :
    lower.toNat < (last + 1#w).toNat ∧ lower.toNat ≤ v.toNat ∧ v.toNat < (last + 1#w).toNat ∨
      (last + 1#w).toNat < lower.toNat ∧
        (lower.toNat ≤ v.toNat ∨ v.toNat < (last + 1#w).toNat) := by
  have hone := toNat_one hw
  have hadd := toNat_add_cases last 1#w
  have hlower := toInt_cases lower
  have hlast := toInt_cases last
  have hv := toInt_cases v
  have hnat : lower.toNat ≠ (last + 1#w).toNat := fun h => hne (BitVec.eq_of_toNat_eq h)
  omega

theorem contains_of_le (hw : 0 < w) (hlower : lower.toNat ≤ v.toNat)
    (hlast : v.toNat ≤ last.toNat) : (ofBoundsOrFull lower (last + 1#w)).contains v :=
  contains_ofBoundsOrFull.mpr
    (Classical.or_iff_not_imp_left.mpr (between_of_le hw (.inl ⟨hlower, hlast⟩)))

theorem contains_of_sle (hw : 0 < w) (hlower : lower.toInt ≤ v.toInt)
    (hlast : v.toInt ≤ last.toInt) : (ofBoundsOrFull lower (last + 1#w)).contains v :=
  contains_ofBoundsOrFull.mpr
    (Classical.or_iff_not_imp_left.mpr (between_of_le hw (.inr ⟨hlower, hlast⟩)))

theorem toNat_sub_one (hw : 0 < w) {x : BitVec w} (hpos : 0 < x.toNat) :
    (x - 1#w).toNat = x.toNat - 1 := by
  have hone := toNat_one hw
  have hsub := toNat_sub_cases x 1#w
  omega

theorem getUnsignedMin_le {v : BitVec w} (h : R.contains v) :
    R.getUnsignedMin.toNat ≤ v.toNat := by
  have hcases := contains_iff.mp h
  unfold getUnsignedMin
  split_ifs with hcond
  · exact Nat.zero_le _
  · rw [not_or, not_and_or, not_not, isWrappedSet, BitVec.lt_def] at hcond
    obtain ⟨hfull, hwrapped | hzero⟩ := hcond
    · have hrange := hcases.resolve_left hfull
      omega
    · have hrange := hcases.resolve_left hfull
      rw [hzero, BitVec.toNat_zero] at hrange
      omega

theorem le_getUnsignedMax (hw : 0 < w) {v : BitVec w} (h : R.contains v) :
    v.toNat ≤ R.getUnsignedMax.toNat := by
  have hcases := contains_iff.mp h
  have hones := toNat_allOnes_succ (w := w)
  unfold getUnsignedMax
  split_ifs with hcond
  · omega
  · rw [not_or, isWrappedSet, BitVec.lt_def] at hcond
    have hrange := hcases.resolve_left hcond.1
    rw [toNat_sub_one hw (by omega)]
    omega

theorem getSignedMin_le (hw : 0 < w) {v : BitVec w} (h : R.contains v) :
    R.getSignedMin.toInt ≤ v.toInt := by
  have hcases := contains_iff.mp h
  have hlower := toInt_cases R.lower
  have hv := toInt_cases v
  unfold getSignedMin
  split_ifs with hcond
  · exact BitVec.toInt_intMin_le v
  · rw [not_or, not_and_or, not_not, BitVec.slt_iff_toInt_lt] at hcond
    obtain ⟨hfull, hwrapped | hmin⟩ := hcond
    · have hrange := hcases.resolve_left hfull
      have hupper := toInt_cases R.upper
      omega
    · have hrange := hcases.resolve_left hfull
      have hhalf := two_pow_eq_two_mul hw
      rw [hmin, BitVec.toNat_intMin_of_pos hw] at hrange
      omega

theorem le_getSignedMax (hw : 0 < w) {v : BitVec w} (h : R.contains v) :
    v.toInt ≤ R.getSignedMax.toInt := by
  have hcases := contains_iff.mp h
  have hv := toInt_cases v
  unfold getSignedMax
  split_ifs with hcond
  · rw [BitVec.toInt_intMax]
    exact Int.le_sub_one_of_lt BitVec.toInt_lt
  · rw [not_or, BitVec.slt_iff_toInt_lt] at hcond
    have hrange := hcases.resolve_left hcond.1
    have hlower := toInt_cases R.lower
    have hupper := toInt_cases R.upper
    have hlast := toInt_cases (R.upper - 1#w)
    have hone := toNat_one hw
    have hsub := toNat_sub_cases R.upper 1#w
    omega

theorem containsRange_iff {Other : ConstantRange w} :
    R.containsRange Other ↔ ∀ v, Other.contains v → R.contains v := by
  rcases Nat.eq_zero_or_pos w with rfl | hw
  · have hfull : R.isFullSet := ⟨Subsingleton.elim .., Subsingleton.elim ..⟩
    simp only [containsRange, hfull, true_or, if_true, true_iff]
    exact fun v _ => contains_iff.mpr (.inl hfull)
  by_cases hRfull : R.isFullSet
  · simp only [containsRange, hRfull, true_or, if_true, true_iff]
    exact fun v _ => contains_iff.mpr (.inl hRfull)
  by_cases hOempty : Other.isEmptySet
  · simp only [containsRange, hOempty, or_true, if_true, true_iff]
    exact fun v hv => absurd hOempty (not_isEmptySet hw hv)
  by_cases hRempty : R.isEmptySet
  · simp only [containsRange, hRfull, hOempty, hRempty, or_self, true_or, if_false, if_true,
      false_iff, not_forall]
    exact ⟨_, contains_lower hOempty, fun hv => not_isEmptySet hw hv hRempty⟩
  have hR := mt BitVec.eq_of_toNat_eq (lower_ne_upper hRfull hRempty)
  by_cases hOfull : Other.isFullSet
  · simp only [containsRange, hRfull, hOempty, hRempty, hOfull, or_self, or_true, if_false, if_true,
      false_iff, not_forall]
    refine ⟨R.upper, contains_iff.mpr (.inl hOfull), fun hv => ?_⟩
    have hupper := (contains_iff.mp hv).resolve_left hRfull
    omega
  have hO := mt BitVec.eq_of_toNat_eq (lower_ne_upper hOfull hOempty)
  simp only [containsRange, hRfull, hOempty, hRempty, hOfull, or_self, if_false, isWrappedSet,
    BitVec.lt_def, BitVec.le_def, contains_iff, false_or]
  constructor
  · intro h v hv
    split_ifs at h <;> omega
  · intro h
    -- the bounds of the ranges and the greatest value tell all cases apart
    have hlower := h Other.lower
    have hlast := h (Other.upper - 1#w)
    have hupper := h R.upper
    have hmax := h (BitVec.allOnes w)
    rw [BitVec.toNat_allOnes] at hmax
    have hone := toNat_one hw
    have hsub := toNat_sub_cases Other.upper 1#w
    have hbound := R.lower.isLt
    split_ifs <;> omega

end ConstantRange

end Zapcc
