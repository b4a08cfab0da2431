import Zapcc.IR.RangeArithmetic

/-!
# Regions of compares

The allowed region of a compare holds the values that it is true for with some member of a range,
the satisfying region those that it is true for with every member. The bounds of a range that is
not empty are members of it, so that both regions are exact, and so is the compare that stands
for a range (`icmpRegions_exact`).
-/

namespace Zapcc.ConstantRange

open WrapAround APInt

variable {w : Nat}

/-- The predicates of an integer compare. -/
inductive Predicate
  | eq
  | ne
  | ugt
  | uge
  | ult
  | ule
  | sgt
  | sge
  | slt
  | sle
  deriving DecidableEq, Repr

/-- What a compare says about its operands. -/
def Predicate.holds : Predicate → BitVec w → BitVec w → Prop
  | eq, x, y => x = y
  | ne, x, y => x ≠ y
  | ugt, x, y => y.toNat < x.toNat
  | uge, x, y => y.toNat ≤ x.toNat
  | ult, x, y => x.toNat < y.toNat
  | ule, x, y => x.toNat ≤ y.toNat
  | sgt, x, y => y.toInt < x.toInt
  | sge, x, y => y.toInt ≤ x.toInt
  | slt, x, y => x.toInt < y.toInt
  | sle, x, y => x.toInt ≤ y.toInt

/-- The predicate that is true when another one is false. -/
def Predicate.getInversePredicate : Predicate → Predicate
  | eq => ne
  | ne => eq
  | ugt => ule
  | ult => uge
  | uge => ult
  | ule => ugt
  | sgt => sle
  | slt => sge
  | sge => slt
  | sle => sgt

variable {p : Predicate} {x : BitVec w}

theorem Predicate.holds_getInversePredicate {y : BitVec w} :
    p.getInversePredicate.holds x y ↔ ¬ p.holds x y := by
  cases p <;> simp [getInversePredicate, holds]

/-- Whether a range has one member. -/
def isSingleElement (R : ConstantRange w) : Prop := R.upper = R.lower + 1#w

instance (R : ConstantRange w) : Decidable R.isSingleElement := inferInstanceAs (Decidable (_ = _))

/-- The only member of a range. -/
def getSingleElement (R : ConstantRange w) : Option (BitVec w) :=
  if R.isSingleElement then some R.lower else none

/-- The only value that is not in a range. -/
def getSingleMissingElement (R : ConstantRange w) : Option (BitVec w) :=
  if R.lower = R.upper + 1#w then some R.upper else none

/-- The values that are not in a range. -/
def inverse (R : ConstantRange w) : ConstantRange w :=
  if hfull : R.isFullSet then empty w
  else if hempty : R.isEmptySet then full w
  else ofBounds R.upper R.lower (lower_ne_upper hfull hempty).symm

theorem succ_ne_intMin (h : x ≠ BitVec.intMax w) : x + 1#w ≠ BitVec.intMin w := by
  intro heq
  rw [← BitVec.intMax_add_one] at heq
  exact h ((BitVec.add_left_inj _).mp heq)

theorem ne_of_isSingleElement {R : ConstantRange w} (hempty : ¬ R.isEmptySet)
    (hsingle : R.isSingleElement) : R.upper ≠ R.lower := by
  intro heq
  rcases Nat.eq_zero_or_pos w with hzero | hpos
  · subst hzero
    exact hempty ⟨heq.symm, BitVec.eq_of_toNat_eq (by omega)⟩
  · have hadd := toNat_add_cases R.lower 1#w
    rw [← hsingle, heq, toNat_one hpos] at hadd
    have hpow := Nat.one_lt_two_pow (Nat.ne_of_gt hpos)
    omega

/-- The values that a compare is true for with some member of a range. -/
def makeAllowedICmpRegion (p : Predicate) (R : ConstantRange w) : ConstantRange w :=
  if hempty : R.isEmptySet then R
  else
    match p with
    | .eq => R
    | .ne =>
      if hsingle : R.isSingleElement then
        ofBounds R.upper R.lower (ne_of_isSingleElement hempty hsingle)
      else full w
    | .ult =>
      if hmin : R.getUnsignedMax = 0#w then empty w
      else ofBounds 0#w R.getUnsignedMax (Ne.symm hmin)
    | .slt =>
      if hmin : R.getSignedMax = BitVec.intMin w then empty w
      else ofBounds (BitVec.intMin w) R.getSignedMax (Ne.symm hmin)
    | .ule =>
      if hmax : R.getUnsignedMax = BitVec.allOnes w then full w
      else ofBounds 0#w (R.getUnsignedMax + 1#w) (zero_ne_succ hmax)
    | .sle =>
      if hmax : R.getSignedMax = BitVec.intMax w then full w
      else ofBounds (BitVec.intMin w) (R.getSignedMax + 1#w) (succ_ne_intMin hmax).symm
    | .ugt =>
      if hmax : R.getUnsignedMin = BitVec.allOnes w then empty w
      else ofBounds (R.getUnsignedMin + 1#w) 0#w (zero_ne_succ hmax).symm
    | .sgt =>
      if hmax : R.getSignedMin = BitVec.intMax w then empty w
      else ofBounds (R.getSignedMin + 1#w) (BitVec.intMin w) (succ_ne_intMin hmax)
    | .uge =>
      if hmin : R.getUnsignedMin = 0#w then full w
      else ofBounds R.getUnsignedMin 0#w hmin
    | .sge =>
      if hmin : R.getSignedMin = BitVec.intMin w then full w
      else ofBounds R.getSignedMin (BitVec.intMin w) hmin

/-- The values that a compare is true for with every member of a range. -/
def makeSatisfyingICmpRegion (p : Predicate) (R : ConstantRange w) : ConstantRange w :=
  (makeAllowedICmpRegion p.getInversePredicate R).inverse

/-- A compare with a constant that is true for the members of a range and for no other value. -/
def getEquivalentICmp (R : ConstantRange w) : Option (Predicate × BitVec w) :=
  if R.isFullSet ∨ R.isEmptySet then some (if R.isEmptySet then .ult else .uge, 0#w)
  else if let some OnlyElt := R.getSingleElement then some (.eq, OnlyElt)
  else if let some OnlyMissingElt := R.getSingleMissingElement then some (.ne, OnlyMissingElt)
  else if R.lower = BitVec.intMin w ∨ R.lower = 0#w then
    some (if R.lower = BitVec.intMin w then .slt else .ult, R.upper)
  else if R.upper = BitVec.intMin w ∨ R.upper = 0#w then
    some (if R.upper = BitVec.intMin w then .sge else .uge, R.lower)
  else none

section Bounds

variable {R : ConstantRange w} {v : BitVec w}

theorem contains_getUnsignedMax (hw : 0 < w) (h : ¬ R.isEmptySet) :
    R.contains R.getUnsignedMax := by
  by_cases hfull : R.isFullSet
  · exact contains_iff.mpr (.inl hfull)
  · have hne := lower_ne_upper hfull h
    have hnat : R.lower.toNat ≠ R.upper.toNat := fun heq => hne (BitVec.eq_of_toNat_eq heq)
    have hone := toNat_one hw
    have hsub := toNat_sub_cases R.upper 1#w
    have hones := toNat_allOnes_succ (w := w)
    rw [contains_iff_of_ne hne, getUnsignedMax]
    simp only [hfull, false_or, isWrappedSet, BitVec.lt_def]
    split_ifs <;> omega

theorem contains_getUnsignedMin (h : ¬ R.isEmptySet) : R.contains R.getUnsignedMin := by
  by_cases hfull : R.isFullSet
  · exact contains_iff.mpr (.inl hfull)
  · have hne := lower_ne_upper hfull h
    unfold getUnsignedMin
    split_ifs with hwrapped
    · obtain ⟨hwrapped, hzero⟩ := hwrapped.resolve_left hfull
      rw [isWrappedSet, BitVec.lt_def] at hwrapped
      have hpos := toNat_pos_of_ne hzero
      rw [contains_iff_of_ne hne, BitVec.toNat_zero]
      omega
    · exact contains_lower h

theorem contains_getSignedMax (hw : 0 < w) (h : ¬ R.isEmptySet) :
    R.contains R.getSignedMax := by
  by_cases hfull : R.isFullSet
  · exact contains_iff.mpr (.inl hfull)
  · have hne := lower_ne_upper hfull h
    have hnat : R.lower.toNat ≠ R.upper.toNat := fun heq => hne (BitVec.eq_of_toNat_eq heq)
    have hone := toNat_one hw
    have hsub := toNat_sub_cases R.upper 1#w
    have hmax : (BitVec.intMax w).toNat = 2 ^ (w - 1) - 1 := BitVec.toNat_intMax
    have hhalf := two_pow_eq_two_mul hw
    have hlower := toInt_cases R.lower
    have hupper := toInt_cases R.upper
    rw [contains_iff_of_ne hne, getSignedMax]
    simp only [hfull, false_or, BitVec.slt_iff_toInt_lt]
    split_ifs <;> omega

theorem contains_getSignedMin (hw : 0 < w) (h : ¬ R.isEmptySet) :
    R.contains R.getSignedMin := by
  by_cases hfull : R.isFullSet
  · exact contains_iff.mpr (.inl hfull)
  · have hne := lower_ne_upper hfull h
    unfold getSignedMin
    split_ifs with hwrapped
    · obtain ⟨hwrapped, hmin⟩ := hwrapped.resolve_left hfull
      rw [BitVec.slt_iff_toInt_lt] at hwrapped
      have hmin : R.upper.toNat ≠ (BitVec.intMin w).toNat := fun heq =>
        hmin (BitVec.eq_of_toNat_eq heq)
      have hhalf := two_pow_eq_two_mul hw
      have hlower := toInt_cases R.lower
      have hupper := toInt_cases R.upper
      rw [BitVec.toNat_intMin_of_pos hw] at hmin
      rw [contains_iff_of_ne hne, BitVec.toNat_intMin_of_pos hw]
      omega
    · exact contains_lower h

theorem contains_zero_upper {upper : BitVec w} {hne : 0#w ≠ upper} :
    (ofBounds 0#w upper hne).contains v ↔ v.toNat < upper.toNat := by
  rw [contains_ofBounds, BitVec.toNat_zero]
  omega

theorem contains_lower_zero {lower : BitVec w} {hne : lower ≠ 0#w} :
    (ofBounds lower 0#w hne).contains v ↔ lower.toNat ≤ v.toNat := by
  have hpos := toNat_pos_of_ne hne
  rw [contains_ofBounds, BitVec.toNat_zero]
  omega

theorem contains_intMin_upper (hw : 0 < w) {upper : BitVec w} {hne : BitVec.intMin w ≠ upper} :
    (ofBounds (BitVec.intMin w) upper hne).contains v ↔ v.toInt < upper.toInt := by
  have hnat : (BitVec.intMin w).toNat ≠ upper.toNat := fun heq => hne (BitVec.eq_of_toNat_eq heq)
  have hhalf := two_pow_eq_two_mul hw
  have hupper := toInt_cases upper
  have hv := toInt_cases v
  rw [contains_ofBounds]
  rw [BitVec.toNat_intMin_of_pos hw] at hnat ⊢
  omega

theorem contains_lower_intMin (hw : 0 < w) {lower : BitVec w} {hne : lower ≠ BitVec.intMin w} :
    (ofBounds lower (BitVec.intMin w) hne).contains v ↔ lower.toInt ≤ v.toInt := by
  have hnat : lower.toNat ≠ (BitVec.intMin w).toNat := fun heq => hne (BitVec.eq_of_toNat_eq heq)
  have hhalf := two_pow_eq_two_mul hw
  have hlower := toInt_cases lower
  have hv := toInt_cases v
  rw [contains_ofBounds]
  rw [BitVec.toNat_intMin_of_pos hw] at hnat ⊢
  omega

theorem contains_iff_of_isSingleElement (hw : 0 < w) (hsingle : R.isSingleElement) :
    R.contains v ↔ v = R.lower := by
  have hone := toNat_one hw
  have hadd := toNat_add_cases R.lower 1#w
  rw [← hsingle] at hadd
  have hne : R.lower ≠ R.upper := fun heq => by
    rw [heq] at hadd
    omega
  rw [contains_iff_of_ne hne, ← BitVec.toNat_inj]
  omega

theorem le_toInt_intMax (v : BitVec w) : v.toInt ≤ (BitVec.intMax w).toInt := by
  rw [BitVec.toInt_intMax]
  exact Int.le_sub_one_of_lt BitVec.toInt_lt

theorem exists_contains_ne (hw : 0 < w) (h : ¬ R.isEmptySet) (hsingle : ¬ R.isSingleElement)
    (x : BitVec w) : ∃ y, R.contains y ∧ x ≠ y := by
  by_cases hx : x = R.lower
  · refine ⟨R.lower + 1#w, ?_, fun heq => ?_⟩
    · by_cases hfull : R.isFullSet
      · exact contains_iff.mpr (.inl hfull)
      · have hne := lower_ne_upper hfull h
        have hnat : R.lower.toNat ≠ R.upper.toNat := fun heq => hne (BitVec.eq_of_toNat_eq heq)
        have hnat' : R.upper.toNat ≠ (R.lower + 1#w).toNat := fun heq =>
          hsingle (BitVec.eq_of_toNat_eq heq)
        have hone := toNat_one hw
        have hadd := toNat_add_cases R.lower 1#w
        rw [contains_iff_of_ne hne]
        omega
    · have hadd := toNat_add_cases R.lower 1#w
      rw [← heq, hx, toNat_one hw] at hadd
      have hpow := Nat.one_lt_two_pow (Nat.ne_of_gt hw)
      omega
  · exact ⟨R.lower, contains_lower h, hx⟩

theorem not_contains_empty (hw : 0 < w) : ¬ (empty w).contains v := fun h =>
  not_isEmptySet hw h ⟨rfl, rfl⟩

theorem contains_inverse (hw : 0 < w) : R.inverse.contains v ↔ ¬ R.contains v := by
  unfold inverse
  split_ifs with hfull hempty
  · exact iff_of_false (not_contains_empty hw) fun h => h (contains_iff.mpr (.inl hfull))
  · exact iff_of_true (contains_full v) fun h => not_isEmptySet hw h hempty
  · have hne := lower_ne_upper hfull hempty
    have hnat : R.lower.toNat ≠ R.upper.toNat := fun heq => hne (BitVec.eq_of_toNat_eq heq)
    rw [contains_ofBounds, contains_iff_of_ne hne]
    omega

theorem exists_holds_iff {b : BitVec w} (hb : R.contains b)
    (hext : ∀ y, R.contains y → p.holds v y → p.holds v b) :
    (∃ y, R.contains y ∧ p.holds v y) ↔ p.holds v b :=
  ⟨fun ⟨y, hy, hp⟩ => hext y hy hp, fun hp => ⟨b, hb, hp⟩⟩

theorem toNat_succ (hw : 0 < w) (h : x ≠ BitVec.allOnes w) :
    (x + 1#w).toNat = x.toNat + 1 := by
  have hlt := BitVec.lt_allOnes_iff.mpr h
  have hadd := toNat_add_cases x 1#w
  rw [BitVec.lt_def] at hlt
  rw [toNat_one hw] at hadd
  omega

theorem toInt_succ (hw : 0 < w) (h : x ≠ BitVec.intMax w) :
    (x + 1#w).toInt = x.toInt + 1 := by
  have hnat : x.toNat ≠ (BitVec.intMax w).toNat := fun heq => h (BitVec.eq_of_toNat_eq heq)
  have hhalf := two_pow_eq_two_mul hw
  have hadd := toNat_add_cases x 1#w
  have hx := toInt_cases x
  have hsucc := toInt_cases (x + 1#w)
  rw [BitVec.toNat_intMax] at hnat
  rw [toNat_one hw] at hadd
  omega

theorem contains_makeAllowedICmpRegion (hw : 0 < w) (p : Predicate) :
    (makeAllowedICmpRegion p R).contains v ↔ ∃ y, R.contains y ∧ p.holds v y := by
  have hv := v.isLt
  have hones := toNat_allOnes_succ (w := w)
  unfold makeAllowedICmpRegion
  by_cases hempty : R.isEmptySet
  · rw [dif_pos hempty]
    exact iff_of_false (fun h => not_isEmptySet hw h hempty) fun ⟨y, hy, _⟩ =>
      not_isEmptySet hw hy hempty
  rw [dif_neg hempty]
  cases p with
  | eq =>
    show R.contains v ↔ ∃ y, R.contains y ∧ v = y
    simp
  | ne =>
    dsimp only
    split_ifs with hsingle
    · have hne := ne_of_isSingleElement hempty hsingle
      have hinverse : R.inverse = ofBounds R.upper R.lower hne := by
        rw [inverse, dif_neg fun hfull => hne hfull.1.symm, dif_neg hempty]
      rw [← hinverse, contains_inverse hw, contains_iff_of_isSingleElement hw hsingle]
      simp only [contains_iff_of_isSingleElement hw hsingle, exists_eq_left]
      rfl
    · exact iff_of_true (contains_full v) (exists_contains_ne hw hempty hsingle v)
  | ult =>
    rw [exists_holds_iff (contains_getUnsignedMax hw hempty) fun y hy hp =>
      Nat.lt_of_lt_of_le hp (le_getUnsignedMax hw hy)]
    simp only [Predicate.holds]
    split_ifs with hmin
    · rw [hmin, BitVec.toNat_zero]
      exact iff_of_false (not_contains_empty hw) (Nat.not_lt_zero _)
    · exact contains_zero_upper
  | ule =>
    rw [exists_holds_iff (contains_getUnsignedMax hw hempty) fun y hy hp =>
      Nat.le_trans hp (le_getUnsignedMax hw hy)]
    simp only [Predicate.holds]
    split_ifs with hmax
    · rw [hmax]
      exact iff_of_true (contains_full v) (by omega)
    · rw [contains_zero_upper, toNat_succ hw hmax, Nat.lt_succ_iff]
  | ugt =>
    rw [exists_holds_iff (contains_getUnsignedMin hempty) fun y hy hp =>
      Nat.lt_of_le_of_lt (getUnsignedMin_le hy) hp]
    simp only [Predicate.holds]
    split_ifs with hmax
    · rw [hmax]
      exact iff_of_false (not_contains_empty hw) (by omega)
    · rw [contains_lower_zero, toNat_succ hw hmax, Nat.succ_le_iff]
  | uge =>
    rw [exists_holds_iff (contains_getUnsignedMin hempty) fun y hy hp =>
      Nat.le_trans (getUnsignedMin_le hy) hp]
    simp only [Predicate.holds]
    split_ifs with hmin
    · rw [hmin, BitVec.toNat_zero]
      exact iff_of_true (contains_full v) (Nat.zero_le _)
    · exact contains_lower_zero
  | slt =>
    rw [exists_holds_iff (contains_getSignedMax hw hempty) fun y hy hp =>
      Int.lt_of_lt_of_le hp (le_getSignedMax hw hy)]
    simp only [Predicate.holds]
    split_ifs with hmin
    · rw [hmin]
      exact iff_of_false (not_contains_empty hw) (Int.not_lt.mpr (BitVec.toInt_intMin_le v))
    · exact contains_intMin_upper hw
  | sle =>
    rw [exists_holds_iff (contains_getSignedMax hw hempty) fun y hy hp =>
      Int.le_trans hp (le_getSignedMax hw hy)]
    simp only [Predicate.holds]
    split_ifs with hmax
    · rw [hmax]
      exact iff_of_true (contains_full v) (le_toInt_intMax v)
    · rw [contains_intMin_upper hw, toInt_succ hw hmax, Int.lt_add_one_iff]
  | sgt =>
    rw [exists_holds_iff (contains_getSignedMin hw hempty) fun y hy hp =>
      Int.lt_of_le_of_lt (getSignedMin_le hw hy) hp]
    simp only [Predicate.holds]
    split_ifs with hmax
    · rw [hmax]
      exact iff_of_false (not_contains_empty hw) (Int.not_lt.mpr (le_toInt_intMax v))
    · rw [contains_lower_intMin hw, toInt_succ hw hmax, Int.add_one_le_iff]
  | sge =>
    rw [exists_holds_iff (contains_getSignedMin hw hempty) fun y hy hp =>
      Int.le_trans (getSignedMin_le hw hy) hp]
    simp only [Predicate.holds]
    split_ifs with hmin
    · rw [hmin]
      exact iff_of_true (contains_full v) (BitVec.toInt_intMin_le v)
    · exact contains_lower_intMin hw

theorem contains_makeSatisfyingICmpRegion (hw : 0 < w) (p : Predicate) :
    (makeSatisfyingICmpRegion p R).contains v ↔ ∀ y, R.contains y → p.holds v y := by
  rw [makeSatisfyingICmpRegion, contains_inverse hw, contains_makeAllowedICmpRegion hw]
  simp only [Predicate.holds_getInversePredicate, not_exists, not_and, not_not]

theorem contains_iff_getEquivalentICmp (hw : 0 < w) {c : BitVec w}
    (h : R.getEquivalentICmp = some (p, c)) : R.contains v ↔ p.holds v c := by
  unfold getEquivalentICmp getSingleElement getSingleMissingElement at h
  by_cases hall : R.isFullSet ∨ R.isEmptySet
  · rw [if_pos hall] at h
    cases h
    by_cases hempty : R.isEmptySet
    · rw [if_pos hempty]
      exact iff_of_false (fun hv => not_isEmptySet hw hv hempty) (Nat.not_lt_zero _)
    · rw [if_neg hempty]
      exact iff_of_true (contains_iff.mpr (.inl (hall.resolve_right hempty))) (Nat.zero_le _)
  rw [if_neg hall] at h
  rw [not_or] at hall
  have hne := lower_ne_upper hall.1 hall.2
  by_cases hsingle : R.isSingleElement
  · rw [if_pos hsingle] at h
    cases h
    exact contains_iff_of_isSingleElement hw hsingle
  rw [if_neg hsingle] at h
  by_cases hmissing : R.lower = R.upper + 1#w
  · rw [if_pos hmissing] at h
    cases h
    have hinverse : R.inverse.isSingleElement := by
      rw [inverse, dif_neg hall.1, dif_neg hall.2]
      exact hmissing
    have hlower : R.inverse.lower = R.upper := by
      rw [inverse, dif_neg hall.1, dif_neg hall.2]
      rfl
    have hiff := contains_iff_of_isSingleElement (v := v) hw hinverse
    rw [contains_inverse hw, hlower] at hiff
    exact not_iff_comm.mp hiff |>.symm
  obtain ⟨lower, upper, hvalid⟩ := R
  split_ifs at h with hfirst hmin hlast hmin
  all_goals cases h
  · subst hmin
    exact @contains_intMin_upper w v hw _ hne
  · obtain rfl := hfirst.resolve_left hmin
    exact @contains_zero_upper w v _ hne
  · subst hmin
    exact @contains_lower_intMin w v hw _ hne
  · obtain rfl := hlast.resolve_left hmin
    exact @contains_lower_zero w v _ hne

/-- The regions of compares and the compares that stand for a range are exact. -/
theorem icmpRegions_exact (hw : 0 < w) (R : ConstantRange w) :
    (∀ p v, (makeSatisfyingICmpRegion p R).contains v ↔ ∀ y, R.contains y → p.holds v y) ∧
      (∀ p v, (makeAllowedICmpRegion p R).contains v ↔ ∃ y, R.contains y ∧ p.holds v y) ∧
      ∀ p c, R.getEquivalentICmp = some (p, c) → ∀ v, R.contains v ↔ p.holds v c :=
  ⟨fun p _ => contains_makeSatisfyingICmpRegion hw p,
    fun p _ => contains_makeAllowedICmpRegion hw p,
    fun _ _ h _ => contains_iff_getEquivalentICmp hw h⟩

/-- The values below all members of a range that does not wrap around. -/
theorem icmpRegions_exact_ult :
    (makeSatisfyingICmpRegion .ult (ofBounds 3#3 6#3 (by decide))).contains 2#3 ↔
      ∀ y, (ofBounds 3#3 6#3 (by decide)).contains y → Predicate.ult.holds 2#3 y :=
  (icmpRegions_exact (by decide) _).1 .ult 2#3

end Bounds

end Zapcc.ConstantRange
