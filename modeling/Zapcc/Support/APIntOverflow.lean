import Zapcc.Library.SignedFits
import Zapcc.Support.APSInt

/-!
# Arithmetic with overflow flags

The functions of `APInt` that tell whether the mathematical result is representable.
`overflow_flags_exact` says that they do. A shift by the width or more sets the flag for each value,
also for zero.
-/

namespace Zapcc.APInt.Flagged

open SignedFits WrapAround Int

variable {w k : Nat}

def isNonNegative (x : BitVec w) : Bool := !x.msb

def isMinSignedValue (x : BitVec w) : Bool := x = BitVec.intMin w

def isAllOnesValue (x : BitVec w) : Bool := x = BitVec.allOnes w

/-- The number of ones above the highest zero. -/
def countLeadingOnes (x : BitVec w) : Nat := countLeadingZeros (~~~x)

/-- `operator<<`. The amount has a width of its own. -/
def shiftLeftBy (x : BitVec w) (ShAmt : BitVec k) : BitVec w := x <<< getLimitedValue ShAmt w

def sadd_ov (x RHS : BitVec w) : BitVec w × Bool :=
  let Res := x + RHS
  (Res, isNonNegative x = isNonNegative RHS ∧ isNonNegative Res ≠ isNonNegative x)

def uadd_ov (x RHS : BitVec w) : BitVec w × Bool :=
  let Res := x + RHS
  (Res, Res < RHS)

def ssub_ov (x RHS : BitVec w) : BitVec w × Bool :=
  let Res := x - RHS
  (Res, isNonNegative x ≠ isNonNegative RHS ∧ isNonNegative Res ≠ isNonNegative x)

def usub_ov (x RHS : BitVec w) : BitVec w × Bool :=
  let Res := x - RHS
  (Res, Res > x)

def sdiv_ov (x RHS : BitVec w) : Option (BitVec w × Bool) :=
  (sdiv x RHS).map fun Res => (Res, isMinSignedValue x ∧ isAllOnesValue RHS)

def smul_ov (x RHS : BitVec w) : Option (BitVec w × Bool) :=
  let Res := x * RHS
  if x ≠ 0#w ∧ RHS ≠ 0#w then do
    let left ← sdiv Res RHS
    let right ← sdiv Res x
    some (Res, left ≠ x ∨ right ≠ RHS)
  else some (Res, false)

def umul_ov (x RHS : BitVec w) : Option (BitVec w × Bool) :=
  let Res := x * RHS
  if x ≠ 0#w ∧ RHS ≠ 0#w then do
    let left ← udiv Res RHS
    let right ← udiv Res x
    some (Res, left ≠ x ∨ right ≠ RHS)
  else some (Res, false)

def sshl_ov (x : BitVec w) (ShAmt : BitVec k) : BitVec w × Bool :=
  if w ≤ ShAmt.toNat then (0#w, true)
  else if isNonNegative x then (shiftLeftBy x ShAmt, countLeadingZeros x ≤ ShAmt.toNat)
  else (shiftLeftBy x ShAmt, countLeadingOnes x ≤ ShAmt.toNat)

def ushl_ov (x : BitVec w) (ShAmt : BitVec k) : BitVec w × Bool :=
  if w ≤ ShAmt.toNat then (0#w, true)
  else (shiftLeftBy x ShAmt, countLeadingZeros x < ShAmt.toNat)

/-- The result is that of the mathematical operation modulo the width, and the flag tells whether
that is not a signed value. -/
def SignedExact (result : BitVec w × Bool) (value : Int) : Prop :=
  result.1 = BitVec.ofInt w value ∧ (result.2 = true ↔ ¬Fits w value)

def UnsignedExact (result : BitVec w × Bool) (value : Int) : Prop :=
  result.1 = BitVec.ofInt w value ∧ (result.2 = true ↔ ¬(0 ≤ value ∧ value < 2 ^ w))

theorem cast_two_pow : ((2 ^ w : Nat) : Int) = 2 ^ w := by
  rw [Nat.cast_pow, Nat.cast_ofNat]

theorem isNonNegative_iff (x : BitVec w) : isNonNegative x = decide (0 ≤ x.toInt) := by
  rw [isNonNegative, BitVec.msb_eq_toInt, ← decide_not, decide_eq_decide, not_lt]

theorem sadd_ov_spec (x y : BitVec w) : SignedExact (sadd_ov x y) (x.toInt + y.toInt) := by
  refine ⟨?_, ?_⟩
  · rw [BitVec.ofInt_add, BitVec.ofInt_toInt, BitVec.ofInt_toInt]
    rfl
  · have hx := toInt_cases x
    have hy := toInt_cases y
    have hsum := toInt_cases (x + y)
    have hadd := toNat_add_cases x y
    simp only [sadd_ov, isNonNegative_iff, decide_eq_true_eq, decide_eq_decide, ne_eq]
    have hpow := @cast_two_pow w
    unfold Fits
    omega

/-- A difference has overflowed when the operands differ in sign and the difference has not the sign
of the first. -/
theorem ssub_ov_spec (x y : BitVec w) : SignedExact (ssub_ov x y) (x.toInt - y.toInt) := by
  refine ⟨?_, ?_⟩
  · rw [sub_eq_add_neg, BitVec.ofInt_add, BitVec.ofInt_neg, BitVec.ofInt_toInt, BitVec.ofInt_toInt,
      ← BitVec.sub_eq_add_neg]
    rfl
  · have hx := toInt_cases x
    have hy := toInt_cases y
    have hdiff := toInt_cases (x - y)
    have hsub := toNat_sub_cases x y
    simp only [ssub_ov, isNonNegative_iff, decide_eq_true_eq, decide_eq_decide, ne_eq]
    have hpow := @cast_two_pow w
    unfold Fits
    omega

theorem uadd_ov_spec (x y : BitVec w) : UnsignedExact (uadd_ov x y) (x.toNat + y.toNat) := by
  refine ⟨?_, ?_⟩
  · rfl
  · simp only [uadd_ov, decide_eq_true_eq]
    have hpow := @cast_two_pow w
    rw [BitVec.lt_def, BitVec.toNat_add, add_mod_lt x.isLt y.isLt]
    omega

theorem usub_ov_spec (x y : BitVec w) : UnsignedExact (usub_ov x y) (x.toNat - y.toNat) := by
  refine ⟨?_, ?_⟩
  · rw [sub_eq_add_neg, BitVec.ofInt_add, BitVec.ofInt_neg, BitVec.ofInt_natCast,
      BitVec.ofInt_natCast, BitVec.ofNat_toNat, BitVec.ofNat_toNat, BitVec.setWidth_eq,
      BitVec.setWidth_eq, ← BitVec.sub_eq_add_neg]
    rfl
  · have hsub := toNat_sub_cases x y
    simp only [usub_ov, decide_eq_true_eq, gt_iff_lt]
    have hpow := @cast_two_pow w
    rw [BitVec.lt_def]
    omega

theorem fits_tdiv_iff (hw : 0 < w) (x y : BitVec w) :
    Fits w (x.toInt.tdiv y.toInt) ↔ ¬(x = BitVec.intMin w ∧ y = BitVec.allOnes w) := by
  constructor
  · rintro hfits ⟨rfl, rfl⟩
    have hpow := pow_succ (2 : Int) (w - 1)
    rw [Nat.sub_add_cancel hw] at hpow
    rw [BitVec.toInt_intMin_of_pos hw, BitVec.toInt_allOnes, if_pos hw, Int.tdiv_neg, Int.tdiv_one]
      at hfits
    unfold Fits at hfits
    omega
  · intro h
    rw [← BitVec.toInt_sdiv_of_ne_or_ne x y]
    · exact fits_toInt _
    · rwa [BitVec.neg_one_eq_allOnes, ← not_and_or]

theorem sdiv_ov_spec (hw : 0 < w) (x : BitVec w) {y : BitVec w} (hy : y ≠ 0#w) :
    ∃ result, sdiv_ov x y = some result ∧ SignedExact result (x.toInt.tdiv y.toInt) := by
  refine ⟨_, congrArg (Option.map _) (sdiv_eq x hy), ?_, ?_⟩
  · refine BitVec.eq_of_toInt_eq ?_
    rw [BitVec.toInt_sdiv, BitVec.toInt_ofInt]
  · simp only [isMinSignedValue, isAllOnesValue, decide_eq_true_eq]
    rw [fits_tdiv_iff hw, not_not]

theorem umul_ov_spec (x y : BitVec w) :
    ∃ result, umul_ov x y = some result ∧ UnsignedExact result (x.toNat * y.toNat) := by
  have hvalue : x * y = BitVec.ofInt w (x.toNat * y.toNat) := by
    rw [BitVec.ofInt_mul, BitVec.ofInt_natCast, BitVec.ofInt_natCast, BitVec.ofNat_toNat,
      BitVec.ofNat_toNat, BitVec.setWidth_eq, BitVec.setWidth_eq]
  unfold umul_ov
  split
  · next hne =>
    have hleft : x * y / y ≠ x ↔ 2 ^ w ≤ x.toNat * y.toNat := by
      rw [ne_eq, ← BitVec.toNat_inj, BitVec.toNat_udiv, BitVec.toNat_mul]
      exact mul_mod_div_ne (toNat_pos hne.2) x.isLt
    have hright : x * y / x ≠ y ↔ 2 ^ w ≤ x.toNat * y.toNat := by
      rw [ne_eq, ← BitVec.toNat_inj, BitVec.toNat_udiv, BitVec.toNat_mul, Nat.mul_comm]
      exact mul_mod_div_ne (toNat_pos hne.1) y.isLt
    dsimp only
    rw [udiv_eq _ hne.2, udiv_eq _ hne.1]
    refine ⟨_, rfl, hvalue, ?_⟩
    rw [decide_eq_true_eq, hleft, hright, or_self]
    zify
    omega
  · next hzero =>
    refine ⟨_, rfl, hvalue, iff_of_false Bool.false_ne_true (not_not.mpr ?_)⟩
    have hproduct : (x.toNat : Int) * y.toNat = 0 := by
      rw [← not_or, not_not] at hzero
      rcases hzero with rfl | rfl <;> simp
    have hpos : (0 : Int) < 2 ^ w := Int.pow_pos (by decide)
    omega

theorem mul_sdiv_cancel {x y : BitVec w} (hfits : Fits w (x.toInt * y.toInt)) (hy : y ≠ 0#w) :
    (x * y).sdiv y = x := by
  refine BitVec.eq_of_toInt_eq ?_
  rw [BitVec.toInt_sdiv, toInt_mul hfits, mul_tdiv_cancel _ (toInt_ne_zero hy),
    bmod_of_fits (fits_toInt x)]

theorem fits_of_mul_sdiv {x y : BitVec w} (hback : (x * y).sdiv y = x) (hy : y ≠ 0#w)
    (hquotient : ¬(x * y = BitVec.intMin w ∧ y = BitVec.allOnes w)) :
    Fits w (x.toInt * y.toInt) := by
  have hdiv : (x * y).toInt.tdiv y.toInt = x.toInt := by
    rw [← BitVec.toInt_sdiv_of_ne_or_ne (x * y) y, hback]
    rwa [BitVec.neg_one_eq_allOnes, ← not_and_or]
  have hsplit := mul_tdiv_add_tmod (x * y).toInt y.toInt
  rw [hdiv, Int.mul_comm] at hsplit
  have hdvd : ((2 ^ w : Nat) : Int) ∣ (x * y).toInt.tmod y.toInt := by
    have hself := dvd_self_sub_bmod (x := x.toInt * y.toInt) (m := 2 ^ w)
    rw [← BitVec.toInt_mul] at hself
    rw [show (x * y).toInt.tmod y.toInt = -(x.toInt * y.toInt - (x * y).toInt) by omega]
    exact (Int.dvd_neg).mpr hself
  have hsmall : ((x * y).toInt.tmod y.toInt).natAbs < 2 ^ w := by
    rw [natAbs_tmod]
    have hpos : 0 < y.toInt.natAbs := Int.natAbs_pos.mpr (toInt_ne_zero hy)
    have hybound := fits_toInt y
    have hpow := @cast_two_pow w
    refine (Nat.mod_lt _ hpos).trans ?_
    unfold Fits at hybound
    omega
  have hzero : (x * y).toInt.tmod y.toInt = 0 := eq_zero_of_dvd_of_natAbs_lt_natAbs hdvd hsmall
  rw [hzero, Int.add_zero] at hsplit
  rw [hsplit]
  exact fits_toInt _

theorem allOnes_mul_self_ne_intMin (hw : 1 < w) :
    BitVec.allOnes w * BitVec.allOnes w ≠ BitVec.intMin w := fun heq => by
  have hone : (BitVec.allOnes w).toInt = -1 := by rw [BitVec.toInt_allOnes, if_pos (by omega)]
  have htwo : (2 : Int) ^ 2 ≤ 2 ^ w := pow_le_pow_right₀ (by decide) hw
  have hproduct := congrArg BitVec.toInt heq
  rw [toInt_mul (by rw [hone]; unfold Fits; omega), hone,
    BitVec.toInt_intMin_of_pos (by omega)] at hproduct
  have hpos : (0 : Int) < 2 ^ (w - 1) := Int.pow_pos (by decide)
  omega

theorem smul_ov_spec (x y : BitVec w) (hw : 1 < w ∨ x = 0#w ∨ y = 0#w) :
    ∃ result, smul_ov x y = some result ∧ SignedExact result (x.toInt * y.toInt) := by
  have hvalue : x * y = BitVec.ofInt w (x.toInt * y.toInt) := by
    rw [BitVec.ofInt_mul, BitVec.ofInt_toInt, BitVec.ofInt_toInt]
  unfold smul_ov
  split
  · next hne =>
    dsimp only
    rw [sdiv_eq _ hne.2, sdiv_eq _ hne.1]
    refine ⟨_, rfl, hvalue, ?_⟩
    rw [decide_eq_true_eq, ← not_and_or, not_iff_not]
    constructor
    · rintro ⟨hleft, hright⟩
      by_cases hcorner : x * y = BitVec.intMin w ∧ y = BitVec.allOnes w
      · rw [BitVec.mul_comm] at hright
        rw [Int.mul_comm]
        refine fits_of_mul_sdiv hright hne.1 fun hother => ?_
        have hproduct := hcorner.1
        rw [hother.2, hcorner.2] at hproduct
        exact allOnes_mul_self_ne_intMin (hw.resolve_right (not_or.mpr hne)) hproduct
      · exact fits_of_mul_sdiv hleft hne.2 hcorner
    · intro hfits
      refine ⟨mul_sdiv_cancel hfits hne.2, ?_⟩
      rw [BitVec.mul_comm]
      exact mul_sdiv_cancel (by rwa [Int.mul_comm]) hne.1
  · next hzero =>
    refine ⟨_, rfl, hvalue, iff_of_false Bool.false_ne_true (not_not.mpr ?_)⟩
    have hproduct : x.toInt * y.toInt = 0 := by
      rw [← not_or, not_not] at hzero
      rcases hzero with rfl | rfl <;> simp
    rw [hproduct]
    exact Fits.zero

theorem ofInt_two_pow (n : Nat) : BitVec.ofInt w (2 ^ n) = BitVec.twoPow w n := by
  rw [← @cast_two_pow n, BitVec.ofInt_natCast]
  refine BitVec.eq_of_toNat_eq ?_
  rw [BitVec.toNat_ofNat, BitVec.toNat_twoPow]

theorem shiftLeft_eq_ofInt {x : BitVec w} {value : Int} (hx : BitVec.ofInt w value = x) (n : Nat) :
    x <<< n = BitVec.ofInt w (value * 2 ^ n) := by
  rw [BitVec.shiftLeft_eq_mul_twoPow, BitVec.ofInt_mul, ofInt_two_pow, hx]

theorem shiftLeftBy_eq (x : BitVec w) {ShAmt : BitVec k} (h : ShAmt.toNat < w) :
    shiftLeftBy x ShAmt = x <<< ShAmt.toNat := by
  rw [shiftLeftBy, getLimitedValue, if_neg (by omega)]

theorem lt_two_pow_sub_iff {v n : Nat} (hn : n ≤ w) : v < 2 ^ (w - n) ↔ v * 2 ^ n < 2 ^ w := by
  rw [← Nat.mul_lt_mul_right (Nat.two_pow_pos n), ← pow_add, Nat.sub_add_cancel hn]

theorem succ_mul_two_pow_le_iff {v n : Nat} (hn : n ≤ w) :
    v < 2 ^ (w - n) ↔ (v + 1) * 2 ^ n ≤ 2 ^ w := by
  rw [← Nat.succ_le_iff, ← Nat.mul_le_mul_right_iff (Nat.two_pow_pos n), ← pow_add,
    Nat.sub_add_cancel hn]

theorem countLeadingZeros_lt_iff (x : BitVec w) {n : Nat} (hn : n ≤ w) :
    countLeadingZeros x < n ↔ ¬x.toNat < 2 ^ (w - n) := by
  have hsize : Nat.size x.toNat ≤ w := Nat.size_le.mpr x.isLt
  rw [← Nat.size_le, countLeadingZeros]
  omega

theorem ushl_ov_spec (x : BitVec w) (ShAmt : BitVec k) :
    (ushl_ov x ShAmt).1 = BitVec.ofInt w (x.toNat * 2 ^ ShAmt.toNat) ∧
      ((ushl_ov x ShAmt).2 = true ↔ w ≤ ShAmt.toNat ∨
        ¬(x.toNat : Int) * 2 ^ ShAmt.toNat < 2 ^ w) := by
  have hvalue := shiftLeft_eq_ofInt (show BitVec.ofInt w x.toNat = x by simp) ShAmt.toNat
  unfold ushl_ov
  split
  · next hlarge =>
    rw [BitVec.shiftLeft_eq_zero hlarge] at hvalue
    exact ⟨hvalue, iff_of_true rfl (.inl hlarge)⟩
  · next hsmall =>
    have hlt := not_le.mp hsmall
    refine ⟨(shiftLeftBy_eq x hlt).trans hvalue, ?_⟩
    rw [or_iff_right hsmall, decide_eq_true_eq, countLeadingZeros_lt_iff x hlt.le,
      lt_two_pow_sub_iff hlt.le]
    zify

theorem sshl_ov_spec (x : BitVec w) (ShAmt : BitVec k) :
    (sshl_ov x ShAmt).1 = BitVec.ofInt w (x.toInt * 2 ^ ShAmt.toNat) ∧
      ((sshl_ov x ShAmt).2 = true ↔ w ≤ ShAmt.toNat ∨ ¬Fits w (x.toInt * 2 ^ ShAmt.toNat)) := by
  have hvalue := shiftLeft_eq_ofInt (BitVec.ofInt_toInt (x := x)) ShAmt.toNat
  unfold sshl_ov
  split
  · next hlarge =>
    rw [BitVec.shiftLeft_eq_zero hlarge] at hvalue
    exact ⟨hvalue, iff_of_true rfl (.inl hlarge)⟩
  · next hsmall =>
    have hlt := not_le.mp hsmall
    have hpos : (0 : Int) < 2 ^ ShAmt.toNat := Int.pow_pos (by decide)
    rw [isNonNegative_iff, or_iff_right hsmall]
    split
    · next hsign =>
      have hnonneg := of_decide_eq_true hsign
      have htoInt : x.toInt = x.toNat := by
        have hx := toInt_cases x
        omega
      refine ⟨(shiftLeftBy_eq x hlt).trans hvalue, ?_⟩
      rw [decide_eq_true_eq, ← Nat.lt_succ_iff, countLeadingZeros_lt_iff x hlt,
        lt_two_pow_sub_iff hlt, htoInt, pow_succ, ← Nat.mul_assoc]
      have hproduct : (0 : Int) ≤ x.toNat * 2 ^ ShAmt.toNat :=
        Int.mul_nonneg (natCast_nonneg _) hpos.le
      zify
      unfold Fits
      omega
    · next hsign =>
      have hneg := not_le.mp (of_decide_eq_false (Bool.not_eq_true _ |>.mp hsign))
      refine ⟨(shiftLeftBy_eq x hlt).trans hvalue, ?_⟩
      rw [decide_eq_true_eq, countLeadingOnes, ← Nat.lt_succ_iff, countLeadingZeros_lt_iff _ hlt,
        succ_mul_two_pow_le_iff hlt, pow_succ, ← Nat.mul_assoc]
      have hnot : (((~~~x).toNat + 1 : Nat) : Int) = -x.toInt := by
        have hx := toInt_cases x
        rw [BitVec.toNat_not]
        omega
      have hproduct : x.toInt * 2 ^ ShAmt.toNat < 0 := Int.mul_neg_of_neg_of_pos hneg hpos
      rw [← ofNat_le, Nat.cast_mul, Nat.cast_mul, hnot, neg_mul, neg_mul, cast_two_pow,
        cast_two_pow]
      unfold Fits
      omega

/-- What the functions tell about all results. A shift by the width or more counts as an overflow,
and a signed product in a single bit is left open. -/
structure TellsOverflow (x RHS : BitVec w) (ShAmt : BitVec k) : Prop where
  sadd : SignedExact (sadd_ov x RHS) (x.toInt + RHS.toInt)
  uadd : UnsignedExact (uadd_ov x RHS) (x.toNat + RHS.toNat)
  ssub : SignedExact (ssub_ov x RHS) (x.toInt - RHS.toInt)
  usub : UnsignedExact (usub_ov x RHS) (x.toNat - RHS.toNat)
  sdiv : RHS ≠ 0#w →
    ∃ result, sdiv_ov x RHS = some result ∧ SignedExact result (x.toInt.tdiv RHS.toInt)
  smul : 1 < w ∨ x = 0#w ∨ RHS = 0#w →
    ∃ result, smul_ov x RHS = some result ∧ SignedExact result (x.toInt * RHS.toInt)
  umul : ∃ result, umul_ov x RHS = some result ∧ UnsignedExact result (x.toNat * RHS.toNat)
  sshl : (sshl_ov x ShAmt).1 = BitVec.ofInt w (x.toInt * 2 ^ ShAmt.toNat) ∧
    ((sshl_ov x ShAmt).2 = true ↔ w ≤ ShAmt.toNat ∨ ¬Fits w (x.toInt * 2 ^ ShAmt.toNat))
  ushl : (ushl_ov x ShAmt).1 = BitVec.ofInt w (x.toNat * 2 ^ ShAmt.toNat) ∧
    ((ushl_ov x ShAmt).2 = true ↔ w ≤ ShAmt.toNat ∨ ¬(x.toNat : Int) * 2 ^ ShAmt.toNat < 2 ^ w)

/-- The flags are exact for each width and all operands. -/
theorem overflow_flags_exact (hw : 0 < w) (x RHS : BitVec w) (ShAmt : BitVec k) :
    TellsOverflow x RHS ShAmt where
  sadd := sadd_ov_spec x RHS
  uadd := uadd_ov_spec x RHS
  ssub := ssub_ov_spec x RHS
  usub := usub_ov_spec x RHS
  sdiv := sdiv_ov_spec hw x
  smul := smul_ov_spec x RHS
  umul := umul_ov_spec x RHS
  sshl := sshl_ov_spec x ShAmt
  ushl := ushl_ov_spec x ShAmt

/-- The signed minimum and minus one. -/
theorem overflow_flags_exact_minimum : TellsOverflow 0x80#8 0xFF#8 3#4 :=
  overflow_flags_exact (by decide) 0x80#8 0xFF#8 3#4

/-- Zero can be shifted by any amount, but the flag is set from the width on. -/
theorem sshl_ov_zero : ¬SignedExact (sshl_ov 0#8 8#8) ((0#8).toInt * 2 ^ (8#8).toNat) := fun h =>
  absurd (h.2.mp (by decide)) (not_not.mpr (by decide))

end Zapcc.APInt.Flagged
