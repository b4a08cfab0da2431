import Zapcc.IR.RangeTruncate

/-!
# Casts of constant ranges

A range of floating-point values stands for the integers that the values are. The casts that keep
or change the width of integers return ranges of the result width without losing a member
(`contains_zeroExtend`, `contains_signExtend`, `contains_truncate`). Some of the other casts return
a range of the source width, or one without the largest value: `castOp_sound_iff` says when a cast
is right.
-/

namespace Zapcc.ConstantRange

open WrapAround APInt Nat

variable {w : Nat}

inductive CastOps
  | Trunc
  | ZExt
  | SExt
  | FPToUI
  | FPToSI
  | UIToFP
  | SIToFP
  | FPTrunc
  | FPExt
  | PtrToInt
  | IntToPtr
  | BitCast
  | AddrSpaceCast
  deriving DecidableEq, Repr

/-- The widths of the source and the result that a cast allows. -/
def CastOps.castIsValid (SrcBitSize DstBitSize : Nat) : CastOps → Prop
  | Trunc | FPTrunc => DstBitSize < SrcBitSize
  | ZExt | SExt | FPExt => SrcBitSize < DstBitSize
  | BitCast => SrcBitSize = DstBitSize
  | _ => True

/-- A value with the highest bits set. -/
def getHighBitsSet (numBits hiBitsSet : Nat) : BitVec numBits :=
  getBitsSetFrom numBits (numBits - hiBitsSet)

/-- A value with the lowest bits set. -/
def getLowBitsSet (numBits loBitsSet : Nat) : BitVec numBits :=
  BitVec.ofNat numBits (2 ^ loBitsSet - 1)

/-- Whether a range has both the largest and the smallest signed value. -/
def isSignWrappedSet (R : ConstantRange w) : Prop :=
  R.contains (BitVec.intMax w) ∧ R.contains (BitVec.intMin w)

instance (R : ConstantRange w) : Decidable R.isSignWrappedSet :=
  inferInstanceAs (Decidable (_ ∧ _))

variable {r : Nat}

theorem toNat_twoPow (hwr : w < r) : (BitVec.twoPow r w).toNat = 2 ^ w := by
  rw [BitVec.toNat_twoPow, mod_eq_of_lt (Nat.pow_lt_pow_right (by decide) hwr)]

theorem toNat_setWidth_of_lt (hwr : w < r) (x : BitVec w) :
    (x.setWidth r).toNat = x.toNat := by
  have hpow := Nat.pow_lt_pow_right (a := 2) (by decide) hwr
  rw [BitVec.toNat_setWidth, mod_eq_of_lt (by omega)]

/-- The range of the values with zeros in front. -/
def zeroExtend (R : ConstantRange w) (DstTySize : Nat) (h : w < DstTySize) :
    ConstantRange DstTySize :=
  if hempty : R.isEmptySet then empty DstTySize
  else if hwraps : R.isFullSet ∨ R.isWrappedSet then
    -- a range that ends behind the largest value does not really wrap around
    let LowerExt := if R.upper = 0#w then R.lower.setWidth DstTySize else BitVec.ofNat DstTySize 0
    ofBounds LowerExt (BitVec.twoPow DstTySize w) fun heq => by
      have hnat := congrArg BitVec.toNat heq
      have hlt := R.lower.isLt
      rw [toNat_twoPow h] at hnat
      dsimp only [LowerExt] at hnat
      split_ifs at hnat
      · rw [toNat_setWidth_of_lt h] at hnat
        omega
      · rw [BitVec.toNat_zero] at hnat
        omega
  else
    ofBounds (R.lower.setWidth DstTySize) (R.upper.setWidth DstTySize) fun heq => by
      have hnat := congrArg BitVec.toNat heq
      rw [toNat_setWidth_of_lt h, toNat_setWidth_of_lt h] at hnat
      exact lower_ne_upper (fun hfull => hwraps (.inl hfull)) hempty (BitVec.eq_of_toNat_eq hnat)

theorem pos_of_not_isEmptySet {R : ConstantRange w} (h : ¬ R.isEmptySet) : 0 < w := by
  refine Nat.pos_of_ne_zero fun hzero => h ?_
  subst hzero
  exact ⟨BitVec.eq_of_toNat_eq (by omega), BitVec.eq_of_toNat_eq (by omega)⟩

theorem two_mul_pow_le (hwr : w < r) : 2 * 2 ^ w ≤ 2 ^ r := by
  rw [← Nat.pow_succ']
  exact Nat.pow_le_pow_right (by decide) hwr

theorem toInt_signExtend (hwr : w < r) (x : BitVec w) :
    (x.signExtend r).toInt = x.toInt := BitVec.toInt_signExtend_of_le (Nat.le_of_lt hwr)

theorem toInt_setWidth_of_lt (hwr : w < r) (x : BitVec w) :
    (x.setWidth r).toInt = x.toNat := by
  have hcases := toInt_cases (x.setWidth r)
  have hpow := two_mul_pow_le hwr
  rw [toNat_setWidth_of_lt hwr] at hcases
  omega

theorem toNat_getBitsSetFrom {r lo : Nat} (hlo : lo ≤ r) :
    (getBitsSetFrom r lo).toNat + 2 ^ lo = 2 ^ r := by
  have hand := toNat_and_getBitsSetFrom (BitVec.allOnes r) lo
  have hones := toNat_allOnes_succ (w := r)
  have hpow : 2 ^ r = 2 ^ lo * (2 ^ (r - lo) - 1) + 2 ^ lo := by
    rw [← mul_succ, succ_eq_add_one, Nat.sub_add_cancel (Nat.two_pow_pos _), ← pow_add,
      Nat.add_sub_cancel' hlo]
  have hpos := Nat.two_pow_pos lo
  have hdiv : (BitVec.allOnes r).toNat / 2 ^ lo = 2 ^ (r - lo) - 1 := by
    rw [show (BitVec.allOnes r).toNat = 2 ^ lo * (2 ^ (r - lo) - 1) + (2 ^ lo - 1) by omega,
      mul_add_div hpos, div_eq_of_lt (by omega), Nat.add_zero]
  rw [BitVec.allOnes_and, hdiv, Nat.mul_comm] at hand
  omega

theorem toInt_getHighBitsSet (hw : 0 < w) (hwr : w < r) :
    (getHighBitsSet r (r - w + 1)).toInt = -(2 ^ (w - 1) : Nat) := by
  have hhigh := toNat_getBitsSetFrom (show r - (r - w + 1) ≤ r by omega)
  have hpow := two_mul_pow_le hwr
  have hhalf := two_pow_eq_two_mul hw
  have hcases := toInt_cases (getBitsSetFrom r (r - (r - w + 1)))
  rw [show 2 ^ (r - (r - w + 1)) = 2 ^ (w - 1) by congr 1; omega] at hhigh
  rw [getHighBitsSet]
  omega

theorem toInt_getLowBitsSet_succ (hw : 0 < w) (hwr : w < r) :
    (getLowBitsSet r (w - 1) + 1#r).toInt = (2 ^ (w - 1) : Nat) := by
  have hpow := two_mul_pow_le hwr
  have hhalf := two_pow_eq_two_mul hw
  have hpos := Nat.two_pow_pos (w - 1)
  have hone := toNat_one (w := r) (by omega)
  have hadd := toNat_add_cases (getLowBitsSet r (w - 1)) 1#r
  have hcases := toInt_cases (getLowBitsSet r (w - 1) + 1#r)
  have hlow : (getLowBitsSet r (w - 1)).toNat = 2 ^ (w - 1) - 1 := by
    rw [getLowBitsSet, BitVec.toNat_ofNat, mod_eq_of_lt (by omega)]
  omega

theorem toInt_lt_half (hw : 0 < w) (x : BitVec w) :
    -(2 ^ (w - 1) : Nat) ≤ x.toInt ∧ x.toInt < (2 ^ (w - 1) : Nat) := by
  have hcases := toInt_cases x
  have hhalf := two_pow_eq_two_mul hw
  omega

/-- The range of the values with copies of their sign in front. -/
def signExtend (R : ConstantRange w) (DstTySize : Nat) (h : w < DstTySize) :
    ConstantRange DstTySize :=
  if hempty : R.isEmptySet then empty DstTySize
  -- a range that ends behind the largest signed value does not really wrap around
  else if hmin : R.upper = BitVec.intMin w then
    ofBounds (R.lower.signExtend DstTySize) (R.upper.setWidth DstTySize) fun heq => by
      have hint := congrArg BitVec.toInt heq
      have hhalf := toInt_lt_half (pos_of_not_isEmptySet hempty) R.lower
      rw [toInt_signExtend h, toInt_setWidth_of_lt h, hmin,
        BitVec.toNat_intMin_of_pos (pos_of_not_isEmptySet hempty)] at hint
      omega
  else if hwraps : R.isFullSet ∨ R.isSignWrappedSet then
    ofBounds (getHighBitsSet DstTySize (DstTySize - w + 1))
      (getLowBitsSet DstTySize (w - 1) + BitVec.ofNat DstTySize 1) fun heq => by
        have hint := congrArg BitVec.toInt heq
        have hw := pos_of_not_isEmptySet hempty
        have hpos := Nat.two_pow_pos (w - 1)
        rw [toInt_getHighBitsSet hw h, toInt_getLowBitsSet_succ hw h] at hint
        omega
  else
    ofBounds (R.lower.signExtend DstTySize) (R.upper.signExtend DstTySize) fun heq => by
      have hint := congrArg BitVec.toInt heq
      rw [toInt_signExtend h, toInt_signExtend h] at hint
      exact lower_ne_upper (fun hfull => hwraps (.inl hfull)) hempty (BitVec.eq_of_toInt_eq hint)

theorem contains_ofBounds_signed {lower upper v : BitVec w} {hne : lower ≠ upper} :
    (ofBounds lower upper hne).contains v ↔
      lower.toInt < upper.toInt ∧ lower.toInt ≤ v.toInt ∧ v.toInt < upper.toInt ∨
      upper.toInt < lower.toInt ∧ (lower.toInt ≤ v.toInt ∨ v.toInt < upper.toInt) := by
  have hlower := toInt_cases lower
  have hupper := toInt_cases upper
  have hv := toInt_cases v
  rw [contains_ofBounds]
  omega

theorem contains_zeroExtend {R : ConstantRange w} (hwr : w < r) (hw : 0 < w)
    {v : BitVec w} (h : R.contains v) : (R.zeroExtend r hwr).contains (v.setWidth r) := by
  have hcases := contains_iff.mp h
  have hlt := v.isLt
  unfold zeroExtend
  split_ifs with hempty hwraps hzero
  · exact absurd hempty (not_isEmptySet hw h)
  · have hle : R.lower.toNat ≤ v.toNat := by
      rcases hcases with hfull | hrange
      · have hbounds := congrArg BitVec.toNat hfull.1
        rw [hzero, BitVec.toNat_zero] at hbounds
        omega
      · rw [hzero, BitVec.toNat_zero] at hrange
        omega
    rw [contains_ofBounds, if_pos hzero, toNat_setWidth_of_lt hwr, toNat_setWidth_of_lt hwr,
      toNat_twoPow hwr]
    omega
  · rw [contains_ofBounds, if_neg hzero, toNat_setWidth_of_lt hwr, toNat_twoPow hwr,
      BitVec.toNat_zero]
    omega
  · rw [not_or, isWrappedSet, BitVec.lt_def] at hwraps
    have hrange := hcases.resolve_left hwraps.1
    rw [contains_ofBounds, toNat_setWidth_of_lt hwr, toNat_setWidth_of_lt hwr,
      toNat_setWidth_of_lt hwr]
    omega

theorem contains_signExtend {R : ConstantRange w} (hwr : w < r) (hw : 0 < w)
    {v : BitVec w} (h : R.contains v) : (R.signExtend r hwr).contains (v.signExtend r) := by
  have hv := toInt_lt_half hw v
  unfold signExtend
  split_ifs with hempty hmin hwraps
  · exact absurd hempty (not_isEmptySet hw h)
  · have hle : R.lower.toInt ≤ v.toInt := by
      by_cases hfull : R.isFullSet
      · rw [hfull.1, hmin]
        exact BitVec.toInt_intMin_le v
      · have hmem : (ofBounds R.lower R.upper (lower_ne_upper hfull hempty)).contains v := h
        rw [contains_ofBounds_signed, hmin] at hmem
        have hbound := BitVec.toInt_intMin_le v
        omega
    rw [contains_ofBounds_signed, toInt_signExtend hwr, toInt_signExtend hwr,
      toInt_setWidth_of_lt hwr, hmin, BitVec.toNat_intMin_of_pos hw]
    omega
  · rw [contains_ofBounds_signed, toInt_signExtend hwr, toInt_getHighBitsSet hw hwr,
      toInt_getLowBitsSet_succ hw hwr]
    omega
  · rw [not_or] at hwraps
    have hne := lower_ne_upper hwraps.1 hempty
    have hmem : (ofBounds R.lower R.upper hne).contains v := h
    rw [contains_ofBounds_signed] at hmem ⊢
    rw [toInt_signExtend hwr, toInt_signExtend hwr, toInt_signExtend hwr]
    omega

theorem signExtend_bounds_eq (hwr : w ≤ r)
    (heq : (BitVec.intMin w).signExtend r = (BitVec.intMax w).signExtend r) :
    (BitVec.intMin w).signExtend r = 0#r := by
  have hint := congrArg BitVec.toInt heq
  rw [BitVec.toInt_signExtend_of_le hwr, BitVec.toInt_signExtend_of_le hwr] at hint
  rcases Nat.eq_zero_or_pos w with hzero | hpos
  · subst hzero
    rfl
  · rw [BitVec.toInt_intMin_of_pos hpos, BitVec.toInt_intMax] at hint
    omega

/-- The values of a width but the largest one, in a width that is not smaller. -/
def unsignedValues (w r : Nat) : ConstantRange r :=
  ⟨(0#w).setWidth r, (BitVec.allOnes w).setWidth r, fun _ => .inr (by simp)⟩

/-- The signed values of a width but the largest one, in a width that is not smaller. -/
def signedValues (w r : Nat) (h : w ≤ r) : ConstantRange r :=
  ⟨(BitVec.intMin w).signExtend r, (BitVec.intMax w).signExtend r,
    fun heq => .inr (signExtend_bounds_eq h heq)⟩

def castOp (R : ConstantRange w) (CastOp : CastOps) (ResultBitWidth : Nat)
    (h : CastOp.castIsValid w ResultBitWidth) : (BitWidth : Nat) × ConstantRange BitWidth :=
  match CastOp, h with
  | .Trunc, _ => ⟨_, R.truncate ResultBitWidth⟩
  | .SExt, h => ⟨_, R.signExtend ResultBitWidth h⟩
  | .ZExt, h => ⟨_, R.zeroExtend ResultBitWidth h⟩
  | .BitCast, _ => ⟨_, R⟩
  | .FPToUI, _ | .FPToSI, _ => if w = ResultBitWidth then ⟨_, R⟩ else ⟨_, full w⟩
  -- an extension to a smaller width keeps the width
  | .UIToFP, _ => ⟨_, unsignedValues w (max w ResultBitWidth)⟩
  | .SIToFP, _ => ⟨_, signedValues w (max w ResultBitWidth) (Nat.le_max_left _ _)⟩
  | .FPTrunc, _ | .FPExt, _ | .IntToPtr, _ | .PtrToInt, _ | .AddrSpaceCast, _ => ⟨_, full w⟩

/-- The cast of a value. A floating-point value stands for its integer. -/
def CastOps.apply (r : Nat) (v : BitVec w) : CastOps → BitVec r
  | SExt | FPToSI | SIToFP => v.signExtend r
  | _ => v.setWidth r

/-- Whether a cast returns a range of the result width with the cast of every member. -/
def CastIsSound (R : ConstantRange w) (CastOp : CastOps) (r : Nat) (h : CastOp.castIsValid w r) :
    Prop :=
  ∃ S : ConstantRange r, R.castOp CastOp r h = ⟨r, S⟩ ∧
    ∀ v, R.contains v → S.contains (CastOp.apply r v)

/-- When a cast is sound: when it is one of integers, or when it does not change the width, and
a cast to floating-point values also if it does not get the largest value. -/
def SoundCast (R : ConstantRange w) (r : Nat) : CastOps → Prop
  | .Trunc | .SExt | .ZExt | .BitCast => True
  | .FPToUI | .FPToSI | .IntToPtr | .PtrToInt | .AddrSpaceCast => w = r
  | .UIToFP => w ≤ r ∧ ¬ R.contains (BitVec.allOnes w)
  | .SIToFP => w ≤ r ∧ ¬ R.contains (BitVec.intMax w)
  | .FPTrunc | .FPExt => False

section Casts

variable {R : ConstantRange w} {CastOp : CastOps} {r : Nat} {h : CastOp.castIsValid w r}

theorem CastIsSound.width (hsound : CastIsSound R CastOp r h) : (R.castOp CastOp r h).1 = r := by
  obtain ⟨S, heq, _⟩ := hsound
  rw [heq]

theorem castIsSound_iff_of_eq {T : ConstantRange r} (heq : R.castOp CastOp r h = ⟨r, T⟩) :
    CastIsSound R CastOp r h ↔ ∀ v, R.contains v → T.contains (CastOp.apply r v) := by
  refine ⟨fun ⟨S, hS, hmem⟩ => ?_, fun hmem => ⟨T, heq, hmem⟩⟩
  rw [heq] at hS
  cases hS
  exact hmem

theorem contains_unsignedValues (hw : 0 < w) (hwr : w ≤ r) {v : BitVec w} :
    (unsignedValues w r).contains (v.setWidth r) ↔ v ≠ BitVec.allOnes w := by
  have hpow := Nat.pow_le_pow_right (n := 2) (by decide) hwr
  have htoNat (x : BitVec w) : (x.setWidth r).toNat = x.toNat := by
    rw [BitVec.toNat_setWidth, mod_eq_of_lt (by omega)]
  have hones := toNat_allOnes_succ (w := w)
  have htwo := Nat.one_lt_two_pow (Nat.ne_of_gt hw)
  have hne : (0#w).setWidth r ≠ (BitVec.allOnes w).setWidth r := fun heq => by
    have hnat := congrArg BitVec.toNat heq
    rw [htoNat, htoNat, BitVec.toNat_zero] at hnat
    omega
  have hbounds := @contains_ofBounds r _ _ (v.setWidth r) hne
  rw [htoNat, htoNat, htoNat, BitVec.toNat_zero] at hbounds
  rw [ne_eq, ← BitVec.toNat_inj]
  exact hbounds.trans (by omega)

theorem contains_signedValues (hw : 0 < w) (hwr : w ≤ r) {v : BitVec w} :
    (signedValues w r hwr).contains (v.signExtend r) ↔ v ≠ BitVec.intMax w := by
  have htoInt (x : BitVec w) : (x.signExtend r).toInt = x.toInt :=
    BitVec.toInt_signExtend_of_le hwr
  have hv := toInt_lt_half hw v
  have hne : (BitVec.intMin w).signExtend r ≠ (BitVec.intMax w).signExtend r := fun heq => by
    have hint := congrArg BitVec.toInt heq
    rw [htoInt, htoInt, BitVec.toInt_intMin_of_pos hw, BitVec.toInt_intMax] at hint
    omega
  have hbounds := @contains_ofBounds_signed r _ _ (v.signExtend r) hne
  rw [htoInt, htoInt, htoInt, BitVec.toInt_intMin_of_pos hw, BitVec.toInt_intMax] at hbounds
  rw [ne_eq, ← BitVec.toInt_inj, BitVec.toInt_intMax]
  push_cast at hv
  exact hbounds.trans (by omega)

/-- A cast is sound if and only if it is one of integers or does not change the width, and does
not get the largest value to convert to floating-point values. -/
theorem castOp_sound_iff (hw : 0 < w) (hr : 0 < r) :
    CastIsSound R CastOp r h ↔ SoundCast R r CastOp := by
  have hfull (hop : R.castOp CastOp r h = ⟨w, full w⟩) : CastIsSound R CastOp r h ↔ w = r := by
    refine ⟨fun hsound => ?_, fun heq => ?_⟩
    · rw [← hsound.width, hop]
    · subst heq
      exact (castIsSound_iff_of_eq hop).mpr fun v _ => contains_full _
  cases CastOp with
  | Trunc =>
    exact iff_of_true ((castIsSound_iff_of_eq rfl).mpr fun v hv => contains_truncate h hr hv)
      trivial
  | ZExt =>
    exact iff_of_true ((castIsSound_iff_of_eq rfl).mpr fun v hv => contains_zeroExtend h hw hv)
      trivial
  | SExt =>
    exact iff_of_true ((castIsSound_iff_of_eq rfl).mpr fun v hv => contains_signExtend h hw hv)
      trivial
  | BitCast =>
    obtain rfl : w = r := h
    refine iff_of_true ((castIsSound_iff_of_eq rfl).mpr fun v hv => ?_) trivial
    show R.contains (v.setWidth w)
    rwa [BitVec.setWidth_eq]
  | FPToUI =>
    by_cases heq : w = r
    · subst heq
      have hop : R.castOp .FPToUI w h = ⟨w, R⟩ := if_pos rfl
      refine iff_of_true ((castIsSound_iff_of_eq hop).mpr fun v hv => ?_) rfl
      show R.contains (v.setWidth w)
      rwa [BitVec.setWidth_eq]
    · exact hfull (if_neg heq)
  | FPToSI =>
    by_cases heq : w = r
    · subst heq
      have hop : R.castOp .FPToSI w h = ⟨w, R⟩ := if_pos rfl
      refine iff_of_true ((castIsSound_iff_of_eq hop).mpr fun v hv => ?_) rfl
      show R.contains (v.signExtend w)
      rwa [BitVec.signExtend_eq]
    · exact hfull (if_neg heq)
  | UIToFP =>
    have hop : R.castOp .UIToFP r h = ⟨max w r, unsignedValues w (max w r)⟩ := rfl
    by_cases hwr : w ≤ r
    · rw [Nat.max_eq_right hwr] at hop
      have hmem : ∀ v : BitVec w, (unsignedValues w r).contains (CastOps.UIToFP.apply r v) ↔
          v ≠ BitVec.allOnes w := fun v => contains_unsignedValues hw hwr
      rw [castIsSound_iff_of_eq hop]
      simp only [hmem, SoundCast, hwr, true_and]
      exact ⟨fun hall hmax => hall _ hmax rfl, fun hmax v hv heq => hmax (heq ▸ hv)⟩
    · refine iff_of_false (fun hsound => ?_) fun hcond => hwr hcond.1
      have hwidth := hsound.width
      rw [hop] at hwidth
      dsimp only at hwidth
      omega
  | SIToFP =>
    have hop : R.castOp .SIToFP r h =
      ⟨max w r, signedValues w (max w r) (Nat.le_max_left w r)⟩ := rfl
    by_cases hwr : w ≤ r
    · have hmax (b : Nat) (hb : w ≤ b) (heq : b = r) :
          (⟨b, signedValues w b hb⟩ : (b : Nat) × ConstantRange b) = ⟨r, signedValues w r hwr⟩ := by
        subst heq
        rfl
      rw [hmax _ _ (Nat.max_eq_right hwr)] at hop
      have hmem : ∀ v : BitVec w, (signedValues w r hwr).contains (CastOps.SIToFP.apply r v) ↔
          v ≠ BitVec.intMax w := fun v => contains_signedValues hw hwr
      rw [castIsSound_iff_of_eq hop]
      simp only [hmem, SoundCast, hwr, true_and]
      exact ⟨fun hall hmax => hall _ hmax rfl, fun hmax v hv heq => hmax (heq ▸ hv)⟩
    · refine iff_of_false (fun hsound => ?_) fun hcond => hwr hcond.1
      have hwidth := hsound.width
      rw [hop] at hwidth
      dsimp only at hwidth
      omega
  | FPTrunc =>
    have hlt : r < w := h
    exact iff_of_false (fun hsound => hlt.ne' ((hfull rfl).mp hsound)) id
  | FPExt =>
    have hlt : w < r := h
    exact iff_of_false (fun hsound => hlt.ne ((hfull rfl).mp hsound)) id
  | PtrToInt | IntToPtr | AddrSpaceCast => exact hfull rfl

/-- A conversion of a byte below the largest one. -/
theorem castOp_sound_iff_byte :
    CastIsSound (ofBounds 3#8 7#8 (by decide)) .UIToFP 65 trivial ↔
      SoundCast (ofBounds 3#8 7#8 (by decide)) 65 .UIToFP :=
  castOp_sound_iff (by decide) (by decide)

/-- The conversion of all bytes to floating-point values misses the largest one. -/
theorem castOp_not_sound : ¬ CastIsSound (full 8) .UIToFP 65 trivial := by
  rintro ⟨S, heq, hmem⟩
  have hlast := hmem (BitVec.allOnes 8) (contains_full _)
  have hS : unsignedValues 8 65 = S := eq_of_heq (Sigma.mk.inj heq).2
  rw [← hS] at hlast
  exact absurd hlast (by decide)

end Casts

end Zapcc.ConstantRange
