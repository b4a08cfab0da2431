import Mathlib.Algebra.Order.Ring.Abs
import Zapcc.Analysis.SIVSubscripts

/-!
# The strong, weak-crossing and weak-zero tests

The strong test and the test for a constant destination are sound. The weak-crossing test is sound
unless its bound wraps around, and the test for a constant source unless the source is equal to
the first or, when the bound is known, to the last destination.
-/

namespace Zapcc.SIV

open ConstantRange SignedFits Subscripts

variable {w : Nat} {S : Subscripts w}

theorem Subscripts.Meets.distance_le {i j : Nat} (h : S.Meets i j) :
    |(j : Int) - i| ≤ S.bound := by
  obtain ⟨hi, hj, -⟩ := h
  rw [abs_le]
  omega

variable {Delta Coeff : BitVec w}

theorem strong_within (hneg : Fits w (-Delta.toInt))
    (hstep : Fits w (S.SrcCoeff.toInt * S.bound) ∧ Fits w (-(S.SrcCoeff.toInt * S.bound)))
    (hwithin : |Delta.toInt| ≤ |S.SrcCoeff.toInt| * S.bound) :
    ¬ ∃ U ∈ S.UpperBound, isKnownPredicate .sgt (if 0 ≤ Delta.toInt then Delta else -Delta)
      (U * if 0 ≤ S.SrcCoeff.toInt then S.SrcCoeff else -S.SrcCoeff) := by
  rintro ⟨U, hU, hsgt⟩
  obtain ⟨-, rfl⟩ := mem_upperBound.mp hU
  have hproduct := toInt_absolute_mul hstep.1 hstep.2
  have habs := toInt_absolute hneg
  have hproductFits := fits_toInt
    ((if 0 ≤ S.SrcCoeff.toInt then S.SrcCoeff else -S.SrcCoeff) * BitVec.ofNat w S.bound)
  have hnonneg := abs_nonneg Delta.toInt
  rw [mul_comm, isKnownPredicate_sgt, habs, hproduct] at hsgt
  · omega
  · rw [habs, hproduct]
    unfold Fits at *
    omega

theorem toInt_sdiv_exact {n : Int} (hne : Coeff.toInt ≠ 0)
    (heq : Delta.toInt = Coeff.toInt * n) (hneg : Fits w (-Delta.toInt)) :
    (Delta.sdiv Coeff).toInt = n := by
  have hquotient : Delta.toInt.tdiv Coeff.toInt = n := by
    rw [heq, Int.mul_tdiv_cancel_left _ hne]
  rw [toInt_sdiv, hquotient]
  have hle : |n| ≤ |Delta.toInt| := by
    rw [heq, abs_mul]
    exact le_mul_of_one_le_left (abs_nonneg n) (Int.one_le_abs hne)
  have hfits := fits_toInt Delta
  have hn := abs_choice n
  have hDelta := abs_choice Delta.toInt
  have hnonneg := abs_nonneg n
  unfold Fits at *
  omega

theorem strongSIVtest_sound (h : S.Representable) (hcoeff : S.SrcCoeff = S.DstCoeff)
    (hne : S.SrcCoeff ≠ 0) (Direction : BitVec 3) :
    Sound S Direction
      (strongSIVtest S.SrcCoeff S.SrcConst S.DstConst S.UpperBound Direction) := by
  intro i j hmeets hD
  have ha := toInt_ne_zero hne
  have hDelta : (S.SrcConst - S.DstConst).toInt = S.SrcCoeff.toInt * (j - i) := by
    have heq := hmeets.2.2
    rw [src, dst, ← hcoeff] at heq
    rw [toInt_sub h.src_sub_dst]
    linarith
  have hneg : Fits w (-(S.SrcConst - S.DstConst).toInt) := by
    rw [toInt_sub h.src_sub_dst, neg_sub]
    exact h.dst_sub_src
  have hwithin : |(S.SrcConst - S.DstConst).toInt| ≤ |S.SrcCoeff.toInt| * S.bound := by
    rw [hDelta, abs_mul]
    exact Int.mul_le_mul_of_nonneg_left hmeets.distance_le (abs_nonneg _)
  have hrem : (S.SrcConst - S.DstConst).srem S.SrcCoeff = 0 :=
    srem_eq_zero_iff.mpr ⟨_, hDelta⟩
  have hDistance := toInt_sdiv_exact ha hDelta hneg
  unfold strongSIVtest
  simp only [if_neg (strong_within hneg h.srcStep hwithin), hrem, ne_eq, not_true, if_false,
    hDistance]
  rcases lt_trichotomy i j with hlt | heq | hgt
  · rw [if_pos (by omega)]
    exact ⟨rfl, contains_and.mpr ⟨hD, by rw [direction_lt hlt]; decide⟩⟩
  · rw [if_neg (by omega), if_neg (by omega)]
    exact ⟨rfl, contains_and.mpr ⟨hD, by rw [direction_eq heq]; decide⟩⟩
  · rw [if_neg (by omega), if_pos (by omega)]
    exact ⟨rfl, contains_and.mpr ⟨hD, by rw [direction_gt hgt]; decide⟩⟩

theorem absolute_eq (x : BitVec w) :
    (if x.toInt < 0 then -x else x) = if 0 ≤ x.toInt then x else -x := by
  by_cases hx : x.toInt < 0
  · rw [if_pos hx, if_neg (by omega)]
  · rw [if_neg hx, if_pos (by omega)]

theorem toInt_signed (Coeff : BitVec w) (h : Fits w (-Delta.toInt)) :
    (if Coeff.toInt < 0 then -Delta else Delta).toInt =
      if Coeff.toInt < 0 then -Delta.toInt else Delta.toInt := by
  split
  · exact toInt_neg h
  · rfl

theorem signed_eq_iff {a Delta n : Int} :
    (if a < 0 then -Delta else Delta) = |a| * n ↔ Delta = a * n := by
  split
  case isTrue h => rw [abs_of_neg h, neg_mul, neg_inj]
  case isFalse h => rw [abs_of_nonneg (not_lt.mp h)]

theorem weakZeroSIVtest_cases {Const OtherConst : BitVec w} (hne : Coeff ≠ 0)
    (hDelta : Fits w (OtherConst.toInt - Const.toInt))
    (hneg : Fits w (-(OtherConst.toInt - Const.toInt)))
    (hstep : Fits w (Coeff.toInt * S.bound)) (hstepNeg : Fits w (-(Coeff.toInt * S.bound)))
    (Direction : BitVec 3) :
    (OtherConst = Const ∧ weakZeroSIVtest Coeff Const OtherConst S.UpperBound Direction =
        ⟨false, Direction &&& DVEntry.LE.bits⟩) ∨
      (OtherConst ≠ Const ∧ S.known = true ∧
        Const.toInt + Coeff.toInt * S.bound = OtherConst.toInt ∧
        weakZeroSIVtest Coeff Const OtherConst S.UpperBound Direction =
          ⟨false, Direction &&& DVEntry.GE.bits⟩) ∨
      (∀ k ≤ S.bound, Const.toInt + Coeff.toInt * k ≠ OtherConst.toInt) ∨
      ((S.known = true → Const.toInt + Coeff.toInt * S.bound ≠ OtherConst.toInt) ∧
        weakZeroSIVtest Coeff Const OtherConst S.UpperBound Direction = ⟨false, Direction⟩) := by
  have ha := abs_pos.mpr (toInt_ne_zero hne)
  have hDeltaInt := toInt_sub hDelta
  have hNewDelta := toInt_signed Coeff
    (show Fits w (-(OtherConst - Const).toInt) by rwa [hDeltaInt])
  have hproduct := toInt_absolute_mul hstep hstepNeg
  rw [← absolute_eq] at hproduct
  -- the recurrence takes the value where its coefficient times the iteration is the difference
  have htakes : ∀ k : Nat, Const.toInt + Coeff.toInt * k = OtherConst.toInt ↔
      (if Coeff.toInt < 0 then -(OtherConst - Const) else OtherConst - Const).toInt =
        |Coeff.toInt| * k := by
    intro k
    rw [hNewDelta, signed_eq_iff, hDeltaInt]
    constructor <;> intro heq <;> linarith
  unfold weakZeroSIVtest
  simp only
  generalize (if Coeff.toInt < 0 then -(OtherConst - Const) else OtherConst - Const) = NewDelta
    at htakes
  generalize hProduct :
    (if Coeff.toInt < 0 then -Coeff else Coeff) * BitVec.ofNat w S.bound = Product at hproduct
  by_cases hsame : OtherConst = Const
  · exact .inl ⟨hsame, if_pos (isKnownPredicate_eq.mpr hsame)⟩
  rw [if_neg (mt isKnownPredicate_eq.mp hsame)]
  have hwithin : ∀ k ≤ S.bound, |Coeff.toInt| * k ≤ |Coeff.toInt| * (S.bound : Int) := fun k hk =>
    Int.mul_le_mul_of_nonneg_left (by omega) ha.le
  have hnonneg : ∀ k : Nat, 0 ≤ |Coeff.toInt| * (k : Int) := fun k =>
    Int.mul_nonneg ha.le (Int.natCast_nonneg k)
  by_cases hsgt : ∃ U ∈ S.UpperBound, isKnownPredicate .sgt NewDelta
      ((if Coeff.toInt < 0 then -Coeff else Coeff) * U)
  · refine .inr (.inr (.inl fun k hk heq => ?_))
    obtain ⟨U, hU, hsgt⟩ := hsgt
    obtain ⟨-, rfl⟩ := mem_upperBound.mp hU
    have hk' := hwithin k hk
    have hzero := hnonneg k
    have hNewInt := (htakes k).mp heq
    have hfits := fits_toInt Product
    rw [hProduct, isKnownPredicate_sgt (by unfold Fits at *; omega)] at hsgt
    omega
  rw [if_neg hsgt]
  by_cases heq : ∃ U ∈ S.UpperBound, isKnownPredicate .eq NewDelta
      ((if Coeff.toInt < 0 then -Coeff else Coeff) * U)
  · obtain ⟨U, hU, hlast⟩ := id heq
    obtain ⟨hknown, rfl⟩ := mem_upperBound.mp hU
    rw [isKnownPredicate_eq, hProduct] at hlast
    exact .inr (.inl ⟨hsame, hknown, (htakes _).mpr (by rw [hlast, hproduct]), if_pos heq⟩)
  have hnotLast : S.known = true →
      Const.toInt + Coeff.toInt * S.bound ≠ OtherConst.toInt := fun hknown hlast =>
    heq ⟨_, mem_upperBound.mpr ⟨hknown, rfl⟩, isKnownPredicate_eq.mpr (BitVec.toInt_inj.mp
      (by rw [hProduct, hproduct, (htakes _).mp hlast]))⟩
  rw [if_neg heq]
  by_cases hlt : NewDelta.toInt < 0
  · refine .inr (.inr (.inl fun k _ htake => ?_))
    have hzero := hnonneg k
    rw [← (htakes k).mp htake] at hzero
    omega
  rw [if_neg hlt]
  by_cases hrem : (OtherConst - Const).srem Coeff ≠ 0
  · refine .inr (.inr (.inl fun k _ htake => hrem (srem_eq_zero_iff.mpr ⟨k, ?_⟩)))
    rw [hDeltaInt]
    linarith
  · exact .inr (.inr (.inr ⟨hnotLast, if_neg hrem⟩))

theorem weakZeroDstSIVtest_sound (h : S.Representable) (hsrc : S.SrcCoeff ≠ 0)
    (hdst : S.DstCoeff = 0) (Direction : BitVec 3) :
    Sound S Direction
      (weakZeroDstSIVtest S.SrcCoeff S.SrcConst S.DstConst S.UpperBound Direction) := by
  have ha := toInt_ne_zero hsrc
  have hmeets : ∀ i j, S.Meets i j →
      S.SrcConst.toInt + S.SrcCoeff.toInt * i = S.DstConst.toInt := by
    intro i j hmeets
    have heq := hmeets.2.2
    rwa [src, dst, hdst, toInt_zero, zero_mul, add_zero] at heq
  unfold weakZeroDstSIVtest
  rcases weakZeroSIVtest_cases (S := S) hsrc h.dst_sub_src (by rw [neg_sub]; exact h.src_sub_dst)
    h.srcStep.1 h.srcStep.2 Direction with ⟨hsame, hv⟩ | ⟨-, -, hlast, hv⟩ | hnone | ⟨-, hv⟩
  · rw [hv]
    refine Sound.of_mask (fun i j hij => ?_) Direction
    have hzero : S.SrcCoeff.toInt * i = 0 := by
      have heq := hmeets i j hij
      rw [hsame] at heq
      omega
    have hi := (Int.mul_eq_zero.mp hzero).resolve_left ha
    rcases Nat.eq_zero_or_pos j with hj | hj
    · rw [direction_eq (by omega)]
      decide
    · rw [direction_lt (by omega)]
      decide
  · rw [hv]
    refine Sound.of_mask (fun i j hij => ?_) Direction
    have heq := hmeets i j hij
    have hi : (i : Int) = S.bound :=
      Int.eq_of_mul_eq_mul_left ha (by omega)
    have hj := hij.2.1
    rcases Nat.lt_or_ge j i with hlt | hge
    · rw [direction_gt hlt]
      decide
    · rw [direction_eq (by omega)]
      decide
  · exact Sound.of_none (fun i j hij => hnone i hij.1 (hmeets i j hij)) _ _
  · rw [hv]
    exact Sound.unchanged S Direction

/-- The source is equal to no other destination than the last, or the first, that the test for a
constant source gives a direction to. -/
def WeakZeroSrcHolds (S : Subscripts w) : Prop :=
  S.bound = 0 ∨ (S.SrcConst ≠ S.DstConst ∧ (S.known = true → S.src 0 ≠ S.dst S.bound))

theorem weakZeroSrcSIVtest_sound (h : S.Representable) (hsrc : S.SrcCoeff = 0)
    (hdst : S.DstCoeff ≠ 0) (hholds : WeakZeroSrcHolds S) (Direction : BitVec 3) :
    Sound S Direction
      (weakZeroSrcSIVtest S.DstCoeff S.SrcConst S.DstConst S.UpperBound Direction) := by
  have hmeets : ∀ i j, S.Meets i j →
      S.DstConst.toInt + S.DstCoeff.toInt * j = S.SrcConst.toInt := by
    intro i j hmeets
    have heq := hmeets.2.2
    rw [src, dst, hsrc, toInt_zero, zero_mul, add_zero] at heq
    exact heq.symm
  -- a loop with one iteration has one direction
  have hone : S.bound = 0 → ∀ i j, S.Meets i j → direction i j = .EQ := by
    intro hbound i j hij
    have hi := hij.1
    have hj := hij.2.1
    exact direction_eq (by omega)
  unfold weakZeroSrcSIVtest
  rcases weakZeroSIVtest_cases (S := S) hdst h.src_sub_dst (by rw [neg_sub]; exact h.dst_sub_src)
    h.dstStep.1 h.dstStep.2 Direction with ⟨hsame, hv⟩ | ⟨-, hknown, hlast, hv⟩ | hnone | ⟨-, hv⟩
  · rw [hv]
    refine Sound.of_mask (fun i j hij => ?_) Direction
    rw [hone (hholds.resolve_right fun hne => hne.1 hsame) i j hij]
    decide
  · rw [hv]
    refine Sound.of_mask (fun i j hij => ?_) Direction
    rw [hone (hholds.resolve_right fun hne => hne.2 hknown ?_) i j hij]
    · decide
    · rw [src_zero]
      exact hlast.symm
  · exact Sound.of_none (fun i j hij => hnone j hij.2.1 (hmeets i j hij)) _ _
  · rw [hv]
    exact Sound.unchanged S Direction

theorem weakZeroSrcSIVtest_unsound (h : S.Representable) (hsrc : S.SrcCoeff = 0)
    (hdst : S.DstCoeff ≠ 0) (hnot : ¬ WeakZeroSrcHolds S) :
    ¬ Sound S DVEntry.ALL.bits
      (weakZeroSrcSIVtest S.DstCoeff S.SrcConst S.DstConst S.UpperBound DVEntry.ALL.bits) := by
  intro hsound
  unfold weakZeroSrcSIVtest at hsound
  have hsrcConst : ∀ i, S.src i = S.SrcConst.toInt := by
    intro i
    rw [src, hsrc, toInt_zero, zero_mul, add_zero]
  obtain ⟨hbound, hor⟩ := not_or.mp hnot
  have hlt : 0 < S.bound := Nat.pos_of_ne_zero hbound
  by_cases hsame : S.SrcConst = S.DstConst
  · have hmeets : S.Meets 1 0 := ⟨hlt, Nat.zero_le _, by rw [hsrcConst, dst_zero, hsame]⟩
    have hkept := (hsound 1 0 hmeets (by decide)).2
    rw [weakZeroSIVtest, if_pos (isKnownPredicate_eq.mpr hsame)] at hkept
    revert hkept
    decide
  · obtain ⟨hknown, hlast⟩ := not_forall.mp (fun hall => hor ⟨hsame, hall⟩)
    rw [not_not] at hlast
    have hmeets : S.Meets 0 S.bound := ⟨Nat.zero_le _, le_rfl, hlast⟩
    have hlast' : S.DstConst.toInt + S.DstCoeff.toInt * S.bound = S.SrcConst.toInt := by
      rw [← src_zero, hlast, dst]
    have hkept := (hsound 0 S.bound hmeets (by rw [direction_lt hlt]; decide)).2
    rcases weakZeroSIVtest_cases (S := S) hdst h.src_sub_dst
      (by rw [neg_sub]; exact h.dst_sub_src) h.dstStep.1 h.dstStep.2 DVEntry.ALL.bits with
      ⟨hequal, -⟩ | ⟨-, -, -, hv⟩ | hnone | ⟨hnotLast, -⟩
    · exact hsame hequal
    · rw [hv, direction_lt hlt] at hkept
      revert hkept
      decide
    · exact hnone S.bound le_rfl hlast'
    · exact hnotLast hknown hlast'

/-- When the bound is known and twice the way of the subscripts through the loop wraps around, the
subscripts meet in no two iterations but the first ones. -/
def WeakCrossingHolds (S : Subscripts w) : Prop :=
  S.known = true → 2 ^ w ≤ 4 * (|S.SrcCoeff.toInt| * S.bound) →
    ∀ n : Nat, 0 < n → S.DstConst.toInt - S.SrcConst.toInt ≠ S.SrcCoeff.toInt * n

theorem toInt_crossingBound {n : Nat} (hmul : Fits w (Coeff.toInt * n))
    (hneg : Fits w (-(Coeff.toInt * n))) (hsmall : 4 * (|Coeff.toInt| * n) < 2 ^ w) :
    ((if Coeff.toInt < 0 then -Coeff else Coeff) * BitVec.ofNat w n * 2).toInt =
      2 * (|Coeff.toInt| * n) := by
  have hnonneg : 0 ≤ |Coeff.toInt| * (n : Int) :=
    Int.mul_nonneg (abs_nonneg _) (Int.natCast_nonneg n)
  have hproduct := toInt_absolute_mul hmul hneg
  rw [← absolute_eq] at hproduct
  have htwo := toInt_mul_ofNat (w := w) (n := 2)
    (by rw [hproduct]; unfold Fits; omega)
  rw [hproduct] at htwo
  refine htwo.trans ?_
  ring

theorem crossingBound_neg {n : Nat} (hmul : Fits w (Coeff.toInt * n))
    (hneg : Fits w (-(Coeff.toInt * n))) (hlarge : 2 ^ w ≤ 4 * (|Coeff.toInt| * n)) :
    ((if Coeff.toInt < 0 then -Coeff else Coeff) * BitVec.ofNat w n * 2).toInt < 0 := by
  have hproduct := toInt_absolute_mul hmul hneg
  rw [← absolute_eq] at hproduct
  have hfits := fits_toInt ((if Coeff.toInt < 0 then -Coeff else Coeff) * BitVec.ofNat w n)
  have hwrapped : ((if Coeff.toInt < 0 then -Coeff else Coeff) * BitVec.ofNat w n * 2).toInt =
      2 * (|Coeff.toInt| * n) - 2 ^ w := by
    show (_ * BitVec.ofNat w 2).toInt = _
    rw [BitVec.toInt_mul, BitVec.toInt_ofNat', Int.mul_bmod_bmod, hproduct,
      ← Int.sub_mul_bmod_self_left _ _ 1, bmod_of_fits]
    · push_cast
      ring
    · unfold Fits at *
      push_cast
      omega
  unfold Fits at *
  omega

theorem crossing_coeff (hopposite : S.SrcCoeff = -S.DstCoeff) (hne : S.SrcCoeff ≠ S.DstCoeff) :
    S.SrcCoeff.toInt ≠ 0 ∧ Fits w (-S.SrcCoeff.toInt) ∧ S.DstCoeff.toInt = -S.SrcCoeff.toInt := by
  have hdst : S.DstCoeff = -S.SrcCoeff := by rw [hopposite, neg_neg]
  have hself : S.SrcCoeff ≠ -S.SrcCoeff := by
    rw [← hdst]
    exact hne
  have hfits := fits_neg_of_ne hself
  refine ⟨toInt_ne_zero fun hzero => hself ?_, hfits, ?_⟩
  · rw [hzero, neg_zero]
  · rw [hdst, toInt_neg hfits]

theorem crossing_meets_iff (hdst : S.DstCoeff.toInt = -S.SrcCoeff.toInt) {i j : Nat} :
    S.Meets i j ↔ i ≤ S.bound ∧ j ≤ S.bound ∧
      S.DstConst.toInt - S.SrcConst.toInt = S.SrcCoeff.toInt * (i + j : Nat) := by
  unfold Meets src dst
  rw [hdst]
  push_cast
  constructor <;> rintro ⟨hi, hj, heq⟩ <;> exact ⟨hi, hj, by linarith⟩

theorem weakCrossingSIVtest_sound (h : S.Representable) (hopposite : S.SrcCoeff = -S.DstCoeff)
    (hne : S.SrcCoeff ≠ S.DstCoeff) (hholds : WeakCrossingHolds S) (Direction : BitVec 3) :
    ∃ v, weakCrossingSIVtest S.SrcCoeff S.SrcConst S.DstConst S.UpperBound Direction = some v ∧
      Sound S Direction v := by
  obtain ⟨hnonzero, hcoeffNeg, hdst⟩ := crossing_coeff hopposite hne
  have ha := abs_pos.mpr hnonzero
  have hmeets := fun i j => crossing_meets_iff (S := S) (i := i) (j := j) hdst
  have hDelta := toInt_sub h.dst_sub_src
  have hsigned := toInt_signed S.SrcCoeff
    (show Fits w (-(S.DstConst - S.SrcConst).toInt) by rw [hDelta, neg_sub]; exact h.src_sub_dst)
  have hcoeff := toInt_absolute hcoeffNeg
  have hml := fun hsmall => toInt_crossingBound h.srcStep.1 h.srcStep.2 hsmall
  rw [← absolute_eq] at hcoeff
  have htakes : ∀ n : Nat, S.DstConst.toInt - S.SrcConst.toInt = S.SrcCoeff.toInt * n ↔
      (if S.SrcCoeff.toInt < 0 then -(S.DstConst - S.SrcConst)
        else S.DstConst - S.SrcConst).toInt = |S.SrcCoeff.toInt| * n := by
    intro n
    rw [hsigned, signed_eq_iff, hDelta]
  unfold weakCrossingSIVtest
  by_cases hzero : S.DstConst - S.SrcConst = 0
  · refine ⟨_, if_pos hzero, Sound.onlyEqual (fun i j hij => ?_) Direction⟩
    have heq := ((hmeets i j).mp hij).2.2
    rw [← hDelta, hzero, toInt_zero] at heq
    have hsum := (Int.mul_eq_zero.mp heq.symm).resolve_left hnonzero
    omega
  rw [if_neg hzero]
  have hpositive : ∀ i j, S.Meets i j → 0 < i + j := by
    intro i j hij
    by_contra hnot
    have heq := ((hmeets i j).mp hij).2.2
    rw [show i + j = 0 by omega, Nat.cast_zero, mul_zero, ← hDelta] at heq
    exact toInt_ne_zero hzero heq
  generalize (if S.SrcCoeff.toInt < 0 then -(S.DstConst - S.SrcConst)
    else S.DstConst - S.SrcConst) = Delta at htakes
  generalize (if S.SrcCoeff.toInt < 0 then -S.SrcCoeff else S.SrcCoeff) = ConstCoeff
    at hcoeff hml
  rw [if_neg (by omega)]
  by_cases hnegative : Delta.toInt < 0
  · refine ⟨_, if_pos hnegative, Sound.of_none (fun i j hij => ?_) _ _⟩
    have hnonneg := Int.mul_nonneg ha.le (Int.natCast_nonneg (i + j))
    rw [← (htakes _).mp ((hmeets i j).mp hij).2.2] at hnonneg
    omega
  rw [if_neg hnegative]
  -- when the bound wraps around, the subscripts do not meet
  have hsmall : ∀ i j, S.Meets i j → S.known = true →
      (ConstCoeff * BitVec.ofNat w S.bound * 2).toInt = 2 * (|S.SrcCoeff.toInt| * S.bound) :=
    fun i j hij hknown => hml (not_le.mp fun hwrap =>
      hholds hknown hwrap (i + j) (hpositive i j hij) ((hmeets i j).mp hij).2.2)
  have hwithin : ∀ i j, S.Meets i j → Delta.toInt ≤ 2 * (|S.SrcCoeff.toInt| * S.bound) := by
    intro i j hij
    obtain ⟨hi, hj, heq⟩ := (hmeets i j).mp hij
    rw [(htakes _).mp heq, mul_left_comm]
    exact Int.mul_le_mul_of_nonneg_left (by omega) ha.le
  by_cases hsgt : ∃ U ∈ S.UpperBound, isKnownPredicate .sgt Delta (ConstCoeff * U * 2)
  · refine ⟨_, if_pos hsgt, Sound.of_none (fun i j hij => ?_) _ _⟩
    obtain ⟨U, hU, hsgt⟩ := hsgt
    obtain ⟨hknown, rfl⟩ := mem_upperBound.mp hU
    have hbound := hsmall i j hij hknown
    have hle := hwithin i j hij
    have hfits := fits_toInt (ConstCoeff * BitVec.ofNat w S.bound * 2)
    rw [isKnownPredicate_sgt (by unfold Fits at *; omega)] at hsgt
    omega
  rw [if_neg hsgt]
  by_cases heq : ∃ U ∈ S.UpperBound, isKnownPredicate .eq Delta (ConstCoeff * U * 2)
  · refine ⟨_, if_pos heq, Sound.onlyEqual (fun i j hij => ?_) Direction⟩
    obtain ⟨U, hU, hlast⟩ := heq
    obtain ⟨hknown, rfl⟩ := mem_upperBound.mp hU
    obtain ⟨hi, hj, hsum⟩ := (hmeets i j).mp hij
    have hbound := hsmall i j hij hknown
    rw [← isKnownPredicate_eq.mp hlast, (htakes _).mp hsum, mul_left_comm] at hbound
    have hboth := Int.eq_of_mul_eq_mul_left ha.ne' hbound
    omega
  rw [if_neg heq]
  by_cases hrem : Delta.srem ConstCoeff ≠ 0
  · refine ⟨_, if_pos hrem, Sound.of_none (fun i j hij => hrem ?_) _ _⟩
    rw [srem_eq_zero_iff, hcoeff, (htakes _).mp ((hmeets i j).mp hij).2.2]
    exact Int.dvd_mul_right _ _
  rw [if_neg hrem]
  by_cases hodd : (Delta.sdiv ConstCoeff).srem 2 ≠ 0
  · refine ⟨_, if_pos hodd, Sound.of_mask (fun i j hij => ?_) Direction⟩
    rcases lt_trichotomy i j with hlt | hequal | hgt
    · rw [direction_lt hlt]
      decide
    · refine absurd ?_ hodd
      have hsum := (htakes _).mp ((hmeets i j).mp hij).2.2
      have hpos := hpositive i j hij
      have hDeltaFits := fits_toInt Delta
      have hquotient : (Delta.sdiv ConstCoeff).toInt = (i + j : Nat) :=
        toInt_sdiv_exact (by omega) (by rw [hcoeff, hsum]) (by unfold Fits at *; omega)
      have hsumFits := fits_toInt (Delta.sdiv ConstCoeff)
      have htwo : (2 : BitVec w).toInt = 2 := by
        refine toInt_ofNat (n := 2) (hsumFits.of_le (by omega) ?_)
        omega
      rw [srem_eq_zero_iff, hquotient, htwo]
      exact ⟨i, by push_cast; omega⟩
    · rw [direction_gt hgt]
      decide
  · exact ⟨_, if_neg hodd, Sound.unchanged S Direction⟩

theorem weakCrossingSIVtest_unsound (h : S.Representable) (hopposite : S.SrcCoeff = -S.DstCoeff)
    (hne : S.SrcCoeff ≠ S.DstCoeff) (hnot : ¬ WeakCrossingHolds S) {v : Verdict}
    (hv : weakCrossingSIVtest S.SrcCoeff S.SrcConst S.DstConst S.UpperBound DVEntry.ALL.bits =
      some v) :
    ¬ Sound S DVEntry.ALL.bits v := by
  obtain ⟨hnonzero, hcoeffNeg, hdst⟩ := crossing_coeff hopposite hne
  have ha := abs_pos.mpr hnonzero
  have hDelta := toInt_sub h.dst_sub_src
  have hsigned := toInt_signed S.SrcCoeff
    (show Fits w (-(S.DstConst - S.SrcConst).toInt) by rw [hDelta, neg_sub]; exact h.src_sub_dst)
  have hcoeff := toInt_absolute hcoeffNeg
  rw [← absolute_eq] at hcoeff
  unfold WeakCrossingHolds at hnot
  push Not at hnot
  obtain ⟨hknown, hwrap, n, hn, heq⟩ := hnot
  have hml := crossingBound_neg h.srcStep.1 h.srcStep.2 hwrap
  rw [hDelta, signed_eq_iff.mpr heq] at hsigned
  have hpos : 0 < |S.SrcCoeff.toInt| * (n : Int) := Int.mul_pos ha (by omega)
  have hfits := fits_toInt (if S.SrcCoeff.toInt < 0 then -(S.DstConst - S.SrcConst)
    else S.DstConst - S.SrcConst)
  -- the subscripts meet, since the sum of the iterations is below twice the bound
  have hle : n ≤ 2 * S.bound := by
    have hlt : |S.SrcCoeff.toInt| * (n : Int) < |S.SrcCoeff.toInt| * (2 * S.bound) := by
      rw [mul_left_comm]
      unfold Fits at hfits
      omega
    have := lt_of_mul_lt_mul_left hlt ha.le
    omega
  have hmeets : S.Meets (min n S.bound) (n - min n S.bound) := by
    rw [crossing_meets_iff hdst]
    refine ⟨min_le_right _ _, by omega, ?_⟩
    rw [Nat.add_sub_cancel' (min_le_left _ _)]
    exact heq
  have htrue : v = ⟨true, DVEntry.ALL.bits⟩ := by
    have hzero : S.DstConst - S.SrcConst ≠ 0 := by
      intro hzero
      rw [hzero, neg_zero, ite_self, toInt_zero] at hsigned
      omega
    unfold weakCrossingSIVtest at hv
    rw [if_neg hzero, if_neg (by omega), if_neg (by omega),
      if_pos ⟨_, mem_upperBound.mpr ⟨hknown, rfl⟩, .inl (by show _ < _; omega)⟩] at hv
    exact (Option.some.inj hv).symm
  intro hsound
  have hfalse := (hsound _ _ hmeets (by unfold direction; split <;> [decide; split <;> decide])).1
  rw [htrue] at hfalse
  cases hfalse

end Zapcc.SIV
