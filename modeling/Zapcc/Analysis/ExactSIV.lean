import Mathlib.Tactic.LinearCombination
import Zapcc.Analysis.SIVSubscripts
import Zapcc.Library.ExtendedEuclid

/-!
# The exact test

The exact test finds a solution with Euclid's algorithm, whose coefficients do not wrap around, and
narrows the range of the parameter of all solutions. It is sound when its numbers fit the width
and the coefficients have no common divisor: the directions are explored with the difference of
the coefficients, which is not divided by the divisor.
-/

namespace Zapcc.SIV

open ConstantRange ExtendedEuclid SignedFits Subscripts Nat

variable {w : Nat} {S : Subscripts w}

theorem fits_of_abs_le {n : Int} {P : Nat} (hP : 2 * (P : Int) < 2 ^ w) (h : |n| ≤ P) :
    Fits w n ∧ Fits w (-n) := by
  rw [abs_le] at h
  unfold Fits
  omega

theorem findGCDLoop_spec {P P' : Nat} (hP : 2 * (P : Int) < 2 ^ w) (hP' : 2 * (P' : Int) < 2 ^ w)
    (fuel : Nat) {G0 G1 A0 A1 B0 B1 : BitVec w} {g0 g1 : Nat} (hG0 : G0.toInt = g0)
    (hG1 : G1.toInt = g1) (hg0 : 0 < g0) (hg1 : 0 < g1) (hfuel : g1 < fuel)
    (hA : Alternate P g0 g1 A0.toInt A1.toInt) (hB : Alternate P' g0 g1 B0.toInt B1.toInt) :
    ∃ G A B, findGCDLoop fuel G0 G1 A0 A1 B0 B1 = some (G, A, B) ∧
      |A.toInt| ≤ P ∧ |B.toInt| ≤ P' ∧
      Nat.xgcdAux g1 B1.toInt A1.toInt g0 B0.toInt A0.toInt =
        (G.toInt.toNat, B.toInt, A.toInt) ∧ 0 < G.toInt := by
  induction fuel generalizing G0 G1 A0 A1 B0 B1 g0 g1 with
  | zero => exact absurd hfuel (Nat.not_lt_zero _)
  | succ fuel ih =>
    have hmod : g0 % g1 < g1 := mod_lt _ hg1
    have hR : (G0.srem G1).toInt = (g0 % g1 : Nat) := by
      rw [BitVec.toInt_srem, hG0, hG1, Int.ofNat_tmod]
    rw [xgcdAux_rec hg1]
    by_cases hzero : G0.srem G1 = 0
    · rw [hzero, toInt_zero] at hR
      have hmodZero : g0 % g1 = 0 := by omega
      rw [hmodZero, xgcd_zero_left]
      refine ⟨G1, A1, B1, if_neg (not_not.mpr hzero), (hA.le hg1).2.2 hg0,
        (hB.le hg1).2.2 hg0, ?_, by omega⟩
      rw [hG1, Int.toNat_natCast]
    · have hpos : 0 < g0 % g1 := by
        rcases Nat.eq_zero_or_pos (g0 % g1) with hmodZero | hpos
        · rw [hmodZero] at hR
          exact absurd (BitVec.toInt_inj.mp (hR.trans toInt_zero.symm)) hzero
        · exact hpos
      have hQ : (G0.sdiv G1).toInt = (g0 / g1 : Nat) := by
        have hquotient : G0.toInt.tdiv G1.toInt = (g0 / g1 : Nat) := by
          rw [hG0, hG1, Int.ofNat_tdiv]
        rw [toInt_sdiv, hquotient]
        rw [hquotient]
        refine (fits_toInt G0).of_le (Int.natCast_nonneg _) ?_
        rw [hG0]
        exact_mod_cast Nat.div_le_self g0 g1
      -- the next coefficients do not wrap around
      have hnext : ∀ {P : Nat} {C0 C1 : BitVec w}, 2 * (P : Int) < 2 ^ w →
          Alternate P g0 g1 C0.toInt C1.toInt →
          (C0 - G0.sdiv G1 * C1).toInt = C0.toInt - (g0 / g1 : Nat) * C1.toInt := by
        intro P C0 C1 hP hC
        have hproduct : (G0.sdiv G1 * C1).toInt = (g0 / g1 : Nat) * C1.toInt := by
          rw [toInt_mul, hQ]
          rw [hQ]
          exact (fits_of_abs_le hP (hC.le hg1).2.1).1
        rw [toInt_sub, hproduct]
        rw [hproduct]
        exact (fits_of_abs_le hP ((hC.step.le hpos).2.2 hg1)).1
      have hA' := hA.step
      have hB' := hB.step
      rw [← hnext hP hA] at hA'
      rw [← hnext hP' hB] at hB'
      obtain ⟨G, A, B, hloop, hle, hle', haux, hG⟩ :=
        ih hG1 hR hg1 hpos (by omega) hA' hB'
      refine ⟨G, A, B, (if_pos hzero).trans hloop, hle, hle', ?_, hG⟩
      rw [hnext hP hA, hnext hP' hB] at haux
      exact haux

theorem toInt_abs {x : BitVec w} (h : Fits w (-x.toInt)) : x.abs.toInt = x.toInt.natAbs := by
  rw [BitVec.abs_eq, BitVec.msb_eq_toInt]
  by_cases hx : x.toInt < 0
  · rw [if_pos (decide_eq_true hx), toInt_neg h]
    omega
  · rw [if_neg (by simpa using hx)]
    omega

theorem gcdA_eq (a b : Int) : Int.gcdA b a =
    if b < 0 then -Nat.gcdA b.natAbs a.natAbs else Nat.gcdA b.natAbs a.natAbs := by
  cases b with
  | ofNat n => rfl
  | negSucc n => rw [if_pos (Int.negSucc_lt_zero n)]; rfl

theorem gcdB_eq (a b : Int) : Int.gcdB b a =
    if a < 0 then -Nat.gcdB b.natAbs a.natAbs else Nat.gcdB b.natAbs a.natAbs := by
  cases a with
  | ofNat n => rfl
  | negSucc n => rw [if_pos (Int.negSucc_lt_zero n)]; rfl

theorem findGCDLoop_abs {AM BM : BitVec w} (hAM : AM ≠ 0) (hBM : BM ≠ 0)
    (hAMneg : Fits w (-AM.toInt)) (hBMneg : Fits w (-BM.toInt)) :
    ∃ G A B, findGCDLoop (BM.toInt.natAbs + 1) AM.abs BM.abs 1 0 0 1 = some (G, A, B) ∧
      G.toInt = Int.gcd AM.toInt BM.toInt ∧
      (if AM.toInt < 0 then -A else A).toInt = Int.gcdB BM.toInt AM.toInt ∧
      (if BM.toInt < 0 then B else -B).toInt = -Int.gcdA BM.toInt AM.toInt := by
  have hfitsA := fits_toInt AM
  have hfitsB := fits_toInt BM
  have hA := toInt_ne_zero hAM
  have hB := toInt_ne_zero hBM
  have hPA : 2 * (AM.toInt.natAbs : Int) < 2 ^ w := by
    unfold Fits at *
    omega
  have hPB : 2 * (BM.toInt.natAbs : Int) < 2 ^ w := by
    unfold Fits at *
    omega
  have hone : (1 : BitVec w).toInt = 1 := by
    refine toInt_ofNat (n := 1) ?_
    unfold Fits
    push_cast
    omega
  have hstartA : Alternate BM.toInt.natAbs AM.toInt.natAbs BM.toInt.natAbs
      (1 : BitVec w).toInt (0 : BitVec w).toInt :=
    ⟨1, 0, by omega, .inl ⟨by rw [hone]; rfl, by rw [toInt_zero]; rfl⟩⟩
  have hstartB : Alternate AM.toInt.natAbs AM.toInt.natAbs BM.toInt.natAbs
      (0 : BitVec w).toInt (1 : BitVec w).toInt :=
    ⟨0, 1, by omega, .inr ⟨by rw [toInt_zero]; rfl, by rw [hone]; rfl⟩⟩
  obtain ⟨G, A, B, hloop, hleA, hleB, haux, hpos⟩ := findGCDLoop_spec hPB hPA
    (BM.toInt.natAbs + 1) (toInt_abs hAMneg) (toInt_abs hBMneg) (by omega) (by omega)
    (lt_succ_self _) hstartA hstartB
  rw [hone, toInt_zero, xgcdAux_val, xgcd_val] at haux
  simp only [Prod.mk.injEq] at haux
  obtain ⟨hG, hgcdA, hgcdB⟩ := haux
  refine ⟨G, A, B, hloop, ?_, ?_, ?_⟩
  · rw [Int.gcd_comm, Int.gcd_def, hG]
    omega
  · rw [gcdB_eq, hgcdB]
    split
    · exact toInt_neg (fits_of_abs_le hPB hleA).2
    · rfl
  · rw [gcdA_eq, hgcdA]
    split
    · rw [neg_neg]
    · exact toInt_neg (fits_of_abs_le hPA hleB).2

theorem findGCD_coprime {AM BM Delta : BitVec w} (hAM : AM ≠ 0) (hBM : BM ≠ 0)
    (hAMneg : Fits w (-AM.toInt)) (hBMneg : Fits w (-BM.toInt))
    (hgcd : Int.gcd AM.toInt BM.toInt = 1)
    (hX : Fits w (Int.gcdB BM.toInt AM.toInt * Delta.toInt))
    (hY : Fits w (-Int.gcdA BM.toInt AM.toInt * Delta.toInt)) :
    ∃ G X Y, findGCD AM BM Delta = some (G, some (X, Y)) ∧ G.toInt = 1 ∧
      X.toInt = Int.gcdB BM.toInt AM.toInt * Delta.toInt ∧
      Y.toInt = -Int.gcdA BM.toInt AM.toInt * Delta.toInt := by
  obtain ⟨G, A, B, hloop, hG, hA, hB⟩ := findGCDLoop_abs hAM hBM hAMneg hBMneg
  rw [hgcd, cast_one] at hG
  have hrem : Delta.srem G = 0 := srem_eq_zero_iff.mpr (by rw [hG]; exact Int.one_dvd _)
  have hquotient : Delta.sdiv G = Delta := by
    rw [← BitVec.toInt_inj, toInt_sdiv, hG, Int.tdiv_one]
    rw [hG, Int.tdiv_one]
    exact fits_toInt Delta
  refine ⟨G, (if AM.toInt < 0 then -A else A) * Delta, (if BM.toInt < 0 then B else -B) * Delta,
    ?_, hG, ?_, ?_⟩
  · rw [findGCD, hloop, Option.map_some]
    simp only [hrem, hquotient, ne_eq, not_true, if_false]
  · rw [toInt_mul, hA]
    rwa [hA]
  · rw [toInt_mul, hB]
    rwa [hB]

theorem exists_findGCD {AM BM : BitVec w} (hAM : AM ≠ 0) (hBM : BM ≠ 0)
    (hAMneg : Fits w (-AM.toInt)) (hBMneg : Fits w (-BM.toInt)) (Delta : BitVec w) :
    ∃ r, findGCD AM BM Delta = some r := by
  obtain ⟨G, A, B, hloop, -⟩ := findGCDLoop_abs hAM hBM hAMneg hBMneg
  rw [findGCD, hloop]
  exact ⟨_, rfl⟩

theorem quotient_spec {A B : BitVec w} (hB : B.toInt ≠ 0) (hneg : Fits w (-A.toInt)) :
    ∃ q r, A.toInt = B.toInt * q + r ∧ |r| < |B.toInt| ∧ (0 ≤ A.toInt → 0 ≤ r) ∧
      (A.toInt ≤ 0 → r ≤ 0) ∧ (A.srem B = 0 ↔ r = 0) ∧ (A.sdiv B).toInt = q ∧
      (r ≠ 0 → (A.sdiv B + 1).toInt = q + 1 ∧ (A.sdiv B - 1).toInt = q - 1) := by
  have hA := fits_toInt A
  have hremLt : |A.toInt.tmod B.toInt| < |B.toInt| := by
    rw [Int.abs_eq_natAbs, Int.abs_eq_natAbs, Int.natAbs_tmod]
    exact_mod_cast mod_lt _ (Int.natAbs_pos.mpr hB)
  have hfits : ∀ n : Int, n.natAbs ≤ A.toInt.natAbs → Fits w n := by
    intro n hn
    unfold Fits at *
    omega
  have hq : (A.sdiv B).toInt = A.toInt.tdiv B.toInt :=
    toInt_sdiv (hfits _ (Int.natAbs_tdiv_le_natAbs _ _))
  refine ⟨A.toInt.tdiv B.toInt, A.toInt.tmod B.toInt, ?_, hremLt,
    fun hnonneg => Int.tmod_nonneg _ hnonneg, fun hnonpos => ?_, ?_, hq, fun hr => ?_⟩
  · rw [add_comm, Int.tmod_add_mul_tdiv]
  · have hflip := Int.tmod_nonneg B.toInt (Int.neg_nonneg.mpr hnonpos)
    rw [Int.neg_tmod] at hflip
    omega
  · rw [srem_eq_zero_iff, Int.dvd_iff_tmod_eq_zero]
  · have hremPos := abs_pos.mpr hr
    have htwo : 2 ≤ B.toInt.natAbs := by
      rw [Int.abs_eq_natAbs] at hremLt hremPos
      rw [Int.abs_eq_natAbs] at hremLt
      omega
    have hhalf : (A.toInt.tdiv B.toInt).natAbs ≤ A.toInt.natAbs / 2 := by
      rw [Int.natAbs_tdiv]
      exact div_le_div_left htwo (by omega)
    have hpos : A.toInt ≠ 0 := by
      intro hzero
      rw [hzero, Int.zero_tmod] at hr
      exact hr rfl
    have hone : (1 : BitVec w).toInt = 1 := toInt_ofNat (n := 1) (hfits _ (by omega))
    constructor
    · rw [toInt_add, hq, hone]
      exact hfits _ (by omega)
    · rw [toInt_sub, hq, hone]
      exact hfits _ (by omega)

theorem floorOfQuotient_spec {A B : BitVec w} (hB : B.toInt ≠ 0) (hneg : Fits w (-A.toInt)) :
    ∃ r, A.toInt = B.toInt * (floorOfQuotient A B).toInt + r ∧ |r| < |B.toInt| ∧
      (0 < B.toInt → 0 ≤ r) ∧ (B.toInt < 0 → r ≤ 0) := by
  obtain ⟨q, r, hA, hr, hnonneg, hnonpos, hrem, hq, hnext⟩ := quotient_spec hB hneg
  unfold floorOfQuotient
  by_cases hzero : r = 0
  · rw [if_pos (hrem.mpr hzero), hq]
    exact ⟨r, hA, hr, by omega, by omega⟩
  rw [if_neg (mt hrem.mp hzero)]
  rw [abs_lt] at hr
  rcases lt_or_gt_of_ne hB with hlt | hgt
  · rw [abs_of_neg hlt] at hr ⊢
    by_cases hsame : 0 < A.toInt ∧ 0 < B.toInt ∨ A.toInt < 0 ∧ B.toInt < 0
    · rw [if_pos hsame, hq]
      exact ⟨r, hA, abs_lt.mpr (by omega), by omega, fun _ => hnonpos (by omega)⟩
    · rw [if_neg hsame, (hnext hzero).2]
      exact ⟨r + B.toInt, by rw [hA]; ring, abs_lt.mpr (by omega), by omega, by omega⟩
  · rw [abs_of_pos hgt] at hr ⊢
    by_cases hsame : 0 < A.toInt ∧ 0 < B.toInt ∨ A.toInt < 0 ∧ B.toInt < 0
    · rw [if_pos hsame, hq]
      exact ⟨r, hA, abs_lt.mpr (by omega), fun _ => hnonneg (by omega), by omega⟩
    · rw [if_neg hsame, (hnext hzero).2]
      exact ⟨r + B.toInt, by rw [hA]; ring, abs_lt.mpr (by omega), by omega, by omega⟩

theorem ceilingOfQuotient_spec {A B : BitVec w} (hB : B.toInt ≠ 0) (hneg : Fits w (-A.toInt)) :
    ∃ r, A.toInt = B.toInt * (ceilingOfQuotient A B).toInt + r ∧ |r| < |B.toInt| ∧
      (0 < B.toInt → r ≤ 0) ∧ (B.toInt < 0 → 0 ≤ r) := by
  obtain ⟨q, r, hA, hr, hnonneg, hnonpos, hrem, hq, hnext⟩ := quotient_spec hB hneg
  unfold ceilingOfQuotient
  by_cases hzero : r = 0
  · rw [if_pos (hrem.mpr hzero), hq]
    exact ⟨r, hA, hr, by omega, by omega⟩
  rw [if_neg (mt hrem.mp hzero)]
  rw [abs_lt] at hr
  rcases lt_or_gt_of_ne hB with hlt | hgt
  · rw [abs_of_neg hlt] at hr ⊢
    by_cases hsame : 0 < A.toInt ∧ 0 < B.toInt ∨ A.toInt < 0 ∧ B.toInt < 0
    · rw [if_pos hsame, (hnext hzero).1]
      have := hnonpos (by omega)
      exact ⟨r - B.toInt, by rw [hA]; ring, abs_lt.mpr (by omega), by omega, by omega⟩
    · rw [if_neg hsame, hq]
      exact ⟨r, hA, abs_lt.mpr (by omega), by omega, fun _ => hnonneg (by omega)⟩
  · rw [abs_of_pos hgt] at hr ⊢
    by_cases hsame : 0 < A.toInt ∧ 0 < B.toInt ∨ A.toInt < 0 ∧ B.toInt < 0
    · rw [if_pos hsame, (hnext hzero).1]
      exact ⟨r - B.toInt, by rw [hA]; ring, abs_lt.mpr (by omega), by omega, by omega⟩
    · rw [if_neg hsame, hq]
      exact ⟨r, hA, abs_lt.mpr (by omega), fun _ => hnonpos (by omega), by omega⟩

/-- The range contains a parameter. -/
def Parameters.Has (T : Parameters w) (t : Int) : Prop := T.TL.toInt ≤ t ∧ t ≤ T.TU.toInt

theorem toInt_maxAPInt (A B : BitVec w) : (maxAPInt A B).toInt = max A.toInt B.toInt := by
  unfold maxAPInt
  split <;> omega

theorem toInt_minAPInt (A B : BitVec w) : (minAPInt A B).toInt = min A.toInt B.toInt := by
  unfold minAPInt
  split <;> omega

variable {T : Parameters w}

theorem bounds_of_quotient {A B q r t : Int} (hA : A = B * q + r) (hr : |r| < |B|) :
    (A ≤ t * B → if 0 < B then q ≤ t else t ≤ q) ∧
      (t * B ≤ A → if 0 < B then t ≤ q else q ≤ t) := by
  rw [show t * B = B * q + B * (t - q) by ring]
  split_ifs with hB
  · rw [abs_of_pos hB, abs_lt] at hr
    constructor <;> intro h <;> by_contra <;> nlinarith
  · rw [abs_of_nonpos (not_lt.mp hB), abs_lt] at hr
    constructor <;> intro h <;> by_contra <;> nlinarith

theorem Parameters.Has.atLeast {t : Int} (h : T.Has t) {A TMUL : BitVec w}
    (hTMUL : TMUL.toInt ≠ 0) (hneg : Fits w (-A.toInt)) (hle : A.toInt ≤ t * TMUL.toInt) :
    (T.atLeast A TMUL).Has t := by
  unfold Parameters.atLeast
  split_ifs with hpos
  · obtain ⟨r, hA, hr, -, -⟩ := ceilingOfQuotient_spec hTMUL hneg
    have hbound := (bounds_of_quotient hA hr).1 hle
    rw [if_pos hpos] at hbound
    refine ⟨?_, h.2⟩
    rw [toInt_maxAPInt]
    exact max_le h.1 hbound
  · obtain ⟨r, hA, hr, -, -⟩ := floorOfQuotient_spec hTMUL hneg
    have hbound := (bounds_of_quotient hA hr).1 hle
    rw [if_neg hpos] at hbound
    refine ⟨h.1, ?_⟩
    rw [toInt_minAPInt]
    exact le_min h.2 hbound

theorem Parameters.Has.atMost {t : Int} (h : T.Has t) {A TMUL : BitVec w}
    (hTMUL : TMUL.toInt ≠ 0) (hneg : Fits w (-A.toInt)) (hle : t * TMUL.toInt ≤ A.toInt) :
    (T.atMost A TMUL).Has t := by
  unfold Parameters.atMost
  split_ifs with hpos
  · obtain ⟨r, hA, hr, -, -⟩ := floorOfQuotient_spec hTMUL hneg
    have hbound := (bounds_of_quotient hA hr).2 hle
    rw [if_pos hpos] at hbound
    refine ⟨h.1, ?_⟩
    rw [toInt_minAPInt]
    exact le_min h.2 hbound
  · obtain ⟨r, hA, hr, -, -⟩ := ceilingOfQuotient_spec hTMUL hneg
    have hbound := (bounds_of_quotient hA hr).2 hle
    rw [if_neg hpos] at hbound
    refine ⟨?_, h.2⟩
    rw [toInt_maxAPInt]
    exact max_le h.1 hbound

theorem Parameters.Has.within {t : Int} (h : T.Has t) {X TMUL : BitVec w}
    {i : Nat} (hTMUL : TMUL.toInt ≠ 0) (hX : Fits w (-X.toInt)) (hU : Fits w S.bound)
    (hUX : S.known = true → Fits w (S.bound - X.toInt)) (hi : i ≤ S.bound)
    (hieq : (i : Int) = X.toInt + t * TMUL.toInt) :
    (T.within X TMUL S.UpperBound).Has t := by
  have hXfits := fits_toInt X
  have hleast : (T.atLeast (-X) TMUL).Has t := by
    have hnegX := toInt_neg hX
    exact h.atLeast hTMUL (by rw [hnegX, neg_neg]; exact hXfits) (by rw [hnegX]; omega)
  unfold UpperBound
  by_cases hknown : S.known = true
  · rw [if_pos hknown]
    have hbound := toInt_ofNat hU
    have hUM : (BitVec.ofNat w S.bound - X).toInt = S.bound - X.toInt := by
      rw [toInt_sub, hbound]
      rw [hbound]
      exact hUX hknown
    refine hleast.atMost hTMUL ?_ (by rw [hUM]; omega)
    have hUfits := hUX hknown
    unfold Fits at *
    omega
  · rw [if_neg hknown]
    exact hleast

theorem Parameters.has_all {t : Int} (h : Fits w t) :
    (⟨BitVec.intMin w, BitVec.intMax w⟩ : Parameters w).Has t := by
  have hlt := BitVec.toInt_lt (x := BitVec.ofInt w t)
  have hle := BitVec.toInt_intMin_le (BitVec.ofInt w t)
  rw [toInt_ofInt h] at hlt hle
  refine ⟨hle, ?_⟩
  rw [BitVec.toInt_intMax]
  omega

theorem Parameters.Has.direction {t : Int} (h : T.Has t) (entry : DVEntry) :
    T.direction entry = entry.bits := if_pos (h.1.trans h.2)

theorem exploreDirections_keeps {t : Int} (hT : T.Has t)
    {X Y AM BM : BitVec w} {i j : Nat} (hi : (i : Int) = X.toInt + t * BM.toInt)
    (hj : (j : Int) = Y.toInt + t * AM.toInt) (hne : AM.toInt ≠ BM.toInt)
    (hAB : Fits w (AM.toInt - BM.toInt)) (hBA : Fits w (BM.toInt - AM.toInt))
    (hXY : Fits w (X.toInt - Y.toInt + 1)) (hYX : Fits w (Y.toInt - X.toInt + 1))
    {Direction : BitVec 3} (hD : Contains Direction (SIV.direction i j)) :
    (exploreDirections T X Y AM BM Direction).disproven = false ∧
      Contains (exploreDirections T X Y AM BM Direction).Direction (SIV.direction i j) := by
  have hAM := toInt_sub hAB
  have hBM := toInt_sub hBA
  have hX : (X - Y).toInt = X.toInt - Y.toInt := toInt_sub (by unfold Fits at *; omega)
  have hY : (Y - X).toInt = Y.toInt - X.toInt := toInt_sub (by unfold Fits at *; omega)
  have hone : (1 : BitVec w).toInt = 1 := toInt_ofNat (n := 1) (by unfold Fits at *; omega)
  have hX1 : (X - Y + 1).toInt = X.toInt - Y.toInt + 1 := by
    rw [toInt_add, hX, hone]
    rwa [hX, hone]
  have hY1 : (Y - X + 1).toInt = Y.toInt - X.toInt + 1 := by
    rw [toInt_add, hY, hone]
    rwa [hY, hone]
  have hmulAB : t * (AM - BM).toInt = t * AM.toInt - t * BM.toInt := by rw [hAM, mul_sub]
  have hmulBA : t * (BM - AM).toInt = t * BM.toInt - t * AM.toInt := by rw [hBM, mul_sub]
  have hkept : Contains (Direction &&& (DVEntry.NONE.bits |||
      (T.atLeast (X - Y + 1) (AM - BM)).direction .LT |||
      ((T.atLeast (X - Y) (AM - BM)).atLeast (Y - X) (BM - AM)).direction .EQ |||
      (T.atLeast (Y - X + 1) (BM - AM)).direction .GT)) (SIV.direction i j) := by
    refine contains_and.mpr ⟨hD, ?_⟩
    rcases lt_trichotomy i j with hlt | heq | hgt
    · have hhas : (T.atLeast (X - Y + 1) (AM - BM)).Has t :=
        hT.atLeast (by omega) (by rw [hX1]; unfold Fits at *; omega) (by omega)
      rw [direction_lt hlt, hhas.direction .LT]
      exact (contains_bits _).or_right.or_left.or_left
    · have hhas : ((T.atLeast (X - Y) (AM - BM)).atLeast (Y - X) (BM - AM)).Has t :=
        (hT.atLeast (by omega) (by rw [hX]; unfold Fits at *; omega) (by omega)).atLeast
          (by omega) (by rw [hY]; unfold Fits at *; omega) (by omega)
      rw [direction_eq heq, hhas.direction .EQ]
      exact (contains_bits _).or_right.or_left
    · have hhas : (T.atLeast (Y - X + 1) (BM - AM)).Has t :=
        hT.atLeast (by omega) (by rw [hY1]; unfold Fits at *; omega) (by omega)
      rw [direction_gt hgt, hhas.direction .GT]
      exact (contains_bits _).or_right
  unfold exploreDirections
  rw [if_neg (not_lt.mpr (hT.1.trans hT.2))]
  exact ⟨decide_eq_false hkept.ne_zero, hkept⟩

namespace Subscripts

/-- The source iteration of the solution that Euclid's algorithm gives. -/
def solutionX (S : Subscripts w) : Int :=
  Int.gcdB S.DstCoeff.toInt S.SrcCoeff.toInt * (S.DstConst.toInt - S.SrcConst.toInt)

/-- The destination iteration of the solution that Euclid's algorithm gives. -/
def solutionY (S : Subscripts w) : Int :=
  -Int.gcdA S.DstCoeff.toInt S.SrcCoeff.toInt * (S.DstConst.toInt - S.SrcConst.toInt)

/-- The numbers of the exact test fit the width. -/
structure SolutionFits (S : Subscripts w) : Prop where
  solutionX : Fits w S.solutionX ∧ Fits w (-S.solutionX)
  solutionY : Fits w S.solutionY ∧ Fits w (-S.solutionY)
  apart : Fits w (S.solutionX - S.solutionY + 1) ∧ Fits w (S.solutionY - S.solutionX + 1)
  coefficients : Fits w (S.SrcCoeff.toInt - S.DstCoeff.toInt) ∧
    Fits w (S.DstCoeff.toInt - S.SrcCoeff.toInt)
  bound : S.known = true → Fits w (S.bound - S.solutionX) ∧ Fits w (S.bound - S.solutionY)

end Subscripts

/-- When the subscripts are equal somewhere, the coefficients have no common divisor and the
numbers of the test fit. -/
def ExactHolds (S : Subscripts w) : Prop :=
  Fits w (-S.SrcCoeff.toInt) ∧ Fits w (-S.DstCoeff.toInt) ∧ ((∃ i j, S.Meets i j) →
      Int.gcd S.SrcCoeff.toInt S.DstCoeff.toInt = 1 ∧ S.SolutionFits)

theorem exists_parameter {a b Delta i j : Int} (hb : b ≠ 0) (hgcd : Int.gcd a b = 1)
    (heq : a * i - b * j = Delta) :
    ∃ t, i = Int.gcdB b a * Delta + t * b ∧ j = -Int.gcdA b a * Delta + t * a := by
  have hbezout : b * Int.gcdA b a + a * Int.gcdB b a = 1 := by
    rw [← Int.gcd_eq_gcd_ab, Int.gcd_comm, hgcd, cast_one]
  have hdiff : a * (i - Int.gcdB b a * Delta) = b * (j - -Int.gcdA b a * Delta) := by
    linear_combination heq - Delta * hbezout
  obtain ⟨t, ht⟩ := Int.dvd_of_dvd_mul_right_of_gcd_one (Dvd.intro _ hdiff.symm)
    (by rw [Int.gcd_comm, hgcd])
  refine ⟨t, by linarith, ?_⟩
  rw [ht, mul_left_comm] at hdiff
  have := Int.eq_of_mul_eq_mul_left hb hdiff
  linarith

theorem fits_bound {a : Int} {U : Nat} (ha : a ≠ 0) (h : Fits w (a * U) ∧ Fits w (-(a * U))) :
    Fits w U := by
  have hle : (U : Int) ≤ |a * U| := by
    rw [abs_mul, abs_cast]
    exact le_mul_of_one_le_left (Int.natCast_nonneg U) (Int.one_le_abs ha)
  rcases abs_choice (a * U) with habs | habs
  · exact h.1.of_le (Int.natCast_nonneg U) (by omega)
  · exact h.2.of_le (Int.natCast_nonneg U) (by omega)

theorem fits_parameter_of_two_le {b X t : Int} {U i : Nat} (hb : 2 ≤ |b|)
    (hi : (i : Int) = X + t * b) (hiU : i ≤ U) (hX : Fits w X ∧ Fits w (-X))
    (hbU : Fits w (b * U) ∧ Fits w (-(b * U))) : Fits w t := by
  have ht : 2 * |t| ≤ |(i : Int) - X| := by
    rw [hi, add_sub_cancel_left, abs_mul, mul_comm |t|]
    exact Int.mul_le_mul_of_nonneg_right hb (abs_nonneg t)
  have hU : 2 * (U : Int) ≤ |b * U| := by
    rw [abs_mul, abs_cast]
    exact Int.mul_le_mul_of_nonneg_right hb (Int.natCast_nonneg U)
  have htAbs := abs_choice t
  have htNonneg := abs_nonneg t
  have hiAbs := abs_choice ((i : Int) - X)
  have hUAbs := abs_choice (b * (U : Int))
  unfold Fits at *
  omega

theorem fits_parameter {a b X Y t : Int} {U i j : Nat} (ha : a ≠ 0) (hb : b ≠ 0) (hne : a ≠ b)
    (hopposite : a ≠ -b) (hi : (i : Int) = X + t * b) (hj : (j : Int) = Y + t * a) (hiU : i ≤ U)
    (hjU : j ≤ U) (hX : Fits w X ∧ Fits w (-X)) (hY : Fits w Y ∧ Fits w (-Y))
    (haU : Fits w (a * U) ∧ Fits w (-(a * U))) (hbU : Fits w (b * U) ∧ Fits w (-(b * U))) :
    Fits w t := by
  by_cases htwo : 2 ≤ |b|
  · exact fits_parameter_of_two_le htwo hi hiU hX hbU
  · refine fits_parameter_of_two_le ?_ hj hjU hY haU
    have hbAbs := abs_choice b
    have haAbs := abs_choice a
    have hbNonneg := abs_nonneg b
    have haNonneg := abs_nonneg a
    omega

theorem exactSIVtest_sound (h : S.Representable) (hsrc : S.SrcCoeff ≠ 0) (hdst : S.DstCoeff ≠ 0)
    (hne : S.SrcCoeff ≠ S.DstCoeff) (hopposite : S.SrcCoeff ≠ -S.DstCoeff) (hholds : ExactHolds S)
    (Direction : BitVec 3) :
    ∃ v, exactSIVtest S.SrcCoeff S.DstCoeff S.SrcConst S.DstConst S.UpperBound Direction =
      some v ∧ Sound S Direction v := by
  obtain ⟨hsrcNeg, hdstNeg, hmeet⟩ := hholds
  have ha := toInt_ne_zero hsrc
  have hb := toInt_ne_zero hdst
  have hDelta := toInt_sub h.dst_sub_src
  have hmeets : ∀ i j, S.Meets i j →
      S.SrcCoeff.toInt * i - S.DstCoeff.toInt * j = S.DstConst.toInt - S.SrcConst.toInt := by
    intro i j hij
    have heq := hij.2.2
    rw [src, dst] at heq
    linarith
  unfold exactSIVtest
  simp only
  by_cases hsome : ∃ i j, S.Meets i j
  · obtain ⟨hone, hfits⟩ := hmeet hsome
    obtain ⟨G, X, Y, hfind, hG, hX, hY⟩ := findGCD_coprime hsrc hdst hsrcNeg hdstNeg hone
      (by rw [hDelta]; exact hfits.solutionX.1) (by rw [hDelta]; exact hfits.solutionY.1)
    rw [hDelta] at hX hY
    rw [hfind]
    refine ⟨_, rfl, fun i j hij hD => ?_⟩
    obtain ⟨t, hi, hj⟩ := exists_parameter hb hone (hmeets i j hij)
    have hdiv : ∀ x : BitVec w, x.sdiv G = x := by
      intro x
      rw [← BitVec.toInt_inj, toInt_sdiv, hG, Int.tdiv_one]
      rw [hG, Int.tdiv_one]
      exact fits_toInt x
    have ht := fits_parameter ha hb (fun heq => hne (BitVec.toInt_inj.mp heq))
      (fun heq => hopposite (BitVec.toInt_inj.mp (by rw [heq, toInt_neg hdstNeg]))) hi hj hij.1
      hij.2.1 hfits.solutionX hfits.solutionY h.srcStep h.dstStep
    have hU := fits_bound ha h.srcStep
    have hrangeX : (Parameters.within ⟨BitVec.intMin w, BitVec.intMax w⟩ X S.DstCoeff
        S.UpperBound).Has t :=
      (Parameters.has_all ht).within hb (by rw [hX]; exact hfits.solutionX.2) hU
        (by rw [hX]; exact fun hknown => (hfits.bound hknown).1) hij.1 (by rw [hX]; exact hi)
    have hrange := hrangeX.within (X := Y) (i := j) ha (by rw [hY]; exact hfits.solutionY.2) hU
      (by rw [hY]; exact fun hknown => (hfits.bound hknown).2) hij.2.1 (by rw [hY]; exact hj)
    simp only [hdiv]
    exact exploreDirections_keeps hrange (by rw [hX]; exact hi) (by rw [hY]; exact hj)
      (fun heq => hne (BitVec.toInt_inj.mp heq)) hfits.coefficients.1 hfits.coefficients.2
      (by rw [hX, hY]; exact hfits.apart.1) (by rw [hX, hY]; exact hfits.apart.2) hD
  · obtain ⟨r, hfind⟩ :=
      exists_findGCD hsrc hdst hsrcNeg hdstNeg (S.DstConst - S.SrcConst)
    rw [hfind]
    exact ⟨_, rfl, Sound.of_none (fun i j hij => hsome ⟨i, j, hij⟩) _ _⟩

end Zapcc.SIV
