import Mathlib.Data.Nat.Prime.Basic
import Mathlib.Algebra.BigOperators.Intervals
import Zapcc.Support.APIntGCD
import Zapcc.Support.APIntInverse

/-!
# Evaluation of recurrences

`evaluateAtIteration` multiplies the operands of a recurrence with binomial coefficients, for which
`BinomialCoefficient` shifts the powers of two in `K!` out and multiplies with the inverse of the
odd part. The main result is `evaluateAtIteration_iff`: this is exact unless a factor of `K!` is
zero at the result width and an iteration number reaches it.
-/

namespace Zapcc.Recurrences

open APInt OddParts List BitVec Nat Finset Option

/-- The constructors of expressions, which denote what they say. -/
structure ScalarEvolution where
  SCEV : Nat → Type
  value : {w : Nat} → SCEV w → BitVec w
  getConstant : {w : Nat} → BitVec w → SCEV w
  getAddExpr : {w : Nat} → SCEV w → SCEV w → SCEV w
  getMinusSCEV : {w : Nat} → SCEV w → SCEV w → SCEV w
  getMulExpr : {w : Nat} → SCEV w → SCEV w → SCEV w
  getUDivExpr : {w : Nat} → SCEV w → SCEV w → SCEV w
  getTruncateOrZeroExtend : {w : Nat} → SCEV w → (v : Nat) → SCEV v
  value_constant : ∀ {w} (c : BitVec w), value (getConstant c) = c
  value_add : ∀ {w} (S S' : SCEV w), value (getAddExpr S S') = value S + value S'
  value_minus : ∀ {w} (S S' : SCEV w), value (getMinusSCEV S S') = value S - value S'
  value_mul : ∀ {w} (S S' : SCEV w), value (getMulExpr S S') = value S * value S'
  value_udiv : ∀ {w} (S S' : SCEV w), value S' ≠ 0#w → value (getUDivExpr S S') = value S / value S'
  value_extend : ∀ {w} (S : SCEV w) v, value (getTruncateOrZeroExtend S v) = (value S).setWidth v

attribute [simp] ScalarEvolution.value_constant ScalarEvolution.value_add
  ScalarEvolution.value_minus ScalarEvolution.value_mul ScalarEvolution.value_extend

/-- Expressions that are their values. -/
def ScalarEvolution.values : ScalarEvolution where
  SCEV := BitVec
  value := id
  getConstant := id
  getAddExpr := (· + ·)
  getMinusSCEV := (· - ·)
  getMulExpr := (· * ·)
  getUDivExpr := (· / ·)
  getTruncateOrZeroExtend S v := S.setWidth v
  value_constant _ := rfl
  value_add _ _ := rfl
  value_minus _ _ := rfl
  value_mul _ _ := rfl
  value_udiv _ _ _ := rfl
  value_extend _ _ := rfl

/-! ## The code -/

/-- One factor of `K!`, without its powers of two. -/
def oddStep (W : Nat) (state : BitVec W × Nat) (i : Nat) : BitVec W × Nat :=
  let Mult := BitVec.ofNat W i
  let TwoFactors := countTrailingZeros Mult
  (state.1 * (Mult >>> TwoFactors), state.2 + TwoFactors)

/-- `OddFactorial` and `T`, for `i` from 3 to `K`. -/
def oddFactorial (W K : Nat) : BitVec W × Nat := (range' 3 (K - 2)).foldl (oddStep W) (1#W, 1)

variable (SE : ScalarEvolution) {V W : Nat}

/-- `Dividend`, for `i` from 1 to `K - 1`. -/
def dividend (It : SE.SCEV V) (CalculationBits K : Nat) : SE.SCEV CalculationBits :=
  (range' 1 (K - 1)).foldl (fun Dividend i =>
    SE.getMulExpr Dividend (SE.getTruncateOrZeroExtend
      (SE.getMinusSCEV It (SE.getConstant (BitVec.ofNat V i))) CalculationBits))
    (SE.getTruncateOrZeroExtend It CalculationBits)

/-- `BinomialCoefficient`. There is no result where an assertion fails, and `some none` is
`getCouldNotCompute`. -/
def BinomialCoefficient (It : SE.SCEV V) (K W : Nat) : Option (Option (SE.SCEV W)) :=
  if K = 1 then some (some (SE.getTruncateOrZeroExtend It W))
  else if 1000 < K then some none
  else do
    let (OddFactorial, T) := oddFactorial W K
    let CalculationBits := W + T
    let DivFactor := twoPow CalculationBits T
    let Mod := intMin (W + 1)
    let MultiplyFactor ← multiplicativeInverse (succ_pos W) (OddFactorial.setWidth (W + 1)) Mod
    let DivResult := SE.getUDivExpr (dividend SE It CalculationBits K) (SE.getConstant DivFactor)
    some (some (SE.getMulExpr (SE.getConstant (MultiplyFactor.setWidth W))
      (SE.getTruncateOrZeroExtend DivResult W)))

/-- The loop of `evaluateAtIteration`, over the operands `i` to come. -/
def evaluateFrom (getOperand : Nat → SE.SCEV W) (It : SE.SCEV V) :
    List Nat → SE.SCEV W → Option (Option (SE.SCEV W))
  | [], Result => some (some Result)
  | i :: is, Result => do
      match ← BinomialCoefficient SE It i W with
      | none => some none
      | some Coeff =>
        evaluateFrom getOperand It is
          (SE.getAddExpr Result (SE.getMulExpr (getOperand i) Coeff))

/-- `evaluateAtIteration` of a recurrence whose last operand is the operand `n`. -/
def evaluateAtIteration (getOperand : Nat → SE.SCEV W) (n : Nat) (It : SE.SCEV V) :
    Option (Option (SE.SCEV W)) :=
  evaluateFrom SE getOperand It (range' 1 n) (getOperand 0)

/-! ## The odd part of the factorial -/

/-- The first factor of `K!` that is zero at the width `W`, from 3 on. -/
def firstZero (W : Nat) : Nat := if W = 1 then 4 else 2 ^ W

variable {K : Nat} {state : BitVec W × Nat}

theorem oddStep_spec {i o t f : Nat} (hstate : state = (BitVec.ofNat W o, t)) (hf : f = 2 ^ t * o)
    (ho : Odd o) (hpos : 0 < i) (hW : 0 < W) (hi : i < 2 ^ W ∨ Odd i) :
    ∃ o' t', oddStep W state i = (BitVec.ofNat W o', t') ∧ f * i = 2 ^ t' * o' ∧ Odd o' := by
  have hne : BitVec.ofNat W i ≠ 0#W := by
    intro hzero
    have hmod := congrArg BitVec.toNat hzero
    rw [toNat_ofNat, toNat_zero] at hmod
    rcases hi with hi | hi
    · rw [mod_eq_of_lt hi] at hmod
      omega
    · have hdvd := (dvd_pow_self 2 hW.ne').trans (dvd_of_mod_eq_zero hmod)
      exact absurd hdvd (by rwa [← even_iff_two_dvd, not_even_iff_odd])
  obtain ⟨m, hm⟩ := oddMultiple_countTrailingZeros hne
  obtain ⟨q, hi', hshift, hq⟩ : ∃ q, i = 2 ^ countTrailingZeros (BitVec.ofNat W i) * q ∧
      BitVec.ofNat W i >>> countTrailingZeros (BitVec.ofNat W i) = BitVec.ofNat W q ∧ Odd q := by
    generalize countTrailingZeros (BitVec.ofNat W i) = c at hm
    rw [toNat_ofNat] at hm
    rcases hi with hi | hi
    · rw [mod_eq_of_lt hi] at hm
      refine ⟨2 * m + 1, hm, eq_of_toNat_eq ?_, ⟨m, rfl⟩⟩
      rw [toNat_ushiftRight, toNat_ofNat, toNat_ofNat, mod_eq_of_lt hi,
        shiftRight_eq_div_pow, hm, Nat.mul_div_cancel_left _ (Nat.two_pow_pos c),
        mod_eq_of_lt]
      exact (Nat.le_mul_of_pos_left _ (Nat.two_pow_pos c)).trans_lt (hm ▸ hi)
    · have hodd : Odd (i % 2 ^ W) := by
        rw [odd_iff, mod_mod_of_dvd _ (dvd_pow_self 2 hW.ne'), ← odd_iff]
        exact hi
      have hc : c = 0 := by
        by_contra hc
        rw [hm] at hodd
        exact absurd ((Nat.even_pow.mpr ⟨even_two, hc⟩).mul_right _) (Nat.not_even_iff_odd.mpr hodd)
      subst hc
      exact ⟨i, (Nat.one_mul i).symm, ushiftRight_zero _, hi⟩
  refine ⟨o * q, t + countTrailingZeros (BitVec.ofNat W i), ?_, ?_, ho.mul hq⟩
  · rw [oddStep, hstate]
    rw [hshift, ofNat_mul]
  · rw [pow_add, hf, Nat.mul_mul_mul_comm, ← hi']

theorem oddFactorial_spec (hW : 0 < W) (hK : 2 ≤ K) (hlt : K < firstZero W) :
    ∃ o t, oddFactorial W K = (BitVec.ofNat W o, t) ∧ K.factorial = 2 ^ t * o ∧ Odd o := by
  induction K, hK using le_induction with
  | base => exact ⟨1, 1, rfl, rfl, odd_one⟩
  | succ K hK ih =>
    obtain ⟨o, t, hstate, hf, ho⟩ := ih (by omega)
    have hrange : range' 3 (K + 1 - 2) = range' 3 (K - 2) ++ [K + 1] := by
      rw [show K + 1 - 2 = K - 2 + 1 by omega, range'_concat]
      congr 2
      omega
    have hi : K + 1 < 2 ^ W ∨ Odd (K + 1) := by
      unfold firstZero at hlt
      split at hlt
      · exact .inr (by rw [show K = 2 by omega]; decide)
      · exact .inl hlt
    obtain ⟨o', t', hstep, hf', ho'⟩ := oddStep_spec hstate hf ho (succ_pos K) hW hi
    refine ⟨o', t', ?_, ?_, ho'⟩
    · rw [oddFactorial, hrange, foldl_append]
      exact hstep
    · rw [factorial_succ, Nat.mul_comm, hf']

theorem oddFactorial_zero (hW : 0 < W) (hK : firstZero W ≤ K) : (oddFactorial W K).1 = 0#W := by
  have hkeep : ∀ (is : List Nat) (state : BitVec W × Nat), state.1 = 0#W →
      (is.foldl (oddStep W) state).1 = 0#W := by
    intro is
    induction is with
    | nil => exact fun _ h => h
    | cons i is ih => exact fun state h => ih _ (by rw [oddStep, h, zero_mul])
  have hthree : 3 ≤ firstZero W ∧ 2 ^ W ∣ firstZero W := by
    unfold firstZero
    split
    · next hone => exact ⟨by omega, hone ▸ by decide⟩
    · exact ⟨(by decide : 3 ≤ 2 ^ 2).trans (Nat.pow_le_pow_right (by decide) (by omega)), dvd_rfl⟩
  have hzero : BitVec.ofNat W (firstZero W) = 0#W :=
    eq_of_toNat_eq (by simpa using mod_eq_zero_of_dvd hthree.2)
  have hrange : range' 3 (K - 2) = range' 3 (firstZero W - 3) ++
      firstZero W :: range' (firstZero W + 1) (K - firstZero W) := by
    rw [← range'_succ, show firstZero W = 3 + (firstZero W - 3) by omega,
      Nat.add_sub_cancel_left, range'_append_1]
    congr 1
    omega
  rw [oddFactorial, hrange, foldl_append, foldl_cons]
  exact hkeep _ _ (by rw [oddStep, hzero, zero_ushiftRight, mul_zero])

/-! ## Binomial coefficients -/

theorem value_dividend (It : SE.SCEV V) (C : Nat) (hK : 1 ≤ K) :
    SE.value (dividend SE It C K) = BitVec.ofNat C ((SE.value It).toNat.descFactorial K) := by
  induction K, hK using le_induction with
  | base =>
    rw [descFactorial_one, ofNat_toNat]
    exact SE.value_extend _ _
  | succ K hK ih =>
    have hrange : range' 1 (K + 1 - 1) = range' 1 (K - 1) ++ [K] := by
      rw [show K + 1 - 1 = K - 1 + 1 by omega, range'_concat]
      congr 2
      omega
    unfold dividend at ih ⊢
    rw [hrange, foldl_append, foldl_cons, foldl_nil, SE.value_mul, ih,
      SE.value_extend, SE.value_minus, SE.value_constant, descFactorial_succ, Nat.mul_comm,
      ofNat_mul]
    by_cases hle : K ≤ (SE.value It).toNat
    · have hsub : (SE.value It - BitVec.ofNat V K).toNat = (SE.value It).toNat - K := by
        have hofNat := mod_eq_of_lt (hle.trans_lt (SE.value It).isLt)
        rw [toNat_sub_of_le (by rw [le_def, toNat_ofNat, hofNat]; exact hle), toNat_ofNat, hofNat]
      rw [← hsub, ofNat_toNat]
    · rw [descFactorial_of_lt (by omega)]
      simp

/-- The value of `BinomialCoefficient`. -/
def coefficient (W It K : Nat) : BitVec W :=
  if K ≠ 1 ∧ firstZero W ≤ K then 0#W else BitVec.ofNat W (It.choose K)

theorem divide_exact {o t c : Nat} {inverse : BitVec (W + 1)} (hW : 0 < W)
    (hinverse : (BitVec.ofNat W o).toNat * inverse.toNat ≡ 1 [MOD 2 ^ W]) :
    inverse.setWidth W * (BitVec.ofNat (W + t) (2 ^ t * o * c) / twoPow (W + t) t).setWidth W
      = BitVec.ofNat W c := by
  have hshift : 2 ^ t * o * c % 2 ^ (W + t) / 2 ^ t = o * c % 2 ^ W := by
    rw [Nat.mul_assoc, Nat.add_comm W t, pow_add, mul_mod_mul_left,
      Nat.mul_div_cancel_left _ (Nat.two_pow_pos t)]
  have htwo : (2 : Nat) ^ t < 2 ^ (W + t) := Nat.pow_lt_pow_right (by decide) (by omega)
  refine eq_of_toNat_eq ?_
  rw [toNat_mul, toNat_setWidth, toNat_setWidth, toNat_udiv,
    toNat_ofNat, toNat_twoPow, mod_eq_of_lt htwo, hshift, mod_mod,
    ← mul_mod, ← Nat.mul_assoc, toNat_ofNat]
  have hmul : o * inverse.toNat ≡ 1 [MOD 2 ^ W] := by
    refine Nat.ModEq.trans ?_ hinverse
    exact (mod_modEq o _).symm.mul_right _
  have hone := hmul.mul_right c
  rw [Nat.one_mul, Nat.mul_comm o] at hone
  exact hone

theorem value_binomial (hW : 0 < W) (It : SE.SCEV V) (hK : 1 ≤ K) (hle : K ≤ 1000) :
    ∃ S, BinomialCoefficient SE It K W = some (some S) ∧
      SE.value S = coefficient W (SE.value It).toNat K := by
  unfold BinomialCoefficient
  by_cases hone : K = 1
  · subst hone
    refine ⟨_, if_pos rfl, ?_⟩
    rw [SE.value_extend, coefficient, if_neg (fun h => h.1 rfl), choose_one_right, ofNat_toNat]
  · rw [if_neg hone, if_neg (Nat.not_lt.mpr hle)]
    rcases hodd : oddFactorial W K with ⟨OddFactorial, T⟩
    have hmod : (intMin (W + 1)).toNat = 2 ^ W := by
      rw [toNat_intMin, Nat.add_sub_cancel,
        mod_eq_of_lt (Nat.pow_lt_pow_right (by decide) (lt_succ_self W))]
    have hext : (OddFactorial.setWidth (W + 1)).toNat = OddFactorial.toNat :=
      toNat_setWidth_of_le (le_succ W)
    obtain ⟨inverse, hrun, hcoprime, hnot⟩ := multiplicativeInverse_spec (succ_pos W)
      (OddFactorial.setWidth (W + 1)) (intMin (W + 1))
      (by rw [lt_def, hmod, hext]; exact OddFactorial.isLt)
    rw [hmod, hext] at hcoprime hnot
    have hdiv : SE.value (SE.getConstant (twoPow (W + T) T)) ≠ 0#(W + T) := by
      rw [SE.value_constant, ne_eq, ← toNat_inj, toNat_twoPow,
        mod_eq_of_lt (Nat.pow_lt_pow_right (by decide) (by omega)), toNat_zero]
      exact (Nat.two_pow_pos T).ne'
    have hwidth : 1 < 2 ^ W := Nat.one_lt_two_pow hW.ne'
    dsimp only
    rw [hrun]
    refine ⟨_, rfl, ?_⟩
    simp only [SE.value_mul, SE.value_constant, SE.value_extend, SE.value_udiv _ _ hdiv,
      value_dividend SE It _ hK]
    unfold coefficient
    split
    · next hzero =>
      have hodd0 : OddFactorial = 0#W := by
        rw [← oddFactorial_zero hW hzero.2, hodd]
      rw [hnot (by rw [hodd0]; simp [Nat.Coprime]; omega)]
      simp
    · next hbelow =>
      have hlt : K < firstZero W := Nat.not_le.mp fun h => hbelow ⟨hone, h⟩
      obtain ⟨o, t, hstate, hf, ho⟩ := oddFactorial_spec hW (by omega) hlt
      obtain ⟨rfl, rfl⟩ := Prod.mk.inj (hodd.symm.trans hstate)
      have hcop : Nat.Coprime (BitVec.ofNat W o).toNat (2 ^ W) := by
        rw [toNat_ofNat, Nat.Coprime, ← gcd_rec]
        exact (Odd.coprime_two_left ho).pow_left W
      rw [descFactorial_eq_factorial_mul_choose, hf]
      exact divide_exact hW (hcoprime hwidth hcop).2

theorem evaluateFrom_spec (hW : 0 < W) (getOperand : Nat → SE.SCEV W) (It : SE.SCEV V) :
    ∀ (count first : Nat) (Result : SE.SCEV W), 1 ≤ first → first + count ≤ 1001 →
      ∃ S, evaluateFrom SE getOperand It (range' first count) Result = some (some S) ∧
        SE.value S = SE.value Result + ∑ k ∈ Finset.Ico first (first + count),
          SE.value (getOperand k) * coefficient W (SE.value It).toNat k := by
  intro count
  induction count with
  | zero => exact fun first Result _ _ => ⟨Result, rfl, by simp⟩
  | succ count ih =>
    intro first Result hfirst hle
    obtain ⟨Coeff, hCoeff, hvalue⟩ := value_binomial SE hW It hfirst (by omega)
    obtain ⟨S, hS, hsum⟩ := ih (first + 1)
      (SE.getAddExpr Result (SE.getMulExpr (getOperand first) Coeff)) (by omega) (by omega)
    refine ⟨S, ?_, ?_⟩
    · rw [range'_succ, evaluateFrom, hCoeff]
      exact hS
    · rw [hsum, SE.value_add, SE.value_mul, hvalue,
        sum_eq_sum_Ico_succ_bot (show first < first + (count + 1) by omega), add_assoc,
        Nat.add_right_comm first 1 count, Nat.add_assoc first count 1]

/-- The computation ends with an expression for a value. -/
def Denotes (result : Option (Option (SE.SCEV W))) (v : BitVec W) : Prop :=
  ∃ S, result = some (some S) ∧ SE.value S = v

theorem two_lt_firstZero (hW : 0 < W) : 2 < firstZero W := by
  unfold firstZero
  split
  · decide
  · exact (by decide : 2 < 2 ^ 2).trans_le (Nat.pow_le_pow_right (by decide) (by omega))

theorem ofNat_one_ne (hW : 0 < W) : BitVec.ofNat W 1 ≠ 0#W := by
  intro h
  have hnat := congrArg BitVec.toNat h
  rw [toNat_ofNat, toNat_zero, mod_eq_of_lt (Nat.one_lt_two_pow hW.ne')] at hnat
  exact one_ne_zero hnat

theorem coefficient_eq {It : Nat} (h : K < firstZero W ∨ It < K) :
    coefficient W It K = BitVec.ofNat W (It.choose K) := by
  unfold coefficient
  split
  · next hzero =>
    rw [choose_eq_zero_of_lt (h.resolve_left (Nat.not_lt.mpr hzero.2))]
  · rfl

theorem binomial_iff (hW : 0 < W) (hK : 1 ≤ K) (hle : K ≤ 1000) :
    (∀ It : SE.SCEV V, Denotes SE (BinomialCoefficient SE It K W)
      (BitVec.ofNat W ((SE.value It).toNat.choose K))) ↔ K < firstZero W ∨ 2 ^ V ≤ K := by
  constructor
  · intro h
    by_contra hnot
    obtain ⟨hzero, hlt⟩ := not_or.mp hnot
    obtain ⟨S, hS, hvalue⟩ := h (SE.getConstant (BitVec.ofNat V K))
    obtain ⟨S', hS', hvalue'⟩ := value_binomial SE hW (SE.getConstant (BitVec.ofNat V K)) hK hle
    obtain rfl := some.inj (some.inj (hS.symm.trans hS'))
    rw [hvalue', SE.value_constant, toNat_ofNat, mod_eq_of_lt (Nat.not_le.mp hlt),
      choose_self, coefficient, if_pos ⟨by have := two_lt_firstZero hW; omega, by omega⟩] at hvalue
    exact ofNat_one_ne hW hvalue.symm
  · intro h It
    obtain ⟨S, hS, hvalue⟩ := value_binomial SE hW It hK hle
    exact ⟨S, hS, hvalue.trans (coefficient_eq (h.imp_right (SE.value It).isLt.trans_le))⟩

theorem evaluate_iff {n : Nat} (hW : 0 < W) (hn : n ≤ 1000) :
    (∀ (getOperand : Nat → SE.SCEV W) (It : SE.SCEV V),
      Denotes SE (evaluateAtIteration SE getOperand n It) (BitVec.ofNat W
        (∑ k ∈ Finset.range (n + 1),
          (SE.value (getOperand k)).toNat * (SE.value It).toNat.choose k))) ↔
      n < firstZero W ∨ 2 ^ V ≤ firstZero W := by
  have hspec (getOperand : Nat → SE.SCEV W) (It : SE.SCEV V) :=
    evaluateFrom_spec SE hW getOperand It n 1 (getOperand 0) le_rfl (by omega)
  constructor
  · intro h
    by_contra hnot
    obtain ⟨hzero, hlt⟩ := not_or.mp hnot
    have htwo := two_lt_firstZero hW
    let getOperand k := SE.getConstant (BitVec.ofNat W (if k = firstZero W then 1 else 0))
    let It := SE.getConstant (BitVec.ofNat V (firstZero W))
    obtain ⟨S, hS, hvalue⟩ := h getOperand It
    obtain ⟨S', hS', hvalue'⟩ := hspec getOperand It
    obtain rfl := some.inj (some.inj (hS.symm.trans hS'))
    have hoperand (k : Nat) : SE.value (getOperand k) =
        BitVec.ofNat W (if k = firstZero W then 1 else 0) := SE.value_constant _
    have hIt : (SE.value It).toNat = firstZero W := by
      rw [SE.value_constant, toNat_ofNat, mod_eq_of_lt (Nat.not_le.mp hlt)]
    have hcode : SE.value S = 0#W := by
      rw [hvalue', hoperand, if_neg (by omega)]
      refine (zero_add _).trans (Finset.sum_eq_zero fun k _ => ?_)
      rw [hoperand]
      split
      · next heq =>
        rw [coefficient, if_pos ⟨by omega, heq.ge⟩]
        exact mul_zero
      · exact zero_mul
    have hsum : ∑ k ∈ Finset.range (n + 1),
        (SE.value (getOperand k)).toNat * (SE.value It).toNat.choose k = 1 := by
      rw [sum_eq_single (firstZero W), hoperand, if_pos rfl, hIt, choose_self,
        toNat_ofNat, mod_eq_of_lt (Nat.one_lt_two_pow hW.ne')]
      · intro k _ hk
        rw [hoperand, if_neg hk]
        simp
      · exact fun hout => absurd (Finset.mem_range.mpr (by omega)) hout
    rw [hsum, hcode] at hvalue
    exact ofNat_one_ne hW hvalue.symm
  · intro h getOperand It
    obtain ⟨S, hS, hvalue⟩ := hspec getOperand It
    refine ⟨S, hS, hvalue.trans ?_⟩
    have hcoefficient : ∀ k ∈ Finset.Ico 1 (1 + n),
        SE.value (getOperand k) * coefficient W (SE.value It).toNat k =
          BitVec.ofNat W ((SE.value (getOperand k)).toNat * (SE.value It).toNat.choose k) := by
      intro k hk
      have hrange := mem_Ico.mp hk
      rw [coefficient_eq (by omega), ofNat_mul, ofNat_toNat, setWidth_eq]
    have hofNat (s : Finset Nat) (f : Nat → Nat) :
        ∑ k ∈ s, BitVec.ofNat W (f k) = BitVec.ofNat W (∑ k ∈ s, f k) := by
      induction s using Finset.induction with
      | empty => rfl
      | insert k s hk ih => rw [sum_insert hk, sum_insert hk, ih, ofNat_add]
    rw [sum_congr rfl hcoefficient, hofNat, range_eq_Ico,
      sum_eq_sum_Ico_succ_bot (succ_pos n), ofNat_add, choose_zero_right,
      Nat.mul_one, ofNat_toNat, setWidth_eq, succ_eq_add_one, Nat.add_comm n 1]

/-- Recurrences are evaluated exactly at every iteration if and only if no factor of `K!` is zero at
the width of the result or no iteration number reaches such a factor. -/
theorem evaluateAtIteration_iff {n : Nat} (hW : 0 < W) (hn : n ≤ 1000) :
    (∀ K, 1 ≤ K → K ≤ 1000 → ((∀ It : SE.SCEV V, Denotes SE (BinomialCoefficient SE It K W)
      (BitVec.ofNat W ((SE.value It).toNat.choose K))) ↔ K < firstZero W ∨ 2 ^ V ≤ K)) ∧
    ((∀ (getOperand : Nat → SE.SCEV W) (It : SE.SCEV V),
      Denotes SE (evaluateAtIteration SE getOperand n It) (BitVec.ofNat W
        (∑ k ∈ Finset.range (n + 1),
          (SE.value (getOperand k)).toNat * (SE.value It).toNat.choose k))) ↔
      n < firstZero W ∨ 2 ^ V ≤ firstZero W) :=
  ⟨fun _ hK hle => binomial_iff SE hW hK hle, evaluate_iff SE hW hn⟩

theorem evaluateAtIteration_iff_byte :
    (∀ K, 1 ≤ K → K ≤ 1000 → ((∀ It : BitVec 16,
      Denotes .values (BinomialCoefficient .values It K 8) (BitVec.ofNat 8 (It.toNat.choose K))) ↔
        K < firstZero 8 ∨ 2 ^ 16 ≤ K)) ∧
    ((∀ (getOperand : Nat → BitVec 8) (It : BitVec 16),
      Denotes .values (evaluateAtIteration .values getOperand 300 It) (BitVec.ofNat 8
        (∑ k ∈ Finset.range 301, (getOperand k).toNat * It.toNat.choose k))) ↔
      300 < firstZero 8 ∨ 2 ^ 16 ≤ firstZero 8) :=
  evaluateAtIteration_iff .values (by decide) (by decide)

/-- Iteration 4 of a recurrence of one bit: the coefficient of its operand 4 is 1, not 0. -/
theorem not_evaluates_bit : ¬ ∀ It : BitVec 3, Denotes .values (BinomialCoefficient .values It 4 1)
    (BitVec.ofNat 1 (It.toNat.choose 4)) := by
  intro h
  obtain ⟨S, hS, hvalue⟩ := h 4#3
  obtain ⟨S', hS', hvalue'⟩ := value_binomial .values (K := 4) (by decide : 0 < 1)
    (4#3 : ScalarEvolution.values.SCEV 3) (by decide) (by decide)
  obtain rfl := some.inj (some.inj (hS.symm.trans hS'))
  exact absurd (hvalue'.symm.trans hvalue) (by decide)

end Zapcc.Recurrences
