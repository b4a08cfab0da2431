import Zapcc.CodeGen.TargetLowering

/-!
# Lowering a signed division

The multiply-high, the fixup by the sign and the overflow of the magic number, and the shift
compute the scaled product of the dividend, rounded down, and the sign bit rounds it towards zero
(`BuildSDIV_eval`).
-/

namespace Zapcc.CodeGen

open Magic MagicDivision BitVec Int

variable {w : Nat}

/-! ## Rounding -/

theorem scaled_tdiv {M P δ ad : Nat} (hP : 0 < P) (had : 0 < ad) (hm : M * ad = P + δ)
    (hδ : 0 < δ) {x : Int}
    (hpos : 0 ≤ x → x.natAbs * δ < P * (ad - x.natAbs % ad))
    (hneg : x < 0 → x.natAbs * δ ≤ P * (ad - x.natAbs % ad)) :
    x * M / P + (if x * M / P < 0 then 1 else 0) = x.tdiv ad := by
  rcases Int.lt_or_le x 0 with hx | hx
  · obtain ⟨a, rfl⟩ : ∃ a : Nat, x = -(a : Int) := ⟨x.natAbs, by omega⟩
    have ha : 0 < a := by omega
    simp only [natAbs_neg, natAbs_natCast] at hneg
    obtain ⟨hlow, hhigh⟩ := mul_ceil_of_error had hm (Nat.mul_pos ha hδ) (hneg hx)
    have hP' : (0 : Int) < P := by exact_mod_cast hP
    have hdiv : -(a : Int) * M / P = -((a / ad : Nat) : Int) - 1 := by
      have hlow' : ((a / ad : Nat) : Int) * P < a * M := by exact_mod_cast hlow
      have hhigh' : (a : Int) * M ≤ ((a / ad : Nat) + 1) * P := by exact_mod_cast hhigh
      apply le_antisymm
      · rw [← lt_add_one_iff]
        apply Int.ediv_lt_of_lt_mul hP'
        linarith
      · apply Int.le_ediv_of_mul_le hP'
        linarith
    rw [hdiv, if_pos (by have : (0 : Int) ≤ ((a / ad : Nat) : Int) := natCast_nonneg _; omega),
        Int.neg_tdiv]
    have htdiv : (a : Int).tdiv ad = ((a / ad : Nat) : Int) := by
      rfl
    omega
  · obtain ⟨a, rfl⟩ : ∃ a : Nat, x = a := ⟨x.natAbs, by omega⟩
    simp only [natAbs_natCast] at hpos
    have hdiv : (a : Int) * M / P = ((a / ad : Nat) : Int) := by
      rw [← mul_div_of_error had hm (hpos hx)]
      exact_mod_cast rfl
    rw [hdiv, if_neg (by have : (0 : Int) ≤ ((a / ad : Nat) : Int) := natCast_nonneg _; omega),
        Int.add_zero, tdiv_eq_ediv_of_nonneg hx]
    rfl

theorem high_range {h W M : Nat} (hW : M < W) {x : Int} (hlow : -(h : Int) ≤ x)
    (hhigh : x ≤ h) (hh : 0 < h) : -(h : Int) ≤ x * M / W ∧ x * M / W < h := by
  have hW' : (0 : Int) < W := by exact_mod_cast Nat.lt_of_le_of_lt (Nat.zero_le M) hW
  constructor
  · apply Int.le_ediv_of_mul_le hW'
    nlinarith
  · apply Int.ediv_lt_of_lt_mul hW'
    nlinarith

theorem ediv_width_shift (y : Int) (s : Nat) :
    y / ((2 ^ w : Nat) : Int) / ((2 ^ s : Nat) : Int) = y / ((2 ^ (w + s) : Nat) : Int) := by
  rw [ediv_ediv_of_nonneg (natCast_nonneg _)]
  congr 1
  exact_mod_cast (Nat.pow_add 2 w s).symm

/-! ## The bits -/

theorem sign_bit (hw : 0 < w) (Q : BitVec w) :
    Q >>> (w - 1) = BitVec.ofInt w (if Q.toInt < 0 then 1 else 0) := by
  have hpow := WrapAround.two_pow_eq_two_mul hw
  have hneg : Q.toInt < 0 ↔ 2 ^ (w - 1) ≤ Q.toNat := by
    rw [toInt_eq_toNat_cond]
    split <;> omega
  apply eq_of_toNat_eq
  rw [toNat_ushiftRight, Nat.shiftRight_eq_div_pow]
  by_cases hge : 2 ^ (w - 1) ≤ Q.toNat
  · have hdiv : Q.toNat / 2 ^ (w - 1) = 1 := Nat.div_eq_of_lt_le (by omega) (by omega)
    have hmod : (1 : Int) % ((2 ^ w : Nat) : Int) = 1 :=
      emod_eq_of_lt (by omega) (by omega)
    rw [if_pos (hneg.mpr hge), hdiv, toNat_ofInt, hmod]
    rfl
  · rw [if_neg (fun h => hge (hneg.mp h)), Nat.div_eq_of_lt (by omega)]
    simp

theorem sdiv_eq_ofInt (n d : BitVec w) : n.sdiv d = BitVec.ofInt w (n.toInt.tdiv d.toInt) := by
  apply eq_of_toInt_eq
  rw [toInt_sdiv, toInt_ofInt]

theorem toInt_ofInt_of_range (hw : 0 < w) {y : Int} (hlow : -((2 ^ (w - 1) : Nat) : Int) ≤ y)
    (hhigh : y < ((2 ^ (w - 1) : Nat) : Int)) : (BitVec.ofInt w y).toInt = y := by
  apply toInt_ofInt_eq_self hw
  · exact_mod_cast hlow
  · exact_mod_cast hhigh

/-! ## The multiplication -/

/-- The dividend, with the sign of the divisor taken away. -/
def signedOperand (n d : BitVec w) : Int := if d.msb then -n.toInt else n.toInt

/-- The high half of the product with the magic number, after the fixup. -/
def fixedProduct (n d m : BitVec w) : BitVec w :=
  let Q := mulhs n m
  let Q := if 0 < d.toInt ∧ m.toInt < 0 then Q + n else Q
  if d.toInt < 0 ∧ 0 < m.toInt then Q - n else Q

theorem fixedProduct_eq {n d m : BitVec w} {M : Nat} (hd : d ≠ 0) (hM : 0 < M)
    (hfits : M < 2 ^ w) (hm : m = if d.msb then -BitVec.ofNat w M else BitVec.ofNat w M) :
    fixedProduct n d m = BitVec.ofInt w (signedOperand n d * M / ((2 ^ w : Nat) : Int)) := by
  have hW : ((2 ^ w : Nat) : Int) ≠ 0 := by
    omega
  have hd0 : d.toInt ≠ 0 := fun h => hd (eq_of_toInt_eq (by simpa using h))
  have hsign : d.toInt < 0 ↔ d.msb = true := (msb_eq_toInt ▸ by simp)
  have hmsb : d.msb = true ∨ d.msb = false := by cases d.msb <;> simp
  have hcast : ∀ y : Int, mulhs n m = BitVec.ofInt w (y / ((2 ^ w : Nat) : Int)) ↔
      BitVec.ofInt w (n.toInt * m.toInt / ((2 ^ w : Nat) : Int)) =
        BitVec.ofInt w (y / ((2 ^ w : Nat) : Int)) := by
    intro y
    rfl
  unfold fixedProduct
  rcases hmsb with hneg | hpos
  · have hdneg : d.toInt < 0 := hsign.mpr hneg
    rw [if_pos hneg] at hm
    have hmNat : m.toNat = 2 ^ w - M := by
      rw [hm, toNat_neg, toNat_ofNat, Nat.mod_eq_of_lt hfits, Nat.mod_eq_of_lt (by omega)]
    have hmInt := toInt_eq_toNat_cond m
    have hop : signedOperand n d = -n.toInt := if_pos hneg
    rw [hop]
    simp only [hdneg, true_and, show ¬0 < d.toInt by omega, false_and, if_false]
    split
    · rename_i hmpos
      have hval : m.toInt = ((2 ^ w : Nat) : Int) - M := by
        rw [hmInt] at hmpos ⊢
        split at hmpos <;> rename_i hc
        · omega
        · omega
      have hsplit : n.toInt * m.toInt = -n.toInt * M + n.toInt * ((2 ^ w : Nat) : Int) := by
        rw [hval]
        ring
      have hprod := (hcast (n.toInt * m.toInt)).mpr rfl
      rw [hprod, hsplit, add_mul_ediv_right _ _ hW, ofInt_add, ofInt_toInt, BitVec.add_sub_cancel]
    · rename_i hmneg
      have hval : m.toInt = -(M : Int) := by
        rw [hmInt] at hmneg ⊢
        split at hmneg <;> rename_i hc
        · omega
        · omega
      refine (hcast _).mpr ?_
      rw [hval, Int.mul_neg, Int.neg_mul]
  · have hdpos : 0 < d.toInt := by
      have := mt hsign.mp (by simp [hpos])
      omega
    rw [if_neg (by simp [hpos])] at hm
    have hmNat : m.toNat = M := by
      rw [hm, toNat_ofNat, Nat.mod_eq_of_lt hfits]
    have hmInt := toInt_eq_toNat_cond m
    rw [hmNat] at hmInt
    have hop : signedOperand n d = n.toInt := if_neg (by simp [hpos])
    rw [hop]
    simp only [hdpos, true_and, show ¬d.toInt < 0 by omega, false_and, if_false]
    split
    · rename_i hmneg
      have hval : m.toInt = (M : Int) - ((2 ^ w : Nat) : Int) := by
        rw [hmInt] at hmneg ⊢
        split at hmneg <;> rename_i hc
        · omega
        · rw [if_neg hc]
      have hsplit : n.toInt * m.toInt = n.toInt * M + -n.toInt * ((2 ^ w : Nat) : Int) := by
        rw [hval]
        ring
      have hprod := (hcast (n.toInt * m.toInt)).mpr rfl
      rw [hprod, hsplit, add_mul_ediv_right _ _ hW, ofInt_add, ofInt_neg,
          ofInt_toInt, BitVec.add_assoc, BitVec.add_comm (-n), add_right_neg,
          BitVec.add_zero]
    · rename_i hmpos
      have hval : m.toInt = M := by
        rw [hmInt] at hmpos ⊢
        split at hmpos <;> rename_i hc
        · rw [if_pos hc]
        · omega
      refine (hcast _).mpr ?_
      rw [hval]

/-! ## The quotient -/

/-- The shifted product with its sign bit added. -/
def roundedQuotient (Q : BitVec w) (s : Nat) : BitVec w :=
  let Q := if s > 0 then Q.sshiftRight s else Q
  Q + Q >>> (w - 1)

theorem roundedQuotient_eq {n d : BitVec w} {r : Ms w} {M p δ : Nat} (hw : 2 ≤ w) (hd : d ≠ 0)
    (h : IsMagic d r M p δ) :
    roundedQuotient (fixedProduct n d r.m) r.s = n.sdiv d := by
  have hpow : 2 ^ w = 2 * 2 ^ (w - 1) := WrapAround.two_pow_eq_two_mul (by omega)
  have hhalf := Nat.two_pow_pos (w - 1)
  have hd0 : d.toNat ≠ 0 := fun h => hd (eq_of_toNat_eq (by simpa using h))
  -- the dividend, with the sign of the divisor taken away
  generalize hx : signedOperand n d = x
  have hlow := le_toInt n
  have hhigh := toInt_lt (x := n)
  have hcast : ((2 ^ (w - 1) : Nat) : Int) = 2 ^ (w - 1) := by push_cast; rfl
  rw [← hcast] at hlow hhigh
  have hrange : -((2 ^ (w - 1) : Nat) : Int) ≤ x ∧ x ≤ ((2 ^ (w - 1) : Nat) : Int) := by
    rw [← hx, signedOperand]
    split <;> omega
  have hprod := high_range h.fits hrange.1 hrange.2 hhalf
  have hQ : (fixedProduct n d r.m).toInt = x * M / ((2 ^ w : Nat) : Int) := by
    rw [fixedProduct_eq hd h.pos h.fits h.m, hx]
    exact toInt_ofInt_of_range (by omega) hprod.1 hprod.2
  have hshift : (if r.s > 0 then (fixedProduct n d r.m).sshiftRight r.s
      else fixedProduct n d r.m).toInt = x * M / ((2 ^ p : Nat) : Int) := by
    rw [h.s, ← ediv_width_shift, ← hQ]
    split
    · rw [toInt_sshiftRight, shiftRight_eq_div_pow]
    · obtain hs : r.s = 0 := by omega
      simp [hs]
  -- the absolute value of the divisor
  have habs : 0 < d.abs.toNat ∧ n.toInt.tdiv d.toInt = x.tdiv d.abs.toNat := by
    have hmsb := msb_eq_decide d
    have hint := toInt_eq_toNat_cond d
    rw [← hx, signedOperand, toNat_abs]
    by_cases hneg : 2 ^ (w - 1) ≤ d.toNat
    · rw [hmsb, decide_eq_true hneg, if_pos rfl, if_pos rfl]
      refine ⟨by omega, ?_⟩
      have hval : d.toInt = -((2 ^ w - d.toNat : Nat) : Int) := by omega
      rw [hval, Int.tdiv_neg, Int.neg_tdiv]
    · rw [hmsb, decide_eq_false hneg, if_neg (by simp), if_neg (by simp)]
      rw [if_pos (by omega)] at hint
      exact ⟨by omega, by rw [hint]⟩
  have hround := scaled_tdiv (x := x) (Nat.two_pow_pos p) habs.1 h.mul h.error_pos
    (fun hx0 => h.error _ ?_) (fun hx0 => ?_)
  · rw [sdiv_eq_ofInt, habs.2, ← hround, ofInt_add, ← hshift]
    unfold roundedQuotient
    simp only
    rw [sign_bit (by omega), ofInt_toInt]
  · rw [← hx, signedOperand] at hx0 ⊢
    cases hsign : d.msb with
    | false =>
      simp only [hsign, Bool.false_eq_true, if_false, Bool.toNat_false, Nat.add_zero] at hx0 ⊢
      omega
    | true =>
      simp only [hsign, if_true, Bool.toNat_true] at hx0 ⊢
      omega
  · rw [← hx, signedOperand] at hx0 ⊢
    cases hsign : d.msb with
    | false =>
      simp only [hsign, Bool.false_eq_true, if_false] at hx0 ⊢
      by_cases hbound : n.toInt.natAbs = 2 ^ (w - 1)
      · rw [hbound]
        exact h.error_bound hsign
      · refine (h.error _ ?_).le
        omega
    | true =>
      simp only [hsign, if_true] at hx0 ⊢
      refine (h.error _ ?_).le
      omega

/-! ## The expression -/

theorem eval_fixup {n d m : BitVec w} {Q : SDValue w} (hQ : Q.eval n = some (mulhs n m)) :
    (fixup d m Q).eval n = some (fixedProduct n d m) := by
  unfold fixup fixedProduct
  split <;> split <;> simp [SDValue.eval, hQ]

theorem eval_shiftAndRound {n q : BitVec w} {Q : SDValue w} {s : Nat} (hw : 0 < w)
    (hQ : Q.eval n = some q) (hs : s < w) :
    (shiftAndRound Q s).eval n = some (roundedQuotient q s) := by
  have hlast : w - 1 < w := by omega
  unfold shiftAndRound roundedQuotient
  split <;> simp [SDValue.eval, hQ, hs, hlast]

theorem BuildSDIV_eval (T : Target) (IsAfterLegalization : Bool) {d : BitVec w} (hw : 3 ≤ w)
    (h0 : d ≠ 0) (h1 : d ≠ 1) (hm1 : d ≠ -1) {fuel : Nat} (hfuel : w ≤ fuel) :
    ∃ r, BuildSDIV T IsAfterLegalization false d fuel = some r ∧
      (r.isSome ↔ T.isTypeLegal = true ∧ (T.supports IsAfterLegalization .MULHS = true ∨
        T.supports IsAfterLegalization .SMUL_LOHI = true)) ∧
      ∀ e, r = some e → ∀ n, e.eval n = some (n.sdiv d) := by
  obtain ⟨r, M, p, δ, hmagic, hr⟩ := magic_spec hw h0 h1 hm1 hfuel
  unfold BuildSDIV
  by_cases hlegal : T.isTypeLegal = true
  · rw [if_neg (by simp [hlegal]), if_neg (by simp), hmagic]
    refine ⟨_, rfl, ?_, fun e he n => ?_⟩
    · rw [Option.isSome_map, isSome_highProduct]
      simp [hlegal]
    · obtain ⟨Q, hQ, rfl⟩ := Option.map_eq_some_iff.mp he
      have heval : Q.eval n = some (mulhs n r.m) := by
        rcases highProduct_eq hQ with rfl | rfl <;> rfl
      rw [eval_shiftAndRound (by omega) (eval_fixup heval) hr.s_lt,
          roundedQuotient_eq (by omega) h0 hr]
  · have hlegal' : T.isTypeLegal = false := by simpa using hlegal
    rw [if_pos hlegal']
    exact ⟨none, rfl, by simp [hlegal'], by simp⟩

end Zapcc.CodeGen
