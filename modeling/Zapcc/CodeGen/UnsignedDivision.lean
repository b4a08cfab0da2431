import Zapcc.CodeGen.ExactDivision

/-!
# Lowering an unsigned division

A multiplier of one bit more than the width is used through the sum of the dividend and the high
half of the product, which is halved before it can overflow. An even divisor does not need it: the
dividend is shifted first, and then the multiplier fits (`BuildUDIV_eval`).
-/

namespace Zapcc.CodeGen

open Magic MagicDivision Nat

variable {w : Nat}

theorem toNat_mulhu (a b : BitVec w) : (mulhu a b).toNat = a.toNat * b.toNat / 2 ^ w := by
  unfold mulhu
  rw [BitVec.toNat_ofNat, mod_eq_of_lt]
  rw [Nat.div_lt_iff_lt_mul (Nat.two_pow_pos w)]
  exact Nat.mul_lt_mul_of_lt_of_le a.isLt b.isLt.le (Nat.two_pow_pos w)

variable {M p δ : Nat}

variable {d : BitVec w} {r : Mu w}

theorem IsMagicu.quotient {k : Nat}
    (h : IsMagicu k d r M p δ) (hd : 0 < d.toNat) {n : Nat} (hn : n < 2 ^ k) :
    n * M / 2 ^ w / 2 ^ r.s = n / d.toNat := by
  rw [Nat.div_div_eq_div_mul, ← Nat.pow_add, ← h.s]
  exact mul_div_of_error hd h.mul (h.error n hn)

theorem IsMagicu.shift_lt {k : Nat}
    (h : IsMagicu k d r M p δ) (hM : M < 2 ^ w) : r.s < w := by
  by_contra hge
  have hs := h.s
  have hle := h.s_le
  have hmul := h.mul
  have hpow : 2 ^ p = 2 ^ w * 2 ^ w := by rw [hs, ← Nat.pow_add, show r.s = w by omega]
  have hless : M * d.toNat < 2 ^ w * 2 ^ w :=
    Nat.mul_lt_mul_of_lt_of_le hM d.isLt.le (Nat.two_pow_pos w)
  omega

theorem IsMagicu.srl_mulhu {k : Nat} {n : BitVec w}
    (h : IsMagicu k d r M p δ) (hd : 0 < d.toNat) (hM : M < 2 ^ w) (hn : n.toNat < 2 ^ k) :
    mulhu n r.m >>> r.s = n / d := by
  apply BitVec.eq_of_toNat_eq
  rw [BitVec.toNat_ushiftRight, shiftRight_eq_div_pow, toNat_mulhu, BitVec.toNat_udiv, h.m,
      BitVec.toNat_ofNat, mod_eq_of_lt hM]
  exact IsMagicu.quotient h hd hn

theorem IsMagicu.srl_add {n : BitVec w} (h : IsMagicu w d r M p δ)
    (hd : 0 < d.toNat) (hlow : 2 ^ w ≤ M) (hhigh : M < 2 ^ (w + 1)) (hs : 0 < r.s) :
    ((n - mulhu n r.m) >>> 1 + mulhu n r.m) >>> (r.s - 1) = n / d := by
  have hn := n.isLt
  have hm : r.m.toNat = M - 2 ^ w := by
    rw [h.m, BitVec.toNat_ofNat, mod_eq_sub_mod hlow, mod_eq_of_lt (by omega)]
  have hq : (mulhu n r.m).toNat = n.toNat * (M - 2 ^ w) / 2 ^ w := by
    rw [toNat_mulhu, hm]
  -- the sum is the high half of the product with the whole multiplier
  have hsum : n.toNat + (mulhu n r.m).toNat = n.toNat * M / 2 ^ w := by
    have hsplit : n.toNat * M = n.toNat * (M - 2 ^ w) + n.toNat * 2 ^ w := by
      rw [← Nat.mul_add, Nat.sub_add_cancel hlow]
    rw [hq, hsplit, add_mul_div_right _ _ (Nat.two_pow_pos w), Nat.add_comm]
  have hle : (mulhu n r.m).toNat ≤ n.toNat := by
    rw [hq]
    apply Nat.div_le_of_le_mul
    rw [Nat.mul_comm]
    exact Nat.mul_le_mul_right _ (by omega)
  have hhalf : ((n - mulhu n r.m) >>> 1 + mulhu n r.m).toNat = n.toNat * M / 2 ^ w / 2 := by
    rw [BitVec.toNat_add, BitVec.toNat_ushiftRight, shiftRight_eq_div_pow, pow_one,
        BitVec.toNat_sub_of_le (BitVec.le_def.mpr hle), ← hsum, mod_eq_of_lt (by omega)]
    omega
  apply BitVec.eq_of_toNat_eq
  rw [BitVec.toNat_ushiftRight, shiftRight_eq_div_pow, hhalf, BitVec.toNat_udiv,
      Nat.div_div_eq_div_mul (n.toNat * M / 2 ^ w), ← Nat.pow_succ', succ_eq_add_one,
      Nat.sub_add_cancel hs]
  exact IsMagicu.quotient h hd hn

/-! ## The shift of an even divisor -/

theorem toNat_eq_odd_part :
    d.toNat = (d >>> d.ctz.toNat).toNat * 2 ^ d.ctz.toNat := by
  have hdvd := two_pow_dvd fun i hi => BitVec.getLsbD_false_of_lt_ctz (x := d) (i := i) hi
  rw [BitVec.toNat_ushiftRight, shiftRight_eq_div_pow, Nat.div_mul_cancel hdvd]

theorem preshift_magicu (hw : 2 ≤ w) (h0 : d ≠ 0) (h1 : d ≠ 1)
    (ha : (magicu d 0).a = true) (heven : d.getLsbD 0 = false) :
    ∃ M p δ, M < 2 ^ w ∧ 0 < (d >>> d.ctz.toNat).toNat ∧
      IsMagicu (w - d.ctz.toNat) (d >>> d.ctz.toNat)
        (magicu (d >>> d.ctz.toNat) d.ctz.toNat) M p δ := by
  have hodd := toNat_eq_odd_part (d := d)
  have hctz := ctz_lt h0
  have hd := d.isLt
  have hone := toNat_one (w := w) (by omega)
  have hd0 : d.toNat ≠ 0 := fun h => h0 (BitVec.eq_of_toNat_eq (by simpa using h))
  have hd1 : d.toNat ≠ 1 := fun h => h1 (BitVec.eq_of_toNat_eq (h.trans hone.symm))
  have hk : 0 < d.ctz.toNat := by
    by_contra hzero
    have hbit := BitVec.getLsbD_true_ctz_of_ne_zero h0
    rw [show d.ctz.toNat = 0 by omega, heven] at hbit
    simp at hbit
  have hpos : (d >>> d.ctz.toNat).toNat ≠ 0 := by
    intro hzero
    rw [hzero, Nat.zero_mul] at hodd
    exact hd0 hodd
  have htwo : (d >>> d.ctz.toNat).toNat ≠ 1 := by
    -- the magic number of a power of two fits
    intro hpow
    rw [hpow, Nat.one_mul] at hodd
    obtain ⟨M, p, δ, h⟩ := magicu_spec hw (Nat.zero_le w) (by omega) hd
    have hfits := h.fits_pow (hodd ▸ Nat.pow_dvd_pow 2 hctz.le)
    rw [h.a, decide_eq_true_eq] at ha
    omega
  have hlt : (d >>> d.ctz.toNat).toNat < 2 ^ (w - d.ctz.toNat) := by
    have hsplit : 2 ^ w = 2 ^ (w - d.ctz.toNat) * 2 ^ d.ctz.toNat := by
      rw [← Nat.pow_add, Nat.sub_add_cancel hctz.le]
    rw [hodd, hsplit] at hd
    exact Nat.lt_of_mul_lt_mul_right hd
  obtain ⟨M, p, δ, h⟩ := magicu_spec hw hctz.le (by omega) hlt
  refine ⟨M, p, δ, ?_, by omega, h⟩
  rcases h.fits with hfits | ⟨-, hfits⟩
  · exact hfits
  · exact lt_of_lt_of_le hfits (Nat.pow_le_pow_right (by omega) (by omega))

/-! ## The expression -/

theorem ushiftRight_ctz_udiv (n d : BitVec w) :
    (n >>> d.ctz.toNat) / (d >>> d.ctz.toNat) = n / d := by
  apply BitVec.eq_of_toNat_eq
  rw [BitVec.toNat_udiv, BitVec.toNat_udiv, toNat_eq_odd_part (d := d),
      BitVec.toNat_ushiftRight n, shiftRight_eq_div_pow, Nat.div_div_eq_div_mul,
      Nat.mul_comm]

theorem IsMagicu.eval_srl {k : Nat} {n x : BitVec w}
    (h : IsMagicu k d r M p δ) (hd : 0 < d.toNat) (hM : M < 2 ^ w) (hx : x.toNat < 2 ^ k)
    {Q : SDValue w} (hQ : Q.eval n = some (mulhu x r.m)) :
    (SDValue.srl Q r.s).eval n = some (x / d) := by
  simp only [SDValue.eval, hQ, Option.bind_some, if_pos (IsMagicu.shift_lt h hM)]
  rw [IsMagicu.srl_mulhu h hd hM hx]

theorem IsMagicu.eval_srl_add {n : BitVec w} (hw : 2 ≤ w)
    (h : IsMagicu w d r M p δ) (hd : 0 < d.toNat) (hlow : 2 ^ w ≤ M)
    {Q : SDValue w} (hQ : Q.eval n = some (mulhu n r.m)) :
    (SDValue.srl (.add (.srl (.sub .operand Q) 1) Q) (r.s - 1)).eval n = some (n / d) := by
  obtain ⟨hp, hhigh⟩ := h.fits.resolve_left (by omega)
  have hs := h.s
  have hsle := h.s_le
  have hs1 : r.s - 1 < w := by omega
  simp only [SDValue.eval, hQ, Option.bind_some, Option.map_some, if_pos (show 1 < w by omega),
    if_pos hs1]
  rw [IsMagicu.srl_add h hd hlow hhigh (by omega)]

theorem BuildUDIV_eval (T : Target) (IsAfterLegalization : Bool) (hw : 2 ≤ w)
    (h0 : d ≠ 0) (h1 : d ≠ 1) :
    ∃ r, BuildUDIV T IsAfterLegalization d = some r ∧
      (r.isSome ↔ T.isTypeLegal = true ∧ (T.supports IsAfterLegalization .MULHU = true ∨
        T.supports IsAfterLegalization .UMUL_LOHI = true)) ∧
      ∀ e, r = some e → ∀ n, e.eval n = some (n / d) := by
  have hone := toNat_one (w := w) (by omega)
  have hd0 : d.toNat ≠ 0 := fun h => h0 (BitVec.eq_of_toNat_eq (by simpa using h))
  have hd1 : d.toNat ≠ 1 := fun h => h1 (BitVec.eq_of_toNat_eq (h.trans hone.symm))
  unfold BuildUDIV
  by_cases hlegal : T.isTypeLegal = true
  · rw [if_neg (by simp [hlegal])]
    by_cases hpre : (magicu d 0).a = true ∧ d.getLsbD 0 = false
    · obtain ⟨M, p, δ, hM, hpos, h⟩ := preshift_magicu hw h0 h1 hpre.1 hpre.2
      have ha : (magicu (d >>> d.ctz.toNat) d.ctz.toNat).a = false := by
        rw [h.a]
        exact decide_eq_false (by omega)
      have hctz := ctz_lt h0
      simp only [hpre, and_self, if_true, ha, Bool.false_eq_true, and_false, if_false]
      split
      · rename_i hnone
        have hunsupported := not_supports_of_highProduct hnone
        exact ⟨none, rfl, by simpa [hlegal] using hunsupported, by simp⟩
      · rename_i Q hQ
        have hsupported := supports_of_highProduct hQ
        rw [if_pos (IsMagicu.shift_lt h hM)]
        refine ⟨_, rfl, by simpa [hlegal] using hsupported, ?_⟩
        rintro e he n
        obtain rfl := Option.some.inj he
        have heval : Q.eval n = some (mulhu (n >>> d.ctz.toNat)
            (magicu (d >>> d.ctz.toNat) d.ctz.toNat).m) := by
          rcases highProduct_eq hQ with rfl | rfl <;> simp [SDValue.eval, hctz]
        have hn := BitVec.toNat_ushiftRight_lt n _ hctz.le
        rw [IsMagicu.eval_srl h hpos hM hn heval, ushiftRight_ctz_udiv]
    · obtain ⟨M, p, δ, h⟩ := magicu_spec hw (Nat.zero_le w) (by omega) d.isLt
      simp only [hpre, if_false, false_and]
      split
      · rename_i hnone
        have hunsupported := not_supports_of_highProduct hnone
        exact ⟨none, rfl, by simpa [hlegal] using hunsupported, by simp⟩
      · rename_i Q hQ
        have hsupported := supports_of_highProduct hQ
        have heval : ∀ n, Q.eval n = some (mulhu n (magicu d 0).m) := by
          intro n
          rcases highProduct_eq hQ with rfl | rfl <;> rfl
        have hdec := h.a
        cases ha : (magicu d 0).a with
        | false =>
          rw [ha] at hdec
          have hM : M < 2 ^ w := Nat.lt_of_not_le (of_decide_eq_false hdec.symm)
          rw [if_pos rfl, if_pos (IsMagicu.shift_lt h hM)]
          refine ⟨_, rfl, by simpa [hlegal] using hsupported, ?_⟩
          rintro e he n
          obtain rfl := Option.some.inj he
          exact IsMagicu.eval_srl h (by omega) hM n.isLt (heval n)
        | true =>
          rw [ha] at hdec
          have hM : 2 ^ w ≤ M := of_decide_eq_true hdec.symm
          refine ⟨_, rfl, by simpa [hlegal] using hsupported, ?_⟩
          rintro e he n
          obtain rfl := Option.some.inj he
          exact IsMagicu.eval_srl_add hw h (by omega) hM (heval n)
  · have hlegal' : T.isTypeLegal = false := by simpa using hlegal
    rw [if_pos hlegal']
    exact ⟨none, rfl, by simp [hlegal'], by simp⟩

/-! ## Division by a constant -/

/-- A lowering ends without a failing assertion, has an expression if the target supports it, and
the expression computes the quotients of the dividends, which it does not without a shift amount
that is below the width. -/
def Computes (lowered : Option (Option (SDValue w))) (supported : Prop)
    (dividend : BitVec w → Prop) (quotient : BitVec w → BitVec w) : Prop :=
  ∃ r, lowered = some r ∧ (r.isSome ↔ supported) ∧
    ∀ e, r = some e → ∀ n, dividend n → e.eval n = some (quotient n)

/-- Division by a constant is lowered correctly, signed, unsigned and exact, and all searches for
the constants end. -/
theorem division_by_constant (hw : 8 ≤ w) (T : Target) (IsAfterLegalization : Bool)
    (d : BitVec w) :
    (d ≠ 0 → d ≠ 1 → d ≠ -1 → ∀ fuel, w ≤ fuel →
      Computes (BuildSDIV T IsAfterLegalization false d fuel)
        (T.isTypeLegal = true ∧ (T.supports IsAfterLegalization .MULHS = true ∨
          T.supports IsAfterLegalization .SMUL_LOHI = true))
        (fun _ => True) fun n => n.sdiv d) ∧
    (d ≠ 0 → d ≠ 1 → Computes (BuildUDIV T IsAfterLegalization d)
        (T.isTypeLegal = true ∧ (T.supports IsAfterLegalization .MULHU = true ∨
          T.supports IsAfterLegalization .UMUL_LOHI = true))
        (fun _ => True) fun n => n / d) ∧
    (d ≠ 0 → ∀ fuel, w ≤ fuel →
      Computes (BuildSDIV T IsAfterLegalization true d fuel) (T.isTypeLegal = true)
        (fun n => d.toInt ∣ n.toInt) fun n => n.sdiv d) := by
  refine ⟨fun h0 h1 hm1 fuel hfuel => ?_, fun h0 h1 => ?_, fun h0 fuel hfuel => ?_⟩
  · obtain ⟨r, hr, hsome, heval⟩ :=
      BuildSDIV_eval T IsAfterLegalization (by omega) h0 h1 hm1 hfuel
    exact ⟨r, hr, hsome, fun e he n _ => heval e he n⟩
  · obtain ⟨r, hr, hsome, heval⟩ := BuildUDIV_eval T IsAfterLegalization (by omega) h0 h1
    exact ⟨r, hr, hsome, fun e he n _ => heval e he n⟩
  · unfold BuildSDIV
    by_cases hlegal : T.isTypeLegal = true
    · obtain ⟨e, he, heval⟩ := BuildExactSDIV_eval (by omega) h0 hfuel
      rw [if_neg (by simp [hlegal]), if_pos rfl, he]
      refine ⟨some e, rfl, by simp [hlegal], ?_⟩
      rintro e' he' n hn
      obtain rfl := Option.some.inj he'
      exact heval n hn
    · have hlegal' : T.isTypeLegal = false := by simpa using hlegal
      rw [if_pos hlegal']
      exact ⟨none, rfl, by simp [hlegal'], by simp⟩

/-- Bytes are divided by 7, whose unsigned magic number has nine bits, and by -6. -/
theorem division_by_constant_byte :
    Computes (BuildSDIV ⟨true, fun _ => true, fun _ => false⟩ true false (-6 : BitVec 8) 8)
        (true = true ∧ (true = true ∨ true = true)) (fun _ => True) (fun n => n.sdiv (-6)) ∧
      Computes (BuildUDIV ⟨true, fun _ => true, fun _ => false⟩ true (7 : BitVec 8))
        (true = true ∧ (true = true ∨ true = true)) (fun _ => True) (fun n => n / 7) ∧
      Computes (BuildSDIV ⟨true, fun _ => true, fun _ => false⟩ true true (-6 : BitVec 8) 8)
        (true = true) (fun n => (-6 : BitVec 8).toInt ∣ n.toInt) (fun n => n.sdiv (-6)) :=
  ⟨(division_by_constant (Nat.le_refl 8) ⟨true, fun _ => true, fun _ => false⟩ true (-6)).1
      (by decide) (by decide) (by decide) 8 (Nat.le_refl 8),
    (division_by_constant (Nat.le_refl 8) ⟨true, fun _ => true, fun _ => false⟩ true 7).2.1
      (by decide) (by decide),
    (division_by_constant (Nat.le_refl 8) ⟨true, fun _ => true, fun _ => false⟩ true (-6)).2.2
      (by decide) 8 (Nat.le_refl 8)⟩

end Zapcc.CodeGen
