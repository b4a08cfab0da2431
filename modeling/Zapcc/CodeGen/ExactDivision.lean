import Zapcc.CodeGen.SignedDivision

/-!
# Lowering an exact division

The product with the inverse of the odd part of the divisor undoes a multiplication by it. Each
step of Newton's iteration squares the error, which starts with a zero bit, so that the iteration
ends within the width (`newton_inverse`).
-/

namespace Zapcc.CodeGen

open Magic Nat

variable {w : Nat}

theorem newton_error (d xn : BitVec w) :
    1 - d * (xn * (BitVec.ofNat w 2 - d * xn)) = (1 - d * xn) * (1 - d * xn) := by
  have htwo : BitVec.ofNat w 2 = 1 + 1 := BitVec.ofNat_add 1 1
  rw [htwo]
  ring

variable {d : BitVec w}

theorem newton_ends {xn y : BitVec w} {j fuel : Nat} (hj : 0 < j)
    (herr : 1 - d * xn = BitVec.ofNat w (2 ^ j) * y) (hfuel : w ≤ j + fuel) :
    ∃ inv, newton d (fuel + 1) xn = some inv ∧ d * inv = 1 := by
  induction fuel generalizing xn y j with
  | zero =>
    -- nothing is left of the error
    have hzero : BitVec.ofNat w (2 ^ j) = 0 := by
      apply BitVec.eq_of_toNat_eq
      rw [BitVec.toNat_ofNat, mod_eq_zero_of_dvd (Nat.pow_dvd_pow 2 (by omega))]
      simp
    rw [hzero, zero_mul] at herr
    have hone : d * xn = 1 := (sub_eq_zero.mp herr).symm
    exact ⟨xn, by simp [newton, hone], hone⟩
  | succ fuel ih =>
    rw [newton]
    by_cases hone : d * xn = 1
    · exact ⟨xn, by simp [hone], hone⟩
    · simp only [ne_eq, hone, not_false_eq_true, if_true]
      refine ih (j := j + j) (y := y * y) (by omega) ?_ (by omega)
      have hpow : BitVec.ofNat w (2 ^ (j + j)) =
          BitVec.ofNat w (2 ^ j) * BitVec.ofNat w (2 ^ j) := by
        rw [Nat.pow_add, BitVec.ofNat_mul]
      rw [newton_error, herr, hpow]
      ring

theorem newton_inverse (hw : 0 < w) (hodd : d.getLsbD 0 = true) {fuel : Nat}
    (hfuel : w ≤ fuel) : ∃ inv, newton d fuel d = some inv ∧ d * inv = 1 := by
  obtain ⟨f, rfl⟩ : ∃ f, fuel = f + 1 := ⟨fuel - 1, by omega⟩
  have hmod : d.toNat % 2 = 1 := by
    have hbit : d.toNat.testBit 0 = true := hodd
    simpa [testBit_zero] using hbit
  -- the square of an odd number is odd
  obtain ⟨k, hk⟩ : ∃ k, d.toNat = 2 * k + 1 := ⟨d.toNat / 2, by omega⟩
  have hd : d = BitVec.ofNat w 2 * BitVec.ofNat w k + 1 := by
    apply BitVec.eq_of_toNat_eq
    have h := d.isLt
    show d.toNat = (BitVec.ofNat w 2 * BitVec.ofNat w k + BitVec.ofNat w 1).toNat
    rw [← BitVec.ofNat_mul, ← BitVec.ofNat_add, BitVec.toNat_ofNat, ← hk, mod_eq_of_lt h]
  refine newton_ends (j := 1) (y := -(BitVec.ofNat w k * (d + 1))) (by omega) ?_ (by omega)
  calc 1 - d * d = -((d - 1) * (d + 1)) := by ring
    _ = -(BitVec.ofNat w 2 * BitVec.ofNat w k * (d + 1)) := by
        rw [sub_eq_of_eq_add hd]
    _ = BitVec.ofNat w 2 * -(BitVec.ofNat w k * (d + 1)) := by ring

/-! ## The shift of an even divisor -/

theorem two_pow_dvd {k : Nat} (hbits : ∀ i, i < k → d.getLsbD i = false) :
    2 ^ k ∣ d.toNat := by
  rw [dvd_iff_mod_eq_zero]
  apply eq_of_testBit_eq
  intro i
  by_cases hi : i < k
  · have hbit : d.toNat.testBit i = false := hbits i hi
    simp [hbit]
  · simp [hi]

theorem toInt_eq_shift {k : Nat} (hk : k ≤ w)
    (hbits : ∀ i, i < k → d.getLsbD i = false) :
    d.toInt = (d.sshiftRight k).toInt * ((2 ^ k : Nat) : Int) := by
  have hnat := two_pow_dvd hbits
  have hdvd : ((2 ^ k : Nat) : Int) ∣ d.toInt := by
    have hnat' : ((2 ^ k : Nat) : Int) ∣ (d.toNat : Int) := Int.natCast_dvd_natCast.mpr hnat
    rw [BitVec.toInt_eq_toNat_cond]
    split
    · exact hnat'
    · exact Int.dvd_sub hnat' (Int.natCast_dvd_natCast.mpr (Nat.pow_dvd_pow 2 hk))
  rw [BitVec.toInt_sshiftRight, Int.shiftRight_eq_div_pow, Int.ediv_mul_cancel hdvd]

theorem shift_eq {n : BitVec w} {k : Nat} {y : Int}
    (hn : n.toInt = y * ((2 ^ k : Nat) : Int)) :
    (n.sshiftRight k).toInt = y ∧ n.sshiftRight k <<< k = n := by
  have hpos : ((2 ^ k : Nat) : Int) ≠ 0 := by
    have := Nat.two_pow_pos k
    omega
  have hval : (n.sshiftRight k).toInt = y := by
    rw [BitVec.toInt_sshiftRight, Int.shiftRight_eq_div_pow, hn, Int.mul_ediv_cancel _ hpos]
  refine ⟨hval, ?_⟩
  have hshift : ∀ x : BitVec w, x <<< k = x * BitVec.ofInt w ((2 ^ k : Nat) : Int) := by
    intro x
    rw [BitVec.shiftLeft_eq_mul_twoPow, BitVec.twoPow_eq, BitVec.ofInt_natCast]
    congr 1
    apply BitVec.eq_of_toNat_eq
    rw [BitVec.toNat_shiftLeft, shiftLeft_eq, BitVec.toNat_ofNat, BitVec.toNat_ofNat,
        mod_mul_mod, Nat.one_mul]
  rw [hshift, ← BitVec.ofInt_toInt (x := n.sshiftRight k), hval, ← BitVec.ofInt_mul, ← hn,
      BitVec.ofInt_toInt]

theorem ctz_lt (hd : d ≠ 0) : d.ctz.toNat < w := by
  by_contra hge
  have hbit := BitVec.getLsbD_true_ctz_of_ne_zero hd
  rw [BitVec.getLsbD_of_ge _ _ (Nat.le_of_not_lt hge)] at hbit
  simp at hbit

theorem BuildExactSDIV_eval (hw : 0 < w) (hd : d ≠ 0) {fuel : Nat}
    (hfuel : w ≤ fuel) :
    ∃ e, BuildExactSDIV .operand d fuel = some e ∧
      ∀ n : BitVec w, d.toInt ∣ n.toInt → e.eval n = some (n.sdiv d) := by
  have hctz := ctz_lt hd
  have hbits : ∀ i, i < d.ctz.toNat → d.getLsbD i = false := fun i hi =>
    BitVec.getLsbD_false_of_lt_ctz hi
  have hd' := toInt_eq_shift hctz.le hbits
  have hodd : (d.sshiftRight d.ctz.toNat).getLsbD 0 = true := by
    rw [BitVec.getLsbD_sshiftRight]
    have hbit := BitVec.getLsbD_true_ctz_of_ne_zero hd
    simp [hctz, hbit, show ¬w ≤ 0 by omega]
  obtain ⟨inv, hinv, hone⟩ := newton_inverse hw hodd hfuel
  have hshiftd : (if d.ctz.toNat ≠ 0 then d.sshiftRight d.ctz.toNat else d) =
      d.sshiftRight d.ctz.toNat := by
    split
    · rfl
    · rename_i hzero
      rw [not_not.mp hzero, BitVec.sshiftRight_zero]
  unfold BuildExactSDIV
  simp only [hshiftd, hinv, Option.map_some]
  refine ⟨_, rfl, fun n hn => ?_⟩
  obtain ⟨q, hq⟩ := hn
  have hn' : n.toInt = (d.sshiftRight d.ctz.toNat).toInt * q * ((2 ^ d.ctz.toNat : Nat) : Int) := by
    rw [hq, hd']
    ring
  obtain ⟨hval, hexact⟩ := shift_eq hn'
  -- the shifted dividend
  have hop : (if d.ctz.toNat ≠ 0 then SDValue.sra .operand d.ctz.toNat true
      else SDValue.operand).eval n = some (n.sshiftRight d.ctz.toNat) := by
    split
    · simp [SDValue.eval, hctz, hexact]
    · rename_i hzero
      rw [not_not.mp hzero, BitVec.sshiftRight_zero]
      rfl
  have hprod : n.sshiftRight d.ctz.toNat * inv = BitVec.ofInt w q := by
    calc n.sshiftRight d.ctz.toNat * inv
        = BitVec.ofInt w ((d.sshiftRight d.ctz.toNat).toInt * q) * inv := by
          rw [← hval, BitVec.ofInt_toInt]
      _ = d.sshiftRight d.ctz.toNat * BitVec.ofInt w q * inv := by
          rw [BitVec.ofInt_mul, BitVec.ofInt_toInt]
      _ = d.sshiftRight d.ctz.toNat * inv * BitVec.ofInt w q := by ring
      _ = BitVec.ofInt w q := by rw [hone, one_mul]
  have hd0 : d.toInt ≠ 0 := fun h => hd (BitVec.eq_of_toInt_eq (by simpa using h))
  rw [sdiv_eq_ofInt, hq, Int.mul_tdiv_cancel_left _ hd0, ← hprod]
  simp only [SDValue.eval, hop, Option.bind_some, Option.map_some]

end Zapcc.CodeGen
