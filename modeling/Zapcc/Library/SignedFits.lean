import Mathlib.Data.BitVec
import Mathlib.Tactic.Ring

/-!
# Signed values that fit

An integer fits a width when it is the signed reading of a bit vector of that width. Arithmetic
whose result fits does not wrap around.
-/

namespace Zapcc.SignedFits

variable {w : Nat}

/-- The integer is the signed reading of a bit vector. -/
def Fits (w : Nat) (n : Int) : Prop := -2 ^ w ≤ 2 * n ∧ 2 * n < 2 ^ w

instance (w : Nat) (n : Int) : Decidable (Fits w n) := inferInstanceAs (Decidable (_ ∧ _))

theorem fits_toInt (x : BitVec w) : Fits w x.toInt :=
  ⟨BitVec.le_two_mul_toInt, BitVec.two_mul_toInt_lt⟩

theorem Fits.of_between {l n u : Int} (hl : Fits w l) (hu : Fits w u) (hln : l ≤ n) (hnu : n ≤ u) :
    Fits w n := by
  unfold Fits at *
  omega

theorem Fits.zero : Fits w 0 := by
  have hpos : (0 : Int) < 2 ^ w := Int.pow_pos (by omega)
  unfold Fits
  omega

theorem Fits.of_le {n u : Int} (hu : Fits w u) (hn : 0 ≤ n) (hnu : n ≤ u) : Fits w n :=
  Fits.of_between Fits.zero hu hn hnu

theorem bmod_of_fits {n : Int} (h : Fits w n) : n.bmod (2 ^ w) = n := by
  refine Int.bmod_eq_of_le_mul_two ?_ ?_
  · exact h.1.trans_eq (Int.mul_comm 2 n)
  · exact (Int.mul_comm n 2).trans_lt h.2

variable {x y : BitVec w}

theorem toInt_zero : (0 : BitVec w).toInt = 0 := by simp

theorem toInt_ne_zero (h : x ≠ 0) : x.toInt ≠ 0 := fun hzero =>
  h (BitVec.toInt_inj.mp (hzero.trans toInt_zero.symm))

theorem toInt_ofInt {n : Int} (h : Fits w n) : (BitVec.ofInt w n).toInt = n := by
  rw [BitVec.toInt_ofInt, bmod_of_fits h]

theorem toInt_ofNat {n : Nat} (h : Fits w n) : (BitVec.ofNat w n).toInt = n := by
  rw [BitVec.toInt_ofNat', bmod_of_fits h]

theorem toInt_add (h : Fits w (x.toInt + y.toInt)) : (x + y).toInt = x.toInt + y.toInt := by
  rw [BitVec.toInt_add, bmod_of_fits h]

theorem toInt_sub (h : Fits w (x.toInt - y.toInt)) : (x - y).toInt = x.toInt - y.toInt := by
  rw [BitVec.toInt_sub, bmod_of_fits h]

theorem toInt_neg (h : Fits w (-x.toInt)) : (-x).toInt = -x.toInt := by
  rw [BitVec.toInt_neg, bmod_of_fits h]

theorem toInt_mul (h : Fits w (x.toInt * y.toInt)) : (x * y).toInt = x.toInt * y.toInt := by
  rw [BitVec.toInt_mul, bmod_of_fits h]

theorem toInt_sdiv (h : Fits w (x.toInt.tdiv y.toInt)) :
    (x.sdiv y).toInt = x.toInt.tdiv y.toInt := by
  rw [BitVec.toInt_sdiv, bmod_of_fits h]

theorem srem_eq_zero_iff : x.srem y = 0 ↔ y.toInt ∣ x.toInt := by
  rw [← BitVec.toInt_inj, BitVec.toInt_srem, Int.dvd_iff_tmod_eq_zero]
  simp

theorem toInt_mul_ofNat {n : Nat} (h : Fits w (x.toInt * n)) :
    (x * BitVec.ofNat w n).toInt = x.toInt * n := by
  rw [BitVec.toInt_mul, BitVec.toInt_ofNat', Int.mul_bmod_bmod, bmod_of_fits h]

theorem toInt_absolute (h : Fits w (-x.toInt)) :
    (if 0 ≤ x.toInt then x else -x).toInt = |x.toInt| := by
  by_cases hx : 0 ≤ x.toInt
  · rw [if_pos hx, abs_of_nonneg hx]
  · rw [if_neg hx, toInt_neg h, abs_of_neg (not_le.mp hx)]

/-- The absolute value of a bit vector times a number, if the product and its negative fit. -/
theorem toInt_absolute_mul {n : Nat} (hmul : Fits w (x.toInt * n))
    (hneg : Fits w (-(x.toInt * n))) :
    ((if 0 ≤ x.toInt then x else -x) * BitVec.ofNat w n).toInt = |x.toInt| * n := by
  by_cases hx : 0 ≤ x.toInt
  · rw [if_pos hx, toInt_mul_ofNat hmul, abs_of_nonneg hx]
  · rw [if_neg hx, neg_mul, toInt_neg (by rwa [toInt_mul_ofNat hmul]), toInt_mul_ofNat hmul,
      abs_of_neg (not_le.mp hx), neg_mul]

/-- The negative of a bit vector fits, unless it is the bit vector. -/
theorem fits_neg_of_ne (h : x ≠ -x) : Fits w (-x.toInt) := by
  have hx := fits_toInt x
  by_contra hnot
  have hmin : 2 * x.toInt = -2 ^ w := by
    unfold Fits at hx hnot
    omega
  refine h (eq_neg_of_add_eq_zero_left ?_)
  rw [← BitVec.toInt_inj, BitVec.toInt_add, ← two_mul, hmin, Int.bmod_eq_zero_of_dvd]
  · simp
  · exact ⟨-1, by push_cast; ring⟩

end Zapcc.SignedFits
