import Mathlib.Data.Nat.Size
import Zapcc.Library.WrapAround

/-!
# Values of arbitrary-precision integers

The functions of `APInt` on the value of an integer of `w` bits. Shifts by another integer are
limited to the width.
-/

namespace Zapcc.APInt

open BitVec Nat

variable {w : Nat}

/-- The number of bits up to the highest one. -/
def getActiveBits (x : BitVec w) : Nat := Nat.size x.toNat

/-- The number of zeros above the highest one. -/
def countLeadingZeros (x : BitVec w) : Nat := w - Nat.size x.toNat

/-- The number of ones below the lowest zero. -/
def countTrailingOnes (x : BitVec w) : Nat :=
  ((List.range w).takeWhile (fun i => x.getLsbD i)).length

def getBitsSetFrom (numBits loBit : Nat) : BitVec numBits := BitVec.allOnes numBits <<< loBit

def clearBit (x : BitVec w) (bitPosition : Nat) : BitVec w := x &&& ~~~(1#w <<< bitPosition)

/-- The value, or the limit when it is smaller. -/
def getLimitedValue (x : BitVec w) (limit : Nat) : Nat := if limit < x.toNat then limit else x.toNat

def shl (x shiftAmt : BitVec w) : BitVec w := x <<< getLimitedValue shiftAmt w

def lshr (x shiftAmt : BitVec w) : BitVec w := x >>> getLimitedValue shiftAmt w

/-- Shift right by a value, and keep the sign. -/
def ashr (x shiftAmt : BitVec w) : BitVec w := x.sshiftRight (getLimitedValue shiftAmt w)

def umin (a b : BitVec w) : BitVec w := if a < b then a else b

def umax (a b : BitVec w) : BitVec w := if b < a then a else b

/-- The smaller signed value. -/
def smin (a b : BitVec w) : BitVec w := if a.slt b then a else b

/-- The larger signed value. -/
def smax (a b : BitVec w) : BitVec w := if b.slt a then a else b

theorem toNat_umin (a b : BitVec w) : (umin a b).toNat = min a.toNat b.toNat := by
  simp only [umin, lt_def]
  split_ifs <;> omega

theorem toNat_umax (a b : BitVec w) : (umax a b).toNat = max a.toNat b.toNat := by
  simp only [umax, lt_def]
  split_ifs <;> omega

theorem toInt_smin (a b : BitVec w) : (smin a b).toInt = min a.toInt b.toInt := by
  simp only [smin, slt_iff_toInt_lt]
  split_ifs <;> omega

theorem toInt_smax (a b : BitVec w) : (smax a b).toInt = max a.toInt b.toInt := by
  simp only [smax, slt_iff_toInt_lt]
  split_ifs <;> omega

theorem getActiveBits_le {x : BitVec w} {n : Nat} : getActiveBits x ≤ n ↔ x.toNat < 2 ^ n :=
  size_le

theorem countLeadingZeros_spec {x : BitVec w} (hx : 0 < x.toNat) :
    countLeadingZeros x < w ∧ 2 ^ (w - 1) ≤ x.toNat * 2 ^ countLeadingZeros x ∧
      (x.toNat + 1) * 2 ^ countLeadingZeros x ≤ 2 ^ w := by
  have hsize : 0 < Nat.size x.toNat := size_pos.mpr hx
  have hle : Nat.size x.toNat ≤ w := size_le.mpr x.isLt
  have hlow : 2 ^ (Nat.size x.toNat - 1) ≤ x.toNat := by
    rw [← lt_size]
    omega
  have hhigh : x.toNat + 1 ≤ 2 ^ Nat.size x.toNat := lt_size_self x.toNat
  have hpred : w - 1 = Nat.size x.toNat - 1 + (w - Nat.size x.toNat) := by omega
  have hsum : 2 ^ w = 2 ^ Nat.size x.toNat * 2 ^ (w - Nat.size x.toNat) := by
    rw [← pow_add, add_sub_of_le hle]
  refine ⟨?_, ?_, ?_⟩
  · unfold countLeadingZeros
    omega
  · rw [countLeadingZeros, hpred, pow_add]
    exact Nat.mul_le_mul_right _ hlow
  · rw [countLeadingZeros, hsum]
    exact Nat.mul_le_mul_right _ hhigh

theorem toNat_getLimitedValue (x : BitVec w) (limit : Nat) :
    getLimitedValue x limit = min x.toNat limit := by
  unfold getLimitedValue
  split_ifs <;> omega

theorem toNat_and_getBitsSetFrom (x : BitVec w) (loBit : Nat) :
    (x &&& getBitsSetFrom w loBit).toNat = x.toNat / 2 ^ loBit * 2 ^ loBit := by
  have hshift : x &&& getBitsSetFrom w loBit = x >>> loBit <<< loBit := by
    refine eq_of_getLsbD_eq fun i hi => ?_
    simp only [getBitsSetFrom, getLsbD_and, getLsbD_shiftLeft, getLsbD_ushiftRight, getLsbD_allOnes]
    by_cases hlow : i < loBit
    · simp [hlow]
    · rw [Nat.add_sub_cancel' (Nat.not_lt.mp hlow)]
      simp [hlow, hi]
      omega
  have hle : x.toNat / 2 ^ loBit * 2 ^ loBit ≤ x.toNat := div_mul_le_self _ _
  rw [hshift, toNat_shiftLeft, toNat_ushiftRight, Nat.shiftLeft_eq,
    shiftRight_eq_div_pow, mod_eq_of_lt (by omega)]

theorem toNat_clearBit {x : BitVec w} {n : Nat} (hn : n < w) (h : x.toNat < 2 ^ (n + 1)) :
    (clearBit x n).toNat = x.toNat % 2 ^ n := by
  refine eq_of_testBit_eq fun i => ?_
  have hbit : (1#w <<< n).getLsbD i = decide (i = n) := by
    grind
  rw [testBit_mod_two_pow, testBit_toNat, testBit_toNat, clearBit, getLsbD_and, getLsbD_not, hbit]
  rcases Nat.lt_trichotomy i n with hlt | heq | hgt
  · simp only [hlt, decide_true, Bool.true_and, Nat.ne_of_lt hlt, decide_false, Bool.not_false,
      Bool.and_true, show i < w by omega]
  · simp [heq]
  · have hzero : x.getLsbD i = false := by
      refine testBit_lt_two_pow (Nat.lt_of_lt_of_le h ?_)
      exact Nat.pow_le_pow_right (by omega) hgt
    simp [hzero]

end Zapcc.APInt
