import Mathlib.Data.BitVec

/-!
# Arithmetic that wraps around

The sum and the difference of two bit vectors as numbers, by whether they wrap around, and the
signed reading of a bit vector by its sign. `omega` decides linear facts about bit vectors of any
width from these cases.
-/

namespace Zapcc.WrapAround

open BitVec Nat

variable {w : Nat}

theorem toNat_add_cases (x y : BitVec w) :
    (x + y).toNat = x.toNat + y.toNat ∧ x.toNat + y.toNat < 2 ^ w ∨
      (x + y).toNat + 2 ^ w = x.toNat + y.toNat := by
  rw [toNat_add]
  by_cases hsum : x.toNat + y.toNat < 2 ^ w
  · exact .inl ⟨mod_eq_of_lt hsum, hsum⟩
  · rw [mod_eq_sub_mod (Nat.not_lt.mp hsum), mod_eq_of_lt (by omega)]
    omega

theorem toNat_sub_cases (x y : BitVec w) :
    (x - y).toNat + y.toNat = x.toNat ∨
      (x - y).toNat + y.toNat = x.toNat + 2 ^ w ∧ x.toNat < y.toNat := by
  rw [toNat_sub]
  by_cases hle : y.toNat ≤ x.toNat
  · rw [show 2 ^ w - y.toNat + x.toNat = 2 ^ w + (x.toNat - y.toNat) by omega,
      add_mod_left, mod_eq_of_lt (by omega)]
    omega
  · rw [mod_eq_of_lt (by omega)]
    omega

theorem mul_mod_div_ne {x r n : Nat} (hr : 0 < r) (hx : x < n) :
    x * r % n / r ≠ x ↔ n ≤ x * r := by
  constructor
  · intro hne
    by_contra hlt
    rw [mod_eq_of_lt (not_le.mp hlt), Nat.mul_div_cancel _ hr] at hne
    exact hne rfl
  · intro hle heq
    have hmod : x * r % n < x * r := (mod_lt _ (by omega)).trans_le hle
    rw [← Nat.div_lt_iff_lt_mul hr] at hmod
    omega

theorem add_mod_lt {x y n : Nat} (hx : x < n) (hy : y < n) : (x + y) % n < y ↔ n ≤ x + y := by
  by_cases hsum : x + y < n
  · rw [mod_eq_of_lt hsum]
    omega
  · rw [mod_eq_sub_mod (not_lt.mp hsum), mod_eq_of_lt (by omega)]
    omega

theorem two_pow_eq_two_mul (hw : 0 < w) : 2 ^ w = 2 * 2 ^ (w - 1) := by
  rw [← Nat.pow_succ', succ_eq_add_one, Nat.sub_add_cancel hw]

theorem toNat_one (hw : 0 < w) : (1#w).toNat = 1 := by
  exact mod_eq_of_lt (Nat.one_lt_two_pow (by omega))

theorem toNat_allOnes_succ : (BitVec.allOnes w).toNat + 1 = 2 ^ w := by
  have hpos := Nat.two_pow_pos w
  rw [toNat_allOnes]
  omega

theorem toNat_or_shiftLeft {x y : BitVec w} {shift : Nat} (hx : x.toNat < 2 ^ shift)
    (hshift : shift ≤ w) :
    (x ||| y <<< shift).toNat = (x.toNat + y.toNat * 2 ^ shift) % 2 ^ w := by
  have hpow : 2 ^ w = 2 ^ shift * 2 ^ (w - shift) := by
    rw [← pow_add]
    congr 1
    omega
  have hlow : x.toNat + 2 ^ shift * (y.toNat % 2 ^ (w - shift)) < 2 ^ w := by
    have hgroup : y.toNat % 2 ^ (w - shift) + 1 ≤ 2 ^ (w - shift) :=
      mod_lt _ (Nat.two_pow_pos _)
    have hmul := Nat.mul_le_mul_left (2 ^ shift) hgroup
    rw [Nat.mul_add, ← hpow] at hmul
    omega
  rw [toNat_or, toNat_shiftLeft, Nat.shiftLeft_eq, Nat.mul_comm y.toNat, hpow,
    mul_mod_mul_left, Nat.or_comm, ← two_pow_add_eq_or_of_lt hx, add_mod,
    mul_mod_mul_left, mod_eq_of_lt (Nat.lt_of_lt_of_le hx _), ← hpow, Nat.add_comm,
    mod_eq_of_lt hlow]
  exact Nat.le_mul_of_pos_right _ (Nat.two_pow_pos _)

theorem toInt_cases (x : BitVec w) :
    2 * x.toNat < 2 ^ w ∧ x.toInt = x.toNat ∨
      2 ^ w ≤ 2 * x.toNat ∧ x.toInt + (2 ^ w : Nat) = x.toNat := by
  rw [toInt_eq_toNat_cond]
  split_ifs <;> omega

end Zapcc.WrapAround
