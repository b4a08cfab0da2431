import Mathlib.Data.Nat.GCD.Basic
import Mathlib.Tactic.Ring

/-!
# Odd multiples of a power of two

The greatest common divisor of two odd multiples of a power of two does not change when the smaller
is taken from the larger and the difference is divided by two until it is an odd multiple again.
-/

namespace Zapcc.OddParts

/-- The power is the highest power of two that divides the number. -/
def OddMultiple (power n : Nat) : Prop := ∃ m, n = 2 ^ power * (2 * m + 1)

theorem OddMultiple.pos {power n : Nat} (h : OddMultiple power n) : 0 < n := by
  obtain ⟨m, rfl⟩ := h
  exact Nat.mul_pos (Nat.two_pow_pos power) (Nat.succ_pos _)

theorem OddMultiple.le_of_dvd {power n k : Nat} (h : OddMultiple power n) (hdvd : 2 ^ k ∣ n) :
    k ≤ power := by
  obtain ⟨m, rfl⟩ := h
  have hodd : Nat.Coprime (2 ^ k) (2 * m + 1) := Nat.Coprime.pow_left k (by simp)
  exact (Nat.pow_dvd_pow_iff_le_right Nat.one_lt_two).mp (hodd.dvd_of_dvd_mul_right hdvd)

theorem OddMultiple.div {power n k : Nat} (h : OddMultiple power n) (hk : k ≤ power) :
    OddMultiple k (n / 2 ^ (power - k)) := by
  obtain ⟨m, rfl⟩ := h
  refine ⟨m, ?_⟩
  rw [← Nat.sub_add_cancel hk, Nat.add_sub_cancel, pow_add, Nat.mul_assoc,
    Nat.mul_div_cancel_left _ (Nat.two_pow_pos _)]

/-- Dividing down to the power of the other number keeps the greatest common divisor. -/
theorem gcd_div_left {power k n other : Nat} (h : OddMultiple power n)
    (hother : OddMultiple k other) (hk : k ≤ power) :
    Nat.gcd (n / 2 ^ (power - k)) other = Nat.gcd n other := by
  obtain ⟨m, rfl⟩ := h
  obtain ⟨m', rfl⟩ := hother
  obtain ⟨extra, rfl⟩ := Nat.exists_eq_add_of_le hk
  have hodd : Nat.Coprime (2 ^ extra) (2 * m' + 1) := Nat.Coprime.pow_left extra (by simp)
  rw [Nat.add_sub_cancel_left, Nat.add_comm k extra, pow_add, Nat.mul_assoc,
    Nat.mul_div_cancel_left _ (Nat.two_pow_pos _), Nat.gcd_mul_left, Nat.mul_left_comm,
    Nat.gcd_mul_left, hodd.gcd_mul_left_cancel]

theorem OddMultiple.lt_of_sub {power k x y : Nat} (hx : OddMultiple k x) (hy : OddMultiple k y)
    (h : OddMultiple power (x - y)) : k < power := by
  refine h.le_of_dvd ?_
  obtain ⟨m, rfl⟩ := hx
  obtain ⟨m', rfl⟩ := hy
  rw [← Nat.mul_sub, Nat.succ_eq_add_one, pow_succ]
  exact Nat.mul_dvd_mul_left _ ⟨m - m', by omega⟩

theorem gcd_sub_div {power k x y : Nat} (hx : OddMultiple k x) (hy : OddMultiple k y)
    (hlt : y < x) (h : OddMultiple power (x - y)) :
    Nat.gcd ((x - y) / 2 ^ (power - k)) y = Nat.gcd x y := by
  rw [gcd_div_left h hy (hx.lt_of_sub hy h).le, Nat.gcd_comm, Nat.gcd_comm x]
  exact Nat.gcd_sub_self_right hlt.le

end Zapcc.OddParts
