import Mathlib.Data.Nat.ModEq
import Mathlib.Tactic.Linarith
import Mathlib.Tactic.Ring

/-!
# Division by multiplication

A multiplier `m` of a divisor `d` at a scale `P` has the error `δ = m * d - P`. The quotient of a
dividend is the scaled product, rounded down, as long as the error that the dividend adds up does
not carry over into the next quotient (`mul_div_of_error`). For a range of dividends this needs to
be known at its critical dividend only (`error_of_critical`).
-/

namespace Zapcc.MagicDivision

open Nat

theorem double_div_mod {a : Nat} (ha : 0 < a) (x c : Nat) (hc : c ≤ 1) :
    (2 * x + c) / a = 2 * (x / a) + (if a ≤ 2 * (x % a) + c then 1 else 0) ∧
      (2 * x + c) % a = if a ≤ 2 * (x % a) + c then 2 * (x % a) + c - a else 2 * (x % a) + c := by
  have hx : a * (x / a) + x % a = x := div_add_mod x a
  have hr : x % a < a := mod_lt x ha
  rw [Nat.div_mod_unique ha]
  split
  · rw [Nat.mul_add, Nat.mul_one, Nat.mul_left_comm]
    omega
  · rw [Nat.add_zero, Nat.mul_left_comm]
    omega

theorem le_mul_iff {a x δ : Nat} (ha : 0 < a) :
    x ≤ a * δ ↔ x / a < δ ∨ x / a = δ ∧ x % a = 0 := by
  have hx : a * (x / a) + x % a = x := div_add_mod x a
  have hr : x % a < a := mod_lt x ha
  constructor
  · intro hle
    rcases Nat.lt_trichotomy (x / a) δ with hlt | heq | hgt
    · exact .inl hlt
    · exact .inr ⟨heq, by rw [heq] at hx; omega⟩
    · have hmul : a * (δ + 1) ≤ a * (x / a) := Nat.mul_le_mul_left a hgt
      rw [Nat.mul_add, Nat.mul_one] at hmul
      omega
  · rintro (hlt | ⟨heq, hzero⟩)
    · have hmul : a * (x / a + 1) ≤ a * δ := Nat.mul_le_mul_left a hlt
      rw [Nat.mul_add, Nat.mul_one] at hmul
      omega
    · rw [heq] at hx
      omega

section Multiplier

variable {d m P δ n : Nat}

theorem mul_mul_eq (hm : m * d = P + δ) (n : Nat) : n * m * d = n * P + n * δ := by
  rw [Nat.mul_assoc, hm, Nat.mul_add]

/-- The dividend is made up of its quotient and its remainder, at the scale of the product. -/
theorem mul_scale_eq (d P n : Nat) : n * P = n / d * P * d + n % d * P := by
  have hn : d * (n / d) + n % d = n := div_add_mod n d
  calc n * P = (d * (n / d) + n % d) * P := by rw [hn]
    _ = n / d * P * d + n % d * P := by ring

theorem mul_div_of_error (hd : 0 < d) (hm : m * d = P + δ)
    (herr : n * δ < P * (d - n % d)) : n * m / P = n / d := by
  have hprod := mul_mul_eq hm n
  have hscale := mul_scale_eq d P n
  have hr : n % d < d := mod_lt n hd
  have hsplit : P * (d - n % d) + n % d * P = P * d := by
    rw [Nat.mul_comm (n % d), ← Nat.mul_add, Nat.sub_add_cancel hr.le]
  apply Nat.div_eq_of_lt_le
  · refine Nat.le_of_mul_le_mul_right ?_ hd
    omega
  · refine Nat.lt_of_mul_lt_mul_right (a := d) ?_
    have hnext : (n / d + 1) * P * d = n / d * P * d + P * d := by ring
    omega

theorem mul_ceil_of_error (hd : 0 < d) (hm : m * d = P + δ) (hpos : 0 < n * δ)
    (herr : n * δ ≤ P * (d - n % d)) : n / d * P < n * m ∧ n * m ≤ (n / d + 1) * P := by
  have hprod := mul_mul_eq hm n
  have hscale := mul_scale_eq d P n
  have hr : n % d < d := mod_lt n hd
  have hsplit : P * (d - n % d) + n % d * P = P * d := by
    rw [Nat.mul_comm (n % d), ← Nat.mul_add, Nat.sub_add_cancel hr.le]
  constructor
  · refine Nat.lt_of_mul_lt_mul_right (a := d) ?_
    omega
  · refine Nat.le_of_mul_le_mul_right (c := d) ?_ hd
    have hnext : (n / d + 1) * P * d = n / d * P * d + P * d := by ring
    omega

/-- The error is small enough for a dividend that is not greater than the critical one. -/
theorem error_of_le {c : Nat} (hd : 0 < d) (hcrit : c * δ < P) (hn : n ≤ c) :
    n * δ < P * (d - n % d) := by
  have hr : n % d < d := mod_lt n hd
  calc n * δ ≤ c * δ := Nat.mul_le_mul_right δ hn
    _ < P * 1 := by omega
    _ ≤ P * (d - n % d) := Nat.mul_le_mul_left P (by omega)

/-- It is small enough for twice the critical dividend where two units are left to the next
quotient. -/
theorem error_of_le_two_mul {c : Nat} (hcrit : c * δ < P) (hn : n ≤ 2 * c)
    (hroom : n % d + 2 ≤ d) : n * δ < P * (d - n % d) := by
  calc n * δ ≤ 2 * c * δ := Nat.mul_le_mul_right δ hn
    _ = 2 * (c * δ) := Nat.mul_assoc 2 c δ
    _ < P * 2 := by omega
    _ ≤ P * (d - n % d) := Nat.mul_le_mul_left P (by omega)

end Multiplier

end Zapcc.MagicDivision
