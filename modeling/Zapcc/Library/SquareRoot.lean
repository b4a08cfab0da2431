import Mathlib.Analysis.Real.Sqrt

/-!
# Integer square roots

Newton's iteration from above ends at the integer square root, and the nearest integer to the square
root is the integer square root or the next one.
-/

namespace Zapcc.SquareRoot

open Nat

/-- One step of Newton's iteration. -/
def newton (n g : Nat) : Nat := (n / g + g) / 2

theorem sqrt_le_newton {n g : Nat} (hg : 0 < g) : Nat.sqrt n ≤ newton n g := by
  have hroot : 2 * Nat.sqrt n - g ≤ n / g := by
    rw [Nat.le_div_iff_mul_le hg]
    refine le_trans ?_ (sqrt_le n)
    by_cases hle : g ≤ 2 * Nat.sqrt n
    · zify [hle]
      nlinarith [sq_nonneg ((Nat.sqrt n : Int) - g)]
    · rw [Nat.sub_eq_zero_of_le (by omega), Nat.zero_mul]
      exact Nat.zero_le _
  unfold newton
  omega

theorem eq_sqrt_of_le_newton {n g : Nat} (hroot : Nat.sqrt n ≤ g) (hg : 0 < g)
    (h : g ≤ newton n g) : g = Nat.sqrt n := by
  have hle : g ≤ n / g := by
    unfold newton at h
    omega
  rw [Nat.le_div_iff_mul_le hg] at hle
  exact le_antisymm (le_sqrt.mpr hle) hroot

/-- No integer is closer to the square root. -/
def IsNearest (n r : Nat) : Prop := ∀ k : Int, |√(n : ℝ) - r| ≤ |√(n : ℝ) - k|

variable {n : Nat}

theorem isNearest_iff {r : Nat} :
    IsNearest n r ↔ |√(n : ℝ) - r| ≤ √(n : ℝ) - Nat.sqrt n ∧
      |√(n : ℝ) - r| ≤ Nat.sqrt n + 1 - √(n : ℝ) := by
  have hlow : (Nat.sqrt n : ℝ) ≤ √(n : ℝ) := Real.nat_sqrt_le_real_sqrt
  have hhigh : √(n : ℝ) < Nat.sqrt n + 1 := Real.real_sqrt_lt_nat_sqrt_succ
  constructor
  · intro h
    have hleft := h (Nat.sqrt n)
    have hright := h (Nat.sqrt n + 1)
    push_cast at hleft hright
    rw [abs_of_nonneg (show (0 : ℝ) ≤ √(n : ℝ) - Nat.sqrt n by linarith)] at hleft
    rw [abs_of_neg (show √(n : ℝ) - (Nat.sqrt n + 1) < 0 by linarith)] at hright
    exact ⟨hleft, by linarith⟩
  · rintro ⟨hleft, hright⟩ k
    rcases le_or_gt k (Nat.sqrt n) with hk | hk
    · have hk' : (k : ℝ) ≤ Nat.sqrt n := by exact_mod_cast hk
      exact hleft.trans ((by linarith : _ ≤ √(n : ℝ) - k).trans (le_abs_self _))
    · have hk' : (Nat.sqrt n : ℝ) + 1 ≤ k := by exact_mod_cast hk
      exact hright.trans ((by linarith : _ ≤ -(√(n : ℝ) - k)).trans (neg_le_abs _))

/-- The integer square root is nearest up to half of the way to the next square. -/
theorem isNearest_sqrt_iff :
    IsNearest n (Nat.sqrt n) ↔ n ≤ Nat.sqrt n * Nat.sqrt n + Nat.sqrt n := by
  have hlow : (Nat.sqrt n : ℝ) ≤ √(n : ℝ) := Real.nat_sqrt_le_real_sqrt
  have hsquare : √(n : ℝ) * √(n : ℝ) = n := Real.mul_self_sqrt (cast_nonneg n)
  rw [isNearest_iff, abs_of_nonneg (by linarith), and_iff_right le_rfl]
  constructor
  · intro h
    have hhalf : (n : ℝ) < Nat.sqrt n * Nat.sqrt n + Nat.sqrt n + 1 := by
      nlinarith [Real.sqrt_nonneg (n : ℝ)]
    exact Nat.lt_succ_iff.mp (by exact_mod_cast hhalf)
  · intro h
    have hle : (n : ℝ) ≤ Nat.sqrt n * Nat.sqrt n + Nat.sqrt n := by exact_mod_cast h
    nlinarith [Real.sqrt_nonneg (n : ℝ), cast_nonneg (α := ℝ) (Nat.sqrt n)]

theorem isNearest_sqrt_succ_iff :
    IsNearest n (Nat.sqrt n + 1) ↔ Nat.sqrt n * Nat.sqrt n + Nat.sqrt n < n := by
  have hhigh : √(n : ℝ) < Nat.sqrt n + 1 := Real.real_sqrt_lt_nat_sqrt_succ
  have hsquare : √(n : ℝ) * √(n : ℝ) = n := Real.mul_self_sqrt (cast_nonneg n)
  rw [isNearest_iff]
  push_cast
  rw [abs_of_neg (by linarith), neg_sub, and_iff_left le_rfl]
  constructor
  · intro h
    have hhalf : (Nat.sqrt n : ℝ) * Nat.sqrt n + Nat.sqrt n < n := by
      nlinarith [Real.sqrt_nonneg (n : ℝ), cast_nonneg (α := ℝ) (Nat.sqrt n)]
    exact_mod_cast hhalf
  · intro h
    have hle : (Nat.sqrt n : ℝ) * Nat.sqrt n + Nat.sqrt n + 1 ≤ n := by exact_mod_cast h
    nlinarith [Real.sqrt_nonneg (n : ℝ), cast_nonneg (α := ℝ) (Nat.sqrt n)]

end Zapcc.SquareRoot
