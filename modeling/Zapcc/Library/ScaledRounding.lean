import Mathlib.Algebra.Order.Field.Power
import Mathlib.Data.Rat.Floor

/-!
# Rounding to digits and a scale

Numbers with a bounded number of binary digits and a scale. If the digits of a number are cut off
behind the highest one and the next digit says whether they are rounded up, the result is the
nearest number at its scale, and exact where that is possible: `rounds_roundUp`.
-/

namespace Zapcc.ScaledRounding

/-- The number with some digits and a scale. -/
def value (p : Nat × Int) : ℚ := p.1 * 2 ^ p.2

/-- The digits are those of the number rounded to the nearest at the scale, halves up, and the
number itself if it has a form with that many digits. -/
structure Rounds (w : Nat) (x : ℚ) (p : Nat × Int) : Prop where
  digits : p.1 < 2 ^ w
  nearest : (p.1 : Int) = round (x / 2 ^ p.2)
  exact : ∀ (d : Nat) (s : Int), d < 2 ^ w → x = value (d, s) → value p = x

/-- The digits of a number at a scale, cut off, and whether the rest is at least a half. Nothing is
cut off unless there are as many digits as possible. -/
structure Truncates (w : Nat) (x : ℚ) (q : Nat) (S : Int) (up : Bool) : Prop where
  digits : q < 2 ^ w
  low : (q : ℚ) ≤ x / 2 ^ S
  high : x / 2 ^ S < q + 1
  half : up = true ↔ (q : ℚ) + 1 / 2 ≤ x / 2 ^ S
  full : 2 ^ (w - 1) ≤ q ∨ x / 2 ^ S = q

/-- The digits with one more, or half of them if there are too many. -/
def roundUp (w q : Nat) (S : Int) (up : Bool) : Nat × Int :=
  if up then if q + 1 = 2 ^ w then (2 ^ (w - 1), S + 1) else (q + 1, S) else (q, S)

variable {w q : Nat} {x : ℚ} {S : Int} {up : Bool}

theorem zpow_pos_two (S : Int) : (0 : ℚ) < 2 ^ S := zpow_pos (by norm_num) S

theorem value_div (d : Nat) (s S : Int) : value (d, s) / 2 ^ S = d * 2 ^ (s - S) := by
  rw [value, zpow_sub₀ (by norm_num), mul_div_assoc]

theorem Truncates.eq_of_value (h : Truncates w x q S up) {d : Nat} {s : Int} (hd : d < 2 ^ w)
    (hx : x = value (d, s)) : x / 2 ^ S = q := by
  rcases h.full with hfull | heq
  · rw [hx, value_div]
    have hlow := h.low
    have hhigh := h.high
    rw [hx, value_div] at hlow hhigh
    rcases lt_or_ge s S with hs | hs
    · have hscale : (2 : ℚ) ^ (s - S) ≤ 2 ^ (-1 : Int) :=
        zpow_le_zpow_right₀ (by norm_num) (by omega)
      have hd' : (d : ℚ) < 2 ^ w := by exact_mod_cast hd
      have hfull' : (2 : ℚ) ^ (w - 1) ≤ q := by exact_mod_cast hfull
      have hw : 1 ≤ w := by
        by_contra hw
        have hq := h.digits
        rw [show w = 0 by omega] at hfull hq
        omega
      have hpow : (2 : ℚ) ^ w = 2 * 2 ^ (w - 1) := by
        rw [← pow_succ', Nat.sub_add_cancel hw]
      have hle : (d : ℚ) * 2 ^ (s - S) ≤ d * 2⁻¹ :=
        mul_le_mul_of_nonneg_left hscale (Nat.cast_nonneg d)
      linarith
    · obtain ⟨k, hk⟩ := Int.eq_ofNat_of_zero_le (sub_nonneg.mpr hs)
      have hcast : (d : ℚ) * 2 ^ (s - S) = (d * 2 ^ k : Nat) := by
        rw [hk]
        push_cast
        rfl
      rw [hcast] at hlow hhigh ⊢
      have hle : q ≤ d * 2 ^ k := by exact_mod_cast hlow
      have hlt : d * 2 ^ k < q + 1 := by exact_mod_cast hhigh
      exact_mod_cast (by omega : d * 2 ^ k = q)
  · exact heq

theorem rounds_roundUp (h : Truncates w x q S up) (hw : 0 < w) : Rounds w x (roundUp w q S up) := by
  have hlow := h.low
  have hhigh := h.high
  cases up with
  | false =>
    have hhalf : x / 2 ^ S < q + 1 / 2 := by
      by_contra hle
      exact absurd (h.half.mpr (not_lt.mp hle)) Bool.false_ne_true
    refine ⟨h.digits, ?_, fun d s hd hx => ?_⟩
    · change (q : Int) = round (x / 2 ^ S)
      rw [round_eq, eq_comm, Int.floor_eq_iff]
      push_cast
      exact ⟨by linarith, by linarith⟩
    · have heq := h.eq_of_value hd hx
      rw [div_eq_iff (zpow_pos_two S).ne'] at heq
      exact heq.symm
  | true =>
    have hhalf := h.half.mp rfl
    have hexact : ∀ (d : Nat) (s : Int), d < 2 ^ w → x ≠ value (d, s) := by
      intro d s hd hx
      have heq := h.eq_of_value hd hx
      linarith
    unfold roundUp
    rw [if_pos rfl]
    by_cases hcarry : q + 1 = 2 ^ w
    · have hpow : (2 : Nat) ^ w = 2 * 2 ^ (w - 1) := by
        rw [← pow_succ', Nat.sub_add_cancel hw]
      have hq : (q : ℚ) + 1 = 2 * 2 ^ (w - 1) := by exact_mod_cast hcarry.trans hpow
      have hdiv : x / 2 ^ (S + 1) = x / 2 ^ S / 2 := by
        rw [zpow_add_one₀ (by norm_num), div_mul_eq_div_div]
      rw [if_pos hcarry]
      refine ⟨Nat.pow_lt_pow_right (by norm_num) (by omega), ?_,
        fun d s hd hx => absurd hx (hexact d s hd)⟩
      rw [round_eq, eq_comm, Int.floor_eq_iff, hdiv]
      push_cast
      exact ⟨by linarith, by linarith⟩
    · have hdigits := h.digits
      rw [if_neg hcarry]
      refine ⟨?_, ?_, fun d s hd hx => absurd hx (hexact d s hd)⟩
      · omega
      · rw [round_eq, eq_comm, Int.floor_eq_iff]
        push_cast
        exact ⟨by linarith, by linarith⟩

/-- The quotient and the remainder of a division, as a truncated number. -/
theorem truncates_div {b r : Nat} (hq : q < 2 ^ w) (hr : r < b)
    (hx : x / 2 ^ S = q + (r : ℚ) / b) (hup : up = true ↔ b ≤ 2 * r)
    (hfull : 2 ^ (w - 1) ≤ q ∨ r = 0) : Truncates w x q S up := by
  have hb : (0 : ℚ) < b := by exact_mod_cast Nat.zero_lt_of_lt hr
  have hr' : (r : ℚ) < b := by exact_mod_cast hr
  have hnonneg : (0 : ℚ) ≤ (r : ℚ) / b := by positivity
  have hlt : (r : ℚ) / b < 1 := (div_lt_one hb).mpr hr'
  refine ⟨hq, by rw [hx]; linarith, by rw [hx]; linarith, ?_, hfull.imp_right fun hzero => ?_⟩
  · rw [hup, hx, add_le_add_iff_left, div_le_div_iff₀ (by norm_num) hb]
    constructor
    · intro hle
      have hle' : (b : ℚ) ≤ 2 * r := by exact_mod_cast hle
      linarith
    · intro hle
      have hle' : (b : ℚ) ≤ 2 * r := by linarith
      exact_mod_cast hle'
  · rw [hx, hzero]
    simp

theorem rounds_exact {p : Nat × Int} (hp : p.1 < 2 ^ w) (hx : value p = x) : Rounds w x p := by
  refine ⟨hp, ?_, fun d s _ _ => hx⟩
  rw [← hx, value, mul_div_cancel_right₀ _ (zpow_pos_two p.2).ne']
  simp

end Zapcc.ScaledRounding
