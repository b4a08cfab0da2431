import Mathlib.Tactic.Linarith
import Mathlib.Tactic.Ring

/-!
# The quotient digit of a long division

A digit of a quotient is guessed from the two highest digits of the dividend and the highest digit
of the divisor, and corrected with one more digit of each. If the divisor is normalized, the
corrected guess is the digit or one above it: `trialQuotient_spec` and `quotient_le_trial`.
-/

namespace Zapcc.TrialQuotient

open Nat

/-- Whether a guess is certainly too large. -/
def tooLarge (b u2 v2 q r : Nat) : Prop := q = b ∨ b * r + u2 < q * v2

instance (b u2 v2 q r : Nat) : Decidable (tooLarge b u2 v2 q r) :=
  inferInstanceAs (Decidable (_ ∨ _))

/-- The guess for a dividend `u0 u1 u2` and a divisor `v1 v2`, corrected at most twice. -/
def trialQuotient (b u0 u1 u2 v1 v2 : Nat) : Nat :=
  let q := (u0 * b + u1) / v1
  let r := (u0 * b + u1) % v1
  if tooLarge b u2 v2 q r then
    if r + v1 < b ∧ tooLarge b u2 v2 (q - 1) (r + v1) then q - 1 - 1 else q - 1
  else q

variable {b u0 u1 u2 v1 v2 : Nat}

/-- A guess with its remainder is small enough for three digits when it passes the test. -/
theorem mul_le_iff {q r N : Nat} (h : q * v1 + r = N) :
    q * (v1 * b + v2) ≤ N * b + u2 ↔ q * v2 ≤ b * r + u2 := by
  have hleft : q * (v1 * b + v2) = q * v1 * b + q * v2 := by ring
  have hright : N * b + u2 = q * v1 * b + (b * r + u2) := by
    rw [← h]
    ring
  omega

theorem guess_le (hv2 : v2 < b) (hnormal : b ≤ 2 * v1)
    (hsmall : (u0 * b + u1) * b + u2 < (v1 * b + v2 + 1) * b) :
    (u0 * b + u1) / v1 ≤ b + 1 ∧ ((u0 * b + u1) / v1 = b + 1 → (u0 * b + u1) % v1 + v1 ≤ v2) := by
  have hdiv := div_add_mod (u0 * b + u1) v1
  have hN : u0 * b + u1 < v1 * b + v2 + 1 := by
    by_contra hge
    have hmul := Nat.mul_le_mul_right b (Nat.not_lt.mp hge)
    omega
  refine ⟨?_, fun heq => ?_⟩
  · have hlt : u0 * b + u1 < v1 * (b + 2) := by
      rw [Nat.mul_add]
      omega
    exact le_of_lt_succ (Nat.div_lt_of_lt_mul hlt)
  · rw [heq, mul_succ] at hdiv
    omega

theorem pos_of_tooLarge {q r : Nat} (hb : 0 < b) (hlarge : tooLarge b u2 v2 q r) : 0 < q := by
  rcases hlarge with heq | hlt
  · omega
  · refine Nat.pos_of_ne_zero fun hzero => ?_
    rw [hzero, Nat.zero_mul] at hlt
    exact Nat.not_lt_zero _ hlt

theorem lt_or_eq_of_tooLarge {q r N : Nat} (h : q * v1 + r = N) (hpos : 0 < q)
    (hlarge : tooLarge b u2 v2 q r) :
    N * b + u2 < (q - 1 + 1) * (v1 * b + v2) ∨ q - 1 = b - 1 := by
  rcases hlarge with heq | hlt
  · exact .inr (by omega)
  · refine .inl ?_
    rw [Nat.sub_add_cancel hpos]
    exact Nat.not_le.mp fun hle => Nat.not_le.mpr hlt ((mul_le_iff h).mp hle)

theorem sub_one_mul_add {q r N : Nat} (h : q * v1 + r = N) (hpos : 0 < q) :
    (q - 1) * v1 + (r + v1) = N := by
  obtain ⟨q', rfl⟩ : ∃ q', q = q' + 1 := ⟨q - 1, by omega⟩
  rw [Nat.add_sub_cancel, ← h, succ_mul]
  omega

theorem mul_le_of_large {q r : Nat} (hv2 : v2 < b) (hq : q ≤ b) (hr : b ≤ r) :
    q * v2 ≤ b * r + u2 := by
  have hleft := Nat.mul_le_mul hq (Nat.le_of_lt hv2)
  have hright := Nat.mul_le_mul_left b hr
  omega

/-- The corrected guess is the quotient of the three digits, or the largest digit if that is
below. -/
theorem trialQuotient_spec (hu2 : u2 < b) (hv2 : v2 < b) (hnormal : b ≤ 2 * v1)
    (hsmall : (u0 * b + u1) * b + u2 < (v1 * b + v2 + 1) * b) :
    trialQuotient b u0 u1 u2 v1 v2 < b ∧
      trialQuotient b u0 u1 u2 v1 v2 * (v1 * b + v2) ≤ (u0 * b + u1) * b + u2 ∧
      ((u0 * b + u1) * b + u2 < (trialQuotient b u0 u1 u2 v1 v2 + 1) * (v1 * b + v2) ∨
        trialQuotient b u0 u1 u2 v1 v2 = b - 1) := by
  have hv1 : 0 < v1 := by omega
  obtain ⟨hguess, hlast⟩ := guess_le hv2 hnormal hsmall
  have hdiv := div_add_mod' (u0 * b + u1) v1
  have hmod := mod_lt (u0 * b + u1) hv1
  unfold trialQuotient
  dsimp only
  generalize (u0 * b + u1) / v1 = q at hguess hlast hdiv ⊢
  generalize (u0 * b + u1) % v1 = r at hlast hdiv hmod ⊢
  generalize u0 * b + u1 = N at hsmall hdiv ⊢
  have hb : 0 < b := by omega
  split_ifs with hlarge hagain
  · have hpos := pos_of_tooLarge hb hlarge
    have hpos' := pos_of_tooLarge hb hagain.2
    have hbelow := sub_one_mul_add hdiv hpos
    have hbelow' := sub_one_mul_add hbelow hpos'
    refine ⟨by omega, (mul_le_iff hbelow').mpr ?_, lt_or_eq_of_tooLarge hbelow hpos' hagain.2⟩
    exact mul_le_of_large hv2 (by omega) (by omega)
  · have hpos := pos_of_tooLarge hb hlarge
    have hbelow := sub_one_mul_add hdiv hpos
    refine ⟨?_, (mul_le_iff hbelow).mpr ?_, lt_or_eq_of_tooLarge hdiv hpos hlarge⟩
    · by_contra hge
      exact hagain ⟨by omega, .inl (by omega)⟩
    · by_cases hr : r + v1 < b
      · exact Nat.not_lt.mp fun hlt => hagain ⟨hr, .inr hlt⟩
      · exact mul_le_of_large hv2 (by omega) (Nat.not_lt.mp hr)
  · rw [tooLarge, not_or, Nat.not_lt] at hlarge
    refine ⟨?_, (mul_le_iff hdiv).mpr hlarge.2, .inl ?_⟩
    · by_contra hge
      have heq : q = b + 1 := by
        omega
      have hr := Nat.mul_le_mul_left (b + 1) (hlast heq)
      have hv := Nat.le_mul_of_pos_right b hv1
      have hexpand : (b + 1) * (r + v1) = b * r + b * v1 + r + v1 := by ring
      rw [heq] at hlarge
      omega
    · have hr := Nat.mul_le_mul_right b (succ_le_of_lt hmod)
      have hleft : N * b = q * v1 * b + r * b := by
        rw [← hdiv]
        ring
      have hright : (q + 1) * (v1 * b + v2) = q * v1 * b + v1 * b + (q + 1) * v2 := by ring
      rw [succ_mul] at hr
      omega

/-- The corrected guess is the quotient digit or one above it, for a dividend and a divisor that
have these digits above the same number of other digits. -/
theorem quotient_le_trial {k u v U V q : Nat} (hk : 0 < k) (hbV : b ≤ V)
    (hu : u / k = U) (hv : v / k = V) (huv : u < v * b) (hq : q < b) (hle : q * V ≤ U)
    (hlt : U < (q + 1) * V ∨ q = b - 1) : u / v ≤ q ∧ q ≤ u / v + 1 := by
  have hVk : V * k ≤ v := by
    rw [← hv]
    exact div_mul_le_self v k
  have hvpos : 0 < v := by
    have hpos := Nat.mul_pos (show 0 < V by omega) hk
    omega
  have hdigit : u / v < b := Nat.div_lt_of_lt_mul huv
  constructor
  · rcases hlt with hlt | heq
    · have hmul : u / v * V ≤ U := by
        rw [← hu, Nat.le_div_iff_mul_le hk, Nat.mul_assoc]
        exact Nat.le_trans (Nat.mul_le_mul_left _ hVk) (div_mul_le_self u v)
      exact le_of_lt_succ (Nat.lt_of_mul_lt_mul_right (Nat.lt_of_le_of_lt hmul hlt))
    · omega
  · have hU : U < (u / v + 1) * (V + 1) := by
      rw [← hu, Nat.div_lt_iff_lt_mul hk]
      have hv' : v < (V + 1) * k := by
        rw [← hv]
        exact lt_mul_of_div_lt (lt_succ_self _) hk
      calc u < (u / v + 1) * v := by
            rw [succ_mul]
            exact lt_div_mul_add hvpos
        _ ≤ (u / v + 1) * ((V + 1) * k) := Nat.mul_le_mul_left _ (Nat.le_of_lt hv')
        _ = (u / v + 1) * (V + 1) * k := (Nat.mul_assoc _ _ _).symm
    by_contra hge
    have hmul := Nat.mul_le_mul_right V (show u / v + 2 ≤ q by omega)
    have hleft : (u / v + 2) * V = (u / v + 1) * V + V := by ring
    have hright : (u / v + 1) * (V + 1) = (u / v + 1) * V + (u / v + 1) := by ring
    omega

/-- If the subtraction of a multiple leaves no negative number, the guess is the digit. -/
theorem exact_digit {V W P q low top borrow : Nat} (hV : 0 < V) (hle : W / V ≤ q)
    (hborrow : borrow ≤ top) (hsub : low + q * V + P * top = W + P * borrow) :
    q = W / V ∧ low + P * (top - borrow) = W % V := by
  obtain ⟨rest, rfl⟩ := Nat.exists_eq_add_of_le hborrow
  rw [Nat.mul_add] at hsub
  rw [Nat.add_sub_cancel_left]
  have hdiv := div_add_mod' W V
  have hq : q = W / V := by
    refine Nat.le_antisymm ?_ hle
    rw [Nat.le_div_iff_mul_le hV]
    omega
  rw [← hq] at hdiv
  omega

/-- If the subtraction of a multiple leaves a negative number, the guess is one too large, and
adding the divisor back gives the remainder. -/
theorem correct_digit {V W P q low low' top borrow carry : Nat} (hV : 0 < V)
    (hge : q ≤ W / V + 1) (hborrow : top < borrow) (hlow : low < P)
    (hsub : low + q * V + P * top = W + P * borrow) (hlow' : low' < P)
    (hcarry : carry ≤ 1) (hadd : low' + P * carry = low + V) :
    q = W / V + 1 ∧ borrow = top + carry ∧ low' = W % V := by
  obtain ⟨rest, rfl⟩ := Nat.exists_eq_add_of_lt hborrow
  have hdiv := div_add_mod' W V
  rw [mul_succ, Nat.mul_add] at hsub
  have hq : q = W / V + 1 := by
    refine Nat.le_antisymm hge (succ_le_of_lt ?_)
    rw [Nat.div_lt_iff_lt_mul hV]
    omega
  rw [hq, succ_mul] at hsub
  have hone : carry = 1 := by
    refine Nat.le_antisymm hcarry (Nat.pos_of_ne_zero fun hzero => ?_)
    rw [hzero, Nat.mul_zero] at hadd
    omega
  have hrest : rest = 0 := by
    refine Nat.eq_zero_of_not_pos fun hpos => ?_
    have hmul := Nat.le_mul_of_pos_right P hpos
    rw [hone, Nat.mul_one] at hadd
    omega
  rw [hrest, Nat.mul_zero] at hsub
  rw [hone, Nat.mul_one] at hadd
  omega

theorem longDivision_step {B P q d r u V W low last : Nat} (hdiv : d * V + r = W)
    (hsum : q * V + last = low + P * (u + B * r)) :
    (q + B * P * d) * V + last = low + P * (u + B * W) := by
  calc (q + B * P * d) * V + last = q * V + last + B * P * d * V := by ring
    _ = low + P * (u + B * r) + B * P * d * V := by rw [hsum]
    _ = low + P * (u + B * (d * V + r)) := by ring
    _ = low + P * (u + B * W) := by rw [hdiv]

end Zapcc.TrialQuotient
