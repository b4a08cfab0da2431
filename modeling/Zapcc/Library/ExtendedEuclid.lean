import Mathlib.Algebra.Order.Ring.Abs
import Mathlib.Tactic.Ring

/-!
# The extended Euclidean algorithm

The coefficients of two successive remainders have opposite signs, and their products with the
remainders add up to a constant. This bounds them.
-/

namespace Zapcc.ExtendedEuclid

/-- Two successive coefficients of Euclid's algorithm have opposite signs, and their products with
the remainders add up to `P`. -/
def Alternate (P g0 g1 : Nat) (c0 c1 : Int) : Prop :=
  ∃ p0 p1 : Nat, p0 * g1 + p1 * g0 = P ∧ (c0 = p0 ∧ c1 = -p1 ∨ c0 = -p0 ∧ c1 = p1)

theorem Alternate.step {P g0 g1 : Nat} {c0 c1 : Int} (h : Alternate P g0 g1 c0 c1) :
    Alternate P g1 (g0 % g1) c1 (c0 - (g0 / g1 : Nat) * c1) := by
  obtain ⟨p0, p1, hP, hsign⟩ := h
  refine ⟨p1, p0 + g0 / g1 * p1, ?_, ?_⟩
  · calc p1 * (g0 % g1) + (p0 + g0 / g1 * p1) * g1
        = p0 * g1 + p1 * (g0 % g1 + g1 * (g0 / g1)) := by ring
      _ = P := by rw [Nat.mod_add_div, hP]
  · push_cast
    rcases hsign with ⟨rfl, rfl⟩ | ⟨rfl, rfl⟩
    · exact .inr ⟨rfl, by ring⟩
    · exact .inl ⟨rfl, by ring⟩

/-- The products and the coefficients are at most `P`. -/
theorem Alternate.le {P g0 g1 : Nat} {c0 c1 : Int} (h : Alternate P g0 g1 c0 c1) (hg1 : 0 < g1) :
    |c0| ≤ P ∧ |(g0 / g1 : Nat) * c1| ≤ P ∧ (0 < g0 → |c1| ≤ P) := by
  obtain ⟨p0, p1, hP, hsign⟩ := h
  have hp0 : p0 ≤ P := by
    have := Nat.le_mul_of_pos_right p0 hg1
    omega
  have hquotient : g0 / g1 * p1 ≤ P := by
    have hle := Nat.mul_le_mul_right p1 (Nat.div_le_self g0 g1)
    rw [Nat.mul_comm g0] at hle
    omega
  have hp1 : 0 < g0 → p1 ≤ P := by
    intro hg0
    have := Nat.le_mul_of_pos_right p1 hg0
    omega
  have hc0 : |c0| = p0 := by
    rcases hsign with ⟨rfl, -⟩ | ⟨rfl, -⟩ <;> simp
  have hc1 : |c1| = p1 := by
    rcases hsign with ⟨-, rfl⟩ | ⟨-, rfl⟩ <;> simp
  rw [abs_mul, hc0, hc1, Nat.abs_cast]
  exact ⟨by omega, by exact_mod_cast hquotient, fun hg0 => by exact_mod_cast hp1 hg0⟩

/-- The coefficient of a remainder is at most half of `P` when the remainder before it is at least
two. -/
theorem Alternate.two_mul_le {P g0 g1 : Nat} {c0 c1 : Int} (h : Alternate P g0 g1 c0 c1)
    (hg0 : 1 < g0) : -P ≤ 2 * c1 ∧ 2 * c1 ≤ P := by
  obtain ⟨p0, p1, hP, hsign⟩ := h
  have hp1 := Nat.mul_le_mul_left p1 hg0
  omega

/-- Two successive remainders of `m` and `a` are multiples of `a` modulo `m`. -/
structure Cofactors (m a g0 g1 : Nat) (c0 c1 : Int) : Prop where
  alternate : Alternate m g0 g1 c0 c1
  first : (m : Int) ∣ a * c0 - g0
  second : (m : Int) ∣ a * c1 - g1
  gcd : Nat.gcd g0 g1 = Nat.gcd m a

theorem Cofactors.start (m a : Nat) : Cofactors m a m a 0 1 where
  alternate := ⟨0, 1, by omega, .inr ⟨rfl, rfl⟩⟩
  first := ⟨-1, by ring⟩
  second := ⟨0, by ring⟩
  gcd := rfl

theorem Cofactors.step {m a g0 g1 : Nat} {c0 c1 : Int} (h : Cofactors m a g0 g1 c0 c1) :
    Cofactors m a g1 (g0 % g1) c1 (c0 - (g0 / g1 : Nat) * c1) where
  alternate := h.alternate.step
  first := h.second
  second := by
    have hmod : (g0 : Int) = (g0 % g1 : Nat) + g1 * (g0 / g1 : Nat) := by
      exact_mod_cast (Nat.mod_add_div g0 g1).symm
    have hdiff := Int.dvd_sub h.first (Dvd.dvd.mul_left h.second ((g0 / g1 : Nat) : Int))
    refine hdiff.trans (Eq.dvd ?_)
    rw [hmod]
    ring
  gcd := by rw [← h.gcd, Nat.gcd_comm g1, Nat.gcd_comm g0, ← Nat.gcd_rec]

end Zapcc.ExtendedEuclid
