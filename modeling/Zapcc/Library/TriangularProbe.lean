import Mathlib.Data.Fintype.EquivFin
import Mathlib.Data.Int.ModEq
import Mathlib.Data.Nat.Prime.Basic
import Mathlib.Tactic.Ring

/-!
# Triangular probing

A table of `2 ^ m` buckets is probed at distances that grow by one, so that the bucket of the
`j`-th probe is the home bucket plus a triangular number. The main result is `exists_probe`: the
first `2 ^ m` probes visit every bucket.
-/

namespace Zapcc.TriangularProbe

open Nat

/-- The sum of the distances of the first probes. -/
def triangle : Nat → Nat
  | 0 => 0
  | j + 1 => triangle j + (j + 1)

/-- The bucket of the `j`-th probe from a home bucket. -/
def probe (size home j : Nat) : Nat := (home + triangle j) % size

@[simp]
theorem triangle_zero : triangle 0 = 0 := rfl

@[simp]
theorem triangle_succ (j : Nat) : triangle (j + 1) = triangle j + (j + 1) := rfl

theorem two_mul_triangle (j : Nat) : 2 * triangle j = j * (j + 1) := by
  induction j with
  | zero => rfl
  | succ j ih =>
    rw [triangle_succ, Nat.mul_add, ih]
    ring

theorem probe_lt {size : Nat} (hsize : 0 < size) (home j : Nat) : probe size home j < size :=
  mod_lt _ hsize

theorem probe_zero (size home : Nat) : probe size home 0 = home % size := rfl

theorem probe_succ (size home j : Nat) :
    probe size home (j + 1) = (probe size home j + (j + 1)) % size := by
  simp only [probe, triangle_succ, mod_add_mod, Nat.add_assoc]

/-- Twice the distance between two probes is a product of two numbers of which one is odd. -/
theorem two_mul_triangle_sub {i j : Nat} (hij : i ≤ j) :
    2 * (triangle j - triangle i) = (j - i) * (j + i + 1) := by
  obtain ⟨d, rfl⟩ := Nat.exists_eq_add_of_le hij
  have hi := two_mul_triangle i
  have hd := two_mul_triangle (i + d)
  rw [Nat.mul_sub, hi, hd, Nat.add_sub_cancel_left]
  have : (i + d) * (i + d + 1) = i * (i + 1) + d * (i + d + i + 1) := by ring
  rw [this, Nat.add_sub_cancel_left]

theorem triangle_mono {i j : Nat} (hij : i ≤ j) : triangle i ≤ triangle j := by
  induction hij with
  | refl => exact Nat.le_refl _
  | step _ ih => exact Nat.le_trans ih (Nat.le_add_right _ _)

theorem coprime_two_pow (m : Nat) {n : Nat} (hodd : n % 2 = 1) : Nat.Coprime (2 ^ m) n :=
  Nat.Coprime.pow_left m (Nat.Coprime.symm (odd_iff.mpr hodd).coprime_two_right)

/-- A power of two that divides twice the distance divides the even one of the two numbers, which
is less. -/
theorem not_dvd_triangle_sub {m i j : Nat} (hij : i < j) (hj : j < 2 ^ m) :
    ¬ 2 ^ m ∣ triangle j - triangle i := by
  intro hdvd
  have hprod : 2 ^ (m + 1) ∣ (j - i) * (j + i + 1) := by
    rw [← two_mul_triangle_sub (Nat.le_of_lt hij), Nat.pow_succ, Nat.mul_comm]
    exact Nat.mul_dvd_mul_left 2 hdvd
  by_cases hodd : (j - i) % 2 = 1
  · have hcop : Nat.Coprime (2 ^ (m + 1)) (j - i) :=
      coprime_two_pow _ hodd
    have hle := le_of_dvd (by omega) (hcop.dvd_of_dvd_mul_left hprod)
    omega
  · have hcop : Nat.Coprime (2 ^ (m + 1)) (j + i + 1) :=
      coprime_two_pow _ (by omega)
    have hle := le_of_dvd (by omega) (hcop.dvd_of_dvd_mul_right hprod)
    omega

theorem probe_injOn {m home i j : Nat} (hi : i < 2 ^ m) (hj : j < 2 ^ m)
    (heq : probe (2 ^ m) home i = probe (2 ^ m) home j) : i = j := by
  have hmod : triangle i ≡ triangle j [MOD 2 ^ m] := Nat.ModEq.add_left_cancel' home heq
  rcases Nat.lt_trichotomy i j with hij | hij | hij
  · exact absurd ((modEq_iff_dvd' (triangle_mono hij.le)).mp hmod)
      (not_dvd_triangle_sub hij hj)
  · exact hij
  · exact absurd ((modEq_iff_dvd' (triangle_mono hij.le)).mp hmod.symm)
      (not_dvd_triangle_sub hij hi)

theorem exists_probe {m : Nat} (home : Nat) {b : Nat} (hb : b < 2 ^ m) :
    ∃ j < 2 ^ m, probe (2 ^ m) home j = b := by
  let visit : Fin (2 ^ m) → Fin (2 ^ m) := fun j =>
    ⟨probe (2 ^ m) home j, probe_lt (Nat.two_pow_pos m) home j⟩
  have hinj : Function.Injective visit := fun i j heq =>
    Fin.ext (probe_injOn i.isLt j.isLt (congrArg Fin.val heq))
  obtain ⟨j, hj⟩ := Finite.injective_iff_surjective.mp hinj ⟨b, hb⟩
  exact ⟨j, j.isLt, congrArg Fin.val hj⟩

end Zapcc.TriangularProbe
