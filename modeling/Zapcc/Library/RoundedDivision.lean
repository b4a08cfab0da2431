import Mathlib.Tactic.Ring

/-!
# Rounded quotients

A quotient that is rounded to the nearest integer, halves up. The rounded shares of a whole sum up
to it with an error of at most a half for each share: `shares_total`.
-/

namespace Zapcc.RoundedDivision

open List Nat

/-- The quotient, rounded to the nearest integer. -/
def nearest (a b : Nat) : Nat := (a + b / 2) / b

def total (ws : List Nat) : Nat := ws.foldr (· + ·) 0

variable {a b : Nat}

theorem nearest_le (a b : Nat) : 2 * (b * nearest a b) ≤ 2 * a + b := by
  have hle : b * nearest a b ≤ a + b / 2 := mul_div_le (a + b / 2) b
  omega

theorem le_nearest (hb : 0 < b) : 2 * a ≤ 2 * (b * nearest a b) + b := by
  have hdiv : b * nearest a b + (a + b / 2) % b = a + b / 2 := div_add_mod _ _
  have hmod := mod_lt (a + b / 2) hb
  omega

theorem nearest_mono {a' : Nat} (h : a ≤ a') (b : Nat) : nearest a b ≤ nearest a' b :=
  Nat.div_le_div_right (Nat.add_le_add_right h _)

theorem nearest_mul (q : Nat) (hb : 0 < b) : nearest (b * q) b = q := by
  unfold nearest
  rw [mul_add_div hb, div_eq_of_lt (Nat.div_lt_self hb (by decide)), Nat.add_zero]

theorem share_le {w s : Nat} (t : Nat) (hs : 0 < s) (h : w ≤ s) : nearest (w * t) s ≤ t :=
  (nearest_mono (Nat.mul_le_mul_right t h) s).trans_eq (nearest_mul t hs)

theorem total_cons (w : Nat) (ws : List Nat) : total (w :: ws) = w + total ws := rfl

theorem le_total {w : Nat} {ws : List Nat} (h : w ∈ ws) : w ≤ total ws := by
  induction ws with
  | nil => exact absurd h not_mem_nil
  | cons v ws ih =>
    rcases mem_cons.mp h with rfl | h
    · exact Nat.le_add_right _ _
    · exact le_add_left_of_le (ih h)

theorem total_append (vs ws : List Nat) : total (vs ++ ws) = total vs + total ws := by
  induction vs with
  | nil => exact (Nat.zero_add _).symm
  | cons v vs ih => rw [cons_append, total_cons, total_cons, ih, Nat.add_assoc]

theorem total_perm {vs ws : List Nat} (h : vs.Perm ws) : total vs = total ws := by
  induction h with
  | nil => rfl
  | cons w _ ih => rw [total_cons, total_cons, ih]
  | swap v w ws => rw [total_cons, total_cons, total_cons, total_cons, Nat.add_left_comm]
  | trans _ _ ih ih' => exact ih.trans ih'

theorem total_map_add {α : Type} (f g : α → Nat) (xs : List α) :
    total (xs.map fun x => f x + g x) = total (xs.map f) + total (xs.map g) := by
  induction xs with
  | nil => rfl
  | cons x xs ih =>
    rw [map_cons, map_cons, map_cons, total_cons, total_cons, total_cons, ih]
    exact Nat.add_add_add_comm _ _ _ _

/-- What the rounded shares of `t` by some weights sum up to. -/
theorem shares_total {s : Nat} (t : Nat) (hs : 0 < s) (ws : List Nat) :
    2 * (s * total (ws.map fun w => nearest (w * t) s)) ≤ 2 * (total ws * t) + ws.length * s ∧
      2 * (total ws * t) ≤ 2 * (s * total (ws.map fun w => nearest (w * t) s)) + ws.length * s := by
  induction ws with
  | nil => simp [total]
  | cons w ws ih =>
    have hhigh := nearest_le (w * t) s
    have hlow := @le_nearest (w * t) s hs
    rw [map_cons, total_cons, total_cons, length_cons, Nat.mul_add, Nat.add_mul,
      Nat.add_mul, Nat.one_mul]
    omega

theorem shares_of_total (t : Nat) {ws : List Nat} (hs : 0 < total ws) :
    2 * total (ws.map fun w => nearest (w * t) (total ws)) ≤ 2 * t + ws.length ∧
      2 * t ≤ 2 * total (ws.map fun w => nearest (w * t) (total ws)) + ws.length := by
  obtain ⟨hhigh, hlow⟩ := shares_total t hs ws
  generalize total (ws.map fun w => nearest (w * t) (total ws)) = shares at *
  constructor
  · refine Nat.le_of_mul_le_mul_left (?_ : total ws * _ ≤ total ws * _) hs
    calc total ws * (2 * shares) = 2 * (total ws * shares) := Nat.mul_left_comm _ _ _
      _ ≤ 2 * (total ws * t) + ws.length * total ws := hhigh
      _ = total ws * (2 * t + ws.length) := by ring
  · refine Nat.le_of_mul_le_mul_left (?_ : total ws * _ ≤ total ws * _) hs
    calc total ws * (2 * t) = 2 * (total ws * t) := Nat.mul_left_comm _ _ _
      _ ≤ 2 * (total ws * shares) + ws.length * total ws := hlow
      _ = total ws * (2 * shares + ws.length) := by ring

theorem total_replicate (n w : Nat) : total (replicate n w) = n * w := by
  induction n with
  | zero => simp [total]
  | succ n ih => rw [replicate_succ, total_cons, ih, succ_mul, Nat.add_comm]

end Zapcc.RoundedDivision
