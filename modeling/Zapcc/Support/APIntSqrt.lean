import Zapcc.Library.SquareRoot
import Zapcc.Support.APIntDivision

/-!
# The square root

`sqrt` for values of at least 52 bits, beyond the table and the floating-point numbers.
`sqrt_isNearest_iff` says when the result is the integer nearest to the square root. There is no
result when an assertion fails.
-/

namespace Zapcc.APInt

open SquareRoot BitVec Option Nat

variable {w : Nat}

/-- The loop that selects a starting value. -/
def selectStart (x : BitVec w) : Nat → Nat → BitVec w → Option (BitVec w)
  | 0, _, _ => none
  | fuel + 1, i, testy =>
    if w ≤ i ∨ x ≤ testy then
      if w < i / 2 then none else some (1#w <<< (i / 2))
    else selectStart x fuel (i + 2) (testy <<< 2)

def babylonianLoop (x : BitVec w) : Nat → BitVec w → Option (BitVec w)
  | 0, _ => none
  | fuel + 1, x_old => do
      let quotient ← udiv x x_old
      let x_new ← udiv (quotient + x_old) 2#w
      if x_old ≤ x_new then some x_old else babylonianLoop x fuel x_new

/-- The closest approximation is the root or the next integer. -/
def closestRoot (x x_old : BitVec w) : Option (BitVec w) :=
  let square := x_old * x_old
  let nextSquare := (x_old + 1#w) * (x_old + 1#w)
  if x < square then some x_old
  else if nextSquare < x then none
  else do
    let midpoint ← udiv (nextSquare - square) 2#w
    let offset := x - square
    if offset < midpoint then some x_old else some (x_old + 1#w)

/-- `sqrt`, for values of at least 52 bits. The guesses get smaller. -/
def sqrt (x : BitVec w) : Option (BitVec w) := do
  let x_old ← selectStart x w 4 16#w
  let x_old ← babylonianLoop x x_old.toNat x_old
  closestRoot x x_old

/-- The integer nearest to the square root is returned, and no assertion fails. -/
def ReturnsNearestRoot (x : BitVec w) : Prop :=
  ∃ r, sqrt x = some r ∧ IsNearest x.toNat r.toNat

theorem toNat_two (hw : 1 < w) : (2#w).toNat = 2 := by
  exact mod_eq_of_lt (lt_of_lt_of_le (by decide) (Nat.pow_le_pow_right (by decide) hw))

theorem two_ne_zero (hw : 1 < w) : 2#w ≠ 0#w := by
  rw [ne_eq, ← toNat_inj, toNat_two hw, toNat_zero]
  decide

theorem selectStart_spec (hw : 1 < w) (x : BitVec w) {fuel j : Nat} {testy : BitVec w}
    (htesty : 2 * j < w → testy.toNat = 2 ^ (2 * j)) (hj : 2 * j ≤ w + 1)
    (hfuel : w + 2 ≤ 2 * j + 2 * fuel) :
    ∃ k, selectStart x fuel (2 * j) testy = some (1#w <<< k) ∧ x.toNat ≤ 2 ^ (2 * k) ∧
      2 * k ≤ w + 1 := by
  induction fuel generalizing j testy with
  | zero => omega
  | succ fuel ih =>
    have hlt := x.isLt
    rw [selectStart, Nat.mul_div_cancel_left j Nat.two_pos]
    split
    · next hstop =>
      refine ⟨j, if_neg (by omega), ?_, hj⟩
      rcases Nat.lt_or_ge (2 * j) w with hbelow | habove
      · rw [← htesty hbelow]
        exact hstop.resolve_left (by omega)
      · exact hlt.le.trans (Nat.pow_le_pow_right Nat.two_pos habove)
    · have hbelow : 2 * j < w := by omega
      rw [show 2 * j + 2 = 2 * (j + 1) by omega]
      refine ih (fun hnext => ?_) (by omega) (by omega)
      rw [toNat_shiftLeft, htesty hbelow, Nat.shiftLeft_eq, ← pow_add]
      exact mod_eq_of_lt (Nat.pow_lt_pow_right (by decide) hnext)

theorem div_le_of_sqrt_le {n g : Nat} (hroot : Nat.sqrt n ≤ g) : n / g ≤ g + 2 := by
  have hlt : n < (g + 1) * (g + 1) := sqrt_lt.mp (lt_succ_of_le hroot)
  refine Nat.div_le_of_le_mul ?_
  rw [Nat.add_mul, Nat.mul_add] at hlt
  rw [Nat.mul_add]
  omega

theorem babylonianLoop_spec (hw : 1 < w) (x : BitVec w) {fuel : Nat} {g : BitVec w}
    (hpos : 0 < g.toNat) (hroot : Nat.sqrt x.toNat ≤ g.toNat)
    (hfits : 2 * g.toNat + 2 < 2 ^ w) (hx : 0 < x.toNat) (hfuel : g.toNat ≤ fuel) :
    ∃ r, babylonianLoop x fuel g = some r ∧ r.toNat = Nat.sqrt x.toNat := by
  induction fuel generalizing g with
  | zero => omega
  | succ fuel ih =>
    have hg : g ≠ 0#w := by
      rw [ne_eq, ← toNat_inj, toNat_zero]
      omega
    have hnew : ((x / g + g) / 2#w).toNat = newton x.toNat g.toNat := by
      have hquot := div_le_of_sqrt_le hroot
      rw [toNat_udiv, toNat_two hw, toNat_add, toNat_udiv, mod_eq_of_lt (by omega), newton]
    have hstep := sqrt_le_newton (n := x.toNat) hpos
    rw [babylonianLoop, udiv_eq x hg]
    simp only [udiv_eq _ (two_ne_zero hw), bind_eq_bind, bind_some]
    split
    · next hstop =>
      rw [le_def, hnew] at hstop
      exact ⟨g, rfl, eq_sqrt_of_le_newton hroot hpos hstop⟩
    · next hless =>
      rw [le_def, hnew] at hless
      have hpositive : 0 < Nat.sqrt x.toNat := sqrt_pos.mpr hx
      exact ih (by omega) (by omega) (by omega) (by omega)

theorem toNat_add_one (hw : 0 < w) {x : BitVec w} (h : x.toNat + 1 < 2 ^ w) :
    (x + 1#w).toNat = x.toNat + 1 := by
  rw [toNat_add, WrapAround.toNat_one hw, mod_eq_of_lt h]

theorem closestRoot_spec (hw : 1 < w) {x x_old : BitVec w} (hroot : x_old.toNat = Nat.sqrt x.toNat)
    (hnext : (Nat.sqrt x.toNat + 1) * (Nat.sqrt x.toNat + 1) < 2 ^ w) :
    ∃ r, closestRoot x x_old = some r ∧
      r.toNat = if x.toNat - Nat.sqrt x.toNat * Nat.sqrt x.toNat < Nat.sqrt x.toNat
        then Nat.sqrt x.toNat else Nat.sqrt x.toNat + 1 := by
  have hle := sqrt_le x.toNat
  have hlt : x.toNat < (Nat.sqrt x.toNat + 1) * (Nat.sqrt x.toNat + 1) :=
    lt_succ_sqrt x.toNat
  generalize hs : Nat.sqrt x.toNat = s at *
  have hexpand : (s + 1) * (s + 1) = s * s + 2 * s + 1 := by ring
  have hsucc : (x_old + 1#w).toNat = s + 1 := by
    rw [toNat_add_one (by omega) (by rw [hroot]; omega), hroot]
  have hsquare : (x_old * x_old).toNat = s * s := by
    rw [toNat_mul, hroot, mod_eq_of_lt (by omega)]
  have hnextSquare : ((x_old + 1#w) * (x_old + 1#w)).toNat = (s + 1) * (s + 1) := by
    rw [toNat_mul, hsucc, mod_eq_of_lt hnext]
  have hmidpoint : (((x_old + 1#w) * (x_old + 1#w) - x_old * x_old) / 2#w).toNat = s := by
    rw [toNat_udiv, toNat_two hw, toNat_sub_of_le (by rw [le_def]; omega), hsquare, hnextSquare]
    omega
  have hoffset : (x - x_old * x_old).toNat = x.toNat - s * s := by
    rw [toNat_sub_of_le (by rw [le_def]; omega), hsquare]
  unfold closestRoot
  rw [if_neg (by rw [lt_def]; omega), if_neg (by rw [lt_def]; omega), udiv_eq _ (two_ne_zero hw)]
  simp only [bind_eq_bind, bind_some, lt_def, hmidpoint, hoffset]
  split
  · exact ⟨x_old, rfl, hroot⟩
  · exact ⟨x_old + 1#w, rfl, hsucc⟩

theorem closestRoot_eq_none (hw : 1 < w) {x x_old : BitVec w}
    (hroot : x_old.toNat = Nat.sqrt x.toNat) (hlarge : 3 ≤ Nat.sqrt x.toNat)
    (hnext : 2 ^ w ≤ (Nat.sqrt x.toNat + 1) * (Nat.sqrt x.toNat + 1)) :
    closestRoot x x_old = none := by
  have hle := sqrt_le x.toNat
  generalize hs : Nat.sqrt x.toNat = s at *
  have hexpand : (s + 1) * (s + 1) = s * s + 2 * s + 1 := by ring
  have hfar : 2 * s + 1 ≤ s * s := by nlinarith
  have hsucc : (x_old + 1#w).toNat = s + 1 := by
    rw [toNat_add_one (by omega) (by rw [hroot]; omega), hroot]
  have hsquare : (x_old * x_old).toNat = s * s := by
    rw [toNat_mul, hroot, mod_eq_of_lt (by omega)]
  have hnextSquare : ((x_old + 1#w) * (x_old + 1#w)).toNat = (s + 1) * (s + 1) - 2 ^ w := by
    rw [toNat_mul, hsucc, mod_eq_sub_mod hnext, mod_eq_of_lt (by omega)]
  unfold closestRoot
  rw [if_neg (by rw [lt_def]; omega), if_pos (by rw [lt_def]; omega)]

theorem large_of_activeBits {x : BitVec w} (hx : 52 ≤ getActiveBits x) :
    52 ≤ w ∧ 2 ^ 51 ≤ x.toNat := by
  refine ⟨hx.trans (getActiveBits_le.mpr x.isLt), ?_⟩
  by_contra hsmall
  have hfew := getActiveBits_le.mpr (not_le.mp hsmall)
  omega

theorem sqrt_eq (x : BitVec w) (hx : 52 ≤ getActiveBits x) :
    ∃ root : BitVec w, sqrt x = closestRoot x root ∧ root.toNat = Nat.sqrt x.toNat := by
  obtain ⟨hw, hlarge⟩ := large_of_activeBits hx
  have hsixteen : (16#w).toNat = 2 ^ (2 * 2) := by
    exact mod_eq_of_lt (lt_of_lt_of_le (by decide) (Nat.pow_le_pow_right (by decide) hw))
  obtain ⟨k, hstart, hbound, hk⟩ := @selectStart_spec w (by omega) x w 2 16#w
    (fun _ => hsixteen) (by omega) (by omega)
  have hpow : 2 ^ (k + 2) ≤ 2 ^ w := Nat.pow_le_pow_right Nat.two_pos (by omega)
  rw [pow_add] at hpow
  have hguess : (1#w <<< k).toNat = 2 ^ k := by
    rw [toNat_shiftLeft, WrapAround.toNat_one (by omega), one_shiftLeft, mod_eq_of_lt (by omega)]
  have hroot : Nat.sqrt x.toNat ≤ (1#w <<< k).toNat := by
    rw [hguess, ← Nat.lt_succ_iff, sqrt_lt]
    rw [Nat.mul_comm 2 k, pow_mul, pow_two] at hbound
    exact hbound.trans_lt (Nat.mul_self_lt_mul_self (lt_succ_self _))
  obtain ⟨root, hloop, hvalue⟩ := babylonianLoop_spec (by omega) x
    (hguess ▸ Nat.two_pow_pos k) hroot (by rw [hguess]; omega) (by omega) le_rfl
  refine ⟨root, ?_, hvalue⟩
  unfold sqrt
  rw [hstart]
  simp only [bind_eq_bind, bind_some, hloop]

/-- The value is not the product of two consecutive integers, and there is a square above it that
does not wrap around. -/
def RoundsExactly (x : BitVec w) : Prop :=
  (∀ k, x.toNat ≠ k * (k + 1)) ∧ ∃ k, x.toNat < k * k ∧ k * k < 2 ^ w

theorem ne_mul_succ_iff {n : Nat} :
    (∀ k, n ≠ k * (k + 1)) ↔ n ≠ Nat.sqrt n * Nat.sqrt n + Nat.sqrt n := by
  refine ⟨fun h => by rw [← Nat.mul_succ]; exact h _, fun h k hk => h ?_⟩
  have hroot : Nat.sqrt n = k := by
    rw [hk, Nat.mul_succ]
    exact sqrt_add_eq k (Nat.le_add_right k k)
  rw [hroot, hk, Nat.mul_succ]

theorem exists_square_iff {n bound : Nat} :
    (∃ k, n < k * k ∧ k * k < bound) ↔ (Nat.sqrt n + 1) * (Nat.sqrt n + 1) < bound := by
  constructor
  · rintro ⟨k, hk, hbound⟩
    have hle : Nat.sqrt n + 1 ≤ k := sqrt_lt.mpr hk
    exact (Nat.mul_self_le_mul_self hle).trans_lt hbound
  · exact fun h => ⟨_, lt_succ_sqrt n, h⟩

/-- The square root is rounded to the nearest integer without a failed assertion, unless the value
is the product of two consecutive integers or there is no square above it. -/
theorem sqrt_isNearest_iff (x : BitVec w) (hx : 52 ≤ getActiveBits x) :
    ReturnsNearestRoot x ↔ RoundsExactly x := by
  obtain ⟨hw, hlarge⟩ := large_of_activeBits hx
  obtain ⟨root, hsqrt, hvalue⟩ := sqrt_eq x hx
  unfold ReturnsNearestRoot RoundsExactly
  rw [ne_mul_succ_iff, exists_square_iff, hsqrt]
  by_cases hnext : (Nat.sqrt x.toNat + 1) * (Nat.sqrt x.toNat + 1) < 2 ^ w
  · obtain ⟨r, hr, hrounded⟩ := closestRoot_spec (by omega) hvalue hnext
    have hle := sqrt_le x.toNat
    rw [and_iff_left hnext, hr]
    have hiff : IsNearest x.toNat r.toNat ↔
        x.toNat ≠ Nat.sqrt x.toNat * Nat.sqrt x.toNat + Nat.sqrt x.toNat := by
      rw [hrounded]
      split
      · rw [isNearest_sqrt_iff]
        omega
      · rw [isNearest_sqrt_succ_iff]
        omega
    rw [← hiff]
    constructor
    · rintro ⟨_, ⟨⟩, hnear⟩
      exact hnear
    · exact fun hnear => ⟨r, rfl, hnear⟩
  · have hroot : 3 ≤ Nat.sqrt x.toNat := le_sqrt.mpr (by omega)
    rw [closestRoot_eq_none (by omega) hvalue hroot (not_lt.mp hnext)]
    constructor
    · rintro ⟨_, ⟨⟩, _⟩
    · exact fun h => absurd h.2 hnext

/-- A value of 54 bits. -/
theorem sqrt_isNearest_iff_large :
    ReturnsNearestRoot (BitVec.ofNat 64 (2 ^ 53)) ↔ RoundsExactly (BitVec.ofNat 64 (2 ^ 53)) :=
  sqrt_isNearest_iff _ (not_le.mp fun h => absurd (getActiveBits_le.mp h) (by decide))

/-- The product of 2^26 and the next integer is rounded up. -/
theorem sqrt_half_way : ¬ReturnsNearestRoot (BitVec.ofNat 64 (2 ^ 26 * 2 ^ 26 + 2 ^ 26)) := by
  rintro ⟨r, hr, hnear⟩
  have hroot : Nat.sqrt (2 ^ 26 * 2 ^ 26 + 2 ^ 26) = 2 ^ 26 := sqrt_add_eq _ (by decide)
  have hiff := @isNearest_sqrt_succ_iff (2 ^ 26 * 2 ^ 26 + 2 ^ 26)
  cases hr
  rw [hroot] at hiff
  exact absurd (hiff.mp hnear) (by decide)

end Zapcc.APInt
