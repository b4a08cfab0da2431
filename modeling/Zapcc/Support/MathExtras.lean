import Mathlib.Data.Nat.Size
import Mathlib.Tactic.Ring

/-!
# Powers of two

The arithmetic of `unsigned`, and the functions of the support library that round to a power of
two.
-/

namespace Zapcc.MathExtras

open Nat

/-- The value of an `unsigned` expression. -/
def toUnsigned (n : Nat) : Nat := n % 2 ^ 32

/-- The value of a `uint64_t` expression. -/
def toUInt64 (n : Nat) : Nat := n % 2 ^ 64

/-- The difference of two values of type `unsigned`. -/
def subUnsigned (a b : Nat) : Nat := (a + 2 ^ 32 - b) % 2 ^ 32

/-- One step of spreading the bits of a number to the right. -/
def spread (A shift : Nat) : Nat := A ||| A >>> shift

/-- The power of two that is strictly greater than a number of 64 bits. -/
def nextPowerOf2 (A : Nat) : Nat :=
  (spread (spread (spread (spread (spread (spread A 1) 2) 4) 8) 16) 32 + 1) % 2 ^ 64

/-- The number of leading zeros of a value of 32 bits. -/
def countLeadingZeros (Value : Nat) : Nat := 32 - Value.size

/-- The logarithm of a value of 32 bits, rounded up. -/
def log2_32_Ceil (Value : Nat) : Nat := 32 - countLeadingZeros (subUnsigned Value 1)

/-- The next multiple of a number. -/
def alignTo (Value Align : Nat) : Nat := (Value + Align - 1) / Align * Align

theorem dvd_alignTo (Value Align : Nat) : Align ∣ alignTo Value Align := ⟨_, Nat.mul_comm _ _⟩

theorem le_alignTo {Align : Nat} (h : 0 < Align) (Value : Nat) : Value ≤ alignTo Value Align := by
  have hdiv := div_add_mod (Value + Align - 1) Align
  have hmod := mod_lt (Value + Align - 1) h
  unfold alignTo
  rw [Nat.mul_comm]
  omega

theorem toUnsigned_of_lt {n : Nat} (h : n < 2 ^ 32) : toUnsigned n = n := mod_eq_of_lt h

theorem toUnsigned_lt (n : Nat) : toUnsigned n < 2 ^ 32 := mod_lt _ (by decide)

theorem subUnsigned_of_le {a b : Nat} (h : b ≤ a) (ha : a < 2 ^ 32) : subUnsigned a b = a - b := by
  unfold subUnsigned
  omega

theorem toUnsigned_and_mask {m : Nat} (hm : m ≤ 32) (x : Nat) :
    toUnsigned x &&& (2 ^ m - 1) = x % 2 ^ m := by
  rw [and_two_pow_sub_one_eq_mod]
  exact mod_mod_of_dvd _ (Nat.pow_dvd_pow 2 hm)

/-- The bits of a number that `w` places to the right of a bit that is set. -/
def Spread (A w B : Nat) : Prop := ∀ i, B.testBit i = true ↔ ∃ j < w, A.testBit (i + j) = true

theorem Spread.step {A B w : Nat} (h : Spread A w B) : Spread A (2 * w) (spread B w) := by
  intro i
  unfold spread
  rw [testBit_or, testBit_shiftRight, Bool.or_eq_true, h, h]
  constructor
  · rintro (⟨j, hj, hbit⟩ | ⟨j, hj, hbit⟩)
    · exact ⟨j, by omega, hbit⟩
    · exact ⟨w + j, by omega, by rwa [show i + (w + j) = w + i + j by omega]⟩
  · rintro ⟨j, hj, hbit⟩
    by_cases hlt : j < w
    · exact .inl ⟨j, hlt, hbit⟩
    · exact .inr ⟨j - w, by omega, by rwa [show w + i + (j - w) = i + j by omega]⟩

theorem Spread.eq {A B : Nat} (h : Spread A 64 B) (hA : A < 2 ^ 64) : B = 2 ^ A.size - 1 := by
  have hsize : A.size ≤ 64 := size_le.mpr hA
  apply eq_of_testBit_eq
  intro i
  rw [testBit_two_pow_sub_one, Bool.eq_iff_iff, h i, decide_eq_true_eq]
  constructor
  · rintro ⟨j, _, hbit⟩
    refine lt_size.mpr (Nat.le_trans ?_ (ge_two_pow_of_testBit hbit))
    exact Nat.pow_le_pow_right (by decide) (Nat.le_add_right i j)
  · intro hi
    refine ⟨A.size - 1 - i, by omega, ?_⟩
    rw [show i + (A.size - 1 - i) = A.size - 1 by omega]
    have hle : 2 ^ (A.size - 1) ≤ A := lt_size.mp (by omega)
    have hlt : A < 2 ^ (A.size - 1 + 1) := by
      rw [show A.size - 1 + 1 = A.size by omega]
      exact lt_size_self A
    have hdiv : A / 2 ^ (A.size - 1) = 1 := by
      exact Nat.div_eq_of_lt_le (by omega) (by omega)
    rw [testBit_eq_decide_div_mod_eq, hdiv]
    rfl

theorem nextPowerOf2_eq {A : Nat} (hA : A < 2 ^ 63) : nextPowerOf2 A = 2 ^ A.size := by
  have h1 : Spread A 1 A := fun i =>
    ⟨fun h => ⟨0, by decide, h⟩, fun ⟨j, hj, h⟩ => by rwa [lt_one_iff.mp hj] at h⟩
  have h64 := h1.step.step.step.step.step.step
  have hsize : A.size ≤ 63 := size_le.mpr hA
  have hpow : 2 ^ A.size ≤ 2 ^ 63 := Nat.pow_le_pow_right (by decide) hsize
  have hpos := Nat.two_pow_pos A.size
  unfold nextPowerOf2
  rw [h64.eq (by omega), Nat.sub_add_cancel hpos, mod_eq_of_lt (by omega)]

theorem nextPowerOf2_two_pow_sub_one {m : Nat} (hm : m ≤ 63) :
    nextPowerOf2 (2 ^ m - 1) = 2 ^ m := by
  have hpos := Nat.two_pow_pos m
  have hle : 2 ^ m ≤ 2 ^ 63 := Nat.pow_le_pow_right (by decide) hm
  rw [nextPowerOf2_eq (by omega)]
  congr 1
  refine Nat.le_antisymm (size_le.mpr (by omega)) ?_
  cases m with
  | zero => exact Nat.zero_le _
  | succ m =>
    refine lt_size.mpr ?_
    omega

theorem log2_32_Ceil_eq {n : Nat} (hpos : 0 < n) (hn : n ≤ 2 ^ 31) :
    log2_32_Ceil n = (n - 1).size := by
  have hsub : subUnsigned n 1 = n - 1 := subUnsigned_of_le hpos (by omega)
  have hsize : (n - 1).size ≤ 32 := size_le.mpr (by omega)
  unfold log2_32_Ceil countLeadingZeros
  rw [hsub]
  omega

theorem le_two_pow_log2_32_Ceil {n : Nat} (hpos : 0 < n) (hn : n ≤ 2 ^ 31) :
    n ≤ 2 ^ log2_32_Ceil n := by
  rw [log2_32_Ceil_eq hpos hn]
  have := lt_size_self (n - 1)
  omega

theorem log2_32_Ceil_le {n m : Nat} (hpos : 0 < n) (hn : n ≤ 2 ^ m) (hm : m ≤ 31) :
    log2_32_Ceil n ≤ m := by
  have hle : 2 ^ m ≤ 2 ^ 31 := Nat.pow_le_pow_right (by decide) hm
  rw [log2_32_Ceil_eq hpos (Nat.le_trans hn hle)]
  exact size_le.mpr (by omega)

end Zapcc.MathExtras
