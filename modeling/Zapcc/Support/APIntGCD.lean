import Zapcc.Library.OddParts
import Zapcc.Support.APIntValue

/-!
# The greatest common divisor

`GreatestCommonDivisor` keeps both operands odd multiples of one power of two, takes the smaller
from the larger and shifts the difference down to that power. There is no result when a shift
amount is out of range.
-/

namespace Zapcc.APInt

open OddParts BitVec Nat List

variable {w : Nat}

/-- The number of zeros below the lowest one, or the width. -/
def countTrailingZeros (x : BitVec w) : Nat := (List.range w).findIdx (fun i => x.getLsbD i)

/-- `lshrInPlace` by the trailing zeros above some power. A negative amount is out of range. -/
def lshrToPower (x : BitVec w) (Pow2 : Nat) : Option (BitVec w) :=
  if countTrailingZeros x < Pow2 ∨ w < countTrailingZeros x - Pow2 then none
  else some (x >>> (countTrailingZeros x - Pow2))

def gcdLoop (Pow2 : Nat) : Nat → BitVec w → BitVec w → Option (BitVec w)
  | 0, _, _ => none
  | fuel + 1, A, B =>
    if A = B then some A
    else if B < A then do
      let A ← lshrToPower (A - B) Pow2
      gcdLoop Pow2 fuel A B
    else do
      let B ← lshrToPower (B - A) Pow2
      gcdLoop Pow2 fuel A B

/-- `APIntOps::GreatestCommonDivisor`. The operands get smaller in each step of the loop. -/
def GreatestCommonDivisor (A B : BitVec w) : Option (BitVec w) :=
  if A = B then some A
  else if A = 0#w then some B
  else if B = 0#w then some A
  else
    let Pow2_A := countTrailingZeros A
    let Pow2_B := countTrailingZeros B
    let fuel := A.toNat + B.toNat
    if Pow2_B < Pow2_A then do
      let A ← lshrToPower A Pow2_B
      gcdLoop Pow2_B fuel A B
    else if Pow2_A < Pow2_B then do
      let B ← lshrToPower B Pow2_A
      gcdLoop Pow2_A fuel A B
    else gcdLoop Pow2_A fuel A B

theorem getLsbD_of_lt_countTrailingZeros {x : BitVec w} {i : Nat} (hi : i < countTrailingZeros x) :
    x.getLsbD i = false := by
  have hbit := not_of_lt_findIdx hi
  rwa [getElem_range] at hbit

theorem countTrailingZeros_lt {x : BitVec w} (hx : x ≠ 0#w) : countTrailingZeros x < w := by
  by_contra hge
  refine hx (eq_of_getLsbD_eq fun i hi => ?_)
  rw [getLsbD_of_lt_countTrailingZeros (by omega), getLsbD_zero]

theorem oddMultiple_countTrailingZeros {x : BitVec w} (hx : x ≠ 0#w) :
    OddMultiple (countTrailingZeros x) x.toNat := by
  have hlt := countTrailingZeros_lt hx
  have hone : x.getLsbD (countTrailingZeros x) = true := by
    have hbit := @findIdx_getElem _ (fun i => x.getLsbD i) (List.range w)
      (by rw [length_range]; exact hlt)
    rwa [getElem_range] at hbit
  have hmod : x.toNat % 2 ^ countTrailingZeros x = 0 := by
    refine eq_of_testBit_eq fun i => ?_
    rw [testBit_mod_two_pow, zero_testBit, testBit_toNat]
    by_cases hi : i < countTrailingZeros x
    · rw [getLsbD_of_lt_countTrailingZeros hi, Bool.and_false]
    · rw [decide_eq_false hi, Bool.false_and]
  rw [← testBit_toNat, testBit_eq_decide_div_mod_eq, decide_eq_true_eq] at hone
  refine ⟨x.toNat / 2 ^ countTrailingZeros x / 2, ?_⟩
  have hdiv := div_add_mod (x.toNat / 2 ^ countTrailingZeros x) 2
  rw [hone] at hdiv
  rw [hdiv, Nat.mul_div_cancel' (dvd_of_mod_eq_zero hmod)]

theorem lshrToPower_spec {x : BitVec w} (hx : x ≠ 0#w) {Pow2 : Nat}
    (h : Pow2 ≤ countTrailingZeros x) :
    ∃ y, lshrToPower x Pow2 = some y ∧ y.toNat = x.toNat / 2 ^ (countTrailingZeros x - Pow2) := by
  have hlt := countTrailingZeros_lt hx
  refine ⟨x >>> (countTrailingZeros x - Pow2), if_neg (by omega), ?_⟩
  rw [toNat_ushiftRight, shiftRight_eq_div_pow]

theorem gcd_step {x y : BitVec w} {Pow2 : Nat} (hx : OddMultiple Pow2 x.toNat)
    (hy : OddMultiple Pow2 y.toNat) (hlt : y < x) :
    ∃ z, lshrToPower (x - y) Pow2 = some z ∧ OddMultiple Pow2 z.toNat ∧
      z.toNat < x.toNat ∧ Nat.gcd z.toNat y.toNat = Nat.gcd x.toNat y.toNat := by
  have hsub : (x - y).toNat = x.toNat - y.toNat := toNat_sub_of_le (BitVec.le_of_lt hlt)
  have hne : x - y ≠ 0#w := by
    rw [ne_eq, ← toNat_inj, hsub, toNat_zero]
    exact sub_ne_zero_of_lt hlt
  have hodd := oddMultiple_countTrailingZeros hne
  have hpower : Pow2 < countTrailingZeros (x - y) := hx.lt_of_sub hy (hsub ▸ hodd)
  obtain ⟨z, hz, hvalue⟩ := lshrToPower_spec hne hpower.le
  refine ⟨z, hz, hvalue ▸ hodd.div hpower.le, ?_, ?_⟩
  · have hle := Nat.div_le_self (x - y).toNat (2 ^ (countTrailingZeros (x - y) - Pow2))
    have hpos := hy.pos
    have hxpos := hx.pos
    omega
  · rw [hvalue, hsub]
    exact gcd_sub_div hx hy (BitVec.lt_def.mp hlt) (hsub ▸ hodd)

theorem gcdLoop_spec {Pow2 fuel : Nat} {A B : BitVec w} (hA : OddMultiple Pow2 A.toNat)
    (hB : OddMultiple Pow2 B.toNat) (hfuel : A.toNat + B.toNat ≤ fuel) :
    ∃ g, gcdLoop Pow2 fuel A B = some g ∧ g.toNat = Nat.gcd A.toNat B.toNat := by
  induction fuel generalizing A B with
  | zero =>
    have hpos := hA.pos
    omega
  | succ fuel ih =>
    rw [gcdLoop]
    split
    · next heq => exact ⟨A, rfl, by rw [← heq, gcd_self]⟩
    · next hne =>
      split
      · next hlt =>
        obtain ⟨A', hA', hodd, hless, hgcd⟩ := gcd_step hA hB hlt
        obtain ⟨g, hg, hvalue⟩ := ih hodd hB (by omega)
        refine ⟨g, ?_, hvalue.trans hgcd⟩
        rw [hA']
        exact hg
      · next hge =>
        have hlt : A < B := by
          rw [← toNat_inj] at hne
          rw [lt_def] at hge ⊢
          omega
        obtain ⟨B', hB', hodd, hless, hgcd⟩ := gcd_step hB hA hlt
        obtain ⟨g, hg, hvalue⟩ := ih hA hodd (by omega)
        refine ⟨g, ?_, ?_⟩
        · rw [hB']
          exact hg
        · rw [hvalue, Nat.gcd_comm, hgcd, Nat.gcd_comm]

theorem lshrToPower_gcd {x y : BitVec w} (hx : x ≠ 0#w) (hy : y ≠ 0#w)
    (h : countTrailingZeros y < countTrailingZeros x) :
    ∃ z, lshrToPower x (countTrailingZeros y) = some z ∧
      OddMultiple (countTrailingZeros y) z.toNat ∧ z.toNat ≤ x.toNat ∧
      Nat.gcd z.toNat y.toNat = Nat.gcd x.toNat y.toNat := by
  have hodd := oddMultiple_countTrailingZeros hx
  obtain ⟨z, hz, hvalue⟩ := lshrToPower_spec hx h.le
  refine ⟨z, hz, hvalue ▸ hodd.div h.le, hvalue ▸ Nat.div_le_self _ _, ?_⟩
  rw [hvalue]
  exact gcd_div_left hodd (oddMultiple_countTrailingZeros hy) h.le

/-- `GreatestCommonDivisor` returns the greatest common divisor, for all operands. -/
theorem GreatestCommonDivisor_spec (A B : BitVec w) :
    ∃ g, GreatestCommonDivisor A B = some g ∧ g.toNat = Nat.gcd A.toNat B.toNat := by
  unfold GreatestCommonDivisor
  split
  · next heq => exact ⟨A, rfl, by rw [← heq, gcd_self]⟩
  · split
    · next hzero => exact ⟨B, rfl, by rw [hzero, toNat_zero, Nat.gcd_zero_left]⟩
    · next hA =>
      split
      · next hzero => exact ⟨A, rfl, by rw [hzero, toNat_zero, Nat.gcd_zero_right]⟩
      · next hB =>
        have hAodd := oddMultiple_countTrailingZeros hA
        have hBodd := oddMultiple_countTrailingZeros hB
        dsimp only
        split
        · next hlt =>
          obtain ⟨A', hA', hodd, hle, hgcd⟩ := lshrToPower_gcd hA hB hlt
          obtain ⟨g, hg, hvalue⟩ := gcdLoop_spec hodd hBodd
            (Nat.add_le_add_right hle B.toNat)
          refine ⟨g, ?_, hvalue.trans hgcd⟩
          rw [hA']
          exact hg
        · split
          · next hlt =>
            obtain ⟨B', hB', hodd, hle, hgcd⟩ := lshrToPower_gcd hB hA hlt
            obtain ⟨g, hg, hvalue⟩ := gcdLoop_spec hAodd hodd
              (Nat.add_le_add_left hle A.toNat)
            refine ⟨g, ?_, ?_⟩
            · rw [hB']
              exact hg
            · rw [hvalue, Nat.gcd_comm, hgcd, Nat.gcd_comm]
          · have heq : countTrailingZeros B = countTrailingZeros A := by omega
            exact gcdLoop_spec hAodd (heq ▸ hBodd) le_rfl

example : GreatestCommonDivisor 12#8 18#8 = some 6#8 := by decide

end Zapcc.APInt
