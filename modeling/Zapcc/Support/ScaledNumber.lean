import Zapcc.Library.ScaledRounding
import Zapcc.Support.MathExtras
import Mathlib.Data.Nat.Bitwise

/-!
# Scaled numbers

Products, quotients, sums and the order of numbers with digits and a scale. The main result is
`arithmetic_rounded`: products and quotients are rounded to the nearest, sums are rounded down, and
the order is that of the exact values.
-/

namespace Zapcc.ScaledNumbers

open ScaledRounding Option Int
open MathExtras (toUInt64)

inductive DigitsT where
  | uint32_t
  | uint64_t

def getWidth : DigitsT → Nat
  | .uint32_t => 32
  | .uint64_t => 64

/-- The value of an `int16_t` expression. -/
def toInt16 (n : Int) : Int := Int.bmod n (2 ^ 16)

/-- The number of leading zeros of a value of some width. -/
def countLeadingZeros (w Value : Nat) : Nat := w - Value.size

/-- The number of trailing zeros of a value that is not zero. -/
def countTrailingZeros (Value : Nat) : Nat := (List.range 64).findIdx Value.testBit

/-- Whether the bit below the lowest one that is kept is set. -/
def nextBit (Digits Shift : Nat) : Bool := Digits &&& 1 <<< (Shift - 1) ≠ 0

def getRounded (T : DigitsT) (Digits : Nat) (Scale : Int) (ShouldRound : Bool) : Nat × Int :=
  if ShouldRound then
    let Digits := (Digits + 1) % 2 ^ getWidth T
    if Digits = 0 then (1 <<< (getWidth T - 1), toInt16 (Scale + 1)) else (Digits, Scale)
  else (Digits, Scale)

def getAdjusted (T : DigitsT) (Digits : Nat) (Scale : Int) : Nat × Int :=
  let Width := getWidth T
  if Width = 64 ∨ Digits ≤ 2 ^ Width - 1 then (Digits, Scale)
  else
    let Shift := 64 - Width - countLeadingZeros 64 Digits
    getRounded T (Digits >>> Shift % 2 ^ Width) (toInt16 (Scale + Shift)) (nextBit Digits Shift)

/-! ## Products -/

/-- The step of the sum of the cross products. -/
def addWithCarry (Sum : Nat × Nat) (N : Nat) : Nat × Nat :=
  let (Upper, Lower) := Sum
  let NewLower := toUInt64 (Lower + toUInt64 ((N % 2 ^ 32) <<< 32))
  (toUInt64 (Upper + toUInt64 (N >>> 32 + if NewLower < Lower then 1 else 0)), NewLower)

/-- The two digits of 64 bits of a product. -/
def crossProducts (LHS RHS : Nat) : Nat × Nat :=
  let UL := LHS >>> 32
  let LL := LHS % 2 ^ 32
  let UR := RHS >>> 32
  let LR := RHS % 2 ^ 32
  let P1 := toUInt64 (UL * UR)
  let P2 := toUInt64 (UL * LR)
  let P3 := toUInt64 (LL * UR)
  let P4 := toUInt64 (LL * LR)
  addWithCarry (addWithCarry (P1, P4) P2) P3

def multiply64 (LHS RHS : Nat) : Nat × Int :=
  let (Upper, Lower) := crossProducts LHS RHS
  if Upper = 0 then (Lower, 0)
  else
    let LeadingZeros := countLeadingZeros 64 Upper
    let Shift := 64 - LeadingZeros
    let Upper :=
      if LeadingZeros ≠ 0 then toUInt64 (Upper <<< LeadingZeros) ||| Lower >>> Shift else Upper
    getRounded .uint64_t Upper (toInt16 Shift) (Shift ≠ 0 && nextBit Lower Shift)

def getProduct (T : DigitsT) (LHS RHS : Nat) : Nat × Int :=
  if getWidth T ≤ 32 ∨ LHS ≤ 2 ^ 32 - 1 ∧ RHS ≤ 2 ^ 32 - 1 then
    getAdjusted T (toUInt64 (LHS * RHS)) 0
  else multiply64 LHS RHS

/-! ## Quotients -/

def getHalf (N : Nat) : Nat := toUInt64 (N >>> 1 + N % 2)

def divide32 (Dividend Divisor : Nat) : Option (Nat × Int) :=
  if Dividend = 0 ∨ Divisor = 0 then none
  else
    let Zeros := countLeadingZeros 64 Dividend
    let Shift : Int := -Zeros
    let Dividend64 := toUInt64 (Dividend <<< Zeros)
    let Quotient := Dividend64 / Divisor
    let Remainder := Dividend64 % Divisor
    some (if 2 ^ 32 - 1 < Quotient then getAdjusted .uint32_t Quotient (toInt16 Shift)
      else getRounded .uint32_t Quotient (toInt16 Shift) (getHalf Divisor ≤ Remainder))

def divideLoop (Divisor : Nat) : Nat → Nat → Nat → Int → Option (Nat × Nat × Int)
  | 0, _, _, _ => none
  | fuel + 1, Dividend, Quotient, Shift =>
    if Quotient >>> 63 = 0 ∧ Dividend ≠ 0 then
      let IsOverflow := Dividend >>> 63 ≠ 0
      let Dividend := toUInt64 (Dividend <<< 1)
      let Shift := Shift - 1
      let Quotient := toUInt64 (Quotient <<< 1)
      if IsOverflow ∨ Divisor ≤ Dividend then
        divideLoop Divisor fuel (toUInt64 (2 ^ 64 + Dividend - Divisor)) (Quotient ||| 1) Shift
      else divideLoop Divisor fuel Dividend Quotient Shift
    else some (Dividend, Quotient, Shift)

def divide64 (Dividend Divisor : Nat) : Option (Nat × Int) :=
  if Dividend = 0 ∨ Divisor = 0 then none
  else
    let Zeros := countTrailingZeros Divisor
    let Shift : Int := -Zeros
    let Divisor := Divisor >>> Zeros
    if Divisor = 1 then some (Dividend, toInt16 Shift)
    else
      let Zeros := countLeadingZeros 64 Dividend
      let Shift := Shift - Zeros
      let Dividend := toUInt64 (Dividend <<< Zeros)
      (divideLoop Divisor 65 (Dividend % Divisor) (Dividend / Divisor) Shift).map fun r =>
        getRounded .uint64_t r.2.1 (toInt16 r.2.2) (getHalf Divisor ≤ r.1)

def MaxScale : Int := 16383

def getQuotient (T : DigitsT) (Dividend Divisor : Nat) : Option (Nat × Int) :=
  if Dividend = 0 then some (0, 0)
  else if Divisor = 0 then some (2 ^ getWidth T - 1, MaxScale)
  else if getWidth T = 64 then divide64 Dividend Divisor
  else divide32 Dividend Divisor

/-! ## Comparison -/

/-- The rounded logarithm, and how it was rounded. -/
def getLgImpl (T : DigitsT) (Digits : Nat) (Scale : Int) : Option (Int × Int) :=
  if Digits = 0 then some (-2 ^ 31, 0)
  else
    let LocalFloor := getWidth T - countLeadingZeros (getWidth T) Digits - 1
    let Floor := Scale + LocalFloor
    if Digits = 1 <<< LocalFloor then some (Floor, 0)
    else if 1 ≤ LocalFloor then
      let Round := nextBit Digits LocalFloor
      some (Floor + if Round then 1 else 0, if Round then 1 else -1)
    else none

def getLgFloor (T : DigitsT) (Digits : Nat) (Scale : Int) : Option Int :=
  (getLgImpl T Digits Scale).map fun Lg => Lg.1 - if 0 < Lg.2 then 1 else 0

def compareImpl (L R : Nat) (ScaleDiff : Int) : Option Int :=
  if 0 ≤ ScaleDiff ∧ ScaleDiff < 64 then
    let L_adjusted := L >>> ScaleDiff.toNat
    some (if L_adjusted < R then -1 else if R < L_adjusted then 1
      else if toUInt64 (L_adjusted <<< ScaleDiff.toNat) < L then 1 else 0)
  else none

def compare (T : DigitsT) (LDigits : Nat) (LScale : Int) (RDigits : Nat) (RScale : Int) :
    Option Int :=
  if LDigits = 0 then some (if RDigits ≠ 0 then -1 else 0)
  else if RDigits = 0 then some 1
  else
    (getLgFloor T LDigits LScale).bind fun lgL =>
      (getLgFloor T RDigits RScale).bind fun lgR =>
        if lgL ≠ lgR then some (if lgL < lgR then -1 else 1)
        else if LScale < RScale then compareImpl LDigits RDigits (RScale - LScale)
        else (compareImpl RDigits LDigits (LScale - RScale)).map fun r => -r

/-! ## Sums -/

/-- The digits and scales after matching, and the matching scale. -/
structure Matched where
  LDigits : Nat
  LScale : Int
  RDigits : Nat
  RScale : Int
  Scale : Int

/-- `matchScales`, if the left scale is not the smaller one. -/
def matchLower (T : DigitsT) (LDigits : Nat) (LScale : Int) (RDigits : Nat) (RScale : Int) :
    Option Matched :=
  if LDigits = 0 then some ⟨LDigits, LScale, RDigits, RScale, RScale⟩
  else if RDigits = 0 ∨ LScale = RScale then some ⟨LDigits, LScale, RDigits, RScale, LScale⟩
  else
    let ScaleDiff := LScale - RScale
    if 2 * getWidth T ≤ ScaleDiff then some ⟨LDigits, LScale, 0, RScale, LScale⟩
    else
      let ShiftL : Int := min (countLeadingZeros (getWidth T) LDigits : Int) ScaleDiff
      if ShiftL < getWidth T then
        let ShiftR := ScaleDiff - ShiftL
        if getWidth T ≤ ShiftR then some ⟨LDigits, LScale, 0, RScale, LScale⟩
        else
          let LDigits := LDigits <<< ShiftL.toNat % 2 ^ getWidth T
          let RDigits := RDigits >>> ShiftR.toNat
          let LScale := toInt16 (LScale - ShiftL)
          let RScale := toInt16 (RScale + ShiftR)
          if LScale = RScale then some ⟨LDigits, LScale, RDigits, RScale, LScale⟩ else none
      else none

def matchScales (T : DigitsT) (LDigits : Nat) (LScale : Int) (RDigits : Nat) (RScale : Int) :
    Option Matched :=
  if LScale < RScale then
    (matchLower T RDigits RScale LDigits LScale).map fun m =>
      ⟨m.RDigits, m.RScale, m.LDigits, m.LScale, m.Scale⟩
  else matchLower T LDigits LScale RDigits RScale

def getSum (T : DigitsT) (LDigits : Nat) (LScale : Int) (RDigits : Nat) (RScale : Int) :
    Option (Nat × Int) :=
  if LScale < 2 ^ 15 - 1 ∧ RScale < 2 ^ 15 - 1 then
    (matchScales T LDigits LScale RDigits RScale).map fun m =>
      let Sum := (m.LDigits + m.RDigits) % 2 ^ getWidth T
      if m.RDigits ≤ Sum then (Sum, m.Scale)
      else (1 <<< (getWidth T - 1) ||| Sum >>> 1, toInt16 (m.Scale + 1))
  else none

/-! ## Rounding -/

theorem getWidth_cases (T : DigitsT) : getWidth T = 32 ∨ getWidth T = 64 := by
  cases T with
  | uint32_t => exact .inl rfl
  | uint64_t => exact .inr rfl

theorem toInt16_eq {n : Int} (hlow : -2 ^ 15 ≤ n) (hhigh : n < 2 ^ 15) : toInt16 n = n := by
  unfold toInt16
  rw [bmod_def]
  split_ifs
  · omega
  · omega

theorem getRounded_eq (T : DigitsT) {Digits : Nat} {Scale : Int} (hlow : -2 ^ 15 ≤ Scale)
    (hhigh : Scale < 2 ^ 15 - 1) (hDigits : Digits < 2 ^ getWidth T) (up : Bool) :
    getRounded T Digits Scale up = roundUp (getWidth T) Digits Scale up := by
  cases up with
  | false => rfl
  | true =>
    unfold getRounded roundUp
    rw [if_pos rfl, if_pos rfl, toInt16_eq (by omega) (by omega), Nat.one_shiftLeft]
    by_cases hcarry : Digits + 1 = 2 ^ getWidth T
    · rw [if_pos hcarry, hcarry, Nat.mod_self, if_pos rfl]
    · rw [if_neg hcarry, Nat.mod_eq_of_lt (by omega), if_neg (Nat.succ_ne_zero _)]

theorem nextBit_iff (Digits : Nat) {Shift : Nat} (h : 0 < Shift) :
    nextBit Digits Shift = true ↔ 2 ^ Shift ≤ 2 * (Digits % 2 ^ Shift) := by
  obtain ⟨k, rfl⟩ : ∃ k, Shift = k + 1 := ⟨Shift - 1, by omega⟩
  have hbit : nextBit Digits (k + 1) = Digits.testBit k := by
    unfold nextBit
    rw [Nat.add_sub_cancel, Nat.one_shiftLeft, Nat.and_two_pow]
    cases Digits.testBit k with
    | false | true => simp
  have hmod : Digits % 2 ^ (k + 1) = Digits % 2 ^ k + 2 ^ k * (Digits / 2 ^ k % 2) := by
    rw [pow_succ, Nat.mod_mul]
  rw [hbit, Nat.testBit_eq_decide_div_mod_eq, decide_eq_true_iff, hmod, pow_succ]
  rcases Nat.mod_two_eq_zero_or_one (Digits / 2 ^ k) with hzero | hone
  · rw [hzero]
    omega
  · rw [hone]
    omega

variable {w : Nat} {x : ℚ} {S : Int}

theorem truncates_shift {N Shift r b : Nat} (hx : x / 2 ^ S = N + (r : ℚ) / b) (hr : r < b)
    (hShift : 0 < Shift) (hhigh : N >>> Shift < 2 ^ w) (hfull : 2 ^ (w - 1) ≤ N >>> Shift) :
    Truncates w x (N >>> Shift) (S + Shift) (nextBit N Shift) := by
  have hb : 0 < b := Nat.zero_lt_of_lt hr
  have hdiv := Nat.div_add_mod N (2 ^ Shift)
  have hmod := Nat.mod_lt N (Nat.two_pow_pos Shift)
  rw [Nat.shiftRight_eq_div_pow] at *
  refine @truncates_div w _ x _ _ (2 ^ Shift * b) (N % 2 ^ Shift * b + r) hhigh ?_ ?_ ?_
    (.inl hfull)
  · calc N % 2 ^ Shift * b + r < N % 2 ^ Shift * b + b := Nat.add_lt_add_left hr _
      _ = (N % 2 ^ Shift + 1) * b := (Nat.succ_mul _ _).symm
      _ ≤ 2 ^ Shift * b := Nat.mul_le_mul_right b hmod
  · have hsplit : (N : ℚ) = 2 ^ Shift * (N / 2 ^ Shift : Nat) + (N % 2 ^ Shift : Nat) := by
      exact_mod_cast hdiv.symm
    rw [zpow_add₀ (by norm_num), zpow_natCast, ← div_div, hx, hsplit]
    push_cast
    field_simp
    ring
  · rw [nextBit_iff N hShift]
    constructor
    · intro hle
      calc 2 ^ Shift * b ≤ 2 * (N % 2 ^ Shift) * b := Nat.mul_le_mul_right b hle
        _ ≤ 2 * (N % 2 ^ Shift * b + r) := by rw [Nat.mul_assoc]; omega
    · intro hle
      by_contra hlt
      obtain ⟨k, rfl⟩ : ∃ k, Shift = k + 1 := ⟨Shift - 1, by omega⟩
      rw [pow_succ] at hlt hle
      have hhalf : N % (2 ^ k * 2) + 1 ≤ 2 ^ k := by rw [pow_succ] at *; omega
      have hmul := Nat.mul_le_mul_right b hhalf
      rw [Nat.succ_mul] at hmul
      have hcomm : 2 ^ k * 2 * b = 2 * (2 ^ k * b) := by ring
      omega

theorem shiftRight_bounds {N : Nat} (hw : 0 < w) (h : w ≤ N.size) :
    2 ^ (w - 1) ≤ N >>> (N.size - w) ∧ N >>> (N.size - w) < 2 ^ w := by
  rw [Nat.shiftRight_eq_div_pow]
  constructor
  · rw [Nat.le_div_iff_mul_le (Nat.two_pow_pos _), ← pow_add]
    exact Nat.lt_size.mp (by omega)
  · rw [Nat.div_lt_iff_lt_mul (Nat.two_pow_pos _), ← pow_add]
    exact Nat.size_le.mp (by omega)

theorem getAdjusted_spec (T : DigitsT) {N r b : Nat} (hN : N < 2 ^ 64) (hlow : -100 ≤ S)
    (hhigh : S ≤ 100) (hx : x / 2 ^ S = N + (r : ℚ) / b) (hr : r < b)
    (hexact : getWidth T = 64 ∨ N ≤ 2 ^ getWidth T - 1 → r = 0) :
    Rounds (getWidth T) x (getAdjusted T N S) := by
  have hw : 0 < getWidth T ∧ getWidth T ≤ 64 := by rcases getWidth_cases T with h | h <;> omega
  unfold getAdjusted
  dsimp only
  by_cases hsmall : getWidth T = 64 ∨ N ≤ 2 ^ getWidth T - 1
  · have hfits : N < 2 ^ getWidth T := by
      rcases hsmall with h | h
      · rwa [h]
      · have := Nat.two_pow_pos (getWidth T)
        omega
    rw [if_pos hsmall]
    refine rounds_exact hfits ?_
    rw [hexact hsmall, Nat.cast_zero, zero_div, add_zero, div_eq_iff (zpow_pos_two S).ne'] at hx
    exact hx.symm
  · have hsize : getWidth T < N.size := Nat.lt_size.mpr (by omega)
    have hsize64 : N.size ≤ 64 := Nat.size_le.mpr hN
    have hShift : 64 - getWidth T - countLeadingZeros 64 N = N.size - getWidth T := by
      unfold countLeadingZeros
      omega
    obtain ⟨hfull, hlt⟩ := shiftRight_bounds hw.1 hsize.le
    rw [if_neg hsmall, hShift, Nat.mod_eq_of_lt hlt, toInt16_eq (by omega) (by omega),
      getRounded_eq T (by omega) (by omega) hlt]
    exact rounds_roundUp (truncates_shift hx hr (by omega) hlt hfull) hw.1

/-! ## Exact products -/

theorem addWithCarry_spec {Upper Lower N : Nat} (hUpper : Upper < 2 ^ 64) (hLower : Lower < 2 ^ 64)
    (hN : N < 2 ^ 64) (h : Upper * 2 ^ 64 + Lower + N * 2 ^ 32 < 2 ^ 128) :
    (addWithCarry (Upper, Lower) N).1 * 2 ^ 64 + (addWithCarry (Upper, Lower) N).2 =
        Upper * 2 ^ 64 + Lower + N * 2 ^ 32 ∧
      (addWithCarry (Upper, Lower) N).1 < 2 ^ 64 ∧ (addWithCarry (Upper, Lower) N).2 < 2 ^ 64 := by
  unfold addWithCarry
  simp only [toUInt64, Nat.shiftLeft_eq, Nat.shiftRight_eq_div_pow]
  split_ifs with hcarry
  · omega
  · omega

variable {L R : Nat}

theorem crossProducts_spec (hL : L < 2 ^ 64) (hR : R < 2 ^ 64) :
    (crossProducts L R).1 * 2 ^ 64 + (crossProducts L R).2 = L * R ∧
      (crossProducts L R).1 < 2 ^ 64 ∧ (crossProducts L R).2 < 2 ^ 64 := by
  have hsplit : ∀ n : Nat, n >>> 32 * 2 ^ 32 + n % 2 ^ 32 = n := by
    omega
  have hdigit : ∀ n < 2 ^ 64, n >>> 32 < 2 ^ 32 := by
    omega
  have hproduct : L >>> 32 * (R >>> 32) * 2 ^ 64 + L % 2 ^ 32 * (R % 2 ^ 32) +
      L >>> 32 * (R % 2 ^ 32) * 2 ^ 32 + L % 2 ^ 32 * (R >>> 32) * 2 ^ 32 = L * R := by
    conv_rhs => rw [← hsplit L, ← hsplit R]
    ring
  have hbound : L * R < 2 ^ 128 :=
    calc L * R < 2 ^ 64 * 2 ^ 64 := Nat.mul_lt_mul'' hL hR
      _ = 2 ^ 128 := by norm_num
  have hfit : ∀ {a b : Nat}, a < 2 ^ 32 → b < 2 ^ 32 → a * b < 2 ^ 64 := by
    intro a b ha hb
    exact (Nat.mul_lt_mul'' ha hb).trans_eq (by norm_num)
  have hUL := hdigit L hL
  have hUR := hdigit R hR
  have hLL := Nat.mod_lt L (show 0 < 2 ^ 32 by norm_num)
  have hLR := Nat.mod_lt R (show 0 < 2 ^ 32 by norm_num)
  unfold crossProducts
  simp only [toUInt64]
  rw [Nat.mod_eq_of_lt (hfit hUL hUR), Nat.mod_eq_of_lt (hfit hUL hLR),
    Nat.mod_eq_of_lt (hfit hLL hUR), Nat.mod_eq_of_lt (hfit hLL hLR)]
  obtain ⟨hfirst, hupper, hlower⟩ := addWithCarry_spec (hfit hUL hUR) (hfit hLL hLR) (hfit hUL hLR)
    (by omega)
  obtain ⟨hsecond, hupper', hlower'⟩ := addWithCarry_spec hupper hlower (hfit hLL hUR) (by omega)
  refine ⟨?_, hupper', hlower'⟩
  rw [hsecond, hfirst]
  exact hproduct

theorem shifted_digits {Upper Lower : Nat} (hUpper : Upper < 2 ^ 64) (hLower : Lower < 2 ^ 64)
    (hpos : 0 < Upper.size) :
    (if countLeadingZeros 64 Upper ≠ 0 then
      toUInt64 (Upper <<< countLeadingZeros 64 Upper) ||| Lower >>> Upper.size else Upper) =
      (Upper * 2 ^ 64 + Lower) >>> Upper.size := by
  have hsize : Upper.size ≤ 64 := Nat.size_le.mpr hUpper
  unfold countLeadingZeros
  by_cases hnone : 64 - Upper.size = 0
  · rw [if_neg (not_not.mpr hnone), show Upper.size = 64 by omega, Nat.shiftRight_eq_div_pow]
    omega
  · have hpow : 2 ^ 64 = 2 ^ Upper.size * 2 ^ (64 - Upper.size) := by
      rw [← pow_add, show Upper.size + (64 - Upper.size) = 64 by omega]
    have hhigh : Upper < 2 ^ Upper.size := Nat.lt_size_self Upper
    have hfit : Upper * 2 ^ (64 - Upper.size) < 2 ^ 64 := by
      rw [hpow]
      exact Nat.mul_lt_mul_of_pos_right hhigh (Nat.two_pow_pos _)
    have hlow : Lower / 2 ^ Upper.size < 2 ^ (64 - Upper.size) := by
      rw [Nat.div_lt_iff_lt_mul (Nat.two_pow_pos _), Nat.mul_comm, ← hpow]
      exact hLower
    rw [if_pos hnone, Nat.shiftLeft_eq, Nat.shiftRight_eq_div_pow, Nat.shiftRight_eq_div_pow,
      toUInt64, Nat.mod_eq_of_lt hfit, Nat.mul_comm Upper,
      ← Nat.two_pow_add_eq_or_of_lt hlow]
    rw [hpow, show Upper * (2 ^ Upper.size * 2 ^ (64 - Upper.size)) =
      2 ^ Upper.size * (2 ^ (64 - Upper.size) * Upper) by ring,
      Nat.mul_add_div (Nat.two_pow_pos _)]

theorem multiply64_spec (hL : L < 2 ^ 64) (hR : R < 2 ^ 64) :
    Rounds 64 ((L : ℚ) * R) (multiply64 L R) := by
  obtain ⟨hproduct, hUpper, hLower⟩ := crossProducts_spec hL hR
  unfold multiply64
  generalize crossProducts L R = product at *
  obtain ⟨Upper, Lower⟩ := product
  dsimp only at *
  by_cases hzero : Upper = 0
  · rw [if_pos hzero]
    refine rounds_exact hLower ?_
    rw [value, zpow_zero, mul_one]
    rw [hzero, Nat.zero_mul, Nat.zero_add] at hproduct
    exact_mod_cast hproduct
  · have hsize : Upper.size ≤ 64 := Nat.size_le.mpr hUpper
    have hpos : 0 < Upper.size := Nat.size_pos.mpr (Nat.pos_of_ne_zero hzero)
    have hSize : (Upper * 2 ^ 64 + Lower).size = Upper.size + 64 := by
      have hlow : 2 ^ (Upper.size - 1) ≤ Upper := Nat.lt_size.mp (by omega)
      have hhigh : Upper < 2 ^ Upper.size := Nat.lt_size_self Upper
      refine le_antisymm (Nat.size_le.mpr ?_) (Nat.lt_size.mpr ?_ : Upper.size + 63 < _)
      · rw [pow_add]
        omega
      · rw [show Upper.size + 63 = Upper.size - 1 + 64 by omega, pow_add]
        omega
    have hShift : 64 - countLeadingZeros 64 Upper = Upper.size := by
      unfold countLeadingZeros
      omega
    have hdvd : 2 ^ Upper.size ∣ 2 ^ 64 := Nat.pow_dvd_pow 2 hsize
    have hbit : nextBit Lower Upper.size = nextBit (Upper * 2 ^ 64 + Lower) Upper.size := by
      rw [Bool.eq_iff_iff, nextBit_iff _ hpos, nextBit_iff _ hpos,
        Nat.add_mod, Nat.mod_eq_zero_of_dvd (Dvd.dvd.mul_left hdvd Upper), Nat.zero_add,
        Nat.mod_mod]
    have hdigits : (if countLeadingZeros 64 Upper ≠ 0 then
        toUInt64 (Upper <<< countLeadingZeros 64 Upper) ||| Lower >>> Upper.size else Upper) =
        (Upper * 2 ^ 64 + Lower) >>> Upper.size :=
      shifted_digits hUpper hLower hpos
    obtain ⟨hfull, hlt⟩ := @shiftRight_bounds 64 (Upper * 2 ^ 64 + Lower) (by norm_num) (by omega)
    rw [hSize, Nat.add_sub_cancel] at hfull hlt
    rw [if_neg hzero, hShift, hdigits, hbit, toInt16_eq (by omega) (by omega),
      getRounded_eq .uint64_t (by omega) (by omega) hlt]
    have hx : (L : ℚ) * R / 2 ^ (0 : Int) =
        (Upper * 2 ^ 64 + Lower : Nat) + ((0 : Nat) : ℚ) / (1 : Nat) := by
      rw [zpow_zero, div_one, Nat.cast_zero, zero_div, add_zero, hproduct, Nat.cast_mul]
    have hrounds := rounds_roundUp (truncates_shift hx Nat.one_pos hpos hlt hfull) (by norm_num)
    rw [zero_add] at hrounds
    rw [show (Upper.size ≠ 0 && nextBit (Upper * 2 ^ 64 + Lower) Upper.size) =
      nextBit (Upper * 2 ^ 64 + Lower) Upper.size by simp [hpos.ne']]
    exact hrounds

theorem getProduct_spec (T : DigitsT) (hL : L < 2 ^ getWidth T)
    (hR : R < 2 ^ getWidth T) : Rounds (getWidth T) ((L : ℚ) * R) (getProduct T L R) := by
  have hadjusted : L < 2 ^ 32 → R < 2 ^ 32 →
      Rounds (getWidth T) ((L : ℚ) * R) (getAdjusted T (toUInt64 (L * R)) 0) := by
    intro hL hR
    have hfit : L * R < 2 ^ 64 := (Nat.mul_lt_mul'' hL hR).trans_eq (by norm_num)
    have hx : (L : ℚ) * R / 2 ^ (0 : Int) = (L * R : Nat) + ((0 : Nat) : ℚ) / (1 : Nat) := by
      rw [zpow_zero, div_one, Nat.cast_zero, zero_div, add_zero, Nat.cast_mul]
    rw [toUInt64, Nat.mod_eq_of_lt hfit]
    exact getAdjusted_spec T hfit (by norm_num) (by norm_num) hx Nat.one_pos fun _ => rfl
  unfold getProduct
  cases T with
  | uint32_t =>
    exact hadjusted hL hR
  | uint64_t =>
    by_cases hsmall : L ≤ 2 ^ 32 - 1 ∧ R ≤ 2 ^ 32 - 1
    · rw [if_pos (.inr hsmall)]
      exact hadjusted (by omega) (by omega)
    · rw [if_neg (not_or.mpr ⟨by decide, hsmall⟩)]
      exact multiply64_spec hL hR

/-! ## Exact quotients -/

theorem getHalf_le_iff {b r : Nat} (hb : b < 2 ^ 64) : getHalf b ≤ r ↔ b ≤ 2 * r := by
  unfold getHalf toUInt64
  omega

theorem shiftLeft_leadingZeros {n : Nat} (hn : n ≠ 0) (h : n < 2 ^ 64) :
    toUInt64 (n <<< countLeadingZeros 64 n) = n * 2 ^ countLeadingZeros 64 n ∧
      2 ^ 63 ≤ n * 2 ^ countLeadingZeros 64 n ∧ n * 2 ^ countLeadingZeros 64 n < 2 ^ 64 := by
  have hpos : 0 < n.size := Nat.size_pos.mpr (Nat.pos_of_ne_zero hn)
  have hsize : n.size ≤ 64 := Nat.size_le.mpr h
  have hlow : 2 ^ (n.size - 1) ≤ n := Nat.lt_size.mp (by omega)
  have hhigh : n < 2 ^ n.size := Nat.lt_size_self n
  have hfit : n * 2 ^ countLeadingZeros 64 n < 2 ^ 64 := by
    have hpow : 2 ^ n.size * 2 ^ countLeadingZeros 64 n = 2 ^ 64 := by
      unfold countLeadingZeros
      rw [← pow_add, show n.size + (64 - n.size) = 64 by omega]
    rw [← hpow]
    exact Nat.mul_lt_mul_of_pos_right hhigh (Nat.two_pow_pos _)
  refine ⟨?_, ?_, hfit⟩
  · rw [Nat.shiftLeft_eq]
    exact Nat.mod_eq_of_lt hfit
  · calc 2 ^ 63 = 2 ^ (n.size - 1) * 2 ^ countLeadingZeros 64 n := by
          unfold countLeadingZeros
          rw [← pow_add, show n.size - 1 + (64 - n.size) = 63 by omega]
      _ ≤ n * 2 ^ countLeadingZeros 64 n := Nat.mul_le_mul_right _ hlow

theorem scaled_quotient (a : Nat) {b : Nat} (hb : 0 < b) (z : Nat) :
    (a : ℚ) / b / 2 ^ (-z : Int) = (a * 2 ^ z / b : Nat) + ((a * 2 ^ z % b : Nat) : ℚ) / b := by
  have hsplit : (a : ℚ) * 2 ^ z = b * (a * 2 ^ z / b : Nat) + (a * 2 ^ z % b : Nat) := by
    exact_mod_cast (Nat.div_add_mod (a * 2 ^ z) b).symm
  rw [zpow_neg, zpow_natCast, div_inv_eq_mul, div_mul_eq_mul_div, hsplit]
  field_simp

theorem divide32_spec {a b : Nat} (ha : a ≠ 0) (ha32 : a < 2 ^ 32) (hb : b ≠ 0)
    (hb32 : b < 2 ^ 32) :
    ∃ p, divide32 a b = some p ∧ Rounds 32 ((a : ℚ) / b) p := by
  have hpos := Nat.pos_of_ne_zero hb
  obtain ⟨hshift, hlow, hhigh⟩ := shiftLeft_leadingZeros ha (by omega)
  have hx := scaled_quotient a hpos (countLeadingZeros 64 a)
  have hr := Nat.mod_lt (a * 2 ^ countLeadingZeros 64 a) hpos
  have hzeros : countLeadingZeros 64 a ≤ 64 := Nat.sub_le _ _
  refine ⟨_, by unfold divide32; rw [if_neg (not_or.mpr ⟨ha, hb⟩)], ?_⟩
  rw [hshift, toInt16_eq (by omega) (by omega)]
  have hq : a * 2 ^ countLeadingZeros 64 a / b < 2 ^ 64 :=
    (Nat.div_le_self _ _).trans_lt hhigh
  have hfull : 2 ^ 31 ≤ a * 2 ^ countLeadingZeros 64 a / b := by
    rw [Nat.le_div_iff_mul_le hpos]
    omega
  split_ifs with hlarge
  · exact getAdjusted_spec .uint32_t hq (by omega) (by omega) hx hr fun hsmall => by
      rcases hsmall with h | h
      · exact absurd h (by decide)
      · exact absurd hlarge (not_lt.mpr h)
  · have hq32 : a * 2 ^ countLeadingZeros 64 a / b < 2 ^ 32 := by omega
    rw [getRounded_eq .uint32_t (by omega) (by omega) hq32]
    refine rounds_roundUp (truncates_div hq32 hr hx ?_ (.inl hfull)) (by decide)
    rw [decide_eq_true_iff, getHalf_le_iff (by omega)]

theorem countTrailingZeros_spec {b : Nat} (hb : b ≠ 0) (hb64 : b < 2 ^ 64) :
    countTrailingZeros b < 64 ∧ b >>> countTrailingZeros b * 2 ^ countTrailingZeros b = b := by
  obtain ⟨i, hi⟩ := Nat.exists_testBit_of_ne_zero hb
  have hi64 : i < 64 := by
    by_contra hge
    rw [Nat.testBit_lt_two_pow (hb64.trans_le (Nat.pow_le_pow_right (by decide) (by omega)))] at hi
    exact Bool.false_ne_true hi
  have hlt : countTrailingZeros b < 64 := by
    have h := List.findIdx_lt_length_of_exists ⟨i, List.mem_range.mpr hi64, hi⟩
    rwa [List.length_range] at h
  have hzeros : b % 2 ^ countTrailingZeros b = 0 := by
    refine Nat.eq_of_testBit_eq fun j => ?_
    by_cases hj : j < countTrailingZeros b
    · have hbit := List.not_of_lt_findIdx hj
      simpa using fun _ => hbit
    · simp [hj]
  refine ⟨hlt, ?_⟩
  rw [Nat.shiftRight_eq_div_pow, Nat.div_mul_cancel (Nat.dvd_of_mod_eq_zero hzeros)]

/-- The number that the quotient and the remainder stand for at a scale. -/
def Divides (b : Nat) (x : ℚ) (R Q : Nat) (S : Int) : Prop :=
  x / 2 ^ S = Q + (R : ℚ) / b ∧ R < b ∧ Q < 2 ^ 64 ∧ (Q = 0 → 2 ^ 63 ≤ R)

theorem size_double {Q c : Nat} (hc : c < 2) (h : Q = 0 → c = 1) :
    (2 * Q + c).size = Q.size + 1 := by
  rcases Nat.eq_zero_or_pos Q with hQ | hQ
  · rw [hQ, h hQ]
    rfl
  · have hpos : 0 < Q.size := Nat.size_pos.mpr hQ
    have hlow : 2 ^ (Q.size - 1) ≤ Q := Nat.lt_size.mp (by omega)
    have hhigh : Q < 2 ^ Q.size := Nat.lt_size_self Q
    refine le_antisymm (Nat.size_le.mpr ?_) (Nat.lt_size.mpr ?_ : Q.size < _)
    · omega
    · rw [show Q.size = Q.size - 1 + 1 by omega, pow_succ]
      omega

theorem nextDigit_iff {b R : Nat} (hR : R < 2 ^ 64) (hb : b < 2 ^ 64) :
    (R >>> 63 ≠ 0 ∨ b ≤ toUInt64 (R <<< 1)) ↔ b ≤ 2 * R := by
  unfold toUInt64
  omega

theorem Divides.step {b R Q : Nat} (h : Divides b x R Q S) (hb : b < 2 ^ 64) (hQ : Q < 2 ^ 63) :
    (b ≤ 2 * R →
      Divides b x (toUInt64 (2 ^ 64 + toUInt64 (R <<< 1) - b)) (toUInt64 (Q <<< 1) ||| 1) (S - 1) ∧
        (toUInt64 (Q <<< 1) ||| 1).size = Q.size + 1) ∧
    (2 * R < b → Divides b x (toUInt64 (R <<< 1)) (toUInt64 (Q <<< 1)) (S - 1) ∧
      (toUInt64 (Q <<< 1)).size = Q.size + 1) := by
  obtain ⟨hx, hR, -, hzero⟩ := h
  have hb' : (b : ℚ) ≠ 0 := by exact_mod_cast (Nat.zero_lt_of_lt hR).ne'
  have hdouble : x / 2 ^ (S - 1) = 2 * Q + 2 * (R : ℚ) / b := by
    rw [zpow_sub_one₀ (by norm_num), ← div_div, hx]
    field_simp
  have hquotient : toUInt64 (Q <<< 1) = 2 * Q := by
    rw [Nat.shiftLeft_eq, toUInt64]
    omega
  have hone : 2 * Q ||| 1 = 2 * Q + 1 := (Nat.two_pow_add_eq_or_of_lt (i := 1) (by decide) Q).symm
  rw [hquotient, hone]
  refine ⟨fun hle => ?_, fun hlt => ?_⟩
  · have hremainder : toUInt64 (2 ^ 64 + toUInt64 (R <<< 1) - b) = 2 * R - b := by
      unfold toUInt64
      omega
    rw [hremainder]
    refine ⟨⟨?_, by omega, by omega, fun h => absurd h (by omega)⟩,
      size_double (by decide) fun _ => rfl⟩
    rw [hdouble, Nat.cast_sub hle]
    push_cast
    field_simp
    ring
  · have hremainder : toUInt64 (R <<< 1) = 2 * R := by
      rw [Nat.shiftLeft_eq, toUInt64]
      omega
    have hpos : Q ≠ 0 := fun h => by
      omega
    rw [hremainder]
    refine ⟨⟨?_, hlt, by omega, fun h => absurd h (by omega)⟩,
      size_double (c := 0) (by decide) fun h => absurd h hpos⟩
    rw [hdouble]
    push_cast
    ring

theorem divideLoop_spec {b : Nat} (hb : b < 2 ^ 64) (fuel : Nat) {R Q : Nat} {S : Int}
    (h : Divides b x R Q S) (hfuel : 64 < fuel + Q.size) :
    ∃ R' Q' S', divideLoop b fuel R Q S = some (R', Q', S') ∧ Divides b x R' Q' S' ∧
      (2 ^ 63 ≤ Q' ∨ R' = 0) ∧ S - fuel ≤ S' ∧ S' ≤ S := by
  induction fuel generalizing R Q S with
  | zero =>
    have hsize : Q.size ≤ 64 := Nat.size_le.mpr h.2.2.1
    omega
  | succ fuel ih =>
    unfold divideLoop
    by_cases hstep : Q >>> 63 = 0 ∧ R ≠ 0
    · have hQ : Q < 2 ^ 63 := by
        omega
      rw [if_pos hstep]
      obtain ⟨hset, hclear⟩ := h.step hb hQ
      by_cases hdigit : b ≤ 2 * R
      · obtain ⟨hnext, hsize⟩ := hset hdigit
        obtain ⟨R', Q', S', hrun, hR', hend, hlow, hhigh⟩ := ih hnext (by omega)
        rw [if_pos ((nextDigit_iff (h.2.1.trans hb) hb).mpr hdigit)]
        exact ⟨R', Q', S', hrun, hR', hend, by omega, by omega⟩
      · obtain ⟨hnext, hsize⟩ := hclear (Nat.not_le.mp hdigit)
        obtain ⟨R', Q', S', hrun, hR', hend, hlow, hhigh⟩ := ih hnext (by omega)
        rw [if_neg (mt (nextDigit_iff (h.2.1.trans hb) hb).mp hdigit)]
        exact ⟨R', Q', S', hrun, hR', hend, by omega, by omega⟩
    · rw [if_neg hstep]
      refine ⟨R, Q, S, rfl, h, ?_, by omega, by omega⟩
      by_cases hR : R = 0
      · exact .inr hR
      · omega

theorem divide64_spec {a b : Nat} (ha : a ≠ 0) (ha64 : a < 2 ^ 64) (hb : b ≠ 0)
    (hb64 : b < 2 ^ 64) :
    ∃ p, divide64 a b = some p ∧ Rounds 64 ((a : ℚ) / b) p := by
  obtain ⟨hzeros, hodd⟩ := countTrailingZeros_spec hb hb64
  have hle : b >>> countTrailingZeros b ≤ b := Nat.shiftRight_le b _
  have hpos : 0 < b >>> countTrailingZeros b := by
    refine Nat.pos_of_ne_zero fun hzero => hb ?_
    rw [← hodd, hzero, Nat.zero_mul]
  have hquotient : (a : ℚ) / b = value (1, -countTrailingZeros b) *
      (a / (b >>> countTrailingZeros b : Nat)) := by
    have hcast : (b : ℚ) = (b >>> countTrailingZeros b : Nat) * 2 ^ countTrailingZeros b := by
      exact_mod_cast hodd.symm
    rw [value, zpow_neg, zpow_natCast, Nat.cast_one, one_mul]
    conv_lhs => rw [hcast]
    field_simp
  unfold divide64
  rw [if_neg (not_or.mpr ⟨ha, hb⟩)]
  dsimp only
  split_ifs with hone
  · refine ⟨_, rfl, rounds_exact ha64 ?_⟩
    rw [hquotient, hone, toInt16_eq (by omega) (by omega), value, value]
    simp [mul_comm]
  · obtain ⟨hshift, hlow, hhigh⟩ := shiftLeft_leadingZeros ha ha64
    have hleading : countLeadingZeros 64 a ≤ 64 := Nat.sub_le _ _
    have hx := scaled_quotient a hpos (countLeadingZeros 64 a)
    rw [hshift]
    generalize a * 2 ^ countLeadingZeros 64 a = dividend at *
    generalize b >>> countTrailingZeros b = divisor at *
    have hstart : Divides divisor ((a : ℚ) / b) (dividend % divisor) (dividend / divisor)
        (-countTrailingZeros b - countLeadingZeros 64 a) := by
      refine ⟨?_, Nat.mod_lt _ hpos, (Nat.div_le_self _ _).trans_lt hhigh, fun hzero => ?_⟩
      · rw [← hx, hquotient, value, sub_eq_add_neg, zpow_add₀ (by norm_num), Nat.cast_one, one_mul,
          mul_div_mul_left _ _ (zpow_pos_two _).ne']
      · rw [Nat.mod_eq_of_lt ((Nat.div_eq_zero_iff_lt hpos).mp hzero)]
        exact hlow
    obtain ⟨R, Q, S, hrun, ⟨hQR, hR, hQ, -⟩, hend, hSlow, hShigh⟩ :=
      divideLoop_spec (hle.trans_lt hb64) 65 hstart (by omega)
    rw [hrun]
    refine ⟨_, rfl, ?_⟩
    dsimp only
    rw [toInt16_eq (by omega) (by omega), getRounded_eq .uint64_t (by omega) (by omega) hQ]
    refine rounds_roundUp (truncates_div hQ hR hQR ?_ hend) (by decide)
    rw [decide_eq_true_iff, getHalf_le_iff (hle.trans_lt hb64)]

theorem getQuotient_spec (T : DigitsT) {a b : Nat} (ha : a < 2 ^ getWidth T) (hb : b ≠ 0)
    (hb' : b < 2 ^ getWidth T) :
    ∃ p, getQuotient T a b = some p ∧ Rounds (getWidth T) ((a : ℚ) / b) p := by
  unfold getQuotient
  by_cases hzero : a = 0
  · rw [if_pos hzero, hzero]
    refine ⟨_, rfl, rounds_exact (Nat.two_pow_pos _) ?_⟩
    simp [value]
  · rw [if_neg hzero, if_neg hb]
    cases T with
    | uint32_t =>
      exact divide32_spec hzero ha hb hb'
    | uint64_t =>
      exact divide64_spec hzero ha hb hb'

/-! ## The order -/

theorem getLgFloor_eq (T : DigitsT) {D : Nat} (hD : D ≠ 0) (hfit : D < 2 ^ getWidth T) (S : Int) :
    getLgFloor T D S = some (S + D.size - 1) := by
  have hsize : D.size ≤ getWidth T := Nat.size_le.mpr hfit
  have hpos : 0 < D.size := Nat.size_pos.mpr (Nat.pos_of_ne_zero hD)
  have hLocal : getWidth T - countLeadingZeros (getWidth T) D - 1 = D.size - 1 := by
    unfold countLeadingZeros
    omega
  unfold getLgFloor getLgImpl
  rw [if_neg hD, hLocal]
  by_cases hpower : D = 1 <<< (D.size - 1)
  · rw [if_pos hpower, map_some, if_neg (Int.lt_irrefl 0)]
    exact congrArg some (by omega)
  · have hone : 1 ≤ D.size - 1 := by
      -- A number of one bit is a power of two.
      by_contra hone
      have hlow : 2 ^ (D.size - 1) ≤ D := Nat.lt_size.mp (by omega)
      have hhigh : D < 2 ^ D.size := Nat.lt_size_self D
      rw [show D.size = 1 by omega] at hlow hhigh hpower
      exact absurd (show D = 1 by omega) hpower
    rw [if_neg hpower, if_pos hone, map_some]
    cases nextBit D (D.size - 1) with
    | false | true => exact congrArg some (by simp; omega)

theorem value_bounds {D : Nat} (hD : D ≠ 0) (S : Int) :
    2 ^ (S + D.size - 1) ≤ value (D, S) ∧ value (D, S) < 2 ^ (S + D.size - 1 + 1) := by
  have hpos : 0 < D.size := Nat.size_pos.mpr (Nat.pos_of_ne_zero hD)
  have hlow : (2 : ℚ) ^ (D.size - 1) ≤ D := by exact_mod_cast Nat.lt_size.mp (by omega)
  have hhigh : (D : ℚ) < 2 ^ D.size := by exact_mod_cast Nat.lt_size_self D
  have hleft : (2 : ℚ) ^ (S + D.size - 1) = 2 ^ (D.size - 1) * 2 ^ S := by
    rw [← zpow_natCast, ← zpow_add₀ (by norm_num)]
    congr 1
    omega
  have hright : (2 : ℚ) ^ (S + D.size - 1 + 1) = 2 ^ D.size * 2 ^ S := by
    rw [← zpow_natCast, ← zpow_add₀ (by norm_num)]
    congr 1
    omega
  rw [hleft, hright]
  exact ⟨mul_le_mul_of_nonneg_right hlow (zpow_pos_two S).le,
    mul_lt_mul_of_pos_right hhigh (zpow_pos_two S)⟩

/-- The order of two exact values, as a number. -/
def order (x y : ℚ) : Int := if x < y then -1 else if y < x then 1 else 0

theorem order_mul (x y : ℚ) {c : ℚ} (hc : 0 < c) : order (x * c) (y * c) = order x y := by
  unfold order
  simp only [mul_lt_mul_iff_left₀ hc]

theorem neg_order (x y : ℚ) : -order x y = order y x := by
  unfold order
  split_ifs with h1 h2 h2
  · exact absurd (h1.trans h2) (lt_irrefl x)
  · rfl
  · rfl
  · rfl

theorem compareImpl_eq {L : Nat} (R : Nat) {d : Nat} (hL : L < 2 ^ 64) (hd : d < 64) :
    compareImpl L R d = some (order L (R * 2 ^ d)) := by
  have hcast : ((R : ℚ) * 2 ^ d) = (R * 2 ^ d : Nat) := by push_cast; rfl
  have hdiv := Nat.div_add_mod L (2 ^ d)
  unfold compareImpl order
  rw [if_pos ⟨by omega, by omega⟩, hcast, toNat_natCast]
  simp only [Nat.cast_lt, Nat.shiftLeft_eq, Nat.shiftRight_eq_div_pow]
  have hback : toUInt64 (L / 2 ^ d * 2 ^ d) = L / 2 ^ d * 2 ^ d :=
    Nat.mod_eq_of_lt ((Nat.div_mul_le_self L _).trans_lt hL)
  rw [hback]
  rcases Nat.lt_trichotomy (L / 2 ^ d) R with hlt | heq | hgt
  · rw [if_pos hlt, if_pos ((Nat.div_lt_iff_lt_mul (Nat.two_pow_pos d)).mp hlt)]
  · have hle : R * 2 ^ d ≤ L := heq ▸ Nat.div_mul_le_self L _
    rw [heq, if_neg (Nat.lt_irrefl R), if_neg (Nat.lt_irrefl R), if_neg (Nat.not_lt.mpr hle)]
  · have hle : (R + 1) * 2 ^ d ≤ L := (Nat.le_div_iff_mul_le (Nat.two_pow_pos d)).mp hgt
    rw [Nat.succ_mul] at hle
    rw [if_neg (by omega), if_pos hgt, if_neg (by omega), if_pos (by omega)]

theorem compare_eq (T : DigitsT) (hL : L < 2 ^ getWidth T) (hR : R < 2 ^ getWidth T)
    (LS RS : Int) : compare T L LS R RS = some (order (value (L, LS)) (value (R, RS))) := by
  have hpositive : ∀ {D : Nat}, D ≠ 0 → ∀ S, 0 < value (D, S) := fun hD S =>
    (zpow_pos_two _).trans_le (value_bounds hD S).1
  have hzero : ∀ S, value (0, S) = 0 := fun S => by simp [value]
  unfold compare
  by_cases hLzero : L = 0
  · rw [if_pos hLzero, hLzero, hzero]
    by_cases hRzero : R = 0
    · rw [hRzero, hzero]
      rfl
    · rw [if_pos hRzero, order, if_pos (hpositive hRzero RS)]
  rw [if_neg hLzero]
  by_cases hRzero : R = 0
  · have hpos := hpositive hLzero LS
    rw [if_pos hRzero, hRzero, hzero, order, if_neg hpos.not_gt, if_pos hpos]
  rw [if_neg hRzero, getLgFloor_eq T hLzero hL, getLgFloor_eq T hRzero hR, bind_some, bind_some]
  obtain ⟨hLlow, hLhigh⟩ := value_bounds hLzero LS
  obtain ⟨hRlow, hRhigh⟩ := value_bounds hRzero RS
  by_cases hlg : LS + L.size - 1 = RS + R.size - 1
  · have hw : getWidth T ≤ 64 := by rcases getWidth_cases T with h | h <;> omega
    have hLpos : 0 < L.size := Nat.size_pos.mpr (Nat.pos_of_ne_zero hLzero)
    have hRpos : 0 < R.size := Nat.size_pos.mpr (Nat.pos_of_ne_zero hRzero)
    have hLsize : L.size ≤ getWidth T := Nat.size_le.mpr hL
    have hRsize : R.size ≤ getWidth T := Nat.size_le.mpr hR
    have hpow : 2 ^ getWidth T ≤ 2 ^ 64 := Nat.pow_le_pow_right (by decide) hw
    have hscaled : ∀ (A : Nat) (S : Int) (d : Nat), value (A, S + d) = A * 2 ^ d * 2 ^ S := by
      intro A S d
      rw [value, zpow_add₀ (by norm_num), zpow_natCast]
      ring
    rw [if_neg (not_not.mpr hlg)]
    by_cases hscale : LS < RS
    · obtain ⟨d, hd⟩ := eq_ofNat_of_zero_le (show 0 ≤ RS - LS by omega)
      rw [if_pos hscale, hd, compareImpl_eq R (hL.trans_le hpow) (by omega),
        show RS = LS + d by omega, hscaled]
      exact congrArg some (order_mul _ _ (zpow_pos_two LS)).symm
    · obtain ⟨d, hd⟩ := eq_ofNat_of_zero_le (show 0 ≤ LS - RS by omega)
      rw [if_neg hscale, hd, compareImpl_eq L (hR.trans_le hpow) (by omega),
        show LS = RS + d by omega, hscaled, map_some, neg_order]
      exact congrArg some (order_mul _ _ (zpow_pos_two RS)).symm
  · rw [if_pos hlg]
    have hmono : ∀ {m n : Int}, m < n → (2 : ℚ) ^ (m + 1) ≤ 2 ^ n := fun h =>
      zpow_le_zpow_right₀ (by norm_num) h
    rcases lt_or_gt_of_ne hlg with hlt | hgt
    · have hless := hLhigh.trans_le ((hmono hlt).trans hRlow)
      rw [if_pos hlt, order, if_pos hless]
    · have hless := hRhigh.trans_le ((hmono hgt).trans hLlow)
      rw [if_neg hgt.not_gt, order, if_neg hless.not_gt, if_pos hless]

/-! ## Exact sums -/

theorem floor_sum (L R : Nat) (S : Int) (l r : Nat) :
    ⌊(value (L, S + l) + value (R, S - r)) / 2 ^ S⌋ = ((L * 2 ^ l + R / 2 ^ r : Nat) : Int) := by
  have hleft : value (L, S + l) / 2 ^ S = (L * 2 ^ l : Nat) := by
    rw [value_div, add_sub_cancel_left, zpow_natCast]
    push_cast
    rfl
  have hright : value (R, S - r) / 2 ^ S = R / (2 ^ r : Nat) := by
    rw [value_div, sub_sub_cancel_left, zpow_neg, zpow_natCast, div_eq_mul_inv]
    push_cast
    rfl
  rw [add_div, hleft, hright, Nat.cast_add, floor_natCast_add, Rat.floor_natCast_div_natCast,
    natCast_ediv]

/-- The digits are shifted to a scale at which nothing is lost but what is cut off. -/
structure Matches (T : DigitsT) (x : ℚ) (m : Matched) : Prop where
  left : m.LDigits < 2 ^ getWidth T
  right : m.RDigits < 2 ^ getWidth T
  low : -2 ^ 15 ≤ m.Scale
  high : m.Scale < 2 ^ 15 - 1
  sum : ⌊x / 2 ^ m.Scale⌋ = ((m.LDigits + m.RDigits : Nat) : Int)

theorem matchLower_spec (T : DigitsT) (hL : L < 2 ^ getWidth T)
    (hR : R < 2 ^ getWidth T) {LS RS : Int} (hle : RS ≤ LS) (hlow : -2 ^ 15 ≤ RS)
    (hhigh : LS < 2 ^ 15 - 1) :
    ∃ m, matchLower T L LS R RS = some m ∧ Matches T (value (L, LS) + value (R, RS)) m := by
  have hzero : ∀ S, value (0, S) = 0 := fun S => by simp [value]
  -- The right digits are lost behind the left ones.
  have hlost : ∀ d : Nat, LS - RS = d → R < 2 ^ d →
      Matches T (value (L, LS) + value (R, RS)) ⟨L, LS, 0, RS, LS⟩ := by
    intro d hd hsmall
    have hsum := floor_sum L R LS 0 d
    rw [Nat.div_eq_of_lt hsmall, show LS - d = RS by omega, Nat.cast_zero, add_zero, pow_zero,
      Nat.mul_one] at hsum
    exact ⟨hL, Nat.two_pow_pos _, by dsimp only; omega, hhigh, hsum⟩
  obtain ⟨d, hd⟩ := eq_ofNat_of_zero_le (show 0 ≤ LS - RS by omega)
  unfold matchLower
  by_cases hLzero : L = 0
  · have hsum := floor_sum 0 R RS 0 0
    rw [hzero, Nat.cast_zero, sub_zero, pow_zero, Nat.div_one, Nat.zero_mul] at hsum
    rw [if_pos hLzero, hLzero]
    refine ⟨_, rfl, Nat.two_pow_pos _, hR, hlow, by dsimp only; omega, ?_⟩
    rwa [hzero]
  rw [if_neg hLzero]
  by_cases hsame : R = 0 ∨ LS = RS
  · rw [if_pos hsame]
    refine ⟨_, rfl, hL, hR, by dsimp only; omega, hhigh, ?_⟩
    rcases hsame with rfl | rfl
    · have hsum := floor_sum L 0 LS 0 0
      rw [hzero, Nat.cast_zero, add_zero, add_zero, pow_zero, Nat.zero_div, Nat.mul_one] at hsum
      rwa [hzero, add_zero]
    · have hsum := floor_sum L R LS 0 0
      rwa [Nat.cast_zero, add_zero, sub_zero, pow_zero, Nat.div_one, Nat.mul_one] at hsum
  rw [if_neg hsame, hd]
  by_cases hfar : 2 * getWidth T ≤ d
  · rw [if_pos (by exact_mod_cast hfar)]
    exact ⟨_, rfl, hlost d hd (hR.trans_le (Nat.pow_le_pow_right (by decide) (by omega)))⟩
  rw [if_neg (by exact_mod_cast hfar)]
  have hpos : 0 < L.size := Nat.size_pos.mpr (Nat.pos_of_ne_zero hLzero)
  have hsize : L.size ≤ getWidth T := Nat.size_le.mpr hL
  obtain ⟨l, hl⟩ : ∃ l : Nat, min (countLeadingZeros (getWidth T) L : Int) (d : Int) = l :=
    ⟨min (countLeadingZeros (getWidth T) L) d, by rw [Nat.cast_min]⟩
  have hlz : l + L.size ≤ getWidth T ∧ l ≤ d := by
    have hleft : (l : Int) ≤ countLeadingZeros (getWidth T) L := hl ▸ min_le_left _ _
    unfold countLeadingZeros at hleft
    omega
  rw [hl, if_pos (by omega)]
  by_cases hgone : getWidth T ≤ d - l
  · rw [if_pos (by omega)]
    exact ⟨_, rfl, hlost d hd (hR.trans_le (Nat.pow_le_pow_right (by decide) (by omega)))⟩
  rw [if_neg (by omega), toInt16_eq (by omega) (by omega), toInt16_eq (by omega) (by omega),
    if_pos (by omega)]
  have hshift : L * 2 ^ l < 2 ^ getWidth T := by
    calc L * 2 ^ l < 2 ^ L.size * 2 ^ l :=
          Nat.mul_lt_mul_of_pos_right (Nat.lt_size_self L) (Nat.two_pow_pos l)
      _ = 2 ^ (L.size + l) := (pow_add 2 _ _).symm
      _ ≤ 2 ^ getWidth T := Nat.pow_le_pow_right (by decide) (by omega)
  have hsum := floor_sum L R (LS - l) l (d - l)
  rw [sub_add_cancel, show LS - l - (d - l : Nat) = RS by omega] at hsum
  rw [toNat_natCast, Nat.shiftLeft_eq, Nat.mod_eq_of_lt hshift,
    show ((d : Int) - l).toNat = d - l by omega, Nat.shiftRight_eq_div_pow]
  exact ⟨_, rfl, hshift, (Nat.div_le_self _ _).trans_lt hR, by dsimp only; omega,
    by dsimp only; omega, hsum⟩

theorem matchScales_spec (T : DigitsT) (hL : L < 2 ^ getWidth T)
    (hR : R < 2 ^ getWidth T) {LS RS : Int} (hLS : -2 ^ 15 ≤ LS ∧ LS < 2 ^ 15 - 1)
    (hRS : -2 ^ 15 ≤ RS ∧ RS < 2 ^ 15 - 1) :
    ∃ m, matchScales T L LS R RS = some m ∧ Matches T (value (L, LS) + value (R, RS)) m := by
  unfold matchScales
  by_cases hlt : LS < RS
  · obtain ⟨m, hm, hmatches⟩ := matchLower_spec T hR hL hlt.le hLS.1 hRS.2
    rw [if_pos hlt, hm]
    refine ⟨_, rfl, hmatches.right, hmatches.left, hmatches.low, hmatches.high, ?_⟩
    rw [add_comm (value (L, LS)), Nat.add_comm m.RDigits]
    exact hmatches.sum
  · rw [if_neg hlt]
    exact matchLower_spec T hL hR (not_lt.mp hlt) hRS.1 hLS.2

theorem getSum_spec (T : DigitsT) (hL : L < 2 ^ getWidth T)
    (hR : R < 2 ^ getWidth T) {LS RS : Int} (hLS : -2 ^ 15 ≤ LS ∧ LS < 2 ^ 15 - 1)
    (hRS : -2 ^ 15 ≤ RS ∧ RS < 2 ^ 15 - 1) :
    ∃ p, getSum T L LS R RS = some p ∧ p.1 < 2 ^ getWidth T ∧
      (p.1 : Int) = ⌊(value (L, LS) + value (R, RS)) / 2 ^ p.2⌋ := by
  obtain ⟨m, hm, hmatches⟩ := matchScales_spec T hL hR hLS hRS
  obtain ⟨hleft, hright, hlow, hhigh, hsum⟩ := hmatches
  unfold getSum
  rw [if_pos ⟨hLS.2, hRS.2⟩, hm, map_some]
  by_cases hfits : m.LDigits + m.RDigits < 2 ^ getWidth T
  · rw [Nat.mod_eq_of_lt hfits, if_pos (Nat.le_add_left _ _)]
    exact ⟨_, rfl, hfits, hsum.symm⟩
  · have hmod : (m.LDigits + m.RDigits) % 2 ^ getWidth T =
        m.LDigits + m.RDigits - 2 ^ getWidth T := by
      rw [Nat.mod_eq_sub_mod (by omega), Nat.mod_eq_of_lt (by omega)]
    have hpow : 2 ^ getWidth T = 2 * 2 ^ (getWidth T - 1) := by
      rw [← pow_succ', Nat.sub_add_cancel (by rcases getWidth_cases T with h | h <;> omega)]
    have hdigits : 1 <<< (getWidth T - 1) |||
        (m.LDigits + m.RDigits - 2 ^ getWidth T) >>> 1 = (m.LDigits + m.RDigits) / 2 := by
      have hor := @Nat.two_pow_add_eq_or_of_lt (getWidth T - 1)
        ((m.LDigits + m.RDigits - 2 ^ getWidth T) / 2 ^ 1) (by omega) 1
      rw [Nat.mul_one] at hor
      rw [Nat.one_shiftLeft, Nat.shiftRight_eq_div_pow, ← hor]
      omega
    rw [hmod, if_neg (by omega), hdigits, toInt16_eq (by omega) (by omega)]
    refine ⟨_, rfl, by dsimp only; omega, ?_⟩
    have hhalf : (value (L, LS) + value (R, RS)) / 2 ^ (m.Scale + 1) =
        (value (L, LS) + value (R, RS)) / 2 ^ m.Scale / (2 : Nat) := by
      rw [zpow_add_one₀ (by norm_num), ← div_div]
      rfl
    rw [hhalf, floor_div_natCast, hsum]
    rfl

/-- Products and quotients are rounded to the nearest, sums are rounded down, and the order is that
of the exact values. -/
theorem arithmetic_rounded (T : DigitsT) :
    (∀ L R : Nat, L < 2 ^ getWidth T → R < 2 ^ getWidth T →
      Rounds (getWidth T) ((L : ℚ) * R) (getProduct T L R)) ∧
    (∀ L R : Nat, L < 2 ^ getWidth T → R < 2 ^ getWidth T → R ≠ 0 →
      ∃ p, getQuotient T L R = some p ∧ Rounds (getWidth T) ((L : ℚ) / R) p) ∧
    (∀ (L R : Nat) (LS RS : Int), L < 2 ^ getWidth T → R < 2 ^ getWidth T →
      (-2 ^ 15 ≤ LS ∧ LS < 2 ^ 15 - 1) → (-2 ^ 15 ≤ RS ∧ RS < 2 ^ 15 - 1) →
      ∃ p, getSum T L LS R RS = some p ∧ p.1 < 2 ^ getWidth T ∧
        (p.1 : Int) = ⌊(value (L, LS) + value (R, RS)) / 2 ^ p.2⌋) ∧
    ∀ (L R : Nat) (LS RS : Int), L < 2 ^ getWidth T → R < 2 ^ getWidth T →
      compare T L LS R RS = some (order (value (L, LS)) (value (R, RS))) :=
  ⟨fun _ _ hL hR => getProduct_spec T hL hR, fun _ _ hL hR hzero => getQuotient_spec T hL hzero hR,
    fun _ _ _ _ hL hR hLS hRS => getSum_spec T hL hR hLS hRS,
    fun _ _ LS RS hL hR => compare_eq T hL hR LS RS⟩

theorem arithmetic_rounded_example :
    Rounds 64 (((2 ^ 64 - 1 : Nat) : ℚ) * (3 : Nat)) (getProduct .uint64_t (2 ^ 64 - 1) 3) ∧
      (∃ p, getQuotient .uint32_t 1 3 = some p ∧ Rounds 32 (((1 : Nat) : ℚ) / (3 : Nat)) p) ∧
      (∃ p, getSum .uint32_t 5 3 7 (-2) = some p ∧ p.1 < 2 ^ 32 ∧
        (p.1 : Int) = ⌊(value (5, 3) + value (7, -2)) / 2 ^ p.2⌋) ∧
      compare .uint32_t 4 0 1 2 = some (order (value (4, 0)) (value (1, 2))) :=
  ⟨(arithmetic_rounded .uint64_t).1 _ 3 (by decide) (by decide),
    (arithmetic_rounded .uint32_t).2.1 1 3 (by decide) (by decide) (by decide),
    (arithmetic_rounded .uint32_t).2.2.1 5 7 3 (-2) (by decide) (by decide) (by decide) (by decide),
    (arithmetic_rounded .uint32_t).2.2.2 4 1 0 2 (by decide) (by decide)⟩

end Zapcc.ScaledNumbers
