import Zapcc.Library.Digits
import Zapcc.Library.TrialQuotient
import Zapcc.Support.APIntValue

/-!
# Knuth's long division

`KnuthDiv` on digits of 32 bits, the lowest one first. The arrays of the algorithm are lists, and
its loops run over slices of them: `u[j..j+n]` is the window in front of the loop over `j`, and the
digits below it follow, the next one first. `KnuthDiv_spec` says that the digits of the quotient and
of the remainder are right.
-/

namespace Zapcc.KnuthDivision

open Digits WrapAround List Nat

abbrev Digit := BitVec 32

def lo32 (x : BitVec 64) : Digit := x.setWidth 32

def hi32 (x : BitVec 64) : Digit := (x >>> 32).setWidth 32

def make64 (high low : Digit) : BitVec 64 := high.setWidth 64 <<< 32 ||| low.setWidth 64

def b : BitVec 64 := 1#64 <<< 32

/-- Shift digits left and put a carry below them. The bits above the digits are the carry that is
left. -/
def shiftLeft (shift : Nat) : List Digit → Digit → List Digit × Digit
  | [], carry => ([], carry)
  | u :: us, carry =>
    let tmp := u >>> (32 - shift)
    let (rest, carryOut) := shiftLeft shift us tmp
    ((u <<< shift ||| carry) :: rest, carryOut)

/-- Shift digits right, the highest one first. The bits below the digits are the carry that is
left. -/
def shiftRight (shift : Nat) : List Digit → List Digit × Digit
  | [] => ([], 0#32)
  | u :: us =>
    let (rest, carry) := shiftRight shift us
    ((u >>> shift ||| carry) :: rest, u <<< (32 - shift))

/-- Step D3: the trial digit of the quotient. -/
def trialDigit (u0 u1 u2 v1 v2 : Digit) : BitVec 64 :=
  let dividend := make64 u0 u1
  let qp := dividend / v1.setWidth 64
  let rp := dividend % v1.setWidth 64
  if qp = b ∨ b * rp + u2.setWidth 64 < qp * v2.setWidth 64 then
    let qp := qp - 1#64
    let rp := rp + v1.setWidth 64
    if rp < b ∧ (qp = b ∨ b * rp + u2.setWidth 64 < qp * v2.setWidth 64) then qp - 1#64 else qp
  else qp

/-- Step D4: multiply and subtract, with the borrow so far. -/
def multiplySubtract (qp : BitVec 64) : List Digit → List Digit → BitVec 64 → List Digit × BitVec 64
  | u :: us, v :: vs, borrow =>
    let p := qp * v.setWidth 64
    let subres := u.setWidth 64 - borrow - (lo32 p).setWidth 64
    let (rest, borrowOut) := multiplySubtract qp us vs ((hi32 p - hi32 subres).setWidth 64)
    (lo32 subres :: rest, borrowOut)
  | us, _, borrow => (us, borrow)

/-- Step D6: add back, with the carry so far. -/
def addBack : List Digit → List Digit → Bool → List Digit × Bool
  | u :: us, v :: vs, carry =>
    let limit := if v < u then v else u
    let sum := u + (v + (BitVec.ofBool carry).setWidth 32)
    let (rest, carryOut) := addBack us vs (sum < limit ∨ carry = true ∧ sum = limit)
    (sum :: rest, carryOut)
  | us, _, carry => (us, carry)

def digit (ds : List Digit) (i : Nat) : Digit := ds.getD i 0#32

/-- Steps D3 to D6 for one window: the digit of the quotient, and the window after it. -/
def divideWindow (v window : List Digit) : Digit × List Digit :=
  let n := v.length
  let qp := trialDigit (digit window n) (digit window (n - 1)) (digit window (n - 2))
    (digit v (n - 1)) (digit v (n - 2))
  let (low, borrow) := multiplySubtract qp (window.take n) v 0#64
  let isNeg := ((digit window n).setWidth 64).slt borrow
  let top := digit window n - lo32 borrow
  if isNeg then
    let (low, carry) := addBack low v false
    (lo32 qp - 1#32, low ++ [top + (BitVec.ofBool carry).setWidth 32])
  else (lo32 qp, low ++ [top])

/-- The loop over `j`: the digits of the quotient, the lowest one first, and the last window. -/
def divideDigits (v : List Digit) : List Digit → List Digit → List Digit × List Digit
  | [], window => ([(divideWindow v window).1], (divideWindow v window).2)
  | u :: below, window =>
    let (q, last) := divideDigits v below (u :: (divideWindow v window).2.take v.length)
    (q ++ [(divideWindow v window).1], last)

/-- `KnuthDiv`: the digits of the quotient and of the remainder. -/
def KnuthDiv (u v : List Digit) : List Digit × List Digit :=
  let n := v.length
  let m := u.length - n
  let shift := APInt.countLeadingZeros (digit v (n - 1))
  let (u, carry) := if shift ≠ 0 then shiftLeft shift u 0#32 else (u, 0#32)
  let (v, _) := if shift ≠ 0 then shiftLeft shift v 0#32 else (v, 0#32)
  let u := u ++ [carry]
  let (q, window) := divideDigits v (u.take m).reverse (u.drop m)
  let r := window.take n
  (q, if shift ≠ 0 then (shiftRight shift r).1 else r)

theorem toNat_lo32 (x : BitVec 64) : (lo32 x).toNat = x.toNat % 2 ^ 32 := BitVec.toNat_setWidth ..

theorem toNat_hi32 (x : BitVec 64) : (hi32 x).toNat = x.toNat / 2 ^ 32 := by
  rw [hi32, BitVec.toNat_setWidth, BitVec.toNat_ushiftRight, shiftRight_eq_div_pow]
  omega

theorem toNat_make64 (high low : Digit) :
    (make64 high low).toNat = high.toNat * 2 ^ 32 + low.toNat := by
  have hwide : (low.setWidth 64).toNat < 2 ^ 32 := by
    rw [BitVec.toNat_setWidth]
    omega
  rw [make64, BitVec.or_comm, toNat_or_shiftLeft hwide (by omega), BitVec.toNat_setWidth,
    BitVec.toNat_setWidth]
  omega

theorem pow_split {s : Nat} (hs : s ≤ 32) : 2 ^ 32 = 2 ^ (32 - s) * 2 ^ s := by
  rw [← pow_add]
  congr 1
  omega

theorem shiftLeft_digit {s : Nat} (hs : s < 32) (u : Digit) {carry : Digit}
    (hcarry : carry.toNat < 2 ^ s) :
    (u <<< s ||| carry).toNat + 2 ^ 32 * (u >>> (32 - s)).toNat = u.toNat * 2 ^ s + carry.toNat ∧
      (u >>> (32 - s)).toNat < 2 ^ s := by
  have hsplit := pow_split (Nat.le_of_lt hs)
  have hpos := Nat.two_pow_pos (32 - s)
  have hdiv := div_add_mod u.toNat (2 ^ (32 - s))
  have hmod := mod_lt u.toNat hpos
  rw [BitVec.or_comm, toNat_or_shiftLeft hcarry (Nat.le_of_lt hs), BitVec.toNat_ushiftRight,
    shiftRight_eq_div_pow]
  generalize u.toNat / 2 ^ (32 - s) = high at hdiv ⊢
  generalize u.toNat % 2 ^ (32 - s) = low at hdiv hmod
  have hlow : low * 2 ^ s + carry.toNat < 2 ^ 32 := by
    have hmul := Nat.mul_le_mul_right (2 ^ s) (succ_le_of_lt hmod)
    rw [succ_mul, ← hsplit] at hmul
    omega
  have hsum : carry.toNat + u.toNat * 2 ^ s = low * 2 ^ s + carry.toNat + 2 ^ 32 * high := by
    rw [← hdiv, hsplit]
    ring
  refine ⟨?_, ?_⟩
  · omega
  · by_contra hge
    have hmul := Nat.mul_le_mul_left (2 ^ (32 - s)) (Nat.not_lt.mp hge)
    omega

theorem shiftLeft_spec {s : Nat} (hs : s < 32) (us : List Digit) {carry : Digit}
    (hcarry : carry.toNat < 2 ^ s) :
    (shiftLeft s us carry).1.length = us.length ∧ (shiftLeft s us carry).2.toNat < 2 ^ s ∧
      value (shiftLeft s us carry).1 + (2 ^ 32) ^ us.length * (shiftLeft s us carry).2.toNat =
        value us * 2 ^ s + carry.toNat := by
  induction us generalizing carry with
  | nil =>
    refine ⟨rfl, hcarry, ?_⟩
    simp [shiftLeft, value]
  | cons u us ih =>
    obtain ⟨hdigit, hnext⟩ := shiftLeft_digit hs u hcarry
    obtain ⟨hlength, hlast, hvalue⟩ := ih hnext
    refine ⟨congrArg Nat.succ hlength, hlast, ?_⟩
    show (u <<< s ||| carry).toNat + 2 ^ 32 * value (shiftLeft s us (u >>> (32 - s))).1 +
      (2 ^ 32) ^ (us.length + 1) * (shiftLeft s us (u >>> (32 - s))).2.toNat =
        (u.toNat + 2 ^ 32 * value us) * 2 ^ s + carry.toNat
    have hpow : ((2 ^ 32) ^ (us.length + 1) : Nat) = 2 ^ 32 * (2 ^ 32) ^ us.length :=
      Nat.pow_succ'
    rw [hpow]
    linarith

theorem shiftRight_digit {s : Nat} (hs : s < 32) (u : Digit) {carry : Digit} {high : Nat}
    (hcarry : carry.toNat = high % 2 ^ s * 2 ^ (32 - s)) :
    (u >>> s ||| carry).toNat + 2 ^ 32 * (high / 2 ^ s) = (u.toNat + 2 ^ 32 * high) / 2 ^ s ∧
      (u <<< (32 - s)).toNat = (u.toNat + 2 ^ 32 * high) % 2 ^ s * 2 ^ (32 - s) := by
  have hsplit := pow_split (Nat.le_of_lt hs)
  have hpos := Nat.two_pow_pos s
  have hu := u.isLt
  have hdiv := div_add_mod high (2 ^ s)
  have hshift : u.toNat / 2 ^ s < 2 ^ (32 - s) := by
    refine Nat.div_lt_of_lt_mul ?_
    rw [Nat.mul_comm, ← hsplit]
    exact hu
  have hwhole : u.toNat + 2 ^ 32 * high = u.toNat + 2 ^ s * (2 ^ (32 - s) * high) := by
    rw [hsplit]
    ring
  refine ⟨?_, ?_⟩
  · rw [BitVec.or_comm, BitVec.toNat_or, hcarry, BitVec.toNat_ushiftRight,
      shiftRight_eq_div_pow, Nat.mul_comm _ (2 ^ (32 - s)),
      ← two_pow_add_eq_or_of_lt hshift, hwhole, add_mul_div_left _ _ hpos]
    have hhigh : 2 ^ (32 - s) * high = 2 ^ (32 - s) * (high % 2 ^ s) + 2 ^ 32 * (high / 2 ^ s) := by
      rw [hsplit, Nat.mul_assoc, ← Nat.mul_add]
      congr 1
      omega
    omega
  · rw [hwhole, add_mul_mod_self_left, BitVec.toNat_shiftLeft, shiftLeft_eq, hsplit,
      Nat.mul_comm (2 ^ (32 - s)), mul_mod_mul_right]

theorem shiftRight_spec {s : Nat} (hs : s < 32) (us : List Digit) :
    (shiftRight s us).1.length = us.length ∧
      (shiftRight s us).2.toNat = value us % 2 ^ s * 2 ^ (32 - s) ∧
      value (shiftRight s us).1 = value us / 2 ^ s := by
  induction us with
  | nil =>
    refine ⟨rfl, ?_, ?_⟩
    · rw [value, zero_mod, Nat.zero_mul]
      rfl
    · rw [value, Nat.zero_div]
      rfl
  | cons u us ih =>
    obtain ⟨hlength, hcarry, hvalue⟩ := ih
    obtain ⟨hdigit, hout⟩ := shiftRight_digit hs u hcarry
    refine ⟨congrArg Nat.succ hlength, hout, ?_⟩
    show (u >>> s ||| (shiftRight s us).2).toNat + 2 ^ 32 * value (shiftRight s us).1 = _
    rw [hvalue]
    exact hdigit

theorem toNat_b : b.toNat = 2 ^ 32 := rfl

theorem toNat_zext (x : Digit) : (x.setWidth 64).toNat = x.toNat := by
  rw [BitVec.toNat_setWidth]
  omega

theorem tooLarge_iff {qp rp : BitVec 64} {u2 v2 : Digit} (hq : qp.toNat ≤ 2 ^ 32 + 1)
    (hr : rp.toNat < 2 ^ 32) :
    (qp = b ∨ b * rp + u2.setWidth 64 < qp * v2.setWidth 64) ↔
      TrialQuotient.tooLarge (2 ^ 32) u2.toNat v2.toNat qp.toNat rp.toNat := by
  have hmul : qp.toNat * v2.toNat ≤ (2 ^ 32 + 1) * (2 ^ 32 - 1) := Nat.mul_le_mul hq (by omega)
  rw [TrialQuotient.tooLarge, ← BitVec.toNat_inj, BitVec.lt_def, BitVec.toNat_add,
    BitVec.toNat_mul, BitVec.toNat_mul, toNat_zext, toNat_zext, toNat_b,
    mod_eq_of_lt (a := qp.toNat * v2.toNat) (by omega)]
  omega

theorem toNat_trialDigit {u0 u1 u2 v1 v2 : Digit} (hnormal : 2 ^ 31 ≤ v1.toNat)
    (hsmall : (u0.toNat * 2 ^ 32 + u1.toNat) * 2 ^ 32 + u2.toNat <
      (v1.toNat * 2 ^ 32 + v2.toNat + 1) * 2 ^ 32) :
    (trialDigit u0 u1 u2 v1 v2).toNat =
      TrialQuotient.trialQuotient (2 ^ 32) u0.toNat u1.toNat u2.toNat v1.toNat v2.toNat := by
  have hguess := (TrialQuotient.guess_le v2.isLt (by omega) hsmall).1
  have hv1 := v1.isLt
  have hmod := mod_lt (u0.toNat * 2 ^ 32 + u1.toNat) (show 0 < v1.toNat by omega)
  have hq : (make64 u0 u1 / v1.setWidth 64).toNat = (u0.toNat * 2 ^ 32 + u1.toNat) / v1.toNat := by
    rw [BitVec.toNat_udiv, toNat_make64, toNat_zext]
  have hr : (make64 u0 u1 % v1.setWidth 64).toNat = (u0.toNat * 2 ^ 32 + u1.toNat) % v1.toNat := by
    rw [BitVec.toNat_umod, toNat_make64, toNat_zext]
  have hsum : (make64 u0 u1 % v1.setWidth 64 + v1.setWidth 64).toNat =
      (u0.toNat * 2 ^ 32 + u1.toNat) % v1.toNat + v1.toNat := by
    rw [BitVec.toNat_add, hr, toNat_zext, mod_eq_of_lt (by omega)]
  unfold trialDigit TrialQuotient.trialQuotient
  dsimp only
  rw [← hq] at hguess ⊢
  rw [← hr] at hmod hsum ⊢
  generalize make64 u0 u1 / v1.setWidth 64 = qp at hguess ⊢
  generalize make64 u0 u1 % v1.setWidth 64 = rp at hmod hsum ⊢
  have htest : (qp = b ∨ b * rp + u2.setWidth 64 < qp * v2.setWidth 64) ↔
      TrialQuotient.tooLarge (2 ^ 32) u2.toNat v2.toNat qp.toNat rp.toNat :=
    tooLarge_iff hguess (Nat.lt_trans hmod hv1)
  by_cases hlarge : TrialQuotient.tooLarge (2 ^ 32) u2.toNat v2.toNat qp.toNat rp.toNat
  · have hpos := TrialQuotient.pos_of_tooLarge (by omega) hlarge
    have hpred : (qp - 1#64).toNat = qp.toNat - 1 := by bv_omega
    have hagain : (rp + v1.setWidth 64 < b ∧ (qp - 1#64 = b ∨
          b * (rp + v1.setWidth 64) + u2.setWidth 64 < (qp - 1#64) * v2.setWidth 64)) ↔
        (rp.toNat + v1.toNat < 2 ^ 32 ∧ TrialQuotient.tooLarge (2 ^ 32) u2.toNat v2.toNat
          (qp.toNat - 1) (rp.toNat + v1.toNat)) := by
      rw [BitVec.lt_def, hsum, toNat_b]
      refine and_congr_right fun hlt => ?_
      rw [tooLarge_iff (by omega) (by omega), hpred, hsum]
    rw [if_pos (htest.mpr hlarge), if_pos hlarge]
    by_cases hsecond : rp.toNat + v1.toNat < 2 ^ 32 ∧ TrialQuotient.tooLarge (2 ^ 32) u2.toNat
        v2.toNat (qp.toNat - 1) (rp.toNat + v1.toNat)
    · have hpos' := TrialQuotient.pos_of_tooLarge (by omega) hsecond.2
      rw [if_pos (hagain.mpr hsecond), if_pos hsecond]
      bv_omega
    · rw [if_neg fun h => hsecond (hagain.mp h), if_neg hsecond, hpred]
  · rw [if_neg fun h => hlarge (htest.mp h), if_neg hlarge]

theorem multiplySubtract_digit {qp borrow : BitVec 64} (hqp : qp.toNat < 2 ^ 32)
    (hborrow : borrow.toNat < 2 ^ 32) (u v : Digit) :
    let p := qp * v.setWidth 64
    let subres := u.setWidth 64 - borrow - (lo32 p).setWidth 64
    (hi32 p - hi32 subres).toNat < 2 ^ 32 ∧
      (lo32 subres).toNat + qp.toNat * v.toNat + borrow.toNat =
        u.toNat + 2 ^ 32 * (hi32 p - hi32 subres).toNat := by
  have hmul : qp.toNat * v.toNat ≤ (2 ^ 32 - 1) * (2 ^ 32 - 1) :=
    Nat.mul_le_mul (by omega) (by omega)
  have hp : (qp * v.setWidth 64).toNat = qp.toNat * v.toNat := by
    rw [BitVec.toNat_mul, toNat_zext, mod_eq_of_lt (by omega)]
  refine ⟨BitVec.isLt _, ?_⟩
  rw [BitVec.toNat_sub, toNat_hi32, toNat_hi32, toNat_lo32, BitVec.toNat_sub, BitVec.toNat_sub,
    toNat_zext, toNat_zext, toNat_lo32, hp]
  omega

theorem multiplySubtract_spec {qp : BitVec 64} (hqp : qp.toNat < 2 ^ 32) (us vs : List Digit)
    (hlength : us.length = vs.length) {borrow : BitVec 64} (hborrow : borrow.toNat < 2 ^ 32) :
    (multiplySubtract qp us vs borrow).1.length = us.length ∧
      (multiplySubtract qp us vs borrow).2.toNat < 2 ^ 32 ∧
      value (multiplySubtract qp us vs borrow).1 + qp.toNat * value vs + borrow.toNat =
        value us + (2 ^ 32) ^ us.length * (multiplySubtract qp us vs borrow).2.toNat := by
  induction us generalizing vs borrow with
  | nil =>
    have hnil : vs = [] := eq_nil_of_length_eq_zero hlength.symm
    subst hnil
    refine ⟨rfl, hborrow, ?_⟩
    simp [multiplySubtract, value]
  | cons u us ih =>
    cases vs with
    | nil => exact absurd hlength (succ_ne_zero _)
    | cons v vs =>
      obtain ⟨hlt, hdigit⟩ := multiplySubtract_digit hqp hborrow u v
      have hnext := hlt
      rw [← toNat_zext] at hnext
      obtain ⟨hlen, hlast, hvalue⟩ := ih vs (Nat.succ.inj hlength) hnext
      rw [toNat_zext] at hvalue
      have hpow : ((2 ^ 32) ^ (us.length + 1) : Nat) = 2 ^ 32 * (2 ^ 32) ^ us.length :=
        Nat.pow_succ'
      refine ⟨congrArg Nat.succ hlen, hlast, ?_⟩
      simp only [multiplySubtract, value, length_cons]
      rw [hpow]
      linarith

theorem addBack_digit (u v : Digit) (carry : Bool) :
    let limit := if v < u then v else u
    let sum := u + (v + (BitVec.ofBool carry).setWidth 32)
    sum.toNat + 2 ^ 32 * (decide (sum < limit ∨ carry = true ∧ sum = limit)).toNat =
      u.toNat + v.toNat + carry.toNat := by
  have hlimit : (if v < u then v else u).toNat = min u.toNat v.toNat := by
    split_ifs <;> bv_omega
  have hbool : ((BitVec.ofBool carry).setWidth 32).toNat = carry.toNat := by
    cases carry <;> rfl
  have hsum : (u + (v + (BitVec.ofBool carry).setWidth 32)).toNat =
      (u.toNat + v.toNat + carry.toNat) % 2 ^ 32 := by
    rw [BitVec.toNat_add, BitVec.toNat_add, hbool]
    omega
  have hover : (u + (v + (BitVec.ofBool carry).setWidth 32) < (if v < u then v else u) ∨
        carry = true ∧ u + (v + (BitVec.ofBool carry).setWidth 32) = if v < u then v else u) ↔
      2 ^ 32 ≤ u.toNat + v.toNat + carry.toNat := by
    rw [← BitVec.toNat_inj, BitVec.lt_def, hlimit, hsum]
    cases carry with
    | false =>
      simp only [Bool.toNat_false, Bool.false_eq_true, false_and, or_false]
      omega
    | true =>
      simp only [Bool.toNat_true, true_and]
      omega
  have hc := Bool.toNat_le carry
  dsimp only
  by_cases h : 2 ^ 32 ≤ u.toNat + v.toNat + carry.toNat
  · rw [decide_eq_true (hover.mpr h), Bool.toNat_true, hsum]
    omega
  · rw [decide_eq_false fun hlimit => h (hover.mp hlimit), Bool.toNat_false, hsum]
    omega

theorem addBack_spec (us vs : List Digit) (hlength : us.length = vs.length) (carry : Bool) :
    (addBack us vs carry).1.length = us.length ∧
      value (addBack us vs carry).1 + (2 ^ 32) ^ us.length * (addBack us vs carry).2.toNat =
        value us + value vs + carry.toNat := by
  induction us generalizing vs carry with
  | nil =>
    have hnil : vs = [] := eq_nil_of_length_eq_zero hlength.symm
    subst hnil
    simp [addBack, value]
  | cons u us ih =>
    cases vs with
    | nil => exact absurd hlength (succ_ne_zero _)
    | cons v vs =>
      have hdigit := addBack_digit u v carry
      obtain ⟨hlen, hvalue⟩ := ih vs (Nat.succ.inj hlength) (decide
        (u + (v + (BitVec.ofBool carry).setWidth 32) < (if v < u then v else u) ∨
          carry = true ∧ u + (v + (BitVec.ofBool carry).setWidth 32) = if v < u then v else u))
      have hpow : ((2 ^ 32) ^ (us.length + 1) : Nat) = 2 ^ 32 * (2 ^ 32) ^ us.length :=
        Nat.pow_succ'
      refine ⟨congrArg Nat.succ hlen, ?_⟩
      simp only [addBack, value, length_cons]
      rw [hpow]
      linarith

theorem digit_append_right (ds es : List Digit) (i : Nat) :
    digit (ds ++ es) (ds.length + i) = digit es i := by
  rw [digit, digit, getD_eq_getElem?_getD, getD_eq_getElem?_getD,
    getElem?_append_right (by omega), Nat.add_sub_cancel_left]

theorem exists_top_two {ds : List Digit} {k : Nat} (h : ds.length = k + 2) :
    ∃ low a c, ds = low ++ [a, c] ∧ low.length = k := by
  have htop : (ds.drop k).length = 2 := by
    rw [length_drop]
    omega
  obtain ⟨a, c, hac⟩ := List.length_eq_two.mp htop
  refine ⟨ds.take k, a, c, ?_, ?_⟩
  · rw [← hac, take_append_drop]
  · rw [length_take]
    omega

theorem exists_top_three {ds : List Digit} {k : Nat} (h : ds.length = k + 3) :
    ∃ low a c d, ds = low ++ [a, c, d] ∧ low.length = k := by
  have htop : (ds.drop k).length = 3 := by
    rw [length_drop]
    omega
  obtain ⟨a, c, d, hacd⟩ := List.length_eq_three.mp htop
  refine ⟨ds.take k, a, c, d, ?_, ?_⟩
  · rw [← hacd, take_append_drop]
  · rw [length_take]
    omega

theorem value_append_div (low high : List Digit) :
    value (low ++ high) / (2 ^ 32) ^ low.length = value high := by
  rw [value_append, add_mul_div_left _ _ (Nat.pow_pos (by omega)),
    div_eq_of_lt (value_lt low), Nat.zero_add]

/-- A normalized divisor of at least two digits, and a dividend that has one digit more and is small
enough for a quotient of one digit. -/
structure Window (v window : List Digit) : Prop where
  divisor : 2 ≤ v.length
  normal : 2 ^ 31 ≤ (digit v (v.length - 1)).toNat
  length : window.length = v.length + 1
  small : value window < value v * 2 ^ 32

variable {v window : List Digit}

theorem trialDigit_spec (h : Window v window) :
    (trialDigit (digit window v.length) (digit window (v.length - 1))
        (digit window (v.length - 2)) (digit v (v.length - 1)) (digit v (v.length - 2))).toNat <
          2 ^ 32 ∧
      value window / value v ≤ (trialDigit (digit window v.length) (digit window (v.length - 1))
          (digit window (v.length - 2)) (digit v (v.length - 1)) (digit v (v.length - 2))).toNat ∧
      (trialDigit (digit window v.length) (digit window (v.length - 1))
          (digit window (v.length - 2)) (digit v (v.length - 1)) (digit v (v.length - 2))).toNat ≤
        value window / value v + 1 := by
  obtain ⟨k, hk⟩ : ∃ k, v.length = k + 2 := ⟨v.length - 2, by have := h.divisor; omega⟩
  obtain ⟨vlow, v2, v1, hv, hvlow⟩ := exists_top_two hk
  obtain ⟨wlow, u2, u1, u0, hw, hwlow⟩ :=
    exists_top_three (show window.length = k + 3 by rw [h.length, hk])
  have hv1 : digit v (v.length - 1) = v1 := by
    rw [hk, hv, ← hvlow]
    exact digit_append_right vlow [v2, v1] 1
  have hv2 : digit v (v.length - 2) = v2 := by
    rw [hk, hv, ← hvlow]
    exact digit_append_right vlow [v2, v1] 0
  have hu0 : digit window v.length = u0 := by
    rw [hk, hw, ← hwlow]
    exact digit_append_right wlow [u2, u1, u0] 2
  have hu1 : digit window (v.length - 1) = u1 := by
    rw [hk, hw, ← hwlow]
    exact digit_append_right wlow [u2, u1, u0] 1
  have hu2 : digit window (v.length - 2) = u2 := by
    rw [hk, hw, ← hwlow]
    exact digit_append_right wlow [u2, u1, u0] 0
  have hnormal := h.normal
  have hsmall := h.small
  rw [hv1] at hnormal
  rw [hv1, hv2, hu0, hu1, hu2]
  -- the digits above the `k` lowest ones
  have hV : value v / (2 ^ 32) ^ k = v1.toNat * 2 ^ 32 + v2.toNat := by
    rw [hv, ← hvlow, value_append_div]
    simp only [value]
    omega
  have hU : value window / (2 ^ 32) ^ k = (u0.toNat * 2 ^ 32 + u1.toNat) * 2 ^ 32 + u2.toNat := by
    rw [hw, ← hwlow, value_append_div]
    simp only [value]
    omega
  have hpos : 0 < (2 ^ 32) ^ k := Nat.pow_pos (by omega)
  have htop : (u0.toNat * 2 ^ 32 + u1.toNat) * 2 ^ 32 + u2.toNat <
      (v1.toNat * 2 ^ 32 + v2.toNat + 1) * 2 ^ 32 := by
    rw [← hU, ← hV, Nat.div_lt_iff_lt_mul hpos]
    have hv' := lt_mul_of_div_lt (lt_succ_self (value v / (2 ^ 32) ^ k)) hpos
    calc value window < value v * 2 ^ 32 := hsmall
      _ ≤ (value v / (2 ^ 32) ^ k + 1) * (2 ^ 32) ^ k * 2 ^ 32 :=
          Nat.mul_le_mul_right _ (Nat.le_of_lt hv')
      _ = (value v / (2 ^ 32) ^ k + 1) * 2 ^ 32 * (2 ^ 32) ^ k := by ring
  have htrial := toNat_trialDigit hnormal htop
  have hspec := TrialQuotient.trialQuotient_spec u2.isLt v2.isLt (by omega) htop
  rw [← htrial] at hspec
  refine ⟨hspec.1, ?_⟩
  exact TrialQuotient.quotient_le_trial hpos (by omega) hU hV hsmall hspec.1 hspec.2.1 hspec.2.2

theorem value_append_singleton (low : List Digit) (top : Digit) :
    value (low ++ [top]) = value low + (2 ^ 32) ^ low.length * top.toNat := by
  rw [value_append, value, value, Nat.mul_zero, Nat.add_zero]

theorem value_window (hlength : window.length = v.length + 1) :
    (window.take v.length).length = v.length ∧ value window = value (window.take v.length) +
        (2 ^ 32) ^ v.length * (digit window v.length).toNat := by
  have htop : (window.drop v.length).length = 1 := by
    rw [length_drop]
    omega
  obtain ⟨a, ha⟩ := List.length_eq_one_iff.mp htop
  have hlow : (window.take v.length).length = v.length := by
    rw [length_take]
    omega
  have hsplit : window = window.take v.length ++ [a] := by rw [← ha, take_append_drop]
  have hdigit : digit window v.length = a := by
    have happend := digit_append_right (window.take v.length) [a] 0
    rw [← hsplit, hlow] at happend
    exact happend
  refine ⟨hlow, ?_⟩
  have hvalue := value_append_singleton (window.take v.length) a
  rw [← hsplit, hlow] at hvalue
  rw [hdigit, hvalue]

theorem toNat_add_ofBool (x : Digit) (c : Bool) :
    (x + (BitVec.ofBool c).setWidth 32).toNat = (x.toNat + c.toNat) % 2 ^ 32 := by
  cases c <;> rfl

theorem divideWindow_spec (h : Window v window) :
    (divideWindow v window).1.toNat = value window / value v ∧
      (divideWindow v window).2.length = v.length + 1 ∧
      value (divideWindow v window).2 = value window % value v := by
  obtain ⟨hqp, hle, hge⟩ := trialDigit_spec h
  obtain ⟨hlow, hwindow⟩ := value_window h.length
  have hsmall := h.small
  have hV : 0 < value v := by omega
  unfold divideWindow
  dsimp only
  generalize trialDigit (digit window v.length) (digit window (v.length - 1))
    (digit window (v.length - 2)) (digit v (v.length - 1)) (digit v (v.length - 2)) = qp
    at hqp hle hge ⊢
  have hspec := @multiplySubtract_spec qp hqp (window.take v.length) v hlow 0#64 (by decide)
  generalize multiplySubtract qp (window.take v.length) v 0#64 = result at hspec ⊢
  obtain ⟨low, borrow⟩ := result
  obtain ⟨hlength, hborrow, hsub⟩ := hspec
  dsimp only at hlength hborrow hsub ⊢
  rw [BitVec.toNat_zero, Nat.add_zero, hlow] at hsub
  rw [hlow] at hlength
  have hq := toNat_lo32 qp
  have hb := toNat_lo32 borrow
  rw [mod_eq_of_lt hqp] at hq
  have hu0 := (digit window v.length).isLt
  have hneg : ((digit window v.length).setWidth 64).slt borrow =
      decide ((digit window v.length).toNat < borrow.toNat) := by
    rw [BitVec.slt_eq_decide, BitVec.toInt_eq_toNat_of_lt (by rw [toNat_zext]; omega),
      BitVec.toInt_eq_toNat_of_lt (by omega), toNat_zext]
    simp
  rw [hneg]
  generalize digit window v.length = u0 at hwindow hu0 ⊢
  have hlowLt := value_lt low
  rw [hlength] at hlowLt
  by_cases hlt : u0.toNat < borrow.toNat
  · rw [if_pos (decide_eq_true hlt)]
    obtain ⟨hlength', hadd⟩ := addBack_spec low v hlength false
    generalize addBack low v false = result at hlength' hadd ⊢
    obtain ⟨low', carry⟩ := result
    rw [Bool.toNat_false, Nat.add_zero, hlength] at hadd
    rw [hlength] at hlength'
    have hlowLt' := value_lt low'
    rw [hlength'] at hlowLt'
    obtain ⟨hdigit, htop, hrem⟩ := TrialQuotient.correct_digit hV hge hlt hlowLt
      (by rw [hwindow]; omega) hlowLt' (Bool.toNat_le carry) hadd
    refine ⟨?_, ?_, ?_⟩
    · rw [BitVec.toNat_sub, hq, BitVec.toNat_one (by decide), hdigit]
      rw [hdigit] at hqp
      generalize value window / value v = d at hqp ⊢
      omega
    · rw [length_append, hlength', length_singleton]
    · have hzero : (u0 - lo32 borrow + (BitVec.ofBool carry).setWidth 32).toNat = 0 := by
        rw [toNat_add_ofBool, BitVec.toNat_sub, hb]
        omega
      rw [value_append_singleton, hzero, Nat.mul_zero, Nat.add_zero, hrem]
  · have hdone : ¬decide (u0.toNat < borrow.toNat) = true := by
      rw [decide_eq_true_eq]
      exact hlt
    rw [if_neg hdone]
    obtain ⟨hdigit, hrem⟩ := TrialQuotient.exact_digit hV hle (Nat.not_lt.mp hlt)
      (show value low + qp.toNat * value v + (2 ^ 32) ^ v.length * u0.toNat =
        value window + (2 ^ 32) ^ v.length * borrow.toNat by rw [hwindow]; omega)
    refine ⟨hq.trans hdigit, ?_, ?_⟩
    · rw [length_append, hlength, length_singleton]
    · have htop : (u0 - lo32 borrow).toNat = u0.toNat - borrow.toNat := by
        rw [BitVec.toNat_sub, hb]
        omega
      rw [value_append_singleton, htop, hlength, hrem]

theorem Window.next (h : Window v window) (u : Digit) :
    Window v (u :: (divideWindow v window).2.take v.length) ∧
      value (u :: (divideWindow v window).2.take v.length) =
        u.toNat + 2 ^ 32 * (value window % value v) := by
  obtain ⟨-, hlength, hvalue⟩ := divideWindow_spec h
  have hsmall := h.small
  have hmod := mod_lt (value window) (show 0 < value v by omega)
  have hnext : value (u :: (divideWindow v window).2.take v.length) =
      u.toNat + 2 ^ 32 * (value window % value v) := by
    rw [value, value_take, hvalue, mod_eq_of_lt (Nat.lt_trans hmod (value_lt v))]
  refine ⟨⟨h.divisor, h.normal, ?_, ?_⟩, hnext⟩
  · rw [length_cons, length_take]
    omega
  · omega

theorem divideDigits_spec {v : List Digit} (below : List Digit) {window : List Digit}
    (h : Window v window) :
    (divideDigits v below window).1.length = below.length + 1 ∧
      (divideDigits v below window).2.length = v.length + 1 ∧
      value (divideDigits v below window).2 < value v ∧
      value (divideDigits v below window).1 * value v + value (divideDigits v below window).2 =
        value (below.reverse ++ window) := by
  induction below generalizing window with
  | nil =>
    obtain ⟨hdigit, hlength, hvalue⟩ := divideWindow_spec h
    have hsmall := h.small
    refine ⟨rfl, hlength, ?_, ?_⟩
    · show value (divideWindow v window).2 < value v
      rw [hvalue]
      exact mod_lt _ (by omega)
    · show ((divideWindow v window).1.toNat + 2 ^ 32 * 0) * value v +
        value (divideWindow v window).2 = value window
      rw [hdigit, hvalue, Nat.mul_zero, Nat.add_zero]
      exact div_add_mod' _ _
  | cons u below ih =>
    obtain ⟨hdigit, -, -⟩ := divideWindow_spec h
    obtain ⟨hnext, hvalue⟩ := h.next u
    obtain ⟨hlength, hlast, hlt, hsum⟩ := ih hnext
    refine ⟨?_, hlast, hlt, ?_⟩
    · rw [divideDigits, length_append, hlength]
      rfl
    · have hpow : ((2 ^ 32) ^ (below.length + 1) : Nat) = 2 ^ 32 * (2 ^ 32) ^ below.length :=
        Nat.pow_succ'
      rw [value_append, length_reverse, hvalue] at hsum
      simp only [divideDigits]
      rw [value_append_singleton, hlength, hdigit, reverse_cons, append_assoc,
        value_append, length_reverse, singleton_append, value, hpow]
      exact TrialQuotient.longDivision_step (div_add_mod' _ _) hsum

theorem shiftLeft_zero (us : List Digit) : shiftLeft 0 us 0#32 = (us, 0#32) := by
  induction us with
  | nil => rfl
  | cons u us ih =>
    have hhigh : u >>> (32 - 0) = 0#32 := by
      refine BitVec.eq_of_toNat_eq ?_
      rw [BitVec.toNat_ushiftRight, shiftRight_eq_div_pow, BitVec.toNat_zero]
      omega
    rw [shiftLeft, hhigh, ih, BitVec.shiftLeft_zero, BitVec.or_zero]

theorem shiftRight_zero (us : List Digit) : shiftRight 0 us = (us, 0#32) := by
  induction us with
  | nil => rfl
  | cons u us ih =>
    have hlow : u <<< (32 - 0) = 0#32 := BitVec.shiftLeft_eq_zero (Nat.le_refl _)
    rw [shiftRight, ih, hlow]
    show ((u >>> 0 ||| 0#32) :: us, 0#32) = (u :: us, 0#32)
    rw [BitVec.ushiftRight_zero, BitVec.or_zero]

theorem shiftLeft_eq_ite (shift : Nat) (us : List Digit) :
    (if shift ≠ 0 then shiftLeft shift us 0#32 else (us, 0#32)) = shiftLeft shift us 0#32 := by
  split_ifs with hzero
  · rfl
  · rw [not_not.mp hzero, shiftLeft_zero]

theorem shiftRight_eq_ite (shift : Nat) (us : List Digit) :
    (if shift ≠ 0 then (shiftRight shift us).1 else us) = (shiftRight shift us).1 := by
  split_ifs with hzero
  · rfl
  · rw [not_not.mp hzero, shiftRight_zero]

theorem toNat_digit_pred {v : List Digit} (h : 0 < v.length) :
    (digit v (v.length - 1)).toNat = value v / (2 ^ 32) ^ (v.length - 1) := by
  have htop : (v.drop (v.length - 1)).length = 1 := by
    rw [length_drop]
    omega
  obtain ⟨a, ha⟩ := List.length_eq_one_iff.mp htop
  have hlow : (v.take (v.length - 1)).length = v.length - 1 := by
    rw [length_take]
    omega
  have hdigit : digit v (v.length - 1) = a := by
    have happend := digit_append_right (v.take (v.length - 1)) [a] 0
    rw [← ha, take_append_drop, hlow, ha] at happend
    exact happend
  rw [hdigit, ← value_drop (sub_le _ _), ha]
  rfl

theorem normalize_divisor {v : List Digit} (hn : 2 ≤ v.length)
    (htop : digit v (v.length - 1) ≠ 0#32) :
    let shift := APInt.countLeadingZeros (digit v (v.length - 1))
    shift < 32 ∧ (shiftLeft shift v 0#32).1.length = v.length ∧
      value (shiftLeft shift v 0#32).1 = value v * 2 ^ shift ∧
      2 ^ 31 ≤ (digit (shiftLeft shift v 0#32).1 (v.length - 1)).toNat := by
  have hpos : 0 < (digit v (v.length - 1)).toNat := by
    refine Nat.pos_of_ne_zero fun hzero => htop ?_
    exact BitVec.eq_of_toNat_eq hzero
  obtain ⟨hshift, hlow, hhigh⟩ := APInt.countLeadingZeros_spec hpos
  have hdigit := toNat_digit_pred (show 0 < v.length by omega)
  generalize APInt.countLeadingZeros (digit v (v.length - 1)) = shift at hshift hlow hhigh ⊢
  obtain ⟨hlength, hcarry, hvalue⟩ :=
    @shiftLeft_spec shift hshift v 0#32 (Nat.two_pow_pos shift)
  rw [BitVec.toNat_zero, Nat.add_zero] at hvalue
  have hbase : 0 < (2 ^ 32) ^ (v.length - 1) := Nat.pow_pos (by omega)
  have hpow : ((2 ^ 32) ^ v.length : Nat) = (2 ^ 32) ^ (v.length - 1) * 2 ^ 32 := by
    rw [← pow_succ]
    congr 1
    omega
  have hdiv := div_add_mod (value v) ((2 ^ 32) ^ (v.length - 1))
  have hmod := mod_lt (value v) hbase
  rw [← hdigit] at hdiv
  generalize (digit v (v.length - 1)).toNat = top at hlow hhigh hdiv
  -- nothing is shifted out
  have hfit : value v * 2 ^ shift < (2 ^ 32) ^ v.length := by
    calc value v * 2 ^ shift < (2 ^ 32) ^ (v.length - 1) * (top + 1) * 2 ^ shift := by
          refine Nat.mul_lt_mul_of_pos_right ?_ (Nat.two_pow_pos shift)
          rw [mul_succ]
          omega
      _ = (2 ^ 32) ^ (v.length - 1) * ((top + 1) * 2 ^ shift) := Nat.mul_assoc _ _ _
      _ ≤ (2 ^ 32) ^ (v.length - 1) * 2 ^ 32 := Nat.mul_le_mul_left _ hhigh
      _ = (2 ^ 32) ^ v.length := hpow.symm
  have hzero : (shiftLeft shift v 0#32).2.toNat = 0 := by
    refine Nat.eq_zero_of_not_pos fun hgt => ?_
    have hmul := Nat.le_mul_of_pos_right ((2 ^ 32) ^ v.length) hgt
    omega
  rw [hzero, Nat.mul_zero, Nat.add_zero] at hvalue
  refine ⟨hshift, hlength, hvalue, ?_⟩
  have htop' := @toNat_digit_pred (shiftLeft shift v 0#32).1 (by omega)
  rw [hlength] at htop'
  rw [htop', hvalue, Nat.le_div_iff_mul_le hbase]
  calc 2 ^ 31 * (2 ^ 32) ^ (v.length - 1) ≤ top * 2 ^ shift * (2 ^ 32) ^ (v.length - 1) :=
        Nat.mul_le_mul_right _ hlow
    _ = (2 ^ 32) ^ (v.length - 1) * top * 2 ^ shift := by ring
    _ ≤ value v * 2 ^ shift := Nat.mul_le_mul_right _ (Nat.le.intro hdiv)

theorem firstWindow {shift : Nat} (hshift : shift < 32) {u v : List Digit} {carry : Digit}
    (hn : 2 ≤ v.length) (hnormal : 2 ^ 31 ≤ (digit v (v.length - 1)).toNat)
    (hlength : v.length ≤ u.length) (hcarry : carry.toNat < 2 ^ shift) :
    Window v ((u ++ [carry]).drop (u.length - v.length)) := by
  have hlow := value_lt u
  have hsum : ((2 ^ 32) ^ u.length : Nat) =
      (2 ^ 32) ^ v.length * (2 ^ 32) ^ (u.length - v.length) := by
    rw [← pow_add, add_sub_of_le hlength]
  have hpow : ((2 ^ 32) ^ v.length : Nat) = (2 ^ 32) ^ (v.length - 1) * 2 ^ 32 := by
    rw [← pow_succ, Nat.sub_add_cancel (by omega)]
  have hdivisor : 2 ^ 31 * (2 ^ 32) ^ v.length ≤ value v * 2 ^ 32 := by
    rw [toNat_digit_pred (by omega), Nat.le_div_iff_mul_le (Nat.pow_pos (by omega))] at hnormal
    rw [hpow, ← Nat.mul_assoc]
    exact Nat.mul_le_mul_right _ hnormal
  refine ⟨hn, hnormal, ?_, ?_⟩
  · rw [length_drop, length_append, length_singleton]
    omega
  · have hle : u.length - v.length ≤ (u ++ [carry]).length := by
      rw [length_append]
      omega
    have hpower : 2 ^ shift ≤ 2 ^ 31 := Nat.pow_le_pow_right (by decide) (by omega)
    refine Nat.lt_of_lt_of_le ?_ hdivisor
    rw [value_drop hle, Nat.div_lt_iff_lt_mul (Nat.pow_pos (by omega)), value_append_singleton,
      Nat.mul_assoc, ← hsum]
    calc value u + (2 ^ 32) ^ u.length * carry.toNat
        < (2 ^ 32) ^ u.length * (carry.toNat + 1) := by
          rw [mul_succ]
          omega
      _ ≤ (2 ^ 32) ^ u.length * 2 ^ 31 := Nat.mul_le_mul_left _ (by omega)
      _ = 2 ^ 31 * (2 ^ 32) ^ u.length := Nat.mul_comm _ _

theorem KnuthDiv_spec {u v : List Digit} (hn : 2 ≤ v.length)
    (htop : digit v (v.length - 1) ≠ 0#32) (hlength : v.length ≤ u.length) :
    (KnuthDiv u v).1.length = u.length - v.length + 1 ∧ (KnuthDiv u v).2.length = v.length ∧
      value (KnuthDiv u v).1 = value u / value v ∧
      value (KnuthDiv u v).2 = value u % value v := by
  obtain ⟨hshift, hvlength, hvvalue, hnormal⟩ := normalize_divisor hn htop
  unfold KnuthDiv
  dsimp only
  rw [shiftLeft_eq_ite, shiftLeft_eq_ite, shiftRight_eq_ite]
  generalize APInt.countLeadingZeros (digit v (v.length - 1)) = shift
    at hshift hvlength hvvalue hnormal ⊢
  obtain ⟨hulength, hcarry, huvalue⟩ :=
    @shiftLeft_spec shift hshift u 0#32 (Nat.two_pow_pos shift)
  rw [BitVec.toNat_zero, Nat.add_zero] at huvalue
  generalize (shiftLeft shift v 0#32).1 = v' at hvlength hvvalue hnormal ⊢
  generalize (shiftLeft shift u 0#32).1 = u' at hulength huvalue ⊢
  generalize (shiftLeft shift u 0#32).2 = carry at hcarry huvalue ⊢
  have hm : ((u' ++ [carry]).take (u.length - v.length)).reverse.length = u.length - v.length := by
    rw [length_reverse, length_take, length_append, hulength, length_singleton]
    omega
  have hwindow : Window v' ((u' ++ [carry]).drop (u.length - v.length)) := by
    rw [← hulength, ← hvlength]
    rw [← hvlength] at hnormal
    exact firstWindow hshift (by omega) hnormal (by omega) hcarry
  obtain ⟨hqlength, hrlength, hlt, hsum⟩ :=
    divideDigits_spec ((u' ++ [carry]).take (u.length - v.length)).reverse hwindow
  have hvalue : value (u' ++ [carry]) = value u * 2 ^ shift := by
    rw [value_append_singleton, hulength, huvalue]
  rw [reverse_reverse, take_append_drop, hvalue, hvvalue] at hsum
  rw [hm] at hqlength
  generalize divideDigits v' ((u' ++ [carry]).take (u.length - v.length)).reverse
    ((u' ++ [carry]).drop (u.length - v.length)) = result at hqlength hrlength hlt hsum ⊢
  obtain ⟨q, last⟩ := result
  dsimp only at hqlength hrlength hlt hsum ⊢
  obtain ⟨hrlen, -, hr⟩ := shiftRight_spec hshift (last.take v.length)
  have hpos := Nat.two_pow_pos shift
  have hbound := value_lt v'
  rw [hvlength] at hbound
  rw [value_take, mod_eq_of_lt (Nat.lt_trans hlt hbound)] at hr
  rw [hvvalue] at hlt
  have hvpos : 0 < value v := by
    refine Nat.pos_of_ne_zero fun hzero => ?_
    rw [hzero, Nat.zero_mul] at hlt
    exact Nat.not_lt_zero _ hlt
  have hdivMod : value q = value u / value v ∧ value last = value u % value v * 2 ^ shift := by
    rw [← Nat.mul_div_mul_right _ _ hpos, ← mul_mod_mul_right, ← hsum]
    refine ⟨?_, ?_⟩
    · rw [Nat.add_comm, add_mul_div_right _ _ (Nat.mul_pos hvpos hpos), div_eq_of_lt hlt,
        Nat.zero_add]
    · rw [mul_add_mod_self_right, mod_eq_of_lt hlt]
  refine ⟨hqlength, ?_, hdivMod.1, ?_⟩
  · rw [hrlen, length_take]
    omega
  · rw [hr, hdivMod.2, Nat.mul_div_cancel _ hpos]

end Zapcc.KnuthDivision
