import Mathlib.Data.BitVec
import Mathlib.Data.List.GetD
import Mathlib.Tactic.Ring

/-!
# Sequences of digits

A natural number as a list of digits of `w` bits each, the lowest one first. A bit of a sequence of
digits is a bit of one of its digits. Sequences of one length with the same bits are equal.
-/

namespace Zapcc.Digits

open List Nat

variable {w : Nat}

/-- The number that some digits stand for. -/
def value : List (BitVec w) → Nat
  | [] => 0
  | d :: ds => d.toNat + 2 ^ w * value ds

/-- The `n` lowest digits of a number. -/
def ofValue (w : Nat) : Nat → Nat → List (BitVec w)
  | 0, _ => []
  | n + 1, x => BitVec.ofNat w x :: ofValue w n (x / 2 ^ w)

theorem value_append (xs ys : List (BitVec w)) :
    value (xs ++ ys) = value xs + (2 ^ w) ^ xs.length * value ys := by
  induction xs with
  | nil => simp [value]
  | cons d ds ih =>
    show d.toNat + 2 ^ w * value (ds ++ ys) = d.toNat + 2 ^ w * value ds +
      (2 ^ w) ^ (ds.length + 1) * value ys
    rw [ih, pow_succ]
    ring

theorem value_lt (xs : List (BitVec w)) : value xs < (2 ^ w) ^ xs.length := by
  induction xs with
  | nil => exact Nat.one_pos
  | cons d ds ih =>
    have hmul := Nat.mul_le_mul_left (2 ^ w) (succ_le_of_lt ih)
    show d.toNat + 2 ^ w * value ds < (2 ^ w) ^ (ds.length + 1)
    rw [pow_succ, Nat.mul_comm _ (2 ^ w)]
    rw [mul_succ] at hmul
    omega

theorem value_take (xs : List (BitVec w)) (n : Nat) :
    value (xs.take n) = value xs % (2 ^ w) ^ n := by
  rcases Nat.lt_or_ge n xs.length with hlt | hge
  · have hlength : (xs.take n).length = n := by
      rw [length_take]
      omega
    have hsplit := value_append (xs.take n) (xs.drop n)
    have hvalue := value_lt (xs.take n)
    rw [take_append_drop, hlength] at hsplit
    rw [hlength] at hvalue
    rw [hsplit, add_mul_mod_self_left, mod_eq_of_lt hvalue]
  · have hpow : (2 ^ w) ^ xs.length ≤ (2 ^ w) ^ n :=
      Nat.pow_le_pow_right (Nat.two_pow_pos w) hge
    rw [take_of_length_le hge, mod_eq_of_lt (Nat.lt_of_lt_of_le (value_lt xs) hpow)]

theorem value_drop {xs : List (BitVec w)} {n : Nat} (h : n ≤ xs.length) :
    value (xs.drop n) = value xs / (2 ^ w) ^ n := by
  have hlength : (xs.take n).length = n := by
    rw [length_take]
    omega
  have hsplit := value_append (xs.take n) (xs.drop n)
  have hvalue := value_lt (xs.take n)
  rw [take_append_drop, hlength] at hsplit
  rw [hlength] at hvalue
  rw [hsplit, add_mul_div_left _ _ (Nat.pow_pos (Nat.two_pow_pos w)), div_eq_of_lt hvalue,
    Nat.zero_add]

theorem value_replicate_zero (n : Nat) : value (List.replicate n 0#w) = 0 := by
  induction n with
  | zero => rfl
  | succ n ih =>
    rw [replicate_succ, value, ih, BitVec.toNat_zero]
    rfl

theorem length_ofValue (n x : Nat) : (ofValue w n x).length = n := by
  induction n generalizing x with
  | zero => rfl
  | succ n ih => rw [ofValue, length_cons, ih]

theorem value_ofValue (n x : Nat) : value (ofValue w n x) = x % (2 ^ w) ^ n := by
  induction n generalizing x with
  | zero => rw [ofValue, value, pow_zero, mod_one]
  | succ n ih =>
    rw [ofValue, value, ih, BitVec.toNat_ofNat, pow_succ, Nat.mul_comm _ (2 ^ w), mod_mul]

/-- A bit of a sequence of digits, `false` above them. -/
def bit (xs : List (BitVec w)) (i : Nat) : Bool := (xs.getD (i / w) 0#w).getLsbD (i % w)

theorem bit_cons (hw : 0 < w) (d : BitVec w) (ds : List (BitVec w)) (i : Nat) :
    bit (d :: ds) i = if i < w then d.getLsbD i else bit ds (i - w) := by
  unfold bit
  split
  · next hi => rw [div_eq_of_lt hi, mod_eq_of_lt hi, getD_cons_zero]
  · next hi =>
    obtain ⟨j, rfl⟩ := Nat.exists_eq_add_of_le (not_lt.mp hi)
    rw [add_div_left _ hw, add_mod_left, Nat.add_sub_cancel_left, getD_cons_succ]

theorem bit_of_ge (hw : 0 < w) {xs : List (BitVec w)} {i : Nat} (h : w * xs.length ≤ i) :
    bit xs i = false := by
  have hlength : xs.length ≤ i / w := (Nat.le_div_iff_mul_le hw).mpr (by rwa [Nat.mul_comm])
  rw [bit, getD_eq_default _ _ hlength, BitVec.getLsbD_zero]

theorem bit_ofValue (hw : 0 < w) (n x i : Nat) :
    bit (ofValue w n x) i = (decide (i < w * n) && x.testBit i) := by
  induction n generalizing x i with
  | zero =>
    rw [bit_of_ge hw (by simp [ofValue]), Nat.mul_zero]
    rfl
  | succ n ih =>
    rw [ofValue, bit_cons hw]
    split
    · next hi =>
      have hlt : i < w * (n + 1) := hi.trans_le (Nat.le_mul_of_pos_right w n.succ_pos)
      rw [BitVec.getLsbD_ofNat, decide_eq_true hi, decide_eq_true hlt]
    · next hi =>
      have hlt : i - w < w * n ↔ i < w * (n + 1) := by
        rw [mul_succ]
        omega
      rw [ih, testBit_div_two_pow, Nat.sub_add_cancel (not_lt.mp hi), decide_eq_decide.mpr hlt]

theorem bit_mul_add (xs : List (BitVec w)) {j b : Nat} (hb : b < w) :
    bit xs (w * j + b) = (xs.getD j 0#w).getLsbD b := by
  rw [bit, mul_add_div (by omega), div_eq_of_lt hb, mul_add_mod, mod_eq_of_lt hb, Nat.add_zero]

theorem eq_of_bit_eq {xs ys : List (BitVec w)} (hlength : xs.length = ys.length)
    (h : ∀ i, bit xs i = bit ys i) : xs = ys := by
  refine ext_getElem hlength fun j hx hy => BitVec.eq_of_getLsbD_eq fun b hb => ?_
  have hbit := h (w * j + b)
  rwa [bit_mul_add _ hb, bit_mul_add _ hb, getD_eq_getElem _ _ hx, getD_eq_getElem _ _ hy] at hbit

theorem bit_set {xs : List (BitVec w)} {j : Nat} (hj : j < xs.length) (d : BitVec w) (i : Nat) :
    bit (xs.set j d) i = if i / w = j then d.getLsbD (i % w) else bit xs i := by
  unfold bit
  split
  · next heq =>
    rw [heq, getD_eq_getElem _ _ (by rwa [length_set]), getElem_set_self]
  · next hne => rw [getD_eq_getElem?_getD, getElem?_set_ne (Ne.symm hne), ← getD_eq_getElem?_getD]

theorem bit_drop (hw : 0 < w) (xs : List (BitVec w)) (n i : Nat) :
    bit (xs.drop n) i = bit xs (w * n + i) := by
  rw [bit, bit, mul_add_div hw, mul_add_mod, getD_eq_getElem?_getD,
    getElem?_drop, ← getD_eq_getElem?_getD]

theorem bit_take (hw : 0 < w) (xs : List (BitVec w)) (n i : Nat) :
    bit (xs.take n) i = (decide (i < w * n) && bit xs i) := by
  have hlt : i / w < n ↔ i < w * n := by rw [Nat.div_lt_iff_lt_mul hw, Nat.mul_comm]
  unfold bit
  rw [getD_eq_getElem?_getD, getElem?_take, ← decide_eq_decide.mpr hlt]
  split
  · next h => rw [decide_eq_true h, Bool.true_and, ← getD_eq_getElem?_getD]
  · next h => rw [decide_eq_false h, Option.getD_none, BitVec.getLsbD_zero, Bool.false_and]

theorem bit_append (hw : 0 < w) (xs ys : List (BitVec w)) (i : Nat) :
    bit (xs ++ ys) i = if i < w * xs.length then bit xs i else bit ys (i - w * xs.length) := by
  induction xs generalizing i with
  | nil => simp
  | cons d ds ih =>
    rw [cons_append, bit_cons hw, bit_cons hw, length_cons, mul_succ, ih]
    split
    · next hi => rw [if_pos (by omega)]
    · rw [← Nat.sub_sub, Nat.sub_right_comm]
      split_ifs <;> first | rfl | omega

theorem bit_replicate_zero (n i : Nat) : bit (List.replicate n 0#w) i = false := by
  rw [bit, getD_eq_getElem?_getD, getElem?_replicate]
  split <;> simp

end Zapcc.Digits
