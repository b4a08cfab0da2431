import Zapcc.Support.APIntDivision

/-!
# The values of integer literals

`NumericLiteralParser.GetIntegerValue` reads the digits of an integer literal into an `APInt` of the
width of the target. `GetIntegerValue_spec` says that it stores the value of the literal without the
bits that do not fit, and tells whether there were any. There is no result when an assertion fails.
-/

namespace Zapcc.Lex.NumericLiteralParser

open APInt BitVec Nat

variable {w : Nat}

def hexDigitValue (C : Char) : Nat :=
  if '0' ≤ C ∧ C ≤ '9' then C.toNat - '0'.toNat
  else if 'a' ≤ C ∧ C ≤ 'f' then C.toNat - 'a'.toNat + 10
  else if 'A' ≤ C ∧ C ≤ 'F' then C.toNat - 'A'.toNat + 10
  else 2 ^ 32 - 1

def isDigitSeparator (C : Char) : Bool := C.toNat = 39

/-- Whether a number of digits never needs more than 64 bits. -/
def alwaysFitsInto64Bits (Radix NumDigits : Nat) : Bool :=
  if Radix = 2 then NumDigits ≤ 64
  else if Radix = 8 then NumDigits ≤ 64 / 3
  else if Radix = 10 then NumDigits ≤ 19
  else NumDigits ≤ 64 / 4

/-- The loop of the fast path, in a machine word. -/
def accumulate (radix : Nat) : List Char → BitVec 64 → BitVec 64
  | [], N => N
  | Ptr :: digits, N =>
    accumulate radix digits
      (if isDigitSeparator Ptr then N
      else N * BitVec.ofNat 64 radix + BitVec.ofNat 64 (hexDigitValue Ptr))

/-- The fast path. The value is truncated to the width of the target. -/
def fastPath (w radix : Nat) (digits : List Char) : BitVec w × Bool :=
  let N := accumulate radix digits 0#64
  let Val := BitVec.ofNat w N.toNat
  (Val, Val.toNat ≠ N.toNat)

def slowLoop (radix : Nat) : List Char → BitVec w → Bool → Option (BitVec w × Bool)
  | [], Val, OverflowOccurred => some (Val, OverflowOccurred)
  | Ptr :: digits, Val, OverflowOccurred =>
    if isDigitSeparator Ptr then slowLoop radix digits Val OverflowOccurred
    else
      let C := hexDigitValue Ptr
      if C < radix then do
        let RadixVal := BitVec.ofNat w radix
        let CharVal := BitVec.ofNat w C
        let OldVal := Val
        -- does the multiplication overflow?
        let Val := Val * RadixVal
        let Quotient ← udiv Val RadixVal
        let OverflowOccurred := OverflowOccurred || Quotient ≠ OldVal
        -- does the addition?
        let Val := Val + CharVal
        let OverflowOccurred := OverflowOccurred || Val < CharVal
        slowLoop radix digits Val OverflowOccurred
      else none

def slowPath (w radix : Nat) (digits : List Char) : Option (BitVec w × Bool) :=
  slowLoop radix digits 0#w false

/-- `GetIntegerValue`: the digits are those from `DigitsBegin` to `SuffixBegin`, counted in an
`unsigned`, and the result is the value that is stored and the one that is returned. -/
def GetIntegerValue (w radix : Nat) (digits : List Char) : Option (BitVec w × Bool) :=
  let NumDigits := digits.length % 2 ^ 32
  if alwaysFitsInto64Bits radix NumDigits then some (fastPath w radix digits)
  else slowPath w radix digits

/-- The digits that the parser accepts for a radix. It reads the spelling of a token, whose length
is an `unsigned`. -/
structure Accepts (radix : Nat) (digits : List Char) : Prop where
  digit : ∀ C ∈ digits, isDigitSeparator C = true ∨ hexDigitValue C < radix
  length_lt : digits.length < 2 ^ 32

variable {radix : Nat} {digits : List Char}

theorem Accepts.tail {C : Char}
    (h : Accepts radix (C :: digits)) : Accepts radix digits :=
  ⟨fun C' hC' => h.digit C' (List.mem_cons_of_mem _ hC'), (lt_succ_self _).trans h.length_lt⟩

theorem Accepts.head {C : Char}
    (h : Accepts radix (C :: digits)) (hsep : ¬isDigitSeparator C = true) :
    hexDigitValue C < radix :=
  (h.digit C List.mem_cons_self).resolve_left hsep

/-- The value of digits behind a number. -/
def valueFrom (radix : Nat) : List Char → Nat → Nat
  | [], v => v
  | C :: digits, v =>
    valueFrom radix digits (if isDigitSeparator C then v else v * radix + hexDigitValue C)

def literalValue (radix : Nat) (digits : List Char) : Nat := valueFrom radix digits 0

theorem accumulate_eq (radix : Nat) (digits : List Char) (v : Nat) :
    accumulate radix digits (BitVec.ofNat 64 v) = BitVec.ofNat 64 (valueFrom radix digits v) := by
  induction digits generalizing v with
  | nil => rfl
  | cons C digits ih =>
    rw [accumulate, valueFrom, ← ih]
    split
    · rfl
    · rw [ofNat_add, ofNat_mul]

theorem valueFrom_lt (h : Accepts radix digits)
    (hradix : 0 < radix) {v bound : Nat} (hv : v < bound) :
    valueFrom radix digits v < bound * radix ^ digits.length := by
  induction digits generalizing v bound with
  | nil => simpa [valueFrom] using hv
  | cons C digits ih =>
    have hnext : (if isDigitSeparator C then v else v * radix + hexDigitValue C) <
        bound * radix := by
      have hle := Nat.mul_le_mul_right radix (succ_le_of_lt hv)
      have hself := Nat.le_mul_of_pos_right bound hradix
      rw [Nat.succ_mul] at hle
      split
      · omega
      · next hsep =>
        have hdigit := h.head hsep
        omega
    rw [valueFrom, List.length_cons, Nat.pow_succ', ← Nat.mul_assoc]
    exact ih h.tail hnext

theorem literalValue_lt (h : Accepts radix digits)
    (hradix : radix = 2 ∨ radix = 8 ∨ radix = 10 ∨ radix = 16)
    (hfits : alwaysFitsInto64Bits radix digits.length = true) :
    literalValue radix digits < 2 ^ 64 := by
  have hlt : literalValue radix digits < 1 * radix ^ digits.length :=
    valueFrom_lt h (by omega) Nat.one_pos
  have hpow : ∀ n, digits.length ≤ n → radix ^ digits.length ≤ radix ^ n := fun n hn =>
    Nat.pow_le_pow_right (by omega) hn
  rw [alwaysFitsInto64Bits] at hfits
  rcases hradix with rfl | rfl | rfl | rfl
  · have := hpow 64 (of_decide_eq_true hfits)
    omega
  · have := hpow 21 (of_decide_eq_true hfits)
    omega
  · have := hpow 19 (of_decide_eq_true hfits)
    omega
  · have := hpow 16 (of_decide_eq_true hfits)
    omega

theorem overflow_step {radix C v : Nat} (hradix : 0 < radix) (hw : radix < 2 ^ w) (hC : C < radix) :
    (decide (2 ^ w ≤ v) ||
        decide (BitVec.ofNat w v * BitVec.ofNat w radix / BitVec.ofNat w radix ≠
          BitVec.ofNat w v) ||
      decide (BitVec.ofNat w v * BitVec.ofNat w radix + BitVec.ofNat w C < BitVec.ofNat w C)) =
      decide (2 ^ w ≤ v * radix + C) := by
  have hself := Nat.le_mul_of_pos_right v hradix
  rw [← Bool.decide_or, ← Bool.decide_or, decide_eq_decide]
  by_cases hv : 2 ^ w ≤ v
  · exact iff_of_true (.inl (.inl hv)) (by omega)
  · have hv' := not_le.mp hv
    have hmul : BitVec.ofNat w v * BitVec.ofNat w radix / BitVec.ofNat w radix ≠
        BitVec.ofNat w v ↔ 2 ^ w ≤ v * radix := by
      rw [ne_eq, ← toNat_inj, toNat_udiv, toNat_mul, toNat_ofNat,
        toNat_ofNat, mod_eq_of_lt hv', mod_eq_of_lt hw]
      exact WrapAround.mul_mod_div_ne hradix hv'
    rw [hmul]
    by_cases hover : 2 ^ w ≤ v * radix
    · exact iff_of_true (.inl (.inr hover)) (by omega)
    · rw [lt_def, toNat_add, toNat_mul, toNat_ofNat,
        toNat_ofNat, toNat_ofNat, mod_eq_of_lt hv', mod_eq_of_lt hw,
        mod_eq_of_lt (not_le.mp hover), mod_eq_of_lt (hC.trans hw),
        WrapAround.add_mod_lt (not_le.mp hover) (hC.trans hw)]
      tauto

theorem slowLoop_spec (h : Accepts radix digits)
    (hradix : 0 < radix) (hw : radix < 2 ^ w) (v : Nat) :
    slowLoop radix digits (BitVec.ofNat w v) (decide (2 ^ w ≤ v)) =
      some (BitVec.ofNat w (valueFrom radix digits v),
        decide (2 ^ w ≤ valueFrom radix digits v)) := by
  induction digits generalizing v with
  | nil => rfl
  | cons C digits ih =>
    rw [slowLoop, valueFrom]
    by_cases hsep : isDigitSeparator C = true
    · rw [if_pos hsep, if_pos hsep]
      exact ih h.tail v
    · have hC := h.head hsep
      have hne : BitVec.ofNat w radix ≠ 0#w := by
        rw [ne_eq, ← toNat_inj, toNat_ofNat, mod_eq_of_lt hw, toNat_zero]
        omega
      rw [if_neg hsep, if_neg hsep, if_pos hC]
      simp only [udiv_eq _ hne, Option.bind_eq_bind, Option.bind_some]
      rw [overflow_step hradix hw hC, ← ofNat_mul, ← ofNat_add]
      exact ih h.tail _

theorem fastPath_spec
    (hlt : literalValue radix digits < 2 ^ 64) :
    fastPath w radix digits = (BitVec.ofNat w (literalValue radix digits),
      decide (2 ^ w ≤ literalValue radix digits)) := by
  have hN : (accumulate radix digits 0#64).toNat = literalValue radix digits := by
    rw [accumulate_eq radix digits 0, toNat_ofNat]
    exact mod_eq_of_lt hlt
  have hfits : literalValue radix digits % 2 ^ w ≠ literalValue radix digits ↔
      2 ^ w ≤ literalValue radix digits := by
    rw [ne_eq, mod_eq_iff_lt (Nat.two_pow_pos w).ne', not_lt]
  unfold fastPath
  dsimp only
  rw [hN, toNat_ofNat, decide_eq_decide.mpr hfits]

/-- A literal is stored without the bits that do not fit, and the result tells whether there are
any. Where both paths can be taken, they agree. -/
theorem GetIntegerValue_spec
    (hradix : radix = 2 ∨ radix = 8 ∨ radix = 10 ∨ radix = 16) (h : Accepts radix digits)
    (hw : 8 ≤ w) :
    GetIntegerValue w radix digits = some (BitVec.ofNat w (literalValue radix digits),
        decide (2 ^ w ≤ literalValue radix digits)) ∧
      (alwaysFitsInto64Bits radix digits.length = true →
        slowPath w radix digits = some (fastPath w radix digits)) := by
  have hpow : 2 ^ 8 ≤ 2 ^ w := Nat.pow_le_pow_right (by decide) hw
  have hslow : slowPath w radix digits = some (BitVec.ofNat w (literalValue radix digits),
      decide (2 ^ w ≤ literalValue radix digits)) := by
    have hstart := slowLoop_spec (w := w) h (by omega) (by omega) 0
    rwa [decide_eq_false (Nat.not_le.mpr (Nat.two_pow_pos w))] at hstart
  have hfast : alwaysFitsInto64Bits radix digits.length = true →
      fastPath w radix digits = (BitVec.ofNat w (literalValue radix digits),
        decide (2 ^ w ≤ literalValue radix digits)) := fun hfits =>
    fastPath_spec (literalValue_lt h hradix hfits)
  refine ⟨?_, fun hfits => hslow.trans (congrArg some (hfast hfits).symm)⟩
  unfold GetIntegerValue
  rw [mod_eq_of_lt h.length_lt]
  dsimp only
  split
  · next hfits => rw [hfast hfits]
  · exact hslow

/-- A hexadecimal literal with a digit too many for eight bits. -/
theorem GetIntegerValue_hexadecimal :
    GetIntegerValue 8 16 ['1', 'f', 'F'] = some (BitVec.ofNat 8 (literalValue 16 ['1', 'f', 'F']),
        decide (2 ^ 8 ≤ literalValue 16 ['1', 'f', 'F'])) ∧
      (alwaysFitsInto64Bits 16 3 = true →
        slowPath 8 16 ['1', 'f', 'F'] = some (fastPath 8 16 ['1', 'f', 'F'])) :=
  GetIntegerValue_spec (by decide) ⟨by simp [isDigitSeparator, hexDigitValue], by simp⟩ (by decide)

end Zapcc.Lex.NumericLiteralParser
