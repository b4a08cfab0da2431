import Mathlib.Data.List.DropRight
import Zapcc.Support.KnuthDiv

/-!
# The division of sequences of words

`APInt::divide` cuts its operands into digits of 32 bits, and divides either digit by digit or with
`KnuthDiv`. Its main result is `divide_spec`.
-/

namespace Zapcc.DivideWords

open Digits KnuthDivision List BitVec Nat

abbrev WordType := BitVec 64

/-- The digits of some words. -/
def digits : List WordType → List Digit
  | [] => []
  | tmp :: ws => lo32 tmp :: hi32 tmp :: digits ws

def words : List Digit → List WordType
  | low :: high :: ds => make64 high low :: words ds
  | _ => []

/-- The digits without the zeros above them. -/
def dropHighZeros (ds : List Digit) : List Digit := ds.rdropWhile (· == 0#32)

/-- Digits in an array of zeros. -/
def padTo (n : Nat) (ds : List Digit) : List Digit := ds ++ List.replicate (n - ds.length) 0#32

def shortDigit (divisor remainder u : Digit) : Digit × Digit :=
  let partialDividend := make64 remainder u
  if partialDividend = 0#64 then (0#32, 0#32)
  else if partialDividend < divisor.setWidth 64 then (0#32, lo32 partialDividend)
  else if partialDividend = divisor.setWidth 64 then (1#32, 0#32)
  else
    let digit := lo32 (partialDividend / divisor.setWidth 64)
    (digit, lo32 (partialDividend - (digit * divisor).setWidth 64))

/-- The short division, the highest digit first: the digits of the quotient and the remainder. -/
def shortDivide (divisor : Digit) : List Digit → List Digit × Digit
  | [] => ([], 0#32)
  | u :: us =>
    let (Q, remainder) := shortDivide divisor us
    let (q, remainder) := shortDigit divisor remainder u
    (q :: Q, remainder)

/-- `APInt::divide`: the words of the quotient and of the remainder. There is no result when the
divisor is zero or has more digits than the dividend: then the digits outside of the arrays are
read. -/
def divide (LHS RHS : List WordType) : Option (List WordType × List WordType) :=
  let U := dropHighZeros (digits LHS)
  let V := dropHighZeros (digits RHS)
  if V.length = 0 ∨ U.length < V.length then none
  else
    let (Q, R) :=
      if V.length = 1 then
        let (Q, remainder) := shortDivide (digit V 0) U
        (Q, [remainder])
      else KnuthDiv U V
    some (words (padTo (LHS.length * 2) Q), words (padTo (RHS.length * 2) R))

theorem length_digits (ws : List WordType) : (digits ws).length = ws.length * 2 := by
  induction ws with
  | nil => rfl
  | cons w ws ih =>
    simp only [digits, length_cons, ih]
    omega

theorem make64_hi32_lo32 (x : WordType) :
    (lo32 x).toNat + 2 ^ 32 * (hi32 x).toNat = x.toNat := by
  rw [toNat_lo32, toNat_hi32]
  omega

theorem value_digits (ws : List WordType) : value (digits ws) = value ws := by
  induction ws with
  | nil => rfl
  | cons w ws ih =>
    have hw := make64_hi32_lo32 w
    simp only [digits, value, ih]
    omega

theorem words_spec (n : Nat) {ds : List Digit} (h : ds.length = n * 2) :
    (words ds).length = n ∧ value (words ds) = value ds := by
  induction n generalizing ds with
  | zero =>
    have hnil : ds = [] := eq_nil_of_length_eq_zero (by omega)
    subst hnil
    exact ⟨rfl, rfl⟩
  | succ n ih =>
    match ds with
    | [] => exact absurd h (by simp)
    | [_] =>
      rw [length_singleton] at h
      omega
    | low :: high :: ds =>
      obtain ⟨hlength, hvalue⟩ := @ih ds (by simp only [length_cons] at h; omega)
      refine ⟨congrArg Nat.succ hlength, ?_⟩
      simp only [words, value, hvalue, toNat_make64]
      omega

theorem value_padTo (n : Nat) (ds : List Digit) : value (padTo n ds) = value ds := by
  rw [padTo, value_append, value_replicate_zero, Nat.mul_zero, Nat.add_zero]

theorem length_padTo {n : Nat} {ds : List Digit} (h : ds.length ≤ n) :
    (padTo n ds).length = n := by
  rw [padTo, length_append, length_replicate]
  omega

theorem dropHighZeros_spec (ds : List Digit) :
    value (dropHighZeros ds) = value ds ∧ (dropHighZeros ds).length ≤ ds.length ∧
      (0 < (dropHighZeros ds).length →
        digit (dropHighZeros ds) ((dropHighZeros ds).length - 1) ≠ 0#32) := by
  induction ds using List.reverseRecOn with
  | nil => exact ⟨rfl, Nat.le_refl _, fun h => absurd h (Nat.lt_irrefl 0)⟩
  | append_singleton ds d ih =>
    unfold dropHighZeros at ih ⊢
    rw [rdropWhile_concat]
    split_ifs with hzero
    · obtain ⟨hvalue, hlength, htop⟩ := ih
      refine ⟨?_, ?_, htop⟩
      · rw [hvalue, value_append_singleton, beq_iff_eq.mp hzero, toNat_zero, Nat.mul_zero,
          Nat.add_zero]
      · rw [length_append]
        omega
    · refine ⟨rfl, Nat.le_refl _, fun _ => ?_⟩
      have hlast := digit_append_right ds [d] 0
      have hpred : (ds ++ [d]).length - 1 = ds.length + 0 := by
        rw [length_append, length_singleton]
        omega
      rw [hpred, hlast]
      exact fun heq => hzero (beq_iff_eq.mpr heq)

theorem shortDigit_spec {divisor remainder : Digit} (hlt : remainder.toNat < divisor.toNat)
    (u : Digit) :
    (shortDigit divisor remainder u).1.toNat * divisor.toNat +
        (shortDigit divisor remainder u).2.toNat = remainder.toNat * 2 ^ 32 + u.toNat ∧
      (shortDigit divisor remainder u).2.toNat < divisor.toNat := by
  have hpartial := toNat_make64 remainder u
  have hdivisor := toNat_zext divisor
  unfold shortDigit
  dsimp only
  rw [← hpartial]
  have hsmall : (make64 remainder u).toNat < divisor.toNat * 2 ^ 32 := by omega
  generalize make64 remainder u = x at hsmall ⊢
  split_ifs with hzero hbelow heq
  · subst hzero
    exact ⟨by simp, by simpa using by omega⟩
  · rw [lt_def, hdivisor] at hbelow
    have hlow := toNat_lo32 x
    rw [mod_eq_of_lt (by omega)] at hlow
    rw [hlow]
    exact ⟨by simp, hbelow⟩
  · rw [heq, hdivisor]
    exact ⟨by simp, by simpa using by omega⟩
  · have hquot : (x / divisor.setWidth 64).toNat = x.toNat / divisor.toNat := by
      rw [toNat_udiv, hdivisor]
    have hq : (lo32 (x / divisor.setWidth 64)).toNat = x.toNat / divisor.toNat := by
      rw [toNat_lo32, hquot, mod_eq_of_lt (Nat.div_lt_of_lt_mul hsmall)]
    have hdiv := div_add_mod' x.toNat divisor.toNat
    have hmod := mod_lt x.toNat (show 0 < divisor.toNat by omega)
    have hr : (lo32 (x - (lo32 (x / divisor.setWidth 64) * divisor).setWidth 64)).toNat =
        x.toNat % divisor.toNat := by
      rw [toNat_lo32, toNat_sub, toNat_zext, toNat_mul, hq]
      omega
    rw [hq, hr]
    exact ⟨hdiv, hmod⟩

theorem shortDivide_spec {divisor : Digit} (hpos : 0 < divisor.toNat) (us : List Digit) :
    (shortDivide divisor us).1.length = us.length ∧
      value (shortDivide divisor us).1 * divisor.toNat + (shortDivide divisor us).2.toNat =
        value us ∧
      (shortDivide divisor us).2.toNat < divisor.toNat := by
  induction us with
  | nil =>
    refine ⟨rfl, ?_, hpos⟩
    show 0 * divisor.toNat + 0 = 0
    omega
  | cons u us ih =>
    obtain ⟨hlength, hsum, hlt⟩ := ih
    obtain ⟨hdigit, hlast⟩ := shortDigit_spec hlt u
    refine ⟨congrArg Nat.succ hlength, ?_, hlast⟩
    simp only [shortDivide, value]
    linarith

theorem length_le_of_value_le {U V : List Digit} (hpos : 0 < V.length)
    (htop : digit V (V.length - 1) ≠ 0#32) (hle : value V ≤ value U) : V.length ≤ U.length := by
  have hdigit := toNat_digit_pred hpos
  have hone : 0 < (digit V (V.length - 1)).toNat := by
    refine Nat.pos_of_ne_zero fun hzero => htop ?_
    exact eq_of_toNat_eq hzero
  rw [hdigit] at hone
  have hV : (2 ^ 32) ^ (V.length - 1) ≤ value V := (Nat.div_pos_iff.mp hone).2
  have hU := value_lt U
  by_contra hlt
  have hpow : ((2 ^ 32) ^ U.length : Nat) ≤ (2 ^ 32) ^ (V.length - 1) :=
    Nat.pow_le_pow_right (by decide) (by omega)
  omega

theorem divMod_unique {q r x y : Nat} (hsum : q * y + r = x) (hlt : r < y) :
    q = x / y ∧ r = x % y := by
  rw [← hsum]
  refine ⟨?_, ?_⟩
  · rw [Nat.add_comm, add_mul_div_right _ _ (by omega), div_eq_of_lt hlt, Nat.zero_add]
  · rw [mul_add_mod_self_right, mod_eq_of_lt hlt]

theorem divide_spec {LHS RHS : List WordType} (hpos : 0 < value RHS)
    (hle : value RHS ≤ value LHS) :
    ∃ Q R, divide LHS RHS = some (Q, R) ∧ Q.length = LHS.length ∧ R.length = RHS.length ∧
      value Q = value LHS / value RHS ∧ value R = value LHS % value RHS := by
  obtain ⟨hU, hUlength, -⟩ := dropHighZeros_spec (digits LHS)
  obtain ⟨hV, hVlength, htop⟩ := dropHighZeros_spec (digits RHS)
  rw [value_digits] at hU hV
  rw [length_digits] at hUlength hVlength
  unfold divide
  rw [← hU, ← hV] at hle ⊢
  rw [← hV] at hpos
  generalize dropHighZeros (digits LHS) = U at hle hUlength ⊢
  generalize dropHighZeros (digits RHS) = V at hle hpos hVlength htop ⊢
  have hVpos : 0 < V.length := by
    refine Nat.pos_of_ne_zero fun hzero => ?_
    rw [eq_nil_of_length_eq_zero hzero, value] at hpos
    exact Nat.lt_irrefl 0 hpos
  have hlengths : V.length ≤ U.length := length_le_of_value_le hVpos (htop hVpos) hle
  have hshort : ∃ Q R, (if V.length = 1 then
        ((shortDivide (digit V 0) U).1, [(shortDivide (digit V 0) U).2]) else KnuthDiv U V) =
          (Q, R) ∧
      Q.length = U.length - V.length + 1 ∧ R.length = V.length ∧
      value Q = value U / value V ∧ value R = value U % value V := by
    by_cases hone : V.length = 1
    · obtain ⟨d, hd⟩ := List.length_eq_one_iff.mp hone
      have hvalue : value V = d.toNat := by
        rw [hd, value, value, Nat.mul_zero, Nat.add_zero]
      have hdigit : digit V 0 = d := by
        rw [hd]
        rfl
      rw [if_pos hone, hdigit, hvalue]
      rw [hvalue] at hpos
      obtain ⟨hlength, hsum, hlt⟩ := shortDivide_spec hpos U
      obtain ⟨hq, hr⟩ := divMod_unique hsum hlt
      refine ⟨_, _, rfl, ?_, ?_, hq, ?_⟩
      · omega
      · rw [length_singleton, hone]
      · exact hr
    · rw [if_neg hone]
      exact ⟨_, _, rfl, KnuthDiv_spec (by omega) (htop hVpos) hlengths⟩
  obtain ⟨Q, R, hresult, hQ, hR, hquot, hrem⟩ := hshort
  rw [if_neg (by omega), hresult]
  obtain ⟨hQlength, hQvalue⟩ :=
    words_spec LHS.length (length_padTo (show Q.length ≤ LHS.length * 2 by omega))
  obtain ⟨hRlength, hRvalue⟩ :=
    words_spec RHS.length (length_padTo (show R.length ≤ RHS.length * 2 by omega))
  refine ⟨_, _, rfl, hQlength, hRlength, ?_, ?_⟩
  · rw [hQvalue, value_padTo, hquot]
  · rw [hRvalue, value_padTo, hrem]

theorem divide_zero {RHS : List WordType} (LHS : List WordType) (hzero : value RHS = 0) :
    divide LHS RHS = none := by
  obtain ⟨hvalue, -, htop⟩ := dropHighZeros_spec (digits RHS)
  rw [value_digits, hzero] at hvalue
  refine if_pos (.inl (Nat.eq_zero_of_not_pos fun hpos => htop hpos ?_))
  refine eq_of_toNat_eq ?_
  rw [toNat_digit_pred hpos, hvalue, Nat.zero_div, toNat_zero]

end Zapcc.DivideWords
