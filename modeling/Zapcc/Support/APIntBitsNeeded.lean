import Zapcc.Library.SignedFits
import Zapcc.Support.APIntRoundTrip

/-!
# The bits that a string needs

`getBitsNeeded` counts the bits of the digits, or reads the string in a width that should be large
enough. `bitsSuffice_iff` says when the number is enough for the value: two digits in radix 36 are
read in ten bits.
-/

namespace Zapcc.APInt

open DigitStrings SignedFits Nat

/-- The width that the string is read in. -/
def sufficient (radix slen : Nat) : Nat :=
  if radix = 10 then if slen = 1 then 4 else slen * 64 % 2 ^ 64 / 18 % 2 ^ 32
  else if slen = 1 then 7 else slen * 16 % 2 ^ 64 / 3 % 2 ^ 32

def logBase2 {w : Nat} (x : BitVec w) : Nat := (getActiveBits x + 2 ^ 32 - 1) % 2 ^ 32

def getBitsNeeded (str : List Char) (radix : Nat) : Option Nat :=
  if str = [] ∨ ¬ValidRadix radix then none
  else
    let isNegative := (hasMinus str).toNat
    let p := withoutSign str
    let slen := p.length
    if p = [] then none
    else if radix = 2 then some ((slen + isNegative) % 2 ^ 32)
    else if radix = 8 then some ((slen * 3 + isNegative) % 2 ^ 32)
    else if radix = 16 then some ((slen * 4 + isNegative) % 2 ^ 32)
    else do
      let tmp ← fromString (sufficient radix slen) p radix
      let log := logBase2 tmp
      if log = 2 ^ 32 - 1 then some (isNegative + 1)
      else some ((isNegative + log + 1) % 2 ^ 32)

/-- A number with an optional sign. -/
structure IsNumber (radix : Nat) (str : List Char) : Prop where
  valid : ValidRadix radix
  nonempty : withoutSign str ≠ []
  digits : AreDigits radix (withoutSign str)

/-- Some bits hold a value, or its negative in two's complement. -/
def Holds (n : Nat) (negative : Bool) (v : Nat) : Prop :=
  if negative then Fits n (-v) else v < 2 ^ n

instance (n : Nat) (negative : Bool) (v : Nat) : Decidable (Holds n negative v) :=
  inferInstanceAs (Decidable (if negative then _ else _))

/-- The number of bits that is returned holds the value of the string. -/
def BitsSuffice (radix : Nat) (str : List Char) : Prop :=
  ∃ n, getBitsNeeded str radix = some n ∧ Holds n (hasMinus str) (textValue radix (withoutSign str))

/-- The bits that are counted for the digits, if nothing wraps around. -/
def bitCount (radix : Nat) (str : List Char) : Nat :=
  let slen := (withoutSign str).length
  if digitShift radix ≠ 0 then slen * digitShift radix + (hasMinus str).toNat
  else if radix = 10 then slen * 64 / 18
  else slen * 16 / 3

/-- The value, which has many zeros in front, fits into what a count that wraps around leaves. -/
def WrapsHarmlessly (radix : Nat) (str : List Char) : Prop :=
  let slen := (withoutSign str).length
  let v := textValue radix (withoutSign str)
  if digitShift radix ≠ 0 then
    Holds ((slen * digitShift radix + (hasMinus str).toNat) % 2 ^ 32) (hasMinus str) v
  else 0 < sufficient radix slen ∧ widthSuffices (sufficient radix slen) slen radix = true ∧
    v < 2 ^ sufficient radix slen

/-- Two digits in radix 36 have a value that does not fit into ten bits. -/
def TwoLargeDigits (radix : Nat) (str : List Char) : Prop :=
  radix = 36 ∧ (withoutSign str).length = 2 ∧ 1024 ≤ textValue radix (withoutSign str)

/-- When the number of bits is enough. -/
def CountsEnough (radix : Nat) (str : List Char) : Prop :=
  if bitCount radix str < 2 ^ 32 then ¬TwoLargeDigits radix str else WrapsHarmlessly radix str

section

variable {radix slen : Nat} {str : List Char}

theorem sufficient_bounds (radix slen : Nat) :
    sufficient radix slen ≠ 1 ∧ sufficient radix slen < 2 ^ 32 - 1 := by
  unfold sufficient
  split_ifs <;> omega

theorem digitShift_eq_zero (hradix : ValidRadix radix) (h : digitShift radix = 0) :
    radix = 10 ∨ radix = 36 := by
  rcases hradix with rfl | rfl | rfl | rfl | rfl <;> simp_all [digitShift]

theorem getBitsNeeded_shift (h : IsNumber radix str) (hshift : digitShift radix ≠ 0) :
    getBitsNeeded str radix =
      some (((withoutSign str).length * digitShift radix + (hasMinus str).toNat) % 2 ^ 32) := by
  have hstr : str ≠ [] := by
    rintro rfl
    exact h.nonempty rfl
  unfold getBitsNeeded
  rw [if_neg (by have := h.valid; tauto)]
  rw [if_neg h.nonempty]
  rcases h.valid with rfl | rfl | rfl | rfl | rfl
  · exact absurd rfl hshift
  · rfl
  · rfl
  · rw [if_pos rfl]
    congr
    exact (Nat.mul_one _).symm
  · exact absurd rfl hshift

theorem logBase2_bits {w : Nat} (hw : w < 2 ^ 32 - 1) (x : BitVec w) (negative : Nat)
    (hnegative : negative ≤ 1) :
    (if logBase2 x = 2 ^ 32 - 1 then some (negative + 1)
      else some ((negative + logBase2 x + 1) % 2 ^ 32)) =
      some (negative + max 1 (getActiveBits x)) := by
  have hactive : getActiveBits x ≤ w := getActiveBits_le.mpr x.isLt
  unfold logBase2
  split_ifs with hlog <;> refine congrArg some ?_ <;> omega

theorem getBitsNeeded_read (h : IsNumber radix str) (hshift : digitShift radix = 0) {width v : Nat}
    (hwidth : width = sufficient radix (withoutSign str).length)
    (hv : v = textValue radix (withoutSign str)) :
    getBitsNeeded str radix =
      if 0 < width ∧ widthSuffices width (withoutSign str).length radix = true then
        some ((hasMinus str).toNat + max 1 (Nat.size (v % 2 ^ width)))
      else none := by
  have hstr : str ≠ [] := by
    rintro rfl
    exact h.nonempty rfl
  obtain ⟨hsame, hminus⟩ := withoutSign_digits h.valid h.digits
  have hguess : getBitsNeeded str radix = (fromString width (withoutSign str) radix).bind
      fun tmp => if logBase2 tmp = 2 ^ 32 - 1 then some ((hasMinus str).toNat + 1)
        else some (((hasMinus str).toNat + logBase2 tmp + 1) % 2 ^ 32) := by
    unfold getBitsNeeded
    rw [if_neg (by have := h.valid; tauto)]
    rw [if_neg h.nonempty, hwidth]
    rcases digitShift_eq_zero h.valid hshift with rfl | rfl <;> rfl
  rw [hguess]
  split_ifs with hread
  · have hfrom := fromString_eq (withoutSign str) hread.1 h.valid
    rw [hsame, hminus, ← hv, if_neg Bool.false_ne_true] at hfrom
    rw [hfrom h.nonempty h.digits hread.2 (fun _ => by omega), Option.bind_some,
      logBase2_bits (hwidth ▸ (sufficient_bounds _ _).2) _ _ (Bool.toNat_le _), getActiveBits,
      BitVec.toNat_ofNat]
  · have hnone : fromString width (withoutSign str) radix = none := by
      unfold fromString
      by_cases hzero : width = 0
      · exact if_pos hzero
      · rw [if_neg hzero, if_neg (by have := h.valid; have := h.nonempty; tauto)]
        rw [hsame, if_neg h.nonempty, if_pos]
        rw [Bool.eq_false_iff]
        exact fun hfits => hread ⟨Nat.pos_of_ne_zero hzero, hfits⟩
    rw [hnone]
    rfl

theorem holds_negative {n v : Nat} : Holds (1 + n) true v ↔ v ≤ 2 ^ n := by
  show Fits (1 + n) (-v) ↔ v ≤ 2 ^ n
  have hpow : (2 : Int) ^ (1 + n) = 2 * (2 ^ n : Nat) := by
    rw [pow_add, pow_one, cast_pow]
    rfl
  unfold Fits
  have := Nat.two_pow_pos n
  omega

/-- The bits that are counted hold a value that was read without its highest bits only if it has
none. -/
theorem holds_read_iff {width v : Nat} (hwidth : 1 < width) (negative : Bool) :
    Holds (negative.toNat + max 1 (Nat.size (v % 2 ^ width))) negative v ↔ v < 2 ^ width := by
  have hsize : Nat.size (v % 2 ^ width) ≤ width :=
    size_le.mpr (mod_lt v (Nat.two_pow_pos width))
  have hmax : 2 ^ max 1 (Nat.size (v % 2 ^ width)) ≤ 2 ^ width :=
    Nat.pow_le_pow_right Nat.two_pos (by omega)
  constructor
  · intro hholds
    by_contra hge
    cases negative with
    | false =>
      have hlt : v < 2 ^ (0 + max 1 (Nat.size (v % 2 ^ width))) := hholds
      rw [Nat.zero_add] at hlt
      omega
    | true =>
      have hle : v ≤ 2 ^ max 1 (Nat.size (v % 2 ^ width)) := holds_negative.mp hholds
      -- only the power itself is left, and it is read as zero
      have heq : v = 2 ^ width := by omega
      have hlarge : 2 ^ 2 ≤ 2 ^ width := Nat.pow_le_pow_right Nat.two_pos hwidth
      rw [heq, mod_self, size_zero, Nat.max_eq_left (Nat.zero_le 1)] at hle
      omega
  · intro hlt
    have hself : v < 2 ^ max 1 (Nat.size v) :=
      (lt_size_self v).trans_le (Nat.pow_le_pow_right Nat.two_pos (Nat.le_max_right _ _))
    rw [mod_eq_of_lt hlt]
    cases negative with
    | false =>
      show v < 2 ^ (0 + max 1 (Nat.size v))
      rwa [Nat.zero_add]
    | true => exact holds_negative.mpr hself.le

end

section

variable {radix : Nat} {str : List Char}

theorem bitsSuffice_iff_wraps (h : IsNumber radix str) :
    BitsSuffice radix str ↔ WrapsHarmlessly radix str := by
  unfold BitsSuffice WrapsHarmlessly
  by_cases hshift : digitShift radix = 0
  · rw [if_neg (by omega), getBitsNeeded_read h hshift rfl rfl]
    have hne := (sufficient_bounds radix (withoutSign str).length).1
    generalize sufficient radix (withoutSign str).length = width at hne ⊢
    by_cases hread : 0 < width ∧ widthSuffices width (withoutSign str).length radix = true
    · rw [if_pos hread]
      simp only [Option.some.injEq, exists_eq_left', hread.1, hread.2, true_and]
      exact holds_read_iff (by omega) _
    · rw [if_neg hread]
      simpa using fun hpos hfits => absurd ⟨hpos, hfits⟩ hread
  · rw [if_pos hshift, getBitsNeeded_shift h hshift]
    simp

theorem pow_ten_le {n : Nat} (hn : 2 ≤ n) : 10 ^ n ≤ 2 ^ (n * 64 / 18) := by
  refine pow_le_of_period (fun n => n * 64 / 18) 9 32 (by decide) (by decide)
    (fun n => by omega) (fun n hlow hhigh => ?_) hn
  interval_cases n <;> decide

theorem pow_thirtySix_le {n : Nat} (hn : 3 ≤ n) : 36 ^ n ≤ 2 ^ (n * 16 / 3) := by
  refine pow_le_of_period (fun n => n * 16 / 3) 3 16 (by decide) (by decide)
    (fun n => by omega) (fun n hlow hhigh => ?_) hn
  interval_cases n <;> decide

theorem sufficient_ten {slen : Nat} (hfits : slen * 64 / 18 < 2 ^ 32) :
    sufficient 10 slen = if slen = 1 then 4 else slen * 64 / 18 := by
  unfold sufficient
  rw [if_pos rfl, mod_eq_of_lt (show slen * 64 < 2 ^ 64 by omega), mod_eq_of_lt hfits]

theorem sufficient_thirtySix {slen : Nat} (hfits : slen * 16 / 3 < 2 ^ 32) :
    sufficient 36 slen = if slen = 1 then 7 else slen * 16 / 3 := by
  unfold sufficient
  rw [if_neg (by decide), mod_eq_of_lt (show slen * 16 < 2 ^ 64 by omega), mod_eq_of_lt hfits]

theorem wrapsHarmlessly_iff (h : IsNumber radix str) (hfits : bitCount radix str < 2 ^ 32) :
    WrapsHarmlessly radix str ↔ ¬TwoLargeDigits radix str := by
  have hvalue : textValue radix (withoutSign str) < radix ^ (withoutSign str).length :=
    value_lt h.digits
  have hpos := List.length_pos_of_ne_nil h.nonempty
  unfold bitCount at hfits
  unfold WrapsHarmlessly TwoLargeDigits
  generalize textValue radix (withoutSign str) = v at hvalue ⊢
  generalize (withoutSign str).length = slen at hfits hvalue hpos ⊢
  by_cases hshift : digitShift radix = 0
  · rw [if_neg (by omega)] at hfits ⊢
    rcases digitShift_eq_zero h.valid hshift with rfl | rfl
    · rw [if_pos rfl] at hfits
      rw [sufficient_ten hfits]
      have hlt : v < 2 ^ (if slen = 1 then 4 else slen * 64 / 18) := by
        split_ifs with hone
        · subst hone
          omega
        · exact hvalue.trans_le (pow_ten_le (by omega))
      have hassert : (slen - 1) * 64 % 2 ^ 64 / 22 ≤ if slen = 1 then 4 else slen * 64 / 18 := by
        rw [mod_eq_of_lt (show (slen - 1) * 64 < 2 ^ 64 by omega)]
        split_ifs <;> omega
      refine iff_of_true ⟨by split_ifs <;> omega, ?_, hlt⟩ (by omega)
      rw [widthSuffices, decide_eq_true_eq]
      exact ⟨.inr (by decide), .inr (by decide), .inr (by decide), .inl hassert⟩
    · rw [sufficient_thirtySix hfits]
      have hassert : widthSuffices (if slen = 1 then 7 else slen * 16 / 3) slen 36 = true := by
        rw [widthSuffices, decide_eq_true_eq]
        exact ⟨.inr (by decide), .inr (by decide), .inr (by decide), .inr (by decide)⟩
      rw [hassert]
      rcases Nat.lt_trichotomy slen 2 with hone | rfl | hmore
      · obtain rfl : slen = 1 := by omega
        simp
        omega
      · simp
      · have hlt := hvalue.trans_le (pow_thirtySix_le hmore)
        rw [if_neg (by omega)]
        exact iff_of_true ⟨by omega, rfl, hlt⟩ (by omega)
  · have hradix : radix ≠ 36 := by
      rintro rfl
      exact hshift rfl
    have hlt : v < 2 ^ (slen * digitShift radix) := by
      rwa [Nat.mul_comm, pow_mul, two_pow_digitShift h.valid hshift]
    rw [if_pos hshift] at hfits ⊢
    rw [mod_eq_of_lt hfits]
    refine iff_of_true ?_ (fun hlarge => hradix hlarge.1)
    cases hasMinus str with
    | false => exact hlt
    | true =>
      rw [Nat.add_comm]
      exact holds_negative.mpr hlt.le

/-- The number of bits is enough, but for two large digits in radix 36 and for counts that wrap
around. -/
theorem bitsSuffice_iff (h : IsNumber radix str) :
    BitsSuffice radix str ↔ CountsEnough radix str := by
  rw [bitsSuffice_iff_wraps h, CountsEnough]
  split_ifs with hfits
  · exact wrapsHarmlessly_iff h hfits
  · rfl

end

theorem isNumber_of_two {c d : Char} (hc : getDigit c 36 < 36) (hd : getDigit d 36 < 36)
    (hsign : withoutSign [c, d] = [c, d]) : IsNumber 36 [c, d] where
  valid := by decide
  nonempty := by
    rw [hsign]
    exact List.cons_ne_nil _ _
  digits := by
    intro e he
    rw [hsign, List.mem_cons, List.mem_singleton] at he
    rcases he with rfl | rfl
    · exact hc
    · exact hd

theorem bitsSuffice_iff_smallDigits :
    BitsSuffice 36 ['S', 'F'] ↔ CountsEnough 36 ['S', 'F'] :=
  bitsSuffice_iff (isNumber_of_two (by decide) (by decide) (by decide))

/-- The value 1024 is read as zero. -/
theorem not_bitsSuffice : IsNumber 36 ['S', 'G'] ∧ ¬BitsSuffice 36 ['S', 'G'] := by
  refine ⟨isNumber_of_two (by decide) (by decide) (by decide), ?_⟩
  rintro ⟨n, hn, hholds⟩
  have hone : getBitsNeeded ['S', 'G'] 36 = some 1 := by decide
  rw [← Option.some.inj (hone.symm.trans hn)] at hholds
  exact absurd hholds (by decide)

end Zapcc.APInt
