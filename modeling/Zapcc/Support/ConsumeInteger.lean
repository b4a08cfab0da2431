import Mathlib.Algebra.Group.Int.Defs
import Mathlib.Algebra.Group.Nat.Defs
import Mathlib.Data.List.TakeWhile
import Zapcc.Support.StringFind

/-!
# Integers at the front of a string

`consumeUnsignedInteger` and `consumeSignedInteger` read a run of digits. The main result is
`consumes_iff`: they accept the right strings and give the right values, but some strings that they
do not accept are changed, as the radix prefix or the digits are removed first.
-/

namespace Zapcc.StringRef

open List

/-! ## The code -/

/-- The byte of a character. -/
abbrev byte (C : Char) : UInt8 := C.toUInt8

/-- `GetAutoSenseRadix`, with the string behind the prefix. -/
def GetAutoSenseRadix (Str : Bytes) : Nat × Bytes :=
  if Str.isEmpty then (10, Str)
  else if [byte '0', byte 'x'].isPrefixOf Str || [byte '0', byte 'X'].isPrefixOf Str then
    (16, Str.drop 2)
  else if [byte '0', byte 'b'].isPrefixOf Str || [byte '0', byte 'B'].isPrefixOf Str then
    (2, Str.drop 2)
  else if [byte '0', byte 'o'].isPrefixOf Str then (8, Str.drop 2)
  else
    match Str with
    | C :: D :: _ =>
      if C = byte '0' && (byte '0' ≤ D && D ≤ byte '9') then (8, Str.drop 1) else (10, Str)
    | _ => (10, Str)

/-- The value of a character as a digit. -/
def CharVal (C : UInt8) : Option Nat :=
  if byte '0' ≤ C && C ≤ byte '9' then some (C.toNat - 48)
  else if byte 'a' ≤ C && C ≤ byte 'z' then some (C.toNat - 97 + 10)
  else if byte 'A' ≤ C && C ≤ byte 'Z' then some (C.toNat - 65 + 10)
  else none

/-- The loop over the digits. The result says whether there was an overflow, and has the string that
is left and the value. -/
def parseDigits (Radix : Nat) : Bytes → Nat → Bool × Bytes × Nat
  | [], Result => (false, [], Result)
  | C :: Str2, Result =>
    match CharVal C with
    | none => (false, C :: Str2, Result)
    | some V =>
      if V ≥ Radix then (false, C :: Str2, Result)
      else if (Result * Radix + V) % 2 ^ 64 / Radix < Result then
        (true, C :: Str2, (Result * Radix + V) % 2 ^ 64)
      else parseDigits Radix Str2 ((Result * Radix + V) % 2 ^ 64)

/-- The radix and the string behind its prefix. -/
def senseRadix (Str : Bytes) (Radix : Nat) : Nat × Bytes :=
  if Radix = 0 then GetAutoSenseRadix Str else (Radix, Str)

/-- `consumeUnsignedInteger`. The result is true for an error, and has the string that is left and
the value. -/
def consumeUnsignedInteger (Str : Bytes) (Radix Result : Nat) : Bool × Bytes × Nat :=
  let (Radix, Str) := senseRadix Str Radix
  if Str.isEmpty then (true, Str, Result)
  else
    let (overflow, Str2, Result) := parseDigits Radix Str 0
    if overflow then (true, Str, Result)
    else if Str.length = Str2.length then (true, Str, Result)
    else (false, Str2, Result)

/-- A value of 64 bits as a signed one. -/
def toSigned (n : Nat) : Int := if n < 2 ^ 63 then n else n - 2 ^ 64

def consumeSignedInteger (Str : Bytes) (Radix : Nat) (Result : Int) : Bool × Bytes × Int :=
  if Str.head? ≠ some (byte '-') then
    let (failed, Str, ULLVal) := consumeUnsignedInteger Str Radix 0
    if failed || toSigned ULLVal < 0 then (true, Str, Result) else (false, Str, ULLVal)
  else
    let (failed, Str2, ULLVal) := consumeUnsignedInteger (Str.drop 1) Radix 0
    let negated := toSigned ((2 ^ 64 - ULLVal) % 2 ^ 64)
    if failed || negated > 0 then (true, Str, Result) else (false, Str2, negated)

/-! ## The digits -/

/-- Whether a byte is a digit of the radix. -/
def isDigitOf (Radix : Nat) (C : UInt8) : Bool := (CharVal C).any (· < Radix)

/-- The value of digits behind a value. -/
def valueFrom (Radix : Nat) (n : Nat) (Ds : Bytes) : Nat :=
  Ds.foldl (fun n C => n * Radix + (CharVal C).getD 0) n

/-- The longest run of digits at the front. -/
def digitRun (Radix : Nat) (Str : Bytes) : Bytes := Str.takeWhile (isDigitOf Radix)

def behindRun (Radix : Nat) (Str : Bytes) : Bytes := Str.dropWhile (isDigitOf Radix)

def runValue (Radix : Nat) (Str : Bytes) : Nat := valueFrom Radix 0 (digitRun Radix Str)

variable {Radix : Nat}

theorem le_valueFrom (hR : 2 ≤ Radix) (n : Nat) (Ds : Bytes) :
    n ≤ valueFrom Radix n Ds := by
  induction Ds generalizing n with
  | nil => exact le_rfl
  | cons C Ds ih =>
    have hmul : n * 2 ≤ n * Radix := Nat.mul_le_mul_left n hR
    exact le_trans (by omega) (ih (n * Radix + (CharVal C).getD 0))

theorem overflow_iff {Radix Result V : Nat} (hV : V < Radix) (hR : Radix ≤ 36) :
    (Result * Radix + V) % 2 ^ 64 / Radix < Result ↔ 2 ^ 64 ≤ Result * Radix + V := by
  rw [Nat.div_lt_iff_lt_mul (by omega)]
  constructor
  · omega
  · omega

theorem parseDigits_spec (hR : 2 ≤ Radix) (hR' : Radix ≤ 36) (Str : Bytes)
    {Result : Nat} (hResult : Result < 2 ^ 64) :
    if valueFrom Radix Result (digitRun Radix Str) < 2 ^ 64 then
      parseDigits Radix Str Result =
        (false, behindRun Radix Str, valueFrom Radix Result (digitRun Radix Str))
    else (parseDigits Radix Str Result).1 = true := by
  induction Str generalizing Result with
  | nil =>
    have hvalue : valueFrom Radix Result (digitRun Radix []) < 2 ^ 64 := hResult
    rw [if_pos hvalue]
    rfl
  | cons C Str ih =>
    have hstop : isDigitOf Radix C = false → parseDigits Radix (C :: Str) Result =
        (false, C :: Str, Result) → if valueFrom Radix Result (digitRun Radix (C :: Str)) < 2 ^ 64
          then parseDigits Radix (C :: Str) Result = (false, behindRun Radix (C :: Str),
            valueFrom Radix Result (digitRun Radix (C :: Str)))
          else (parseDigits Radix (C :: Str) Result).1 = true := by
      intro hC hparse
      have hneg : ¬isDigitOf Radix C = true := by simp [hC]
      have hrun : digitRun Radix (C :: Str) = [] := takeWhile_cons_of_neg hneg
      have hbehind : behindRun Radix (C :: Str) = C :: Str := dropWhile_cons_of_neg hneg
      have hvalue : valueFrom Radix Result [] < 2 ^ 64 := hResult
      rw [hrun, hbehind, if_pos hvalue, hparse]
      rfl
    cases hval : CharVal C with
    | none =>
      refine hstop (by simp [isDigitOf, hval]) ?_
      rw [parseDigits, hval]
    | some V =>
      by_cases hV : V ≥ Radix
      · refine hstop (by simp [isDigitOf, hval]; omega) ?_
        rw [parseDigits, hval]
        exact if_pos hV
      · have hdigit : isDigitOf Radix C = true := by
          simp [isDigitOf, hval]
          omega
        have hrun : digitRun Radix (C :: Str) = C :: digitRun Radix Str :=
          takeWhile_cons_of_pos hdigit
        have hbehind : behindRun Radix (C :: Str) = behindRun Radix Str :=
          dropWhile_cons_of_pos hdigit
        have hvalue : valueFrom Radix Result (C :: digitRun Radix Str) =
            valueFrom Radix (Result * Radix + V) (digitRun Radix Str) := by
          unfold valueFrom
          rw [foldl_cons, hval]
          rfl
        rw [hrun, hbehind, hvalue, parseDigits, hval]
        dsimp only
        rw [if_neg hV]
        by_cases hover : 2 ^ 64 ≤ Result * Radix + V
        · have hle := le_valueFrom hR (Result * Radix + V) (digitRun Radix Str)
          rw [if_pos ((overflow_iff (by omega) hR').mpr hover), if_neg (by omega)]
        · rw [if_neg fun h => hover ((overflow_iff (by omega) hR').mp h),
            Nat.mod_eq_of_lt (by omega)]
          exact ih (by omega)

/-! ## The results -/

/-- The string starts with a number of at most some value. -/
def StartsWith (Radix limit : Nat) (Str : Bytes) : Prop :=
  digitRun Radix Str ≠ [] ∧ runValue Radix Str ≤ limit

instance (Radix limit : Nat) (Str : Bytes) : Decidable (StartsWith Radix limit Str) :=
  inferInstanceAs (Decidable (_ ∧ _))

theorem autoSense_radix (Str : Bytes) :
    2 ≤ (GetAutoSenseRadix Str).1 ∧ (GetAutoSenseRadix Str).1 ≤ 36 := by
  unfold GetAutoSenseRadix
  split_ifs
  · exact ⟨by simp, by simp⟩
  · exact ⟨by simp, by simp⟩
  · exact ⟨by simp, by simp⟩
  · exact ⟨by simp, by simp⟩
  · split
    · split_ifs <;> exact ⟨by simp, by simp⟩
    · exact ⟨by simp, by simp⟩

theorem senseRadix_radix (hR : Radix = 0 ∨ 2 ≤ Radix ∧ Radix ≤ 36) (Str : Bytes) :
    2 ≤ (senseRadix Str Radix).1 ∧ (senseRadix Str Radix).1 ≤ 36 := by
  unfold senseRadix
  split_ifs with h0
  · exact autoSense_radix Str
  · exact hR.resolve_left h0

theorem senseRadix_length (Str : Bytes) (Radix : Nat) :
    (senseRadix Str Radix).2.length ≤ Str.length := by
  have hdrop : ∀ n, (Str.drop n).length ≤ Str.length := fun n => by
    rw [length_drop]
    exact Nat.sub_le ..
  have hauto : (GetAutoSenseRadix Str).2.length ≤ Str.length := by
    unfold GetAutoSenseRadix
    split_ifs
    · exact le_rfl
    · exact hdrop _
    · exact hdrop _
    · exact hdrop _
    · split
      · split_ifs
        · exact hdrop _
        · exact le_rfl
      · exact le_rfl
  unfold senseRadix
  split_ifs
  · exact hauto
  · exact le_rfl

theorem behindRun_length {Str : Bytes} (h : behindRun Radix Str ≠ Str) :
    (behindRun Radix Str).length < Str.length := by
  have hsuffix : behindRun Radix Str <:+ Str := dropWhile_suffix _
  refine lt_of_le_of_ne hsuffix.length_le fun heq => h (hsuffix.eq_of_length heq)

theorem consumeUnsignedInteger_spec (hR : Radix = 0 ∨ 2 ≤ Radix ∧ Radix ≤ 36)
    (Str : Bytes) (Result : Nat) :
    let (radix, body) := senseRadix Str Radix
    if StartsWith radix (2 ^ 64 - 1) body then
      consumeUnsignedInteger Str Radix Result = (false, behindRun radix body, runValue radix body) ∧
        behindRun radix body ≠ body
    else
      (consumeUnsignedInteger Str Radix Result).1 = true ∧
        (consumeUnsignedInteger Str Radix Result).2.1 = body := by
  obtain ⟨hlo, hhi⟩ := senseRadix_radix hR Str
  unfold consumeUnsignedInteger
  generalize senseRadix Str Radix = r at *
  obtain ⟨radix, body⟩ := r
  dsimp only at hlo hhi ⊢
  have hzero : 0 < 2 ^ 64 := by decide
  have hparse := parseDigits_spec hlo hhi body hzero
  have hsplit : digitRun radix body ++ behindRun radix body = body :=
    takeWhile_append_dropWhile
  have hlength : body.length = (behindRun radix body).length ↔ digitRun radix body = [] := by
    have := congrArg List.length hsplit
    rw [length_append] at this
    rw [← length_eq_zero_iff]
    omega
  have hempty : body.isEmpty = true → digitRun radix body = [] := by
    intro h
    rw [List.isEmpty_iff.mp h]
    rfl
  by_cases hs : StartsWith radix (2 ^ 64 - 1) body
  · have hvalue : valueFrom radix 0 (digitRun radix body) < 2 ^ 64 := by
      have := hs.2
      unfold runValue at this
      omega
    rw [if_pos hvalue] at hparse
    rw [if_pos hs, if_neg fun h => hs.1 (hempty h), hparse]
    dsimp only
    rw [if_neg (by decide), if_neg fun h => hs.1 (hlength.mp h)]
    exact ⟨rfl, fun heq => hs.1 (hlength.mp (by rw [heq]))⟩
  · rw [if_neg hs]
    by_cases hnil : body.isEmpty = true
    · rw [if_pos hnil]
      exact ⟨rfl, rfl⟩
    · rw [if_neg hnil]
      by_cases hvalue : valueFrom radix 0 (digitRun radix body) < 2 ^ 64
      · have hrun : digitRun radix body = [] := by
          by_contra hne
          refine hs ⟨hne, ?_⟩
          unfold runValue
          omega
        rw [if_pos hvalue] at hparse
        rw [hparse]
        dsimp only
        rw [if_neg (by decide), if_pos (hlength.mpr hrun)]
        exact ⟨rfl, rfl⟩
      · rw [if_neg hvalue] at hparse
        rw [hparse, if_pos rfl]
        exact ⟨rfl, rfl⟩

/-- The number at the front is read and removed, or the string is left as it is. -/
def ConsumesUnsigned (Str : Bytes) (Radix Result : Nat) : Prop :=
  let (radix, body) := senseRadix Str Radix
  if StartsWith radix (2 ^ 64 - 1) body then
    consumeUnsignedInteger Str Radix Result = (false, behindRun radix body, runValue radix body)
  else
    (consumeUnsignedInteger Str Radix Result).1 = true ∧
      (consumeUnsignedInteger Str Radix Result).2.1 = Str

/-- The number behind a minus sign or at the front is read and removed, or the string is left as it
is. -/
def ConsumesSigned (Str : Bytes) (Radix : Nat) (Result : Int) : Prop :=
  let negative := Str.head? = some (byte '-')
  let (radix, body) := senseRadix (if negative then Str.drop 1 else Str) Radix
  if StartsWith radix (if negative then 2 ^ 63 else 2 ^ 63 - 1) body then
    consumeSignedInteger Str Radix Result =
      (false, behindRun radix body, if negative then -(runValue radix body : Int)
        else runValue radix body)
  else
    (consumeSignedInteger Str Radix Result).1 = true ∧
      (consumeSignedInteger Str Radix Result).2.1 = Str

theorem toSigned_neg_iff {n : Nat} (hn : n < 2 ^ 64) : toSigned n < 0 ↔ 2 ^ 63 ≤ n := by
  unfold toSigned
  split_ifs <;> omega

theorem negated_pos_iff {n : Nat} (hn : n < 2 ^ 64) :
    (0 < toSigned ((2 ^ 64 - n) % 2 ^ 64) ↔ 2 ^ 63 < n) ∧
      (n ≤ 2 ^ 63 → toSigned ((2 ^ 64 - n) % 2 ^ 64) = -(n : Int)) := by
  unfold toSigned
  refine ⟨?_, fun hle => ?_⟩ <;> split_ifs <;> omega

theorem StartsWith.mono {Radix m n : Nat} {Str : Bytes} (h : StartsWith Radix m Str) (hle : m ≤ n) :
    StartsWith Radix n Str := ⟨h.1, h.2.trans hle⟩

theorem consumesUnsigned_iff (hR : Radix = 0 ∨ 2 ≤ Radix ∧ Radix ≤ 36) (Str : Bytes)
    (Result : Nat) :
    ConsumesUnsigned Str Radix Result ↔ (senseRadix Str Radix).2 = Str ∨
        StartsWith (senseRadix Str Radix).1 (2 ^ 64 - 1) (senseRadix Str Radix).2 := by
  have hspec := consumeUnsignedInteger_spec hR Str Result
  unfold ConsumesUnsigned
  generalize senseRadix Str Radix = r at *
  obtain ⟨radix, body⟩ := r
  dsimp only at hspec ⊢
  by_cases hs : StartsWith radix (2 ^ 64 - 1) body
  · rw [if_pos hs] at hspec ⊢
    exact iff_of_true hspec.1 (.inr hs)
  · rw [if_neg hs] at hspec ⊢
    rw [hspec.2]
    exact ⟨fun h => .inl h.2, fun h => ⟨hspec.1, h.resolve_right hs⟩⟩

theorem consumesSigned_negative (hR : Radix = 0 ∨ 2 ≤ Radix ∧ Radix ≤ 36)
    {Str : Bytes} (hneg : Str.head? = some (byte '-')) (Result : Int) :
    ConsumesSigned Str Radix Result := by
  have hspec := consumeUnsignedInteger_spec hR (Str.drop 1) 0
  unfold ConsumesSigned consumeSignedInteger
  simp only [if_pos hneg]
  rw [if_neg (not_not.mpr hneg)]
  generalize senseRadix (Str.drop 1) Radix = r at *
  obtain ⟨radix, body⟩ := r
  generalize consumeUnsignedInteger (Str.drop 1) Radix 0 = c at *
  obtain ⟨failed, Str2, ULLVal⟩ := c
  dsimp only at hspec ⊢
  by_cases hs : StartsWith radix (2 ^ 64 - 1) body
  · rw [if_pos hs] at hspec
    obtain ⟨hc, -⟩ := hspec
    obtain ⟨rfl, rfl, rfl⟩ := hc
    have hvalue : runValue radix body < 2 ^ 64 := by
      have := hs.2
      omega
    obtain ⟨hpos, heq⟩ := negated_pos_iff hvalue
    by_cases hsmall : runValue radix body ≤ 2 ^ 63
    · rw [if_pos ⟨hs.1, hsmall⟩, if_neg, heq hsmall]
      have hnot : ¬0 < toSigned ((2 ^ 64 - runValue radix body) % 2 ^ 64) := fun h => by
        omega
      simpa using hnot
    · rw [if_neg fun h => hsmall h.2, if_pos]
      · exact ⟨rfl, rfl⟩
      · have := hpos.mpr (by omega)
        simpa using this
  · rw [if_neg hs] at hspec
    obtain ⟨rfl, -⟩ := hspec
    rw [if_neg fun h => hs (h.mono (by decide))]
    exact ⟨rfl, rfl⟩

theorem consumesSigned_iff (hR : Radix = 0 ∨ 2 ≤ Radix ∧ Radix ≤ 36) (Str : Bytes)
    (Result : Int) :
    ConsumesSigned Str Radix Result ↔ Str.head? = some (byte '-') ∨
        StartsWith (senseRadix Str Radix).1 (2 ^ 63 - 1) (senseRadix Str Radix).2 ∨
          (senseRadix Str Radix).2 = Str ∧
            ¬StartsWith (senseRadix Str Radix).1 (2 ^ 64 - 1) Str := by
  by_cases hneg : Str.head? = some (byte '-')
  · exact iff_of_true (consumesSigned_negative hR hneg Result) (.inl hneg)
  have hspec := consumeUnsignedInteger_spec hR Str 0
  have hlength : (senseRadix Str Radix).2.length ≤ Str.length := senseRadix_length Str Radix
  unfold ConsumesSigned consumeSignedInteger
  rw [if_pos hneg]
  simp only [hneg, if_false, false_or]
  generalize senseRadix Str Radix = r at *
  obtain ⟨radix, body⟩ := r
  generalize consumeUnsignedInteger Str Radix 0 = c at *
  obtain ⟨failed, Str2, ULLVal⟩ := c
  dsimp only at hspec hlength ⊢
  by_cases hs : StartsWith radix (2 ^ 64 - 1) body
  · rw [if_pos hs] at hspec
    obtain ⟨hc, hbehind⟩ := hspec
    obtain ⟨rfl, rfl, rfl⟩ := hc
    have hvalue : runValue radix body < 2 ^ 64 := by
      have := hs.2
      omega
    have hsigned := toSigned_neg_iff hvalue
    by_cases hsmall : runValue radix body ≤ 2 ^ 63 - 1
    · have hstart : StartsWith radix (2 ^ 63 - 1) body := ⟨hs.1, hsmall⟩
      rw [if_pos hstart, if_neg]
      · exact iff_of_true rfl (.inl hstart)
      · have hnot : ¬toSigned (runValue radix body) < 0 := fun h => by
          omega
        simpa using hnot
    · have hover : toSigned (runValue radix body) < 0 := hsigned.mpr (by omega)
      have hshort := behindRun_length hbehind
      rw [if_neg fun h => hsmall h.2, if_pos (by simpa using hover)]
      refine iff_of_false (fun h => ?_) fun h => ?_
      · have := congrArg List.length h.2
        dsimp only at this
        omega
      · rcases h with h | ⟨rfl, h⟩
        · exact hsmall h.2
        · exact h hs
  · rw [if_neg hs] at hspec
    obtain ⟨rfl, rfl⟩ := hspec
    rw [if_neg fun h => hs (h.mono (by decide))]
    constructor
    · rintro ⟨-, rfl⟩
      exact .inr ⟨rfl, hs⟩
    · rintro (h | ⟨rfl, -⟩)
      · exact absurd (h.mono (by decide)) hs
      · exact ⟨rfl, rfl⟩

/-- A string is left as it is on an error if it has no radix prefix to remove, and if a value
without a sign that is too large is too large for an unsigned one. -/
theorem consumes_iff (hR : Radix = 0 ∨ 2 ≤ Radix ∧ Radix ≤ 36) (Str : Bytes)
    (Result : Nat) (SResult : Int) :
    (ConsumesUnsigned Str Radix Result ↔ (senseRadix Str Radix).2 = Str ∨
        StartsWith (senseRadix Str Radix).1 (2 ^ 64 - 1) (senseRadix Str Radix).2) ∧
    (ConsumesSigned Str Radix SResult ↔ Str.head? = some (byte '-') ∨
        StartsWith (senseRadix Str Radix).1 (2 ^ 63 - 1) (senseRadix Str Radix).2 ∨
          (senseRadix Str Radix).2 = Str ∧ ¬StartsWith (senseRadix Str Radix).1 (2 ^ 64 - 1) Str) :=
  ⟨consumesUnsigned_iff hR Str Result, consumesSigned_iff hR Str SResult⟩

theorem consumes_decimal : ConsumesUnsigned [byte '4', byte '2', byte 'A'] 10 0 ∧
    ConsumesSigned [byte '4', byte '2', byte 'A'] 10 0 := by
  have hR : 10 = 0 ∨ 2 ≤ 10 ∧ 10 ≤ 36 := by decide
  obtain ⟨hu, hs⟩ := consumes_iff hR [byte '4', byte '2', byte 'A'] 0 0
  exact ⟨hu.mpr (.inl rfl), hs.mpr (.inr (.inl (by decide)))⟩

/-- A value that is too large for a signed one is removed from the string. -/
theorem not_consumes_signed : ¬∀ Str Result, ConsumesSigned Str 10 Result := by
  intro h
  have hbad := h [byte '9', byte '2', byte '2', byte '3', byte '3', byte '7', byte '2', byte '0',
    byte '3', byte '6', byte '8', byte '5', byte '4', byte '7', byte '7', byte '5', byte '8',
    byte '0', byte '8'] 0
  revert hbad
  unfold ConsumesSigned
  decide

end Zapcc.StringRef
