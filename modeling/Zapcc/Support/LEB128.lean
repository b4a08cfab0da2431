import Mathlib.Tactic.Ring
import Zapcc.Library.WrapAround

/-!
# Little-endian base 128 numbers

A number is written in groups of seven bits, the lowest one first, and every byte but the last has
the bit `0x80`. `signedValue` and `groupsValue` are the numbers that a sequence of bytes stands
for. The decoders shift each group to its place: a shift by 64 or more is undefined, and has no
result here. `roundTrips_iff` says which encodings are decoded, and which bytes lead to such a
shift.
-/

namespace Zapcc.LEB128

open WrapAround List

/-- Shift left. A shift by the width or more is undefined. -/
def shl (x : BitVec 64) (shift : Nat) : Option (BitVec 64) :=
  if shift < 64 then some (x <<< shift) else none

/-- Shift right. A shift by the width or more is undefined. -/
def lshr (x : BitVec 64) (shift : Nat) : Option (BitVec 64) :=
  if shift < 64 then some (x >>> shift) else none

/-- The size of a signed value, apart from its sign. -/
def magnitude (value : BitVec 64) : Nat :=
  if value.toInt < 0 then (-value.toInt - 1).toNat else value.toInt.toNat

/-- Whether more groups follow, when `value` is what is left after the group `byte`. -/
def more (value : BitVec 64) (byte : BitVec 8) : Bool :=
  !((value == 0#64 && byte &&& 0x40#8 == 0#8) || (value == -1#64 && byte &&& 0x40#8 != 0#8))

/-- The group that is written next. -/
def lowGroup (value : BitVec 64) : BitVec 8 := value.setWidth 8 &&& 0x7f#8

theorem lowGroup_toNat (value : BitVec 64) : (lowGroup value).toNat = value.toNat % 128 := by
  have hmask : (0x7f#8).toNat = 2 ^ 7 - 1 := rfl
  rw [lowGroup, BitVec.toNat_and, BitVec.toNat_setWidth, hmask, Nat.and_two_pow_sub_one_eq_mod]
  omega

theorem toInt_sshiftRight (value : BitVec 64) :
    (value.sshiftRight 7).toInt = value.toInt / 128 := by
  rw [BitVec.toInt_sshiftRight, Int.shiftRight_eq_div_pow]
  rfl

theorem lowGroup_toInt (value : BitVec 64) :
    ((lowGroup value).toNat : Int) = value.toInt % 128 := by
  rw [lowGroup_toNat, BitVec.toInt_eq_toNat_cond]
  split_ifs <;> omega

theorem more_eq_false_iff (value : BitVec 64) :
    more (value.sshiftRight 7) (lowGroup value) = false ↔ -64 ≤ value.toInt ∧ value.toInt < 64 := by
  have hlow : (lowGroup value).toNat < 128 := by
    rw [lowGroup_toNat]
    omega
  have hbit : ∀ b : BitVec 8, b.toNat < 128 → (b &&& 0x40#8 = 0#8 ↔ b.toNat < 64) := by decide
  have hzero : value.sshiftRight 7 = 0#64 ↔ value.toInt / 128 = 0 := by
    rw [← BitVec.toInt_inj, toInt_sshiftRight]
    rfl
  have hones : value.sshiftRight 7 = -1#64 ↔ value.toInt / 128 = -1 := by
    rw [← BitVec.toInt_inj, toInt_sshiftRight]
    rfl
  have hgroup := lowGroup_toInt value
  rw [more, Bool.not_eq_false', Bool.or_eq_true_iff, Bool.and_eq_true_iff, Bool.and_eq_true_iff,
    beq_iff_eq, beq_iff_eq, beq_iff_eq, bne_iff_ne, ne_eq, hzero, hones, hbit _ hlow]
  omega

/-- The loop of `encodeSLEB128` from a value and the number of bytes that were written. It returns
the bytes, and the value and the number of bytes after it. -/
def encodeSLEB128Loop (padTo : Nat) (value : BitVec 64) (count : Nat) :
    List (BitVec 8) × BitVec 64 × Nat :=
  let byte := lowGroup value
  let rest := value.sshiftRight 7
  let marked := if more rest byte = true ∨ count + 1 < padTo then byte ||| 0x80#8 else byte
  if _h : more rest byte = true then
    let (bytes, result) := encodeSLEB128Loop padTo rest (count + 1)
    (marked :: bytes, result)
  else ([marked], rest, count + 1)
termination_by magnitude value
decreasing_by
  have hmore : ¬ (-64 ≤ value.toInt ∧ value.toInt < 64) := by
    rw [← more_eq_false_iff, Bool.not_eq_false]
    exact _h
  unfold magnitude
  rw [toInt_sshiftRight]
  split_ifs <;> omega

/-- Encode a signed value with at least `padTo` bytes. The returned number of bytes is the length of
the result. -/
def encodeSLEB128 (value : BitVec 64) (padTo : Nat) : List (BitVec 8) :=
  let (bytes, value, count) := encodeSLEB128Loop padTo value 0
  if count < padTo then
    let padValue := if value.toInt < 0 then 0x7f#8 else 0x00#8
    bytes ++ replicate (padTo - 1 - count) (padValue ||| 0x80#8) ++ [padValue]
  else bytes

/-- The loop of `encodeULEB128`. It returns the bytes and their number. -/
def encodeULEB128Loop (padTo : Nat) (value : BitVec 64) (count : Nat) : List (BitVec 8) × Nat :=
  let byte := lowGroup value
  let rest := value >>> 7
  let marked := if rest ≠ 0#64 ∨ count + 1 < padTo then byte ||| 0x80#8 else byte
  if _h : rest ≠ 0#64 then
    let (bytes, result) := encodeULEB128Loop padTo rest (count + 1)
    (marked :: bytes, result)
  else ([marked], count + 1)
termination_by value.toNat
decreasing_by
  have hne : (value >>> 7).toNat ≠ 0 := fun hzero => _h (BitVec.eq_of_toNat_eq hzero)
  rw [BitVec.toNat_ushiftRight, Nat.shiftRight_eq_div_pow] at hne ⊢
  omega

/-- Encode an unsigned value with at least `padTo` bytes. The returned number of bytes is the length
of the result. -/
def encodeULEB128 (value : BitVec 64) (padTo : Nat) : List (BitVec 8) :=
  let (bytes, count) := encodeULEB128Loop padTo value 0
  if count < padTo then bytes ++ replicate (padTo - 1 - count) 0x80#8 ++ [0x00#8]
  else bytes

/-- What a decoder returns: a value, or an error with its text, and the number of bytes read. -/
inductive Decoded where
  | value (value : BitVec 64) (n : Nat)
  | error (message : String) (n : Nat)
  deriving DecidableEq

/-- The loop of `decodeULEB128` up to the end of the bytes. There is no result when it executes an
undefined shift. -/
def decodeULEB128Loop (n : Nat) (value : BitVec 64) (shift : Nat) :
    List (BitVec 8) → Option Decoded
  | [] => some (.error "malformed uleb128, extends past end" n)
  | byte :: rest => do
      let slice := (byte &&& 0x7f#8).setWidth 64
      let tooBig ←
        if shift ≥ 64 then some true
        else do
          let shifted ← shl slice shift
          let back ← lshr shifted shift
          some (back != slice)
      if tooBig then some (.error "uleb128 too big for uint64" n)
      else
        let shifted ← shl slice shift
        if 128 ≤ byte.toNat then decodeULEB128Loop (n + 1) (value + shifted) (shift + 7) rest
        else some (.value (value + shifted) (n + 1))

/-- Decode an unsigned value. -/
def decodeULEB128 (bytes : List (BitVec 8)) : Option Decoded := decodeULEB128Loop 0 0#64 0 bytes

/-- The loop of `decodeSLEB128` up to the end of the bytes, and the extension of the sign after it.
There is no result when it executes an undefined shift. -/
def decodeSLEB128Loop (n : Nat) (value : BitVec 64) (shift : Nat) :
    List (BitVec 8) → Option Decoded
  | [] => some (.error "malformed sleb128, extends past end" n)
  | byte :: rest => do
      let shifted ← shl ((byte &&& 0x7f#8).setWidth 64) shift
      if 128 ≤ byte.toNat then decodeSLEB128Loop (n + 1) (value ||| shifted) (shift + 7) rest
      else if byte &&& 0x40#8 ≠ 0#8 then
        let sign ← shl (-1#64) (shift + 7)
        some (.value (value ||| shifted ||| sign) (n + 1))
      else some (.value (value ||| shifted) (n + 1))

def decodeSLEB128 (bytes : List (BitVec 8)) : Option Decoded := decodeSLEB128Loop 0 0#64 0 bytes

/-- Bytes that a decoder reads to their end: all but the last one continue. -/
inductive Terminated : List (BitVec 8) → Prop where
  | last {byte : BitVec 8} : byte.toNat < 128 → Terminated [byte]
  | next {byte : BitVec 8} {rest : List (BitVec 8)} :
      128 ≤ byte.toNat → Terminated rest → Terminated (byte :: rest)

/-- The unsigned number that some groups stand for. -/
def groupsValue : List (BitVec 8) → Nat
  | [] => 0
  | byte :: rest => byte.toNat % 128 + 128 * groupsValue rest

/-- The signed number that some groups stand for: the last one has the sign. -/
def signedValue : List (BitVec 8) → Int
  | [] => 0
  | [byte] => if byte.toNat % 128 < 64 then byte.toNat % 128 else byte.toNat % 128 - 128
  | byte :: rest => byte.toNat % 128 + 128 * signedValue rest

variable {bytes : List (BitVec 8)}

theorem Terminated.ne_nil (h : Terminated bytes) : bytes ≠ [] := by
  cases h with
  | last _ | next _ _ => exact cons_ne_nil _ _

variable {rest : List (BitVec 8)}

theorem signedValue_cons (byte : BitVec 8) (hrest : rest ≠ []) :
    signedValue (byte :: rest) = byte.toNat % 128 + 128 * signedValue rest := by
  cases rest with
  | nil => exact absurd rfl hrest
  | cons _ _ => rfl

theorem toNat_or_continue : ∀ byte : BitVec 8, byte.toNat < 128 →
    128 ≤ (byte ||| 0x80#8).toNat ∧ (byte ||| 0x80#8).toNat % 128 = byte.toNat := by
  decide

theorem toNat_group (byte : BitVec 8) :
    ((byte &&& 0x7f#8).setWidth 64).toNat = byte.toNat % 128 := by
  have hmask : (0x7f#8).toNat = 2 ^ 7 - 1 := rfl
  rw [BitVec.toNat_setWidth, BitVec.toNat_and, hmask, Nat.and_two_pow_sub_one_eq_mod]
  omega

theorem signBit_iff : ∀ byte : BitVec 8, byte.toNat < 128 →
    (byte &&& 0x40#8 ≠ 0#8 ↔ 64 ≤ byte.toNat) := by
  decide

variable {x : BitVec 64}

theorem shl_eq_some {shift : Nat} (hshift : shift < 64) :
    shl x shift = some (x <<< shift) := if_pos hshift

theorem shl_eq_none {shift : Nat} (hshift : 64 ≤ shift) : shl x shift = none :=
  if_neg (Nat.not_lt.mpr hshift)

theorem eq_ofInt_of_toNat {value : Int} (h : (x.toNat : Int) = value % 2 ^ 64) :
    x = BitVec.ofInt 64 value := by
  refine BitVec.eq_of_toNat_eq ?_
  rw [BitVec.toNat_ofInt]
  omega

theorem group_lt (byte : BitVec 8) {value : BitVec 64} {shift : Nat}
    (hvalue : value.toNat < 2 ^ shift) :
    value.toNat + byte.toNat % 128 * 2 ^ shift < 2 ^ (shift + 7) := by
  have hpow : 2 ^ (shift + 7) = 128 * 2 ^ shift := by
    rw [pow_add, Nat.mul_comm]
    rfl
  have hgroup : byte.toNat % 128 + 1 ≤ 128 := Nat.mod_lt _ (by omega)
  have hmul := Nat.mul_le_mul_right (2 ^ shift) hgroup
  rw [Nat.succ_mul] at hmul
  omega

theorem decodeSLEB128Loop_last {byte : BitVec 8} (hbyte : byte.toNat < 128) {value : BitVec 64}
    {shift : Nat} (hvalue : value.toNat < 2 ^ shift) (n : Nat) :
    decodeSLEB128Loop n value shift [byte] =
      if shift < 64 ∧ (signedValue [byte] < 0 → shift + 7 < 64) then
        some (.value (BitVec.ofInt 64 (value.toNat + signedValue [byte] * 2 ^ shift)) (n + 1))
      else none := by
  have hgroup : ((byte &&& 0x7f#8).setWidth 64).toNat = byte.toNat := by
    rw [toNat_group, Nat.mod_eq_of_lt hbyte]
  have hend : ¬ 128 ≤ byte.toNat := Nat.not_le.mpr hbyte
  simp only [decodeSLEB128Loop, hend, if_false]
  by_cases hshift : shift < 64
  · have hor := toNat_or_shiftLeft (y := (byte &&& 0x7f#8).setWidth 64) hvalue (Nat.le_of_lt hshift)
    rw [hgroup] at hor
    rw [shl_eq_some hshift, Option.bind_eq_bind, Option.bind_some]
    by_cases hsign : byte.toNat < 64
    · have hsigned : signedValue [byte] = byte.toNat := by
        simp only [signedValue]
        omega
      rw [if_neg (by rw [signBit_iff byte hbyte]; omega), hsigned,
        if_pos ⟨hshift, fun hneg => absurd hneg (by omega)⟩]
      refine congrArg (fun x => some (Decoded.value x (n + 1))) (eq_ofInt_of_toNat ?_)
      rw [hor]
      rfl
    · have hsigned : signedValue [byte] = byte.toNat - 128 := by
        simp only [signedValue]
        omega
      rw [if_pos ((signBit_iff byte hbyte).mpr (Nat.not_lt.mp hsign)), hsigned]
      by_cases hnext : shift + 7 < 64
      · rw [shl_eq_some hnext, if_pos ⟨hshift, fun _ => hnext⟩]
        refine congrArg (fun x => some (Decoded.value x (n + 1))) (eq_ofInt_of_toNat ?_)
        have hpow : 2 ^ (shift + 7) = 128 * 2 ^ shift := by
          rw [pow_add, Nat.mul_comm]
          rfl
        have hbelow := group_lt byte hvalue
        rw [Nat.mod_eq_of_lt hbyte] at hbelow
        have hsmall : 2 ^ (shift + 7) ≤ 2 ^ 64 := Nat.pow_le_pow_right (by omega) (by omega)
        rw [Nat.mod_eq_of_lt (by omega)] at hor
        rw [toNat_or_shiftLeft (by rw [hor]; exact hbelow) (Nat.le_of_lt hnext), hor, hpow]
        have hsum : ((value.toNat + byte.toNat * 2 ^ shift +
            (-1#64).toNat * (128 * 2 ^ shift) : Nat) : Int) =
              value.toNat + (byte.toNat - 128) * 2 ^ shift + 2 ^ 64 * (128 * 2 ^ shift) := by
          push_cast
          ring
        rw [Int.natCast_mod, hsum]
        exact Int.add_mul_emod_self_left ..
      · rw [shl_eq_none (Nat.not_lt.mp hnext), if_neg fun h => hnext (h.2 (by omega))]
        rfl
  · rw [shl_eq_none (Nat.not_lt.mp hshift), if_neg fun h => hshift h.1]
    rfl

/-- The signed decoder finds the number that the groups stand for, unless one of its shifts is
undefined. -/
theorem decodeSLEB128Loop_eq (h : Terminated bytes) {value : BitVec 64}
    {shift : Nat} (hvalue : value.toNat < 2 ^ shift) (n : Nat) :
    decodeSLEB128Loop n value shift bytes =
      if shift + 7 * bytes.length < 71 ∧
          (signedValue bytes < 0 → shift + 7 * bytes.length < 64) then
        some (.value (BitVec.ofInt 64 (value.toNat + signedValue bytes * 2 ^ shift))
          (n + bytes.length))
      else none := by
  induction h generalizing value shift n with
  | last hbyte =>
    rw [decodeSLEB128Loop_last hbyte hvalue, length_singleton]
    exact if_congr (by omega) rfl rfl
  | @next byte rest hbyte hrest ih =>
    have hlength : 1 ≤ rest.length := length_pos_of_ne_nil hrest.ne_nil
    have hcons := signedValue_cons byte hrest.ne_nil
    simp only [decodeSLEB128Loop, hbyte, if_true, length_cons]
    by_cases hshift : shift < 64
    · have hor := toNat_or_shiftLeft (y := (byte &&& 0x7f#8).setWidth 64) hvalue
        (Nat.le_of_lt hshift)
      rw [toNat_group] at hor
      rw [shl_eq_some hshift, Option.bind_eq_bind, Option.bind_some]
      by_cases hnext : shift + 7 < 64
      · have hbelow := group_lt byte hvalue
        have hsmall : 2 ^ (shift + 7) ≤ 2 ^ 64 := Nat.pow_le_pow_right (by omega) (by omega)
        rw [Nat.mod_eq_of_lt (by omega)] at hor
        rw [ih (by rw [hor]; exact hbelow), hor]
        refine if_congr (by omega) ?_ rfl
        have hsum : ((value.toNat + byte.toNat % 128 * 2 ^ shift : Nat) : Int) +
            signedValue rest * 2 ^ (shift + 7) =
              value.toNat + signedValue (byte :: rest) * 2 ^ shift := by
          rw [hcons, pow_add]
          push_cast
          ring
        rw [hsum, Nat.add_right_comm, Nat.add_assoc]
      · rw [if_neg (by omega)]
        cases rest with
        | nil => exact absurd rfl hrest.ne_nil
        | cons _ _ =>
          rw [decodeSLEB128Loop, shl_eq_none (Nat.not_lt.mp hnext)]
          rfl
    · rw [shl_eq_none (Nat.not_lt.mp hshift), if_neg (by omega)]
      rfl

theorem lowGroup_lt (value : BitVec 64) : (lowGroup value).toNat < 128 := by
  rw [lowGroup_toNat]
  omega

/-- What follows the bytes of the loop in front of `padTo`: a padding that stands for `rest`. -/
def PadsSigned (padTo n : Nat) (rest : Int) (tail : List (BitVec 8)) : Prop :=
  if n < padTo then Terminated tail ∧ signedValue tail = rest else tail = []

theorem encodeSLEB128Loop_more {value : BitVec 64}
    (hmore : more (value.sshiftRight 7) (lowGroup value) = true) (padTo count : Nat) :
    encodeSLEB128Loop padTo value count = ((lowGroup value ||| 0x80#8) ::
        (encodeSLEB128Loop padTo (value.sshiftRight 7) (count + 1)).1,
        (encodeSLEB128Loop padTo (value.sshiftRight 7) (count + 1)).2) := by
  rw [encodeSLEB128Loop]
  simp only [hmore, dite_true, true_or, if_true]

theorem encodeSLEB128Loop_last {value : BitVec 64}
    (hmore : more (value.sshiftRight 7) (lowGroup value) = false) (padTo count : Nat) :
    encodeSLEB128Loop padTo value count =
      ([if count + 1 < padTo then lowGroup value ||| 0x80#8 else lowGroup value],
        value.sshiftRight 7, count + 1) := by
  rw [encodeSLEB128Loop]
  simp only [hmore, Bool.false_eq_true, dite_false, false_or]

theorem signedValue_marked (value : BitVec 64) (hrest : rest ≠ []) :
    signedValue ((lowGroup value ||| 0x80#8) :: rest) =
      value.toInt % 128 + 128 * signedValue rest := by
  have hgroup := (toNat_or_continue (lowGroup value) (lowGroup_lt value)).2
  have hlow := lowGroup_toInt value
  rw [signedValue_cons _ hrest]
  omega

theorem encodeSLEB128Loop_spec (padTo : Nat) (value : BitVec 64) (count : Nat) :
    (encodeSLEB128Loop padTo value count).2.2 =
        count + (encodeSLEB128Loop padTo value count).1.length ∧
      (encodeSLEB128Loop padTo value count).2.1.toInt = (if value.toInt < 0 then -1 else 0) ∧
      ∀ tail, PadsSigned padTo (encodeSLEB128Loop padTo value count).2.2
          (encodeSLEB128Loop padTo value count).2.1.toInt tail →
        Terminated ((encodeSLEB128Loop padTo value count).1 ++ tail) ∧
          signedValue ((encodeSLEB128Loop padTo value count).1 ++ tail) = value.toInt := by
  have hlow := fun value => toNat_or_continue (lowGroup value) (lowGroup_lt value)
  induction value, count using encodeSLEB128Loop.induct padTo with
  | case1 value count byte rest hmore _ _ _ ih =>
    have hrest : rest.toInt = value.toInt / 128 := toInt_sshiftRight value
    obtain ⟨hlength, hsign, htail⟩ := ih
    rw [encodeSLEB128Loop_more hmore]
    refine ⟨?_, ?_, fun tail hpads => ?_⟩
    · show (encodeSLEB128Loop padTo rest (count + 1)).2.2 =
        count + ((encodeSLEB128Loop padTo rest (count + 1)).1.length + 1)
      omega
    · rw [hsign]
      exact if_congr (by omega) rfl rfl
    · obtain ⟨hterminated, hvalue⟩ := htail tail hpads
      refine ⟨.next (hlow value).1 hterminated, ?_⟩
      rw [cons_append, signedValue_marked value hterminated.ne_nil, hvalue, hrest]
      omega
  | case2 value count byte rest hmore =>
    have hlast := Bool.eq_false_of_not_eq_true hmore
    have hrest : rest.toInt = value.toInt / 128 := toInt_sshiftRight value
    have hrange := (more_eq_false_iff value).mp hlast
    have hgroup := lowGroup_toInt value
    rw [encodeSLEB128Loop_last hlast]
    refine ⟨rfl, ?_, fun tail hpads => ?_⟩
    · show rest.toInt = _
      split_ifs <;> omega
    · unfold PadsSigned at hpads
      split at hpads
      · next hpad =>
          obtain ⟨hterminated, hvalue⟩ := hpads
          rw [if_pos hpad]
          refine ⟨.next (hlow value).1 hterminated, ?_⟩
          rw [singleton_append, signedValue_marked value hterminated.ne_nil, hvalue]
          show _ + 128 * rest.toInt = _
          omega
      · next hpad =>
          subst hpads
          rw [append_nil, if_neg hpad]
          refine ⟨.last (lowGroup_lt value), ?_⟩
          simp only [signedValue]
          split_ifs <;> omega

theorem encodeSLEB128Loop_length_pos (padTo : Nat) (value : BitVec 64) (count : Nat) :
    0 < (encodeSLEB128Loop padTo value count).1.length := by
  cases hmore : more (value.sshiftRight 7) (lowGroup value) with
  | false =>
    rw [encodeSLEB128Loop_last hmore]
    exact Nat.one_pos
  | true =>
    rw [encodeSLEB128Loop_more hmore]
    exact Nat.succ_pos _

theorem encodeSLEB128Loop_length_le (padTo : Nat) (value : BitVec 64) (count : Nat) :
    ∀ m : Nat, (encodeSLEB128Loop padTo value count).1.length ≤ m + 1 ↔
      -(64 * 128 ^ m) ≤ value.toInt ∧ value.toInt < 64 * 128 ^ m := by
  induction value, count using encodeSLEB128Loop.induct padTo with
  | case1 value count byte rest hmore _ _ _ ih =>
    have hrest : rest.toInt = value.toInt / 128 := toInt_sshiftRight value
    have hrange : ¬ (-64 ≤ value.toInt ∧ value.toInt < 64) := by
      rw [← more_eq_false_iff, Bool.not_eq_false]
      exact hmore
    intro m
    rw [encodeSLEB128Loop_more hmore, length_cons, Nat.add_le_add_iff_right]
    cases m with
    | zero =>
      have hpos := encodeSLEB128Loop_length_pos padTo rest (count + 1)
      show (encodeSLEB128Loop padTo rest (count + 1)).1.length ≤ 0 ↔ _
      omega
    | succ m =>
      rw [ih, hrest, pow_succ]
      omega
  | case2 value count byte rest hmore =>
    have hrange := (more_eq_false_iff value).mp (Bool.eq_false_of_not_eq_true hmore)
    intro m
    have hpow : (0 : Int) < 128 ^ m := Int.pow_pos (by omega)
    rw [encodeSLEB128Loop_last (Bool.eq_false_of_not_eq_true hmore), length_singleton]
    omega

theorem signedPadding (negative : Prop) [Decidable negative] (k : Nat) :
    let padValue := if negative then 0x7f#8 else 0x00#8
    Terminated (replicate k (padValue ||| 0x80#8) ++ [padValue]) ∧
      signedValue (replicate k (padValue ||| 0x80#8) ++ [padValue]) =
        if negative then -1 else 0 := by
  induction k with
  | zero =>
    by_cases hneg : negative
    · simp only [hneg, if_true]
      exact ⟨.last (by decide), by decide⟩
    · simp only [hneg, if_false]
      exact ⟨.last (by decide), by decide⟩
  | succ k ih =>
    obtain ⟨hterminated, hvalue⟩ := ih
    refine ⟨.next ?_ hterminated, ?_⟩
    · by_cases hneg : negative
      · simp only [hneg, if_true]
        decide
      · simp only [hneg, if_false]
        decide
    · rw [replicate_succ, cons_append, signedValue_cons _ hterminated.ne_nil, hvalue]
      by_cases hneg : negative
      · simp only [hneg, if_true]
        decide
      · simp only [hneg, if_false]
        decide

theorem encodeSLEB128_spec (value : BitVec 64) (padTo : Nat) :
    Terminated (encodeSLEB128 value padTo) ∧ signedValue (encodeSLEB128 value padTo) = value.toInt ∧
      (encodeSLEB128 value padTo).length =
        max (encodeSLEB128Loop padTo value 0).1.length padTo := by
  obtain ⟨hlength, hsign, htail⟩ := encodeSLEB128Loop_spec padTo value 0
  unfold encodeSLEB128
  generalize encodeSLEB128Loop padTo value 0 = result at hlength hsign htail ⊢
  obtain ⟨bytes, rest, count⟩ := result
  dsimp only at hlength hsign htail ⊢
  by_cases hpad : count < padTo
  · rw [if_pos hpad, append_assoc]
    obtain ⟨hterminated, hvalue⟩ := signedPadding (rest.toInt < 0) (padTo - 1 - count)
    have hrest : rest.toInt = if rest.toInt < 0 then -1 else 0 := by
      split_ifs <;> omega
    have hpads := htail _ (by
      rw [PadsSigned, if_pos hpad]
      exact ⟨hterminated, hvalue.trans hrest.symm⟩)
    refine ⟨hpads.1, hpads.2, ?_⟩
    rw [length_append, length_append, length_replicate, length_singleton]
    omega
  · rw [if_neg hpad]
    obtain ⟨hterminated, hvalue⟩ := htail [] (by rw [PadsSigned, if_neg hpad])
    rw [append_nil] at hterminated hvalue
    exact ⟨hterminated, hvalue, by omega⟩

theorem encodeSLEB128_length_le (value : BitVec 64) (padTo m : Nat) :
    (encodeSLEB128 value padTo).length ≤ m + 1 ↔
      padTo ≤ m + 1 ∧ -(64 * 128 ^ m) ≤ value.toInt ∧ value.toInt < 64 * 128 ^ m := by
  rw [(encodeSLEB128_spec value padTo).2.2, max_le_iff, encodeSLEB128Loop_length_le, and_comm]

theorem toNat_ushiftRight_seven (value : BitVec 64) : (value >>> 7).toNat = value.toNat / 128 := by
  rw [BitVec.toNat_ushiftRight, Nat.shiftRight_eq_div_pow]

theorem ushiftRight_seven_eq_zero {value : BitVec 64} :
    value >>> 7 = 0#64 ↔ value.toNat < 128 := by
  rw [← BitVec.toNat_inj, toNat_ushiftRight_seven]
  exact Nat.div_eq_zero_iff_lt (by omega)

theorem encodeULEB128Loop_more {value : BitVec 64} (hmore : value >>> 7 ≠ 0#64)
    (padTo count : Nat) :
    encodeULEB128Loop padTo value count =
      ((lowGroup value ||| 0x80#8) :: (encodeULEB128Loop padTo (value >>> 7) (count + 1)).1,
        (encodeULEB128Loop padTo (value >>> 7) (count + 1)).2) := by
  rw [encodeULEB128Loop]
  simp only [ne_eq, hmore, not_false_eq_true, dite_true, true_or, if_true]

theorem encodeULEB128Loop_last {value : BitVec 64} (hmore : value >>> 7 = 0#64)
    (padTo count : Nat) :
    encodeULEB128Loop padTo value count =
      ([if count + 1 < padTo then lowGroup value ||| 0x80#8 else lowGroup value], count + 1) := by
  rw [encodeULEB128Loop]
  simp only [ne_eq, hmore, not_true_eq_false, dite_false, false_or]

theorem groupsValue_marked (value : BitVec 64) (rest : List (BitVec 8)) :
    groupsValue ((lowGroup value ||| 0x80#8) :: rest) =
      value.toNat % 128 + 128 * groupsValue rest := by
  rw [groupsValue, (toNat_or_continue _ (lowGroup_lt value)).2, lowGroup_toNat]

theorem encodeULEB128Loop_spec (padTo : Nat) (value : BitVec 64) (count : Nat) :
    (encodeULEB128Loop padTo value count).2 =
        count + (encodeULEB128Loop padTo value count).1.length ∧
      ∀ tail, (if (encodeULEB128Loop padTo value count).2 < padTo then
            Terminated tail ∧ groupsValue tail = 0 else tail = []) →
        Terminated ((encodeULEB128Loop padTo value count).1 ++ tail) ∧
          groupsValue ((encodeULEB128Loop padTo value count).1 ++ tail) = value.toNat := by
  have hlow := fun value => toNat_or_continue (lowGroup value) (lowGroup_lt value)
  induction value, count using encodeULEB128Loop.induct padTo with
  | case1 value count rest hmore _ _ _ ih =>
    have hrest : rest.toNat = value.toNat / 128 := toNat_ushiftRight_seven value
    obtain ⟨hlength, htail⟩ := ih
    rw [encodeULEB128Loop_more hmore]
    refine ⟨?_, fun tail hpads => ?_⟩
    · show (encodeULEB128Loop padTo rest (count + 1)).2 =
        count + ((encodeULEB128Loop padTo rest (count + 1)).1.length + 1)
      omega
    · obtain ⟨hterminated, hvalue⟩ := htail tail hpads
      refine ⟨.next (hlow value).1 hterminated, ?_⟩
      rw [cons_append, groupsValue_marked, hvalue, hrest]
      omega
  | case2 value count rest hmore =>
    have hlast : value >>> 7 = 0#64 := Classical.not_not.mp hmore
    have hsmall := ushiftRight_seven_eq_zero.mp hlast
    rw [encodeULEB128Loop_last hlast]
    refine ⟨rfl, fun tail hpads => ?_⟩
    split at hpads
    · next hpad =>
        obtain ⟨hterminated, hvalue⟩ := hpads
        rw [if_pos hpad]
        refine ⟨.next (hlow value).1 hterminated, ?_⟩
        rw [singleton_append, groupsValue_marked, hvalue]
        omega
    · next hpad =>
        subst hpads
        rw [append_nil, if_neg hpad]
        refine ⟨.last (lowGroup_lt value), ?_⟩
        rw [groupsValue, groupsValue, lowGroup_toNat]
        omega

theorem encodeULEB128Loop_length_le (padTo : Nat) (value : BitVec 64) (count : Nat) :
    ∀ m : Nat, value.toNat < 128 * 128 ^ m →
      (encodeULEB128Loop padTo value count).1.length ≤ m + 1 := by
  induction value, count using encodeULEB128Loop.induct padTo with
  | case1 value count rest hmore _ _ _ ih =>
    have hrest : rest.toNat = value.toNat / 128 := toNat_ushiftRight_seven value
    have hlarge : ¬ value.toNat < 128 :=
      fun hsmall => hmore (ushiftRight_seven_eq_zero.mpr hsmall)
    intro m hm
    rw [encodeULEB128Loop_more hmore, length_cons, Nat.add_le_add_iff_right]
    cases m with
    | zero =>
      omega
    | succ m =>
      refine ih m ?_
      omega
  | case2 value count rest hmore =>
    rw [encodeULEB128Loop_last (Classical.not_not.mp hmore), length_singleton]
    omega

theorem unsignedPadding (k : Nat) :
    Terminated (replicate k 0x80#8 ++ [0x00#8]) ∧
      groupsValue (replicate k 0x80#8 ++ [0x00#8]) = 0 := by
  induction k with
  | zero => exact ⟨.last (by decide), rfl⟩
  | succ k ih =>
    refine ⟨.next (by decide) ih.1, ?_⟩
    rw [replicate_succ, cons_append, groupsValue, ih.2]
    rfl

theorem encodeULEB128_spec (value : BitVec 64) (padTo : Nat) :
    Terminated (encodeULEB128 value padTo) ∧ groupsValue (encodeULEB128 value padTo) = value.toNat ∧
      (encodeULEB128 value padTo).length =
        max (encodeULEB128Loop padTo value 0).1.length padTo := by
  obtain ⟨hlength, htail⟩ := encodeULEB128Loop_spec padTo value 0
  unfold encodeULEB128
  generalize encodeULEB128Loop padTo value 0 = result at hlength htail ⊢
  obtain ⟨bytes, count⟩ := result
  dsimp only at hlength htail ⊢
  by_cases hpad : count < padTo
  · rw [if_pos hpad, append_assoc]
    have hpads := htail (replicate (padTo - 1 - count) 0x80#8 ++ [0x00#8]) (by
      rw [if_pos hpad]
      exact unsignedPadding _)
    refine ⟨hpads.1, hpads.2, ?_⟩
    rw [length_append, length_append, length_replicate, length_singleton]
    omega
  · rw [if_neg hpad]
    obtain ⟨hterminated, hvalue⟩ := htail [] (by rw [if_neg hpad])
    rw [append_nil] at hterminated hvalue
    exact ⟨hterminated, hvalue, by omega⟩

theorem toNat_shiftLeft_of_lt {shift : Nat} (h : x.toNat * 2 ^ shift < 2 ^ 64) :
    (x <<< shift).toNat = x.toNat * 2 ^ shift := by
  rw [BitVec.toNat_shiftLeft, Nat.shiftLeft_eq, Nat.mod_eq_of_lt h]

theorem ushiftRight_shiftLeft_of_lt {shift : Nat}
    (h : x.toNat * 2 ^ shift < 2 ^ 64) : x <<< shift >>> shift = x := by
  refine BitVec.eq_of_toNat_eq ?_
  rw [BitVec.toNat_ushiftRight, toNat_shiftLeft_of_lt h, Nat.shiftRight_eq_div_pow,
    Nat.mul_div_cancel _ (Nat.two_pow_pos shift)]

theorem decodeULEB128Loop_cons (n : Nat) (value : BitVec 64) (shift : Nat) (byte : BitVec 8)
    (rest : List (BitVec 8)) :
    decodeULEB128Loop n value shift (byte :: rest) =
      let slice := (byte &&& 0x7f#8).setWidth 64
      if 64 ≤ shift ∨ slice <<< shift >>> shift ≠ slice then
        some (.error "uleb128 too big for uint64" n)
      else if 128 ≤ byte.toNat then
        decodeULEB128Loop (n + 1) (value + slice <<< shift) (shift + 7) rest
      else some (.value (value + slice <<< shift) (n + 1)) := by
  rw [decodeULEB128Loop]
  by_cases hshift : 64 ≤ shift
  · simp only [ge_iff_le, hshift, if_true, true_or, Option.bind_eq_bind, Option.bind_some]
  · have hlt := Nat.not_le.mp hshift
    simp only [ge_iff_le, hshift, if_false, shl_eq_some hlt, lshr, if_pos hlt, false_or,
      Option.bind_eq_bind, Option.bind_some, bne_iff_ne]

theorem group_fits {group : BitVec 64} {shift : Nat} (hshift : shift < 64)
    (hgroup : group.toNat * 2 ^ shift < 2 ^ 64) :
    ¬ (64 ≤ shift ∨ group <<< shift >>> shift ≠ group) :=
  fun h => h.elim (by omega) fun hne => hne (ushiftRight_shiftLeft_of_lt hgroup)

/-- The unsigned decoder finds the number that the groups stand for, when they are at most ten and
the number fits. -/
theorem decodeULEB128Loop_eq (h : Terminated bytes) {value : BitVec 64}
    {shift : Nat} (hshift : shift + 7 * bytes.length < 71)
    (hvalue : value.toNat + groupsValue bytes * 2 ^ shift < 2 ^ 64) (n : Nat) :
    decodeULEB128Loop n value shift bytes =
      some (.value (BitVec.ofNat 64 (value.toNat + groupsValue bytes * 2 ^ shift))
        (n + bytes.length)) := by
  induction h generalizing value shift n with
  | @last byte hbyte =>
    rw [groupsValue, groupsValue, Nat.mul_zero, Nat.add_zero, ← toNat_group] at hvalue ⊢
    rw [length_singleton] at hshift ⊢
    rw [decodeULEB128Loop_cons]
    have hgroup : ((byte &&& 0x7f#8).setWidth 64).toNat * 2 ^ shift < 2 ^ 64 := by omega
    have hfits := group_fits (show shift < 64 by omega) hgroup
    rw [if_neg hfits, if_neg (by omega)]
    refine congrArg (fun x => some (Decoded.value x (n + 1))) (BitVec.eq_of_toNat_eq ?_)
    rw [BitVec.toNat_add, toNat_shiftLeft_of_lt hgroup, BitVec.toNat_ofNat]
  | @next byte rest hbyte hrest ih =>
    rw [length_cons] at hshift ⊢
    have hsum : value.toNat + groupsValue (byte :: rest) * 2 ^ shift =
        value.toNat + byte.toNat % 128 * 2 ^ shift + groupsValue rest * 2 ^ (shift + 7) := by
      rw [groupsValue, pow_add]
      ring
    rw [hsum, ← toNat_group] at hvalue ⊢
    rw [decodeULEB128Loop_cons]
    have hgroup : ((byte &&& 0x7f#8).setWidth 64).toNat * 2 ^ shift < 2 ^ 64 := by omega
    have hfits := group_fits (show shift < 64 by omega) hgroup
    have hnext : (value + (byte &&& 0x7f#8).setWidth 64 <<< shift).toNat =
        value.toNat + ((byte &&& 0x7f#8).setWidth 64).toNat * 2 ^ shift := by
      rw [BitVec.toNat_add, toNat_shiftLeft_of_lt hgroup, Nat.mod_eq_of_lt (by omega)]
    rw [if_neg hfits, if_pos hbyte, ih (by omega) (by rw [hnext]; exact hvalue),
      hnext, Nat.add_assoc n, Nat.add_comm 1]

theorem decodeULEB128Loop_error (h : Terminated bytes)
    {value : BitVec 64} {shift : Nat} (hshift : 71 ≤ shift + 7 * bytes.length) (n : Nat) :
    ∃ m, decodeULEB128Loop n value shift bytes =
      some (.error "uleb128 too big for uint64" m) := by
  induction h generalizing value shift n with
  | last hbyte =>
    rw [length_singleton] at hshift
    rw [decodeULEB128Loop_cons]
    exact ⟨n, if_pos (Or.inl (by omega))⟩
  | next hbyte hrest ih =>
    rw [length_cons] at hshift
    rw [decodeULEB128Loop_cons]
    dsimp only
    split
    · exact ⟨n, rfl⟩
    · exact ih (by omega) (n + 1)

theorem decodeULEB128Loop_ne_none (bytes : List (BitVec 8)) (n : Nat) (value : BitVec 64)
    (shift : Nat) : decodeULEB128Loop n value shift bytes ≠ none := by
  induction bytes generalizing n value shift with
  | nil => exact Option.some_ne_none _
  | cons byte rest ih =>
    rw [decodeULEB128Loop_cons]
    dsimp only
    split_ifs
    · exact Option.some_ne_none _
    · exact ih _ _ _
    · exact Option.some_ne_none _

/-- Bytes on which the signed decoder shifts by 64 or more, when `m` groups are below the last one
that its shifts reach: the sign of that group is extended above the value, or another byte is
read. -/
def Overruns (m : Nat) (bytes : List (BitVec 8)) : Prop :=
  (∀ byte ∈ bytes.take m, 128 ≤ byte.toNat) ∧ ∃ byte, bytes[m]? = some byte ∧
      (128 ≤ byte.toNat ∧ m + 1 < bytes.length ∨ 64 ≤ byte.toNat ∧ byte.toNat < 128)

theorem overruns_succ_cons {m : Nat} {byte : BitVec 8} :
    Overruns (m + 1) (byte :: rest) ↔ 128 ≤ byte.toNat ∧ Overruns m rest := by
  simp only [Overruns, take_succ_cons, forall_mem_cons, getElem?_cons_succ,
    length_cons, Nat.add_lt_add_iff_right, and_assoc]

theorem decodeSLEB128Loop_eq_none (bytes : List (BitVec 8)) (n : Nat) (value : BitVec 64)
    (m : Nat) (hm : m ≤ 9) :
    decodeSLEB128Loop n value (63 - 7 * m) bytes = none ↔ Overruns m bytes := by
  induction m generalizing bytes n value with
  | zero =>
    cases bytes with
    | nil => simp [decodeSLEB128Loop, Overruns]
    | cons byte rest =>
      have hcons : Overruns 0 (byte :: rest) ↔
          128 ≤ byte.toNat ∧ rest ≠ [] ∨ 64 ≤ byte.toNat ∧ byte.toNat < 128 := by
        simp [Overruns, length_pos_iff]
      rw [hcons]
      simp only [decodeSLEB128Loop, shl_eq_some (show 63 < 64 by omega), Option.bind_eq_bind,
        Option.bind_some, Nat.mul_zero, Nat.sub_zero]
      split_ifs with hbyte hsign
      · cases rest with
        | nil => simp [decodeSLEB128Loop, hbyte]
        | cons _ _ => simp [decodeSLEB128Loop, hbyte, shl]
      · have hlarge := (signBit_iff byte (by omega)).mp hsign
        simp [shl]
        omega
      · have hsmall := mt (signBit_iff byte (by omega)).mpr hsign
        simp
        omega
  | succ m ih =>
    cases bytes with
    | nil => simp [decodeSLEB128Loop, Overruns]
    | cons byte rest =>
      have hshift : 63 - 7 * (m + 1) + 7 = 63 - 7 * m := by omega
      have hlt : 63 - 7 * (m + 1) < 64 := by omega
      have hnext : 63 - 7 * m < 64 := by omega
      rw [overruns_succ_cons]
      simp only [decodeSLEB128Loop, shl_eq_some hlt, Option.bind_eq_bind, Option.bind_some,
        hshift, shl_eq_some hnext]
      split_ifs with hbyte hsign
      · rw [ih _ _ _ (by omega), and_iff_right hbyte]
      · exact iff_of_false (fun h => h) fun h => hbyte h.1
      · exact iff_of_false (fun h => h) fun h => hbyte h.1

/-- Whether the signed decoder returns the value that was written, without an error, and reads all
the bytes that the encoder wrote. -/
def RoundTripsSLEB128 (value : BitVec 64) (padTo : Nat) : Prop :=
  decodeSLEB128 (encodeSLEB128 value padTo) = some (.value value (encodeSLEB128 value padTo).length)

/-- The same for the unsigned decoder. -/
def RoundTripsULEB128 (value : BitVec 64) (padTo : Nat) : Prop :=
  decodeULEB128 (encodeULEB128 value padTo) = some (.value value (encodeULEB128 value padTo).length)

instance (value : BitVec 64) (padTo : Nat) : Decidable (RoundTripsSLEB128 value padTo) :=
  inferInstanceAs (Decidable (_ = _))

instance (value : BitVec 64) (padTo : Nat) : Decidable (RoundTripsULEB128 value padTo) :=
  inferInstanceAs (Decidable (_ = _))

/-- A signed value is decoded when it needs at most ten bytes, and nine if it is negative: the sign
is extended above the last group. -/
theorem roundTripsSLEB128_iff (value : BitVec 64) (padTo : Nat) :
    RoundTripsSLEB128 value padTo ↔
      padTo ≤ 10 ∧ (value.toInt < 0 → padTo ≤ 9 ∧ -2 ^ 62 ≤ value.toInt) := by
  obtain ⟨hterminated, hvalue, _⟩ := encodeSLEB128_spec value padTo
  have hten := encodeSLEB128_length_le value padTo 9
  have hnine := encodeSLEB128_length_le value padTo 8
  have hrange : -2 ^ 63 ≤ value.toInt ∧ value.toInt < 2 ^ 63 :=
    ⟨BitVec.le_toInt value, BitVec.toInt_lt⟩
  have hzero : BitVec.ofInt 64 ((0#64).toNat + value.toInt * 2 ^ 0) = value := by
    rw [pow_zero, mul_one]
    exact (congrArg _ (Int.zero_add _)).trans (BitVec.ofInt_toInt)
  rw [RoundTripsSLEB128, decodeSLEB128, decodeSLEB128Loop_eq hterminated (by decide) 0, hvalue,
    hzero, Nat.zero_add, Nat.zero_add]
  constructor
  · intro h
    split at h
    · next hlt => omega
    · exact absurd h.symm (Option.some_ne_none _)
  · intro h
    exact if_pos (by omega)

theorem roundTripsULEB128_iff (value : BitVec 64) (padTo : Nat) :
    RoundTripsULEB128 value padTo ↔ padTo ≤ 10 := by
  obtain ⟨hterminated, hvalue, hlength⟩ := encodeULEB128_spec value padTo
  have hgroups := encodeULEB128Loop_length_le padTo value 0 9 (by omega)
  have hzero : (0#64).toNat + value.toNat * 2 ^ 0 = value.toNat := by
    rw [pow_zero, mul_one]
    exact Nat.zero_add _
  constructor
  · intro h
    by_contra hlarge
    obtain ⟨m, herror⟩ := @decodeULEB128Loop_error _ hterminated 0#64 0 (by omega) 0
    rw [RoundTripsULEB128, decodeULEB128, herror] at h
    cases h
  · intro h
    rw [RoundTripsULEB128, decodeULEB128, decodeULEB128Loop_eq hterminated (by omega)
      (by rw [hvalue, hzero]; exact value.isLt), hvalue, hzero, Nat.zero_add, BitVec.ofNat_toNat,
      BitVec.setWidth_eq]

/-- The exact conditions under which the encodings are decoded, and under which no decoder shifts
by 64 or more. -/
theorem roundTrips_iff (value : BitVec 64) (padTo : Nat) (bytes : List (BitVec 8)) :
    (RoundTripsSLEB128 value padTo ↔
        padTo ≤ 10 ∧ (value.toInt < 0 → padTo ≤ 9 ∧ -2 ^ 62 ≤ value.toInt)) ∧
      (RoundTripsULEB128 value padTo ↔ padTo ≤ 10) ∧
      decodeULEB128 bytes ≠ none ∧ (decodeSLEB128 bytes ≠ none ↔ ¬ Overruns 9 bytes) :=
  ⟨roundTripsSLEB128_iff value padTo, roundTripsULEB128_iff value padTo,
    decodeULEB128Loop_ne_none bytes 0 0#64 0,
    not_congr (decodeSLEB128Loop_eq_none bytes 0 0#64 9 (Nat.le_refl 9))⟩

/-- The least value needs ten bytes. The last one is negative, and its sign is extended by a shift
by 70. -/
theorem not_roundTripsSLEB128_intMin :
    ¬ RoundTripsSLEB128 (BitVec.intMin 64) 0 ∧
      decodeSLEB128 (encodeSLEB128 (BitVec.intMin 64) 0) = none := by
  have hbytes : encodeSLEB128 (BitVec.intMin 64) 0 = replicate 9 0x80#8 ++ [0x7f#8] := by
    decide +kernel
  rw [RoundTripsSLEB128, hbytes]
  decide

end Zapcc.LEB128
