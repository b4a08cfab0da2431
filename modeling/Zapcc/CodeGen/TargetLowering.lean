import Zapcc.Support.UnsignedMagic

/-!
# Lowering a division by a constant

The expressions that are emitted for a division by a constant, with the values that they compute.
An expression has no value where a shift amount is not below the width, or where an exact shift
loses a bit.
-/

namespace Zapcc.CodeGen

open Magic

variable {w : Nat}

/-- The operations that compute the high half of a product. -/
inductive Opcode where
  | MULHS
  | SMUL_LOHI
  | MULHU
  | UMUL_LOHI
  deriving DecidableEq

/-- What is asked of the target: whether the type is legal, and which operations are legal or
custom. -/
structure Target where
  isTypeLegal : Bool
  isOperationLegal : Opcode → Bool
  isOperationCustom : Opcode → Bool

/-- The test of an operation, which depends on the phase. -/
def Target.supports (T : Target) (IsAfterLegalization : Bool) (op : Opcode) : Bool :=
  if IsAfterLegalization then T.isOperationLegal op
  else T.isOperationLegal op || T.isOperationCustom op

/-- A value of the selection graph of a division, whose first operand is the dividend. The nodes
for the two halves of a product stand for their second result, the high half. -/
inductive SDValue (w : Nat) where
  | operand
  | constant (c : BitVec w)
  | mulhs (a b : SDValue w)
  | smulLohi (a b : SDValue w)
  | mulhu (a b : SDValue w)
  | umulLohi (a b : SDValue w)
  | mul (a b : SDValue w)
  | add (a b : SDValue w)
  | sub (a b : SDValue w)
  | srl (a : SDValue w) (amount : Nat)
  | sra (a : SDValue w) (amount : Nat) (exact : Bool)

/-- The high half of a signed product. -/
def mulhs (a b : BitVec w) : BitVec w := BitVec.ofInt w (a.toInt * b.toInt / 2 ^ w)

/-- The high half of an unsigned product. -/
def mulhu (a b : BitVec w) : BitVec w := BitVec.ofNat w (a.toNat * b.toNat / 2 ^ w)

/-- The value of an expression for a dividend. -/
def SDValue.eval (n : BitVec w) : SDValue w → Option (BitVec w)
  | operand => some n
  | constant c => some c
  | .mulhs a b | .smulLohi a b => (a.eval n).bind fun x => (b.eval n).map (CodeGen.mulhs x)
  | .mulhu a b | .umulLohi a b => (a.eval n).bind fun x => (b.eval n).map (CodeGen.mulhu x)
  | mul a b => (a.eval n).bind fun x => (b.eval n).map (x * ·)
  | add a b => (a.eval n).bind fun x => (b.eval n).map (x + ·)
  | sub a b => (a.eval n).bind fun x => (b.eval n).map (x - ·)
  | srl a amount =>
    (a.eval n).bind fun x => if amount < w then some (x >>> amount) else none
  | sra a amount exact =>
    (a.eval n).bind fun x =>
      if amount < w ∧ (exact = true → x.sshiftRight amount <<< amount = x) then
        some (x.sshiftRight amount)
      else none

/-- The high half of a product, by the first of two operations that the target supports. -/
def highProduct (T : Target) (IsAfterLegalization : Bool) (high lohi : Opcode × SDValue w) :
    Option (SDValue w) :=
  if T.supports IsAfterLegalization high.1 then some high.2
  else if T.supports IsAfterLegalization lohi.1 then some lohi.2
  else none

/-! ## Exact division -/

/-- Newton's iteration for the inverse of an odd number, of at most `fuel` steps. -/
def newton (d : BitVec w) : Nat → BitVec w → Option (BitVec w)
  | 0, _ => none
  | fuel + 1, xn =>
    let t := d * xn
    if t ≠ 1 then newton d fuel (xn * (BitVec.ofNat w 2 - t)) else some xn

/-- The expression for a division that is known to be exact. -/
def BuildExactSDIV (Op1 : SDValue w) (d : BitVec w) (fuel : Nat) : Option (SDValue w) :=
  -- shift the value upfront if it is even, so that the low bit is one
  let ShAmt := d.ctz.toNat
  let Op1 := if ShAmt ≠ 0 then .sra Op1 ShAmt true else Op1
  let d := if ShAmt ≠ 0 then d.sshiftRight ShAmt else d
  (newton d fuel d).map fun xn => .mul Op1 (.constant xn)

/-! ## Signed division -/

/-- Add or subtract the numerator where the magic number has the other sign than the divisor. -/
def fixup (Divisor m : BitVec w) (Q : SDValue w) : SDValue w :=
  let Q := if 0 < Divisor.toInt ∧ m.toInt < 0 then .add Q .operand else Q
  if Divisor.toInt < 0 ∧ 0 < m.toInt then .sub Q .operand else Q

/-- Shift right if the shift amount is not zero, and add the sign bit to the quotient. -/
def shiftAndRound (Q : SDValue w) (s : Nat) : SDValue w :=
  let Q := if s > 0 then .sra Q s false else Q
  .add Q (.srl Q (w - 1))

/-- The expression for a signed division, where the inner option is empty if the target does not
support it. The searches make at most `fuel` steps. -/
def BuildSDIV (T : Target) (IsAfterLegalization hasExact : Bool) (Divisor : BitVec w)
    (fuel : Nat) : Option (Option (SDValue w)) :=
  if T.isTypeLegal = false then some none
  else if hasExact then (BuildExactSDIV .operand Divisor fuel).map some
  else
    (magic Divisor fuel).map fun magics =>
      (highProduct T IsAfterLegalization (.MULHS, .mulhs .operand (.constant magics.m))
        (.SMUL_LOHI, .smulLohi .operand (.constant magics.m))).map fun Q =>
          shiftAndRound (fixup Divisor magics.m Q) magics.s

/-! ## Unsigned division -/

/-- The expression for an unsigned division. The outer option is empty if an assertion fails, and
the inner one if the target does not support the expression. -/
def BuildUDIV (T : Target) (IsAfterLegalization : Bool) (Divisor : BitVec w) :
    Option (Option (SDValue w)) :=
  if T.isTypeLegal = false then some none
  else
    let magics := magicu Divisor 0
    let preshift := magics.a ∧ Divisor.getLsbD 0 = false
    let Shift := Divisor.ctz.toNat
    let Q : SDValue w := if preshift then .srl .operand Shift else .operand
    let magics := if preshift then magicu (Divisor >>> Shift) Shift else magics
    if preshift ∧ magics.a then none
    else
      match highProduct T IsAfterLegalization (.MULHU, .mulhu Q (.constant magics.m))
        (.UMUL_LOHI, .umulLohi Q (.constant magics.m)) with
      | none => some none
      | some Q =>
        if magics.a = false then
          if magics.s < w then some (some (.srl Q magics.s)) else none
        else
          let NPQ := .srl (.sub .operand Q) 1
          some (some (.srl (.add NPQ Q) (magics.s - 1)))

variable {IsAfterLegalization : Bool} {high lohi : Opcode × SDValue w}

theorem highProduct_eq {T : Target}
    {Q : SDValue w} (h : highProduct T IsAfterLegalization high lohi = some Q) :
    Q = high.2 ∨ Q = lohi.2 := by
  unfold highProduct at h
  split at h
  · exact .inl (Option.some.inj h).symm
  · split at h
    · exact .inr (Option.some.inj h).symm
    · simp at h

theorem isSome_highProduct {T : Target}:
    (highProduct T IsAfterLegalization high lohi).isSome ↔
      T.supports IsAfterLegalization high.1 = true ∨
        T.supports IsAfterLegalization lohi.1 = true := by
  unfold highProduct
  split
  · simp [*]
  · split <;> simp [*]

theorem supports_of_highProduct {T : Target}
    {Q : SDValue w}
    (h : highProduct T IsAfterLegalization high lohi = some Q) :
    T.supports IsAfterLegalization high.1 = true ∨ T.supports IsAfterLegalization lohi.1 = true :=
  isSome_highProduct.mp (by rw [h]; rfl)

theorem not_supports_of_highProduct {T : Target}
    (h : highProduct T IsAfterLegalization high lohi = none) :
    ¬(T.supports IsAfterLegalization high.1 = true ∨
      T.supports IsAfterLegalization lohi.1 = true) := by
  intro hsupports
  have hsome := isSome_highProduct.mpr hsupports
  rw [h] at hsome
  simp at hsome

end Zapcc.CodeGen
