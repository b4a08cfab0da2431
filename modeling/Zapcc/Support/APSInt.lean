import Zapcc.Support.APIntDivision

/-!
# Integers with a signedness

`APSInt` is an `APInt` that carries whether it is unsigned. Its operations choose the signed or the
unsigned one of `APInt`. The `_ov` operations also say whether they overflowed. That answer only
feeds a warning, and is left out.
-/

namespace Zapcc

/-- An integer of `w` bits with a signedness. -/
structure APSInt (w : Nat) where
  Val : BitVec w
  IsUnsigned : Bool
  deriving DecidableEq

namespace APInt

variable {w : Nat}

def sadd_ov (x RHS : BitVec w) : BitVec w := x + RHS

def ssub_ov (x RHS : BitVec w) : BitVec w := x - RHS

def sdiv_ov (x RHS : BitVec w) : Option (BitVec w) := sdiv x RHS

def smul_ov (x RHS : BitVec w) : BitVec w := x * RHS

/-- Shift a signed value left. -/
def sshl_ov (x ShAmt : BitVec w) : BitVec w := if w ≤ ShAmt.toNat then 0#w else shl x ShAmt

/-- Shift an unsigned value left. -/
def ushl_ov (x ShAmt : BitVec w) : BitVec w := if w ≤ ShAmt.toNat then 0#w else shl x ShAmt

/-- The value of a truth value. -/
def ofBool (w : Nat) (b : Bool) : BitVec w := if b then 1#w else 0#w

end APInt

namespace APSInt

variable {w : Nat}

/-- The value zero of some signedness. -/
def zero (w : Nat) (isUnsigned : Bool) : APSInt w := ⟨0#w, isUnsigned⟩

/-- Assign a value, which keeps the signedness. -/
def assign (x : APSInt w) (RHS : BitVec w) : APSInt w := ⟨RHS, x.IsUnsigned⟩

def setIsUnsigned (x : APSInt w) (Val : Bool) : APSInt w := ⟨x.Val, Val⟩

def rem (x RHS : APSInt w) : Option (APSInt w) :=
  if x.IsUnsigned then (APInt.urem x.Val RHS.Val).map (⟨·, true⟩)
  else (APInt.srem x.Val RHS.Val).map (⟨·, false⟩)

def div (x RHS : APSInt w) : Option (APSInt w) :=
  if x.IsUnsigned then (APInt.udiv x.Val RHS.Val).map (⟨·, true⟩)
  else (APInt.sdiv x.Val RHS.Val).map (⟨·, false⟩)

/-- Shift right, and keep the sign of a signed value. -/
def shr (x : APSInt w) (Amt : Nat) : APSInt w :=
  if x.IsUnsigned then ⟨x.Val >>> Amt, true⟩ else ⟨x.Val.sshiftRight Amt, false⟩

/-- Whether one value is below another. -/
def lt (x RHS : APSInt w) : Bool := if x.IsUnsigned then x.Val.ult RHS.Val else x.Val.slt RHS.Val

/-- Whether one value is at most another. -/
def le (x RHS : APSInt w) : Bool := if x.IsUnsigned then x.Val.ule RHS.Val else x.Val.sle RHS.Val

/-- Whether one value is above another. -/
def gt (x RHS : APSInt w) : Bool := if x.IsUnsigned then RHS.Val.ult x.Val else RHS.Val.slt x.Val

/-- Whether one value is at least another. -/
def ge (x RHS : APSInt w) : Bool := if x.IsUnsigned then RHS.Val.ule x.Val else RHS.Val.sle x.Val

end APSInt

end Zapcc
