import Zapcc.Rewrite.DeltaTree
import Zapcc.Rewrite.RewriteRope

/-!
# The rewrite buffer

`RewriteBuffer` holds the edited text and the deltas that map offsets of the original buffer into
it. The text is the plain string that the rope holds, with the operations of the rope on such a
string.
-/

namespace Zapcc.Rewrite

structure RewriteBuffer where
  Deltas : DeltaTree
  Buffer : List UInt8

/-- An operation of the rope, with its assertions. -/
def editText (s : List UInt8) (op : RewriteRope.Op) : Option (List UInt8) :=
  if op.InRange s then some (op.apply s) else none

/-- `isWhitespaceExceptNL`: `' '`, `'\t'`, `'\f'`, `'\v'`, `'\r'`. -/
def isWhitespaceExceptNL (c : UInt8) : Bool := c = 32 || c = 9 || c = 12 || c = 11 || c = 13

/-- The loop that looks for the start of the line, over the characters in front of the offset. -/
def lineStart : List UInt8 → Nat → Nat → Nat
  | [], _, curLineStartOffs => curLineStartOffs
  | c :: cs, i, curLineStartOffs =>
    lineStart cs (i + 1) (if c = 10 then i + 1 else curLineStartOffs)

/-- The start and the length of the line of an offset, when the line is empty. -/
def emptyLine (s : List UInt8) (RealOffset : Nat) : Option (Nat × Nat) :=
  let curLineStartOffs := lineStart (s.take RealOffset) 0 0
  let lineSize := ((s.drop curLineStartOffs).takeWhile isWhitespaceExceptNL).length
  if s[curLineStartOffs + lineSize]? = some 10 then some (curLineStartOffs, lineSize + 1) else none

namespace RewriteBuffer

def Initialize (Input : List UInt8) : RewriteBuffer := ⟨DeltaTree.new, Input⟩

def getMappedOffset (b : RewriteBuffer) (OrigOffset : Nat) (AfterInserts : Bool) : Option Nat := do
  let Delta ← b.Deltas.getDeltaAt ((2 * OrigOffset + AfterInserts.toNat) % 2 ^ 32)
  some ((Delta + OrigOffset) % 2 ^ 32).toNat

def AddInsertDelta (b : RewriteBuffer) (OrigOffset : Nat) (Change : Int) :
    Option RewriteBuffer := do
  let Deltas ← b.Deltas.AddDelta (2 * OrigOffset % 2 ^ 32) Change
  some { b with Deltas := Deltas }

def AddReplaceDelta (b : RewriteBuffer) (OrigOffset : Nat) (Change : Int) :
    Option RewriteBuffer := do
  let Deltas ← b.Deltas.AddDelta ((2 * OrigOffset + 1) % 2 ^ 32) Change
  some { b with Deltas := Deltas }

/-- An operation on the text. -/
def edit (b : RewriteBuffer) (op : RewriteRope.Op) : Option RewriteBuffer := do
  let Buffer ← editText b.Buffer op
  some { b with Buffer := Buffer }

def removeEmptyLine (b : RewriteBuffer) (RealOffset : Nat) : Option RewriteBuffer :=
  match emptyLine b.Buffer RealOffset with
  | none => some b
  | some (curLineStartOffs, size) => do
      let b ← b.edit (.erase curLineStartOffs size)
      b.AddReplaceDelta curLineStartOffs (-size)

def RemoveText (b : RewriteBuffer) (OrigOffset Size : Nat) (removeLineIfEmpty : Bool) :
    Option RewriteBuffer :=
  if Size = 0 then some b
  else do
    let RealOffset ← b.getMappedOffset OrigOffset true
    let b ← b.edit (.erase RealOffset Size)
    let b ← b.AddReplaceDelta OrigOffset (-Size)
    if removeLineIfEmpty then b.removeEmptyLine RealOffset else some b

def InsertText (b : RewriteBuffer) (OrigOffset : Nat) (Str : List UInt8) (InsertAfter : Bool) :
    Option RewriteBuffer :=
  if Str = [] then some b
  else do
    let RealOffset ← b.getMappedOffset OrigOffset InsertAfter
    let b ← b.edit (.insert RealOffset Str)
    b.AddInsertDelta OrigOffset Str.length

def ReplaceText (b : RewriteBuffer) (OrigOffset OrigLength : Nat) (NewStr : List UInt8) :
    Option RewriteBuffer := do
  let RealOffset ← b.getMappedOffset OrigOffset true
  let b ← b.edit (.erase RealOffset OrigLength)
  let b ← b.edit (.insert RealOffset NewStr)
  if OrigLength ≠ NewStr.length then
    b.AddReplaceDelta OrigOffset (NewStr.length - OrigLength)
  else some b

/-- A call of one of the operations. -/
inductive Call where
  | InsertText (OrigOffset : Nat) (Str : List UInt8) (InsertAfter : Bool)
  | RemoveText (OrigOffset Size : Nat) (removeLineIfEmpty : Bool)
  | ReplaceText (OrigOffset OrigLength : Nat) (NewStr : List UInt8)

def step (b : RewriteBuffer) : Call → Option RewriteBuffer
  | .InsertText OrigOffset Str InsertAfter => b.InsertText OrigOffset Str InsertAfter
  | .RemoveText OrigOffset Size removeLineIfEmpty => b.RemoveText OrigOffset Size removeLineIfEmpty
  | .ReplaceText OrigOffset OrigLength NewStr => b.ReplaceText OrigOffset OrigLength NewStr

/-- Calls, one after the other. -/
def run (b : RewriteBuffer) : List Call → Option RewriteBuffer
  | [] => some b
  | call :: calls => do
      let b ← b.step call
      run b calls

end RewriteBuffer

end Zapcc.Rewrite
