import Zapcc.Lex.PPExpressions

/-!
# Conditional expressions of C

The grammar of the expressions of a `#if`, and what they evaluate to. `Derives n ts e` says that
the tokens `ts` are the expression `e` at level `n`: 3 for a comma expression, 4 for a conditional
expression, 5 to 14 for the binary operators, and 15 for an operand. Every value is one of
`intmax_t` or `uintmax_t`. The type of an expression does not depend on what is evaluated, and its
value is missing when a division by zero is evaluated.
-/

namespace Zapcc.Lex

inductive UnaryOp where
  | plus
  | minus
  | complement
  | not
  deriving DecidableEq

inductive BinaryOp where
  | mul
  | div
  | rem
  | add
  | sub
  | shl
  | shr
  | lt
  | le
  | gt
  | ge
  | eq
  | ne
  | bitAnd
  | bitXor
  | bitOr
  | logicalAnd
  | logicalOr
  | comma
  deriving DecidableEq

inductive Expr (w : Nat) where
  | literal (value : BitVec w) (isUnsigned : Bool)
  | boolean (value : Bool)
  | identifier (name : IdentifierInfo)
  | defined (name : IdentifierInfo)
  | unary (op : UnaryOp) (operand : Expr w)
  | binary (op : BinaryOp) (left right : Expr w)
  | conditional (condition yes no : Expr w)

variable {w : Nat}

def UnaryOp.token : UnaryOp → Token w
  | .plus => .plus
  | .minus => .minus
  | .complement => .tilde
  | .not => .exclaim

def BinaryOp.token : BinaryOp → Token w
  | .mul => .star
  | .div => .slash
  | .rem => .percent
  | .add => .plus
  | .sub => .minus
  | .shl => .lessless
  | .shr => .greatergreater
  | .lt => .less
  | .le => .lessequal
  | .gt => .greater
  | .ge => .greaterequal
  | .eq => .equalequal
  | .ne => .exclaimequal
  | .bitAnd => .amp
  | .bitXor => .caret
  | .bitOr => .pipe
  | .logicalAnd => .ampamp
  | .logicalOr => .pipepipe
  | .comma => .comma

/-- The level of the expressions of a binary operator. -/
def BinaryOp.level : BinaryOp → Nat
  | .mul | .div | .rem => 14
  | .add | .sub => 13
  | .shl | .shr => 12
  | .lt | .le | .gt | .ge => 11
  | .eq | .ne => 10
  | .bitAnd => 9
  | .bitXor => 8
  | .bitOr => 7
  | .logicalAnd => 6
  | .logicalOr => 5
  | .comma => 3

/-- The grammar. Binary operators associate to the left, and `?:` to the right. -/
inductive Derives : Nat → List (Token w) → Expr w → Prop where
  | literal (value isUnsigned) :
      Derives 15 [.numeric_constant value isUnsigned] (.literal value isUnsigned)
  | kw_true : Derives 15 [.kw_true] (.boolean true)
  | kw_false : Derives 15 [.kw_false] (.boolean false)
  | identifier (name) : name ≠ "defined" → Derives 15 [.identifier name] (.identifier name)
  | defined (token name) : token.getIdentifierInfo = some name →
      Derives 15 [.identifier "defined", token] (.defined name)
  | definedParens (token name) : token.getIdentifierInfo = some name →
      Derives 15 [.identifier "defined", .l_paren, token, .r_paren] (.defined name)
  | parens {ts e} : Derives 3 ts e → Derives 15 (.l_paren :: ts ++ [.r_paren]) e
  | unary (op) {ts e} : Derives 15 ts e → Derives 15 (op.token :: ts) (.unary op e)
  | binary (op) {ts ts' left right} : Derives op.level ts left → Derives (op.level + 1) ts' right →
      Derives op.level (ts ++ op.token :: ts') (.binary op left right)
  | conditional {ts ts' ts'' condition yes no} : Derives 5 ts condition → Derives 3 ts' yes →
      Derives 4 ts'' no →
      Derives 4 (ts ++ .question :: (ts' ++ .colon :: ts'')) (.conditional condition yes no)
  | up {n ts e} : 3 ≤ n → n ≤ 14 → Derives (n + 1) ts e → Derives n ts e

/-- Whether an expression has the type `uintmax_t`. -/
def Expr.isUnsigned : Expr w → Bool
  | .literal value isUnsigned => isUnsigned || value.msb
  | .boolean _ | .identifier _ | .defined _ => false
  | .unary .not _ => false
  | .unary _ operand => operand.isUnsigned
  | .binary op left right =>
    match op with
    | .mul | .div | .rem | .add | .sub | .bitAnd | .bitXor | .bitOr =>
      left.isUnsigned || right.isUnsigned
    | .shl | .shr => left.isUnsigned
    | .comma => right.isUnsigned
    | _ => false
  | .conditional _ yes no => yes.isUnsigned || no.isUnsigned

/-- The value of a unary operator. -/
def UnaryOp.apply (op : UnaryOp) (x : BitVec w) : BitVec w :=
  match op with
  | .plus => x
  | .minus => -x
  | .complement => ~~~x
  | .not => APInt.ofBool w (x == 0#w)

/-- The value of a binary operator that evaluates both operands, which are converted to `uintmax_t`
if `isUnsigned`. A shift is of the type of its left operand, and a right shift by too much is one
by `w - 1`. The parameter reads the amount of a right shift off its value. -/
def BinaryOp.apply (amount : BitVec w → Nat) (op : BinaryOp) (isUnsigned : Bool) (x y : BitVec w) :
    Option (BitVec w) :=
  match op with
  | .mul => some (x * y)
  | .div => if y = 0#w then none else some (if isUnsigned then x.udiv y else x.sdiv y)
  | .rem => if y = 0#w then none else some (if isUnsigned then x.umod y else x.srem y)
  | .add => some (x + y)
  | .sub => some (x - y)
  | .shl => some (if w ≤ y.toNat then 0#w else x <<< y.toNat)
  | .shr =>
    let n := min (amount y) (w - 1)
    some (if isUnsigned then x >>> n else x.sshiftRight n)
  | .lt => some (APInt.ofBool w (if isUnsigned then x.ult y else x.slt y))
  | .le => some (APInt.ofBool w (if isUnsigned then x.ule y else x.sle y))
  | .gt => some (APInt.ofBool w (if isUnsigned then y.ult x else y.slt x))
  | .ge => some (APInt.ofBool w (if isUnsigned then y.ule x else y.sle x))
  | .eq => some (APInt.ofBool w (x == y))
  | .ne => some (APInt.ofBool w (x != y))
  | .bitAnd => some (x &&& y)
  | .bitXor => some (x ^^^ y)
  | .bitOr => some (x ||| y)
  | .logicalAnd => some (APInt.ofBool w (x != 0#w && y != 0#w))
  | .logicalOr => some (APInt.ofBool w (x != 0#w || y != 0#w))
  | .comma => some y

/-- Whether the value of the left operand decides the value of a binary operator. -/
def BinaryOp.shortCircuits (op : BinaryOp) (x : BitVec w) : Bool :=
  match op with
  | .logicalAnd => x == 0#w
  | .logicalOr => x != 0#w
  | _ => false

/-- The signedness that a binary operator works with. -/
def BinaryOp.signedness (op : BinaryOp) (left right : Expr w) : Bool :=
  match op with
  | .shl | .shr => left.isUnsigned
  | _ => left.isUnsigned || right.isUnsigned

/-- The value of an expression, where `amount` reads the amounts of right shifts. -/
def Expr.value (amount : BitVec w → Nat) (isMacroDefined : IdentifierInfo → Bool) :
    Expr w → Option (BitVec w)
  | .literal value _ => some value
  | .boolean value => some (APInt.ofBool w value)
  | .identifier _ => some 0#w
  | .defined name => some (APInt.ofBool w (isMacroDefined name))
  | .unary op operand => (operand.value amount isMacroDefined).map op.apply
  | .binary op left right =>
    (left.value amount isMacroDefined).bind fun x =>
      if op.shortCircuits x then some (APInt.ofBool w (x != 0#w))
      else
        (right.value amount isMacroDefined).bind fun y =>
          op.apply amount (op.signedness left right) x y
  | .conditional condition yes no =>
    (condition.value amount isMacroDefined).bind fun x =>
      if x ≠ 0#w then yes.value amount isMacroDefined else no.value amount isMacroDefined

/-- The truth of an expression. -/
def Expr.truth (amount : BitVec w → Nat) (isMacroDefined : IdentifierInfo → Bool) (e : Expr w) :
    Option Bool :=
  (e.value amount isMacroDefined).map (· != 0#w)

end Zapcc.Lex
