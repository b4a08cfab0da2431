import Mathlib.Data.List.Basic

/-!
# The constants of a module

The constants of a module refer to each other by their operands, and the instructions of a
function refer to constants. Operands that are no constants are left out. `Refers` says which
global values a constant refers to, and `References` the same for a global value: through its
initializer, its other operands or its body.
-/

namespace Zapcc.IR

/-- The types that a definition may depend on without a constant for it. -/
abbrev StructType := Nat

/-- The kinds of constants. A block address knows the function that has the block. -/
inductive ValueKind (Constant : Type*) where
  | function
  | globalVariable
  | globalAlias
  | globalIFunc
  | blockAddress (F : Constant)
  | constantExpr
  | plain
  deriving DecidableEq

def ValueKind.isGlobalValue {Constant : Type*} : ValueKind Constant → Bool
  | function => true
  | globalVariable => true
  | globalAlias => true
  | globalIFunc => true
  | blockAddress _ => false
  | constantExpr => false
  | plain => false

/-- The constants that an instruction uses, and the type of its memory access if it has one. -/
structure Instruction (Constant : Type*) where
  operands : List Constant
  type : Option StructType
  deriving DecidableEq

/-- The constants of a module. A global variable has its initializer as operand, an alias or an
ifunc what it stands for. -/
structure Module (Constant : Type*) where
  kind : Constant → ValueKind Constant
  operands : Constant → List Constant
  body : Constant → List (Instruction Constant)
  constants : List Constant
  mem_constants : ∀ C, C ∈ constants

namespace Module

variable {Constant : Type*} (m : Module Constant)

def isGlobalValue (C : Constant) : Bool := (m.kind C).isGlobalValue

/-- The constants of one kind, in the order of the module. -/
def ofKind [DecidableEq Constant] (kind : ValueKind Constant) : List Constant :=
  m.constants.filter fun C => m.kind C = kind

def functions [DecidableEq Constant] : List Constant := m.ofKind .function

def globals [DecidableEq Constant] : List Constant := m.ofKind .globalVariable

def aliases [DecidableEq Constant] : List Constant := m.ofKind .globalAlias

def ifuncs [DecidableEq Constant] : List Constant := m.ofKind .globalIFunc

inductive Refers : Constant → Constant → Prop where
  | self {G : Constant} : m.isGlobalValue G = true → Refers G G
  | operand {C Op N : Constant} :
      m.isGlobalValue C = false → Op ∈ m.operands C → Refers Op N → Refers C N

/-- The instructions of a global value. Only functions have any. -/
def instructions (G : Constant) : List (Instruction Constant) :=
  match m.kind G with
  | .function => m.body G
  | _ => []

/-- The constants that a global value uses in its initializer, its other operands or its body. -/
def uses (G : Constant) : List Constant :=
  m.operands G ++ (m.instructions G).flatMap Instruction.operands

/-- A global value is referenced from the definition of `G`. -/
def References (G N : Constant) : Prop := ∃ C ∈ m.uses G, m.Refers C N

theorem mem_ofKind [DecidableEq Constant] {kind : ValueKind Constant} {C : Constant} :
    C ∈ m.ofKind kind ↔ m.kind C = kind := by
  unfold ofKind
  rw [List.mem_filter, decide_eq_true_eq]
  exact and_iff_right (m.mem_constants C)

theorem Refers.isGlobalValue {m : Module Constant} {C N : Constant} (h : m.Refers C N) :
    m.isGlobalValue N = true := by
  induction h with
  | self hglobal => exact hglobal
  | operand _ _ _ ih => exact ih

end Module

end Zapcc.IR
