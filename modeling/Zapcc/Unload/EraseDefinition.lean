import Zapcc.IR.Module
import Mathlib.Data.Set.Basic

/-!
# Erasing definitions

The users of a constant are the constants and the instructions that have it as operand.
`eraseDefinition` takes the operands and the body of a global value away, so that it uses nothing
any more. Deleting the body of a function also destroys the addresses of its blocks. `Erases` says
what that does to all users: nothing gets a new user, but for the constant that stands for the
addresses of deleted blocks, and every user that is lost belongs to an erased definition.
-/

namespace Zapcc.IR

open List

variable {Constant : Type*}

/-- What else is known about the constants of a module. -/
structure ModuleInfo (Constant : Type*) where
  hasCommonLinkage : Constant → Bool
  isNullValue : Constant → Bool
  /-- The constant that takes the place of the address of a deleted block. -/
  noBlock : Constant

/-- A user of a constant: an instruction of a function, or another constant. -/
inductive User (Constant : Type*) where
  | instruction (F : Constant)
  | constant (U : Constant)
  deriving DecidableEq

namespace Module

variable (m : Module Constant)

def isBlockAddress (C : Constant) : Bool :=
  match m.kind C with
  | .blockAddress _ => true
  | _ => false

/-- What a constant belongs to: the address of a block to its function, the others to themselves. -/
def owner (U : Constant) : Constant :=
  match m.kind U with
  | .blockAddress F => F
  | _ => U

/-- What the operands of constants look like in every module. -/
structure Shape : Prop where
  declaration : ∀ F, m.kind F = .function → m.body F = [] → m.operands F = []
  blockAddress : ∀ B F, m.kind B = .blockAddress F → m.operands B ≠ [] → m.body F ≠ []
  initializer : ∀ G, m.kind G = .globalVariable → (m.operands G).length ≤ 1

/-- An instruction of `F` uses `C`. -/
def InBody (F C : Constant) : Prop := ∃ I ∈ m.instructions F, C ∈ I.operands

/-- A user has a constant as operand. -/
def Uses (C : Constant) : User Constant → Prop
  | .instruction F => m.InBody F C
  | .constant U => C ∈ m.operands U

/-- The definition of a global value is erased. -/
structure Erased (G : Constant) : Prop where
  operands : m.operands G = []
  instructions : m.instructions G = []

/-- The global value is a variable with common linkage that has kept its zero initializer. -/
structure KeepsZero (info : ModuleInfo Constant) (G : Constant) : Prop where
  kind : m.kind G = .globalVariable
  hasCommonLinkage : info.hasCommonLinkage G = true
  isNullValue : ∀ K ∈ m.operands G, info.isNullValue K = true

end Module

/-- The lists of the users of constants, in any order. -/
structure UseLists (Constant : Type*) where
  users : Module Constant → Constant → List (User Constant)
  mem_users : ∀ m C U, U ∈ users m C ↔ m.Uses C U

/-- The definitions of some of the constants in `E` were erased. -/
structure Erases (info : ModuleInfo Constant) (m m' : Module Constant) (E : Set Constant) :
    Prop where
  kind : m'.kind = m.kind
  constants : m'.constants = m.constants
  operands : ∀ U C, C ∈ m'.operands U →
    C ∈ m.operands U ∨ C = info.noBlock ∧ ∃ B ∈ m.operands U, m.isBlockAddress B = true
  inBody : ∀ F C, m'.InBody F C → m.InBody F C ∨ C = info.noBlock
  operands_kept : ∀ U C, m.isBlockAddress C = false → C ∈ m.operands U →
    C ∈ m'.operands U ∨ m.owner U ∈ E
  inBody_kept : ∀ F C, m.isBlockAddress C = false → m.InBody F C → m'.InBody F C ∨ F ∈ E
  operands_nil : ∀ U, m.operands U = [] → m'.operands U = []
  instructions_nil : ∀ F, m.instructions F = [] → m'.instructions F = []

namespace Erases

variable {info : ModuleInfo Constant} {m m' m'' : Module Constant} {E E' : Set Constant}

theorem refl (info : ModuleInfo Constant) (m : Module Constant) (E : Set Constant) :
    Erases info m m E :=
  ⟨rfl, rfl, fun _ _ => Or.inl, fun _ _ => Or.inl, fun _ _ _ => Or.inl, fun _ _ _ => Or.inl,
    fun _ => id, fun _ => id⟩

theorem isGlobalValue (h : Erases info m m' E) (C : Constant) :
    m'.isGlobalValue C = m.isGlobalValue C := by
  unfold Module.isGlobalValue
  rw [h.kind]

theorem isBlockAddress (h : Erases info m m' E) (C : Constant) :
    m'.isBlockAddress C = m.isBlockAddress C := by
  unfold Module.isBlockAddress
  rw [h.kind]

theorem owner (h : Erases info m m' E) (C : Constant) : m'.owner C = m.owner C := by
  unfold Module.owner
  rw [h.kind]

theorem trans (h : Erases info m m' E) (h' : Erases info m' m'' E')
    (hnoBlock : m.isBlockAddress info.noBlock = false) : Erases info m m'' (E ∪ E') := by
  have hblock := h.isBlockAddress
  have howner := h.owner
  refine ⟨h'.kind.trans h.kind, h'.constants.trans h.constants, fun U C hC => ?_,
    fun F C hC => ?_, fun U C hblockC hC => ?_, fun F C hblockC hC => ?_,
    fun U hU => h'.operands_nil U (h.operands_nil U hU),
    fun F hF => h'.instructions_nil F (h.instructions_nil F hF)⟩
  · rcases h'.operands U C hC with hC | ⟨hC, B, hB, hblockB⟩
    · exact h.operands U C hC
    · rcases h.operands U B hB with hB | ⟨rfl, -⟩
      · exact Or.inr ⟨hC, B, hB, hblock B ▸ hblockB⟩
      · rw [hblock, hnoBlock] at hblockB
        cases hblockB
  · rcases h'.inBody F C hC with hC | hC
    · exact h.inBody F C hC
    · exact Or.inr hC
  · rcases h.operands_kept U C hblockC hC with hC | hU
    · rcases h'.operands_kept U C ((hblock C).trans hblockC) hC with hC | hU
      · exact Or.inl hC
      · exact Or.inr (Or.inr (howner U ▸ hU))
    · exact Or.inr (Or.inl hU)
  · rcases h.inBody_kept F C hblockC hC with hC | hF
    · rcases h'.inBody_kept F C ((hblock C).trans hblockC) hC with hC | hF
      · exact Or.inl hC
      · exact Or.inr (Or.inr hF)
    · exact Or.inr (Or.inl hF)

theorem mono (h : Erases info m m' E) (hE : E ⊆ E') : Erases info m m' E' :=
  { h with
    operands_kept := fun U C hblock hC => (h.operands_kept U C hblock hC).imp_right fun hU => hE hU
    inBody_kept := fun F C hblock hC => (h.inBody_kept F C hblock hC).imp_right fun hF => hE hF }

theorem refers (h : Erases info m m' E) (hnoBlock : ∀ N, ¬m.Refers info.noBlock N)
    {C N : Constant} (hrefers : m'.Refers C N) : m.Refers C N := by
  induction hrefers with
  | self hglobal => exact .self ((h.isGlobalValue _).symm.trans hglobal)
  | operand hglobal hOp _ ih =>
    rcases h.operands _ _ hOp with hOp | ⟨rfl, -⟩
    · exact .operand ((h.isGlobalValue _).symm.trans hglobal) hOp ih
    · exact absurd ih (hnoBlock _)

theorem erased_or_keepsZero (h : Erases info m m' E)
    (hnull : ∀ K, info.isNullValue K = true → m.isBlockAddress K = false) {G : Constant}
    (hG : m.Erased G ∨ m.KeepsZero info G) : m'.Erased G ∨ m'.KeepsZero info G := by
  rcases hG with hG | hG
  · exact Or.inl ⟨h.operands_nil G hG.operands, h.instructions_nil G hG.instructions⟩
  · refine Or.inr ⟨(congrFun h.kind G).trans hG.kind, hG.hasCommonLinkage, fun K hK => ?_⟩
    rcases h.operands G K hK with hK | ⟨-, B, hB, hblock⟩
    · exact hG.isNullValue K hK
    · rw [hnull B (hG.isNullValue B hB)] at hblock
      cases hblock

end Erases

namespace Module

variable [DecidableEq Constant] (m : Module Constant)

/-- Take the operands of a constant away. -/
def dropOperands (C : Constant) : Module Constant :=
  { m with operands := Function.update m.operands C [] }

variable (info : ModuleInfo Constant)

/-- What stands for a constant after the body of `F` was deleted. -/
def withoutBlocks (F C : Constant) : Constant :=
  if m.kind C = .blockAddress F then info.noBlock else C

/-- Delete the body and the operands of a function. The addresses of its blocks are destroyed, and
another constant takes their place. -/
def deleteBody (F : Constant) : Module Constant :=
  { m with
    operands := fun U =>
      if U = F ∨ m.kind U = .blockAddress F then []
      else (m.operands U).map (m.withoutBlocks info F)
    body := fun G =>
      if G = F then []
      else (m.body G).map fun I => { I with operands := I.operands.map (m.withoutBlocks info F) } }

/-- Erase the definition of a global value. -/
def eraseDefinition (GV : Constant) : Module Constant :=
  match m.kind GV with
  | .globalVariable =>
    if m.operands GV = [] then m
    -- a zero initializer with common linkage is kept
    else if info.hasCommonLinkage GV ∧ (m.operands GV).head?.all info.isNullValue then m
    else m.dropOperands GV
  | .function => if m.body GV = [] then m else m.deleteBody info GV
  | .globalAlias => m.dropOperands GV
  | .globalIFunc => m.dropOperands GV
  | _ => m

variable {m info}

omit [DecidableEq Constant] in
theorem instructions_function {F : Constant} (hkind : m.kind F = .function) :
    m.instructions F = m.body F := by
  unfold instructions
  rw [hkind]

omit [DecidableEq Constant] in
theorem instructions_of_ne {G : Constant} (hkind : m.kind G ≠ .function) :
    m.instructions G = [] := by
  unfold instructions
  split
  · next h => exact absurd h hkind
  · rfl

theorem operands_dropOperands (C U : Constant) :
    (m.dropOperands C).operands U = if U = C then [] else m.operands U :=
  Function.update_apply m.operands C [] U

theorem dropOperands_erases {C : Constant} (howner : m.owner C = C) :
    Erases info m (m.dropOperands C) {C} := by
  refine ⟨rfl, rfl, fun U D hD => ?_, fun F D => Or.inl, fun U D _ hD => ?_,
    fun F D _ => Or.inl, fun U hU => ?_, fun F => id⟩
  · rw [operands_dropOperands] at hD
    split at hD
    · cases hD
    · exact Or.inl hD
  · rw [operands_dropOperands]
    by_cases hU : U = C
    · rw [hU]
      exact Or.inr howner
    · rw [if_neg hU]
      exact Or.inl hD
  · rw [operands_dropOperands, hU]
    split
    · rfl
    · rfl

theorem withoutBlocks_cases (F C : Constant) :
    m.withoutBlocks info F C = C ∨
      m.withoutBlocks info F C = info.noBlock ∧ m.isBlockAddress C = true := by
  unfold withoutBlocks
  split
  · next hkind =>
      refine Or.inr ⟨rfl, ?_⟩
      unfold isBlockAddress
      rw [hkind]
  · exact Or.inl rfl

theorem withoutBlocks_of_not {F C : Constant} (hblock : m.isBlockAddress C = false) :
    m.withoutBlocks info F C = C := by
  rcases withoutBlocks_cases F C with heq | ⟨-, htrue⟩
  · exact heq
  · rw [hblock] at htrue
    cases htrue

theorem instructions_deleteBody (F G : Constant) :
    (m.deleteBody info F).instructions G =
      if G = F then []
      else (m.instructions G).map fun I =>
        { I with operands := I.operands.map (m.withoutBlocks info F) } := by
  unfold instructions deleteBody
  dsimp only
  split
  · rfl
  · split
    · rfl
    · rfl

theorem deleteBody_erases {F : Constant} (hkind : m.kind F = .function) :
    Erases info m (m.deleteBody info F) {F} := by
  have howner : ∀ U, U = F ∨ m.kind U = .blockAddress F → m.owner U = F := by
    intro U hU
    unfold owner
    rcases hU with rfl | hU
    · rw [hkind]
    · rw [hU]
  have hoperands : ∀ U, (m.deleteBody info F).operands U =
      if U = F ∨ m.kind U = .blockAddress F then []
      else (m.operands U).map (m.withoutBlocks info F) := fun _ => rfl
  refine ⟨rfl, rfl, fun U C hC => ?_, fun G C hC => ?_, fun U C hblock hC => ?_,
    fun G C hblock hC => ?_, fun U hU => ?_, fun G hG => ?_⟩
  · rw [hoperands] at hC
    split at hC
    · cases hC
    · obtain ⟨D, hD, rfl⟩ := mem_map.mp hC
      rcases withoutBlocks_cases F D with heq | ⟨heq, hblock⟩
      · rw [heq]
        exact Or.inl hD
      · exact Or.inr ⟨heq, D, hD, hblock⟩
  · obtain ⟨I, hI, hC⟩ := hC
    rw [instructions_deleteBody] at hI
    split at hI
    · cases hI
    · obtain ⟨J, hJ, rfl⟩ := mem_map.mp hI
      obtain ⟨D, hD, rfl⟩ := mem_map.mp hC
      rcases withoutBlocks_cases F D with heq | ⟨heq, -⟩
      · rw [heq]
        exact Or.inl ⟨J, hJ, hD⟩
      · exact Or.inr heq
  · rw [hoperands]
    split
    · next hU => exact Or.inr (howner U hU)
    · exact Or.inl (mem_map.mpr ⟨C, hC, withoutBlocks_of_not hblock⟩)
  · obtain ⟨I, hI, hC⟩ := hC
    by_cases hG : G = F
    · exact Or.inr hG
    · refine Or.inl ⟨{ I with operands := I.operands.map (m.withoutBlocks info F) }, ?_, ?_⟩
      · rw [instructions_deleteBody, if_neg hG]
        exact mem_map.mpr ⟨I, hI, rfl⟩
      · exact mem_map.mpr ⟨C, hC, withoutBlocks_of_not hblock⟩
  · rw [hoperands, hU]
    split
    · rfl
    · rfl
  · rw [instructions_deleteBody, hG]
    split
    · rfl
    · rfl

omit [DecidableEq Constant] in
theorem owner_of_isGlobalValue {G : Constant} (hG : m.isGlobalValue G = true) : m.owner G = G := by
  unfold isGlobalValue at hG
  unfold owner
  split
  · next hkind =>
      rw [hkind] at hG
      cases hG
  · rfl

theorem eraseDefinition_erases {GV : Constant} (hGV : m.isGlobalValue GV = true) :
    Erases info m (m.eraseDefinition info GV) {GV} := by
  have hdrop : Erases info m (m.dropOperands GV) {GV} :=
    dropOperands_erases (owner_of_isGlobalValue hGV)
  unfold eraseDefinition
  cases hkind : m.kind GV with
  | function =>
    dsimp only
    split
    · exact .refl _ _ _
    · exact deleteBody_erases hkind
  | globalVariable =>
    dsimp only
    split
    · exact .refl _ _ _
    · split
      · exact .refl _ _ _
      · exact hdrop
  | globalAlias | globalIFunc => exact hdrop
  | blockAddress F | constantExpr | plain => exact .refl _ _ _

namespace Shape

theorem dropOperands (hm : m.Shape) (C : Constant) : (m.dropOperands C).Shape := by
  refine ⟨fun F hkind hbody => ?_, fun B F hkind hne => ?_, fun G hkind => ?_⟩
  · rw [operands_dropOperands]
    split
    · rfl
    · exact hm.declaration F hkind hbody
  · rw [operands_dropOperands] at hne
    split at hne
    · exact absurd rfl hne
    · exact hm.blockAddress B F hkind hne
  · rw [operands_dropOperands]
    split
    · exact Nat.zero_le 1
    · exact hm.initializer G hkind

theorem deleteBody (hm : m.Shape) (F : Constant) : (m.deleteBody info F).Shape := by
  refine ⟨fun G hkind hbody => ?_, fun B G hkind hne => ?_, fun G hkind => ?_⟩
  · unfold Module.deleteBody at hbody ⊢
    dsimp only at hbody ⊢
    split
    · rfl
    · next hG =>
        rw [if_neg fun h => hG (Or.inl h), map_eq_nil_iff] at hbody
        rw [hm.declaration G hkind hbody]
        rfl
  · unfold Module.deleteBody at hne ⊢
    dsimp only at hne ⊢
    split at hne
    · exact absurd rfl hne
    · next hB =>
        have hGF : G ≠ F := by
          intro heq
          subst heq
          exact hB (Or.inr hkind)
        have hne' : m.operands B ≠ [] := fun h => hne (by rw [h]; rfl)
        rw [if_neg hGF]
        exact fun h => hm.blockAddress B G hkind hne' (map_eq_nil_iff.mp h)
  · unfold Module.deleteBody
    dsimp only
    split
    · exact Nat.zero_le 1
    · rw [length_map]
      exact hm.initializer G hkind

theorem eraseDefinition (hm : m.Shape) (GV : Constant) : (m.eraseDefinition info GV).Shape := by
  unfold Module.eraseDefinition
  cases m.kind GV with
  | function =>
    dsimp only
    split
    · exact hm
    · exact hm.deleteBody GV
  | globalVariable =>
    dsimp only
    split
    · exact hm
    · split
      · exact hm
      · exact hm.dropOperands GV
  | globalAlias | globalIFunc => exact hm.dropOperands GV
  | blockAddress F | constantExpr | plain => exact hm

end Shape

theorem eraseDefinition_erased (hm : m.Shape) {GV : Constant} (hGV : m.isGlobalValue GV = true) :
    (m.eraseDefinition info GV).Erased GV ∨ (m.eraseDefinition info GV).KeepsZero info GV := by
  have hdrop : m.kind GV ≠ .function → (m.dropOperands GV).Erased GV := fun hkind =>
    ⟨(operands_dropOperands GV GV).trans (if_pos rfl), instructions_of_ne hkind⟩
  unfold eraseDefinition
  unfold isGlobalValue at hGV
  cases hkind : m.kind GV with
  | function =>
    dsimp only
    split
    · next hbody =>
        exact Or.inl ⟨hm.declaration GV hkind hbody, (instructions_function hkind).trans hbody⟩
    · refine Or.inl ⟨if_pos (Or.inl rfl), ?_⟩
      rw [instructions_deleteBody, if_pos rfl]
  | globalVariable =>
    have hne : m.kind GV ≠ .function := by simp [hkind]
    dsimp only
    split
    · next hoperands => exact Or.inl ⟨hoperands, instructions_of_ne hne⟩
    · split
      · next hzero =>
          refine Or.inr ⟨hkind, hzero.1, fun K hK => ?_⟩
          -- there is only one operand
          obtain ⟨K', hK'⟩ : ∃ K', m.operands GV = [K'] := by
            have hlength := hm.initializer GV hkind
            have hpositive := length_pos_of_mem hK
            exact length_eq_one_iff.mp (by omega)
          have hnull := hzero.2
          rw [hK'] at hK hnull
          rw [mem_singleton.mp hK]
          exact hnull
      · exact Or.inl (hdrop hne)
  | globalAlias | globalIFunc => exact Or.inl (hdrop (by simp [hkind]))
  | blockAddress F | constantExpr | plain => simp [hkind, ValueKind.isGlobalValue] at hGV

end Module

/-- The users in the order of the module: first the constants, then the functions. -/
def UseLists.inOrder [DecidableEq Constant] : UseLists Constant where
  users m C := (m.constants.filter fun U => C ∈ m.operands U).map .constant ++
    (m.functions.filter fun F => (m.body F).any fun I => C ∈ I.operands).map .instruction
  mem_users m C U := by
    cases U with
    | constant U => simp [Module.Uses, m.mem_constants U]
    | instruction F =>
      unfold Module.Uses Module.InBody Module.instructions Module.functions
      cases hkind : m.kind F <;> simp [m.mem_ofKind, hkind]

end Zapcc.IR
