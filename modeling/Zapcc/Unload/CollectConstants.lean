import Zapcc.Library.Traversal
import Zapcc.Support.SetVector
import Zapcc.StringConst
import Zapcc.Unload.EraseDefinition

/-!
# Collecting the constants to erase

From the global values of unloaded declarations, and some that every compilation creates anew,
`collectConstants` collects all constants that have to be erased, and erases the definitions of the
global values among them. The list grows while it is walked.
`insertConstantAndUsers_inserted` says what one step of that walk adds.
-/

namespace Zapcc.Unload

open IR Traversal StringRef Finset

/-- A function declaration of the program. -/
structure FunctionDecl where
  id : Nat
  isThisDeclarationADefinition : Bool
  deriving DecidableEq

/-- What the unloader finds when it collects constants. -/
structure UnloadData (Constant : Type*) extends ModuleInfo Constant, UseLists Constant where
  name : Constant → String
  decl : Constant → Option FunctionDecl
  unloadedDecls : List FunctionDecl
  gvsToKeepDeclaration : List Constant
  erasedTypes : List StructType
  globalCtors : List Constant
  globalDtors : List Constant
  moduleStatsGV : Option Constant

/-- The state of the unloader. -/
structure Unloader (Constant : Type*) where
  module : Module Constant
  constantsToEraseCompletely : List Constant
  visitedConstants : Finset Constant
  erasedDeferredDeclsToEmit : List FunctionDecl

variable {Constant : Type*} [DecidableEq Constant]

namespace Unloader

variable (data : UnloadData Constant) (u : Unloader Constant)

def insertConstantsToEraseCompletely (C : Constant) : Unloader Constant :=
  { u with
    constantsToEraseCompletely := SetVector.insert u.constantsToEraseCompletely C }

/-- Remember the definition of a cached function, so that its code is generated again. -/
def insertCachedDeferredDeclsToEmit (GV : Constant) : Unloader Constant :=
  match data.decl GV with
  | none => u
  | some FD =>
    if FD.isThisDeclarationADefinition && !data.unloadedDecls.contains FD then
      { u with erasedDeferredDeclsToEmit := u.erasedDeferredDeclsToEmit.insert FD }
    else u

/-- Whether a function is generated anew anyway. -/
def isFunctionUnloadOK (name : String) : Bool :=
  name == "" ||
    ["_GLOBAL", "__tls", "__dtor_", "__clang", "__cxx_global", "_ZTW", "__Block_byref_object",
      "asan."].any (startswith name) ||
    startswith name "\x01??__" && endswith name "@YAXXZ"

/-- What a user belongs to: the function of an instruction or of the address of a block. -/
def target (m : Module Constant) : User Constant → Constant
  | .instruction F => F
  | .constant U => m.owner U

/-- Add a constant whose users have been added. -/
def insertConstant (C : Constant) : Unloader Constant :=
  if C ∈ u.constantsToEraseCompletely then u
  else
    let u := u.insertConstantsToEraseCompletely C
    if u.module.kind C = .function ∧ !isFunctionUnloadOK (data.name C) then
      u.insertCachedDeferredDeclsToEmit data C
    else u

/-- Add the users of a constant, and then the constant. There is no result when the fuel runs
out. -/
def insertConstantAndUsers : Nat → Unloader Constant → Constant → Option (Unloader Constant)
  | 0, _, _ => none
  | fuel + 1, u, C =>
    if C ∈ u.visitedConstants then some u
    else do
      let u := { u with visitedConstants := insert C u.visitedConstants }
      let u ← (data.users u.module C).foldlM
        (fun u' U => insertConstantAndUsers fuel u' (target u.module U)) u
      some (u.insertConstant data C)

/-- Whether the code of a function was generated for a type that is erased. -/
def findErasedType (F : Constant) : Bool :=
  (u.module.body F).any fun I => I.type.any fun T => data.erasedTypes.contains T

def getNamedValue (name : String) : Option Constant :=
  u.module.constants.find? fun C => u.module.isGlobalValue C && data.name C == name

/-- Add the functions whose code was generated for erased types. -/
def insertErasedTypes : Unloader Constant :=
  u.module.functions.foldl (fun u F =>
    if F ∈ u.constantsToEraseCompletely ∨ F ∈ data.gvsToKeepDeclaration then u
    else if u.findErasedType data F then
      (u.insertConstantsToEraseCompletely F).insertCachedDeferredDeclsToEmit data F
    else u) u

/-- Add the global values with one of the prefixes. -/
def insertPrefixed (prefixes : List String) (GVs : List Constant) : Unloader Constant :=
  GVs.foldl (fun u GV =>
    if prefixes.any (startswith (data.name GV)) then u.insertConstantsToEraseCompletely GV
    else u) u

/-- Add the global values with one of the names. -/
def insertNamed (names : List String) : Unloader Constant :=
  names.foldl (fun u name =>
    match u.getNamedValue data name with
    | some GV => u.insertConstantsToEraseCompletely GV
    | none => u) u

/-- Add what every compilation creates anew, and the functions that depend on erased types. -/
def insertRoots : Unloader Constant :=
  let u := u.insertPrefixed data ["__asan", ".omp_offload", "__tgt_"]
    (u.module.functions ++ u.module.globals)
  let u := u.insertNamed data ["llvm.global_ctors", "llvm.global_dtors",
    "llvm.global.annotations", "__tls_init", "__tls_guard", "asan.module_ctor",
    "asan.module_dtor", "__llvm_gcov_ctr", "__llvm_gcov_init", "__llvm_gcov_writeout"]
  let u := u.insertPrefixed data ["_GLOBAL__sub_I"] data.globalCtors
  let u := u.insertPrefixed data ["_GLOBAL__D"] data.globalDtors
  let u :=
    match data.moduleStatsGV with
    | some GV => u.insertConstantsToEraseCompletely GV
    | none => u
  u.insertErasedTypes data

def eraseIfGlobalValue (C : Constant) : Unloader Constant :=
  if u.module.isGlobalValue C then
    { u with module := u.module.eraseDefinition data.toModuleInfo C }
  else u

/-- Walk the list of constants to erase from a position on, while it grows. There is no result
when the fuel runs out. -/
def eraseDefinitions : Nat → Nat → Unloader Constant → Option (Unloader Constant)
  | 0, _, _ => none
  | fuel + 1, I, u =>
    match u.constantsToEraseCompletely[I]? with
    | none => some u
    | some C => do
        let u := u.eraseIfGlobalValue data C
        let u ← u.insertConstantAndUsers data (u.module.constants.length + 1) C
        eraseDefinitions fuel (I + 1) u

/-- Erase the definitions of the global values of which only the declaration is kept. -/
def keepDeclarations : Unloader Constant :=
  { u with
    module := data.gvsToKeepDeclaration.foldl (fun m GV => m.eraseDefinition data.toModuleInfo GV)
      u.module }

def collectConstants : Option (Unloader Constant) := do
  let u := (u.insertRoots data).keepDeclarations data
  let u ← u.eraseDefinitions data (u.module.constants.length + 1) 0
  some { u with visitedConstants := ∅ }

end Unloader

/-- What the users of a constant belong to. -/
def Targets (m : Module Constant) (C : Constant) : Set Constant :=
  {T | ∃ U, m.Uses C U ∧ Unloader.target m U = T}

/-- What a step adds: the visited constants and their users, and nothing else to erase. -/
structure Inserted (u u' : Unloader Constant) : Prop where
  module : u'.module = u.module
  follows : Extends (Targets u.module) ↑u.visitedConstants ↑u'.visitedConstants
  mem : ∀ C, C ∈ u'.constantsToEraseCompletely ↔
    C ∈ u.constantsToEraseCompletely ∨ C ∈ u'.visitedConstants ∧ C ∉ u.visitedConstants
  before : u.constantsToEraseCompletely <+: u'.constantsToEraseCompletely
  nodup : u.constantsToEraseCompletely.Nodup → u'.constantsToEraseCompletely.Nodup

namespace Inserted

variable {u u' u'' : Unloader Constant}

omit [DecidableEq Constant] in
theorem refl (u : Unloader Constant) : Inserted u u :=
  ⟨rfl, .refl _ _, fun _ => ⟨Or.inl, fun h => h.elim id fun h => absurd h.1 h.2⟩,
    List.prefix_rfl, id⟩

theorem trans (h : Inserted u u') (h' : Inserted u' u'') : Inserted u u'' := by
  have hfollows := h'.follows
  rw [h.module] at hfollows
  refine ⟨h'.module.trans h.module, h.follows.trans hfollows, fun C => ?_,
    h.before.trans h'.before, h'.nodup ∘ h.nodup⟩
  have hsubset : C ∈ u.visitedConstants → C ∈ u'.visitedConstants := fun hC => h.follows.subset hC
  have hsubset' : C ∈ u'.visitedConstants → C ∈ u''.visitedConstants :=
    fun hC => h'.follows.subset hC
  rw [h'.mem, h.mem]
  by_cases hC : C ∈ u'.visitedConstants
  · simp [hC, hsubset' hC]
  · simp [hC, mt hsubset hC]

end Inserted

namespace Unloader

variable {data : UnloadData Constant} {u u' : Unloader Constant}

omit [DecidableEq Constant] in
theorem insertCachedDeferredDeclsToEmit_eq (data : UnloadData Constant) (GV : Constant) :
    ∃ decls, u.insertCachedDeferredDeclsToEmit data GV =
      { u with erasedDeferredDeclsToEmit := decls } := by
  unfold insertCachedDeferredDeclsToEmit
  split
  · exact ⟨_, rfl⟩
  · split
    · exact ⟨_, rfl⟩
    · exact ⟨_, rfl⟩

theorem insertConstant_eq (C : Constant) :
    ∃ decls, u.insertConstant data C =
      { u.insertConstantsToEraseCompletely C with erasedDeferredDeclsToEmit := decls } := by
  unfold insertConstant
  split
  · next hC =>
      refine ⟨u.erasedDeferredDeclsToEmit, ?_⟩
      unfold insertConstantsToEraseCompletely SetVector.insert
      rw [if_pos hC]
  · dsimp only
    split
    · exact insertCachedDeferredDeclsToEmit_eq data C
    · exact ⟨_, rfl⟩

theorem insertConstantAndUsers_inserted (data : UnloadData Constant) (within : Set Constant)
    (hwithin : ∀ C ∈ within, Targets u.module C ⊆ within) {fuel : Nat} {C : Constant}
    (hC : C ∈ within) (hvisited : ↑u.visitedConstants ⊆ within)
    (hfuel : unseen u.module.constants u.visitedConstants < fuel) :
    ∃ u', u.insertConstantAndUsers data fuel C = some u' ∧ Inserted u u' ∧
      C ∈ u'.visitedConstants ∧ ↑u'.visitedConstants ⊆ within := by
  induction fuel generalizing u C with
  | zero => exact absurd hfuel (Nat.not_lt_zero _)
  | succ fuel ih =>
    unfold insertConstantAndUsers
    by_cases hseen : C ∈ u.visitedConstants
    · rw [if_pos hseen]
      exact ⟨u, rfl, .refl u, hseen, hvisited⟩
    rw [if_neg hseen]
    have hless : unseen u.module.constants (insert C u.visitedConstants) < fuel :=
      Nat.lt_of_lt_of_le (unseen_insert_lt (u.module.mem_constants C) hseen)
        (Nat.le_of_lt_succ hfuel)
    -- all users are visited
    have husers : ∃ u₁, (data.users u.module C).foldlM
        (fun u' U => insertConstantAndUsers data fuel u' (target u.module U))
          { u with visitedConstants := insert C u.visitedConstants } = some u₁ ∧
        (u₁.module = u.module ∧ ↑u₁.visitedConstants ⊆ within ∧
          unseen u.module.constants u₁.visitedConstants < fuel) ∧
        Inserted { u with visitedConstants := insert C u.visitedConstants } u₁ ∧
        ∀ U ∈ data.users u.module C, target u.module U ∈ u₁.visitedConstants := by
      refine foldlM_spec
        (R := Inserted) (Q := fun U s => target u.module U ∈ s.visitedConstants) Inserted.refl
        (fun _ _ _ => .trans) (fun U s s' h hmem => h.follows.subset hmem) ?_ ?_
      · rintro U hU s ⟨hmodule, hvisited, hfuel⟩
        rw [← hmodule] at hwithin hfuel
        obtain ⟨s', hs', hinserted, hmem, hvisited'⟩ := ih hwithin
          (hwithin C hC ⟨U, by rw [hmodule]; exact (data.mem_users _ _ _).mp hU, by rw [hmodule]⟩)
          hvisited hfuel
        rw [hmodule] at hfuel
        refine ⟨s', hs', ⟨hinserted.module.trans hmodule, hvisited', ?_⟩, hinserted, hmem⟩
        exact Nat.lt_of_le_of_lt (unseen_mono _ (coe_subset.mp hinserted.follows.subset))
          hfuel
      · refine ⟨rfl, ?_, hless⟩
        rw [coe_insert]
        exact Set.insert_subset hC hvisited
    obtain ⟨u₁, hu₁, ⟨hmodule, hvisited₁, -⟩, hinserted, husers⟩ := husers
    have hCvisited : C ∈ u₁.visitedConstants :=
      hinserted.follows.subset (mem_insert_self C u.visitedConstants)
    have hfollows := hinserted.follows
    rw [coe_insert] at hfollows
    have hnext : Targets u.module C ⊆ ↑u₁.visitedConstants := by
      rintro T ⟨U, hU, rfl⟩
      exact husers U ((data.mem_users _ _ _).mpr hU)
    obtain ⟨decls, hdecls⟩ : ∃ decls, u₁.insertConstant data C =
        { u₁.insertConstantsToEraseCompletely C with erasedDeferredDeclsToEmit := decls } :=
      insertConstant_eq C
    refine ⟨u₁.insertConstant data C, ?_, ?_, ?_, ?_⟩
    · simp only [hu₁, Option.bind_eq_bind, Option.bind_some]
    · rw [hdecls]
      refine ⟨hmodule, hfollows.visit hnext, fun D => ?_, ?_, fun hnodup => ?_⟩
      · show D ∈ SetVector.insert u₁.constantsToEraseCompletely C ↔ _
        rw [SetVector.mem_insert, hinserted.mem, mem_insert, not_or]
        by_cases hD : D = C
        · subst hD
          exact iff_of_true (Or.inr rfl) (Or.inr ⟨hCvisited, hseen⟩)
        · simp only [hD, not_false_eq_true, true_and, or_false]
          exact Iff.rfl
      · exact hinserted.before.trans (SetVector.prefix_insert _ C)
      · exact SetVector.nodup_insert C (hinserted.nodup hnodup)
    · rw [hdecls]
      exact hCvisited
    · rw [hdecls]
      exact hvisited₁

end Unloader

end Zapcc.Unload
