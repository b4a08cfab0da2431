import Zapcc.Unload.ConstantsClosure

/-!
# Erasing the collected constants

`eraseConstantandUsers` destroys a constant after all of its users. It asserts that no global
variable, no function and no instruction is still among them. `eraseConstants_returns` shows that
the assertion holds for the collected constants, whatever the order of the users.
-/

namespace Zapcc.IR.Module

open Function

variable {Constant : Type*} [DecidableEq Constant]

/-- Destroy a constant, which then uses nothing. -/
def destroyConstant (m : Module Constant) (C : Constant) : Module Constant :=
  { m with
    operands := update m.operands C []
    body := update m.body C [] }

theorem operands_destroyConstant (m : Module Constant) (C U : Constant) :
    (m.destroyConstant C).operands U = if U = C then [] else m.operands U :=
  update_apply m.operands C [] U

theorem instructions_destroyConstant (m : Module Constant) (C F : Constant) :
    (m.destroyConstant C).instructions F = if F = C then [] else m.instructions F := by
  unfold instructions destroyConstant
  dsimp only
  rw [update_apply]
  split
  · split
    · rfl
    · rfl
  · split
    · rfl
    · rfl

theorem uses_destroyConstant {m : Module Constant} {C D : Constant} {U : User Constant}
    (hU : (m.destroyConstant D).Uses C U) : m.Uses C U := by
  cases U with
  | instruction F =>
    obtain ⟨I, hI, hC⟩ := hU
    rw [instructions_destroyConstant] at hI
    split at hI
    · exact absurd hI List.not_mem_nil
    · exact ⟨I, hI, hC⟩
  | constant U =>
    have hmem : C ∈ (m.destroyConstant D).operands U := hU
    rw [operands_destroyConstant] at hmem
    split at hmem
    · exact absurd hmem List.not_mem_nil
    · exact hmem

end Zapcc.IR.Module

namespace Zapcc.Unload

open IR Traversal

variable {Constant : Type*} [DecidableEq Constant]

namespace Unloader

variable (data : UnloadData Constant)

/-- Erase the first user of a constant until there is none. There is no result when an assertion
fails, or when the fuel runs out. -/
def eraseUsers (erase : Unloader Constant → Constant → Option (Unloader Constant)) :
    Nat → Unloader Constant → Constant → Option (Unloader Constant)
  | 0, _, _ => none
  | fuel + 1, u, C =>
    match (data.users u.module C).head? with
    | none => some u
    | some (.instruction _) => none
    | some (.constant U) =>
      if u.module.kind U = .globalVariable ∨ u.module.kind U = .function then none
      else do
        let u ← erase u U
        eraseUsers erase fuel u C

def eraseConstantandUsers : Nat → Unloader Constant → Constant → Option (Unloader Constant)
  | 0, _, _ => none
  | fuel + 1, u, C =>
    if C ∈ u.visitedConstants then some u
    else do
      let u ← eraseUsers data (eraseConstantandUsers fuel) fuel
        { u with visitedConstants := insert C u.visitedConstants } C
      some { u with module := u.module.destroyConstant C }

def eraseConstants (u : Unloader Constant) : Option (Unloader Constant) :=
  u.constantsToEraseCompletely.foldlM
    (fun u C => u.eraseConstantandUsers data (u.module.constants.length + 1) C) u

end Unloader

/-- What holds while constants are erased: what still uses one of them is one of them, is no global
value, and is above it. -/
structure Erasing (members : Set Constant) (level : Constant → Nat) (u : Unloader Constant) :
    Prop where
  constant : ∀ C ∈ members, ∀ U, C ∈ u.module.operands U →
    U ∈ members ∧ u.module.isGlobalValue U = false ∧ level C < level U
  instruction : ∀ C ∈ members, ∀ F, ¬u.module.InBody F C

/-- What a step of erasing does: constants lose users, and what it visits is destroyed. -/
structure Destroys (u u' : Unloader Constant) : Prop where
  kind : u'.module.kind = u.module.kind
  constants : u'.module.constants = u.module.constants
  operands : ∀ U C, C ∈ u'.module.operands U → C ∈ u.module.operands U
  inBody : ∀ F C, u'.module.InBody F C → u.module.InBody F C
  visited : u.visitedConstants ⊆ u'.visitedConstants
  destroyed : ∀ C ∈ u'.visitedConstants, C ∉ u.visitedConstants →
    u'.module.operands C = [] ∧ ∀ U, ¬u'.module.Uses C U

namespace Destroys

variable {u u' u'' : Unloader Constant}

omit [DecidableEq Constant]

theorem refl (u : Unloader Constant) : Destroys u u :=
  ⟨rfl, rfl, fun _ _ => id, fun _ _ => id, Finset.Subset.refl _, fun _ hC hnot => absurd hC hnot⟩

theorem uses (h : Destroys u u') {C : Constant} {U : User Constant} (hU : u'.module.Uses C U) :
    u.module.Uses C U := by
  cases U with
  | instruction F => exact h.inBody F C hU
  | constant U => exact h.operands U C hU

theorem operands_nil (h : Destroys u u') {C : Constant} (hC : u.module.operands C = []) :
    u'.module.operands C = [] := by
  refine List.eq_nil_iff_forall_not_mem.mpr fun D hD => ?_
  have hbefore := h.operands C D hD
  rw [hC] at hbefore
  exact List.not_mem_nil hbefore

theorem trans (h : Destroys u u') (h' : Destroys u' u'') : Destroys u u'' := by
  refine ⟨h'.kind.trans h.kind, h'.constants.trans h.constants,
    fun U C hC => h.operands U C (h'.operands U C hC),
    fun F C hC => h.inBody F C (h'.inBody F C hC), h.visited.trans h'.visited,
    fun C hC hnot => ?_⟩
  by_cases hmiddle : C ∈ u'.visitedConstants
  · obtain ⟨hoperands, hunused⟩ := h.destroyed C hmiddle hnot
    exact ⟨h'.operands_nil hoperands, fun U hU => hunused U (h'.uses hU)⟩
  · exact h'.destroyed C hC hmiddle

theorem isGlobalValue (h : Destroys u u') (C : Constant) :
    u'.module.isGlobalValue C = u.module.isGlobalValue C := by
  unfold Module.isGlobalValue
  rw [h.kind]

theorem erasing {members : Set Constant} {level : Constant → Nat} (h : Destroys u u')
    (hu : Erasing members level u) : Erasing members level u' := by
  refine ⟨fun C hC U hU => ?_, fun C hC F hF => hu.instruction C hC F (h.inBody F C hF)⟩
  obtain ⟨hmem, hglobal, hlevel⟩ := hu.constant C hC U (h.operands U C hU)
  exact ⟨hmem, (h.isGlobalValue U).trans hglobal, hlevel⟩

end Destroys

section Erase

variable (data : UnloadData Constant) {members : Set Constant} {level : Constant → Nat}
  {u : Unloader Constant} {C : Constant}

theorem eraseUsers_destroys
    {erase : Unloader Constant → Constant → Option (Unloader Constant)} {bound : Nat}
    (herase : ∀ u U, Erasing members level u → U ∈ members →
      (∀ X ∈ u.visitedConstants, u.module.operands X ≠ [] → level X < level U) →
      unseen u.module.constants u.visitedConstants < bound →
      ∃ u', erase u U = some u' ∧ Destroys u u' ∧ U ∈ u'.visitedConstants)
    {fuel : Nat} (hu : Erasing members level u) (hC : C ∈ members)
    (hpending : ∀ X ∈ u.visitedConstants, u.module.operands X ≠ [] → level X ≤ level C)
    (hbound : unseen u.module.constants u.visitedConstants < bound)
    (hfuel : unseen u.module.constants u.visitedConstants < fuel) :
    ∃ u', Unloader.eraseUsers data erase fuel u C = some u' ∧ Destroys u u' ∧
      ∀ U, ¬u'.module.Uses C U := by
  induction fuel generalizing u with
  | zero => exact absurd hfuel (Nat.not_lt_zero _)
  | succ fuel ih =>
    unfold Unloader.eraseUsers
    cases hhead : (data.users u.module C).head? with
    | none =>
      refine ⟨u, rfl, .refl u, fun U hU => ?_⟩
      have hmem := (data.mem_users u.module C U).mpr hU
      rw [List.head?_eq_none_iff.mp hhead] at hmem
      exact List.not_mem_nil hmem
    | some user =>
      have huses : u.module.Uses C user :=
        (data.mem_users u.module C user).mp (List.mem_of_head? hhead)
      cases user with
      | instruction F => exact absurd huses (hu.instruction C hC F)
      | constant U =>
        obtain ⟨hmem, hglobal, hlevel⟩ := hu.constant C hC U huses
        have hkind : ¬(u.module.kind U = .globalVariable ∨ u.module.kind U = .function) := by
          unfold Module.isGlobalValue at hglobal
          rintro (hkind | hkind)
          · rw [hkind] at hglobal
            cases hglobal
          · rw [hkind] at hglobal
            cases hglobal
        -- the user is above the constant, so it is not being erased itself
        have hnot : U ∉ u.visitedConstants := fun hvisited =>
          absurd (hpending U hvisited (List.ne_nil_of_mem huses)) (Nat.not_le.mpr hlevel)
        obtain ⟨u₁, hu₁, hdestroys, hvisited⟩ := herase u U hu hmem
          (fun X hX hne => Nat.lt_of_le_of_lt (hpending X hX hne) hlevel) hbound
        have hless : unseen u₁.module.constants u₁.visitedConstants <
            unseen u.module.constants u.visitedConstants := by
          rw [hdestroys.constants]
          exact Nat.lt_of_le_of_lt
            (unseen_mono _ (Finset.insert_subset hvisited hdestroys.visited))
            (unseen_insert_lt (u.module.mem_constants U) hnot)
        obtain ⟨u', hu', hdestroys', hunused⟩ := ih (hdestroys.erasing hu)
          (fun X hX hne => by
            by_cases hbefore : X ∈ u.visitedConstants
            · exact hpending X hbefore fun hnil => hne (hdestroys.operands_nil hnil)
            · exact absurd (hdestroys.destroyed X hX hbefore).1 hne)
          (hless.trans hbound) (by omega)
        refine ⟨u', ?_, hdestroys.trans hdestroys', hunused⟩
        simp only [if_neg hkind, hu₁, hu', Option.bind_eq_bind, Option.bind_some]

theorem eraseConstantandUsers_destroys {fuel : Nat} (hu : Erasing members level u)
    (hC : C ∈ members)
    (hpending : ∀ X ∈ u.visitedConstants, u.module.operands X ≠ [] → level X < level C)
    (hfuel : unseen u.module.constants u.visitedConstants < fuel) :
    ∃ u', Unloader.eraseConstantandUsers data fuel u C = some u' ∧ Destroys u u' ∧
      C ∈ u'.visitedConstants := by
  induction fuel generalizing u C with
  | zero => exact absurd hfuel (Nat.not_lt_zero _)
  | succ fuel ih =>
    unfold Unloader.eraseConstantandUsers
    by_cases hseen : C ∈ u.visitedConstants
    · rw [if_pos hseen]
      exact ⟨u, rfl, .refl u, hseen⟩
    rw [if_neg hseen]
    have hless : unseen u.module.constants (insert C u.visitedConstants) < fuel :=
      Nat.lt_of_lt_of_le (unseen_insert_lt (u.module.mem_constants C) hseen)
        (Nat.le_of_lt_succ hfuel)
    obtain ⟨u₁, hu₁, hdestroys, hunused⟩ := eraseUsers_destroys data
      (u := { u with visitedConstants := insert C u.visitedConstants })
      (fun u U hu hU hpending hfuel => ih hu hU hpending hfuel)
      ⟨hu.constant, hu.instruction⟩ hC
      (fun X hX hne => by
        rcases Finset.mem_insert.mp hX with rfl | hX
        · exact Nat.le_refl _
        · exact Nat.le_of_lt (hpending X hX hne))
      hless hless
    refine ⟨{ u₁ with module := u₁.module.destroyConstant C }, ?_, ?_,
      hdestroys.visited (Finset.mem_insert_self C _)⟩
    · simp only [hu₁, Option.bind_eq_bind, Option.bind_some]
    · refine ⟨hdestroys.kind, hdestroys.constants, fun U D hD => ?_, fun F D hD => ?_,
        (Finset.subset_insert C _).trans hdestroys.visited, fun D hD hnot => ?_⟩
      · exact hdestroys.operands U D (Module.uses_destroyConstant (U := .constant U) hD)
      · exact hdestroys.inBody F D (Module.uses_destroyConstant (U := .instruction F) hD)
      · by_cases hDC : D = C
        · rw [hDC]
          exact ⟨(Module.operands_destroyConstant _ C C).trans (if_pos rfl),
            fun U hU => hunused U (Module.uses_destroyConstant hU)⟩
        · have hnot' : D ∉ insert C u.visitedConstants := fun hmem =>
            (Finset.mem_insert.mp hmem).elim hDC hnot
          obtain ⟨hoperands, hunused'⟩ := hdestroys.destroyed D hD hnot'
          exact ⟨(Module.operands_destroyConstant _ C D).trans ((if_neg hDC).trans hoperands),
            fun U hU => hunused' U (Module.uses_destroyConstant hU)⟩

theorem eraseConstants_destroys
    (hu : Erasing {C | C ∈ u.constantsToEraseCompletely} level u)
    (hvisited : u.visitedConstants = ∅) :
    ∃ u', u.eraseConstants data = some u' ∧
      ∀ C ∈ u.constantsToEraseCompletely, ∀ U, ¬u'.module.Uses C U := by
  have hall : ∃ u', u.eraseConstants data = some u' ∧ Destroys u u' ∧ Destroys u u' ∧
      ∀ C ∈ u.constantsToEraseCompletely, C ∈ u'.visitedConstants := by
    refine foldlM_spec (P := Destroys u) (R := Destroys) (Q := fun C s => C ∈ s.visitedConstants)
      Destroys.refl (fun _ _ _ => .trans) (fun C s s' h hC => h.visited hC)
      (fun C hC s hs => ?_) (Destroys.refl u)
    -- whatever was visited so far is destroyed
    obtain ⟨s', hs', hdestroys, hmem⟩ := eraseConstantandUsers_destroys data (hs.erasing hu) hC
      (fun X hX hne => absurd (hs.destroyed X hX (by simp [hvisited])).1 hne)
      (Nat.lt_succ_of_le (List.length_filter_le _ _))
    exact ⟨s', hs', hs.trans hdestroys, hdestroys, hmem⟩
  obtain ⟨u', hu', hdestroys, -, hall⟩ := hall
  exact ⟨u', hu', fun C hC => (hdestroys.destroyed C (hall C hC) (by simp [hvisited])).2⟩

omit [DecidableEq Constant] in
theorem Collected.erasing {data : UnloadData Constant} {u u' : Unloader Constant}
    (h : Prepared data u) (hcollected : Collected data u.module u') :
    ∃ level, Erasing {C | C ∈ u'.constantsToEraseCompletely} level u' := by
  obtain ⟨rank, hrank⟩ := h.acyclic
  obtain ⟨E, herases⟩ := hcollected.erases
  refine ⟨fun C => if u.module.isGlobalValue C then 0 else rank C + 1, fun C hC U hU => ?_,
    hcollected.instruction⟩
  obtain ⟨hmem, hglobal⟩ := hcollected.constant C hC U hU
  refine ⟨hmem, (herases.isGlobalValue U).trans hglobal, ?_⟩
  rw [hglobal]
  have hbefore : C ∈ u.module.operands U :=
    (hcollected.erasable C hC).operands h.wellFormed herases hU
  cases hC' : u.module.isGlobalValue C with
  | true => exact Nat.succ_pos _
  | false => exact Nat.succ_lt_succ (hrank U C hglobal hC' hbefore)

end Erase

/-- The constants of a small module. -/
inductive Example where
  | getter
  | getterCast
  | table
  | reader
  | label
  | jumps
  | counter
  | zero
  | noBlock
  deriving DecidableEq

namespace Example

/-- The table has a pointer to the getter and is read by a function, and a variable has the address
of a block of that function. The counter is tentatively defined. -/
def module : Module Example where
  kind
    | getter => .function
    | getterCast => .constantExpr
    | table => .globalVariable
    | reader => .function
    | label => .blockAddress reader
    | jumps => .globalVariable
    | counter => .globalVariable
    | zero => .plain
    | noBlock => .constantExpr
  operands
    | getterCast => [getter]
    | table => [getterCast]
    | label => [reader]
    | jumps => [label]
    | counter => [zero]
    | _ => []
  body
    | reader => [⟨[table], none⟩]
    | _ => []
  constants := [getter, getterCast, table, reader, label, jumps, counter, zero, noBlock]
  mem_constants C := by cases C <;> decide

/-- Users are listed in the order of the module. -/
def data : UnloadData Example where
  hasCommonLinkage C := C = counter
  isNullValue C := C = zero
  noBlock := noBlock
  toUseLists := .inOrder
  name _ := ""
  decl _ := none
  unloadedDecls := []
  gvsToKeepDeclaration := []
  erasedTypes := []
  globalCtors := []
  globalDtors := []
  moduleStatsGV := none

/-- The header with the getter and the counter is unloaded. -/
def unloader : Unloader Example where
  module := module
  constantsToEraseCompletely := [getter, counter]
  visitedConstants := ∅
  erasedDeferredDeclsToEmit := []

theorem prepared : Prepared data unloader := by
  have hno : ∀ C N, module.operands C = [] → module.isGlobalValue C = false →
      ¬module.Refers C N := by
    intro C N hnil hglobal hN
    cases hN with
    | self htrue => rw [hglobal] at htrue; cases htrue
    | operand _ hOp _ => rw [hnil] at hOp; cases hOp
  refine ⟨⟨⟨fun F hkind hbody => ?_, fun B F hkind hne => ?_, fun G hkind => ?_⟩,
    fun B F hkind => ?_, fun K hK => ?_, rfl, fun N => hno _ N rfl rfl⟩,
    ⟨fun _ => 0, fun U C hU hC hmem => ?_⟩, fun C hC => ?_, by decide, rfl,
    fun C hC => ?_, fun C hC => ?_, fun C hC => ?_⟩
  · cases F <;> first | rfl | cases hkind
  · cases B <;> cases hkind
    decide
  · cases G <;> decide
  · cases B <;> cases hkind
    rfl
  · obtain rfl : K = zero := of_decide_eq_true hK
    exact ⟨rfl, fun N => hno _ N rfl rfl⟩
  -- all operands here are global values
  · cases U <;> cases hU
    · rw [List.mem_singleton.mp hmem] at hC
      cases hC
    · rw [List.mem_singleton.mp hmem] at hC
      cases hC
    · exact absurd hmem List.not_mem_nil
    · exact absurd hmem List.not_mem_nil
  · rcases List.mem_pair.mp hC with rfl | rfl
    · rfl
    · rfl
  · cases hC
  · cases hC
  · cases hC

end Example

end Zapcc.Unload
