import Zapcc.Unload.CollectConstants

/-!
# The collected constants are closed under users

The list of constants to erase grows while the definitions of its global values are erased.
`LoopInvariant` is what holds at each position of the list, and `collectConstants_collected` says
what holds in the end: whatever used a collected constant is collected too, or is erased.
-/

namespace Zapcc.Unload

open IR Traversal List Option

variable {Constant : Type*}

/-- What holds of the constants that are special to the unloader, and of addresses of blocks. -/
structure WellFormedModule (info : ModuleInfo Constant) (m : Module Constant) : Prop
    extends Module.Shape m where
  owner : ∀ B F, m.kind B = .blockAddress F → m.kind F = .function
  isNullValue : ∀ K, info.isNullValue K = true → m.isBlockAddress K = false ∧ ∀ N, ¬m.Refers K N
  noBlock : m.isBlockAddress info.noBlock = false ∧ ∀ N, ¬m.Refers info.noBlock N

/-- What the earlier steps of unloading leave behind. Constants other than global values are built
after their operands. -/
structure Prepared (data : UnloadData Constant) (u : Unloader Constant) : Prop where
  wellFormed : WellFormedModule data.toModuleInfo u.module
  acyclic : ∃ rank : Constant → Nat, ∀ U C, u.module.isGlobalValue U = false →
    u.module.isGlobalValue C = false → C ∈ u.module.operands U → rank C < rank U
  erase : ∀ C ∈ u.constantsToEraseCompletely, u.module.isGlobalValue C = true
  nodup : u.constantsToEraseCompletely.Nodup
  visited : u.visitedConstants = ∅
  keep : ∀ C ∈ data.gvsToKeepDeclaration, u.module.isGlobalValue C = true
  structors : ∀ C ∈ data.globalCtors ++ data.globalDtors, u.module.isGlobalValue C = true
  stats : ∀ C ∈ data.moduleStatsGV, u.module.isGlobalValue C = true

/-- A constant that may have to be erased: it refers to a global value. -/
structure Erasable (m : Module Constant) (C : Constant) : Prop where
  isBlockAddress : m.isBlockAddress C = false
  refers : ∃ N, m.Refers C N

/-- What holds while the list of constants to erase is walked, at position `I`, when it started
with the module `m`. -/
structure LoopInvariant (info : ModuleInfo Constant) (m : Module Constant) (I : Nat)
    (u : Unloader Constant) : Prop where
  shape : u.module.Shape
  erases : Erases info m u.module {C | C ∈ u.constantsToEraseCompletely.take I}
  position : I ≤ u.constantsToEraseCompletely.length
  nodup : u.constantsToEraseCompletely.Nodup
  erasable : ∀ C ∈ u.constantsToEraseCompletely, Erasable m C
  visited : ∀ C ∈ u.visitedConstants, C ∈ u.constantsToEraseCompletely
  processed : ∀ C ∈ u.constantsToEraseCompletely.take I, C ∈ u.visitedConstants
  closed : ∀ C ∈ u.visitedConstants, ∀ T ∈ Targets m C, T ∈ u.constantsToEraseCompletely
  erased : ∀ G ∈ u.constantsToEraseCompletely.take I, m.isGlobalValue G = true →
    u.module.Erased G ∨ u.module.KeepsZero info G

namespace Erasable

variable {info : ModuleInfo Constant} {m m' : Module Constant} {E : Set Constant} {C : Constant}

theorem of_isGlobalValue (hC : m.isGlobalValue C = true) : Erasable m C := by
  refine ⟨?_, C, .self hC⟩
  unfold Module.isGlobalValue at hC
  unfold Module.isBlockAddress
  cases hkind : m.kind C with
  | blockAddress F =>
    rw [hkind] at hC
    cases hC
  | _ => rfl

theorem ne_noBlock (hC : Erasable m C) (hm : WellFormedModule info m) : C ≠ info.noBlock := by
  intro heq
  subst heq
  obtain ⟨N, hN⟩ := hC.refers
  exact hm.noBlock.2 N hN

theorem isNullValue (hC : Erasable m C) (hm : WellFormedModule info m) :
    info.isNullValue C = false := by
  obtain ⟨N, hN⟩ := hC.refers
  cases hnull : info.isNullValue C with
  | true => exact absurd hN ((hm.isNullValue C hnull).2 N)
  | false => rfl

theorem operands (hC : Erasable m C) (hm : WellFormedModule info m) (h : Erases info m m' E)
    {U : Constant} (hU : C ∈ m'.operands U) : C ∈ m.operands U := by
  rcases h.operands U C hU with hU | ⟨heq, -⟩
  · exact hU
  · exact absurd heq (hC.ne_noBlock hm)

theorem inBody (hC : Erasable m C) (hm : WellFormedModule info m) (h : Erases info m m' E)
    {F : Constant} (hF : m'.InBody F C) : m.InBody F C := by
  rcases h.inBody F C hF with hF | heq
  · exact hF
  · exact absurd heq (hC.ne_noBlock hm)

end Erasable

variable {m : Module Constant}

theorem kind_of_inBody {F C : Constant} (h : m.InBody F C) :
    m.kind F = .function := by
  obtain ⟨I, hI, -⟩ := h
  by_contra hkind
  rw [Module.instructions_of_ne hkind] at hI
  exact not_mem_nil hI

theorem owner_cases (m : Module Constant) (U : Constant) :
    m.isBlockAddress U = false ∧ m.owner U = U ∨ m.kind U = .blockAddress (m.owner U) := by
  unfold Module.isBlockAddress Module.owner
  cases m.kind U with
  | blockAddress F => exact Or.inr rfl
  | _ => exact Or.inl ⟨rfl, rfl⟩

theorem isGlobalValue_function {F : Constant} (hkind : m.kind F = .function) :
    m.isGlobalValue F = true := by
  unfold Module.isGlobalValue
  rw [hkind]
  rfl

section Targets

variable {info : ModuleInfo Constant} {m m' : Module Constant} {E : Set Constant} {C T : Constant}

theorem Targets.of_erases (h : Erases info m m' E) (hC : m.isBlockAddress C = false)
    (hT : T ∈ Targets m C) : T ∈ Targets m' C ∨ T ∈ E := by
  obtain ⟨U, hU, rfl⟩ := hT
  cases U with
  | instruction F =>
    rcases h.inBody_kept F C hC hU with hU | hF
    · exact Or.inl ⟨.instruction F, hU, rfl⟩
    · exact Or.inr hF
  | constant U =>
    rcases h.operands_kept U C hC hU with hU | howner
    · exact Or.inl ⟨.constant U, hU, h.owner U⟩
    · exact Or.inr howner

theorem Targets.erasable (hm : WellFormedModule info m) (h : Erases info m m' E) (hC : Erasable m C)
    (hT : T ∈ Targets m' C) : Erasable m T := by
  obtain ⟨U, hU, rfl⟩ := hT
  cases U with
  | instruction F =>
    have hF : m.InBody F C := hC.inBody hm h hU
    exact .of_isGlobalValue (isGlobalValue_function (kind_of_inBody hF))
  | constant U =>
    have hU : C ∈ m.operands U := hC.operands hm h hU
    show Erasable m (m'.owner U)
    rw [h.owner]
    rcases owner_cases m U with ⟨hblock, howner⟩ | hkind
    · rw [howner]
      cases hglobal : m.isGlobalValue U with
      | true => exact .of_isGlobalValue hglobal
      | false =>
        obtain ⟨N, hN⟩ := hC.refers
        exact ⟨hblock, N, .operand hglobal hU hN⟩
    · exact .of_isGlobalValue (isGlobalValue_function (hm.owner U _ hkind))

end Targets

variable [DecidableEq Constant] {data : UnloadData Constant} {u u' : Unloader Constant}

namespace Unloader

theorem eraseIfGlobalValue_eq (data : UnloadData Constant) (C : Constant) :
    ∃ m, u.eraseIfGlobalValue data C = { u with module := m } ∧
      Erases data.toModuleInfo u.module m {C} ∧ (u.module.Shape → m.Shape) ∧
      (u.module.Shape → u.module.isGlobalValue C = true →
        m.Erased C ∨ m.KeepsZero data.toModuleInfo C) := by
  unfold eraseIfGlobalValue
  split
  · next hC =>
      exact ⟨_, rfl, Module.eraseDefinition_erases hC, fun hshape => hshape.eraseDefinition C,
        fun hshape _ => Module.eraseDefinition_erased hshape hC⟩
  · next hC => exact ⟨_, rfl, .refl _ _ _, id, fun _ hglobal => absurd hglobal hC⟩

end Unloader

theorem LoopInvariant.step {I : Nat} {C : Constant}
    (hm : WellFormedModule data.toModuleInfo m) (h : LoopInvariant data.toModuleInfo m I u)
    (hC : u.constantsToEraseCompletely[I]? = some C) :
    ∃ u', (u.eraseIfGlobalValue data C).insertConstantAndUsers data
        ((u.eraseIfGlobalValue data C).module.constants.length + 1) C = some u' ∧
      LoopInvariant data.toModuleInfo m (I + 1) u' ∧
      u.constantsToEraseCompletely <+: u'.constantsToEraseCompletely := by
  obtain ⟨m₁, heq, herases, hshape, herased⟩ := u.eraseIfGlobalValue_eq data C
  have htake : u.constantsToEraseCompletely.take (I + 1) =
      u.constantsToEraseCompletely.take I ++ [C] := by
    rw [take_add_one, hC]
    rfl
  have hmem : ∀ D, D ∈ u.constantsToEraseCompletely.take (I + 1) ↔
      D ∈ u.constantsToEraseCompletely.take I ∨ D = C := by
    intro D
    rw [htake, mem_append, mem_singleton]
  have hbound : I + 1 ≤ u.constantsToEraseCompletely.length :=
    (List.getElem?_eq_some_iff.mp hC).1
  have herases₁ : Erases data.toModuleInfo m m₁
      {D | D ∈ u.constantsToEraseCompletely.take (I + 1)} := by
    refine (h.erases.trans herases hm.noBlock.1).mono ?_
    rintro D (hD | hD)
    · exact (hmem D).mpr (Or.inl hD)
    · exact (hmem D).mpr (Or.inr hD)
  have hCerasable : Erasable m C := h.erasable C (mem_of_getElem? hC)
  -- what is visited from here on may have to be erased
  obtain ⟨u', hu', hinserted, hCvisited, hwithin⟩ :=
    Unloader.insertConstantAndUsers_inserted (u := { u with module := m₁ }) data
      {D | Erasable m D} (fun D hD T hT => Targets.erasable hm herases₁ hD hT)
      hCerasable (fun D hD => h.erasable D (h.visited D hD))
      (Nat.lt_succ_of_le (length_filter_le _ _))
  have hsubset : ∀ D ∈ u.constantsToEraseCompletely, D ∈ u'.constantsToEraseCompletely :=
    fun D hD => hinserted.before.subset hD
  have htake' : u'.constantsToEraseCompletely.take (I + 1) =
      u.constantsToEraseCompletely.take (I + 1) := by
    obtain ⟨rest, hrest⟩ := hinserted.before
    rw [← hrest, take_append_of_le_length hbound]
  have hvisited : ∀ D ∈ u'.visitedConstants, D ∈ u'.constantsToEraseCompletely := by
    intro D hD
    by_cases hseen : D ∈ u.visitedConstants
    · exact hsubset D (h.visited D hseen)
    · exact (hinserted.mem D).mpr (Or.inr ⟨hD, hseen⟩)
  rw [heq]
  refine ⟨u', hu', ⟨?_, ?_, hbound.trans hinserted.before.length_le, hinserted.nodup h.nodup,
    fun D hD => ?_, hvisited, fun D hD => ?_, fun D hD T hT => ?_, fun G hG hglobal => ?_⟩,
    hinserted.before⟩
  · rw [hinserted.module]
    exact hshape h.shape
  · rw [hinserted.module, htake']
    exact herases₁
  · rcases (hinserted.mem D).mp hD with hD | ⟨hD, -⟩
    · exact h.erasable D hD
    · exact hwithin hD
  · rw [htake', hmem] at hD
    rcases hD with hD | rfl
    · exact hinserted.follows.subset (h.processed D hD)
    · exact hCvisited
  · by_cases hseen : D ∈ u.visitedConstants
    · exact hsubset T (h.closed D hseen T hT)
    · have hDerasable : Erasable m D := hwithin hD
      rcases Targets.of_erases herases₁ hDerasable.isBlockAddress hT with hT | hT
      · exact hvisited T (hinserted.follows.closed D hD hseen hT)
      · exact hsubset T (mem_of_mem_take hT)
  · rw [hinserted.module]
    rw [htake', hmem] at hG
    rcases hG with hG | rfl
    · refine herases.erased_or_keepsZero (fun K hK => ?_) (h.erased G hG hglobal)
      rw [h.erases.isBlockAddress]
      exact (hm.isNullValue K hK).1
    · exact herased h.shape ((h.erases.isGlobalValue G).trans hglobal)

theorem LoopInvariant.run {I fuel : Nat}
    (hm : WellFormedModule data.toModuleInfo m) (h : LoopInvariant data.toModuleInfo m I u)
    (hfuel : m.constants.length < fuel + I) :
    ∃ u', u.eraseDefinitions data fuel I = some u' ∧
      LoopInvariant data.toModuleInfo m u'.constantsToEraseCompletely.length u' ∧
      u.constantsToEraseCompletely <+: u'.constantsToEraseCompletely := by
  induction fuel generalizing u I with
  | zero =>
    -- no constant is listed twice
    have hlength : u.constantsToEraseCompletely.length ≤ m.constants.length :=
      (h.nodup.subperm fun C _ => m.mem_constants C).length_le
    have hposition := h.position
    omega
  | succ fuel ih =>
    unfold Unloader.eraseDefinitions
    cases hC : u.constantsToEraseCompletely[I]? with
    | none =>
      have hlength : I = u.constantsToEraseCompletely.length :=
        Nat.le_antisymm h.position (List.getElem?_eq_none_iff.mp hC)
      exact ⟨u, rfl, hlength ▸ h, prefix_rfl⟩
    | some C =>
      obtain ⟨u₁, hu₁, hinvariant, hbefore⟩ := h.step hm hC
      obtain ⟨u', hu', hinvariant', hbefore'⟩ := ih hinvariant (by omega)
      refine ⟨u', ?_, hinvariant', hbefore.trans hbefore'⟩
      simp only [hu₁, hu', bind_eq_bind, bind_some]

/-- What a step adds before the list is walked: some global values. -/
structure AddsGlobals (u u' : Unloader Constant) : Prop where
  module : u'.module = u.module
  visited : u'.visitedConstants = u.visitedConstants
  before : u.constantsToEraseCompletely <+: u'.constantsToEraseCompletely
  nodup : u.constantsToEraseCompletely.Nodup → u'.constantsToEraseCompletely.Nodup
  mem : ∀ C ∈ u'.constantsToEraseCompletely,
    C ∈ u.constantsToEraseCompletely ∨ u.module.isGlobalValue C = true

namespace AddsGlobals

omit [DecidableEq Constant] in
theorem refl (u : Unloader Constant) : AddsGlobals u u :=
  ⟨rfl, rfl, prefix_rfl, id, fun _ => Or.inl⟩

theorem insert (h : AddsGlobals u u') {C : Constant} (hC : u.module.isGlobalValue C = true) :
    AddsGlobals u (u'.insertConstantsToEraseCompletely C) := by
  refine ⟨h.module, h.visited, h.before.trans (SetVector.prefix_insert _ C),
    fun hnodup => SetVector.nodup_insert C (h.nodup hnodup), fun D hD => ?_⟩
  rcases (SetVector.mem_insert _ C D).mp hD with hD | rfl
  · exact h.mem D hD
  · exact Or.inr hC

variable (data)

omit [DecidableEq Constant] in
theorem insertCachedDeferredDeclsToEmit (h : AddsGlobals u u') (GV : Constant) :
    AddsGlobals u (u'.insertCachedDeferredDeclsToEmit data GV) := by
  obtain ⟨decls, heq⟩ := u'.insertCachedDeferredDeclsToEmit_eq data GV
  rw [heq]
  exact { h with }

theorem insertPrefixed (h : AddsGlobals u u') (prefixes : List String) {GVs : List Constant}
    (hGVs : ∀ C ∈ GVs, u.module.isGlobalValue C = true) :
    AddsGlobals u (u'.insertPrefixed data prefixes GVs) := by
  refine List.foldlRecOn GVs _ h fun u'' h'' GV hGV => ?_
  split
  · exact h''.insert (hGVs GV hGV)
  · exact h''

theorem insertNamed (h : AddsGlobals u u') (names : List String) :
    AddsGlobals u (u'.insertNamed data names) := by
  refine List.foldlRecOn names _ h fun u'' h'' name _ => ?_
  split
  · next GV hGV =>
      have hglobal := find?_some hGV
      rw [Bool.and_eq_true, h''.module] at hglobal
      exact h''.insert hglobal.1
  · exact h''

theorem insertErasedTypes (h : AddsGlobals u u') : AddsGlobals u (u'.insertErasedTypes data) := by
  refine List.foldlRecOn _ _ h fun u'' h'' F hF => ?_
  rw [h.module, Module.functions, Module.mem_ofKind] at hF
  split
  · exact h''
  · split
    · exact (h''.insert (isGlobalValue_function hF)).insertCachedDeferredDeclsToEmit data F
    · exact h''

end AddsGlobals

theorem insertRoots_addsGlobals (h : Prepared data u) : AddsGlobals u (u.insertRoots data) := by
  refine AddsGlobals.insertErasedTypes data ?_
  have hobjects : ∀ C ∈ u.module.functions ++ u.module.globals,
      u.module.isGlobalValue C = true := by
    intro C hC
    unfold Module.functions Module.globals at hC
    rw [mem_append, Module.mem_ofKind, Module.mem_ofKind] at hC
    rcases hC with hkind | hkind
    · exact isGlobalValue_function hkind
    · unfold Module.isGlobalValue
      rw [hkind]
      rfl
  have hnamed := ((AddsGlobals.refl u).insertPrefixed data ["__asan", ".omp_offload", "__tgt_"]
    hobjects).insertNamed data ["llvm.global_ctors", "llvm.global_dtors",
    "llvm.global.annotations", "__tls_init", "__tls_guard", "asan.module_ctor",
    "asan.module_dtor", "__llvm_gcov_ctr", "__llvm_gcov_init", "__llvm_gcov_writeout"]
  have hctors := hnamed.insertPrefixed data ["_GLOBAL__sub_I"] fun C hC =>
    h.structors C (mem_append_left data.globalDtors hC)
  have hdtors := hctors.insertPrefixed data ["_GLOBAL__D"] fun C hC =>
    h.structors C (mem_append_right data.globalCtors hC)
  split
  · next GV hGV => exact hdtors.insert (h.stats GV hGV)
  · exact hdtors

omit [DecidableEq Constant] in
theorem WellFormedModule.of_erases {info : ModuleInfo Constant} {m m' : Module Constant}
    {E : Set Constant} (hm : WellFormedModule info m) (h : Erases info m m' E) (hshape : m'.Shape) :
    WellFormedModule info m' := by
  refine ⟨hshape, fun B F hkind => ?_, fun K hK => ?_, ?_⟩
  · rw [h.kind] at hkind ⊢
    exact hm.owner B F hkind
  · obtain ⟨hblock, hrefers⟩ := hm.isNullValue K hK
    exact ⟨(h.isBlockAddress K).trans hblock, fun N hN => hrefers N (h.refers hm.noBlock.2 hN)⟩
  · exact ⟨(h.isBlockAddress _).trans hm.noBlock.1,
      fun N hN => hm.noBlock.2 N (h.refers hm.noBlock.2 hN)⟩

theorem foldl_eraseDefinition {info : ModuleInfo Constant}
    (hm : WellFormedModule info m) {GVs : List Constant}
    (hGVs : ∀ C ∈ GVs, m.isGlobalValue C = true) :
    Erases info m (GVs.foldl (fun m GV => m.eraseDefinition info GV) m) {C | C ∈ GVs} ∧
      (GVs.foldl (fun m GV => m.eraseDefinition info GV) m).Shape ∧
      ∀ G ∈ GVs, (GVs.foldl (fun m GV => m.eraseDefinition info GV) m).Erased G ∨
        (GVs.foldl (fun m GV => m.eraseDefinition info GV) m).KeepsZero info G := by
  induction GVs generalizing m with
  | nil => exact ⟨.refl _ _ _, hm.toShape, fun G hG => absurd hG not_mem_nil⟩
  | cons GV rest ih =>
    have hGV : m.isGlobalValue GV = true := hGVs GV mem_cons_self
    have herases : Erases info m (m.eraseDefinition info GV) {GV} :=
      Module.eraseDefinition_erases hGV
    have hm₁ : WellFormedModule info (m.eraseDefinition info GV) :=
      hm.of_erases herases (hm.toShape.eraseDefinition GV)
    obtain ⟨herases', hshape, hdone⟩ := ih hm₁ fun C hC =>
      (herases.isGlobalValue C).trans (hGVs C (mem_cons_of_mem _ hC))
    refine ⟨(herases.trans herases' hm.noBlock.1).mono ?_, hshape, fun G hG => ?_⟩
    · rintro C (rfl | hC)
      · exact mem_cons_self
      · exact mem_cons_of_mem _ hC
    · rcases mem_cons.mp hG with rfl | hG
      · exact herases'.erased_or_keepsZero (fun K hK => (hm₁.isNullValue K hK).1)
          (Module.eraseDefinition_erased hm.toShape hGV)
      · exact hdone G hG

section Done

variable {info : ModuleInfo Constant} {m m' : Module Constant} {E : Set Constant}
  {C F G : Constant}

omit [DecidableEq Constant]

theorem erased_of_function (hdone : m'.Erased F ∨ m'.KeepsZero info F)
    (hkind : m'.kind F = .function) : m'.Erased F := by
  rcases hdone with hdone | hzero
  · exact hdone
  · have hcontra := hzero.kind
    rw [hkind] at hcontra
    cases hcontra

theorem notMem_operands_of_done (hm : WellFormedModule info m) (hC : Erasable m C)
    (hdone : m'.Erased G ∨ m'.KeepsZero info G) : C ∉ m'.operands G := by
  intro hmem
  rcases hdone with hdone | hzero
  · rw [hdone.operands] at hmem
    exact not_mem_nil hmem
  · have hnull := hzero.isNullValue C hmem
    rw [hC.isNullValue hm] at hnull
    cases hnull

theorem erased_of_user (hm : WellFormedModule info m) (h : Erases info m m' E) (hC : Erasable m C)
    (hmem : C ∈ m.operands G) (hdone : m'.Erased G ∨ m'.KeepsZero info G) : m'.Erased G := by
  rcases hdone with hdone | hzero
  · exact hdone
  · have hkind : m.kind G = .globalVariable := (congrFun h.kind G).symm.trans hzero.kind
    -- the constant was the whole initializer
    have honly : m.operands G = [C] := by
      obtain ⟨K, hK⟩ := length_eq_one_iff.mp
        (Nat.le_antisymm (hm.initializer G hkind) (length_pos_of_mem hmem))
      rw [hK] at hmem ⊢
      rw [mem_singleton.mp hmem]
    refine ⟨eq_nil_iff_forall_not_mem.mpr fun K hK => ?_,
      Module.instructions_of_ne (by simp [hzero.kind])⟩
    have hnull := hzero.isNullValue K hK
    rcases h.operands G K hK with hK | ⟨-, B, hB, hblock⟩
    · rw [honly, mem_singleton] at hK
      rw [hK, hC.isNullValue hm] at hnull
      cases hnull
    · rw [honly, mem_singleton] at hB
      rw [hB, hC.isBlockAddress] at hblock
      cases hblock

end Done

namespace LoopInvariant

variable {m : Module Constant} {C : Constant}

omit [DecidableEq Constant]

theorem done (h : LoopInvariant data.toModuleInfo m u.constantsToEraseCompletely.length u)
    {G : Constant} (hG : G ∈ u.constantsToEraseCompletely) (hglobal : m.isGlobalValue G = true) :
    u.module.Erased G ∨ u.module.KeepsZero data.toModuleInfo G := by
  refine h.erased G ?_ hglobal
  rw [take_length]
  exact hG

theorem target (h : LoopInvariant data.toModuleInfo m u.constantsToEraseCompletely.length u)
    (hC : C ∈ u.constantsToEraseCompletely) {U : User Constant} (hU : m.Uses C U) :
    Unloader.target m U ∈ u.constantsToEraseCompletely := by
  refine h.closed C (h.processed C ?_) _ ⟨U, hU, rfl⟩
  rw [take_length]
  exact hC

theorem constant (hm : WellFormedModule data.toModuleInfo m)
    (h : LoopInvariant data.toModuleInfo m u.constantsToEraseCompletely.length u)
    (hC : C ∈ u.constantsToEraseCompletely) {U : Constant} (hU : C ∈ u.module.operands U) :
    U ∈ u.constantsToEraseCompletely ∧ m.isGlobalValue U = false := by
  have hCerasable : Erasable m C := h.erasable C hC
  have howner : m.owner U ∈ u.constantsToEraseCompletely :=
    h.target hC (U := .constant U) (hCerasable.operands hm h.erases hU)
  rcases owner_cases m U with ⟨-, heq⟩ | hkind
  · rw [heq] at howner
    refine ⟨howner, Bool.eq_false_iff.mpr fun hglobal => ?_⟩
    exact notMem_operands_of_done hm hCerasable (h.done howner hglobal) hU
  · have hfunction : m.kind (m.owner U) = .function := hm.owner U _ hkind
    have hfunction' : u.module.kind (m.owner U) = .function := by
      rw [h.erases.kind]
      exact hfunction
    have herased : u.module.Erased (m.owner U) :=
      erased_of_function (h.done howner (isGlobalValue_function hfunction)) hfunction'
    refine absurd ((Module.instructions_function hfunction').symm.trans herased.instructions)
      (h.shape.blockAddress U _ ?_ (ne_nil_of_mem hU))
    rw [h.erases.kind]
    exact hkind

theorem instruction (hm : WellFormedModule data.toModuleInfo m)
    (h : LoopInvariant data.toModuleInfo m u.constantsToEraseCompletely.length u)
    (hC : C ∈ u.constantsToEraseCompletely) (F : Constant) : ¬u.module.InBody F C := by
  intro hF
  have hbody : m.InBody F C := (h.erasable C hC).inBody hm h.erases hF
  have herased : u.module.Erased F :=
    erased_of_function (h.done (h.target hC (U := .instruction F) hbody)
      (isGlobalValue_function (kind_of_inBody hbody))) (kind_of_inBody hF)
  obtain ⟨I, hI, -⟩ := hF
  rw [herased.instructions] at hI
  exact not_mem_nil hI

end LoopInvariant

/-- What holds of the collected constants, when `m` was the module before. -/
structure Collected (data : UnloadData Constant) (m : Module Constant)
    (u : Unloader Constant) : Prop where
  /-- A constant that still uses a collected one is collected, and is no global value. -/
  constant : ∀ C ∈ u.constantsToEraseCompletely, ∀ U, C ∈ u.module.operands U →
    U ∈ u.constantsToEraseCompletely ∧ m.isGlobalValue U = false
  /-- No instruction still uses a collected constant. -/
  instruction : ∀ C ∈ u.constantsToEraseCompletely, ∀ F, ¬u.module.InBody F C
  /-- A constant that used a collected one is collected, or what it belongs to is erased. -/
  user : ∀ C ∈ u.constantsToEraseCompletely, ∀ U, C ∈ m.operands U →
    U ∈ u.constantsToEraseCompletely ∨ u.module.Erased (m.owner U)
  /-- A function with an instruction that used a collected constant is erased. -/
  body : ∀ C ∈ u.constantsToEraseCompletely, ∀ F, m.InBody F C → u.module.Erased F
  globalValue : ∀ G ∈ u.constantsToEraseCompletely, m.isGlobalValue G = true →
    u.module.Erased G ∨ u.module.KeepsZero data.toModuleInfo G
  erasable : ∀ C ∈ u.constantsToEraseCompletely, Erasable m C
  erases : ∃ E, Erases data.toModuleInfo m u.module E
  visited : u.visitedConstants = ∅

theorem collectConstants_collected (h : Prepared data u) :
    ∃ u', u.collectConstants data = some u' ∧
      u.constantsToEraseCompletely <+: u'.constantsToEraseCompletely ∧
      Collected data u.module u' := by
  have hroots : AddsGlobals u (u.insertRoots data) := insertRoots_addsGlobals h
  have hm : WellFormedModule data.toModuleInfo (u.insertRoots data).module := by
    rw [hroots.module]
    exact h.wellFormed
  obtain ⟨herases, hshape, hdone⟩ := foldl_eraseDefinition hm fun C hC => by
    rw [hroots.module]
    exact h.keep C hC
  have hm₁ :
      WellFormedModule data.toModuleInfo ((u.insertRoots data).keepDeclarations data).module :=
    hm.of_erases herases hshape
  have hstart : LoopInvariant data.toModuleInfo
      ((u.insertRoots data).keepDeclarations data).module 0
      ((u.insertRoots data).keepDeclarations data) := by
    have hvisited : ((u.insertRoots data).keepDeclarations data).visitedConstants = ∅ :=
      hroots.visited.trans h.visited
    refine ⟨hshape, .refl _ _ _, Nat.zero_le _, hroots.nodup h.nodup, fun C hC => ?_,
      fun C hC => ?_, fun C hC => absurd hC not_mem_nil, fun C hC => ?_,
      fun G hG => absurd hG not_mem_nil⟩
    · refine .of_isGlobalValue ((herases.isGlobalValue C).trans ?_)
      rw [hroots.module]
      exact (hroots.mem C hC).elim (h.erase C) id
    · rw [hvisited] at hC
      exact absurd hC (Finset.notMem_empty C)
    · rw [hvisited] at hC
      exact absurd hC (Finset.notMem_empty C)
  obtain ⟨u', hu', hend, hbefore⟩ := hstart.run hm₁ (Nat.lt_succ_self _)
  have hcollect : u.collectConstants data = some { u' with visitedConstants := ∅ } := by
    unfold Unloader.collectConstants
    simp only [hu', bind_eq_bind, bind_some]
  replace herases : Erases data.toModuleInfo u.module
      ((u.insertRoots data).keepDeclarations data).module {C | C ∈ data.gvsToKeepDeclaration} := by
    rw [← hroots.module]
    exact herases
  have hall := herases.trans hend.erases h.wellFormed.noBlock.1
  have hkind : ∀ C, u'.module.kind C = u.module.kind C := congrFun hall.kind
  have herasable : ∀ C ∈ u'.constantsToEraseCompletely, Erasable u.module C := by
    intro C hC
    obtain ⟨hblock, N, hN⟩ := hend.erasable C hC
    exact ⟨(herases.isBlockAddress C).symm.trans hblock, N,
      herases.refers h.wellFormed.noBlock.2 hN⟩
  -- what was erased on the way is a global value that was dealt with
  have hdealt : ∀ G, G ∈ {C | C ∈ data.gvsToKeepDeclaration} ∪
      {C | C ∈ u'.constantsToEraseCompletely.take u'.constantsToEraseCompletely.length} →
      u.module.isGlobalValue G = true →
      u'.module.Erased G ∨ u'.module.KeepsZero data.toModuleInfo G := by
    rintro G (hG | hG) hglobal
    · exact hend.erases.erased_or_keepsZero (fun K hK => (hm₁.isNullValue K hK).1) (hdone G hG)
    · exact hend.erased G hG ((herases.isGlobalValue G).trans hglobal)
  refine ⟨_, hcollect, hroots.before.trans hbefore, ⟨fun C hC U hU => ?_,
    fun C hC F => hend.instruction hm₁ hC F, fun C hC U hU => ?_, fun C hC F hF => ?_,
    fun G hG hglobal => hend.done hG ((herases.isGlobalValue G).trans hglobal), herasable,
    ⟨_, hall⟩, rfl⟩⟩
  · obtain ⟨hmem, hglobal⟩ := hend.constant hm₁ hC hU
    exact ⟨hmem, (herases.isGlobalValue U).symm.trans hglobal⟩
  · rcases hall.operands_kept U C (herasable C hC).isBlockAddress hU with hU | howner
    · exact Or.inl (hend.constant hm₁ hC hU).1
    · rcases owner_cases u.module U with ⟨-, heq⟩ | hblock
      · rw [heq] at howner ⊢
        cases hglobal : u.module.isGlobalValue U with
        | true =>
          exact Or.inr (erased_of_user h.wellFormed hall (herasable C hC) hU
            (hdealt U howner hglobal))
        | false =>
          rcases howner with hkeep | hmem
          · rw [h.keep U hkeep] at hglobal
            cases hglobal
          · exact Or.inl (mem_of_mem_take hmem)
      · have hfunction := h.wellFormed.owner U _ hblock
        exact Or.inr (erased_of_function (hdealt _ howner (isGlobalValue_function hfunction))
          ((hkind _).trans hfunction))
  · have hfunction := kind_of_inBody hF
    rcases hall.inBody_kept F C (herasable C hC).isBlockAddress hF with hF | hF
    · exact absurd hF (hend.instruction hm₁ hC F)
    · exact erased_of_function (hdealt F hF (isGlobalValue_function hfunction))
        ((hkind F).trans hfunction)

end Zapcc.Unload
