import Zapcc.Support.DeltaAlgorithm

/-!
# Delta debugging with dependencies

Active changes are minimized by `DeltaAlgorithm`, each together with the changes that depend on it.
A change with several dependencies can be tested without one of them. The main result is
`Run_closed`: while the active changes are `Separate`, all sets that are tested are closed under
dependencies, and so is the result.
-/

namespace Zapcc.DAGDeltaAlgorithm

open Relation DeltaAlgorithm List

/-! ## The code -/

/-- `(x, y)`: the change `x` depends on `y`. -/
abbrev Edge := Nat × Nat

variable {σ : Type*} (Dependencies : List Edge)

/-- The map `Predecessors`. -/
def predecessors (c : Nat) : List Nat :=
  (Dependencies.filter fun e => e.2 = c).map Prod.fst

/-- The map `Successors`. -/
def successors (c : Nat) : List Nat :=
  (Dependencies.filter fun e => e.1 = c).map Prod.snd

def computeRoots (Changes : ChangeSet) : List Nat :=
  (elements Changes).filter fun c => successors Dependencies c = []

/-- The body of the loop over the worklist, but for the worklist. -/
def visit (Change : Nat) (SuccClosure : Nat → ChangeSet) (preds : List Nat) : Nat → ChangeSet :=
  preds.foldl (fun SC p => Function.update SC p (insert Change (SC p ∪ SC Change))) SuccClosure

/-- The loop over the worklist, whose back is the head of the list. -/
def closeSuccessors : Nat → List Nat → (Nat → ChangeSet) → Option (Nat → ChangeSet)
  | 0, _, _ => none
  | _ + 1, [], SuccClosure => some SuccClosure
  | fuel + 1, Change :: Worklist, SuccClosure =>
    closeSuccessors fuel ((predecessors Dependencies Change).reverse ++ Worklist)
      (visit Change SuccClosure (predecessors Dependencies Change))

structure Impl where
  Roots : List Nat
  Predecessors : Nat → List Nat
  PredClosure : Nat → ChangeSet

def new (fuel : Nat) (Changes : ChangeSet) : Option Impl :=
  (closeSuccessors Dependencies fuel (computeRoots Dependencies Changes).reverse fun _ => ∅).map
    fun SuccClosure =>
      { Roots := computeRoots Dependencies Changes
        Predecessors := predecessors Dependencies
        PredClosure := fun c => Changes.filter fun x => c ∈ SuccClosure x }

def Impl.extended (d : Impl) (Changes Required : ChangeSet) : ChangeSet :=
  Required ∪ Changes ∪ Changes.biUnion d.PredClosure

def Impl.GetTestResult (d : Impl) (ExecuteOneTest : Test σ) (Required : ChangeSet)
    (s : Session σ) (Changes : ChangeSet) : Bool × Session σ :=
  DeltaAlgorithm.GetTestResult ExecuteOneTest s (d.extended Changes Required)

/-- The variables of `Run`. -/
structure State (σ : Type*) where
  CurrentSet : ChangeSet
  Required : ChangeSet
  session : Session σ

def Impl.start (d : Impl) (client : σ) : State σ := ⟨d.Roots.toFinset, ∅, [], client⟩

/-- The body of the loop of `Run`. -/
def Impl.round (d : Impl) (ExecuteOneTest : Test σ) (S : State σ) : Option (State σ) :=
  (DeltaAlgorithm.Run (d.GetTestResult ExecuteOneTest S.Required) ⟨[], S.session⟩
    S.CurrentSet).map fun (CurrentMinSet, helper) =>
      { CurrentSet := CurrentMinSet.biUnion fun c => (d.Predecessors c).toFinset
        Required := S.Required ∪ CurrentMinSet
        session := helper.client }

/-- The loop of `Run`. -/
def Impl.loop (d : Impl) (ExecuteOneTest : Test σ) : Nat → State σ → Option (State σ)
  | 0, _ => none
  | fuel + 1, S =>
    if S.CurrentSet = ∅ then some S
    else (d.round ExecuteOneTest S).bind (d.loop ExecuteOneTest fuel)

def Run (fuel : Nat) (ExecuteOneTest : Test σ) (client : σ) (Changes : ChangeSet) :
    Option (ChangeSet × σ) :=
  (new Dependencies fuel Changes).bind fun d =>
    (d.loop ExecuteOneTest fuel (d.start client)).map fun S => (S.Required, S.session.client)

/-! ## Dependencies -/

/-- `x` depends on `y`. -/
def Dep (x y : Nat) : Prop := (x, y) ∈ Dependencies

/-- A set with all dependencies of its changes. -/
def Closed (S : ChangeSet) : Prop := ∀ x ∈ S, ∀ y, Dep Dependencies x y → y ∈ S

/-- Dependencies between changes, without cycles. -/
structure Dag (Changes : ChangeSet) : Prop where
  edges : ∀ x y, Dep Dependencies x y → x ∈ Changes ∧ y ∈ Changes
  acyclic : ∀ x, ¬ TransGen (Dep Dependencies) x x

/-- Above an active change is nothing that depends on a change that is neither required nor above
it too. -/
def Separate (S : State σ) : Prop :=
  ∀ a ∈ S.CurrentSet, ∀ x, ReflTransGen (Dep Dependencies) x a → ∀ y, Dep Dependencies x y →
    y ∈ S.Required ∨ ReflTransGen (Dep Dependencies) y a

variable {Dependencies} {Changes T : ChangeSet} {x y z c : Nat}

theorem mem_predecessors : x ∈ predecessors Dependencies c ↔ Dep Dependencies x c := by
  simp [predecessors, Dep]

theorem successors_eq_nil : successors Dependencies c = [] ↔ ∀ y, ¬ Dep Dependencies c y := by
  rw [eq_nil_iff_forall_not_mem]
  simp [successors, Dep]

theorem wellFounded_of_acyclic (Changes : ChangeSet) {R : Nat → Nat → Prop}
    (hedges : ∀ x y, R x y → x ∈ Changes)
    (hacyclic : ∀ x, ¬ TransGen R x x) : WellFounded R := by
  let r : {x // x ∈ Changes} → {x // x ∈ Changes} → Prop := fun x y => TransGen R x y
  have : Std.Irrefl r := ⟨fun x => hacyclic x⟩
  have hwf : WellFounded r := Finite.wellFounded_of_trans_of_irrefl r
  have hacc : ∀ x : {x // x ∈ Changes}, Acc R x := by
    intro x
    induction x using hwf.induction with
    | _ x ih => exact ⟨_, fun y hy => ih ⟨y, hedges y x hy⟩ (.single hy)⟩
  exact ⟨fun x => ⟨_, fun y hy => hacc ⟨y, hedges y x hy⟩⟩⟩

namespace Dag

variable (h : Dag Dependencies Changes)

include h

theorem wellFounded : WellFounded (Dep Dependencies) :=
  wellFounded_of_acyclic Changes (fun x y hxy => (h.edges x y hxy).1) h.acyclic

theorem exists_root (x : Nat) : ∃ r, ReflTransGen (Dep Dependencies) x r ∧
    ∀ y, ¬ Dep Dependencies r y := by
  have hwf : WellFounded (Function.swap (Dep Dependencies)) := by
    refine wellFounded_of_acyclic Changes (fun y x hxy => (h.edges x y hxy).2) ?_
    intro x hx
    exact h.acyclic x (transGen_swap.mp hx)
  induction x using hwf.induction with
  | _ x ih =>
    by_cases hx : ∃ y, Dep Dependencies x y
    · obtain ⟨y, hy⟩ := hx
      obtain ⟨r, hr, hroot⟩ := ih y hy
      exact ⟨r, hr.head hy, hroot⟩
    · exact ⟨x, .refl, not_exists.mp hx⟩

theorem not_reflTransGen (hxy : Dep Dependencies x y) :
    ¬ ReflTransGen (Dep Dependencies) y x := fun hyx =>
  h.acyclic x (TransGen.head' hxy hyx)

end Dag

/-! ## Closures -/

theorem mem_visit_iff {SC : Nat → ChangeSet} {preds : List Nat} (hc : c ∉ preds) :
    z ∈ visit c SC preds x ↔ z ∈ SC x ∨ (x ∈ preds ∧ (z = c ∨ z ∈ SC c)) := by
  unfold visit
  induction preds generalizing SC with
  | nil => simp
  | cons p preds ih =>
    have hcp : c ≠ p := fun heq => hc (heq ▸ mem_cons_self)
    rw [foldl_cons, ih (not_mem_of_not_mem_cons hc), Function.update_of_ne hcp]
    by_cases hx : x = p
    · subst hx
      simp only [Function.update_self, Finset.mem_insert, Finset.mem_union, mem_cons,
        true_or, true_and]
      tauto
    · simp only [Function.update_of_ne hx, mem_cons, hx, false_or]

/-- A dependency that the closures miss is above a change of the worklist. -/
structure Closing (Dependencies : List Edge) (Worklist : List Nat) (SC : Nat → ChangeSet) :
    Prop where
  sound : ∀ x y, y ∈ SC x → TransGen (Dep Dependencies) x y
  pending : ∀ x y, Dep Dependencies x y → (y ∈ SC x ∧ SC y ⊆ SC x) ∨
    ∃ w ∈ Worklist, ReflTransGen (Dep Dependencies) y w

variable {Worklist : List Nat} {SC : Nat → ChangeSet}

theorem Closing.visit (h : Dag Dependencies Changes)
    (hclosing : Closing Dependencies (c :: Worklist) SC) :
    Closing Dependencies ((predecessors Dependencies c).reverse ++ Worklist)
      (visit c SC (predecessors Dependencies c)) := by
  have hc : c ∉ predecessors Dependencies c := fun hmem =>
    h.acyclic c (.single (mem_predecessors.mp hmem))
  refine ⟨fun x y hy => ?_, fun x y hxy => ?_⟩
  · rw [mem_visit_iff hc, mem_predecessors] at hy
    rcases hy with hy | ⟨hx, rfl | hy⟩
    · exact hclosing.sound x y hy
    · exact .single hx
    · exact .head hx (hclosing.sound c y hy)
  · by_cases hyc : y = c
    · subst hyc
      refine .inl ⟨?_, fun z hz => ?_⟩
      · rw [mem_visit_iff hc, mem_predecessors]
        exact .inr ⟨hxy, .inl rfl⟩
      · rw [mem_visit_iff hc] at hz ⊢
        rcases hz with hz | ⟨hmem, -⟩
        · exact .inr ⟨mem_predecessors.mpr hxy, .inr hz⟩
        · exact absurd hmem hc
    by_cases hpred : y ∈ predecessors Dependencies c
    · exact .inr ⟨y, mem_append_left _ (List.mem_reverse.mpr hpred), .refl⟩
    rcases hclosing.pending x y hxy with ⟨hy, hsubset⟩ | ⟨w, hw, hyw⟩
    · refine .inl ⟨(mem_visit_iff hc).mpr (.inl hy), fun z hz => ?_⟩
      rw [mem_visit_iff hc] at hz ⊢
      rcases hz with hz | ⟨hmem, -⟩
      · exact .inl (hsubset hz)
      · exact absurd hmem hpred
    · rcases List.mem_cons.mp hw with rfl | hw
      · obtain rfl | ⟨p, hyp, hp⟩ := ReflTransGen.cases_tail_iff _ _ _ |>.mp hyw
        · exact absurd rfl hyc
        · exact .inr ⟨p, mem_append_left _ (List.mem_reverse.mpr (mem_predecessors.mpr hp)), hyp⟩
      · exact .inr ⟨w, mem_append_right _ hw, hyw⟩

theorem Closing.closeSuccessors (h : Dag Dependencies Changes) {fuel : Nat} {r : Nat → ChangeSet}
    (hclosing : Closing Dependencies Worklist SC)
    (hr : closeSuccessors Dependencies fuel Worklist SC = some r) : Closing Dependencies [] r := by
  induction fuel generalizing Worklist SC with
  | zero => cases hr
  | succ fuel ih =>
    cases Worklist with
    | nil => exact Option.some.inj hr ▸ hclosing
    | cons c Worklist => exact ih (hclosing.visit h) hr

/-- The loop over the worklist ends. -/
def Ends (Dependencies : List Edge) (Worklist : List Nat) : Prop :=
  ∀ SC, ∃ n r, ∀ fuel ≥ n, closeSuccessors Dependencies fuel Worklist SC = some r

theorem ends_nil : Ends Dependencies [] := by
  refine fun SC => ⟨1, SC, fun fuel hfuel => ?_⟩
  obtain ⟨fuel, rfl⟩ := Nat.exists_eq_add_of_le' hfuel
  rfl

theorem ends_append {L : List Nat}
    (hL : ∀ c ∈ L, ∀ W, Ends Dependencies W → Ends Dependencies (c :: W))
    (hW : Ends Dependencies Worklist) : Ends Dependencies (L ++ Worklist) := by
  induction L with
  | nil => exact hW
  | cons c L ih =>
    exact hL c mem_cons_self _ (ih fun p hp => hL p (mem_cons_of_mem c hp))

theorem ends_cons (h : Dag Dependencies Changes) (c : Nat) :
    ∀ W, Ends Dependencies W → Ends Dependencies (c :: W) := by
  induction c using h.wellFounded.induction with
  | _ c ih =>
    intro W hW SC
    have hpreds : Ends Dependencies ((predecessors Dependencies c).reverse ++ W) :=
      ends_append (fun p hp => ih p (mem_predecessors.mp (List.mem_reverse.mp hp))) hW
    obtain ⟨n, r, hfuel⟩ := hpreds (visit c SC (predecessors Dependencies c))
    refine ⟨n + 1, r, fun fuel hle => ?_⟩
    obtain ⟨fuel, rfl⟩ := Nat.exists_eq_add_of_le' hle
    exact hfuel (fuel + n) (Nat.le_add_left n fuel)

theorem Closing.mem_iff (hclosing : Closing Dependencies [] SC) :
    y ∈ SC x ↔ TransGen (Dep Dependencies) x y := by
  refine ⟨hclosing.sound x y, fun hxy => ?_⟩
  have hstep : ∀ x y, Dep Dependencies x y → y ∈ SC x ∧ SC y ⊆ SC x := fun x y hxy =>
    (hclosing.pending x y hxy).resolve_right (by simp)
  induction hxy using TransGen.head_induction_on with
  | single hxy => exact (hstep _ _ hxy).1
  | head hxz _ ih => exact (hstep _ _ hxz).2 ih

/-- What the constructor computes. -/
structure Computed (Dependencies : List Edge) (Changes : ChangeSet) (d : Impl) : Prop where
  mem_roots : ∀ c, c ∈ d.Roots ↔ c ∈ Changes ∧ ∀ y, ¬ Dep Dependencies c y
  mem_predecessors : ∀ x c, x ∈ d.Predecessors c ↔ Dep Dependencies x c
  mem_predClosure : ∀ x c, x ∈ d.PredClosure c ↔ TransGen (Dep Dependencies) x c

theorem mem_computeRoots : c ∈ computeRoots Dependencies Changes ↔
    c ∈ Changes ∧ ∀ y, ¬ Dep Dependencies c y := by
  simp [computeRoots, successors_eq_nil, mem_elements]

theorem new_ends (h : Dag Dependencies Changes) :
    ∃ n d, ∀ fuel ≥ n, new Dependencies fuel Changes = some d := by
  have hends : Ends Dependencies ((computeRoots Dependencies Changes).reverse ++ []) :=
    ends_append (fun c _ => ends_cons h c) ends_nil
  rw [append_nil] at hends
  obtain ⟨n, r, hfuel⟩ := hends fun _ => ∅
  exact ⟨n, _, fun fuel hle => by rw [new, hfuel fuel hle, Option.map_some]⟩

theorem new_computed (h : Dag Dependencies Changes) {fuel : Nat} {d : Impl}
    (hd : new Dependencies fuel Changes = some d) : Computed Dependencies Changes d := by
  obtain ⟨r, hr, rfl⟩ := Option.map_eq_some_iff.mp hd
  have hstart : Closing Dependencies (computeRoots Dependencies Changes).reverse fun _ => ∅ := by
    refine ⟨by simp, fun x y hxy => ?_⟩
    obtain ⟨w, hyw, hroot⟩ := h.exists_root y
    refine .inr ⟨w, List.mem_reverse.mpr (mem_computeRoots.mpr ⟨?_, hroot⟩), hyw⟩
    obtain rfl | ⟨p, -, hp⟩ := ReflTransGen.cases_tail_iff _ _ _ |>.mp hyw
    · exact (h.edges x w hxy).2
    · exact (h.edges p w hp).2
  refine ⟨fun c => mem_computeRoots, fun x c => mem_predecessors, fun x c => ?_⟩
  rw [Finset.mem_filter, (hstart.closeSuccessors h hr).mem_iff]
  refine and_iff_right_of_imp fun hxc => ?_
  obtain ⟨y, hxy, -⟩ := TransGen.head'_iff.mp hxc
  exact (h.edges x y hxy).1

/-! ## The loop -/

variable {d : Impl} {test : ChangeSet → Bool} {S S' : State (List ChangeSet)}

/-- A test whose client notes the sets that are tested. -/
def noteTest (test : ChangeSet → Bool) : Test (List ChangeSet) := fun log S => (test S, S :: log)

theorem Computed.mem_extended (hd : Computed Dependencies Changes d) {R : ChangeSet} :
    z ∈ d.extended T R ↔ z ∈ R ∨ ∃ a ∈ T, ReflTransGen (Dep Dependencies) z a := by
  simp only [Impl.extended, Finset.mem_union, Finset.mem_biUnion, hd.mem_predClosure,
    reflTransGen_iff_eq_or_transGen, or_assoc]
  refine or_congr_right ⟨?_, ?_⟩
  · rintro (hz | ⟨a, ha, hza⟩)
    · exact ⟨z, hz, .inl rfl⟩
    · exact ⟨a, ha, .inr hza⟩
  · rintro ⟨a, ha, rfl | hza⟩
    · exact .inl ha
    · exact .inr ⟨a, ha, hza⟩

structure Valid (Dependencies : List Edge) (Changes : ChangeSet) (test : ChangeSet → Bool)
    (d : Impl) (S : State (List ChangeSet)) : Prop where
  closed : Closed Dependencies S.Required
  disjoint : ∀ x ∈ S.CurrentSet, x ∉ S.Required
  subset : S.CurrentSet ⊆ Changes ∧ S.Required ⊆ Changes
  passes : test (d.extended S.CurrentSet S.Required) = true
  session : S.session.Valid test fun log => ∀ T ∈ log, Closed Dependencies T

theorem closed_extended (hd : Computed Dependencies Changes d)
    (hclosed : Closed Dependencies S.Required) (hseparate : Separate Dependencies S)
    (hT : T ⊆ S.CurrentSet) : Closed Dependencies (d.extended T S.Required) := by
  intro x hx y hxy
  rw [hd.mem_extended] at hx ⊢
  rcases hx with hx | ⟨a, ha, hxa⟩
  · exact .inl (hclosed x hx y hxy)
  · exact (hseparate a (hT ha) x hxa y hxy).imp_right fun hya => ⟨a, ha, hya⟩

theorem round_deterministic (hd : Computed Dependencies Changes d)
    (hclosed : Closed Dependencies S.Required) (hseparate : Separate Dependencies S) :
    Deterministic (d.GetTestResult (noteTest test) S.Required)
      (fun T => test (d.extended T S.Required)) (· ⊆ S.CurrentSet)
      (fun s => s.Valid test fun log => ∀ T ∈ log, Closed Dependencies T) := by
  have hnote : Deterministic (noteTest test) test (Closed Dependencies)
      fun log => ∀ T ∈ log, Closed Dependencies T :=
    ⟨fun _ _ _ _ => rfl, fun _ _ hT hlog => List.forall_mem_cons.mpr ⟨hT, hlog⟩⟩
  have hspec := fun (s : Session (List ChangeSet)) (T : ChangeSet) (hT : T ⊆ S.CurrentSet)
    (hs : s.Valid test fun log => ∀ T ∈ log, Closed Dependencies T) =>
      GetTestResult_spec hnote (closed_extended hd hclosed hseparate hT) hs
  refine ⟨fun s T hT hs => ?_, fun s T hT hs => ?_⟩
  · obtain ⟨s', hget, -⟩ := hspec s T hT hs
    rw [Impl.GetTestResult, hget]
  · obtain ⟨s', hget, hs'⟩ := hspec s T hT hs
    rwa [Impl.GetTestResult, hget]

theorem round_spec (h : Dag Dependencies Changes) (hd : Computed Dependencies Changes d)
    (hS : Valid Dependencies Changes test d S) (hseparate : Separate Dependencies S) :
    ∃ S', d.round (noteTest test) S = some S' ∧ Valid Dependencies Changes test d S' ∧
      (S'.CurrentSet = ∅ ∨ S.Required.card < S'.Required.card) := by
  obtain ⟨M, helper, hrun, hhelper, hM⟩ := DeltaAlgorithm.Run_spec
    (s := ⟨[], S.session⟩) (round_deterministic hd hS.closed hseparate)
    (fun _ hT => hT) ⟨by simp, hS.session⟩ hS.passes
  -- the dependencies of active changes are required
  have hdeps : ∀ a ∈ S.CurrentSet, ∀ y, Dep Dependencies a y → y ∈ S.Required := fun a ha y hay =>
    (hseparate a ha a .refl y hay).resolve_right (h.not_reflTransGen hay)
  have hnext : ∀ x, x ∈ M.biUnion (fun c => (d.Predecessors c).toFinset) ↔
      ∃ c ∈ M, Dep Dependencies x c := by
    simp [hd.mem_predecessors]
  refine ⟨_, by rw [Impl.round, hrun, Option.map_some],
    ⟨fun x hx y hxy => ?_, fun x hx hreq => ?_, ⟨fun x hx => ?_, ?_⟩, ?_, hhelper.2⟩, ?_⟩
  · rcases Finset.mem_union.mp hx with hx | hx
    · exact Finset.mem_union_left _ (hS.closed x hx y hxy)
    · exact Finset.mem_union_left _ (hdeps x (hM.subset hx) y hxy)
  · obtain ⟨c, hc, hxc⟩ := (hnext x).mp hx
    refine hS.disjoint c (hM.subset hc) ?_
    rcases Finset.mem_union.mp hreq with hreq | hreq
    · exact hS.closed x hreq c hxc
    · exact hdeps x (hM.subset hreq) c hxc
  · obtain ⟨c, -, hxc⟩ := (hnext x).mp hx
    exact (h.edges x c hxc).1
  · exact Finset.union_subset hS.subset.2 (hM.subset.trans hS.subset.1)
  · have hsame : d.extended (M.biUnion fun c => (d.Predecessors c).toFinset) (S.Required ∪ M) =
        d.extended M S.Required := by
      ext z
      rw [hd.mem_extended, hd.mem_extended, Finset.mem_union, or_assoc]
      refine or_congr_right ⟨?_, ?_⟩
      · rintro (hz | ⟨p, hp, hzp⟩)
        · exact ⟨z, hz, .refl⟩
        · obtain ⟨c, hc, hpc⟩ := (hnext p).mp hp
          exact ⟨c, hc, hzp.tail hpc⟩
      · rintro ⟨c, hc, hzc⟩
        obtain rfl | ⟨p, hzp, hpc⟩ := ReflTransGen.cases_tail_iff _ _ _ |>.mp hzc
        · exact .inl hc
        · exact .inr ⟨p, (hnext p).mpr ⟨c, hc, hpc⟩, hzp⟩
    rw [hsame]
    exact hM.passes
  · by_cases hempty : M = ∅
    · exact .inl (by simp [hempty])
    · obtain ⟨c, hc⟩ := Finset.nonempty_iff_ne_empty.mpr hempty
      refine .inr (Finset.card_lt_card (Finset.ssubset_iff_of_subset
        Finset.subset_union_left |>.mpr ⟨c, Finset.mem_union_right _ hc, ?_⟩))
      exact hS.disjoint c (hM.subset hc)

def Impl.Reaches (d : Impl) (test : ChangeSet → Bool) :
    State (List ChangeSet) → State (List ChangeSet) → Prop :=
  ReflTransGen fun S S' => S.CurrentSet ≠ ∅ ∧ d.round (noteTest test) S = some S'

theorem loop_spec (h : Dag Dependencies Changes) (hd : Computed Dependencies Changes d)
    (hS : Valid Dependencies Changes test d S) {fuel : Nat}
    (hfuel : Changes.card - S.Required.card + 1 < fuel)
    (hseparate : ∀ S', d.Reaches test S S' → Separate Dependencies S') :
    ∃ S', d.loop (noteTest test) fuel S = some S' ∧ Valid Dependencies Changes test d S' ∧
      S'.CurrentSet = ∅ := by
  induction fuel generalizing S with
  | zero => exact absurd hfuel (Nat.not_lt_zero _)
  | succ fuel ih =>
    rw [Impl.loop]
    split_ifs with hempty
    · exact ⟨S, rfl, hS, hempty⟩
    obtain ⟨S₁, hround, hS₁, hprogress⟩ := round_spec h hd hS (hseparate S .refl)
    rw [hround, Option.bind_some]
    rcases hprogress with hlast | hgrows
    · obtain ⟨fuel, rfl⟩ := Nat.exists_eq_succ_of_ne_zero (n := fuel) (by omega)
      exact ⟨S₁, by rw [Impl.loop, if_pos hlast], hS₁, hlast⟩
    · have hle := Finset.card_le_card hS₁.subset.2
      exact ih hS₁ (by omega) fun S' hS' => hseparate S' (.head ⟨hempty, hround⟩ hS')

theorem start_valid (h : Dag Dependencies Changes) (hd : Computed Dependencies Changes d)
    (htest : test Changes = true) : Valid Dependencies Changes test d (d.start []) := by
  have hroots : ∀ c, c ∈ (d.start ([] : List ChangeSet)).CurrentSet ↔
      c ∈ Changes ∧ ∀ y, ¬ Dep Dependencies c y := fun c => by
    rw [Impl.start, mem_toFinset, hd.mem_roots]
  have hall : d.extended (d.start ([] : List ChangeSet)).CurrentSet ∅ = Changes := by
    ext z
    rw [hd.mem_extended]
    constructor
    · rintro (hz | ⟨a, ha, hza⟩)
      · exact absurd hz (Finset.notMem_empty z)
      · obtain heq | ⟨y, hzy, -⟩ := ReflTransGen.cases_head hza
        · exact heq ▸ ((hroots a).mp ha).1
        · exact (h.edges z y hzy).1
    · intro hz
      obtain ⟨r, hzr, hroot⟩ := h.exists_root z
      refine .inr ⟨r, (hroots r).mpr ⟨?_, hroot⟩, hzr⟩
      obtain rfl | ⟨p, -, hp⟩ := ReflTransGen.cases_tail_iff _ _ _ |>.mp hzr
      · exact hz
      · exact (h.edges p r hp).2
  refine ⟨fun x hx => absurd hx (Finset.notMem_empty x), fun x _ => Finset.notMem_empty x,
    ⟨fun x hx => ((hroots x).mp hx).1, Finset.empty_subset _⟩, (congrArg test hall).trans htest,
    by simp [Impl.start], by simp [Impl.start]⟩

/-- In a run whose active changes are separate, the sets that are tested and the result are closed
under dependencies, the run ends, and the test passes on the result. -/
theorem Run_closed (h : Dag Dependencies Changes) (htest : test Changes = true)
    (hseparate : ∀ fuel d S, new Dependencies fuel Changes = some d →
      d.Reaches test (d.start []) S → Separate Dependencies S) :
    ∃ n, ∀ fuel ≥ n, ∃ Res log, Run Dependencies fuel (noteTest test) [] Changes = some (Res, log) ∧
      (∀ T ∈ log, Closed Dependencies T) ∧ Closed Dependencies Res ∧ test Res = true := by
  obtain ⟨n, d, hnew⟩ := new_ends h
  refine ⟨n + Changes.card + 2, fun fuel hfuel => ?_⟩
  have hnew := hnew fuel (by omega)
  have hd := new_computed h hnew
  obtain ⟨S, hloop, hS, hempty⟩ := loop_spec h hd (start_valid h hd htest)
    (show Changes.card - 0 + 1 < fuel by omega) fun S => hseparate fuel d S hnew
  refine ⟨S.Required, S.session.client, ?_, hS.session.2, hS.closed, ?_⟩
  · rw [Run, hnew, Option.bind_some, hloop, Option.map_some]
  · have hpasses := hS.passes
    rwa [hempty, show d.extended ∅ S.Required = S.Required by simp [Impl.extended]] at hpasses

theorem separate_of_unique (h : Dag Dependencies Changes)
    (hunique : ∀ x y z, Dep Dependencies x y → Dep Dependencies x z → y = z) {fuel : Nat}
    (hnew : new Dependencies fuel Changes = some d) (hS : d.Reaches test (d.start []) S) :
    Separate Dependencies S := by
  have hd := new_computed h hnew
  have hrequired : ∀ a ∈ S.CurrentSet, ∀ y, Dep Dependencies a y → y ∈ S.Required := by
    cases hS with
    | refl =>
      intro a ha y hay
      rw [Impl.start, mem_toFinset, hd.mem_roots] at ha
      exact absurd hay (ha.2 y)
    | @tail S₀ _ _ hround =>
      obtain ⟨⟨M, helper⟩, -, rfl⟩ := Option.map_eq_some_iff.mp hround.2
      intro a ha y hay
      obtain ⟨c, hc, hac⟩ := Finset.mem_biUnion.mp ha
      rw [mem_toFinset, hd.mem_predecessors] at hac
      exact hunique a c y hac hay ▸ Finset.mem_union_right _ hc
  intro a ha x hxa y hxy
  obtain rfl | ⟨z, hxz, hza⟩ := ReflTransGen.cases_head hxa
  · exact .inl (hrequired x ha y hxy)
  · exact .inr (hunique x z y hxz hxy ▸ hza)

theorem dag_of_lt (h : ∀ x y, Dep Dependencies x y → x ∈ Changes ∧ y ∈ Changes ∧ y < x) :
    Dag Dependencies Changes := by
  refine ⟨fun x y hxy => ⟨(h x y hxy).1, (h x y hxy).2.1⟩, fun x hx => ?_⟩
  have hlt : ∀ {x y}, TransGen (Dep Dependencies) x y → y < x := by
    intro x y hxy
    induction hxy with
    | single hxy => exact (h _ _ hxy).2.2
    | tail _ hyz ih => exact (h _ _ hyz).2.2.trans ih
  exact (hlt hx).ne rfl

/-- A change that depends on another one. -/
theorem Run_closed_pair :
    ∃ n, ∀ fuel ≥ n, ∃ Res log,
      Run [(1, 0)] fuel (noteTest fun S => decide (0 ∈ S)) [] {0, 1} = some (Res, log) ∧
      (∀ T ∈ log, Closed [(1, 0)] T) ∧ Closed [(1, 0)] Res ∧ decide (0 ∈ Res) = true := by
  have h : Dag [(1, 0)] {0, 1} := dag_of_lt (by simp [Dep])
  exact Run_closed h (by decide) fun fuel d S hnew hS =>
    separate_of_unique h (fun x y z hy hz => by simp [Dep] at hy hz; omega) hnew hS

/-- A change that depends on two others is tested with one of them. -/
theorem Run_not_closed :
    ¬ ∀ (Dependencies : List Edge) (Changes : ChangeSet) (test : ChangeSet → Bool),
      Dag Dependencies Changes → test Changes = true → ∀ fuel Res log,
        Run Dependencies fuel (noteTest test) [] Changes = some (Res, log) →
        ∀ T ∈ log, Closed Dependencies T := by
  intro hall
  have hrun : (Run [(2, 0), (2, 1)] 9 (noteTest fun S => decide (S = {0, 1, 2})) [] {0, 1, 2}).map
      (fun r => decide ({0, 2} ∈ r.2)) = some true := by decide +kernel
  obtain ⟨⟨Res, log⟩, hres, hmem⟩ := Option.map_eq_some_iff.mp hrun
  have hclosed := hall _ _ _
    (dag_of_lt fun x y hxy => by simp [Dep] at hxy ⊢; omega) (by decide) 9 Res log hres {0, 2}
    (of_decide_eq_true hmem)
  exact absurd (hclosed 2 (by decide) 1 (by simp [Dep])) (by decide)

end Zapcc.DAGDeltaAlgorithm
