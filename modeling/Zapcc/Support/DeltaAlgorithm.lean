import Mathlib.Algebra.Order.Group.Nat
import Mathlib.Order.Lattice.Nat

/-!
# Delta debugging

A set of changes on which a test passes is minimized by tests of the parts of a partition and of
their complements. The partition is refined when no test passes (`Parts.flatMap_split`). The main
result is `Run_oneMinimal`.
-/

namespace Zapcc.DeltaAlgorithm

open Finset

abbrev ChangeSet := Finset Nat

variable {σ : Type*}

/-! ## The code -/

/-- The results of failed tests, and the state of the client. -/
structure Session (σ : Type*) where
  FailedTestsCache : List ChangeSet
  client : σ

/-- A test of the client, which may change its state. -/
abbrev Test (σ : Type*) := σ → ChangeSet → Bool × σ

variable (ExecuteOneTest : Test σ)

def GetTestResult (s : Session σ) (Changes : ChangeSet) : Bool × Session σ :=
  if Changes ∈ s.FailedTestsCache then (false, s)
  else
    match ExecuteOneTest s.client Changes with
    | (true, client) => (true, { s with client := client })
    | (false, client) => (false, ⟨Changes :: s.FailedTestsCache, client⟩)

/-- The changes of a set in their order. -/
def elements (S : ChangeSet) : List Nat := (List.range (S.sup id + 1)).filter (· ∈ S)

def Split (S : ChangeSet) : List ChangeSet :=
  let LHS := ((elements S).take (S.card / 2)).toFinset
  let RHS := ((elements S).drop (S.card / 2)).toFinset
  (if LHS = ∅ then [] else [LHS]) ++ if RHS = ∅ then [] else [RHS]

/-- `Search` behind the sets `Before`. The result has the arguments of the call of `Delta` that it
returns. -/
def Search (s : Session σ) (Changes : ChangeSet) (Before : List ChangeSet) :
    List ChangeSet → Option (ChangeSet × List ChangeSet) × Session σ
  | [] => (none, s)
  | S :: After =>
    match GetTestResult ExecuteOneTest s S with
    | (true, s) => (some (S, Split S), s)
    | (false, s) =>
      if 2 < (Before ++ S :: After).length then
        match GetTestResult ExecuteOneTest s (Changes \ S) with
        | (true, s) => (some (Changes \ S, Before ++ After), s)
        | (false, s) => Search s Changes (Before ++ [S]) After
      else Search s Changes (Before ++ [S]) After

def Delta : Nat → Session σ → ChangeSet → List ChangeSet → Option (ChangeSet × Session σ)
  | 0, _, _, _ => none
  | fuel + 1, s, Changes, Sets =>
    if Sets.length ≤ 1 then some (Changes, s)
    else
      match Search ExecuteOneTest s Changes [] Sets with
      | (some (Res, Sets), s) => Delta fuel s Res Sets
      | (none, s) =>
        if (Sets.flatMap Split).length = Sets.length then some (Changes, s)
        else Delta fuel s Changes (Sets.flatMap Split)

def deltaFuel (Changes : ChangeSet) : Nat := Changes.card * Changes.card + Changes.card + 1

def Run (s : Session σ) (Changes : ChangeSet) : Option (ChangeSet × Session σ) :=
  match GetTestResult ExecuteOneTest s ∅ with
  | (true, s) => some (∅, s)
  | (false, s) => Delta ExecuteOneTest (deltaFuel Changes) s Changes (Split Changes)

/-! ## Partitions -/

variable {Changes C S : ChangeSet} {Sets Before After : List ChangeSet} {x : Nat}

/-- A partition into sets that are not empty, with one set for one change only. -/
structure Parts (Changes : ChangeSet) (Sets : List ChangeSet) : Prop where
  mem_iff : ∀ x, x ∈ Changes ↔ ∃ S ∈ Sets, x ∈ S
  nonempty : ∀ S ∈ Sets, S ≠ ∅
  disjoint : Sets.Pairwise Disjoint

theorem Parts.subset (h : Parts Changes Sets) (hS : S ∈ Sets) : S ⊆ Changes :=
  fun x hx => (h.mem_iff x).mpr ⟨S, hS, hx⟩

theorem length_le_card (hsubset : ∀ S ∈ Sets, S ⊆ C) (hnonempty : ∀ S ∈ Sets, S ≠ ∅)
    (hdisjoint : Sets.Pairwise Disjoint) : Sets.length ≤ C.card := by
  induction Sets generalizing C with
  | nil => exact Nat.zero_le _
  | cons S Sets ih =>
    obtain ⟨hS, hdisjoint⟩ := List.pairwise_cons.mp hdisjoint
    have hrest := ih (C := C \ S)
      (fun T hT => Finset.subset_sdiff.mpr ⟨hsubset T (List.mem_cons_of_mem S hT), (hS T hT).symm⟩)
      (fun T hT => hnonempty T (List.mem_cons_of_mem S hT)) hdisjoint
    have hSC := hsubset S List.mem_cons_self
    have hcard := card_sdiff_add_card_eq_card hSC
    have hpos := Finset.card_pos.mpr
      (Finset.nonempty_iff_ne_empty.mpr (hnonempty S List.mem_cons_self))
    rw [List.length_cons]
    omega

theorem Parts.length_le (h : Parts Changes Sets) : Sets.length ≤ Changes.card :=
  length_le_card (fun _ => h.subset) h.nonempty h.disjoint

theorem mem_elements : x ∈ elements S ↔ x ∈ S := by
  simp only [elements, List.mem_filter, List.mem_range, decide_eq_true_eq, and_iff_right_iff_imp]
  exact fun hx => Nat.lt_succ_of_le (le_sup (f := id) hx)

theorem nodup_elements (S : ChangeSet) : (elements S).Nodup := List.nodup_range.filter _

theorem length_elements (S : ChangeSet) : (elements S).length = S.card := by
  rw [← List.toFinset_card_of_nodup (nodup_elements S)]
  exact congrArg Finset.card (Finset.ext fun x => by rw [List.mem_toFinset, mem_elements])

theorem parts_split (S : ChangeSet) : Parts S (Split S) := by
  have hunion : ∀ x, x ∈ S ↔ x ∈ (elements S).take (S.card / 2) ∨
      x ∈ (elements S).drop (S.card / 2) := by
    intro x
    rw [← List.mem_append, List.take_append_drop, mem_elements]
  have hdisjoint : ((elements S).take (S.card / 2)).Disjoint
      ((elements S).drop (S.card / 2)) :=
    List.disjoint_take_drop (nodup_elements S) (le_refl _)
  unfold Split
  generalize (elements S).take (S.card / 2) = LHS at *
  generalize (elements S).drop (S.card / 2) = RHS at *
  dsimp only
  refine ⟨fun x => ?_, fun T hT => ?_, ?_⟩
  · split_ifs with hL hR hR <;> simp_all
  · rcases List.mem_append.mp hT with hT | hT <;> split_ifs at hT with hempty <;> simp_all
  · split_ifs <;> simp [List.disjoint_toFinset_iff_disjoint.mpr hdisjoint]

theorem length_split (hS : S ≠ ∅) :
    1 ≤ (Split S).length ∧ ((Split S).length ≤ 1 → S.card = 1) := by
  have hpos := Finset.card_pos.mpr (Finset.nonempty_iff_ne_empty.mpr hS)
  have hL : 2 ≤ S.card → ((elements S).take (S.card / 2)).toFinset ≠ ∅ := by
    intro hcard heq
    have hlength := congrArg List.length (List.toFinset_eq_empty_iff _ |>.mp heq)
    rw [List.length_take, length_elements, List.length_nil] at hlength
    omega
  have hR : ((elements S).drop (S.card / 2)).toFinset ≠ ∅ := by
    intro heq
    have hlength := congrArg List.length (List.toFinset_eq_empty_iff _ |>.mp heq)
    rw [List.length_drop, length_elements, List.length_nil] at hlength
    omega
  unfold Split
  dsimp only
  rw [if_neg hR, List.length_append]
  refine ⟨Nat.le_add_left _ _, fun hlength => ?_⟩
  by_contra hcard
  rw [if_neg (hL (by omega))] at hlength
  simp at hlength

theorem Parts.flatMap_split (h : Parts Changes Sets) : Parts Changes (Sets.flatMap Split) := by
  refine ⟨fun x => ?_, fun T hT => ?_, ?_⟩
  · rw [h.mem_iff]
    constructor
    · rintro ⟨S, hS, hx⟩
      obtain ⟨T, hT, hxT⟩ := ((parts_split S).mem_iff x).mp hx
      exact ⟨T, List.mem_flatMap.mpr ⟨S, hS, hT⟩, hxT⟩
    · rintro ⟨T, hT, hxT⟩
      obtain ⟨S, hS, hT⟩ := List.mem_flatMap.mp hT
      exact ⟨S, hS, (parts_split S).subset hT hxT⟩
  · obtain ⟨S, _, hT⟩ := List.mem_flatMap.mp hT
    exact (parts_split S).nonempty T hT
  · rw [List.pairwise_flatMap]
    refine ⟨fun S _ => (parts_split S).disjoint, h.disjoint.imp fun {S T} hST S' hS' T' hT' => ?_⟩
    exact hST.mono ((parts_split S).subset hS') ((parts_split T).subset hT')

theorem length_flatMap_split (h : ∀ S ∈ Sets, S ≠ ∅) :
    Sets.length ≤ (Sets.flatMap Split).length ∧
      ((Sets.flatMap Split).length = Sets.length → ∀ S ∈ Sets, S.card = 1) := by
  induction Sets with
  | nil => exact ⟨le_rfl, fun _ S hS => absurd hS List.not_mem_nil⟩
  | cons S Sets ih =>
    obtain ⟨hle, hcard⟩ := ih fun T hT => h T (List.mem_cons_of_mem S hT)
    obtain ⟨hpos, hone⟩ := length_split (h S List.mem_cons_self)
    rw [List.flatMap_cons, List.length_append, List.length_cons]
    refine ⟨by omega, fun heq T hT => ?_⟩
    rcases List.mem_cons.mp hT with rfl | hT
    · exact hone (by omega)
    · exact hcard (by omega) T hT

theorem Parts.complement (h : Parts Changes (Before ++ S :: After)) :
    Parts (Changes \ S) (Before ++ After) := by
  have hperm : (Before ++ S :: After).Perm (S :: (Before ++ After)) := List.perm_middle
  obtain ⟨hS, hdisjoint⟩ := List.pairwise_cons.mp
    ((hperm.pairwise_iff fun h => Disjoint.symm h).mp h.disjoint)
  refine ⟨fun x => ?_, fun T hT => h.nonempty T (hperm.mem_iff.mpr (List.mem_cons_of_mem S hT)),
    hdisjoint⟩
  rw [mem_sdiff, h.mem_iff]
  constructor
  · rintro ⟨⟨T, hT, hxT⟩, hxS⟩
    rcases List.mem_cons.mp (hperm.mem_iff.mp hT) with rfl | hT
    · exact absurd hxT hxS
    · exact ⟨T, hT, hxT⟩
  · rintro ⟨T, hT, hxT⟩
    exact ⟨⟨T, hperm.mem_iff.mpr (List.mem_cons_of_mem S hT), hxT⟩,
      Finset.disjoint_right.mp (hS T hT) hxT⟩

/-! ## Tests -/

/-- No removal of one change keeps the test passing. -/
def OneMinimal (test : ChangeSet → Bool) (Changes : ChangeSet) : Prop :=
  ∀ x ∈ Changes, test (Changes.erase x) = false

/-- The result of a test depends on the changes alone, as long as the state of the client has a
property that the tests keep. -/
structure Deterministic (test : ChangeSet → Bool) (Allowed : ChangeSet → Prop)
    (Keeps : σ → Prop) : Prop where
  result : ∀ s S, Allowed S → Keeps s → (ExecuteOneTest s S).1 = test S
  keeps : ∀ s S, Allowed S → Keeps s → Keeps (ExecuteOneTest s S).2

/-- The cache has failed tests only. -/
def Session.Valid (test : ChangeSet → Bool) (Keeps : σ → Prop) (s : Session σ) : Prop :=
  (∀ S ∈ s.FailedTestsCache, test S = false) ∧ Keeps s.client

variable {ExecuteOneTest} {test : ChangeSet → Bool} {Allowed : ChangeSet → Prop}
  {Keeps : σ → Prop} {s : Session σ}

theorem GetTestResult_spec (hd : Deterministic ExecuteOneTest test Allowed Keeps)
    (hS : Allowed S) (hs : s.Valid test Keeps) :
    ∃ s', GetTestResult ExecuteOneTest s S = (test S, s') ∧ s'.Valid test Keeps := by
  unfold GetTestResult
  split_ifs with hcache
  · exact ⟨s, by rw [hs.1 S hcache], hs⟩
  · have hresult := hd.result s.client S hS hs.2
    have hkeeps := hd.keeps s.client S hS hs.2
    split <;> rename_i client heq <;> rw [heq] at hresult hkeeps
    · exact ⟨{ s with client := client }, by rw [← hresult], hs.1, hkeeps⟩
    · refine ⟨_, by rw [← hresult], fun T hT => ?_, hkeeps⟩
      rcases List.mem_cons.mp hT with rfl | hT
      · exact hresult.symm
      · exact hs.1 T hT

/-- No test of a set or of its complement passes. -/
def Stuck (test : ChangeSet → Bool) (Changes : ChangeSet) (n : Nat) (S : ChangeSet) : Prop :=
  test S = false ∧ (2 < n → test (Changes \ S) = false)

/-- A smaller set on which the test passes. -/
structure Reduced (test : ChangeSet → Bool) (Changes C : ChangeSet) (Sets : List ChangeSet) :
    Prop where
  parts : Parts C Sets
  ssubset : C ⊂ Changes
  passes : test C = true
  single : Sets.length ≤ 1 → C.card ≤ 1

theorem Search_spec (hd : Deterministic ExecuteOneTest test Allowed Keeps)
    (hallowed : ∀ S, S ⊆ Changes → Allowed S) (hs : s.Valid test Keeps)
    (hparts : Parts Changes (Before ++ After)) (hlength : 2 ≤ (Before ++ After).length) :
    ∃ r s', Search ExecuteOneTest s Changes Before After = (r, s') ∧ s'.Valid test Keeps ∧
      (r = none → ∀ S ∈ After, Stuck test Changes (Before ++ After).length S) ∧
      ∀ C Sets, r = some (C, Sets) → Reduced test Changes C Sets := by
  induction After generalizing Before s with
  | nil => exact ⟨none, s, rfl, hs, by simp, by simp⟩
  | cons S After ih =>
    have hSmem : S ∈ Before ++ S :: After := by simp
    have hSsub := hparts.subset hSmem
    have hSne := hparts.nonempty S hSmem
    have happend : Before ++ [S] ++ After = Before ++ S :: After := by simp
    have hcomplement := hparts.complement
    have hcard := hcomplement.length_le
    have hadd := card_sdiff_add_card_eq_card hSsub
    have hpos := Finset.card_pos.mpr (Finset.nonempty_iff_ne_empty.mpr hSne)
    rw [List.length_append, List.length_cons] at hlength
    rw [List.length_append] at hcard
    obtain ⟨s₁, hget, hs₁⟩ := GetTestResult_spec hd (hallowed S hSsub) hs
    rw [Search, hget]
    cases hS : test S with
    | true =>
      refine ⟨_, s₁, rfl, hs₁, by simp, fun C Sets heq => ?_⟩
      obtain ⟨rfl, rfl⟩ := Prod.mk.inj (Option.some.inj heq)
      refine ⟨parts_split S, hSsub.ssubset_of_ne ?_, hS, fun h => ((length_split hSne).2 h).le⟩
      rintro rfl
      omega
    | false =>
      dsimp only
      split_ifs with hthree
      · obtain ⟨s₂, hget₂, hs₂⟩ :=
          GetTestResult_spec hd (hallowed (Changes \ S) sdiff_subset) hs₁
        rw [hget₂]
        cases hC : test (Changes \ S) with
        | true =>
          refine ⟨_, s₂, rfl, hs₂, by simp, fun C Sets heq => ?_⟩
          obtain ⟨rfl, rfl⟩ := Prod.mk.inj (Option.some.inj heq)
          refine ⟨hcomplement, Finset.sdiff_subset.ssubset_of_ne ?_, hC, fun h => ?_⟩
          · intro heq'
            rw [heq'] at hadd
            omega
          · rw [List.length_append] at h hthree
            rw [List.length_cons] at hthree
            omega
        | false =>
          obtain ⟨r, s', hsearch, hs', hnone, hsome⟩ :=
            ih hs₂ (show Parts Changes (Before ++ [S] ++ After) by rwa [happend])
              (by rw [happend]; omega)
          refine ⟨r, s', hsearch, hs', fun hr T hT => ?_, hsome⟩
          rcases List.mem_cons.mp hT with rfl | hT
          · exact ⟨hS, fun _ => hC⟩
          · exact happend ▸ hnone hr T hT
      · obtain ⟨r, s', hsearch, hs', hnone, hsome⟩ :=
          ih hs₁ (show Parts Changes (Before ++ [S] ++ After) by rwa [happend])
            (by rw [happend, List.length_append, List.length_cons]; omega)
        refine ⟨r, s', hsearch, hs', fun hr T hT => ?_, hsome⟩
        rcases List.mem_cons.mp hT with rfl | hT
        · exact ⟨hS, fun h => absurd h hthree⟩
        · exact happend ▸ hnone hr T hT

theorem oneMinimal_of_stuck (hparts : Parts Changes Sets) (hlength : 2 ≤ Sets.length)
    (hcard : ∀ S ∈ Sets, S.card = 1) (hstuck : ∀ S ∈ Sets, Stuck test Changes Sets.length S) :
    OneMinimal test Changes := by
  intro x hx
  obtain ⟨S, hS, hxS⟩ := (hparts.mem_iff x).mp hx
  obtain ⟨y, rfl⟩ := Finset.card_eq_one.mp (hcard S hS)
  obtain rfl := Finset.mem_singleton.mp hxS
  rw [← sdiff_singleton_eq_erase]
  by_cases hthree : 2 < Sets.length
  · exact (hstuck _ hS).2 hthree
  · obtain ⟨Before, After, rfl⟩ := List.append_of_mem hS
    have hcomplement := hparts.complement
    rw [List.length_append, List.length_cons] at hlength hthree
    obtain ⟨T, hT⟩ : ∃ T, Before ++ After = [T] :=
      List.length_eq_one_iff.mp (by rw [List.length_append]; omega)
    have heq : Changes \ {x} = T := by
      ext y
      rw [hcomplement.mem_iff, hT]
      simp
    rw [heq]
    have hmem : T ∈ Before ++ After := by rw [hT]; exact List.mem_cons_self
    refine (hstuck T ?_).1
    rw [List.mem_append] at hmem ⊢
    exact hmem.imp_right (List.mem_cons_of_mem _)

structure Minimized (test : ChangeSet → Bool) (Changes Res : ChangeSet) : Prop where
  subset : Res ⊆ Changes
  passes : test Res = true
  oneMinimal : OneMinimal test Res

theorem oneMinimal_of_card_le_one (hempty : test ∅ = false) (hcard : Changes.card ≤ 1) :
    OneMinimal test Changes := by
  intro x hx
  rw [card_le_one_iff_subset_singleton] at hcard
  obtain ⟨y, hy⟩ := hcard
  obtain rfl := Finset.mem_singleton.mp (hy hx)
  have heq : Changes = {x} := hy.antisymm (Finset.singleton_subset_iff.mpr hx)
  rwa [(erase_eq_empty_iff Changes x).mpr (.inr heq)]

theorem Delta_spec (hd : Deterministic ExecuteOneTest test Allowed Keeps)
    (hallowed : ∀ S, S ⊆ Changes → Allowed S) (hempty : test ∅ = false) {fuel : Nat}
    (hfuel : Changes.card * Changes.card + Changes.card - Sets.length < fuel)
    (hs : s.Valid test Keeps) (hparts : Parts Changes Sets) (hpasses : test Changes = true)
    (hsingle : Sets.length ≤ 1 → Changes.card ≤ 1) :
    ∃ Res s', Delta ExecuteOneTest fuel s Changes Sets = some (Res, s') ∧ s'.Valid test Keeps ∧
      Minimized test Changes Res := by
  induction fuel generalizing Changes Sets s with
  | zero => exact absurd hfuel (Nat.not_lt_zero _)
  | succ fuel ih =>
    rw [Delta]
    by_cases hone : Sets.length ≤ 1
    · rw [if_pos hone]
      exact ⟨Changes, s, rfl, hs, Finset.Subset.refl _, hpasses,
        oneMinimal_of_card_le_one hempty (hsingle hone)⟩
    rw [if_neg hone]
    obtain ⟨r, s₁, hsearch, hs₁, hnone, hsome⟩ :=
      Search_spec hd hallowed hs (show Parts Changes ([] ++ Sets) from hparts)
        (by rw [List.nil_append]; omega)
    rw [hsearch]
    have hle := hparts.length_le
    cases r with
    | some r =>
      obtain ⟨C, Sets'⟩ := r
      have hreduced := hsome C Sets' rfl
      have hsubset := hreduced.ssubset.subset
      have hcard := card_lt_card hreduced.ssubset
      have hmeasure : C.card * C.card + C.card - Sets'.length < fuel := by
        have hmul : (C.card + 1) * (C.card + 1) ≤ Changes.card * Changes.card :=
          Nat.mul_le_mul hcard hcard
        rw [Nat.add_mul, Nat.mul_add] at hmul
        omega
      obtain ⟨Res, s', hdelta, hs', hres⟩ :=
        ih (fun S hS => hallowed S (hS.trans hsubset)) hmeasure hs₁ hreduced.parts
          hreduced.passes hreduced.single
      exact ⟨Res, s', hdelta, hs', hres.subset.trans hsubset, hres.passes, hres.oneMinimal⟩
    | none =>
      obtain ⟨hlengths, hcards⟩ := length_flatMap_split hparts.nonempty
      have hfiner := hparts.flatMap_split
      split_ifs with hsame
      · exact ⟨Changes, s₁, rfl, hs₁, Finset.Subset.refl _, hpasses,
          oneMinimal_of_stuck hparts (by omega) (hcards hsame) (hnone rfl)⟩
      · have hlong := hfiner.length_le
        exact ih hallowed (by omega) hs₁ hfiner hpasses fun h => by omega

theorem Run_spec (hd : Deterministic ExecuteOneTest test Allowed Keeps)
    (hallowed : ∀ S, S ⊆ Changes → Allowed S) (hs : s.Valid test Keeps)
    (hpasses : test Changes = true) :
    ∃ Res s', Run ExecuteOneTest s Changes = some (Res, s') ∧ s'.Valid test Keeps ∧
      Minimized test Changes Res := by
  obtain ⟨s₁, hget, hs₁⟩ := GetTestResult_spec hd (hallowed ∅ (empty_subset _)) hs
  rw [Run, hget]
  cases hempty : test ∅ with
  | true => exact ⟨∅, s₁, rfl, hs₁, empty_subset _, hempty, by simp [OneMinimal]⟩
  | false =>
    have hne : Changes ≠ ∅ := by
      rintro rfl
      exact absurd (hpasses.symm.trans hempty) (by decide)
    exact Delta_spec hd hallowed hempty (by unfold deltaFuel; omega) hs₁ (parts_split Changes)
      hpasses fun h => ((length_split hne).2 h).le

/-- For every deterministic test that passes on the changes, a run returns a subset on which the
test passes, and no longer does without any single change. -/
theorem Run_oneMinimal (hdet : ∀ s S, (ExecuteOneTest s S).1 = test S) (client : σ)
    (hpasses : test Changes = true) :
    ∃ Res s', Run ExecuteOneTest ⟨[], client⟩ Changes = some (Res, s') ∧ Res ⊆ Changes ∧
      test Res = true ∧ ∀ x ∈ Res, test (Res.erase x) = false := by
  have hd : Deterministic ExecuteOneTest test (fun _ => True) fun _ => True :=
    ⟨fun s S _ _ => hdet s S, fun _ _ _ _ => trivial⟩
  obtain ⟨Res, s', hrun, -, hres⟩ :=
    Run_spec (s := ⟨[], client⟩) hd (fun _ _ => trivial) ⟨by simp, trivial⟩ hpasses
  exact ⟨Res, s', hrun, hres.subset, hres.passes, hres.oneMinimal⟩

/-- A test that needs two of three changes. -/
theorem Run_oneMinimal_needs_two :
    ∃ Res s', Run (fun n S => (decide (1 ∈ S ∧ 3 ∈ S), n + 1)) ⟨[], 0⟩ {1, 2, 3} = some (Res, s') ∧
      Res ⊆ {1, 2, 3} ∧ decide (1 ∈ Res ∧ 3 ∈ Res) = true ∧
      ∀ x ∈ Res, decide (1 ∈ Res.erase x ∧ 3 ∈ Res.erase x) = false := by
  refine Run_oneMinimal (fun _ _ => ?_) 0 ?_
  · exact rfl
  · exact decide_eq_true (by decide)

end Zapcc.DeltaAlgorithm
