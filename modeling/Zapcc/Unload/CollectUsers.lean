import Zapcc.Unload.DependencyWalk

/-!
# What is unloaded with some files

`Unloads` is what has to be unloaded: the files, the declarations in them, and the users of both.
`collectUsersOf` marks the users of a node, `collectFileEntries` walks the growing list of files,
and `removeUser` takes what was collected out of the map. `collectUsers_closed` is about every map
that `update` and `collectUsers` can build.
-/

namespace Zapcc.Unload

open Traversal List Function

variable {Node : Type*}

/-- What users refer to is never changed: what a walk reports is fixed. -/
def DependencyGraph.Fixed (g : DependencyGraph Node) : Prop :=
  ∀ dependee replacement n, dependee ∈ g.dependees n → g.wasReplaced dependee replacement n = false

namespace DependencyMap

def UnloadedUsers (g : DependencyGraph Node) (dm : DependencyMap Node) (d : Node) : Set Node :=
  {n | dm.Uses d n ∧ ¬g.Recanon d n}

inductive Unloads (g : DependencyGraph Node) (dm : DependencyMap Node) : Node → Prop where
  | file {FE : Node} : FE ∈ dm.UD.users → Unloads g dm FE
  | decl {FE D : Node} : Unloads g dm FE → g.kind FE = .fileEntry →
      D ∈ dm.FDMapping.fileDecls FE → Unloads g dm D
  | user {d n : Node} : Unloads g dm d → n ∈ dm.UnloadedUsers g d → Unloads g dm n

/-- What holds while users are collected, when `dm` was the map before. -/
structure Collecting [DecidableEq Node] (dm dm' : DependencyMap Node) : Prop where
  visited : dm'.visited = dm.visited
  current : dm'.currentDependent = dm.currentDependent
  FDMapping : dm'.FDMapping = dm.FDMapping
  dependents : ∀ d, dm'.dependents d =
    if d ∈ dm'.visitedUsers then none else dm.dependents d
  users : ∀ n, n ∈ dm'.UD.users ↔ n ∈ dm.UD.users ∨ n ∈ dm'.visitedUsers
  nodup : dm'.UD.users.Nodup

/-- What a step of collecting does, when `dm` was the map before. -/
structure Collects (g : DependencyGraph Node) (dm s s' : DependencyMap Node) : Prop where
  follows : Extends (dm.UnloadedUsers g) ↑s.visitedUsers ↑s'.visitedUsers
  before : s.UD.users <+: s'.UD.users

namespace Collects

variable {g : DependencyGraph Node} {dm s s' s'' : DependencyMap Node}

theorem refl (g : DependencyGraph Node) (dm s : DependencyMap Node) : Collects g dm s s :=
  ⟨.refl _ _, prefix_rfl⟩

theorem trans (h : Collects g dm s s') (h' : Collects g dm s' s'') : Collects g dm s s'' :=
  ⟨h.follows.trans h'.follows, h.before.trans h'.before⟩

theorem visitedUsers (h : Collects g dm s s') : s.visitedUsers ⊆ s'.visitedUsers :=
  Finset.coe_subset.mp h.follows.subset

end Collects

variable [DecidableEq Node] {g : DependencyGraph Node} {dm s : DependencyMap Node}
  {within : Set Node}

theorem collectDependent_collects
    {collect : DependencyMap Node → Node → Option (DependencyMap Node)} {DT n : Node}
    {bound : Nat} (hfixed : g.Fixed) (hdm : Consistent g ∅ dm)
    (hcollect : ∀ s n, Collecting dm s → n ∈ within → ↑s.visitedUsers ⊆ within →
      unseen g.nodes s.visitedUsers < bound →
      ∃ s', collect s n = some s' ∧ Collecting dm s' ∧ Collects g dm s s' ∧
        n ∈ s'.visitedUsers ∧ ↑s'.visitedUsers ⊆ within)
    (hwithin : dm.UnloadedUsers g DT ⊆ within) (hn : dm.Uses DT n) {replacement : Option Node}
    (hkind : g.kind DT ≠ .decl → replacement = none) (hs : Collecting dm s)
    (hvisited : ↑s.visitedUsers ⊆ within) (hbound : unseen g.nodes s.visitedUsers < bound) :
    ∃ s' replacement', collectDependent g collect DT (s, replacement) n = some (s', replacement') ∧
      (g.kind DT ≠ .decl → replacement' = none) ∧ Collecting dm s' ∧ Collects g dm s s' ∧
      (¬g.Recanon DT n → n ∈ s'.visitedUsers) ∧ ↑s'.visitedUsers ⊆ within := by
  have hnext : g.kind DT ≠ .decl → s.nextReplacement g DT replacement = none := by
    intro hdecl
    rw [hkind hdecl]
    rfl
  -- the user is unloaded with its own users
  have hrun : ∀ next, s.nextReplacement g DT replacement = next → n ∈ within →
      ∃ s' replacement', ((collect s n).map fun s' => (s', next)) = some (s', replacement') ∧
      (g.kind DT ≠ .decl → replacement' = none) ∧ Collecting dm s' ∧ Collects g dm s s' ∧
      (¬g.Recanon DT n → n ∈ s'.visitedUsers) ∧ ↑s'.visitedUsers ⊆ within := by
    intro next hreplacement hmem
    obtain ⟨s', hs', hcollecting, hcollects, hnvisited, hwithin'⟩ :=
      hcollect s n hs hmem hvisited hbound
    refine ⟨s', next, ?_, fun hdecl => ?_, hcollecting, hcollects, fun _ => hnvisited, hwithin'⟩
    · rw [hs']
      rfl
    · rw [← hreplacement, hnext hdecl]
  unfold collectDependent
  dsimp only
  cases hreplacement : s.nextReplacement g DT replacement with
  | some D =>
    have hdecl : g.kind DT = .decl := by
      by_contra hdecl
      rw [hnext hdecl] at hreplacement
      cases hreplacement
    have hrecanon : ¬g.Recanon DT n := by
      intro hrecanon
      rw [hrecanon.1] at hdecl
      cases hdecl
    dsimp only
    rw [if_neg (by rw [hfixed DT D n (hdm.reported DT n hn)]; exact Bool.false_ne_true)]
    exact hrun _ hreplacement (hwithin ⟨hn, hrecanon⟩)
  | none =>
    dsimp only
    split
    · next hcond =>
        refine ⟨_, none, rfl, fun _ => rfl, ?_, ⟨.refl _ _, prefix_rfl⟩,
          fun hrecanon => ?_, hvisited⟩
        · exact { hs with }
        · exact absurd ⟨hcond.1, hcond.2.1, hcond.2.2.1, hcond.2.2.2.2⟩ hrecanon
    · next hcond =>
        refine hrun _ hreplacement ?_
        by_cases hrecanon : g.Recanon DT n
        · have hmem : n ∈ s.UD.users := by
            by_contra hnot
            exact hcond ⟨hrecanon.1, hrecanon.2.1, hrecanon.2.2.1, hnot, hrecanon.2.2.2⟩
          rcases (hs.users n).mp hmem with hfile | hseen
          · have hkindFile := hdm.files n hfile
            rw [hrecanon.2.1] at hkindFile
            cases hkindFile
          · exact hvisited hseen
        · exact hwithin ⟨hn, hrecanon⟩

theorem collectDependents_collects
    {collect : DependencyMap Node → Node → Option (DependencyMap Node)} {DT : Node}
    {S : Finset Node} {bound : Nat} (hfixed : g.Fixed) (hdm : Consistent g ∅ dm)
    (hcollect : ∀ s n, Collecting dm s → n ∈ within → ↑s.visitedUsers ⊆ within →
      unseen g.nodes s.visitedUsers < bound →
      ∃ s', collect s n = some s' ∧ Collecting dm s' ∧ Collects g dm s s' ∧
        n ∈ s'.visitedUsers ∧ ↑s'.visitedUsers ⊆ within)
    (hwithin : dm.UnloadedUsers g DT ⊆ within) (hS : dm.dependents DT = some S)
    (hs : Collecting dm s) (hvisited : ↑s.visitedUsers ⊆ within)
    (hbound : unseen g.nodes s.visitedUsers < bound) :
    ∃ s', s.collectDependents g collect DT S = some s' ∧ Collecting dm s' ∧ Collects g dm s s' ∧
      dm.UnloadedUsers g DT ⊆ ↑s'.visitedUsers ∧ ↑s'.visitedUsers ⊆ within := by
  have hloop : ∃ t : DependencyMap Node × Option Node, (g.iterate S).foldlM
        (collectDependent g collect DT) (s, if g.kind DT = .decl then some DT else none) = some t ∧
      (Collecting dm t.1 ∧ ↑t.1.visitedUsers ⊆ within ∧
        unseen g.nodes t.1.visitedUsers < bound ∧ (g.kind DT ≠ .decl → t.2 = none)) ∧
      Collects g dm s t.1 ∧
      ∀ u ∈ g.iterate S, ¬g.Recanon DT u → u ∈ t.1.visitedUsers := by
    refine foldlM_spec (s := (s, if g.kind DT = .decl then some DT else none))
      (P := fun t : DependencyMap Node × Option Node => Collecting dm t.1 ∧
        ↑t.1.visitedUsers ⊆ within ∧ unseen g.nodes t.1.visitedUsers < bound ∧
        (g.kind DT ≠ .decl → t.2 = none))
      (R := fun t t' => Collects g dm t.1 t'.1)
      (Q := fun u t => ¬g.Recanon DT u → u ∈ t.1.visitedUsers)
      (fun t => .refl g dm t.1) (fun _ _ _ => .trans)
      (fun u t t' h hu hrecanon => h.visitedUsers (hu hrecanon)) (fun u hu t ht => ?_)
      ⟨hs, hvisited, hbound, fun hdecl => if_neg hdecl⟩
    obtain ⟨hcollecting, hvisited, hbound, hdecl⟩ := ht
    obtain ⟨s', replacement', hrun, hdecl', hcollecting', hcollects, hmem, hwithin'⟩ :=
      collectDependent_collects hfixed hdm hcollect hwithin
        ⟨S, hS, (g.mem_iterate S u).mp hu⟩ hdecl hcollecting hvisited hbound
    refine ⟨(s', replacement'), hrun, ⟨hcollecting', hwithin', ?_, hdecl'⟩, hcollects, hmem⟩
    exact Nat.lt_of_le_of_lt (unseen_mono _ hcollects.visitedUsers) hbound
  obtain ⟨t, ht, hcollecting, hcollects, hall⟩ := hloop
  refine ⟨t.1, ?_, hcollecting.1, hcollects, ?_, hcollecting.2.1⟩
  · unfold collectDependents
    rw [ht]
    rfl
  · rintro u ⟨⟨S', hS', hu⟩, hrecanon⟩
    rw [hS, Option.some.injEq] at hS'
    rw [← hS'] at hu
    exact hall u ((g.mem_iterate S u).mpr hu) hrecanon

theorem Collecting.insertUser (hs : Collecting dm s) (n : Node) :
    Collecting dm ((s.insertUser n).eraseDependents n) := by
  refine ⟨hs.visited, hs.current, hs.FDMapping, fun d => ?_, fun u => ?_,
    SetVector.nodup_insert n hs.nodup⟩
  · show Function.update s.dependents n none d = if d ∈ insert n s.visitedUsers then none else _
    by_cases hd : d = n
    · rw [hd, update_self, if_pos (Finset.mem_insert_self n _)]
    · rw [update_of_ne hd, hs.dependents]
      simp [hd]
  · show u ∈ SetVector.insert s.UD.users n ↔ u ∈ dm.UD.users ∨ u ∈ insert n s.visitedUsers
    rw [SetVector.mem_insert, hs.users, Finset.mem_insert, or_assoc, or_comm (b := u = n)]

theorem collectUsersOf_collects (hfixed : g.Fixed) (hdm : Consistent g ∅ dm)
    (hwithin : ∀ d ∈ within, dm.UnloadedUsers g d ⊆ within) {fuel : Nat} {n : Node}
    (hs : Collecting dm s) (hn : n ∈ within) (hvisited : ↑s.visitedUsers ⊆ within)
    (hfuel : unseen g.nodes s.visitedUsers < fuel) :
    ∃ s', collectUsersOf g fuel s n = some s' ∧ Collecting dm s' ∧ Collects g dm s s' ∧
      n ∈ s'.visitedUsers ∧ ↑s'.visitedUsers ⊆ within := by
  induction fuel generalizing s n with
  | zero => exact absurd hfuel (Nat.not_lt_zero _)
  | succ fuel ih =>
    unfold collectUsersOf
    by_cases hseen : n ∈ s.visitedUsers
    · rw [if_pos hseen]
      exact ⟨s, rfl, hs, .refl g dm s, hseen, hvisited⟩
    rw [if_neg hseen]
    have hless : unseen g.nodes (insert n s.visitedUsers) < fuel :=
      Nat.lt_of_lt_of_le (unseen_insert_lt (g.mem_nodes n) hseen) (Nat.le_of_lt_succ hfuel)
    have hvisited₁ : ((insert n s.visitedUsers : Finset Node) : Set Node) ⊆ within := by
      rw [Finset.coe_insert]
      exact Set.insert_subset hn hvisited
    have hs₁ : Collecting dm ((s.insertUser n).eraseDependents n) := hs.insertUser n
    have hold : (s.insertUser n).dependents n = dm.dependents n := by
      show s.dependents n = _
      rw [hs.dependents, if_neg hseen]
    have hbefore₁ : s.UD.users <+: (s.insertUser n).UD.users := SetVector.prefix_insert _ n
    dsimp only
    cases hS : (s.insertUser n).dependents n with
    | none =>
      -- nothing depends on the node
      have heq : (s.insertUser n).eraseDependents n = s.insertUser n := by
        unfold eraseDependents
        rw [Function.update_eq_self_iff.mpr hS.symm]
      rw [heq] at hs₁
      refine ⟨s.insertUser n, rfl, hs₁, ⟨?_, hbefore₁⟩, Finset.mem_insert_self n _, hvisited₁⟩
      show Extends _ _ ((insert n s.visitedUsers : Finset Node) : Set Node)
      rw [Finset.coe_insert]
      refine (Extends.refl _ _).visit ?_
      rintro u ⟨⟨S, hS', -⟩, -⟩
      rw [← hold, hS] at hS'
      cases hS'
    | some S =>
      obtain ⟨s', hs', hcollecting, hcollects, hall, hwithin'⟩ :=
        collectDependents_collects hfixed hdm
          (fun s u hs hu hvisited hfuel => ih hs hu hvisited hfuel) (hwithin n hn)
          (hold.symm.trans hS) hs₁ hvisited₁ hless
      have hfollows : Extends (dm.UnloadedUsers g)
          ((insert n s.visitedUsers : Finset Node) : Set Node) ↑s'.visitedUsers :=
        hcollects.follows
      rw [Finset.coe_insert] at hfollows
      exact ⟨s', hs', hcollecting, ⟨hfollows.visit hall, hbefore₁.trans hcollects.before⟩,
        hcollects.visitedUsers (Finset.mem_insert_self n _), hwithin'⟩

/-- What holds while the list of files is walked, at position `I`, when `dm` was the map before. -/
structure FilesInvariant (g : DependencyGraph Node) (dm : DependencyMap Node) (I : Nat)
    (s : DependencyMap Node) : Prop where
  collecting : Collecting dm s
  follows : Extends (dm.UnloadedUsers g) ∅ ↑s.visitedUsers
  unloads : ∀ n ∈ s.visitedUsers, Unloads g dm n
  position : I ≤ (s.UD.ofKind g .fileEntry).length
  processed : ∀ FE ∈ (s.UD.ofKind g .fileEntry).take I,
    FE ∈ s.visitedUsers ∧ ∀ D ∈ dm.FDMapping.fileDecls FE, D ∈ s.visitedUsers

omit [DecidableEq Node] in
theorem mem_ofKind {UD : UserData Node} {kind : DependentKind} {n : Node} :
    n ∈ UD.ofKind g kind ↔ n ∈ UD.users ∧ g.kind n = kind := by
  unfold UserData.ofKind
  rw [mem_filter, decide_eq_true_eq]

omit [DecidableEq Node] in
theorem mem_byKind {UD : UserData Node} {n : Node} : n ∈ UD.byKind g ↔ n ∈ UD.users := by
  unfold UserData.byKind
  simp only [mem_append, mem_ofKind, ← and_or_left]
  cases g.kind n <;> simp

theorem FilesInvariant.unloads_users {I : Nat} (h : FilesInvariant g dm I s) {n : Node}
    (hn : n ∈ s.UD.users) : Unloads g dm n :=
  ((h.collecting.users n).mp hn).elim .file (h.unloads n)

theorem FilesInvariant.step {I : Nat} {FE : Node} (hfixed : g.Fixed) (hdm : Consistent g ∅ dm)
    (h : FilesInvariant g dm I s) (hFE : (s.UD.ofKind g .fileEntry)[I]? = some FE) :
    ∃ s', s.collectFileEntry g FE = some s' ∧ FilesInvariant g dm (I + 1) s' := by
  obtain ⟨husers, hkind⟩ := mem_ofKind.mp (mem_of_getElem? hFE)
  have hunloads : Unloads g dm FE := h.unloads_users husers
  have hdecls : ∀ D, D ∈ s.FDMapping.fileDecls FE ↔ D ∈ dm.FDMapping.fileDecls FE := by
    intro D
    rw [h.collecting.FDMapping]
  have hwithin : ∀ n ∈ FE :: g.iterate (s.FDMapping.fileDecls FE), Unloads g dm n := by
    intro n hn
    rcases List.mem_cons.mp hn with rfl | hn
    · exact hunloads
    · exact .decl hunloads hkind ((hdecls n).mp ((g.mem_iterate _ n).mp hn))
  have hstart : (↑s.visitedUsers : Set Node) ⊆ {n | Unloads g dm n} := h.unloads
  have hloop : ∃ s', s.collectFileEntry g FE = some s' ∧
      (Collecting dm s' ∧ ↑s'.visitedUsers ⊆ {n | Unloads g dm n}) ∧ Collects g dm s s' ∧
      ∀ n ∈ FE :: g.iterate (s.FDMapping.fileDecls FE), n ∈ s'.visitedUsers := by
    refine foldlM_spec (s := s)
      (R := Collects g dm) (Q := fun n t => n ∈ t.visitedUsers) (.refl g dm)
      (fun _ _ _ => .trans) (fun n t t' h hn => h.visitedUsers hn) (fun n hn t ht => ?_)
      ⟨h.collecting, hstart⟩
    obtain ⟨t', ht', hcollecting, hcollects, hmem, hsubset⟩ :=
      collectUsersOf_collects hfixed hdm (fun d hd u hu => Unloads.user hd hu) ht.1
        (hwithin n hn) ht.2 (Nat.lt_succ_of_le (length_filter_le _ _))
    exact ⟨t', ht', ⟨hcollecting, hsubset⟩, hcollects, hmem⟩
  obtain ⟨s', hs', ⟨hcollecting, hunloads'⟩, hcollects, hall⟩ := hloop
  have hgrown : s.UD.ofKind g .fileEntry <+: s'.UD.ofKind g .fileEntry :=
    hcollects.before.filter _
  have hbound : I + 1 ≤ (s.UD.ofKind g .fileEntry).length :=
    (List.getElem?_eq_some_iff.mp hFE).1
  refine ⟨s', hs', hcollecting, h.follows.trans hcollects.follows, hunloads',
    hbound.trans hgrown.length_le, fun F hF => ?_⟩
  have htake : (s'.UD.ofKind g .fileEntry).take (I + 1) =
      (s.UD.ofKind g .fileEntry).take I ++ [FE] := by
    obtain ⟨rest, hrest⟩ := hgrown
    rw [← hrest, take_append_of_le_length hbound, take_add_one, hFE]
    rfl
  rw [htake, mem_append, mem_singleton] at hF
  rcases hF with hF | rfl
  · obtain ⟨hmem, hrest⟩ := h.processed F hF
    exact ⟨hcollects.visitedUsers hmem, fun D hD => hcollects.visitedUsers (hrest D hD)⟩
  · exact ⟨hall F mem_cons_self, fun D hD => hall D (mem_cons_of_mem F
      ((g.mem_iterate _ D).mpr ((hdecls D).mpr hD)))⟩

theorem FilesInvariant.run {I fuel : Nat} (hfixed : g.Fixed) (hdm : Consistent g ∅ dm)
    (h : FilesInvariant g dm I s) (hfuel : g.nodes.length < fuel + I) :
    ∃ s', collectFileEntries g fuel I s = some s' ∧
      FilesInvariant g dm (s'.UD.ofKind g .fileEntry).length s' := by
  induction fuel generalizing s I with
  | zero =>
    -- no file is listed twice
    have hlength : (s.UD.ofKind g .fileEntry).length ≤ g.nodes.length :=
      ((h.collecting.nodup.filter _).subperm fun n _ => g.mem_nodes n).length_le
    have hposition := h.position
    omega
  | succ fuel ih =>
    unfold collectFileEntries
    cases hFE : (s.UD.ofKind g .fileEntry)[I]? with
    | none =>
      have hlength : I = (s.UD.ofKind g .fileEntry).length :=
        Nat.le_antisymm h.position (List.getElem?_eq_none_iff.mp hFE)
      exact ⟨s, rfl, hlength ▸ h⟩
    | some FE =>
      obtain ⟨s₁, hs₁, hstep⟩ := h.step hfixed hdm hFE
      obtain ⟨s', hs', hend⟩ := ih hstep (by omega)
      refine ⟨s', ?_, hend⟩
      simp only [hs₁, hs', Option.bind_eq_bind, Option.bind_some]

theorem FilesInvariant.unloads_iff (hdm : Consistent g ∅ dm)
    (h : FilesInvariant g dm (s.UD.ofKind g .fileEntry).length s) (n : Node) :
    n ∈ s.visitedUsers ↔ Unloads g dm n := by
  have hdone : ∀ FE ∈ s.UD.users, g.kind FE = .fileEntry →
      FE ∈ s.visitedUsers ∧ ∀ D ∈ dm.FDMapping.fileDecls FE, D ∈ s.visitedUsers := by
    intro FE hFE hkind
    refine h.processed FE ?_
    rw [take_length]
    exact mem_ofKind.mpr ⟨hFE, hkind⟩
  refine ⟨h.unloads n, fun hn => ?_⟩
  induction hn with
  | file hFE => exact (hdone _ ((h.collecting.users _).mpr (Or.inl hFE)) (hdm.files _ hFE)).1
  | decl _ hkind hD ih => exact (hdone _ ((h.collecting.users _).mpr (Or.inr ih)) hkind).2 _ hD
  | user _ hn ih => exact h.follows.closed_of_empty ih hn

/-- What removing nodes from the map does. -/
structure Removes (g : DependencyGraph Node) (ns : List Node) (dm dm' : DependencyMap Node) :
    Prop where
  current : dm'.currentDependent = dm.currentDependent
  remove : dm'.removeDependencies = dm.removeDependencies
  FDMapping : dm'.FDMapping = dm.FDMapping
  users : dm'.UD.users = dm.UD.users
  visited : ∀ n, n ∈ dm'.visited ↔ n ∈ dm.visited ∧ n ∉ ns
  key : ∀ d, dm.dependents d = none → dm'.dependents d = none
  uses : ∀ d n, dm'.Uses d n ↔ dm.Uses d n ∧ ¬(n ∈ ns ∧ d ∈ g.dependees n)

theorem foldlM_findIn_remove {fuel : Nat} {n : Node} (ds : List Node)
    (hremove : dm.removeDependencies = true) (hcurrent : dm.currentDependent = some n) :
    ∃ dm', ds.foldlM (findIn g (fuel + 1)) dm = some dm' ∧
      dm' = { dm with dependents := dm'.dependents } ∧
      (∀ d, dm.dependents d = none → dm'.dependents d = none) ∧
      ∀ d u, dm'.Uses d u ↔ dm.Uses d u ∧ ¬(u = n ∧ d ∈ ds) := by
  induction ds generalizing dm with
  | nil => exact ⟨dm, rfl, rfl, fun _ => id, fun d u => by simp⟩
  | cons e rest ih =>
    have hstep : findIn g (fuel + 1) dm e = some (dm.eraseDependent e n) := by
      unfold findIn findProlog
      rw [if_pos hremove, hcurrent]
    obtain ⟨dm', hdm', hframe, hkey, huses⟩ := ih (show
      (dm.eraseDependent e n).removeDependencies = true from hremove) hcurrent
    refine ⟨dm', ?_, hframe, fun d hd => hkey d ?_, fun d u => ?_⟩
    · rw [foldlM_cons, hstep]
      exact hdm'
    · show Function.update dm.dependents e _ d = none
      by_cases hde : d = e
      · rw [← hde, update_self, hd]
        rfl
      · rw [update_of_ne hde, hd]
    · rw [huses, uses_eraseDependent, mem_cons]
      constructor
      · intro h
        refine ⟨h.1.1, fun hforgot => ?_⟩
        rcases hforgot.2 with hde | hd
        · exact h.1.2 ⟨hde, hforgot.1⟩
        · exact h.2 ⟨hforgot.1, hd⟩
      · intro h
        exact ⟨⟨h.1, fun hforgot => h.2 ⟨hforgot.2, Or.inl hforgot.1⟩⟩,
          fun hforgot => h.2 ⟨hforgot.1, Or.inr hforgot.2⟩⟩

theorem removeUser_removes {n : Node} (hremove : dm.removeDependencies = true)
    (hcurrent : dm.currentDependent = none) :
    ∃ dm', dm.removeUser g n = some dm' ∧ Removes g [n] dm dm' := by
  obtain ⟨fuel, hfuel⟩ : ∃ fuel, g.nodes.length = fuel + 1 :=
    Nat.exists_eq_succ_of_ne_zero (Nat.ne_of_gt (length_pos_of_mem (g.mem_nodes n)))
  obtain ⟨dm₁, hdm₁, hframe, hkey, huses⟩ := foldlM_findIn_remove (g := g) (n := n) (g.dependees n)
    (show { dm with currentDependent := some n }.removeDependencies = true from hremove) rfl
  have hfind : findIn g (g.nodes.length + 1) dm n =
      some { dm₁ with currentDependent := none } := by
    rw [hfuel, findIn, findProlog, if_pos hremove, hcurrent]
    dsimp only
    rw [hdm₁]
    rfl
  unfold removeUser
  rw [hfind]
  refine ⟨_, rfl, hcurrent.symm, ?_, ?_, ?_, fun u => ?_, hkey, fun d u => ?_⟩
  · rw [hframe]
  · rw [hframe]
  · rw [hframe]
  · rw [hframe, mem_singleton, and_comm]
    exact Finset.mem_erase
  · refine (huses d u).trans (and_congr_right fun _ => not_congr ?_)
    rw [mem_singleton]
    exact and_congr_right fun hun => by rw [hun]

namespace Removes

variable {dm' dm'' : DependencyMap Node} {ns ns' : List Node}

omit [DecidableEq Node] in
theorem nil (g : DependencyGraph Node) (dm : DependencyMap Node) : Removes g [] dm dm := by
  refine ⟨rfl, rfl, rfl, rfl, fun n => ?_, fun d => id, fun d n => ?_⟩
  · simp
  · simp

omit [DecidableEq Node] in
theorem append (h : Removes g ns dm dm') (h' : Removes g ns' dm' dm'') :
    Removes g (ns ++ ns') dm dm'' := by
  refine ⟨h'.current.trans h.current, h'.remove.trans h.remove, h'.FDMapping.trans h.FDMapping,
    h'.users.trans h.users, fun n => ?_, fun d hd => h'.key d (h.key d hd), fun d n => ?_⟩
  · rw [h'.visited, h.visited, mem_append, not_or, and_assoc]
  · rw [h'.uses, h.uses, mem_append, or_and_right, not_or, and_assoc]

end Removes

theorem foldlM_removeUser (ns : List Node) (hremove : dm.removeDependencies = true)
    (hcurrent : dm.currentDependent = none) :
    ∃ dm', ns.foldlM (removeUser g) dm = some dm' ∧ Removes g ns dm dm' := by
  induction ns generalizing dm with
  | nil => exact ⟨dm, rfl, .nil g dm⟩
  | cons n rest ih =>
    obtain ⟨dm₁, hdm₁, hremoves⟩ := removeUser_removes (g := g) (n := n) hremove hcurrent
    obtain ⟨dm', hdm', hremoves'⟩ :=
      ih (hremoves.remove.trans hremove) (hremoves.current.trans hcurrent)
    refine ⟨dm', ?_, hremoves.append hremoves'⟩
    rw [foldlM_cons, hdm₁]
    exact hdm'

/-- What holds after users were collected, when `dm` was the map before. -/
structure Closed (g : DependencyGraph Node) (dm dm' : DependencyMap Node) : Prop where
  /-- Exactly what has to be unloaded is unloaded. -/
  unloads : ∀ n, n ∈ dm'.UD.users ↔ Unloads g dm n
  /-- Nothing depends on what is unloaded. -/
  key : ∀ n ∈ dm'.UD.users, dm'.dependents n = none
  /-- What is unloaded depends on nothing. -/
  unused : ∀ n ∈ dm'.UD.users, ∀ d, ¬dm'.Uses d n
  /-- The dependencies of what is marked are marked and recorded. -/
  recorded : ∀ n ∈ dm'.visited, ∀ d ∈ g.dependees n, ¬g.Recanon d n → d ∈ dm'.visited ∧ dm'.Uses d n

theorem collectUsers_consistent (hfixed : g.Fixed) (hdm : Consistent g ∅ dm) :
    ∃ dm', dm.collectUsers g = some dm' ∧ Closed g dm dm' ∧ Consistent g ∅ (dm'.unload g) := by
  have hstart : FilesInvariant g dm 0 { dm with visitedUsers := ∅ } := by
    refine ⟨⟨rfl, rfl, rfl, fun d => ?_, fun n => ?_, hdm.nodup⟩, ?_, fun n hn => ?_,
      Nat.zero_le _, fun FE hFE => absurd hFE not_mem_nil⟩
    · simp
    · simp
    · rw [Finset.coe_empty]
      exact .refl _ _
    · exact absurd hn (Finset.notMem_empty n)
  obtain ⟨s, hs, hend⟩ := hstart.run hfixed hdm (Nat.lt_succ_self _)
  have husers : ∀ n, n ∈ s.UD.users ↔ Unloads g dm n := by
    intro n
    rw [hend.collecting.users, hend.unloads_iff hdm]
    exact or_iff_right_of_imp .file
  have huses : ∀ d n, s.Uses d n ↔ dm.Uses d n ∧ ¬Unloads g dm d := by
    intro d n
    rw [← hend.unloads_iff hdm]
    unfold Uses
    rw [hend.collecting.dependents]
    by_cases hd : d ∈ s.visitedUsers
    · simp [hd]
    · simp [hd]
  have hcurrent : s.currentDependent = none := hend.collecting.current.trans hdm.current
  obtain ⟨r, hr, hremoves⟩ : ∃ r,
      (s.UD.byKind g).foldlM (removeUser g) { s with removeDependencies := true } = some r ∧
      Removes g (s.UD.byKind g) { s with removeDependencies := true } r :=
    foldlM_removeUser _ rfl hcurrent
  have hvisited : ∀ n, n ∈ r.visited ↔ n ∈ dm.visited ∧ ¬Unloads g dm n := by
    intro n
    rw [hremoves.visited, mem_byKind, husers]
    rw [hend.collecting.visited]
  have hruses : ∀ d n, r.Uses d n ↔ dm.Uses d n ∧ ¬Unloads g dm d ∧ ¬Unloads g dm n := by
    intro d n
    rw [hremoves.uses, mem_byKind, husers]
    show s.Uses d n ∧ _ ↔ _
    rw [huses, and_assoc]
    refine and_congr_right fun hd => and_congr_right fun _ => not_congr ?_
    exact and_iff_left (hdm.reported d n hd)
  have hclosed : Closed g dm { r with removeDependencies := false } := by
    have hrusers : ∀ n, n ∈ r.UD.users ↔ Unloads g dm n := by
      intro n
      rw [hremoves.users]
      exact husers n
    refine ⟨hrusers, fun n hn => hremoves.key n ?_, fun n hn d hd => ?_,
      fun n hn d hd hrecanon => ?_⟩
    · rw [hend.collecting.dependents, if_pos ((hend.unloads_iff hdm n).mpr ((hrusers n).mp hn))]
    · exact ((hruses d n).mp hd).2.2 ((hrusers n).mp hn)
    · obtain ⟨hnvisited, hkeep⟩ := (hvisited n).mp hn
      obtain ⟨hd₁, hd₂⟩ := hdm.recorded n hnvisited (Set.notMem_empty n) d hd hrecanon
      -- otherwise the user would be unloaded too
      have hdkeep : ¬Unloads g dm d := fun hunloads => hkeep (.user hunloads ⟨hd₁, hrecanon⟩)
      refine ⟨(hvisited d).mpr ⟨?_, hdkeep⟩, (hruses d n).mpr ⟨hd₁, hdkeep, hkeep⟩⟩
      rcases hd₂ with hd₂ | hd₂ | hd₂
      · exact hd₂
      · exact absurd (.file hd₂) hdkeep
      · exact hd₂.elim
  refine ⟨{ r with removeDependencies := false }, ?_, hclosed, ⟨?_, rfl,
    fun n hn => absurd hn not_mem_nil, nodup_nil,
    fun d n hn => hdm.reported d n ((hruses d n).mp hn).1, fun n hn _ d hd hrecanon => ?_⟩⟩
  · unfold collectUsers
    simp only [hs, hr, Option.bind_eq_bind, Option.bind_some]
  · exact hremoves.current.trans hcurrent
  · obtain ⟨hdvisited, hduses⟩ := hclosed.recorded n hn d hd hrecanon
    exact ⟨hduses, Or.inl hdvisited⟩

/-- The maps that `update` and `collectUsers` can build. -/
inductive Reachable (g : DependencyGraph Node) : DependencyMap Node → Prop where
  | empty : Reachable g empty
  | findModifiedFiles {dm : DependencyMap Node} (FEs : List g.FileEntry) :
      Reachable g dm → Reachable g (dm.findModifiedFiles FEs)
  | update {dm dm' : DependencyMap Node} (compilation : Compilation g) :
      Reachable g dm → compilation.Admissible → dm.update compilation = some dm' → Reachable g dm'
  | unload {dm dm' : DependencyMap Node} :
      Reachable g dm → dm.collectUsers g = some dm' → Reachable g (dm'.unload g)

theorem Reachable.consistent (hfixed : g.Fixed) (h : Reachable g dm) : Consistent g ∅ dm := by
  induction h with
  | empty =>
    refine ⟨rfl, rfl, fun n hn => absurd hn not_mem_nil, nodup_nil, fun d n hn => ?_,
      fun n hn => absurd hn (Finset.notMem_empty n)⟩
    obtain ⟨S, hS, -⟩ := hn
    cases hS
  | findModifiedFiles FEs _ ih => exact ih.findModifiedFiles FEs
  | update compilation _ hadmissible hupdate ih =>
    obtain ⟨dm', hdm', hconsistent⟩ := update_consistent ih hadmissible
    rw [hdm', Option.some.injEq] at hupdate
    exact hupdate ▸ hconsistent
  | unload _ hcollect ih =>
    obtain ⟨dm', hdm', -, hconsistent⟩ := collectUsers_consistent hfixed ih
    rw [hdm', Option.some.injEq] at hcollect
    exact hcollect ▸ hconsistent

/-- The files to unload and their declarations, and everything that depends on them. -/
inductive TransitiveUser (dm : DependencyMap Node) : Node → Prop where
  | file {FE : Node} : FE ∈ dm.UD.users → TransitiveUser dm FE
  | decl {FE D : Node} :
      FE ∈ dm.UD.users → D ∈ dm.FDMapping.fileDecls FE → TransitiveUser dm D
  | user {d n : Node} : TransitiveUser dm d → dm.Uses d n → TransitiveUser dm n

/-- The nodes of a small program. -/
inductive Example where
  | source
  | includer
  | header
  | helper
  | value
  | canonical
  | sugared
  | outer
  | inner
  deriving DecidableEq

namespace Example

/-- A source includes one header, and that another. Each header has a declaration, and a type
depends on one of them and is the canonical type of another. -/
def graph : DependencyGraph Example where
  kind
    | source => .fileEntry
    | includer => .fileEntry
    | header => .fileEntry
    | canonical => .type
    | sugared => .type
    | _ => .decl
  dependees
    | includer => [header, helper]
    | header => [value]
    | canonical => [value]
    | sugared => [canonical]
    | outer => [inner]
    | _ => []
  getCanonicalType
    | sugared => canonical
    | n => n
  shouldRecanonType n := n = sugared
  findReplacement _ _ := none
  wasReplaced _ _ _ := false
  isMutable n := n = header
  isSource _ := false
  nodes := [source, includer, header, helper, value, canonical, sugared, outer, inner]
  mem_nodes n := by cases n <;> decide
  iterate S := [source, includer, header, helper, value, canonical, sugared, outer, inner].filter
    fun n => n ∈ S
  mem_iterate S n := by
    rw [mem_filter, decide_eq_true_eq, and_iff_right]
    cases n <;> decide

def first : Compilation graph where
  mainFile := some ⟨source, rfl⟩
  newFEs := [(⟨source, rfl⟩, some ⟨source, rfl⟩), (⟨includer, rfl⟩, some ⟨source, rfl⟩),
    (⟨header, rfl⟩, some ⟨includer, rfl⟩)]
  modifiedDecls := []
  newDecls := [value, helper, inner, outer]
  newTypes := [canonical, sugared]
  newNestedNameSpecifiers := []
  getFileIDEntry
    | value => some header
    | helper => some includer
    | _ => none

/-- A compilation that modifies a declaration on which another depends. -/
def second : Compilation graph where
  mainFile := none
  newFEs := []
  modifiedDecls := [(some outer, inner)]
  newDecls := []
  newTypes := []
  newNestedNameSpecifiers := []
  getFileIDEntry _ := none

theorem first_admissible : first.Admissible := fun _ hpair => absurd hpair not_mem_nil

end Example

end DependencyMap

end Zapcc.Unload
