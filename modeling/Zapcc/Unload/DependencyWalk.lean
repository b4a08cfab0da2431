import Zapcc.Library.Traversal
import Zapcc.Unload.DependencyMap

/-!
# What walking records

`findIn` records every dependency of the nodes that it marks. `Walked` says so for any part of a
walk. `Consistent` is the invariant of the map: of every node that is marked, except those that
still have to be walked, all dependencies are recorded. `update_consistent` shows that `update`
keeps it.
-/

namespace Zapcc.Unload

open Traversal List Function

variable {Node : Type*}

/-- A type that gets a new canonical type when its canonical type is unloaded. -/
def DependencyGraph.Recanon (g : DependencyGraph Node) (d n : Node) : Prop :=
  g.kind d = .type ∧ g.kind n = .type ∧ g.getCanonicalType n = d ∧ g.shouldRecanonType n = true

def DependencyGraph.Dependees (g : DependencyGraph Node) (n : Node) : Set Node :=
  {d | d ∈ g.dependees n}

/-- A declaration which depends on another that is modified with it is walked again. -/
def Compilation.Admissible {g : DependencyGraph Node} (compilation : Compilation g) : Prop :=
  ∀ pair ∈ compilation.modifiedDecls, ∀ D, pair.1 = some D → pair.2 ∈ g.dependees D →
    D ∈ compilation.declsToWalk

namespace DependencyMap

def Uses (dm : DependencyMap Node) (d n : Node) : Prop := ∃ S, dm.dependents d = some S ∧ n ∈ S

/-- What a part of a walk does. -/
structure Walked (g : DependencyGraph Node) (dm dm' : DependencyMap Node) : Prop where
  frame : dm' = { dm with visited := dm'.visited, dependents := dm'.dependents }
  uses : ∀ d n, dm.Uses d n → dm'.Uses d n
  reported : ∀ d n, dm'.Uses d n → dm.Uses d n ∨ d ∈ g.dependees n
  follows : Extends g.Dependees ↑dm.visited ↑dm'.visited
  recorded : ∀ n ∈ dm'.visited, n ∉ dm.visited → ∀ d ∈ g.dependees n, dm'.Uses d n

/-- The invariant of the map, except for the nodes of `W` that still have to be walked. -/
structure Consistent (g : DependencyGraph Node) (W : Set Node) (dm : DependencyMap Node) :
    Prop where
  current : dm.currentDependent = none
  remove : dm.removeDependencies = false
  files : ∀ n ∈ dm.UD.users, g.kind n = .fileEntry
  nodup : dm.UD.users.Nodup
  reported : ∀ d n, dm.Uses d n → d ∈ g.dependees n
  recorded : ∀ n ∈ dm.visited, n ∉ W → ∀ d ∈ g.dependees n, ¬g.Recanon d n →
    dm.Uses d n ∧ (d ∈ dm.visited ∨ d ∈ dm.UD.users ∨ d ∈ W)

namespace Walked

variable {g : DependencyGraph Node} {dm dm' dm'' : DependencyMap Node}

theorem refl (g : DependencyGraph Node) (dm : DependencyMap Node) : Walked g dm dm :=
  ⟨rfl, fun _ _ => id, fun _ _ => Or.inl, .refl _ _, fun _ hn hnot => absurd hn hnot⟩

theorem trans (h : Walked g dm dm') (h' : Walked g dm' dm'') : Walked g dm dm'' := by
  refine ⟨?_, fun d n hn => h'.uses d n (h.uses d n hn), fun d n hn => ?_,
    h.follows.trans h'.follows, fun n hn hnot d hd => ?_⟩
  · exact h'.frame.trans (congrArg (fun s : DependencyMap Node =>
      { s with visited := dm''.visited, dependents := dm''.dependents }) h.frame)
  · rcases h'.reported d n hn with hn | hn
    · exact h.reported d n hn
    · exact Or.inr hn
  · by_cases hmiddle : n ∈ dm'.visited
    · exact h'.uses d n (h.recorded n hmiddle hnot d hd)
    · exact h'.recorded n hn hmiddle d hd

theorem current (h : Walked g dm dm') : dm'.currentDependent = dm.currentDependent := by
  rw [h.frame]

theorem remove (h : Walked g dm dm') : dm'.removeDependencies = dm.removeDependencies := by
  rw [h.frame]

theorem UD (h : Walked g dm dm') : dm'.UD = dm.UD := by
  rw [h.frame]

theorem visited (h : Walked g dm dm') : dm.visited ⊆ dm'.visited :=
  Finset.coe_subset.mp h.follows.subset

theorem consistent {W : Set Node} (h : Walked g dm dm') (hdm : Consistent g W dm)
    (hbefore : ∀ n ∈ W, n ∉ dm.visited) (hafter : ∀ n ∈ W, n ∈ dm'.visited) :
    Consistent g ∅ dm' := by
  refine ⟨h.current.trans hdm.current, h.remove.trans hdm.remove, ?_, ?_,
    fun d n hn => (h.reported d n hn).elim (hdm.reported d n) id, fun n hn _ d hd hrecanon => ?_⟩
  · rw [h.UD]
    exact hdm.files
  · rw [h.UD]
    exact hdm.nodup
  · rw [h.UD]
    by_cases hold : n ∈ dm.visited
    · obtain ⟨huses, hd⟩ := hdm.recorded n hold (fun hW => hbefore n hW hold) d hd hrecanon
      refine ⟨h.uses d n huses, ?_⟩
      rcases hd with hd | hd | hd
      · exact Or.inl (h.visited hd)
      · exact Or.inr (Or.inl hd)
      · exact Or.inl (hafter d hd)
    · exact ⟨h.recorded n hn hold d hd, Or.inl (h.follows.closed n hn hold hd)⟩

end Walked

variable [DecidableEq Node] {g : DependencyGraph Node} {dm dm' : DependencyMap Node}

theorem uses_insertDependent (dm : DependencyMap Node) (dependee user d n : Node) :
    (dm.insertDependent dependee user).Uses d n ↔ dm.Uses d n ∨ d = dependee ∧ n = user := by
  unfold Uses insertDependent
  by_cases hd : d = dependee
  · subst hd
    cases hS : dm.dependents d with
    | none => simp
    | some S => simp [or_comm]
  · simp [hd]

theorem uses_eraseDependent (dm : DependencyMap Node) (dependee user d n : Node) :
    (dm.eraseDependent dependee user).Uses d n ↔ dm.Uses d n ∧ ¬(d = dependee ∧ n = user) := by
  unfold Uses eraseDependent
  by_cases hd : d = dependee
  · subst hd
    cases hS : dm.dependents d with
    | none => simp
    | some S => simp [and_comm]
  · simp [hd]

theorem uses_recordDependent (dm : DependencyMap Node) (dependee d n : Node) :
    (dm.recordDependent dependee).Uses d n ↔
      dm.Uses d n ∨ d = dependee ∧ dm.currentDependent = some n := by
  cases hcurrent : dm.currentDependent with
  | none => simp [Uses, recordDependent, hcurrent]
  | some current =>
    have heq : (dm.recordDependent dependee).dependents =
        (dm.insertDependent dependee current).dependents := by
      unfold recordDependent
      rw [hcurrent]
    have huses := dm.uses_insertDependent dependee current d n
    unfold Uses at huses ⊢
    rw [heq, huses, Option.some.injEq, eq_comm (a := n)]

theorem findIn_walked {fuel : Nat} {n : Node} (hremove : dm.removeDependencies = false)
    (hcurrent : ∀ c, dm.currentDependent = some c → n ∈ g.dependees c)
    (hfuel : unseen g.nodes dm.visited < fuel) :
    ∃ dm', findIn g fuel dm n = some dm' ∧ Walked g dm dm' ∧ n ∈ dm'.visited ∧
      ∀ c, dm.currentDependent = some c → dm'.Uses n c := by
  induction fuel generalizing dm n with
  | zero => exact absurd hfuel (Nat.not_lt_zero _)
  | succ fuel ih =>
    have hrecord : Walked g dm (dm.recordDependent n) := by
      refine ⟨rfl, fun d u hu => (dm.uses_recordDependent n d u).mpr (Or.inl hu),
        fun d u hu => ?_, .refl _ _, fun u hu hnot => absurd hu hnot⟩
      rcases (dm.uses_recordDependent n d u).mp hu with hold | ⟨rfl, hnew⟩
      · exact Or.inl hold
      · exact Or.inr (hcurrent u hnew)
    have hedge : ∀ c, dm.currentDependent = some c → (dm.recordDependent n).Uses n c :=
      fun c hc => (dm.uses_recordDependent n n c).mpr (Or.inr ⟨rfl, hc⟩)
    unfold findIn findProlog
    rw [if_neg (by rw [hremove]; exact Bool.false_ne_true)]
    by_cases hseen : n ∈ (dm.recordDependent n).visited
    · rw [if_pos hseen]
      exact ⟨dm.recordDependent n, rfl, hrecord, hseen, hedge⟩
    rw [if_neg hseen]
    have hless : unseen g.nodes (insert n dm.visited) < fuel :=
      Nat.lt_of_lt_of_le (unseen_insert_lt (g.mem_nodes n) hseen) (Nat.le_of_lt_succ hfuel)
    -- everything that the node depends on is walked, as its dependees
    have hdependees : ∃ dm₁, (g.dependees n).foldlM (findIn g fuel)
          { dm.recordDependent n with
            visited := insert n (dm.recordDependent n).visited
            currentDependent := some n } = some dm₁ ∧
        (dm₁.currentDependent = some n ∧ dm₁.removeDependencies = false ∧
          unseen g.nodes dm₁.visited < fuel) ∧
        Walked g { dm.recordDependent n with
          visited := insert n (dm.recordDependent n).visited
          currentDependent := some n } dm₁ ∧
        ∀ d ∈ g.dependees n, d ∈ dm₁.visited ∧ dm₁.Uses d n := by
      refine foldlM_spec
        (R := Walked g) (Q := fun d s => d ∈ s.visited ∧ s.Uses d n) (.refl g)
        (fun _ _ _ => .trans)
        (fun d s s' h hd => ⟨h.visited hd.1, h.uses d n hd.2⟩) ?_ ⟨rfl, hremove, hless⟩
      intro d hd s hs
      have hreports : ∀ c, s.currentDependent = some c → d ∈ g.dependees c := by
        intro c hc
        rw [hs.1, Option.some.injEq] at hc
        rw [← hc]
        exact hd
      obtain ⟨s', hs', hwalked, hvisited, huses⟩ := ih hs.2.1 hreports hs.2.2
      refine ⟨s', hs', ⟨hwalked.current.trans hs.1, hwalked.remove.trans hs.2.1, ?_⟩, hwalked,
        hvisited, huses n hs.1⟩
      exact Nat.lt_of_le_of_lt (unseen_mono _ hwalked.visited) hs.2.2
    obtain ⟨dm₁, hdm₁, -, hwalked, hall⟩ := hdependees
    have hn : n ∈ dm₁.visited := hwalked.visited (Finset.mem_insert_self n _)
    refine ⟨{ dm₁ with currentDependent := dm.currentDependent }, ?_, ?_, hn,
      fun c hc => hwalked.uses n c (hedge c hc)⟩
    · simp only [hdm₁, Option.bind_eq_bind, Option.bind_some]
    · have hfollows := hwalked.follows
      rw [Finset.coe_insert] at hfollows
      refine ⟨?_, fun d u hu => hwalked.uses d u (hrecord.uses d u hu), fun d u hu => ?_,
        hfollows.visit fun d hd => (hall d hd).1, fun u hu hnot d hd => ?_⟩
      · rw [hwalked.frame]
        rfl
      · exact (hwalked.reported d u hu).elim (hrecord.reported d u) Or.inr
      · by_cases hun : u = n
        · rw [hun] at hd ⊢
          exact (hall d hd).2
        · exact hwalked.recorded u hu
            (fun hmem => (Finset.mem_insert.mp hmem).elim hun hnot) d hd

theorem foldlM_findIn_walked (ns : List Node) (hcurrent : dm.currentDependent = none)
    (hremove : dm.removeDependencies = false) :
    ∃ dm', ns.foldlM (findIn g (g.nodes.length + 1)) dm = some dm' ∧ Walked g dm dm' ∧
      ∀ n ∈ ns, n ∈ dm'.visited := by
  have hwalk : ∃ dm', ns.foldlM (findIn g (g.nodes.length + 1)) dm = some dm' ∧
      (dm'.currentDependent = none ∧ dm'.removeDependencies = false) ∧ Walked g dm dm' ∧
      ∀ n ∈ ns, n ∈ dm'.visited := by
    refine foldlM_spec
      (R := Walked g) (Q := fun n s => n ∈ s.visited) (.refl g) (fun _ _ _ => .trans)
      (fun n s s' h hn => h.visited hn) (fun n _ s hs => ?_) ⟨hcurrent, hremove⟩
    have htop : ∀ c, s.currentDependent = some c → n ∈ g.dependees c := by
      intro c hc
      rw [hs.1] at hc
      cases hc
    obtain ⟨s', hs', hwalked, hvisited, -⟩ :=
      findIn_walked hs.2 htop (Nat.lt_succ_of_le (length_filter_le _ _))
    exact ⟨s', hs', ⟨hwalked.current.trans hs.1, hwalked.remove.trans hs.2⟩, hwalked, hvisited⟩
  obtain ⟨dm', hdm', -, hwalked, hvisited⟩ := hwalk
  exact ⟨dm', hdm', hwalked, hvisited⟩

namespace Consistent

variable {W : Set Node} {compilation : Compilation g}

theorem insert (h : Consistent g W dm) (FE : g.FileEntry) :
    Consistent g W { dm with UD := dm.UD.insert FE.val } := by
  have hmem : ∀ n, n ∈ (dm.UD.insert FE.val).users ↔ n ∈ dm.UD.users ∨ n = FE.val :=
    SetVector.mem_insert dm.UD.users FE.val
  refine ⟨h.current, h.remove, fun n hn => ?_, SetVector.nodup_insert FE.val h.nodup, h.reported,
    fun n hn hW d hd hrecanon => ?_⟩
  · rcases (hmem n).mp hn with hn | rfl
    · exact h.files n hn
    · exact FE.property
  · obtain ⟨huses, hd⟩ := h.recorded n hn hW d hd hrecanon
    exact ⟨huses, hd.imp_right fun hd => hd.imp_left fun hd => (hmem d).mpr (Or.inl hd)⟩

theorem erase (h : Consistent g W dm) {D : Node} (hD : D ∈ W ∨ D ∈ dm.UD.users) :
    Consistent g W { dm with visited := dm.visited.erase D } := by
  refine ⟨h.current, h.remove, h.files, h.nodup, h.reported, fun n hn hW d hd hrecanon => ?_⟩
  obtain ⟨huses, hd⟩ := h.recorded n (Finset.mem_of_mem_erase hn) hW d hd hrecanon
  refine ⟨huses, ?_⟩
  by_cases hdD : d = D
  · rw [hdD]
    exact hD.elim (fun hD => Or.inr (Or.inr hD)) fun hD => Or.inr (Or.inl hD)
  · exact hd.imp_left fun hd => Finset.mem_erase.mpr ⟨hdD, hd⟩

theorem eraseDependent (h : Consistent g W dm) {dependee user : Node}
    (huser : dependee ∈ g.dependees user → user ∈ W) :
    Consistent g W (dm.eraseDependent dependee user) := by
  refine ⟨h.current, h.remove, h.files, h.nodup,
    fun d n hn => h.reported d n ((dm.uses_eraseDependent dependee user d n).mp hn).1,
    fun n hn hW d hd hrecanon => ?_⟩
  obtain ⟨huses, hdone⟩ := h.recorded n hn hW d hd hrecanon
  refine ⟨(dm.uses_eraseDependent dependee user d n).mpr ⟨huses, ?_⟩, hdone⟩
  rintro ⟨rfl, rfl⟩
  exact hW (huser hd)

theorem insertNewFE (h : Consistent g W dm) {I : g.FileEntry × Option g.FileEntry}
    (hI : some I.1 ≠ compilation.mainFile → I.1.val ∈ W) :
    Consistent g W (dm.insertNewFE compilation I) := by
  unfold DependencyMap.insertNewFE
  split
  · have hinsert := h.insert I.1
    exact hinsert.erase (Or.inr ((SetVector.mem_insert dm.UD.users _ _).mpr (Or.inr rfl)))
  · next hkeep => exact h.erase (Or.inl (hI fun hmain => hkeep (Or.inl hmain)))

theorem eraseModifiedDecl (h : Consistent g W dm) {pair : Option Node × Node} (hpair : pair.2 ∈ W)
    (hdependee : ∀ D, pair.1 = some D → pair.2 ∈ g.dependees D → D ∈ W) :
    Consistent g W (dm.eraseModifiedDecl pair) := by
  unfold DependencyMap.eraseModifiedDecl
  split
  · exact h
  · next D hD => exact (h.eraseDependent fun _ => hpair).eraseDependent (hdependee D hD)

theorem insertNewDecl (h : Consistent g W dm) {D : Node} (hD : D ∈ W) :
    Consistent g W (dm.insertNewDecl compilation D) :=
  { h.erase (Or.inl hD) with }

theorem findModifiedFiles (h : Consistent g W dm) (FEs : List g.FileEntry) :
    Consistent g W (dm.findModifiedFiles FEs) := by
  induction FEs generalizing dm with
  | nil => exact h
  | cons FE rest ih => exact ih (h.insert FE)

end Consistent

section Update

variable {compilation : Compilation g}

/-- What still has to be walked in `update`. -/
def Pending (compilation : Compilation g) : Set Node :=
  {n | n ∈ compilation.filesToWalk ∨ n ∈ compilation.declsToWalk}

theorem beforeWalk_consistent (h : Consistent g ∅ dm) (hadmissible : compilation.Admissible) :
    Consistent g (Pending compilation) (dm.beforeWalk compilation) := by
  have hstart : Consistent g (Pending compilation) dm := by
    refine { h with recorded := fun n hn _ d hd hrecanon => ?_ }
    obtain ⟨huses, hdone⟩ := h.recorded n hn (Set.notMem_empty n) d hd hrecanon
    exact ⟨huses, hdone.imp_right fun hdone => hdone.imp_right fun hW => hW.elim⟩
  refine List.foldlRecOn _ _ (List.foldlRecOn _ _ (List.foldlRecOn _ _ hstart
    fun s hs I hI => ?_) fun s hs pair hpair => ?_) fun s hs D hD => ?_
  · refine hs.insertNewFE fun hne => Or.inl ?_
    exact List.mem_map.mpr ⟨I, List.mem_filter.mpr ⟨hI, decide_eq_true hne⟩, rfl⟩
  · refine hs.eraseModifiedDecl (Or.inr ?_) fun D hD hdependee =>
      Or.inr (hadmissible pair hpair D hD hdependee)
    exact mem_append_right _ (mem_map_of_mem hpair)
  · exact hs.insertNewDecl (Or.inr hD)

theorem mem_visited_foldl {α : Type*} (node : α → Node)
    {step : DependencyMap Node → α → DependencyMap Node}
    (hstep : ∀ s x, (step s x).visited = s.visited.erase (node x))
    (xs : List α) (n : Node) :
    n ∈ (xs.foldl step dm).visited ↔ n ∈ dm.visited ∧ n ∉ xs.map node := by
  induction xs generalizing dm with
  | nil => simp
  | cons x rest ih =>
    rw [foldl_cons, ih, hstep, Finset.mem_erase, map_cons, mem_cons, not_or]
    exact ⟨fun h => ⟨h.1.2, h.1.1, h.2⟩, fun h => ⟨⟨h.2.1, h.1⟩, h.2.2⟩⟩

theorem notMem_visited_beforeWalk {n : Node} (hn : n ∈ Pending compilation) :
    n ∉ (dm.beforeWalk compilation).visited := by
  have hpairs : ∀ s : DependencyMap Node,
      (compilation.modifiedDecls.foldl eraseModifiedDecl s).visited = s.visited := by
    intro s
    refine List.foldlRecOn _ (motive := fun s' : DependencyMap Node => s'.visited = s.visited)
      _ rfl fun s' hs' pair _ => ?_
    unfold eraseModifiedDecl
    split
    · exact hs'
    · exact hs'
  unfold beforeWalk
  rw [mem_visited_foldl id fun _ _ => rfl, hpairs,
    mem_visited_foldl (fun I => I.1.val) fun _ _ => rfl, map_id]
  rintro ⟨⟨-, hfile⟩, hdecl⟩
  rcases hn with hn | hn
  · obtain ⟨I, hI, rfl⟩ := List.mem_map.mp hn
    exact hfile (mem_map_of_mem (List.mem_filter.mp hI).1)
  · exact hdecl hn

theorem update_consistent (h : Consistent g ∅ dm) (hadmissible : compilation.Admissible) :
    ∃ dm', dm.update compilation = some dm' ∧ Consistent g ∅ dm' := by
  have hbefore : Consistent g (Pending compilation) (dm.beforeWalk compilation) :=
    beforeWalk_consistent h hadmissible
  obtain ⟨dm', hdm', hwalked, hvisited⟩ := foldlM_findIn_walked (g := g)
    (compilation.filesToWalk ++ compilation.declsToWalk ++ compilation.newTypes ++
      compilation.newNestedNameSpecifiers) hbefore.current hbefore.remove
  refine ⟨dm', hdm', hwalked.consistent hbefore (fun n => notMem_visited_beforeWalk)
    fun n hn => hvisited n ?_⟩
  exact mem_append_left _ (mem_append_left _ (List.mem_append.mpr hn))

end Update

end DependencyMap

end Zapcc.Unload
