import Zapcc.Lex.CachingIncludeManager
import Zapcc.Library.Traversal

/-!
# The files that a compilation includes

Whatever was included, erased and kept, `includeFile` returns, and the set holds the files that are
reached through `IncludeesMap` from the files that were included in this compilation. Each file that
enters the set is reported once: `includes_reachable`.
-/

namespace Zapcc.Lex.CachingIncludeManager

open Traversal List Function

variable {FileEntry Loc : Type}

theorem callBack_eq (M : CachingIncludeManager FileEntry Loc) (Includee : FileEntry) :
    (M.callBack Includee).IncludeesMap = M.IncludeesMap ∧
      (M.callBack Includee).VisibleFEs = M.VisibleFEs ∧
      (M.callBack Includee).InsertedVisibleFEs = M.InsertedVisibleFEs ∧
      (M.callBack Includee).Includes = M.Includes := by
  unfold callBack doCallbacks call
  cases M.LocForStartOfFile Includee with
  | none | some SL => split_ifs <;> simp

variable [DecidableEq FileEntry]

def reports (f : FileEntry) : IncludeCall FileEntry Loc → Bool
  | .included g => g = f
  | _ => false

/-- A file leads to another one through the map. -/
abbrev Path (IncludeesMap : FileEntry → List FileEntry) : FileEntry → FileEntry → Prop :=
  Relation.ReflTransGen fun f g => g ∈ IncludeesMap f

/-- The files that follow a file. -/
abbrev next (IncludeesMap : FileEntry → List FileEntry) (f : FileEntry) : Set FileEntry :=
  {g | g ∈ IncludeesMap f}

/-! ## One traversal -/

/-- What the inclusion of the files `roots` does to the manager. -/
structure Included (IncludeesMap : FileEntry → List FileEntry) (roots : List FileEntry)
    (M M' : CachingIncludeManager FileEntry Loc) : Prop where
  map : M'.IncludeesMap = M.IncludeesMap
  visible : M'.VisibleFEs = M.VisibleFEs
  inserted : M'.InsertedVisibleFEs = M.InsertedVisibleFEs
  marks : Extends (next IncludeesMap) ↑M.Includes ↑M'.Includes
  reached : ∀ f ∈ M'.Includes, f ∉ M.Includes → ∃ r ∈ roots, Path IncludeesMap r f
  reported : ∀ f, M'.calls.countP (reports f) + (if f ∈ M.Includes then 1 else 0) =
    M.calls.countP (reports f) + (if f ∈ M'.Includes then 1 else 0)

namespace Included

variable {IncludeesMap : FileEntry → List FileEntry} {roots roots' : List FileEntry}
  {M M' M'' : CachingIncludeManager FileEntry Loc}

theorem refl (IncludeesMap : FileEntry → List FileEntry) (roots : List FileEntry)
    (M : CachingIncludeManager FileEntry Loc) : Included IncludeesMap roots M M :=
  ⟨rfl, rfl, rfl, .refl _ _, fun _ hf hnot => absurd hf hnot, fun _ => rfl⟩

theorem trans (h : Included IncludeesMap roots M M') (h' : Included IncludeesMap roots M' M'') :
    Included IncludeesMap roots M M'' := by
  refine ⟨h'.map.trans h.map, h'.visible.trans h.visible, h'.inserted.trans h.inserted,
    h.marks.trans h'.marks, fun f hf hnot => ?_, fun f => ?_⟩
  · by_cases hmiddle : f ∈ M'.Includes
    · exact h.reached f hmiddle hnot
    · exact h'.reached f hf hmiddle
  · have hfirst := h.reported f
    have hsecond := h'.reported f
    omega

theorem mono (h : Included IncludeesMap roots M M')
    (hroots : ∀ r ∈ roots, ∃ r' ∈ roots', Path IncludeesMap r' r) :
    Included IncludeesMap roots' M M' := by
  refine ⟨h.map, h.visible, h.inserted, h.marks, fun f hf hnot => ?_, h.reported⟩
  obtain ⟨r, hr, hpath⟩ := h.reached f hf hnot
  obtain ⟨r', hr', hpath'⟩ := hroots r hr
  exact ⟨r', hr', hpath'.trans hpath⟩

end Included

section CallBack

variable (M : CachingIncludeManager FileEntry Loc) (Includee : FileEntry)

theorem countP_doCallbacks (f : FileEntry) :
    (M.doCallbacks Includee).calls.countP (reports f) = M.calls.countP (reports f) := by
  unfold doCallbacks
  cases M.LocForStartOfFile Includee with
  | none => rfl
  | some SL => simp [call, reports]

theorem countP_callBack (f : FileEntry) :
    (M.callBack Includee).calls.countP (reports f) =
      M.calls.countP (reports f) + if f = Includee then 1 else 0 := by
  have hlast : ∀ M : CachingIncludeManager FileEntry Loc,
      (M.call (.included Includee)).calls.countP (reports f) =
        M.calls.countP (reports f) + if f = Includee then 1 else 0 := by
    simp [call, reports, eq_comm]
  unfold callBack
  rw [hlast]
  split
  · split
    · rw [← countP_doCallbacks M Includee f]
      simp [call, reports]
    · simp [call, reports]
  · rfl

end CallBack

theorem included_insert (M : CachingIncludeManager FileEntry Loc) {Includee : FileEntry}
    (hnew : Includee ∉ M.Includes) :
    let M' := { M with Includes := insert Includee M.Includes }.callBack Includee
    M'.IncludeesMap = M.IncludeesMap ∧ M'.VisibleFEs = M.VisibleFEs ∧
      M'.InsertedVisibleFEs = M.InsertedVisibleFEs ∧ M'.Includes = insert Includee M.Includes ∧
      ∀ f, M'.calls.countP (reports f) + (if f ∈ M.Includes then 1 else 0) =
        M.calls.countP (reports f) + (if f ∈ M'.Includes then 1 else 0) := by
  obtain ⟨hmap, hvisible, hinserted, hincludes⟩ :=
    callBack_eq { M with Includes := insert Includee M.Includes } Includee
  refine ⟨hmap, hvisible, hinserted, hincludes, fun f => ?_⟩
  rw [countP_callBack, hincludes]
  by_cases hf : f = Includee
  · subst hf
    simp [hnew]
  · simp [hf]

variable {IncludeesMap : FileEntry → List FileEntry} {fuel : Nat}

/-- With more fuel than files, the inclusion of a file returns. It enters the file, and then
everything that a new file leads to. -/
theorem includeFile_spec {nodes : List FileEntry}
    (hnodes : ∀ f, ∀ g ∈ IncludeesMap f, g ∈ nodes)
    {M : CachingIncludeManager FileEntry Loc} {Includee : FileEntry}
    (hmap : M.IncludeesMap = IncludeesMap) (hmem : Includee ∈ nodes)
    (hfuel : unseen nodes M.Includes < fuel) :
    ∃ M', includeFile fuel M Includee = some M' ∧ Included IncludeesMap [Includee] M M' ∧
      Includee ∈ M'.Includes := by
  induction fuel generalizing M Includee with
  | zero => omega
  | succ fuel ih =>
    unfold includeFile
    by_cases hnew : Includee ∈ M.Includes
    · rw [if_pos hnew]
      exact ⟨M, rfl, .refl _ _ _, hnew⟩
    · rw [if_neg hnew]
      obtain ⟨hsame, hvisible, hinserted, hincludes, hreported⟩ := included_insert M hnew
      generalize hentered :
        { M with Includes := insert Includee M.Includes }.callBack Includee = entered at *
      have hmap' : entered.IncludeesMap = IncludeesMap := hsame.trans hmap
      -- the loop over the includees keeps the new file in the set
      have hvisit : ∀ f ∈ IncludeesMap Includee, ∀ s : CachingIncludeManager FileEntry Loc,
          s.IncludeesMap = IncludeesMap ∧ entered.Includes ⊆ s.Includes →
          ∃ s', includeFile fuel s f = some s' ∧
            (s'.IncludeesMap = IncludeesMap ∧ entered.Includes ⊆ s'.Includes) ∧
            Included IncludeesMap (IncludeesMap Includee) s s' ∧ f ∈ s'.Includes := by
        rintro f hf s ⟨hsmap, hsub⟩
        have hless := unseen_insert_lt hmem hnew
        have hmono := unseen_mono nodes hsub
        rw [hincludes] at hmono
        obtain ⟨s', hs', hincluded, hin⟩ := ih hsmap (hnodes _ f hf) (by omega)
        refine ⟨s', hs', ⟨hincluded.map.trans hsmap,
          hsub.trans (by exact_mod_cast hincluded.marks.subset)⟩,
          hincluded.mono fun r hr => ⟨f, hf, ?_⟩, hin⟩
        rw [mem_singleton] at hr
        exact hr ▸ .refl
      obtain ⟨M', hM', -, hgrown, hvisited⟩ :=
        foldlM_spec (P := fun s => s.IncludeesMap = IncludeesMap ∧ entered.Includes ⊆ s.Includes)
          (Q := fun f s => f ∈ s.Includes) (Included.refl _ _) (fun _ _ _ => Included.trans)
          (fun f _ _ h hf => h.marks.subset hf) hvisit ⟨hmap', subset_rfl⟩
      have hpath : ∀ r ∈ IncludeesMap Includee, Path IncludeesMap Includee r :=
        fun r hr => .single hr
      have hself : Includee ∈ M'.Includes :=
        hgrown.marks.subset (by rw [hincludes]; exact Finset.mem_insert_self _ _)
      have hmarks := hgrown.marks
      rw [hincludes, Finset.coe_insert] at hmarks
      refine ⟨M', by dsimp only; rw [hmap']; exact hM', ⟨hgrown.map.trans hsame,
        hgrown.visible.trans hvisible, hgrown.inserted.trans hinserted,
        hmarks.visit fun g hg => hvisited g hg, fun f hf hnot => ?_, fun f => ?_⟩, hself⟩
      · refine ⟨Includee, mem_singleton_self _, ?_⟩
        by_cases hfirst : f ∈ entered.Includes
        · rw [hincludes, Finset.mem_insert, or_iff_left hnot] at hfirst
          exact hfirst ▸ .refl
        · obtain ⟨r, hr, hreach⟩ := hgrown.reached f hf hfirst
          exact (hpath r hr).trans hreach
      · have hlast := hgrown.reported f
        have hfirst := hreported f
        omega

theorem includeFiles_spec {nodes : List FileEntry}
    (hnodes : ∀ f, ∀ g ∈ IncludeesMap f, g ∈ nodes)
    {M : CachingIncludeManager FileEntry Loc} {files : List FileEntry}
    (hmap : M.IncludeesMap = IncludeesMap) (hmem : ∀ f ∈ files, f ∈ nodes)
    (hfuel : nodes.length < fuel) :
    ∃ M', files.foldlM (includeFile fuel) M = some M' ∧ Included IncludeesMap files M M' ∧
      ∀ f ∈ files, f ∈ M'.Includes := by
  have hvisit : ∀ f ∈ files, ∀ s : CachingIncludeManager FileEntry Loc,
      s.IncludeesMap = IncludeesMap → ∃ s', includeFile fuel s f = some s' ∧
        s'.IncludeesMap = IncludeesMap ∧ Included IncludeesMap files s s' ∧ f ∈ s'.Includes := by
    intro f hf s hs
    have hless : unseen nodes s.Includes ≤ nodes.length := length_filter_le ..
    obtain ⟨s', hs', hincluded, hin⟩ :=
      includeFile_spec hnodes hs (hmem f hf) (lt_of_le_of_lt hless hfuel)
    refine ⟨s', hs', hincluded.map.trans hs, hincluded.mono fun r hr => ⟨f, hf, ?_⟩, hin⟩
    rw [mem_singleton] at hr
    exact hr ▸ .refl
  obtain ⟨M', hM', -, hgrown, hvisited⟩ :=
    foldlM_spec (P := fun s => s.IncludeesMap = IncludeesMap) (Q := fun f s => f ∈ s.Includes)
      (Included.refl _ _) (fun _ _ _ => Included.trans) (fun f _ _ h hf => h.marks.subset hf)
      hvisit hmap
  exact ⟨M', hM', hgrown, hvisited⟩

theorem Included.mem_iff {files roots : List FileEntry}
    {M M' : CachingIncludeManager FileEntry Loc} (h : Included IncludeesMap files M M')
    (hfiles : ∀ r ∈ files, r ∈ M'.Includes) (hroots : ∀ r ∈ roots, r ∈ M.Includes)
    (hold : ∀ f ∈ M.Includes, ∃ r ∈ roots, Path IncludeesMap r f)
    (hclosed : ∀ f ∈ M.Includes, ∀ g ∈ IncludeesMap f, g ∈ M'.Includes) (f : FileEntry) :
    f ∈ M'.Includes ↔ ∃ r ∈ files ++ roots, Path IncludeesMap r f := by
  constructor
  · intro hf
    by_cases hmem : f ∈ M.Includes
    · obtain ⟨r, hr, hpath⟩ := hold f hmem
      exact ⟨r, mem_append_right _ hr, hpath⟩
    · obtain ⟨r, hr, hpath⟩ := h.reached f hf hmem
      exact ⟨r, mem_append_left _ hr, hpath⟩
  · rintro ⟨r, hr, hpath⟩
    have hstart : r ∈ M'.Includes := by
      rcases mem_append.mp hr with hr | hr
      · exact hfiles r hr
      · exact h.marks.subset (hroots r hr)
    induction hpath with
    | refl => exact hstart
    | @tail g g' _ hedge ih =>
      by_cases hmem : g ∈ M.Includes
      · exact hclosed g hmem g' hedge
      · exact h.marks.closed g ih hmem hedge

/-! ## Runs -/

/-- The files that were included in this compilation, with the visible ones. -/
structure Roots (FileEntry : Type) where
  VisibleFEs : List FileEntry
  InsertedVisibleFEs : Bool
  files : List FileEntry

/-- What an operation includes. The visible files are included with the first directive in a
file. -/
def Roots.step : Roots FileEntry → Op FileEntry Loc → Roots FileEntry
  | R, .macroDefined FE => { R with VisibleFEs := SetVector.insert R.VisibleFEs FE }
  | R, .setLocForStartOfFile _ _ => R
  | R, .addPPCallbacks => R
  | R, .EnterMainSourceFile FE => { R with files := FE :: R.files }
  | R, .HandleIncludeDirective File none => { R with files := File :: R.files }
  | R, .HandleIncludeDirective File (some _) =>
    { R with
      InsertedVisibleFEs := true
      files := File :: ((if R.InsertedVisibleFEs then [] else R.VisibleFEs) ++ R.files) }
  | R, .newCompilation FileEntries =>
    ⟨R.VisibleFEs.filter fun FE => FE ∉ FileEntries, false, []⟩

/-- What a run includes in its last compilation. -/
def rootsOf (ops : List (Op FileEntry Loc)) : Roots FileEntry :=
  ops.foldl Roots.step ⟨[], false, []⟩

/-- The files that an operation may include. -/
def Op.files : Op FileEntry Loc → List FileEntry
  | .macroDefined FE => [FE]
  | .EnterMainSourceFile FE => [FE]
  | .HandleIncludeDirective File _ => [File]
  | _ => []

/-- The set is what is reached from the roots, and each of its files was reported once. -/
structure Reached (nodes : List FileEntry) (R : Roots FileEntry)
    (M : CachingIncludeManager FileEntry Loc) : Prop where
  visible : M.VisibleFEs = R.VisibleFEs
  inserted : M.InsertedVisibleFEs = R.InsertedVisibleFEs
  includees : ∀ f, ∀ g ∈ M.IncludeesMap f, g ∈ nodes
  visible_mem : ∀ f ∈ M.VisibleFEs, f ∈ nodes
  reached : ∀ f, f ∈ M.Includes ↔ ∃ r ∈ R.files, Path M.IncludeesMap r f
  reported : ∀ f, M.calls.countP (reports f) = if f ∈ M.Includes then 1 else 0

variable {nodes : List FileEntry} {R : Roots FileEntry} {M : CachingIncludeManager FileEntry Loc}

theorem Reached.closed (h : Reached nodes R M) {f g : FileEntry} (hf : f ∈ M.Includes)
    (hg : g ∈ M.IncludeesMap f) : g ∈ M.Includes := by
  obtain ⟨r, hr, hpath⟩ := (h.reached f).mp hf
  exact (h.reached g).mpr ⟨r, hr, hpath.tail hg⟩

theorem Reached.includeFiles (h : Reached nodes R M) (hfuel : nodes.length < fuel)
    {files : List FileEntry} (hmem : ∀ f ∈ files, f ∈ nodes)
    (hgrows : ∀ f, ∀ g ∈ M.IncludeesMap f, g ∈ IncludeesMap f)
    (hnew : ∀ f, ∀ g ∈ IncludeesMap f, g ∈ M.IncludeesMap f ∨ g ∈ files) :
    ∃ M', files.foldlM (includeFile fuel) { M with IncludeesMap := IncludeesMap } = some M' ∧
      Reached nodes { R with files := files ++ R.files } M' := by
  have hnodes : ∀ f, ∀ g ∈ IncludeesMap f, g ∈ nodes := by
    intro f g hg
    rcases hnew f g hg with hold | hin
    · exact h.includees f g hold
    · exact hmem g hin
  obtain ⟨M', hM', hincluded, hvisited⟩ :=
    includeFiles_spec (M := { M with IncludeesMap := IncludeesMap }) hnodes rfl hmem hfuel
  have hmap : M'.IncludeesMap = IncludeesMap := hincluded.map
  refine ⟨M', hM', ⟨hincluded.visible.trans h.visible, hincluded.inserted.trans h.inserted,
    by rw [hmap]; exact hnodes, by rw [hincluded.visible]; exact h.visible_mem, ?_, ?_⟩⟩
  · rw [hmap]
    refine hincluded.mem_iff hvisited (fun r hr => (h.reached r).mpr ⟨r, hr, .refl⟩) ?_ ?_
    · intro f hf
      obtain ⟨r, hr, hpath⟩ := (h.reached f).mp hf
      exact ⟨r, hr, Relation.ReflTransGen.mono (fun f g hg => hgrows f g hg) _ _ hpath⟩
    · intro f hf g hg
      rcases hnew f g hg with hold | hin
      · exact hincluded.marks.subset (h.closed hf hold)
      · exact hvisited g hin
  · intro f
    have hold := h.reported f
    have hchange := hincluded.reported f
    dsimp only at hchange
    omega

theorem Reached.includeFile (h : Reached nodes R M) (hfuel : nodes.length < fuel)
    {File : FileEntry} (hmem : File ∈ nodes) :
    ∃ M', includeFile fuel M File = some M' ∧
      Reached nodes { R with files := File :: R.files } M' := by
  obtain ⟨M', hM', hreached⟩ := h.includeFiles hfuel
    (show ∀ f ∈ [File], f ∈ nodes by simpa using hmem) (fun _ _ hg => hg) fun _ _ hg => .inl hg
  exact ⟨M', by simpa using hM', hreached⟩

theorem Reached.insertVisibleFEs (h : Reached nodes R M)
    (hfuel : nodes.length < fuel) :
    ∃ M', M.insertVisibleFEs fuel = some M' ∧ Reached nodes
        { R with
          InsertedVisibleFEs := true
          files := (if R.InsertedVisibleFEs then [] else R.VisibleFEs) ++ R.files } M' := by
  unfold CachingIncludeManager.insertVisibleFEs
  by_cases hinserted : R.InsertedVisibleFEs = true
  · rw [if_pos (h.inserted.trans hinserted), if_pos hinserted]
    exact ⟨M, rfl, h.visible, h.inserted.trans hinserted, h.includees, h.visible_mem, h.reached,
      h.reported⟩
  · rw [if_neg (by rwa [h.inserted]), if_neg hinserted]
    obtain ⟨M', hM', hreached⟩ := h.includeFiles hfuel h.visible_mem (fun _ _ hg => hg)
      fun _ _ hg => .inl hg
    have hroots := hreached.reached
    rw [h.visible] at hroots
    exact ⟨{ M' with InsertedVisibleFEs := true }, by rw [hM']; rfl, hreached.visible, rfl,
      hreached.includees, hreached.visible_mem, hroots, hreached.reported⟩

theorem Reached.HandleIncludeDirective (h : Reached nodes R M)
    (hfuel : nodes.length < fuel) {File : FileEntry} (hmem : File ∈ nodes)
    (FE : Option FileEntry) :
    ∃ M', M.HandleIncludeDirective fuel File FE = some M' ∧
      Reached nodes (R.step (.HandleIncludeDirective File FE : Op FileEntry Loc)) M' := by
  cases FE with
  | none => exact h.includeFile hfuel hmem
  | some FE =>
    obtain ⟨M₁, hM₁, h₁⟩ := h.insertVisibleFEs hfuel
    let linked := Function.update M₁.IncludeesMap FE (M₁.IncludeesMap FE ++ [File])
    have hself : linked FE = M₁.IncludeesMap FE ++ [File] := update_self ..
    have hother : ∀ f, f ≠ FE → linked f = M₁.IncludeesMap f :=
      fun f hf => update_of_ne hf ..
    have hgrows : ∀ f, ∀ g ∈ M₁.IncludeesMap f, g ∈ linked f := by
      intro f g hg
      by_cases hf : f = FE
      · rw [hf] at hg
        rw [hf, hself]
        exact mem_append_left _ hg
      · rwa [hother f hf]
    have hnew : ∀ f, ∀ g ∈ linked f, g ∈ M₁.IncludeesMap f ∨ g ∈ [File] := by
      intro f g hg
      by_cases hf : f = FE
      · rw [hf, hself] at hg
        rw [hf]
        exact mem_append.mp hg
      · exact .inl (by rwa [hother f hf] at hg)
    obtain ⟨M', hM', hreached⟩ := h₁.includeFiles hfuel (by simpa using hmem) hgrows hnew
    refine ⟨M', ?_, hreached⟩
    unfold CachingIncludeManager.HandleIncludeDirective includeFrom
    rw [hM₁]
    simpa using hM'

theorem foldl_erase (FileEntries : List FileEntry) (M : CachingIncludeManager FileEntry Loc) :
    (FileEntries.foldl erase M).VisibleFEs = M.VisibleFEs ∧
      ∀ f, (FileEntries.foldl erase M).IncludeesMap f =
        if f ∈ FileEntries then [] else M.IncludeesMap f := by
  induction FileEntries generalizing M with
  | nil => exact ⟨rfl, fun f => (if_neg not_mem_nil).symm⟩
  | cons FE rest ih =>
    obtain ⟨hvisible, hmap⟩ := ih (M.erase FE)
    refine ⟨hvisible, fun f => ?_⟩
    rw [foldl_cons, hmap]
    by_cases hrest : f ∈ rest
    · rw [if_pos hrest, if_pos (mem_cons_of_mem _ hrest)]
    · rw [if_neg hrest]
      by_cases hf : f = FE
      · rw [hf, if_pos mem_cons_self]
        exact update_self ..
      · rw [if_neg (by simp [hf, hrest])]
        exact update_of_ne hf ..

theorem Reached.newCompilation (h : Reached nodes R M) (FileEntries : List FileEntry) :
    Reached nodes (R.step (.newCompilation FileEntries : Op FileEntry Loc))
      (M.eraseFileEntries FileEntries).reset := by
  obtain ⟨hvisible, hmap⟩ := foldl_erase FileEntries
    { M with VisibleFEs := M.VisibleFEs.filter fun FE => FE ∉ FileEntries }
  refine ⟨?_, rfl, fun f g hg => ?_, fun f hf => ?_, fun f => ?_, fun f => ?_⟩
  · show (M.eraseFileEntries FileEntries).VisibleFEs = R.VisibleFEs.filter _
    rw [← h.visible]
    exact hvisible
  · replace hg : g ∈ (M.eraseFileEntries FileEntries).IncludeesMap f := hg
    unfold eraseFileEntries at hg
    rw [hmap] at hg
    split at hg
    · exact absurd hg not_mem_nil
    · exact h.includees f g hg
  · replace hf : f ∈ (M.eraseFileEntries FileEntries).VisibleFEs := hf
    unfold eraseFileEntries at hf
    rw [hvisible] at hf
    exact h.visible_mem f (mem_filter.mp hf).1
  · simp [reset, Roots.step]
  · simp [reset]

theorem Reached.step (h : Reached nodes R M) (hfuel : nodes.length < fuel)
    {op : Op FileEntry Loc} (hmem : ∀ f ∈ op.files, f ∈ nodes) :
    ∃ M', CachingIncludeManager.step fuel M op = some M' ∧ Reached nodes (R.step op) M' := by
  cases op with
  | macroDefined FE =>
    refine ⟨_, rfl, ?_, h.inserted, h.includees, fun f hf => ?_, h.reached, h.reported⟩
    · exact congrArg (fun fes => SetVector.insert fes FE) h.visible
    · rcases (SetVector.mem_insert _ _ _).mp hf with hf | rfl
      · exact h.visible_mem f hf
      · exact hmem _ (mem_singleton_self _)
  | setLocForStartOfFile FE SL | addPPCallbacks =>
    exact ⟨_, rfl, h.visible, h.inserted, h.includees, h.visible_mem, h.reached, h.reported⟩
  | EnterMainSourceFile FE => exact h.includeFile hfuel (hmem FE (mem_singleton_self _))
  | HandleIncludeDirective File FE =>
    exact h.HandleIncludeDirective hfuel (hmem File (mem_singleton_self _)) FE
  | newCompilation FileEntries => exact ⟨_, rfl, h.newCompilation FileEntries⟩

theorem Reached.foldlM_step (h : Reached nodes R M) (hfuel : nodes.length < fuel)
    {ops : List (Op FileEntry Loc)} (hmem : ∀ op ∈ ops, ∀ f ∈ op.files, f ∈ nodes) :
    ∃ M', ops.foldlM (CachingIncludeManager.step fuel) M = some M' ∧
      Reached nodes (ops.foldl Roots.step R) M' := by
  induction ops generalizing R M with
  | nil => exact ⟨M, rfl, h⟩
  | cons op ops ih =>
    obtain ⟨M₁, hM₁, h₁⟩ := h.step hfuel (hmem op mem_cons_self)
    obtain ⟨M', hM', h'⟩ := ih h₁ fun op' hop => hmem op' (mem_cons_of_mem _ hop)
    refine ⟨M', ?_, h'⟩
    rw [foldlM_cons, hM₁]
    exact hM'

/-- After any operations, the files that count as included are the ones that are reached from the
files that were included in this compilation. The set is closed under the map, and each of its
files was reported once. -/
theorem includes_reachable (ops : List (Op FileEntry Loc))
    (hfuel : (ops.flatMap Op.files).length < fuel) :
    ∃ M, run fuel ops = some M ∧
      (∀ f, f ∈ M.Includes ↔ ∃ r ∈ (rootsOf ops).files, Path M.IncludeesMap r f) ∧
      (∀ f ∈ M.Includes, ∀ g ∈ M.IncludeesMap f, g ∈ M.Includes) ∧
      ∀ f, M.calls.countP (reports f) = if f ∈ M.Includes then 1 else 0 := by
  have hnew : Reached (ops.flatMap Op.files) ⟨[], false, []⟩
      (new : CachingIncludeManager FileEntry Loc) :=
    ⟨rfl, rfl, by simp [new], by simp [new], by simp [new], by simp [new]⟩
  obtain ⟨M, hM, h⟩ := hnew.foldlM_step hfuel
    fun op hop f hf => mem_flatMap.mpr ⟨op, hop, hf⟩
  exact ⟨M, hM, h.reached, fun f hf g hg => h.closed hf hg, h.reported⟩

/-- Two headers that include each other. In the next compilation one of them was unloaded. -/
def cyclicHeaders : List (Op Nat Unit) :=
  [.EnterMainSourceFile 0, .HandleIncludeDirective 1 (some 0), .HandleIncludeDirective 2 (some 1),
    .HandleIncludeDirective 1 (some 2), .newCompilation [0, 2], .EnterMainSourceFile 0,
    .HandleIncludeDirective 1 (some 0)]

/-- The header that was unloaded is still included by the other one. -/
theorem includes_reachable_cyclicHeaders :
    ∃ M, run 7 cyclicHeaders = some M ∧
      (∀ f, f ∈ M.Includes ↔ ∃ r ∈ (rootsOf cyclicHeaders).files, Path M.IncludeesMap r f) ∧
      (∀ f ∈ M.Includes, ∀ g ∈ M.IncludeesMap f, g ∈ M.Includes) ∧
      ∀ f, M.calls.countP (reports f) = if f ∈ M.Includes then 1 else 0 :=
  includes_reachable cyclicHeaders (by decide)

end Zapcc.Lex.CachingIncludeManager
