import Mathlib.Data.List.Dedup
import Zapcc.Library.LinkedList

/-!
# Declarations of contexts

What the unloader does to the lists of declarations of a context. The main results are
`unloadDeclContexts_spec`, by which the chain of a context loses exactly the declarations that are
unloaded, and `ReplaceDeclInMap_spec`, by which a declaration is replaced in the lookup table of
every context that is walked.
-/

namespace Zapcc.Unload

open LinkedList Function List Option

variable {DeclContext Decl : Type*}

/-! ## Chains -/

/-- The chains of declarations, and the contexts that they belong to. -/
structure DeclChains (DeclContext Decl : Type*) where
  NextDeclInContext : Decl → Option Decl
  FirstDecl : DeclContext → Option Decl
  LastDecl : DeclContext → Option Decl

section Unload

variable [DecidableEq DeclContext] [DecidableEq Decl] (dead : Decl → Bool)

/-- The loop over the chain of a context, with `First` and `Prev` at its end. There is no result
when it writes through a null pointer, or when the fuel runs out. -/
def filterLoop : Nat → Option Decl → Option Decl → Option Decl → (Decl → Option Decl) →
    Option (Option Decl × Option Decl × (Decl → Option Decl))
  | 0, _, _, _, _ => none
  | _ + 1, First, Prev, none, next => some (First, Prev, next)
  | fuel + 1, First, Prev, some Node, next =>
    let Next := next Node
    if dead Node then
      if First = some Node then filterLoop fuel Next Prev Next (update next Node none)
      else
        match Prev with
        | none => none
        | some P => filterLoop fuel First Prev Next (update (update next P Next) Node none)
    else filterLoop fuel First (some Node) Next next

def unloadDeclContext (fuel : Nat) (s : DeclChains DeclContext Decl) (DC : DeclContext) :
    Option (DeclChains DeclContext Decl) :=
  match filterLoop dead fuel (s.FirstDecl DC) none (s.FirstDecl DC) s.NextDeclInContext with
  | none => none
  | some (First, Prev, next) =>
    some ⟨next, update s.FirstDecl DC First, update s.LastDecl DC Prev⟩

/-- The first pass of `unloadDeclContexts`. -/
def collectDeclContexts (ExternCContextDecl : DeclContext)
    (getLexicalDeclContext : Decl → Option DeclContext) (Visited : List Decl) : List DeclContext :=
  (ExternCContextDecl :: Visited.filterMap getLexicalDeclContext).dedup

/-- The second pass, over the contexts in some order. The bit of a declaration is set exactly if it
is visited. -/
def unloadDeclContexts (fuel : Nat) (Visited : List Decl) (DCs : List DeclContext)
    (s : DeclChains DeclContext Decl) : Option (DeclChains DeclContext Decl) :=
  DCs.foldlM (unloadDeclContext (· ∈ Visited) fuel) s

variable {dead} {next : Decl → Option Decl} {First : Option Decl} {fuel : Nat}
  {kept rest : List Decl} {decls : DeclContext → List Decl} {s : DeclChains DeclContext Decl}

theorem filterLoop_spec (h : Linked next First (kept ++ rest)) (hnodup : (kept ++ rest).Nodup)
    (hfuel : rest.length < fuel) :
    ∃ First' Last' next', filterLoop dead fuel First kept.getLast? rest.head? next =
        some (First', Last', next') ∧
      Linked next' First' (kept ++ rest.filter (!dead ·)) ∧
      Last' = (kept ++ rest.filter (!dead ·)).getLast? ∧
      (∀ D ∈ rest, dead D → next' D = none) ∧ ∀ D ∉ kept ++ rest, next' D = next D := by
  induction rest generalizing next First kept fuel with
  | nil =>
    obtain ⟨fuel, rfl⟩ : ∃ n, fuel = n + 1 := ⟨fuel - 1, by simp at hfuel; omega⟩
    exact ⟨_, _, _, rfl, by simpa using h, by simp, fun D hD => absurd hD not_mem_nil,
      fun _ _ => rfl⟩
  | cons a rest ih =>
    obtain ⟨fuel, rfl⟩ : ∃ n, fuel = n + 1 := ⟨fuel - 1, by simp at hfuel; omega⟩
    have hNext : next a = rest.head? := h.suffix.start_eq
    have ha : a ∉ kept ++ rest := (nodup_middle.mp hnodup).notMem
    have hrest : (kept ++ rest).Nodup := (nodup_middle.mp hnodup).of_cons
    unfold filterLoop
    rw [head?_cons]
    dsimp only
    cases hdead : dead a with
    | false =>
      have hassoc : kept ++ a :: rest = kept ++ [a] ++ rest := append_cons ..
      rw [hassoc] at h hnodup
      obtain ⟨First', Last', next', hloop, hlinked, hlast, hnone, hframe⟩ :=
        ih h hnodup (Nat.lt_of_succ_lt_succ hfuel)
      rw [getLast?_concat, ← hNext] at hloop
      refine ⟨First', Last', next', hloop, ?_, ?_, fun D hD hD' => ?_, fun D hD => ?_⟩
      · rw [filter_cons_of_pos (by simp [hdead]), append_cons]
        exact hlinked
      · rw [filter_cons_of_pos (by simp [hdead]), append_cons]
        exact hlast
      · rcases mem_cons.mp hD with rfl | hD
        · exact absurd hD' (by simp [hdead])
        · exact hnone D hD hD'
      · exact hframe D (hassoc ▸ hD)
    | true =>
      have hdone : ∀ {First₁ next₁}, Linked next₁ First₁ (kept ++ rest) → next₁ a = none →
          (∀ D ∉ kept ++ a :: rest, next₁ D = next D) →
          ∃ First' Last' next', filterLoop dead fuel First₁ kept.getLast? (next a) next₁ =
              some (First', Last', next') ∧
            Linked next' First' (kept ++ (a :: rest).filter (!dead ·)) ∧
            Last' = (kept ++ (a :: rest).filter (!dead ·)).getLast? ∧
            (∀ D ∈ a :: rest, dead D → next' D = none) ∧
            ∀ D ∉ kept ++ a :: rest, next' D = next D := by
        intro First₁ next₁ h₁ hnone₁ hframe₁
        obtain ⟨First', Last', next', hloop, hlinked, hlast, hnone, hframe⟩ :=
          ih h₁ hrest (Nat.lt_of_succ_lt_succ hfuel)
        rw [← hNext] at hloop
        rw [filter_cons_of_neg (by simp [hdead])]
        refine ⟨First', Last', next', hloop, hlinked, hlast, fun D hD hD' => ?_, fun D hD => ?_⟩
        · rcases mem_cons.mp hD with rfl | hD
          · exact (hframe D ha).trans hnone₁
          · exact hnone D hD hD'
        · refine (hframe D fun hmem => hD ?_).trans (hframe₁ D hD)
          exact mem_append.mpr ((mem_append.mp hmem).imp_right (mem_cons_of_mem _))
      have houtside : ∀ {D}, D ∉ kept ++ a :: rest → D ≠ a := fun hD heq => hD (by simp [heq])
      rcases eq_nil_or_concat' kept with rfl | ⟨before, P, rfl⟩
      · rw [if_pos (show First = some a from h.start_eq)]
        exact hdone (h.tail.update_of_notMem (by simpa using ha)) (update_self ..)
          fun D hD => update_of_ne (houtside hD) ..
      · rw [append_assoc] at h hnodup
        rw [getLast?_concat] at hdone ⊢
        rw [if_neg (h.start_ne hnodup)]
        have hP : ∀ {D}, D ∉ before ++ [P] ++ a :: rest → D ≠ P := fun hD heq => hD (by simp [heq])
        refine hdone ?_ (update_self ..) fun D hD => ?_
        · refine Linked.update_of_notMem ?_ ha
          rw [append_assoc]
          exact h.unlink hnodup
        · rw [update_of_ne (houtside hD), update_of_ne (hP hD)]

/-- The chain of a context is the original one without the dead declarations, which are unlinked. -/
structure Filtered (dead : Decl → Bool) (decls : List Decl) (s : DeclChains DeclContext Decl)
    (DC : DeclContext) : Prop where
  linked : Linked s.NextDeclInContext (s.FirstDecl DC) (decls.filter (!dead ·))
  first : s.FirstDecl DC = (decls.filter (!dead ·)).head?
  last : s.LastDecl DC = (decls.filter (!dead ·)).getLast?
  unlinked : ∀ D ∈ decls, dead D → s.NextDeclInContext D = none

/-- Contexts have chains, which share no declaration. -/
structure Chained (s : DeclChains DeclContext Decl) (decls : DeclContext → List Decl)
    (DCs : List DeclContext) : Prop where
  linked : ∀ DC ∈ DCs, Linked s.NextDeclInContext (s.FirstDecl DC) (decls DC)
  nodup : ∀ DC ∈ DCs, (decls DC).Nodup
  disjoint : ∀ DC ∈ DCs, ∀ DC' ∈ DCs, DC ≠ DC' → (decls DC).Disjoint (decls DC')

theorem unloadDeclContext_spec (dead : Decl → Bool) {DC : DeclContext}
    (h : Linked s.NextDeclInContext (s.FirstDecl DC) (decls DC)) (hnodup : (decls DC).Nodup)
    (hfuel : (decls DC).length < fuel) :
    ∃ s', unloadDeclContext dead fuel s DC = some s' ∧ Filtered dead (decls DC) s' DC ∧
      (∀ D ∉ decls DC, s'.NextDeclInContext D = s.NextDeclInContext D) ∧
      ∀ DC' ≠ DC, s'.FirstDecl DC' = s.FirstDecl DC' ∧ s'.LastDecl DC' = s.LastDecl DC' := by
  obtain ⟨First, Last, next, hloop, hlinked, hlast, hnone, hframe⟩ :=
    @filterLoop_spec _ _ dead _ _ fuel [] (decls DC) h hnodup hfuel
  rw [← h.start_eq] at hloop
  refine ⟨⟨next, update s.FirstDecl DC First, update s.LastDecl DC Last⟩, ?_, ⟨?_, ?_, ?_, hnone⟩,
    hframe, fun DC' hne => ⟨update_of_ne hne .., update_of_ne hne ..⟩⟩
  · unfold unloadDeclContext
    rw [show filterLoop _ _ _ none _ _ = _ from hloop]
  · show Linked next (update s.FirstDecl DC First DC) _
    rw [update_self]
    exact hlinked
  · exact (update_self ..).trans hlinked.start_eq
  · exact (update_self ..).trans hlast

theorem secondPass_spec {Visited : List Decl} {DCs : List DeclContext} (h : Chained s decls DCs)
    (hDCs : DCs.Nodup) (hfuel : ∀ DC ∈ DCs, (decls DC).length < fuel) :
    ∃ s', unloadDeclContexts fuel Visited DCs s = some s' ∧
      (∀ DC ∈ DCs, Filtered (· ∈ Visited) (decls DC) s' DC) ∧
      (∀ D, (∀ DC ∈ DCs, D ∉ decls DC) → s'.NextDeclInContext D = s.NextDeclInContext D) ∧
      ∀ DC ∉ DCs, s'.FirstDecl DC = s.FirstDecl DC ∧ s'.LastDecl DC = s.LastDecl DC := by
  induction DCs generalizing s with
  | nil => exact ⟨s, rfl, fun _ h => absurd h not_mem_nil, fun _ _ => rfl, fun _ _ => ⟨rfl, rfl⟩⟩
  | cons DC DCs ih =>
    obtain ⟨hDC, hDCs⟩ := nodup_cons.mp hDCs
    have hne : ∀ DC' ∈ DCs, DC' ≠ DC := fun DC' hmem heq => hDC (heq ▸ hmem)
    have hapart : ∀ DC' ∈ DCs, ∀ D ∈ decls DC', D ∉ decls DC := fun DC' hmem D hD hD' =>
      h.disjoint DC' (mem_cons_of_mem _ hmem) DC mem_cons_self (hne DC' hmem) hD hD'
    obtain ⟨s₁, hstep, hfiltered, hframe, hothers⟩ := unloadDeclContext_spec (· ∈ Visited)
      (h.linked DC mem_cons_self) (h.nodup DC mem_cons_self) (hfuel DC mem_cons_self)
    have h₁ : Chained s₁ decls DCs := by
      refine ⟨fun DC' hmem => ?_, fun DC' hmem => h.nodup DC' (mem_cons_of_mem _ hmem),
        fun DC₁ h₁ DC₂ h₂ => h.disjoint DC₁ (mem_cons_of_mem _ h₁) DC₂ (mem_cons_of_mem _ h₂)⟩
      rw [(hothers DC' (hne DC' hmem)).1]
      exact (h.linked DC' (mem_cons_of_mem _ hmem)).congr
        fun D hD => hframe D (hapart DC' hmem D hD)
    obtain ⟨s', hrun, hall, hframe', hothers'⟩ :=
      ih h₁ hDCs fun DC' hmem => hfuel DC' (mem_cons_of_mem _ hmem)
    refine ⟨s', by rw [unloadDeclContexts, foldlM_cons, hstep]; exact hrun, fun DC' hmem => ?_,
      fun D hD => ?_, fun DC' hmem => ?_⟩
    · rcases mem_cons.mp hmem with rfl | hmem
      · have hsame : ∀ D ∈ decls DC', s'.NextDeclInContext D = s₁.NextDeclInContext D :=
          fun D hD => hframe' D fun DC'' hmem hD' => hapart DC'' hmem D hD' hD
        obtain ⟨hfirst, hlast⟩ := hothers' DC' hDC
        refine ⟨?_, hfirst.trans hfiltered.first, hlast.trans hfiltered.last,
          fun D hD hdead => (hsame D hD).trans (hfiltered.unlinked D hD hdead)⟩
        rw [hfirst]
        exact hfiltered.linked.congr fun D hD => hsame D (mem_filter.mp hD).1
      · exact hall DC' hmem
    · rw [hframe' D fun DC' hmem => hD DC' (mem_cons_of_mem _ hmem)]
      exact hframe D (hD DC mem_cons_self)
    · obtain ⟨hne', hmem⟩ := not_or.mp (mt mem_cons.mpr hmem)
      obtain ⟨hfirst, hlast⟩ := hothers' DC' hmem
      exact ⟨hfirst.trans (hothers DC' hne').1, hlast.trans (hothers DC' hne').2⟩

/-- The chains of all collected contexts are filtered, in whatever order they are visited. -/
theorem unloadDeclContexts_spec (ExternCContextDecl : DeclContext)
    (getLexicalDeclContext : Decl → Option DeclContext) (Visited : List Decl)
    {DCs : List DeclContext}
    (hDCs : DCs.Perm (collectDeclContexts ExternCContextDecl getLexicalDeclContext Visited))
    (h : Chained s decls DCs) (hfuel : ∀ DC ∈ DCs, (decls DC).length < fuel) :
    ∃ s', unloadDeclContexts fuel Visited DCs s = some s' ∧
      ∀ DC ∈ DCs, Filtered (· ∈ Visited) (decls DC) s' DC := by
  obtain ⟨s', hrun, hfiltered, -⟩ :=
    secondPass_spec h (hDCs.nodup_iff.mpr (nodup_dedup _)) hfuel
  exact ⟨s', hrun, hfiltered⟩

/-- The extern context loses the first and the last of its three declarations. -/
theorem unloadDeclContexts_spec_three :
    let s : DeclChains Unit Nat :=
      ⟨fun D => if D < 3 then some (D + 1) else none, fun _ => some 1, fun _ => some 3⟩
    ∃ s', unloadDeclContexts 4 [3, 1] [()] s = some s' ∧
      ∀ DC ∈ [()], Filtered (· ∈ [3, 1]) [1, 2, 3] s' DC := by
  intro s
  have h : Chained s (fun _ => [1, 2, 3]) [()] :=
    ⟨fun _ _ => .cons (.cons (.cons .nil)), by decide, fun _ _ _ _ hne => absurd rfl hne⟩
  exact unloadDeclContexts_spec () (fun _ => some ()) [3, 1] (.refl _) h (by decide)

end Unload

/-! ## Lookup tables -/

/-- A null list, one declaration, or a vector. -/
inductive StoredDeclsList (NamedDecl : Type*) where
  | null
  | decl (D : NamedDecl)
  | vector (Decls : List NamedDecl)

/-- The contexts of a translation unit. A primary context is nested as deep as the context. -/
structure LookupContexts (DeclContext : Type*) where
  getPrimaryContext : DeclContext → DeclContext
  getParent : DeclContext → Option DeclContext
  isTransparentContext : DeclContext → Bool
  isNamespace : DeclContext → Bool
  depth : DeclContext → Nat
  depth_primary : ∀ DC, depth (getPrimaryContext DC) = depth DC
  depth_parent : ∀ DC P, getParent DC = some P → depth P < depth DC

abbrev LookupTables (DeclContext Name NamedDecl : Type*) :=
  DeclContext → Option (Name → Option (StoredDeclsList NamedDecl))

section Replace

variable {Name NamedDecl : Type*} [DecidableEq DeclContext] [DecidableEq Name]
  [DecidableEq NamedDecl]

namespace StoredDeclsList

def toList : StoredDeclsList NamedDecl → List NamedDecl
  | null => []
  | decl D => [D]
  | vector Decls => Decls

/-- What `ReplaceDeclInMapImpl` does to an entry. -/
def replace (OriginalND : NamedDecl) (ReplacementND : Option NamedDecl) :
    StoredDeclsList NamedDecl → StoredDeclsList NamedDecl
  | null => null
  | decl SDL1 =>
    if SDL1 ≠ OriginalND then decl SDL1
    else
      match ReplacementND with
      | some ND => decl ND
      | none => null
  | vector SDLV =>
    if OriginalND ∉ SDLV then vector SDLV
    else
      -- A replacement that is present is not put in again.
      match ReplacementND.filter (· ∉ SDLV) with
      | some ND => vector (SDLV.set (SDLV.idxOf OriginalND) ND)
      | none => vector (SDLV.erase OriginalND)

end StoredDeclsList

variable (C : LookupContexts DeclContext) (getDeclName : NamedDecl → Option Name)
  (OriginalND : NamedDecl) (ReplacementND : Option NamedDecl)

def ReplaceDeclInMapImpl (DC : DeclContext) (M : LookupTables DeclContext Name NamedDecl) :
    LookupTables DeclContext Name NamedDecl :=
  match getDeclName OriginalND with
  | none => M
  | some NDName =>
    match M DC with
    | none => M
    | some Map => update M DC (some (update Map NDName
        ((Map NDName).map (·.replace OriginalND ReplacementND))))

/-- The loop over contexts. There is no result when the fuel runs out. -/
def replaceLoop : Nat → DeclContext → LookupTables DeclContext Name NamedDecl →
    Option (LookupTables DeclContext Name NamedDecl)
  | 0, _, _ => none
  | fuel + 1, DC, M =>
    let DC := C.getPrimaryContext DC
    let M := ReplaceDeclInMapImpl getDeclName OriginalND ReplacementND DC M
    if C.isTransparentContext DC || C.isNamespace DC then
      match C.getParent DC with
      | some P => replaceLoop fuel P M
      | none => some M
    else some M

def ReplaceDeclInMap (getDeclContext : NamedDecl → DeclContext) (DC : Option DeclContext)
    (M : LookupTables DeclContext Name NamedDecl) :
    Option (LookupTables DeclContext Name NamedDecl) :=
  if some OriginalND = ReplacementND then some M
  else
    let DC := DC.getD (getDeclContext OriginalND)
    replaceLoop C getDeclName OriginalND ReplacementND (C.depth DC + 1) DC M

inductive Walked : DeclContext → DeclContext → Prop where
  | here {DC : DeclContext} : Walked DC (C.getPrimaryContext DC)
  | up {DC P DC' : DeclContext}
      (houter : C.isTransparentContext (C.getPrimaryContext DC) ∨
        C.isNamespace (C.getPrimaryContext DC))
      (hparent : C.getParent (C.getPrimaryContext DC) = some P) (h : Walked P DC') : Walked DC DC'

/-- The entry of the original declaration in a context. -/
def entry (M : LookupTables DeclContext Name NamedDecl) (DC : DeclContext) :
    Option (StoredDeclsList NamedDecl) :=
  (M DC).bind fun Map => (getDeclName OriginalND).bind Map

variable {C getDeclName OriginalND ReplacementND} {M M' : LookupTables DeclContext Name NamedDecl}
  {DC DC' : DeclContext} {SDL : StoredDeclsList NamedDecl} {l : List NamedDecl}

/-- What a list has beside the two declarations is as in `l`, and it has no duplicates. -/
structure KeepsOthers (OriginalND : NamedDecl) (ReplacementND : Option NamedDecl)
    (l l' : List NamedDecl) : Prop where
  nodup : l'.Nodup
  others : l'.filter (fun D => D ≠ OriginalND ∧ some D ≠ ReplacementND) =
    l.filter fun D => D ≠ OriginalND ∧ some D ≠ ReplacementND

theorem KeepsOthers.middle {before after : List NamedDecl} (new : List NamedDecl)
    (h : KeepsOthers OriginalND ReplacementND l (before ++ OriginalND :: after))
    (hnew : ∀ D ∈ new, some D = ReplacementND ∧ D ∉ before ++ OriginalND :: after)
    (hlength : new.length ≤ 1) :
    KeepsOthers OriginalND ReplacementND l (before ++ new ++ after) ∧
      OriginalND ∉ before ++ new ++ after := by
  obtain ⟨hO, hrest⟩ := nodup_cons.mp (nodup_middle.mp h.nodup)
  have hfilter : new.filter (fun D => D ≠ OriginalND ∧ some D ≠ ReplacementND) = [] := by
    refine filter_eq_nil_iff.mpr fun D hD => ?_
    simp [(hnew D hD).1]
  refine ⟨⟨?_, ?_⟩, fun hmem => ?_⟩
  · match new, hnew, hlength with
    | [], _, _ => simpa using hrest
    | [D], hnew, _ =>
      rw [append_assoc, singleton_append, nodup_middle, nodup_cons]
      refine ⟨fun hmem => (hnew D mem_cons_self).2 ?_, hrest⟩
      exact mem_append.mpr ((mem_append.mp hmem).imp_right (mem_cons_of_mem _))
  · rw [← h.others, filter_append, filter_append, filter_append, hfilter, append_nil,
      filter_cons_of_neg (by simp)]
  · rcases mem_append.mp hmem with hmem | hmem
    · rcases mem_append.mp hmem with hmem | hmem
      · exact hO (mem_append_left _ hmem)
      · exact (hnew _ hmem).2 (by simp)
    · exact hO (mem_append_right _ hmem)

theorem KeepsOthers.replace (hne : some OriginalND ≠ ReplacementND)
    (h : KeepsOthers OriginalND ReplacementND l SDL.toList) :
    KeepsOthers OriginalND ReplacementND l (SDL.replace OriginalND ReplacementND).toList ∧
      OriginalND ∉ (SDL.replace OriginalND ReplacementND).toList := by
  cases SDL with
  | null => exact ⟨h, not_mem_nil⟩
  | decl D =>
    by_cases heq : D = OriginalND
    · subst heq
      have h' : KeepsOthers D ReplacementND l ([] ++ D :: []) := h
      cases ReplacementND with
      | none =>
        simpa [StoredDeclsList.replace, StoredDeclsList.toList] using
          h'.middle [] (by simp) (by simp)
      | some ND =>
        have hND : ND ≠ D := fun heq => hne (heq ▸ rfl)
        simpa [StoredDeclsList.replace, StoredDeclsList.toList] using
          h'.middle [ND] (by simp [hND]) (by simp)
    · simp only [StoredDeclsList.replace, if_pos heq]
      exact ⟨h, by simpa [StoredDeclsList.toList] using Ne.symm heq⟩
  | vector V =>
    dsimp only [StoredDeclsList.replace]
    by_cases hmem : OriginalND ∈ V
    · obtain ⟨before, after, rfl, hbefore⟩ := eq_append_cons_of_mem hmem
      cases hpresent : ReplacementND.filter (· ∉ before ++ OriginalND :: after) with
      | none =>
        have herase : (before ++ OriginalND :: after).erase OriginalND = before ++ after := by
          rw [erase_append_right _ hbefore, erase_cons_head]
        simpa [StoredDeclsList.toList, herase] using h.middle [] (by simp) (by simp)
      | some ND =>
        obtain ⟨rfl, hND⟩ := filter_eq_some_iff.mp hpresent
        have hset : (before ++ OriginalND :: after).set
            ((before ++ OriginalND :: after).idxOf OriginalND) ND = before ++ ND :: after := by
          rw [idxOf_append_of_notMem hbefore, idxOf_cons_self, set_append_right _ _ (by simp)]
          simp
        simpa [StoredDeclsList.toList, hset] using
          h.middle [ND] (by simpa using hND) (by simp)
    · rw [if_pos hmem]
      exact ⟨h, hmem⟩

theorem entry_ReplaceDeclInMapImpl (DC' : DeclContext) :
    entry getDeclName OriginalND
        (ReplaceDeclInMapImpl getDeclName OriginalND ReplacementND DC M) DC' =
      if DC' = DC then
        (entry getDeclName OriginalND M DC).map (·.replace OriginalND ReplacementND)
      else entry getDeclName OriginalND M DC' := by
  unfold entry ReplaceDeclInMapImpl
  cases hname : getDeclName OriginalND with
  | none => split_ifs <;> simp
  | some NDName =>
    cases hmap : M DC with
    | none =>
      split_ifs with heq
      · simp [heq, hmap]
      · rfl
    | some Map =>
      split_ifs with heq
      · simp [heq]
      · simp [update_of_ne heq]

theorem replaceLoop_spec (hne : some OriginalND ≠ ReplacementND) {fuel : Nat}
    (hfuel : C.depth DC < fuel) :
    ∃ M', replaceLoop C getDeclName OriginalND ReplacementND fuel DC M = some M' ∧
      ∀ DC' SDL l, entry getDeclName OriginalND M DC' = some SDL →
        KeepsOthers OriginalND ReplacementND l SDL.toList →
        ∃ SDL', entry getDeclName OriginalND M' DC' = some SDL' ∧
          KeepsOthers OriginalND ReplacementND l SDL'.toList ∧
          (Walked C DC DC' ∨ OriginalND ∉ SDL.toList → OriginalND ∉ SDL'.toList) := by
  induction fuel generalizing DC M with
  | zero => omega
  | succ fuel ih =>
    let M₁ := ReplaceDeclInMapImpl getDeclName OriginalND ReplacementND (C.getPrimaryContext DC) M
    have hstep : ∀ DC' SDL l, entry getDeclName OriginalND M DC' = some SDL →
        KeepsOthers OriginalND ReplacementND l SDL.toList →
        ∃ SDL₁, entry getDeclName OriginalND M₁ DC' = some SDL₁ ∧
          KeepsOthers OriginalND ReplacementND l SDL₁.toList ∧
          (DC' = C.getPrimaryContext DC ∨ OriginalND ∉ SDL.toList → OriginalND ∉ SDL₁.toList) := by
      intro DC' SDL l hentry h
      rw [entry_ReplaceDeclInMapImpl]
      split_ifs with heq
      · subst heq
        rw [hentry]
        exact ⟨_, rfl, (h.replace hne).1, fun _ => (h.replace hne).2⟩
      · exact ⟨SDL, hentry, h, fun h' => h'.resolve_left heq⟩
    unfold replaceLoop
    dsimp only
    have hstop : (∀ P, C.getParent (C.getPrimaryContext DC) = some P →
        ¬ (C.isTransparentContext (C.getPrimaryContext DC) ∨
          C.isNamespace (C.getPrimaryContext DC))) →
        ∀ DC', Walked C DC DC' → DC' = C.getPrimaryContext DC := by
      intro hlast DC' hwalked
      cases hwalked with
      | here => rfl
      | up houter hparent _ => exact absurd houter (hlast _ hparent)
    split_ifs with houter
    · cases hparent : C.getParent (C.getPrimaryContext DC) with
      | none =>
        refine ⟨M₁, rfl, fun DC' SDL l hentry h => ?_⟩
        obtain ⟨SDL₁, hentry₁, h₁, hgone⟩ := hstep DC' SDL l hentry h
        exact ⟨SDL₁, hentry₁, h₁, fun h' => hgone (h'.imp_left (hstop (by simp [hparent]) DC'))⟩
      | some P =>
        have hdepth := C.depth_parent _ _ hparent
        rw [C.depth_primary] at hdepth
        obtain ⟨M', hloop, hall⟩ := @ih M₁ P (by omega)
        refine ⟨M', hloop, fun DC' SDL l hentry h => ?_⟩
        obtain ⟨SDL₁, hentry₁, h₁, hgone⟩ := hstep DC' SDL l hentry h
        obtain ⟨SDL', hentry', h', hgone'⟩ := hall DC' SDL₁ l hentry₁ h₁
        refine ⟨SDL', hentry', h', fun hcase => hgone' ?_⟩
        rcases hcase with hwalked | hgone₀
        · cases hwalked with
          | here => exact .inr (hgone (.inl rfl))
          | up _ hparent' hwalked =>
            obtain rfl := Option.some.inj (hparent.symm.trans hparent')
            exact .inl hwalked
        · exact .inr (hgone (.inr hgone₀))
    · rw [Bool.or_eq_true] at houter
      refine ⟨M₁, rfl, fun DC' SDL l hentry h => ?_⟩
      obtain ⟨SDL₁, hentry₁, h₁, hgone⟩ := hstep DC' SDL l hentry h
      exact ⟨SDL₁, hentry₁, h₁, fun h' => hgone (h'.imp_left (hstop (fun _ _ => houter) DC'))⟩

/-- In every context that is walked, the original declaration is gone from its entry, the
replacement is there once at most, and the others are as they were. Nothing is walked to replace a
declaration with itself. -/
theorem ReplaceDeclInMap_spec (C : LookupContexts DeclContext)
    (getDeclName : NamedDecl → Option Name) (getDeclContext : NamedDecl → DeclContext)
    (OriginalND : NamedDecl) (ReplacementND : Option NamedDecl) (DC : Option DeclContext)
    (M : LookupTables DeclContext Name NamedDecl) :
    ∃ M', ReplaceDeclInMap C getDeclName OriginalND ReplacementND getDeclContext DC M = some M' ∧
      ∀ DC' SDL, some OriginalND ≠ ReplacementND →
        Walked C (DC.getD (getDeclContext OriginalND)) DC' →
        entry getDeclName OriginalND M DC' = some SDL → SDL.toList.Nodup →
        ∃ SDL', entry getDeclName OriginalND M' DC' = some SDL' ∧ OriginalND ∉ SDL'.toList ∧
          (∀ ND ∈ ReplacementND, SDL'.toList.count ND ≤ 1) ∧
          SDL'.toList.filter (fun D => D ≠ OriginalND ∧ some D ≠ ReplacementND) =
            SDL.toList.filter fun D => D ≠ OriginalND ∧ some D ≠ ReplacementND := by
  unfold ReplaceDeclInMap
  split_ifs with hsame
  · exact ⟨M, rfl, fun _ _ hne => absurd hsame hne⟩
  · obtain ⟨M', hloop, hall⟩ := @replaceLoop_spec _ _ _ _ _ _ C getDeclName OriginalND ReplacementND
      M (DC.getD (getDeclContext OriginalND)) hsame _ (Nat.lt_succ_self _)
    refine ⟨M', hloop, fun DC' SDL _ hwalked hentry hnodup => ?_⟩
    obtain ⟨SDL', hentry', h', hgone⟩ := hall DC' SDL _ hentry ⟨hnodup, rfl⟩
    exact ⟨SDL', hentry', hgone (.inl hwalked), fun ND _ => nodup_iff_count_le_one.mp h'.nodup ND,
      h'.others⟩

end Replace

end Zapcc.Unload
