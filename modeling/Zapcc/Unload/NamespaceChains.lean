import Zapcc.Unload.VisitNamespaceDecl

/-!
# The chains of namespaces while namespaces are unloaded

Each namespace has a chain of declarations. Whatever declarations are unloaded, in any order and
with the namespaces inside them, the first declaration that remains holds what the first one held,
the others lead to it, and the namespace `std` is found as long as a declaration of it remains:
`unloadDecls_consistent`.
-/

namespace Zapcc.Unload

open LinkedList AST List Function

/-- The namespaces before anything is unloaded. `chain` has the declarations of each namespace, the
latest one first, `anonymous` the anonymous namespace that each namespace and the translation unit
lead to, and `lookup` the lookup tables. -/
structure NamespaceForest (Decl DeclContext Namespace StoredDeclsMap : Type) extends
    NamespaceContexts Decl DeclContext where
  namespaceOf : Decl → Namespace
  chain : Namespace → List Decl
  mem_chain : ∀ d N, d ∈ chain N ↔ namespaceOf d = N
  nodup_chain : ∀ N, (chain N).Nodup
  mem_decls : ∀ d m, m ∈ decls d ↔ getRedeclContext m = some d
  /-- Redeclarations are in redeclarations of the same namespace. -/
  context_eq : ∀ d e, namespaceOf d = namespaceOf e →
    (getRedeclContext d).map namespaceOf = (getRedeclContext e).map namespaceOf
  /-- Namespaces are nested. -/
  height : Namespace → Nat
  height_lt : ∀ d m, getRedeclContext m = some d → height (namespaceOf m) < height (namespaceOf d)
  anonymous : Option Namespace → Option Decl
  anonymous_context : ∀ P a, anonymous P = some a → (getRedeclContext a).map namespaceOf = P
  lookup : Namespace → Option StoredDeclsMap
  std : Namespace

variable {Decl DeclContext Namespace StoredDeclsMap : Type}

namespace NamespaceForest

section Remaining

variable (T : NamespaceForest Decl DeclContext Namespace StoredDeclsMap) {gone : Decl → Bool}

/-- The declarations that are left of a namespace. -/
def remaining (gone : Decl → Bool) (N : Namespace) : List Decl :=
  (T.chain N).filter fun d => !gone d

variable {T} {NSD : Decl}

variable {d : Decl} {visited : Decl → Bool} {later : List Decl} {fuel : Nat}

theorem mem_remaining {N : Namespace} :
    d ∈ T.remaining gone N ↔ T.namespaceOf d = N ∧ gone d = false := by
  simp [remaining, T.mem_chain]

theorem remaining_split (hnot : gone NSD = false) :
    ∃ later earlier, T.chain (T.namespaceOf NSD) = later ++ NSD :: earlier ∧
      T.remaining gone (T.namespaceOf NSD) =
        (later.filter fun d => !gone d) ++ NSD :: earlier.filter fun d => !gone d := by
  obtain ⟨later, earlier, hchain⟩ :=
    append_of_mem ((T.mem_chain NSD (T.namespaceOf NSD)).mpr rfl)
  refine ⟨later, earlier, hchain, ?_⟩
  rw [remaining, hchain, filter_append, filter_cons_of_pos (by simp [hnot])]

end Remaining

variable [DecidableEq Decl]

theorem find?_update {x : Decl} {L : List Decl} (hnodup : L.Nodup)
    (hx : visited x = false) :
    (L.find? (fun d => !visited d) ≠ some x →
      L.find? (fun d => !update visited x true d) = L.find? fun d => !visited d) ∧
    ∀ before after, L = before ++ x :: after → L.find? (fun d => !visited d) = some x →
      L.find? (fun d => !update visited x true d) = after.find? fun d => !visited d := by
  have hother : ∀ {M : List Decl}, x ∉ M →
      M.find? (fun d => !update visited x true d) = M.find? fun d => !visited d := by
    intro M hM
    induction M with
    | nil => rfl
    | cons y M ih =>
      have hy : y ≠ x := fun h => hM (h ▸ mem_cons_self)
      rw [find?_cons, find?_cons, update_of_ne hy, ih fun h => hM (mem_cons_of_mem _ h)]
  constructor
  · intro hne
    cases hfind : L.find? (fun d => !visited d) with
    | none =>
      refine (hother fun hmem => ?_).trans hfind
      have hvisited := List.find?_eq_none.mp hfind x hmem
      simp [hx] at hvisited
    | some y =>
      have hyx : y ≠ x := fun h => hne (h ▸ hfind)
      obtain ⟨hy, before, after, rfl, hbefore⟩ := List.find?_eq_some_iff_append.mp hfind
      refine List.find?_eq_some_iff_append.mpr ⟨?_, before, after, rfl, fun z hz => ?_⟩
      · rwa [update_of_ne hyx]
      · by_cases hzx : z = x
        · rw [hzx, update_self]
          rfl
        · rw [update_of_ne hzx]
          exact hbefore z hz
  · rintro before after rfl hfind
    obtain ⟨-, before', after', heq, hbefore⟩ := List.find?_eq_some_iff_append.mp hfind
    obtain ⟨-, hnodup', hdisjoint⟩ := List.nodup_append.mp hnodup
    have hafter : x ∉ after := (List.nodup_cons.mp hnodup').1
    have hnotBefore : x ∉ before := fun h => hdisjoint x h x mem_cons_self rfl
    obtain ⟨rfl, -, rfl⟩ := (append_cons_inj_of_notMem hnotBefore hafter).mp heq
    rw [find?_append, find?_cons, update_self, ← hother hafter]
    have hnone : before.find? (fun d => !update visited x true d) = none := by
      rw [find?_eq_none]
      intro z hz
      by_cases hzx : z = x
      · rw [hzx, update_self]
        simp
      · rw [update_of_ne hzx]
        simpa using hbefore z hz
    rw [hnone]
    rfl

variable (T : NamespaceForest Decl DeclContext Namespace StoredDeclsMap)

/-- The anonymous namespace that a namespace leads to in the end: the one that it led to, or else
the latest one before it that is left. -/
def anonymousLeft (visited : Decl → Bool) (P : Option Namespace) : Option Decl :=
  (T.anonymous P).bind fun a =>
    ((T.chain (T.namespaceOf a)).dropWhile fun d => d ≠ a).find? fun d => !visited d

/-- The declarations inside a namespace, and the namespace itself. -/
def Encloses : Decl → Decl → Prop := Relation.ReflTransGen fun d m => m ∈ T.decls d

/-- The declarations that are not gone are consistent. Each chain is closed, its first declaration
holds the anonymous namespace and the lookup table, and the later ones lead to it. The namespace
`std` is found if a declaration of it is left. -/
structure Consistent (gone : Decl → Bool) (s : NamespaceState Decl StoredDeclsMap) : Prop where
  wellFormed : ∀ N, WellFormed s.redeclarables (T.remaining gone N)
  first : ∀ N later first, T.remaining gone N = later ++ [first] →
    s.AnonOrFirstNamespace first = T.anonymousLeft s.Visited (some N) ∧
      s.LookupPtr first = T.lookup N ∧
      ∀ d ∈ later, s.AnonOrFirstNamespace d = some first ∧ s.LookupPtr d = none
  translationUnit : s.AnonymousNamespace = T.anonymousLeft s.Visited none
  std : ∀ d, s.StdNamespace = some d → d ∈ T.remaining gone T.std
  std_none : s.StdNamespace = none → T.remaining gone T.std = []
  context : ∀ d p, T.getRedeclContext d = some p → gone d = false → gone p = false

variable {T} {gone : Decl → Bool} {s : NamespaceState Decl StoredDeclsMap} {NSD : Decl}

theorem setStdNamespace_spec (s : NamespaceState Decl StoredDeclsMap) (NSD : Decl)
    (std : Option Decl) : ∃ t : NamespaceState Decl StoredDeclsMap,
      (if s.StdNamespace = some NSD then { s with StdNamespace := std } else s) = t ∧
      t.redeclarables = s.redeclarables ∧ t.AnonymousNamespace = s.AnonymousNamespace ∧
      t.Visited = s.Visited ∧
      t.StdNamespace = (if s.StdNamespace = some NSD then std else s.StdNamespace) ∧
      t.AnonOrFirstNamespace = s.AnonOrFirstNamespace ∧ t.LookupPtr = s.LookupPtr := by
  refine ⟨_, rfl, ?_⟩
  split
  · exact ⟨rfl, rfl, rfl, rfl, rfl, rfl⟩
  · exact ⟨rfl, rfl, rfl, rfl, rfl, rfl⟩

theorem anonymousLeft_spec {P : Option Namespace} {a : Decl}
    (h : T.anonymousLeft visited P = some a) :
    visited a = false ∧ (T.getRedeclContext a).map T.namespaceOf = P := by
  obtain ⟨b, hb, hfind⟩ := Option.bind_eq_some_iff.mp h
  have hmem := mem_of_find?_eq_some hfind
  have hchain := (T.mem_chain _ _).mp ((dropWhile_suffix _).subset hmem)
  have hvisited := find?_some hfind
  refine ⟨by simpa using hvisited, ?_⟩
  rw [T.context_eq a b hchain, T.anonymous_context P b hb]

theorem anonymousLeft_update (hvisited : visited NSD = false)
    (P : Option Namespace) :
    (T.anonymousLeft visited P ≠ some NSD →
      T.anonymousLeft (update visited NSD true) P = T.anonymousLeft visited P) ∧
    ∀ later earlier, T.chain (T.namespaceOf NSD) = later ++ NSD :: earlier →
      T.anonymousLeft visited P = some NSD → T.anonymousLeft (update visited NSD true) P =
          earlier.find? fun d => !visited d := by
  unfold anonymousLeft
  cases hanonymous : T.anonymous P with
  | none => exact ⟨fun _ => rfl, fun _ _ _ h => by cases h⟩
  | some a =>
    have hsuffix := dropWhile_suffix (l := T.chain (T.namespaceOf a)) fun d => d ≠ a
    have hnodup := (T.nodup_chain (T.namespaceOf a)).sublist hsuffix.sublist
    obtain ⟨hother, hself⟩ := find?_update hnodup hvisited
    refine ⟨hother, fun later earlier hchain hfind => ?_⟩
    obtain ⟨-, before, after, hdrop, -⟩ := List.find?_eq_some_iff_append.mp hfind
    -- what follows the declaration is the same in the whole chain
    have hns : T.namespaceOf NSD = T.namespaceOf a :=
      (T.mem_chain _ _).mp (hsuffix.subset (mem_of_find?_eq_some hfind))
    obtain ⟨dropped, hdropped⟩ := hsuffix
    rw [hdrop, ← append_assoc, ← hns, hchain] at hdropped
    have hparts := T.nodup_chain (T.namespaceOf NSD)
    rw [hchain] at hparts
    obtain ⟨-, hparts', hdisjoint⟩ := List.nodup_append.mp hparts
    obtain ⟨-, -, rfl⟩ := (append_cons_inj_of_notMem
      (fun h => hdisjoint NSD h NSD mem_cons_self rfl)
      (List.nodup_cons.mp hparts').1).mp hdropped.symm
    exact hself before _ hdrop hfind

/-! ## Entering a namespace -/

theorem Consistent.getOriginalNamespace_eq (h : T.Consistent gone s) {N : Namespace}
    {first : Decl} (hremaining : T.remaining gone N = later ++ [first])
    (hd : d ∈ T.remaining gone N) : s.getOriginalNamespace d = some first := by
  have hlast : (T.remaining gone N).getLast? = some first := by rw [hremaining]; simp
  have hisFirst : s.redeclarables.isFirstDecl first = true :=
    (Redeclarables.isFirstDecl_iff first).mpr ((h.wellFormed N).linked.previous_of_getLast hlast)
  unfold NamespaceState.getOriginalNamespace
  by_cases hfirst : s.redeclarables.isFirstDecl d = true
  · rw [if_pos hfirst, (h.wellFormed N).eq_first hlast hd hfirst]
  · rw [if_neg hfirst]
    rw [hremaining, mem_append, mem_singleton] at hd
    rcases hd with hd | rfl
    · exact ((h.first N later first hremaining).2.2 d hd).1
    · exact absurd hisFirst hfirst

theorem Consistent.getPreviousDecl_eq (h : T.Consistent gone s) (hnot : gone NSD = false)
    {earlier : List Decl} (hchain : T.chain (T.namespaceOf NSD) = later ++ NSD :: earlier) :
    s.redeclarables.getPreviousDecl NSD = (earlier.filter fun d => !gone d).head? := by
  have hlinked := (h.wellFormed (T.namespaceOf NSD)).linked
  rw [remaining, hchain, filter_append, filter_cons_of_pos (by simp [hnot])] at hlinked
  exact hlinked.suffix.start_eq

theorem Consistent.anonymousLeft_enter (h : T.Consistent gone s) (hnot : gone NSD = false)
    (hvisited : s.Visited NSD = false)
    (hsame : ∀ d, T.namespaceOf d = T.namespaceOf NSD → d ≠ NSD → gone d = s.Visited d)
    (P : Option Namespace) :
    T.anonymousLeft (update s.Visited NSD true) P =
      if T.anonymousLeft s.Visited P = some NSD then s.redeclarables.getPreviousDecl NSD
      else T.anonymousLeft s.Visited P := by
  obtain ⟨hother, hself⟩ := anonymousLeft_update (T := T) hvisited P
  split
  · next hleft =>
      obtain ⟨later, earlier, hchain, -⟩ := remaining_split (T := T) hnot
      have hnodup := T.nodup_chain (T.namespaceOf NSD)
      rw [hchain] at hnodup
      rw [hself later earlier hchain hleft, h.getPreviousDecl_eq hnot hchain, ← head?_filter]
      refine congrArg List.head? (filter_congr fun d hd => ?_)
      have hmem : d ∈ T.chain (T.namespaceOf NSD) := by rw [hchain]; simp [hd]
      have hne : d ≠ NSD := by
        rintro rfl
        exact (List.nodup_cons.mp (List.nodup_append.mp hnodup).2.1).1 hd
      rw [hsame d ((T.mem_chain _ _).mp hmem) hne]
  · next hleft => exact hother hleft

theorem Consistent.of_fields (h : T.Consistent gone s) {s' : NamespaceState Decl StoredDeclsMap}
    (hredeclarables : s'.redeclarables = s.redeclarables) (hlookup : s'.LookupPtr = s.LookupPtr)
    (hstd : s'.StdNamespace = s.StdNamespace)
    (hfirst : ∀ N later first, T.remaining gone N = later ++ [first] →
      s'.AnonOrFirstNamespace first = T.anonymousLeft s'.Visited (some N) ∧
        ∀ d ∈ later, s'.AnonOrFirstNamespace d = some first)
    (htu : s'.AnonymousNamespace = T.anonymousLeft s'.Visited none) : T.Consistent gone s' := by
  refine ⟨?_, fun N later first hremaining => ?_, htu, ?_, ?_, h.context⟩
  · rw [hredeclarables]
    exact h.wellFormed
  · obtain ⟨hraw, hlater⟩ := hfirst N later first hremaining
    obtain ⟨-, htable, hnone⟩ := h.first N later first hremaining
    rw [hlookup]
    exact ⟨hraw, htable, fun d hd => ⟨hlater d hd, (hnone d hd).2⟩⟩
  · rw [hstd]
    exact h.std
  · rw [hstd]
    exact h.std_none

theorem Consistent.enter (h : T.Consistent gone s) (hnot : gone NSD = false)
    (hvisited : s.Visited NSD = false)
    (hsame : ∀ d, T.namespaceOf d = T.namespaceOf NSD → d ≠ NSD → gone d = s.Visited d) :
    ∃ s', ({ s with Visited := update s.Visited NSD true }.forget NSD).eraseFromParent
        T.toNamespaceContexts NSD = some s' ∧
      T.Consistent gone s' ∧ s'.Visited = update s.Visited NSD true := by
  have hleft := h.anonymousLeft_enter hnot hvisited hsame
  have hkept : ∀ P, P ≠ (T.getRedeclContext NSD).map T.namespaceOf →
      T.anonymousLeft (update s.Visited NSD true) P = T.anonymousLeft s.Visited P := by
    intro P hP
    rw [hleft, if_neg fun hself => hP (anonymousLeft_spec hself).2.symm]
  obtain ⟨t, ht, hr, hraw, hlookup, htu, hstd, hvisit⟩ :
      ∃ t : NamespaceState Decl StoredDeclsMap,
        { s with Visited := update s.Visited NSD true }.forget NSD = t ∧
        t.redeclarables = s.redeclarables ∧ t.AnonOrFirstNamespace = s.AnonOrFirstNamespace ∧
        t.LookupPtr = s.LookupPtr ∧ t.AnonymousNamespace = s.AnonymousNamespace ∧
        t.StdNamespace = s.StdNamespace ∧ t.Visited = update s.Visited NSD true :=
    ⟨{ s with Visited := update s.Visited NSD true }.forget NSD, rfl, rfl, rfl, rfl, rfl, rfl, rfl⟩
  rw [ht, NamespaceState.eraseFromParent.eq_def]
  -- the first declarations whose anonymous namespace does not change
  have hfirst : ∀ N, some N ≠ (T.getRedeclContext NSD).map T.namespaceOf →
      ∀ later first, T.remaining gone N = later ++ [first] → s.AnonOrFirstNamespace first =
            T.anonymousLeft (update s.Visited NSD true) (some N) ∧
          ∀ d ∈ later, s.AnonOrFirstNamespace d = some first := by
    intro N hN later first hremaining
    obtain ⟨hheld, -, hlater⟩ := h.first N later first hremaining
    rw [hkept (some N) hN]
    exact ⟨hheld, fun d hd => (hlater d hd).1⟩
  cases hparent : T.getRedeclContext NSD with
  | none =>
    rw [hparent] at hfirst
    have hcontext := hleft none
    rw [← h.translationUnit] at hcontext
    refine ⟨_, rfl, ?_⟩
    by_cases hself : t.AnonymousNamespace = some NSD
    · rw [if_pos hself]
      rw [if_pos (htu ▸ hself)] at hcontext
      refine ⟨h.of_fields hr hlookup hstd ?_ ?_, hvisit⟩
      · rw [hvisit, hraw]
        exact fun N => hfirst N (by simp)
      · rw [hvisit, hr, hcontext]
    · rw [if_neg hself]
      rw [if_neg (htu ▸ hself)] at hcontext
      refine ⟨h.of_fields hr hlookup hstd ?_ ?_, hvisit⟩
      · rw [hvisit, hraw]
        exact fun N => hfirst N (by simp)
      · rw [hvisit, htu, hcontext]
  | some ND =>
    rw [hparent] at hkept hfirst
    have hND : ND ∈ T.remaining gone (T.namespaceOf ND) :=
      mem_remaining.mpr ⟨rfl, h.context NSD ND hparent hnot⟩
    obtain ⟨later, first, hremaining⟩ :
        ∃ later first, T.remaining gone (T.namespaceOf ND) = later ++ [first] :=
      ⟨_, _, (dropLast_append_getLast (ne_nil_of_mem hND)).symm⟩
    have horiginal : t.getOriginalNamespace ND = some first := by
      rw [← h.getOriginalNamespace_eq hremaining hND]
      unfold NamespaceState.getOriginalNamespace
      rw [hr, hraw]
    have htu' : t.AnonymousNamespace = T.anonymousLeft t.Visited none := by
      rw [hvisit, hkept none (by simp), htu, h.translationUnit]
    obtain ⟨hheld, -, hlater⟩ := h.first _ later first hremaining
    have hcontext := hleft (some (T.namespaceOf ND))
    rw [← hheld] at hcontext
    have hfirstmem : first ∈ T.remaining gone (T.namespaceOf ND) := by rw [hremaining]; simp
    have hnodup := (h.wellFormed (T.namespaceOf ND)).nodup
    rw [hremaining] at hnodup
    simp only [NamespaceState.getAnonymousNamespace, NamespaceState.setAnonymousNamespace,
      horiginal, Option.map_some, Option.bind_eq_bind, Option.bind_some]
    by_cases hself : t.AnonOrFirstNamespace first = some NSD
    · rw [if_pos hself]
      rw [if_pos (hraw ▸ hself)] at hcontext
      refine ⟨_, rfl, h.of_fields hr hlookup hstd (fun N later' first' hN => ?_) htu', hvisit⟩
      simp only [NamespaceState.setRawNamespace, hvisit, hraw]
      by_cases hNN : N = T.namespaceOf ND
      · subst hNN
        rw [hremaining] at hN
        obtain ⟨rfl, hsame⟩ := append_inj' hN rfl
        obtain rfl := List.singleton_inj.mp hsame
        refine ⟨by rw [update_self, hcontext, hr], fun d hd => ?_⟩
        have hne : d ≠ first := by
          rintro rfl
          exact (List.nodup_append.mp hnodup).2.2 d hd d (by simp) rfl
        rw [update_of_ne hne]
        exact (hlater d hd).1
      · obtain ⟨hheld', hlater'⟩ := hfirst N (by simpa using hNN) later' first' hN
        have hne : ∀ d ∈ T.remaining gone N, d ≠ first := by
          rintro d hd rfl
          exact hNN ((mem_remaining.mp hd).1.symm.trans (mem_remaining.mp hfirstmem).1)
        rw [update_of_ne (hne first' (by rw [hN]; simp))]
        refine ⟨hheld', fun d hd => ?_⟩
        rw [update_of_ne (hne d (by rw [hN]; simp [hd]))]
        exact hlater' d hd
    · rw [if_neg hself]
      rw [if_neg (hraw ▸ hself)] at hcontext
      refine ⟨_, rfl, h.of_fields hr hlookup hstd (fun N later' first' hN => ?_) htu', hvisit⟩
      rw [hvisit, hraw]
      by_cases hNN : N = T.namespaceOf ND
      · subst hNN
        rw [hremaining] at hN
        obtain ⟨rfl, hsame⟩ := append_inj' hN rfl
        obtain rfl := List.singleton_inj.mp hsame
        exact ⟨hcontext.symm, fun d hd => (hlater d hd).1⟩
      · exact hfirst N (by simpa using hNN) later' first' hN

/-! ## Leaving a chain -/

theorem remaining_update (hnot : gone NSD = false) {earlier : List Decl}
    (hremaining : T.remaining gone (T.namespaceOf NSD) = later ++ NSD :: earlier) :
    T.remaining (update gone NSD true) (T.namespaceOf NSD) = later ++ earlier ∧
      ∀ N, N ≠ T.namespaceOf NSD → T.remaining (update gone NSD true) N = T.remaining gone N := by
  have hfilter : ∀ N, T.remaining (update gone NSD true) N =
      (T.remaining gone N).filter fun d => d ≠ NSD := by
    intro N
    rw [remaining, remaining, filter_filter]
    refine filter_congr fun d _ => ?_
    by_cases hd : d = NSD
    · simp [hd]
    · simp [hd]
  have hnodup : (T.remaining gone (T.namespaceOf NSD)).Nodup :=
    (T.nodup_chain _).sublist filter_sublist
  rw [hremaining] at hnodup
  obtain ⟨-, hnodup', hdisjoint⟩ := List.nodup_append.mp hnodup
  constructor
  · rw [hfilter, hremaining, filter_append, filter_cons_of_neg (by simp)]
    congr 1
    · refine List.filter_eq_self.mpr fun d hd => ?_
      have hne : d ≠ NSD := fun heq => hdisjoint d hd NSD mem_cons_self heq
      simpa using hne
    · refine List.filter_eq_self.mpr fun d hd => ?_
      have hne : d ≠ NSD := by
        rintro rfl
        exact (List.nodup_cons.mp hnodup').1 hd
      simpa using hne
  · intro N hN
    rw [hfilter]
    refine List.filter_eq_self.mpr fun d hd => ?_
    have hne : d ≠ NSD := by
      rintro rfl
      exact hN (mem_remaining.mp hd).1.symm
    simpa using hne

/-- The declarations `cells` lead to another first declaration. -/
def withRaw (s : NamespaceState Decl StoredDeclsMap) (first : Decl) (cells : List Decl) :
    NamespaceState Decl StoredDeclsMap :=
  { s with
    AnonOrFirstNamespace := fun d => if d ∈ cells then some first else s.AnonOrFirstNamespace d }

theorem setRawNamespaces_eq {Second : Decl} {before rest : List Decl} {Last : Decl}
    (hlinked : Linked s.redeclarables.getPreviousDecl (some Last) (before ++ Second :: rest))
    (hnot : Second ∉ before) (hfuel : before.length < fuel) :
    NamespaceState.setRawNamespaces Second fuel s Last = some (withRaw s Second before) := by
  induction before generalizing s Last fuel with
  | nil =>
    obtain ⟨fuel, rfl⟩ := Nat.exists_eq_succ_of_ne_zero (Nat.ne_zero_of_lt hfuel)
    have hLast : Last = Second := Option.some.inj hlinked.start_eq
    unfold NamespaceState.setRawNamespaces withRaw
    simp [hLast]
  | cons b before ih =>
    obtain ⟨fuel, rfl⟩ := Nat.exists_eq_succ_of_ne_zero (Nat.ne_zero_of_lt hfuel)
    obtain rfl : Last = b := Option.some.inj hlinked.start_eq
    have hne : Last ≠ Second := fun heq => hnot (heq ▸ mem_cons_self)
    have htail : Linked s.redeclarables.getPreviousDecl (s.redeclarables.getPreviousDecl Last)
      (before ++ Second :: rest) := hlinked.tail
    obtain ⟨next, hnext⟩ : ∃ next, s.redeclarables.getPreviousDecl Last = some next := by
      rw [htail.start_eq]
      cases before with
      | nil | cons c before => exact ⟨_, rfl⟩
    rw [hnext] at htail
    have hrest := ih (s := s.setRawNamespace Last (some Second)) htail
      (fun h => hnot (mem_cons_of_mem _ h)) (Nat.lt_of_succ_lt_succ hfuel)
    unfold NamespaceState.setRawNamespaces
    rw [if_neg hne]
    show (s.redeclarables.getPreviousDecl Last).bind _ = _
    rw [hnext, Option.bind_some, hrest]
    unfold withRaw NamespaceState.setRawNamespace
    congr 2
    funext d
    by_cases hd : d = Last
    · simp [hd]
    · simp [hd]

theorem Consistent.moveToSecond (h : T.Consistent gone s) {Second Last : Decl}
    {before : List Decl}
    (hremaining : T.remaining gone (T.namespaceOf NSD) = before ++ [Second, NSD])
    (hLast : (before ++ [Second, NSD]).head? = some Last)
    (hfuel : before.length < fuel) :
    ∃ s', s.moveToSecond fuel NSD Second Last = some s' ∧
      s'.redeclarables = s.redeclarables ∧ s'.AnonymousNamespace = s.AnonymousNamespace ∧
      s'.Visited = s.Visited ∧
      s'.StdNamespace = (if s.StdNamespace = some NSD then some Second else s.StdNamespace) ∧
      (∀ d, s'.AnonOrFirstNamespace d =
        if d ∈ before then some Second
        else if d = Second then s.AnonOrFirstNamespace NSD else s.AnonOrFirstNamespace d) ∧
      ∀ d, s'.LookupPtr d =
        if d = NSD then none else if d = Second then s.LookupPtr NSD else s.LookupPtr d := by
  have hsplit : before ++ [Second, NSD] = (before ++ [Second]) ++ [NSD] := by simp
  have hlinked := (h.wellFormed (T.namespaceOf NSD)).linked
  have hnodup := (h.wellFormed (T.namespaceOf NSD)).nodup
  rw [hremaining, hLast] at hlinked
  rw [hremaining] at hnodup
  have hSecond : Second ∉ before := by
    intro hmem
    exact (List.nodup_append.mp hnodup).2.2 Second hmem Second (by simp) rfl
  obtain ⟨-, -, hlater⟩ := h.first (T.namespaceOf NSD) (before ++ [Second]) NSD
    (hremaining.trans hsplit)
  have hnone : s.LookupPtr Second = none := (hlater Second (by simp)).2
  have hNSD : NSD ∈ T.remaining gone (T.namespaceOf NSD) := by rw [hremaining]; simp
  -- the state before the loop
  obtain ⟨t, ht, hr, htu, hvisit, hstd, hraw, hlookup⟩ := setStdNamespace_spec s NSD (some Second)
  have horiginal : t.getOriginalNamespace NSD = some NSD := by
    rw [← h.getOriginalNamespace_eq (hremaining.trans hsplit) hNSD]
    unfold NamespaceState.getOriginalNamespace
    rw [hr, hraw]
  rw [← hr] at hlinked
  have hloop : NamespaceState.setRawNamespaces Second fuel
      (t.setRawNamespace Second (s.AnonOrFirstNamespace NSD)) Last =
        some (withRaw (t.setRawNamespace Second (s.AnonOrFirstNamespace NSD)) Second before) :=
    setRawNamespaces_eq (s := t.setRawNamespace Second (s.AnonOrFirstNamespace NSD)) hlinked
      hSecond hfuel
  unfold NamespaceState.moveToSecond
  rw [ht]
  show ∃ s', ((t.getAnonymousNamespace NSD).bind _) = some s' ∧ _
  rw [NamespaceState.getAnonymousNamespace, horiginal, Option.map_some, Option.bind_some, hraw]
  show ∃ s', (NamespaceState.setRawNamespaces Second fuel _ Last).bind _ = some s' ∧ _
  rw [hloop, Option.bind_some]
  -- the fields that the last assignments do not change
  have hraw' : ∀ d, (withRaw (t.setRawNamespace Second (s.AnonOrFirstNamespace NSD)) Second
      before).AnonOrFirstNamespace d = if d ∈ before then some Second
        else if d = Second then s.AnonOrFirstNamespace NSD else s.AnonOrFirstNamespace d := by
    intro d
    simp only [withRaw, NamespaceState.setRawNamespace, hraw, update_apply]
  have htable : (withRaw (t.setRawNamespace Second (s.AnonOrFirstNamespace NSD)) Second
      before).LookupPtr = s.LookupPtr := hlookup
  cases hptr : s.LookupPtr NSD with
  | none =>
    have hmatch : (withRaw (t.setRawNamespace Second (s.AnonOrFirstNamespace NSD)) Second
      before).LookupPtr NSD = none := by rw [htable, hptr]
    simp only [hmatch]
    split
    all_goals
      refine ⟨_, rfl, hr, htu, hvisit, hstd, hraw', fun d => ?_⟩
      simp only [NamespaceState.setLookupPtr, NamespaceState.setHasLazyLocalLexicalLookups,
        htable, update_apply]
      split_ifs with hd hd'
      · rfl
      · rw [hd', hnone]
      · rfl
  | some Ptr =>
    have hmatch : (withRaw (t.setRawNamespace Second (s.AnonOrFirstNamespace NSD)) Second
      before).LookupPtr NSD = some Ptr := by rw [htable, hptr]
    simp only [hmatch]
    split
    all_goals
      refine ⟨_, rfl, hr, htu, hvisit, hstd, hraw', fun d => ?_⟩
      simp only [NamespaceState.setLookupPtr, NamespaceState.setHasLazyLocalLexicalLookups,
        htable, update_apply]

variable {t : NamespaceState Decl StoredDeclsMap}

theorem Consistent.std_of_moved (h : T.Consistent gone s)
    {moved : Decl}
    (hstd : t.StdNamespace = if s.StdNamespace = some NSD then some moved else s.StdNamespace)
    (hmoved : moved ∈ T.remaining gone (T.namespaceOf NSD) ∧ moved ≠ NSD)
    (hd : t.StdNamespace = some d) : d ∈ T.remaining gone T.std ∧ d ≠ NSD := by
  rw [hstd] at hd
  by_cases hself : s.StdNamespace = some NSD
  · rw [if_pos hself] at hd
    rw [← Option.some.inj hd, ← (mem_remaining.mp (h.std NSD hself)).1]
    exact hmoved
  · rw [if_neg hself] at hd
    exact ⟨h.std d hd, fun heq => hself (heq ▸ hd)⟩

theorem Consistent.std_none_of_moved (h : T.Consistent gone s)
    {moved : Decl}
    (hstd : t.StdNamespace = if s.StdNamespace = some NSD then some moved else s.StdNamespace)
    (hnone : t.StdNamespace = none) (hd : d ∈ T.remaining gone T.std) : d = NSD := by
  rw [hstd] at hnone
  by_cases hself : s.StdNamespace = some NSD
  · rw [if_pos hself] at hnone
    cases hnone
  · rw [if_neg hself] at hnone
    rw [h.std_none hnone] at hd
    exact absurd hd not_mem_nil

variable [DecidableEq DeclContext]

theorem Consistent.visitRedeclarable (h : T.Consistent gone s) (hnot : gone NSD = false)
    (hinside : ∀ m, T.getRedeclContext m = some NSD → gone m = true) {earlier : List Decl}
    (hremaining : T.remaining gone (T.namespaceOf NSD) = later ++ NSD :: earlier)
    (hfuel : (later ++ NSD :: earlier).length ≤ fuel)
    (hr : t.redeclarables = s.redeclarables) (htu : t.AnonymousNamespace = s.AnonymousNamespace)
    (hvisit : t.Visited = s.Visited)
    (hfirst : ∀ later' first, later ++ earlier = later' ++ [first] →
      t.AnonOrFirstNamespace first = T.anonymousLeft s.Visited (some (T.namespaceOf NSD)) ∧
        t.LookupPtr first = T.lookup (T.namespaceOf NSD) ∧
        ∀ d ∈ later', t.AnonOrFirstNamespace d = some first ∧ t.LookupPtr d = none)
    (hother : ∀ d, T.namespaceOf d ≠ T.namespaceOf NSD →
      t.AnonOrFirstNamespace d = s.AnonOrFirstNamespace d ∧ t.LookupPtr d = s.LookupPtr d)
    (hstd : ∀ d, t.StdNamespace = some d → d ∈ T.remaining gone T.std ∧ d ≠ NSD)
    (hstd_none : t.StdNamespace = none → ∀ d ∈ T.remaining gone T.std, d = NSD) :
    ∃ redeclarables replacement, Unload.visitRedeclarable T.contexts fuel t.redeclarables NSD =
        some (redeclarables, replacement) ∧
      T.Consistent (update gone NSD true) { t with redeclarables := redeclarables } := by
  have hchain := h.wellFormed (T.namespaceOf NSD)
  rw [hremaining, ← hr] at hchain
  obtain ⟨redeclarables, replacement, heq, hunloaded, -⟩ :=
    visitRedeclarable_eq T.contexts hchain hfuel
  obtain ⟨hself, hrest⟩ := remaining_update hnot hremaining
  have hmem : ∀ N d, d ∈ T.remaining (update gone NSD true) N ↔
      d ∈ T.remaining gone N ∧ d ≠ NSD := by
    intro N d
    rw [mem_remaining, mem_remaining]
    by_cases hd : d = NSD
    · simp [hd]
    · simp [hd]
  refine ⟨redeclarables, replacement, heq, fun N => ?_, fun N later' first hN => ?_, ?_,
    fun d hd => ?_, fun hnone => ?_, fun d p hp hd => ?_⟩
  · by_cases hN : N = T.namespaceOf NSD
    · rw [hN, hself]
      exact hunloaded.wellFormed
    · rw [hrest N hN]
      refine (h.wellFormed N).congr fun d hd => ?_
      rw [← hr]
      refine hunloaded.frame d fun hmem => ?_
      have hns : d ∈ T.remaining gone (T.namespaceOf NSD) := by
        rw [hremaining]
        exact List.perm_middle.mem_iff.mpr hmem
      exact hN ((mem_remaining.mp hd).1.symm.trans (mem_remaining.mp hns).1)
  · by_cases hNN : N = T.namespaceOf NSD
    · subst hNN
      rw [hself] at hN
      rw [hvisit]
      exact hfirst later' first hN
    · rw [hrest N hNN] at hN
      obtain ⟨hheld, htable, hlater⟩ := h.first N later' first hN
      have hns : ∀ d ∈ later' ++ [first], T.namespaceOf d ≠ T.namespaceOf NSD := by
        intro d hd heq
        rw [← hN] at hd
        exact hNN ((mem_remaining.mp hd).1.symm.trans heq)
      obtain ⟨hraw, hptr⟩ := hother first (hns first (by simp))
      rw [hvisit, hraw, hptr]
      refine ⟨hheld, htable, fun d hd => ?_⟩
      obtain ⟨hraw', hptr'⟩ := hother d (hns d (by simp [hd]))
      rw [hraw', hptr']
      exact hlater d hd
  · rw [htu, hvisit, h.translationUnit]
  · exact (hmem _ d).mpr (hstd d hd)
  · refine List.eq_nil_iff_forall_not_mem.mpr fun d hd => ?_
    obtain ⟨hd, hne⟩ := (hmem _ d).mp hd
    exact hne (hstd_none hnone d hd)
  · have hdne : d ≠ NSD := by
      rintro rfl
      simp at hd
    rw [update_of_ne hdne] at hd
    have hpne : p ≠ NSD := by
      rintro rfl
      rw [hinside d hp] at hd
      cases hd
    rw [update_of_ne hpne]
    exact h.context d p hp hd

theorem Consistent.leaveChain (h : T.Consistent gone s) (hnot : gone NSD = false)
    (hinside : ∀ m, T.getRedeclContext m = some NSD → gone m = true)
    (hfuel : (T.chain (T.namespaceOf NSD)).length ≤ fuel) :
    ∃ s', s.leaveChain T.toNamespaceContexts fuel NSD = some s' ∧
      T.Consistent (update gone NSD true) s' ∧ s'.Visited = s.Visited := by
  obtain ⟨later, earlier, hremaining⟩ :
      ∃ later earlier, T.remaining gone (T.namespaceOf NSD) = later ++ NSD :: earlier :=
    append_of_mem (mem_remaining.mpr ⟨rfl, hnot⟩)
  have hchain := h.wellFormed (T.namespaceOf NSD)
  have hlength : (later ++ NSD :: earlier).length ≤ fuel := by
    rw [← hremaining]
    exact (length_filter_le _ _).trans hfuel
  have hnodup := hchain.nodup
  rw [hremaining] at hnodup
  have hNSD : NSD ∈ T.remaining gone (T.namespaceOf NSD) := mem_remaining.mpr ⟨rfl, hnot⟩
  have hprevious : s.redeclarables.getPreviousDecl NSD = earlier.head? := by
    have hlinked := hchain.linked
    rw [hremaining] at hlinked
    exact hlinked.suffix.start_eq
  have hisFirst : s.redeclarables.isFirstDecl NSD = true ↔
      s.redeclarables.getPreviousDecl NSD = none := Redeclarables.isFirstDecl_iff NSD
  have hstd_eq : s.StdNamespace = some NSD → T.std = T.namespaceOf NSD :=
    fun hstd => (mem_remaining.mp (h.std NSD hstd)).1.symm
  unfold NamespaceState.leaveChain NamespaceState.fixOriginalNamespace
  cases earlier with
  | cons p earlier =>
    -- the first declaration stays
    rw [if_neg (by rw [hisFirst, hprevious]; simp), hprevious]
    obtain ⟨t, ht, hr, htu, hvisit, hstd, hraw, hlookup⟩ :=
      setStdNamespace_spec s NSD ((p :: earlier).head?)
    have hp : p ∈ T.remaining gone (T.namespaceOf NSD) ∧ p ≠ NSD := by
      refine ⟨by rw [hremaining]; simp, ?_⟩
      rintro rfl
      have htail := (List.nodup_append.mp hnodup).2.1
      simp at htail
    obtain ⟨redeclarables, replacement, heq, hconsistent⟩ :=
      h.visitRedeclarable hnot hinside hremaining hlength hr htu hvisit
        (by
          intro later' first hfirst
          obtain ⟨e, last, hlast⟩ : ∃ e last, p :: earlier = e ++ [last] :=
            ⟨_, _, (dropLast_append_getLast (cons_ne_nil _ _)).symm⟩
          rw [hlast, ← append_assoc] at hfirst
          obtain ⟨rfl, hsame⟩ := append_inj' hfirst rfl
          obtain rfl := List.singleton_inj.mp hsame
          rw [hlast, ← cons_append, ← append_assoc] at hremaining
          obtain ⟨hheld, htable, hlater⟩ := h.first _ _ _ hremaining
          rw [hraw, hlookup]
          refine ⟨hheld, htable, fun d hd => hlater d ?_⟩
          rcases List.mem_append.mp hd with hd | hd
          · exact mem_append_left _ hd
          · exact mem_append_right _ (mem_cons_of_mem _ hd))
        (fun d _ => by rw [hraw, hlookup]; exact ⟨rfl, rfl⟩)
        (fun _ => h.std_of_moved hstd hp) (fun hnone _ => h.std_none_of_moved hstd hnone)
    refine ⟨_, ?_, hconsistent, hvisit⟩
    rw [ht]
    simp only [Option.bind_eq_bind, Option.bind_some, heq]
  | nil =>
    rw [if_pos (hisFirst.mpr hprevious)]
    have hLast := hchain.getMostRecentDecl_eq hNSD
    rw [hremaining] at hLast
    rcases eq_nil_or_concat later with rfl | ⟨before, Second, rfl⟩
    · obtain hLast := Option.some.inj hLast
      rw [if_pos hLast]
      obtain ⟨t, ht, hr, htu, hvisit, hstd, hraw, hlookup⟩ := setStdNamespace_spec s NSD none
      obtain ⟨redeclarables, replacement, heq, hconsistent⟩ :=
        h.visitRedeclarable hnot hinside hremaining hlength hr htu hvisit
          (fun later' first hfirst => by simp at hfirst)
          (fun d _ => by rw [hraw, hlookup]; exact ⟨rfl, rfl⟩)
          (fun d hd => by
            rw [hstd] at hd
            split at hd
            · cases hd
            · next hself => exact ⟨h.std d hd, fun heq => hself (heq ▸ hd)⟩)
          (fun hnone d hd => by
            by_cases hself : s.StdNamespace = some NSD
            · rw [hstd_eq hself, hremaining] at hd
              simpa using hd
            · rw [hstd, if_neg hself] at hnone
              rw [h.std_none hnone] at hd
              exact absurd hd not_mem_nil)
      refine ⟨_, ?_, hconsistent, hvisit⟩
      rw [ht]
      simp only [Option.bind_eq_bind, Option.bind_some, heq]
    · have hcells : before.concat Second ++ [NSD] = before ++ [Second, NSD] := by simp
      rw [hcells] at hLast hnodup
      have hpair := List.nodup_append.mp hnodup
      have hSecondNe : Second ≠ NSD := by
        simpa using hpair.2.1
      have hSecondNot : Second ∉ before := fun hmem => hpair.2.2 Second hmem Second (by simp) rfl
      have hNSDnot : NSD ∉ before := fun hmem => hpair.2.2 NSD hmem NSD (by simp) rfl
      have hNe : NSD ≠ s.redeclarables.getMostRecentDecl NSD := by
        intro heq
        rw [← heq] at hLast
        cases before with
        | nil => exact hSecondNe (Option.some.inj hLast)
        | cons b before =>
          have hb : b = NSD := Option.some.inj hLast
          exact hNSDnot (hb ▸ mem_cons_self)
      have hbefore : before.length < fuel := by
        simp at hlength
        omega
      have hlinked := hchain.linked
      rw [hremaining, hcells, hLast] at hlinked
      have hfind := hlinked.findNext_eq hnodup hbefore
      have hSecond : Second ∈ T.remaining gone (T.namespaceOf NSD) := by
        rw [hremaining, hcells]
        simp
      obtain ⟨hheld, htable, -⟩ := h.first _ _ _ hremaining
      obtain ⟨t, ht, hr, htu, hvisit, hstd, hraw, hlookup⟩ :=
        h.moveToSecond (hremaining.trans hcells) hLast hbefore
      obtain ⟨redeclarables, replacement, heq, hconsistent⟩ :=
        h.visitRedeclarable hnot hinside hremaining hlength hr htu hvisit
          (by
            intro later' first hfirst
            rw [append_nil, concat_eq_append] at hfirst
            obtain ⟨rfl, hsame⟩ := append_inj' hfirst rfl
            obtain rfl := List.singleton_inj.mp hsame
            refine ⟨by rw [hraw, if_neg hSecondNot, if_pos rfl, hheld],
              by rw [hlookup, if_neg hSecondNe, if_pos rfl, htable], fun d hd => ?_⟩
            have hdSecond : d ≠ Second := fun heq => hSecondNot (heq ▸ hd)
            have hdNSD : d ≠ NSD := fun heq => hNSDnot (heq ▸ hd)
            rw [hraw, if_pos hd, hlookup, if_neg hdNSD, if_neg hdSecond]
            exact ⟨rfl, ((h.first _ _ _ hremaining).2.2 d (by simp [hd])).2⟩)
          (by
            intro d hd
            have hne : ∀ e ∈ T.remaining gone (T.namespaceOf NSD), d ≠ e := by
              rintro e he rfl
              exact hd (mem_remaining.mp he).1
            have hdbefore : d ∉ before := fun hmem =>
              hne d (by rw [hremaining, hcells]; simp [hmem]) rfl
            rw [hraw, if_neg hdbefore, if_neg (hne Second hSecond), hlookup,
              if_neg (hne NSD hNSD), if_neg (hne Second hSecond)]
            exact ⟨rfl, rfl⟩)
          (fun _ => h.std_of_moved hstd ⟨hSecond, hSecondNe⟩)
          (fun hnone _ => h.std_none_of_moved hstd hnone)
      refine ⟨_, ?_, hconsistent, hvisit⟩
      rw [if_neg hNe]
      simp only [hfind, ht, Option.bind_eq_bind, Option.bind_some, heq]

/-! ## Unloading -/

omit [DecidableEq DeclContext] in
theorem Consistent.gone_of_encloses (h : T.Consistent gone s) (hgone : gone NSD = true)
    (hinside : T.Encloses NSD d) : gone d = true := by
  induction hinside with
  | refl => exact hgone
  | @tail e m _ hm ih =>
    by_contra hnot
    have hleft := h.context m e ((T.mem_decls e m).mp hm) (by simpa using hnot)
    rw [ih] at hleft
    cases hleft

/-- The visited declarations, without the ones that are being unloaded. -/
def outside (stack : List Decl) (visited : Decl → Bool) (d : Decl) : Bool :=
  visited d && decide (d ∉ stack)

omit [DecidableEq DeclContext] in
theorem foldlM_unload {stack Decls : List Decl}
    {unload : NamespaceState Decl StoredDeclsMap → Decl →
      Option (NamespaceState Decl StoredDeclsMap)}
    (hunload : ∀ m ∈ Decls, ∀ s : NamespaceState Decl StoredDeclsMap,
      T.Consistent (outside stack s.Visited) s →
      ∃ s', unload s m = some s' ∧ T.Consistent (outside stack s'.Visited) s' ∧
        ∀ d, s'.Visited d = true ↔ s.Visited d = true ∨ T.Encloses m d)
    (h : T.Consistent (outside stack s.Visited) s) :
    ∃ s', Decls.foldlM unload s = some s' ∧ T.Consistent (outside stack s'.Visited) s' ∧
      ∀ d, s'.Visited d = true ↔ s.Visited d = true ∨ ∃ m ∈ Decls, T.Encloses m d := by
  induction Decls generalizing s with
  | nil => exact ⟨s, rfl, h, fun d => by simp⟩
  | cons m rest ih =>
    obtain ⟨s₁, hs₁, h₁, hvisited₁⟩ := hunload m mem_cons_self s h
    obtain ⟨s', hs', h', hvisited'⟩ :=
      ih (fun e he => hunload e (mem_cons_of_mem _ he)) h₁
    refine ⟨s', ?_, h', fun d => ?_⟩
    · rw [foldlM_cons, hs₁]
      exact hs'
    · simp only [hvisited', hvisited₁, mem_cons, exists_eq_or_imp, or_assoc]

theorem unloadDecl_spec (hfuel : ∀ N, (T.chain N).length ≤ fuel) {depth : Nat}
    {stack : List Decl} (h : T.Consistent (outside stack s.Visited) s)
    (hstack : ∀ d ∈ stack, T.height (T.namespaceOf NSD) < T.height (T.namespaceOf d))
    (hdepth : T.height (T.namespaceOf NSD) < depth) :
    ∃ s', NamespaceState.unloadDecl T.toNamespaceContexts fuel depth s NSD = some s' ∧
      T.Consistent (outside stack s'.Visited) s' ∧
      ∀ d, s'.Visited d = true ↔ s.Visited d = true ∨ T.Encloses NSD d := by
  induction depth generalizing s stack NSD with
  | zero => omega
  | succ depth ih =>
    have hnotStack : ∀ d, T.height (T.namespaceOf d) ≤ T.height (T.namespaceOf NSD) →
        d ∉ stack := by
      intro d hd hmem
      have := hstack d hmem
      omega
    unfold NamespaceState.unloadDecl
    by_cases hvisited : s.Visited NSD = true
    · rw [if_pos hvisited]
      refine ⟨s, rfl, h, fun d => ⟨.inl, ?_⟩⟩
      rintro (hd | hinside)
      · exact hd
      · have hgone : outside stack s.Visited NSD = true := by
          simp [outside, hvisited, hnotStack NSD (Nat.le_refl _)]
        have hgone' := h.gone_of_encloses hgone hinside
        exact (Bool.and_eq_true_iff.mp hgone').1
    · rw [if_neg hvisited]
      have hvisited : s.Visited NSD = false := by simpa using hvisited
      obtain ⟨s₁, hs₁, h₁, hvisited₁⟩ := h.enter (by simp [outside, hvisited]) hvisited
        (fun d hd _ => by simp [outside, hnotStack d (by rw [hd])])
      -- while it is unloaded, the declaration is not gone
      have hentered : outside stack s.Visited = outside (NSD :: stack) s₁.Visited := by
        funext d
        rw [hvisited₁]
        by_cases hd : d = NSD
        · simp [outside, hd, hvisited]
        · simp [outside, hd]
      rw [hentered] at h₁
      have hheight : ∀ m ∈ T.decls NSD, T.height (T.namespaceOf m) < T.height (T.namespaceOf NSD) :=
        fun m hm => T.height_lt NSD m ((T.mem_decls NSD m).mp hm)
      have hunload : ∀ m ∈ T.decls NSD, ∀ s : NamespaceState Decl StoredDeclsMap,
          T.Consistent (outside (NSD :: stack) s.Visited) s →
          ∃ s', NamespaceState.unloadDecl T.toNamespaceContexts fuel depth s m = some s' ∧
            T.Consistent (outside (NSD :: stack) s'.Visited) s' ∧
            ∀ d, s'.Visited d = true ↔ s.Visited d = true ∨ T.Encloses m d := by
        intro m hm s hs
        have hless := hheight m hm
        refine ih hs (fun d hd => ?_) (by omega)
        rcases List.mem_cons.mp hd with rfl | hd
        · exact hless
        · exact hless.trans (hstack d hd)
      obtain ⟨s₂, hs₂, h₂, hvisited₂⟩ := foldlM_unload hunload h₁
      have hinside : ∀ m, T.getRedeclContext m = some NSD →
          outside (NSD :: stack) s₂.Visited m = true := by
        intro m hm
        have hmem := (T.mem_decls NSD m).mpr hm
        have hless := hheight m hmem
        have hne : m ≠ NSD := by
          rintro rfl
          omega
        have hseen : s₂.Visited m = true := (hvisited₂ m).mpr (.inr ⟨m, hmem, .refl⟩)
        simp [outside, hseen, hne, hnotStack m hless.le]
      obtain ⟨s', hs', h', hvisited'⟩ :=
        h₂.leaveChain (by simp [outside]) hinside (hfuel (T.namespaceOf NSD))
      have hself : s₂.Visited NSD = true := by
        rw [hvisited₂, hvisited₁, update_self]
        exact .inl rfl
      have hleft : update (outside (NSD :: stack) s₂.Visited) NSD true =
          outside stack s'.Visited := by
        funext d
        rw [hvisited']
        by_cases hd : d = NSD
        · simp [outside, hd, hself, hnotStack NSD (Nat.le_refl _)]
        · simp [outside, hd]
      rw [hleft] at h'
      refine ⟨s', ?_, h', fun d => ?_⟩
      · unfold NamespaceState.visitNamespaceDecl
        rw [hs₁]
        simp only [Option.bind_eq_bind, Option.bind_some]
        rw [hs₂, Option.bind_some, hs']
      · rw [hvisited', hvisited₂, hvisited₁, Encloses, Relation.ReflTransGen.cases_head_iff]
        by_cases hd : d = NSD
        · simp [hd]
        · simp [hd, Ne.symm hd]

/-- Any declarations are unloaded, in any order. What was to be unloaded is visited, and what is
left is consistent. -/
theorem unloadDecls_consistent (T : NamespaceForest Decl DeclContext Namespace StoredDeclsMap)
    {s : NamespaceState Decl StoredDeclsMap} (h : T.Consistent (fun _ => false) s)
    (hunvisited : ∀ d, s.Visited d = false) (Decls : List Decl) {fuel depth : Nat}
    (hfuel : ∀ N, (T.chain N).length ≤ fuel)
    (hdepth : ∀ d ∈ Decls, T.height (T.namespaceOf d) < depth) :
    ∃ s', s.unloadDecls T.toNamespaceContexts fuel depth Decls = some s' ∧
      T.Consistent s'.Visited s' ∧
      ∀ d, s'.Visited d = true ↔ ∃ u ∈ Decls, T.Encloses u d := by
  have houtside : ∀ visited : Decl → Bool, outside [] visited = visited := by
    intro visited
    funext d
    simp [outside]
  have hstart : T.Consistent (outside [] s.Visited) s := by
    rw [houtside, show s.Visited = fun _ => false from funext hunvisited]
    exact h
  have hunload : ∀ d ∈ Decls, ∀ s : NamespaceState Decl StoredDeclsMap,
      T.Consistent (outside [] s.Visited) s →
      ∃ s', NamespaceState.unloadDecl T.toNamespaceContexts fuel depth s d = some s' ∧
        T.Consistent (outside [] s'.Visited) s' ∧
        ∀ e, s'.Visited e = true ↔ s.Visited e = true ∨ T.Encloses d e :=
    fun d hd s hs => unloadDecl_spec hfuel hs (by simp) (hdepth d hd)
  obtain ⟨s', hs', h', hvisited'⟩ := foldlM_unload hunload hstart
  rw [houtside] at h'
  refine ⟨s', hs', h', fun d => ?_⟩
  rw [hvisited', hunvisited]
  simp

/-- Two declarations `0` and `1` of `std`, with an anonymous namespace `2` in the first one. -/
def stdForest : NamespaceForest (Fin 3) Unit Bool Nat where
  contexts := translationUnit (Fin 3)
  getRedeclContext d := if d = 2 then some 0 else none
  decls d := if d = 0 then [2] else []
  namespaceOf d := decide (d ≠ 2)
  chain N := if N then [1, 0] else [2]
  mem_chain := by decide
  nodup_chain := by decide
  mem_decls := by decide
  context_eq := by decide
  height N := N.toNat
  height_lt := by decide
  anonymous P := if P = some true then some 2 else none
  anonymous_context := by
    intro P a h
    split at h
    · next hP =>
        rw [hP, ← Option.some.inj h]
        rfl
    · cases h
  lookup N := if N then some 7 else none
  std := true

/-- The state in which nothing was unloaded. -/
def stdState : NamespaceState (Fin 3) Nat where
  redeclarables d := if d = 0 then ⟨.knownLatest 1, 0⟩ else if d = 1 then ⟨.previous 0, 0⟩
    else ⟨.knownLatest 2, 2⟩
  AnonOrFirstNamespace d := if d = 0 then some 2 else if d = 1 then some 0 else none
  LookupPtr d := if d = 0 then some 7 else none
  HasLazyLocalLexicalLookups _ := false
  AnonymousNamespace := none
  KnownNamespaces _ := true
  StdNamespace := some 0
  StdExperimentalNamespaceCache := none
  Visited _ := false

/-- The first declaration of `std` is unloaded, and with it the anonymous namespace. -/
theorem unloadDecls_consistent_std :
    ∃ s', stdState.unloadDecls stdForest.toNamespaceContexts 2 2 [0] = some s' ∧
      stdForest.Consistent s'.Visited s' ∧
      ∀ d, s'.Visited d = true ↔ ∃ u ∈ [0], stdForest.Encloses u d := by
  have hstd : stdForest.Consistent (fun _ => false) stdState := by
    refine ⟨fun N => ?_, fun N later first hN => ?_, rfl, by decide, by decide, by decide⟩
    · cases N with
      | false => exact ⟨by decide, .cons .nil, by decide, by decide⟩
      | true => exact ⟨by decide, .cons (.cons .nil), by decide, by decide⟩
    · cases N with
      | false =>
        obtain ⟨rfl, hfirst⟩ := append_inj' (show [] ++ [(2 : Fin 3)] = _ from hN) rfl
        obtain rfl := List.singleton_inj.mp hfirst
        exact ⟨rfl, rfl, by simp⟩
      | true =>
        obtain ⟨rfl, hfirst⟩ := append_inj' (show [1] ++ [(0 : Fin 3)] = _ from hN) rfl
        obtain rfl := List.singleton_inj.mp hfirst
        exact ⟨rfl, rfl, by decide⟩
  exact unloadDecls_consistent stdForest hstd (fun _ => rfl) [0] (by decide) (by decide)

end NamespaceForest

end Zapcc.Unload
