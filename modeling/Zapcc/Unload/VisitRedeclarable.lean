import Zapcc.AST.Redeclarable

/-!
# Unloading a redeclaration

`visitRedeclarable` takes a declaration out of its redeclaration chain and finds the declaration
that replaces it in the lookup tables. `visitAll_wellFormed` says that unloading any members of a
chain, in any order, leaves the other ones as a chain and each unloaded one as a chain of its own.
-/

namespace Zapcc.Unload

open LinkedList AST List Option Function

/-- The contexts that enclose declarations. They are nested: every loop that goes from a context to
its parent comes closer to the translation unit, which is not a linkage specification. -/
structure DeclContexts (Decl DeclContext : Type*) where
  getDeclContext : Decl → DeclContext
  isLinkageSpecDecl : DeclContext → Bool
  getParent : DeclContext → Option DeclContext
  getPrimaryContext : DeclContext → DeclContext
  depth : DeclContext → Nat
  depth_parent : ∀ dc parent, getParent (getPrimaryContext dc) = some parent →
    depth parent < depth dc
  parent_of_linkageSpec : ∀ dc, isLinkageSpecDecl dc = true →
    ∃ parent, getParent dc = some parent ∧ depth parent < depth dc

namespace DeclContexts

variable {Decl DeclContext : Type*} (contexts : DeclContexts Decl DeclContext)

def linkageParent (dc : DeclContext) (h : contexts.isLinkageSpecDecl dc = true) : DeclContext :=
  (contexts.getParent dc).get (by
    obtain ⟨parent, hparent, -⟩ := contexts.parent_of_linkageSpec dc h
    rw [hparent]
    rfl)

theorem depth_linkageParent (dc : DeclContext) (h : contexts.isLinkageSpecDecl dc = true) :
    contexts.depth (contexts.linkageParent dc h) < contexts.depth dc := by
  obtain ⟨parent, hparent, hdepth⟩ := contexts.parent_of_linkageSpec dc h
  unfold linkageParent
  simpa only [hparent, get_some] using hdepth

/-- The innermost enclosing context that is not a linkage specification. -/
def skipLinkageSpecs (dc : DeclContext) : DeclContext :=
  if h : contexts.isLinkageSpecDecl dc = true then
    skipLinkageSpecs (contexts.linkageParent dc h)
  else dc
  termination_by contexts.depth dc
  decreasing_by exact contexts.depth_linkageParent dc h

/-- The context in which a declaration is looked up. -/
def getBaseContext (nd : Decl) : DeclContext :=
  contexts.getPrimaryContext (contexts.skipLinkageSpecs (contexts.getDeclContext nd))

variable [DecidableEq DeclContext]

/-- Whether `erasedDC` is the primary context of `dc` or of one of its parents. -/
def containsErased (erasedDC dc : DeclContext) : Bool :=
  if erasedDC = contexts.getPrimaryContext dc then true
  else
    match h : contexts.getParent (contexts.getPrimaryContext dc) with
    | some parent =>
      have := contexts.depth_parent dc parent h
      containsErased erasedDC parent
    | none => false
  termination_by contexts.depth dc

end DeclContexts

variable {Decl DeclContext : Type*} [DecidableEq Decl]

/-- Change the first declaration of `d` and of all declarations before it. There is no result
when the fuel runs out. -/
def setFirstDecls (first : Decl) :
    Nat → Redeclarables Decl → Option Decl → Option (Redeclarables Decl)
  | 0, _, _ => none
  | _ + 1, heap, none => some heap
  | fuel + 1, heap, some d =>
    let heap := heap.setFirstDecl d first
    setFirstDecls first fuel heap (heap.getPreviousDecl d)

/-- Close the chain of `R` without `R`, and return its latest declaration. There is no result when
a loop does not end, or when a null pointer is read. -/
def removeFromChain (fuel : Nat) (heap : Redeclarables Decl) (R : Decl) :
    Option (Redeclarables Decl × Decl) :=
  let first := heap.getFirstDecl R
  let mostRecent := heap.getMostRecentDecl first
  if first = mostRecent then some (heap, mostRecent)
  else if R = mostRecent then do
    let mostRecent ← heap.getPreviousDecl mostRecent
    let heap ← heap.setMostRecent first mostRecent
    some (heap, mostRecent)
  else do
    let d ← findNext heap.getPreviousDecl R fuel (some mostRecent)
    if R = first then
      let heap ← heap.setMostRecent d mostRecent
      let heap ← setFirstDecls d fuel heap (some mostRecent)
      some (heap, mostRecent)
    else
      let previous ← heap.getPreviousDecl R
      let heap ← heap.setPrevious d previous
      some (heap, mostRecent)

/-- Unload a redeclaration, and return the declaration that replaces it in the lookup tables. -/
def visitRedeclarable [DecidableEq DeclContext] (contexts : DeclContexts Decl DeclContext)
    (fuel : Nat) (heap : Redeclarables Decl) (R : Decl) :
    Option (Redeclarables Decl × Option Decl) := do
  let lastOne := heap.getFirstDecl R = heap.getMostRecentDecl (heap.getFirstDecl R)
  let (removed, mostRecent) ← removeFromChain fuel heap R
  let erased ← removed.setMostRecent R R
  let erased := erased.setFirstDecl R R
  if lastOne then some (erased, none)
  else if contexts.containsErased (contexts.getBaseContext R) (contexts.getBaseContext mostRecent)
    then some (erased, some mostRecent)
  else some (erased, none)

/-- Unload a sequence of redeclarations. -/
def visitAll [DecidableEq DeclContext] (contexts : DeclContexts Decl DeclContext) (fuel : Nat)
    (heap : Redeclarables Decl) (unloaded : List Decl) : Option (Redeclarables Decl) :=
  unloaded.foldlM (fun heap R => (visitRedeclarable contexts fuel heap R).map Prod.fst) heap

/-- The heap in which some declarations have another first declaration. -/
def withFirst (heap : Redeclarables Decl) (first : Decl) (cells : List Decl) :
    Redeclarables Decl :=
  fun d => if d ∈ cells then { heap d with first := first } else heap d

section WithFirst

variable {heap : Redeclarables Decl} {first d : Decl} {cells : List Decl}

theorem withFirst_of_mem (hd : d ∈ cells) :
    withFirst heap first cells d = { heap d with first := first } := if_pos hd

theorem withFirst_of_notMem (hd : d ∉ cells) : withFirst heap first cells d = heap d := if_neg hd

theorem getPreviousDecl_withFirst :
    (withFirst heap first cells).getPreviousDecl = heap.getPreviousDecl := by
  refine Redeclarables.getPreviousDecl_congr fun d => ?_
  unfold withFirst
  split
  · rfl
  · rfl

theorem withFirst_cons (a : Decl) :
    withFirst (heap.setFirstDecl a first) first cells = withFirst heap first (a :: cells) := by
  funext d
  unfold Redeclarables.setFirstDecl withFirst
  by_cases hd : d = a
  · rw [hd, update_self]
    simp
  · simp [hd]

theorem setFirstDecls_eq {start : Option Decl} (hcells : Linked heap.getPreviousDecl start cells)
    {fuel : Nat} (hfuel : cells.length < fuel) :
    setFirstDecls first fuel heap start = some (withFirst heap first cells) := by
  induction cells generalizing heap start fuel with
  | nil =>
    obtain ⟨fuel, rfl⟩ := Nat.exists_eq_succ_of_ne_zero (Nat.ne_zero_of_lt hfuel)
    cases hcells with
    | nil =>
      unfold setFirstDecls withFirst
      simp
  | cons a rest ih =>
    obtain ⟨fuel, rfl⟩ := Nat.exists_eq_succ_of_ne_zero (Nat.ne_zero_of_lt hfuel)
    have hprevious : (heap.setFirstDecl a first).getPreviousDecl = heap.getPreviousDecl := by
      have hnil : withFirst (heap.setFirstDecl a first) first [] = withFirst heap first [a] :=
        withFirst_cons a
      rw [show heap.setFirstDecl a first = withFirst heap first [a] from hnil,
        getPreviousDecl_withFirst]
    cases hcells with
    | cons hrest =>
      rw [← hprevious] at hrest
      exact (ih hrest (Nat.lt_of_succ_lt_succ hfuel)).trans (congrArg some (withFirst_cons a))

end WithFirst

/-- What taking a declaration out of a chain leaves: the other declarations form a chain, with the
returned one as the latest, and nothing else changes. -/
structure Removed (heap heap' : Redeclarables Decl) (remaining : List Decl) (mostRecent : Decl) :
    Prop where
  wellFormed : WellFormed heap' remaining
  latest : remaining ≠ [] → remaining.head? = some mostRecent
  frame : ∀ d ∉ remaining, heap' d = heap d

variable {heap : Redeclarables Decl}

theorem Removed.latestDecl {R p first : Decl} {rest : List Decl}
    (hchain : WellFormed heap (R :: p :: rest)) (hfirst : (p :: rest).getLast? = some first) :
    Removed heap (heap.setLink first (.knownLatest p)) (p :: rest) p := by
  have hlinked := hchain.linked.tail
  rw [hlinked.start_eq] at hlinked
  have hprevious : (heap.setLink first (.knownLatest p)).getPreviousDecl =
      heap.getPreviousDecl := by
    rw [Redeclarables.getPreviousDecl_setLink, update_eq_self_iff]
    exact (hlinked.previous_of_getLast hfirst).symm
  refine ⟨⟨(nodup_cons.mp hchain.nodup).2, ?_, fun d hd => ?_, fun d hd => ?_⟩,
    fun _ => rfl, fun d hd => ?_⟩
  · rw [hprevious]
    exact hlinked
  · rw [Redeclarables.getFirstDecl_setLink, ← hchain.first d (mem_cons_of_mem _ hd),
      getLast?_cons_cons]
  · rw [hfirst] at hd
    cases hd
    rw [Redeclarables.getNextRedeclaration_setLink, update_self]
    rfl
  · refine Redeclarables.setLink_of_ne ?_ _
    intro heq
    subst heq
    exact hd (mem_of_mem_getLast? hfirst)

theorem Removed.firstDecl {R d mostRecent : Decl} {before : List Decl}
    (hchain : WellFormed heap (before ++ [d, R]))
    (hlatest : (before ++ [d, R]).head? = some mostRecent) :
    Removed heap (withFirst (heap.setLink d (.knownLatest mostRecent)) d (before ++ [d]))
      (before ++ [d]) mostRecent := by
  have hnodup := hchain.nodup
  have hlinked := hchain.linked.unlink hnodup
  have hR : heap.getPreviousDecl R = none := hchain.linked.previous_of_getLast (by simp)
  have hlatest' : (before ++ [d]).head? = some mostRecent := by
    rw [← hlatest]
    cases before with
    | nil | cons _ _ => rfl
  rw [hR, hlatest, ← hlatest'] at hlinked
  refine ⟨⟨?_, ?_, fun e he => ?_, fun e he => ?_⟩, fun _ => hlatest', fun e he => ?_⟩
  · exact hnodup.sublist (by simp)
  · rw [getPreviousDecl_withFirst, Redeclarables.getPreviousDecl_setLink]
    exact hlinked
  · unfold Redeclarables.getFirstDecl
    rw [withFirst_of_mem he, getLast?_concat]
  · rw [getLast?_concat] at he
    cases he
    have hd : d ∈ before ++ [d] := by simp
    unfold Redeclarables.getNextRedeclaration Redeclarables.setLink
    rw [withFirst_of_mem hd, hlatest', update_self]
    rfl
  · have hne : e ≠ d := by
      intro heq
      subst heq
      exact he (by simp)
    rw [withFirst_of_notMem he, Redeclarables.setLink_of_ne hne]

theorem Removed.middleDecl {R next p mostRecent : Decl}
    {before after : List Decl} (hchain : WellFormed heap (before ++ next :: R :: p :: after))
    (hlatest : (before ++ next :: R :: p :: after).head? = some mostRecent) :
    Removed heap (heap.setLink next (.previous p)) (before ++ next :: p :: after) mostRecent := by
  have hnodup := hchain.nodup
  have hlinked := hchain.linked.unlink hnodup
  have hR : heap.getPreviousDecl R = some p := by
    have hsuffix : Linked heap.getPreviousDecl (heap.getPreviousDecl next) (R :: p :: after) :=
      hchain.linked.suffix
    exact hsuffix.tail.start_eq
  have hlatest' : (before ++ next :: p :: after).head? = some mostRecent := by
    rw [← hlatest]
    cases before with
    | nil | cons _ _ => rfl
  have hlast : (before ++ next :: p :: after).getLast? =
      (before ++ next :: R :: p :: after).getLast? := by
    simp [getLast?_append]
  have hsublist : (before ++ next :: p :: after).Sublist (before ++ next :: R :: p :: after) := by
    simp
  rw [hR, hlatest, ← hlatest'] at hlinked
  refine ⟨⟨hnodup.sublist hsublist, ?_, fun e he => ?_, fun e he => ?_⟩, fun _ => hlatest',
    fun e he => ?_⟩
  · rw [Redeclarables.getPreviousDecl_setLink]
    exact hlinked
  · rw [Redeclarables.getFirstDecl_setLink, hlast]
    exact hchain.first e (hsublist.subset he)
  · have hmem : e ∈ p :: after := by
      refine mem_of_mem_getLast? ?_
      simpa using he
    have hne : e ≠ next := by
      intro heq
      subst heq
      have hnext := (nodup_append.mp hnodup).2.1
      exact (nodup_cons.mp hnext).1 (mem_cons_of_mem _ hmem)
    rw [Redeclarables.getNextRedeclaration_setLink, update_of_ne hne, hlatest', ← hlatest]
    rw [hlast] at he
    exact hchain.latest e he
  · refine Redeclarables.setLink_of_ne ?_ _
    intro heq
    subst heq
    exact he (by simp)

theorem removeFromChain_eq {R : Decl} {later earlier : List Decl}
    (hchain : WellFormed heap (later ++ R :: earlier)) {fuel : Nat}
    (hfuel : (later ++ R :: earlier).length ≤ fuel) :
    ∃ heap' mostRecent, removeFromChain fuel heap R = some (heap', mostRecent) ∧
      Removed heap heap' (later ++ earlier) mostRecent ∧
      (later ++ earlier = [] ↔
        heap.getFirstDecl R = heap.getMostRecentDecl (heap.getFirstDecl R)) := by
  have hR : R ∈ later ++ R :: earlier := by simp
  obtain ⟨first, hfirst⟩ : ∃ first, heap.getFirstDecl R = first := ⟨_, rfl⟩
  have hlast : (later ++ R :: earlier).getLast? = some first := by
    rw [← hfirst]
    exact hchain.first R hR
  obtain ⟨mostRecent, hmostRecent⟩ : ∃ mostRecent, heap.getMostRecentDecl first = mostRecent :=
    ⟨_, rfl⟩
  have hlatest : (later ++ R :: earlier).head? = some mostRecent := by
    rw [← hmostRecent]
    exact hchain.getMostRecentDecl_eq (mem_of_mem_getLast? hlast)
  unfold removeFromChain
  simp only [hfirst, hmostRecent]
  rcases eq_nil_or_concat' later with rfl | ⟨before, next, rfl⟩
  · cases earlier with
    | nil =>
      -- the only declaration
      have hsame : first = mostRecent := by
        cases hlast
        cases hlatest
        rfl
      rw [if_pos hsame]
      refine ⟨heap, mostRecent, rfl, ⟨⟨nodup_nil, .nil, ?_, ?_⟩, ?_, fun _ _ => rfl⟩,
        iff_of_true rfl hsame⟩
      · intro d hd
        cases hd
      · intro d hd
        cases hd
      · intro hne
        exact absurd rfl hne
    | cons p rest =>
      -- the latest declaration
      have hRlatest : R = mostRecent := Option.some.inj hlatest
      have hne : first ≠ mostRecent := by
        intro heq
        subst heq
        rw [← hRlatest] at hlast
        exact (nodup_cons.mp hchain.nodup).1 (mem_of_mem_getLast? hlast)
      have hprevious : heap.getPreviousDecl mostRecent = some p := by
        rw [← hRlatest]
        exact hchain.linked.tail.start_eq
      rw [if_neg hne, if_pos hRlatest, hprevious]
      refine ⟨_, p, ?_, .latestDecl hchain hlast, iff_of_false (cons_ne_nil _ _) hne⟩
      simp only [bind_eq_bind, bind_some, Redeclarables.setMostRecent_eq]
  · rw [append_assoc, singleton_append] at hchain hlast hlatest hfuel hR
    have hnodup := hchain.nodup
    -- the latest declaration is not the one to remove
    have hne : R ≠ mostRecent := by
      intro heq
      subst heq
      exact hchain.linked.start_ne hnodup hlatest
    have hnone : heap.getPreviousDecl first = none := hchain.linked.previous_of_getLast hlast
    have hne' : first ≠ mostRecent := by
      intro heq
      subst heq
      cases before with
      | nil =>
        cases hlatest
        rw [hchain.linked.tail.start_eq] at hnone
        cases hnone
      | cons a before =>
        cases hlatest
        rw [hchain.linked.tail.start_eq] at hnone
        simp at hnone
    have hnext : findNext heap.getPreviousDecl R fuel (some mostRecent) = some next := by
      rw [← hlatest]
      refine hchain.linked.findNext_eq hnodup (Nat.lt_of_lt_of_le ?_ hfuel)
      rw [length_append, length_cons]
      exact Nat.lt_add_of_pos_right (Nat.succ_pos _)
    cases earlier with
    | nil =>
      -- the first declaration
      have hRfirst : R = first := by simpa using hlast
      have hremoved := Removed.firstDecl hchain hlatest
      have hlinked := hremoved.wellFormed.linked
      rw [getPreviousDecl_withFirst, hremoved.latest (by simp)] at hlinked
      rw [if_neg hne', if_neg hne, hnext, append_nil]
      refine ⟨_, mostRecent, ?_, hremoved, iff_of_false (by simp) hne'⟩
      simp only [bind_eq_bind, bind_some, Redeclarables.setMostRecent_eq, if_pos hRfirst]
      have hlength : (before ++ [next]).length < fuel := by
        rw [length_append, length_cons, length_singleton] at hfuel
        rw [length_append, length_singleton]
        omega
      rw [setFirstDecls_eq hlinked hlength]
      rfl
    | cons p rest =>
      -- a declaration in the middle
      have hsuffix : Linked heap.getPreviousDecl (heap.getPreviousDecl next) (R :: p :: rest) :=
        hchain.linked.suffix
      have hprevious : heap.getPreviousDecl R = some p := hsuffix.tail.start_eq
      have hset := Redeclarables.setPrevious_eq hsuffix.start_eq p
      have hRfirst : R ≠ first := by
        intro heq
        subst heq
        rw [hprevious] at hnone
        cases hnone
      rw [if_neg hne', if_neg hne, hnext, append_assoc]
      refine ⟨_, mostRecent, ?_, .middleDecl hchain hlatest, iff_of_false (by simp) hne'⟩
      simp only [bind_eq_bind, bind_some, if_neg hRfirst, hprevious, hset]

/-- What unloading a member of a chain leaves: the other members form a chain, the unloaded one is
a chain of its own, and no declaration of another chain changes. -/
structure Unloaded (heap heap' : Redeclarables Decl) (R : Decl) (remaining : List Decl) : Prop where
  wellFormed : WellFormed heap' remaining
  singleton : WellFormed heap' [R]
  frame : ∀ d ∉ R :: remaining, heap' d = heap d

variable [DecidableEq DeclContext]

theorem visitRedeclarable_eq (contexts : DeclContexts Decl DeclContext)
    {R : Decl} {later earlier : List Decl} (hchain : WellFormed heap (later ++ R :: earlier))
    {fuel : Nat} (hfuel : (later ++ R :: earlier).length ≤ fuel) :
    ∃ heap' replacement, visitRedeclarable contexts fuel heap R = some (heap', replacement) ∧
      Unloaded heap heap' R (later ++ earlier) ∧
      ∀ d, replacement = some d → (later ++ earlier).head? = some d := by
  obtain ⟨removed, mostRecent, heq, hremoved, hlastOne⟩ := removeFromChain_eq hchain hfuel
  have hR : R ∉ later ++ earlier := by
    have hnodup : (R :: (later ++ earlier)).Nodup :=
      perm_middle.nodup_iff.mp hchain.nodup
    exact (nodup_cons.mp hnodup).1
  -- the link and the first declaration of `R` lead to itself
  have herased : ∀ d, ((removed.setLink R (.knownLatest R)).setFirstDecl R R) d =
      if d = R then ⟨.knownLatest R, R⟩ else removed d := by
    intro d
    unfold Redeclarables.setFirstDecl Redeclarables.setLink
    by_cases hd : d = R
    · rw [hd, update_self, update_self, if_pos rfl]
    · rw [update_of_ne hd, update_of_ne hd, if_neg hd]
  have hunloaded : Unloaded heap ((removed.setLink R (.knownLatest R)).setFirstDecl R R) R
      (later ++ earlier) := by
    refine ⟨hremoved.wellFormed.congr fun d hd => ?_, ?_, fun d hd => ?_⟩
    · have hne : d ≠ R := by
        intro heq
        subst heq
        exact hR hd
      rw [herased, if_neg hne]
    · exact .singleton ((herased R).trans (if_pos rfl))
    · obtain ⟨hne, hd⟩ := ne_and_not_mem_of_not_mem_cons hd
      rw [herased, if_neg hne, hremoved.frame d hd]
  unfold visitRedeclarable
  simp only [heq, bind_eq_bind, bind_some, Redeclarables.setMostRecent_eq]
  split
  · exact ⟨_, none, rfl, hunloaded, fun d hd => by cases hd⟩
  · next hmore =>
      rw [← hlastOne] at hmore
      split
      · refine ⟨_, some mostRecent, rfl, hunloaded, fun d hd => ?_⟩
        rw [← hd]
        exact hremoved.latest hmore
      · exact ⟨_, none, rfl, hunloaded, fun d hd => by cases hd⟩

/-- Unloading any members of a chain, in any order, always works. The members that are left form a
chain in their order, the iterator goes through exactly these, and each unloaded declaration is a
chain of its own. -/
theorem visitAll_wellFormed (contexts : DeclContexts Decl DeclContext)
    {chain unloaded : List Decl} (hchain : WellFormed heap chain)
    (hnodup : unloaded.Nodup) (hsubset : unloaded ⊆ chain) {fuel : Nat}
    (hfuel : chain.length ≤ fuel) :
    ∃ heap', visitAll contexts fuel heap unloaded = some heap' ∧
      WellFormed heap' (chain.filter fun d => d ∉ unloaded) ∧
      (∀ d ∈ unloaded, WellFormed heap' [d]) ∧ (∀ d ∉ chain, heap' d = heap d) ∧
      ∀ later d earlier, (chain.filter fun d => d ∉ unloaded) = later ++ d :: earlier →
        heap'.redecls fuel d = some (d :: earlier ++ later) := by
  induction unloaded generalizing heap chain with
  | nil =>
    have hfilter : (chain.filter fun d => d ∉ ([] : List Decl)) = chain := by simp
    rw [hfilter]
    refine ⟨heap, rfl, hchain, ?_, fun _ _ => rfl, fun later d earlier heq => ?_⟩
    · intro d hd
      cases hd
    · subst heq
      exact hchain.redecls_eq hfuel
  | cons R rest ih =>
    obtain ⟨later, earlier, hsplit⟩ := append_of_mem (hsubset mem_cons_self)
    subst hsplit
    obtain ⟨hR, hnodup'⟩ := nodup_cons.mp hnodup
    obtain ⟨middle, replacement, heq, hunloaded, -⟩ :=
      visitRedeclarable_eq contexts hchain hfuel
    have hnodupR : (R :: (later ++ earlier)).Nodup :=
      perm_middle.nodup_iff.mp hchain.nodup
    have hRnot := (nodup_cons.mp hnodupR).1
    have hsubset' : rest ⊆ later ++ earlier := by
      intro d hd
      have hmem := hsubset (mem_cons_of_mem _ hd)
      have hne : d ≠ R := by
        intro heq
        subst heq
        exact hR hd
      exact (mem_cons.mp (perm_middle.mem_iff.mp hmem)).resolve_left hne
    have hfilter : ((later ++ R :: earlier).filter fun d => d ∉ R :: rest) =
        (later ++ earlier).filter fun d => d ∉ rest := by
      have hmiddle : ((later ++ R :: earlier).filter fun d => d ∉ R :: rest) =
          (later ++ earlier).filter fun d => d ∉ R :: rest := by
        rw [filter_append, filter_cons_of_neg (by simp), ← filter_append]
      rw [hmiddle]
      refine filter_congr fun d hd => ?_
      have hne : d ≠ R := by
        intro heq
        subst heq
        exact hRnot hd
      simp [hne]
    have hfuel' : (later ++ earlier).length ≤ fuel := by
      rw [perm_middle.length_eq, length_cons] at hfuel
      omega
    obtain ⟨heap', heq', hremaining, hsingletons, hframe, hredecls⟩ :=
      ih hunloaded.wellFormed hnodup' hsubset' hfuel'
    rw [hfilter]
    refine ⟨heap', ?_, hremaining, fun d hd => ?_, fun d hd => ?_, hredecls⟩
    · unfold visitAll at heq' ⊢
      rw [foldlM_cons, heq]
      exact heq'
    · rcases mem_cons.mp hd with rfl | hd
      · refine hunloaded.singleton.congr fun e he => ?_
        rw [mem_singleton.mp he]
        exact hframe d hRnot
      · exact hsingletons d hd
    · rw [perm_middle.mem_iff] at hd
      obtain ⟨-, hd'⟩ := ne_and_not_mem_of_not_mem_cons hd
      rw [hframe d hd', hunloaded.frame d hd]

/-- The declarations of a translation unit without further contexts. -/
def translationUnit (Decl : Type*) : DeclContexts Decl Unit where
  getDeclContext _ := ()
  isLinkageSpecDecl _ := false
  getParent _ := none
  getPrimaryContext dc := dc
  depth _ := 0
  depth_parent := by
    intro dc parent hparent
    cases hparent
  parent_of_linkageSpec := by
    intro dc h
    cases h

/-- Three declarations `0`, `1` and `2` of one entity. -/
def threeRedeclarations : Redeclarables Nat
  | 0 => ⟨.knownLatest 2, 0⟩
  | d + 1 => ⟨.previous d, 0⟩

/-- The first and then the latest of three declarations are unloaded. -/
theorem visitAll_threeRedeclarations :
    ∃ heap', visitAll (translationUnit Nat) 3 threeRedeclarations [0, 2] = some heap' ∧
      WellFormed heap' ([2, 1, 0].filter fun d => d ∉ [0, 2]) ∧
      (∀ d ∈ [0, 2], WellFormed heap' [d]) ∧
      (∀ d ∉ [2, 1, 0], heap' d = threeRedeclarations d) ∧
      ∀ later d earlier, ([2, 1, 0].filter fun d => d ∉ [0, 2]) = later ++ d :: earlier →
        heap'.redecls 3 d = some (d :: earlier ++ later) := by
  have hchain : WellFormed threeRedeclarations [2, 1, 0] :=
    ⟨by decide, .cons (.cons (.cons .nil)), by decide, by decide⟩
  exact visitAll_wellFormed (translationUnit Nat) hchain (by decide) (by decide) (by decide)

end Zapcc.Unload
