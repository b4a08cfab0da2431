import Mathlib.Data.Finset.Basic

/-!
# Traversals that mark what they have seen

A traversal marks nodes and goes on to their successors. `Extends next S S'` says that everything
which was marked on the way from `S` to `S'` has its successors marked too. It composes, so a
traversal that starts from nothing ends in a closed set. `foldlM_spec` is the rule for the loop
that visits a list of nodes, `search_spec` the rule for the loop that ends at the first find, and
`unseen` the measure that shows that a traversal ends.
-/

namespace Zapcc.Traversal

open List

variable {α : Type*}

/-- `S'` has more marked nodes than `S`, and the successors of the new ones are marked. -/
structure Extends (next : α → Set α) (S S' : Set α) : Prop where
  subset : S ⊆ S'
  closed : ∀ x ∈ S', x ∉ S → next x ⊆ S'

namespace Extends

variable {next : α → Set α} {S S' S'' : Set α}

theorem refl (next : α → Set α) (S : Set α) : Extends next S S :=
  ⟨Set.Subset.rfl, fun _ hx hnot => absurd hx hnot⟩

theorem trans (h : Extends next S S') (h' : Extends next S' S'') : Extends next S S'' := by
  refine ⟨h.subset.trans h'.subset, fun x hx hnot => ?_⟩
  by_cases hmiddle : x ∈ S'
  · exact (h.closed x hmiddle hnot).trans h'.subset
  · exact h'.closed x hx hmiddle

theorem visit {x : α} (h : Extends next (insert x S) S') (hnext : next x ⊆ S') :
    Extends next S S' := by
  refine ⟨(Set.subset_insert x S).trans h.subset, fun y hy hnot => ?_⟩
  by_cases hyx : y = x
  · rw [hyx]
    exact hnext
  · exact h.closed y hy fun hmem => (Set.mem_insert_iff.mp hmem).elim hyx hnot

theorem closed_of_empty (h : Extends next ∅ S) {x : α} (hx : x ∈ S) : next x ⊆ S :=
  h.closed x hx (Set.notMem_empty x)

end Extends

/-- A loop over a list that keeps `P`, moves forward along `R` and establishes `Q` for each
element, where `Q` is never lost. -/
theorem foldlM_spec {σ : Type*} {visit : σ → α → Option σ} {P : σ → Prop} {R : σ → σ → Prop}
    {Q : α → σ → Prop} (hrefl : ∀ s, R s s) (htrans : ∀ s s' s'', R s s' → R s' s'' → R s s'')
    (hmono : ∀ x s s', R s s' → Q x s → Q x s') {xs : List α}
    (hvisit : ∀ x ∈ xs, ∀ s, P s → ∃ s', visit s x = some s' ∧ P s' ∧ R s s' ∧ Q x s')
    {s : σ} (hs : P s) :
    ∃ s', xs.foldlM visit s = some s' ∧ P s' ∧ R s s' ∧ ∀ x ∈ xs, Q x s' := by
  induction xs generalizing s with
  | nil => exact ⟨s, rfl, hs, hrefl s, fun x hx => absurd hx not_mem_nil⟩
  | cons x rest ih =>
    obtain ⟨middle, hmiddle, hP, hR, hQ⟩ := hvisit x mem_cons_self s hs
    obtain ⟨s', hs', hP', hR', hQ'⟩ :=
      ih (fun y hy => hvisit y (mem_cons_of_mem _ hy)) hP
    refine ⟨s', ?_, hP', htrans _ _ _ hR hR', fun y hy => ?_⟩
    · rw [foldlM_cons, hmiddle]
      exact hs'
    · rcases mem_cons.mp hy with rfl | hy
      · exact hmono _ _ _ hR' hQ
      · exact hQ' y hy

/-- Visit a list of nodes until a visit finds something. -/
def search {σ : Type*} (visit : σ → α → Option (Bool × σ)) : σ → List α → Option (Bool × σ)
  | s, [] => some (false, s)
  | s, x :: xs => do
    let (found, s) ← visit s x
    if found then some (true, s) else search visit s xs

/-- A loop that ends at the first find. Up to there it keeps `P`, moves forward along `R` and
establishes `Q` for each element, where `Q` is never lost. -/
theorem search_spec {σ : Type*} {visit : σ → α → Option (Bool × σ)} {P : σ → Prop}
    {R : σ → σ → Prop} {Q F : α → σ → Prop} (hrefl : ∀ s, R s s)
    (htrans : ∀ s s' s'', R s s' → R s' s'' → R s s'') (hmono : ∀ x s s', R s s' → Q x s → Q x s')
    {xs : List α}
    (hvisit : ∀ x ∈ xs, ∀ s, P s → ∃ found s', visit s x = some (found, s') ∧
      (found = true → F x s') ∧ (found = false → P s' ∧ R s s' ∧ Q x s'))
    {s : σ} (hs : P s) :
    ∃ found s', search visit s xs = some (found, s') ∧ (found = true → ∃ x ∈ xs, F x s') ∧
      (found = false → P s' ∧ R s s' ∧ ∀ x ∈ xs, Q x s') := by
  induction xs generalizing s with
  | nil =>
    exact ⟨false, s, rfl, fun h => absurd h Bool.false_ne_true,
      fun _ => ⟨hs, hrefl s, fun x hx => absurd hx not_mem_nil⟩⟩
  | cons x rest ih =>
    obtain ⟨found, middle, hmiddle, htrue, hfalse⟩ := hvisit x mem_cons_self s hs
    cases found with
    | true =>
      refine ⟨true, middle, ?_, fun _ => ⟨x, mem_cons_self, htrue rfl⟩,
        fun h => absurd h Bool.false_ne_true.symm⟩
      simp [search, hmiddle]
    | false =>
      obtain ⟨hP, hR, hQ⟩ := hfalse rfl
      obtain ⟨found, s', hs', htrue', hfalse'⟩ :=
        ih (fun y hy => hvisit y (mem_cons_of_mem _ hy)) hP
      refine ⟨found, s', ?_, fun h => ?_, fun h => ?_⟩
      · simp [search, hmiddle, hs']
      · obtain ⟨y, hy, hF⟩ := htrue' h
        exact ⟨y, mem_cons_of_mem _ hy, hF⟩
      · obtain ⟨hP', hR', hQ'⟩ := hfalse' h
        refine ⟨hP', htrans _ _ _ hR hR', fun y hy => ?_⟩
        rcases mem_cons.mp hy with heq | hy
        · rw [heq]
          exact hmono _ _ _ hR' hQ
        · exact hQ' y hy

variable [DecidableEq α]

/-- The number of entries of a list that are not marked yet. -/
def unseen (nodes : List α) (seen : Finset α) : Nat :=
  (nodes.filter fun x => x ∉ seen).length

/-- Fewer entries are left when more are marked. -/
theorem unseen_mono (nodes : List α) {seen seen' : Finset α} (h : seen ⊆ seen') :
    unseen nodes seen' ≤ unseen nodes seen := by
  refine (monotone_filter_right nodes fun x hx => ?_).length_le
  rw [decide_eq_true_eq] at hx ⊢
  exact fun hmem => hx (h hmem)

theorem unseen_insert_lt {nodes : List α} {seen : Finset α} {x : α} (hx : x ∈ nodes)
    (hnot : x ∉ seen) : unseen nodes (insert x seen) < unseen nodes seen := by
  have hfilter : (nodes.filter fun y => y ∉ insert x seen) =
      (nodes.filter fun y => y ∉ seen).filter fun y => y ≠ x := by
    simp
  unfold unseen
  rw [hfilter, length_filter_lt_length_iff_exists]
  refine ⟨x, mem_filter.mpr ⟨hx, ?_⟩, ?_⟩
  · simpa using hnot
  · simp

end Zapcc.Traversal
