import Zapcc.ADT.ImmutableSetTrees

/-!
# Building the tree with or without a value

Over finished trees, `add_internal` and `remove_internal` build the trees that `SearchTree.insert`
and `SearchTree.remove` describe, and leave every node that existed as it was: `add_internal_spec`
and `remove_internal_spec`.
-/

namespace Zapcc.ADT.ImutAVLFactory

open RelaxedAVL Finset Nat Option

variable {α : Type} {F F' : ImutAVLFactory α} {S S' : Finset Nat} {P : Nat → Nat}

/-- What an operation gives that may find its tree among the ones that exist. -/
structure Gives (F : ImutAVLFactory α) (S : Finset Nat) (P : Nat → Nat) (F' : ImutAVLFactory α)
    (S' : Finset Nat) (q : Option Nat) (t : SearchTree α) : Prop where
  constructing : Constructing F' S' P
  grows : Grows F S F' S'
  alive : Alive S' q
  tree : Holds F' q t

/-- A new tree, to which nothing refers yet. -/
def Unreferenced (F : ImutAVLFactory α) (q : Option Nat) : Prop :=
  ∃ T N, q = some T ∧ F.memory T = some N ∧ N.refCount = 0

variable {t : SearchTree α} {p : Option Nat}

variable {T fuel : Nat} {q : Option Nat}

theorem Made.gives (h : Made F S P F' S' T t) :
    Gives F S P F' S' (some T) t :=
  ⟨h.constructing, h.grows, alive_some h.alive, h.tree⟩

theorem Made.of_gives {F'' : ImutAVLFactory α} {S'' : Finset Nat}
    {s t : SearchTree α} (h : Gives F S P F' S' q s) (h' : Made F' S' P F'' S'' T t) :
    Made F S P F'' S'' T t :=
  { h' with grows := h.grows.trans h'.grows }

theorem Made.unreferencedRoot (h : Made F S P F' S' T t) :
    Unreferenced F' (some T) := by
  obtain ⟨N, hmem, hcount⟩ := h.unreferenced
  exact ⟨T, N, rfl, hmem, hcount⟩

theorem Gives.refl (h : Constructing F S P) (hq : Alive S q)
    (ht : Holds F q t) : Gives F S P F S q t :=
  ⟨h, Grows.refl F S, hq, ht⟩

theorem Gives.balance_left {R : Option Nat} {l r : SearchTree α} (h : Gives F S P F' S' q l)
    (hV : Valid F S P) (hR : Alive S R) (hr : Holds F R r) (V : α) :
    ∃ T F'' S'', F'.balanceTree q V R = some (T, F'') ∧ Made F S P F'' S'' T (l.balance V r) := by
  obtain ⟨T, F'', S'', hrun, hmade⟩ := balanceTree_spec V h.constructing h.alive
    (hR.mono h.grows.sub) h.tree (hr.grows hV hR h.grows)
  exact ⟨T, F'', S'', hrun, Made.of_gives h hmade⟩

theorem Gives.balance_right {L : Option Nat} {l r : SearchTree α} (h : Gives F S P F' S' q r)
    (hV : Valid F S P) (hL : Alive S L) (hl : Holds F L l) (V : α) :
    ∃ T F'' S'', F'.balanceTree L V q = some (T, F'') ∧ Made F S P F'' S'' T (l.balance V r) := by
  obtain ⟨T, F'', S'', hrun, hmade⟩ := balanceTree_spec V h.constructing (hL.mono h.grows.sub)
    h.alive (hl.grows hV hL h.grows) h.tree
  exact ⟨T, F'', S'', hrun, Made.of_gives h hmade⟩

theorem Holds.eq_none (h : Holds F p .nil) : p = none := by
  cases h
  rfl

theorem Constructing.children {N : ImutAVLTree α} (h : Constructing F S P) (hT : T ∈ S)
    (hmem : F.memory T = some N) (himm : Immutable F (some T)) :
    N.IsMutable = false ∧ Alive S N.left ∧ Alive S N.right ∧ Immutable F N.left ∧
      Immutable F N.right := by
  have hN := himm T N rfl hmem
  obtain ⟨hal, har⟩ := h.toValid.alive hT hmem
  obtain ⟨hil, hir⟩ := h.closed T hT (Set.notMem_empty T) N hmem hN
  exact ⟨hN, hal, har, hil, hir⟩

/-! ## Adding -/

theorem add_internal_spec [LinearOrder α] (V : α)
    (h : Constructing F S P) (hp : Alive S p) (ht : Holds F p t) (himm : Immutable F p)
    (hfuel : t.height < fuel) :
    ∃ T F' S', F.add_internal fuel V p = some (T, F') ∧ Made F S P F' S' T (t.insert V) := by
  induction t generalizing p fuel with
  | nil =>
    obtain ⟨k, rfl⟩ := exists_eq_succ_of_ne_zero (by omega : fuel ≠ 0)
    rw [ht.eq_none]
    exact createNode_spec V h alive_none alive_none .nil .nil
  | node l w r ihl ihr =>
    obtain ⟨k, rfl⟩ := exists_eq_succ_of_ne_zero (by omega : fuel ≠ 0)
    rw [SearchTree.height_node] at hfuel
    cases ht with
    | @node T N _ _ hmem hleft hright hheight =>
      obtain ⟨hN, hal, har, hil, hir⟩ := h.children (hp T rfl) hmem himm
      unfold add_internal SearchTree.insert
      simp only [hmem, hN, bind_eq_bind, bind_some, Bool.false_eq_true, if_false]
      split_ifs with heq hlt
      · exact createNode_spec V h hal har hleft hright
      · obtain ⟨T₁, F₁, S₁, hrun₁, hmade₁⟩ := ihl hal hleft hil (show _ < k by omega)
        obtain ⟨T₂, F₂, S₂, hrun₂, hmade₂⟩ :=
          hmade₁.gives.balance_left h.toValid har hright N.value
        refine ⟨T₂, F₂, S₂, ?_, hmade₂⟩
        simp [hrun₁, hrun₂]
      · obtain ⟨T₁, F₁, S₁, hrun₁, hmade₁⟩ := ihr har hright hir (show _ < k by omega)
        obtain ⟨T₂, F₂, S₂, hrun₂, hmade₂⟩ :=
          hmade₁.gives.balance_right h.toValid hal hleft N.value
        refine ⟨T₂, F₂, S₂, ?_, hmade₂⟩
        simp [hrun₁, hrun₂]

/-! ## Removing -/

theorem removeMinBinding_spec {l r : SearchTree α} {v : α} (h : Constructing F S P)
    (hT : T ∈ S) (ht : Holds F (some T) (.node l v r)) (hfuel : l.height < fuel) :
    ∃ n q F' S' N, F.removeMinBinding fuel (some T) = some (n, q, F') ∧
      Gives F S P F' S' q (SearchTree.removeMin l v r).2 ∧ n ∈ S ∧ F.memory n = some N ∧
        N.value = (SearchTree.removeMin l v r).1 := by
  induction l generalizing T v r fuel with
  | nil =>
    obtain ⟨k, rfl⟩ := exists_eq_succ_of_ne_zero (by omega : fuel ≠ 0)
    cases ht with
    | @node _ N _ _ hmem hleft hright hheight =>
      obtain ⟨hal, har⟩ := h.toValid.alive hT hmem
      refine ⟨T, N.right, F, S, N, ?_, Gives.refl h har hright, hT, hmem, rfl⟩
      unfold removeMinBinding deref
      simp [hmem, hleft.eq_none]
  | node ll lv lr ihl _ =>
    obtain ⟨k, rfl⟩ := exists_eq_succ_of_ne_zero (by omega : fuel ≠ 0)
    rw [SearchTree.height_node] at hfuel
    cases ht with
    | @node _ N _ _ hmem hleft hright hheight =>
      obtain ⟨hal, har⟩ := h.toValid.alive hT hmem
      cases hL : N.left with
      | none =>
        rw [hL] at hleft
        cases hleft
      | some L =>
        rw [hL] at hleft hal
        obtain ⟨n, q, F₁, S₁, M, hrun₁, hgives₁, hn, hM, hvalue⟩ :=
          ihl (hal L rfl) hleft (show _ < k by omega)
        obtain ⟨T₂, F₂, S₂, hrun₂, hmade₂⟩ :=
          hgives₁.balance_left h.toValid har hright N.value
        refine ⟨n, some T₂, F₂, S₂, M, ?_, hmade₂.gives, hn, hM, hvalue⟩
        unfold removeMinBinding deref
        simp [hmem, hL, hrun₁, hrun₂]

theorem combineTrees_spec {L R : Option Nat} {l r : SearchTree α}
    (h : Constructing F S P) (hL : Alive S L) (hR : Alive S R) (hl : Holds F L l) (hr : Holds F R r)
    (hfuel : r.height ≤ fuel) :
    ∃ q F' S', combineTrees fuel F L R = some (q, F') ∧ Gives F S P F' S' q (l.combine r) ∧
      (Unreferenced F' q ∨ q = L ∨ q = R) := by
  cases L with
  | none =>
    rw [hl.eq_nil]
    refine ⟨R, F, S, rfl, ?_, .inr (.inr rfl)⟩
    cases r with
    | nil | node rl rv rr => exact Gives.refl h hR hr
  | some L =>
    cases R with
    | none =>
      rw [hr.eq_nil]
      exact ⟨some L, F, S, rfl, Gives.refl h hL hl, .inr (.inl rfl)⟩
    | some R =>
      obtain ⟨NL, ll, lr, hmemL, rfl, -, -, -⟩ := hl.root
      obtain ⟨NR, rl, rr, hmemR, rfl, -, -, -⟩ := hr.root
      rw [SearchTree.height_node] at hfuel
      obtain ⟨n, q, F₁, S₁, N, hrun₁, hgives₁, hn, hN, hvalue⟩ :=
        removeMinBinding_spec h (hR R rfl) hr (show _ < fuel by omega)
      obtain ⟨c, hc⟩ := hgives₁.grows.same n hn N hN
      obtain ⟨T₂, F₂, S₂, hrun₂, hmade⟩ := hgives₁.balance_right h.toValid hL hl N.value
      rw [hvalue] at hmade
      refine ⟨some T₂, F₂, S₂, ?_, hmade.gives, .inl hmade.unreferencedRoot⟩
      unfold combineTrees
      simp [hrun₁, hc, hrun₂]

theorem remove_internal_spec [LinearOrder α] (K : α)
    (h : Constructing F S P) (hp : Alive S p) (ht : Holds F p t) (himm : Immutable F p)
    (hfuel : t.height < fuel) :
    ∃ q F' S', F.remove_internal fuel K p = some (q, F') ∧ Gives F S P F' S' q (t.remove K) ∧
      (Unreferenced F' q ∨ q = none ∨
        ∃ T N, p = some T ∧ F.memory T = some N ∧ (q = N.left ∨ q = N.right)) := by
  induction t generalizing p fuel with
  | nil =>
    obtain ⟨k, rfl⟩ := exists_eq_succ_of_ne_zero (by omega : fuel ≠ 0)
    rw [ht.eq_none]
    exact ⟨none, F, S, rfl, Gives.refl h alive_none .nil, .inr (.inl rfl)⟩
  | node l w r ihl ihr =>
    obtain ⟨k, rfl⟩ := exists_eq_succ_of_ne_zero (by omega : fuel ≠ 0)
    rw [SearchTree.height_node] at hfuel
    cases ht with
    | @node T N _ _ hmem hleft hright hheight =>
      obtain ⟨hN, hal, har, hil, hir⟩ := h.children (hp T rfl) hmem himm
      unfold remove_internal SearchTree.remove
      simp only [hmem, hN, bind_eq_bind, bind_some, Bool.false_eq_true, if_false]
      split_ifs with heq hlt
      · obtain ⟨q, F₁, S₁, hrun, hgives, hroot⟩ :=
          combineTrees_spec h hal har hleft hright (show _ ≤ k by omega)
        refine ⟨q, F₁, S₁, hrun, hgives, ?_⟩
        exact hroot.imp_right fun hq => .inr ⟨T, N, rfl, hmem, hq⟩
      · obtain ⟨q, F₁, S₁, hrun₁, hgives₁, -⟩ := ihl hal hleft hil (show _ < k by omega)
        obtain ⟨T₂, F₂, S₂, hrun₂, hmade⟩ :=
          hgives₁.balance_left h.toValid har hright N.value
        refine ⟨some T₂, F₂, S₂, ?_, hmade.gives, .inl hmade.unreferencedRoot⟩
        simp [hrun₁, hrun₂]
      · obtain ⟨q, F₁, S₁, hrun₁, hgives₁, -⟩ := ihr har hright hir (show _ < k by omega)
        obtain ⟨T₂, F₂, S₂, hrun₂, hmade⟩ :=
          hgives₁.balance_right h.toValid hal hleft N.value
        refine ⟨some T₂, F₂, S₂, ?_, hmade.gives, .inl hmade.unreferencedRoot⟩
        simp [hrun₁, hrun₂]

/-! ## The recursion -/

theorem Holds.exists_path (h : Holds F p t) (hV : Valid F S P)
    (hp : Alive S p) : ∃ A : Finset Nat, A ⊆ S ∧ A.card = t.height ∧
      ∀ n ∈ A, ∃ s, Holds F (some n) s ∧ s.height ≤ t.height := by
  induction h with
  | nil => exact ⟨∅, empty_subset S, rfl, fun n hn => absurd hn (notMem_empty n)⟩
  | @node T N l r hmem hleft hright hheight ihl ihr =>
    have hT := hp T rfl
    obtain ⟨hal, har⟩ := hV.alive hT hmem
    have hself : Holds F (some T) (.node l N.value r) := .node hmem hleft hright hheight
    -- the path through the higher child
    have hextend : ∀ {c : SearchTree α} {A : Finset Nat}, A ⊆ S → A.card = c.height →
        (∀ n ∈ A, ∃ s, Holds F (some n) s ∧ s.height ≤ c.height) →
        (SearchTree.node l N.value r).height = c.height + 1 →
        ∃ A : Finset Nat, A ⊆ S ∧ A.card = (SearchTree.node l N.value r).height ∧
          ∀ n ∈ A, ∃ s, Holds F (some n) s ∧ s.height ≤ (SearchTree.node l N.value r).height := by
      intro c A hsub hcard hpath hc
      have hnot : T ∉ A := by
        intro hmemA
        obtain ⟨s, hs, hle⟩ := hpath T hmemA
        rw [hs.unique hself, hc] at hle
        exact absurd hle (not_succ_le_self _)
      refine ⟨insert T A, insert_subset hT hsub, ?_, fun n hn => ?_⟩
      · rw [card_insert_of_notMem hnot, hcard, hc]
      · rcases mem_insert.mp hn with rfl | hn
        · exact ⟨_, hself, le_rfl⟩
        · obtain ⟨s, hs, hle⟩ := hpath n hn
          exact ⟨s, hs, by omega⟩
    rcases Nat.le_total r.height l.height with hle | hle
    · obtain ⟨A, hsub, hcard, hpath⟩ := ihl hal
      exact hextend hsub hcard hpath (by rw [SearchTree.height_node, Nat.max_eq_left hle])
    · obtain ⟨A, hsub, hcard, hpath⟩ := ihr har
      exact hextend hsub hcard hpath (by rw [SearchTree.height_node, Nat.max_eq_right hle])

theorem Valid.card_le (h : Valid F S P) : S.card ≤ F.allocated := by
  have hsub : S ⊆ Finset.range F.allocated := fun n hn => mem_range.mpr (h.bound n hn)
  simpa using card_le_card hsub

theorem Holds.height_lt_pathFuel (h : Holds F p t)
    (hV : Valid F S P) (hp : Alive S p) : t.height < F.pathFuel := by
  obtain ⟨A, hsub, hcard, -⟩ := h.exists_path hV hp
  have hle := card_le_card hsub
  have hS := hV.card_le
  unfold pathFuel
  omega

end Zapcc.ADT.ImutAVLFactory
