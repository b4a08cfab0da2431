import Zapcc.ADT.ImmutableSetTrees

/-!
# The comparison of two trees

`Walk` says which values a walk has before it and how many steps it can still take. The comparison
of two trees runs two walks side by side, and leaves out the subtrees that are the same node in
both: `isEqual_spec`.
-/

namespace Zapcc.ADT.ImutAVLFactory

open RelaxedAVL Option List

variable {α : Type} {F : ImutAVLFactory α}

/-! ## Walks -/

/-- The values behind the subtree of the first node that is left, for the nodes above it, and a
bound of the steps to their end. -/
inductive Above (F : ImutAVLFactory α) : Stack → List α → Nat → Prop
  | nil : Above F [] [] 0
  | left {T : Nat} {l r : SearchTree α} {v : α} {stack : Stack} {xs : List α} {k : Nat}
      (htree : Holds F (some T) (.node l v r)) (h : Above F stack xs k) :
      Above F ((T, .VisitedNone) :: stack) (v :: (r.toList ++ xs)) (4 * r.toList.length + 2 + k)
  | right {T : Nat} {stack : Stack} {xs : List α} {k : Nat} (h : Above F stack xs k) :
      Above F ((T, .VisitedLeft) :: stack) xs (k + 1)

/-- The values from the current one on, and a bound of the steps to their end. -/
inductive Walk (F : ImutAVLFactory α) : Stack → List α → Nat → Prop
  | nil : Walk F [] [] 0
  | none {T : Nat} {t : SearchTree α} {stack : Stack} {xs : List α} {k : Nat}
      (htree : Holds F (some T) t) (h : Above F stack xs k) :
      Walk F ((T, .VisitedNone) :: stack) (t.toList ++ xs) (4 * t.toList.length + k)
  | left {T : Nat} {l r : SearchTree α} {v : α} {stack : Stack} {xs : List α} {k : Nat}
      (htree : Holds F (some T) (.node l v r)) (h : Above F stack xs k) :
      Walk F ((T, .VisitedLeft) :: stack) (v :: (r.toList ++ xs)) (4 * r.toList.length + 2 + k)
  | right {T : Nat} {stack : Stack} {xs : List α} {k : Nat} (h : Above F stack xs k) :
      Walk F ((T, .VisitedRight) :: stack) xs (k + 1)

variable {stack : Stack} {xs : List α}

variable {k fuel : Nat}

theorem skipToParent_spec (top : Nat × VisitFlag)
    (h : Above F stack xs k) :
    ∃ stack', skipToParent (top :: stack) = some stack' ∧ Walk F stack' xs k := by
  cases h with
  | nil => exact ⟨[], rfl, .nil⟩
  | left htree h => exact ⟨_, rfl, .left htree h⟩
  | right h => exact ⟨_, rfl, .right h⟩

theorem increment_spec (h : Walk F stack xs k)
    (hstop : atStop stack = false) :
    ∃ stack' k', F.increment stack = some stack' ∧ k' < k ∧ Walk F stack' xs k' := by
  cases h with
  | nil | left htree h => exact absurd hstop (by simp [atStop])
  | right h =>
    obtain ⟨stack', hrun, hwalk⟩ := skipToParent_spec _ h
    exact ⟨stack', _, hrun, Nat.lt_succ_self _, hwalk⟩
  | @none T _ _ xs _ htree h =>
    cases htree with
    | @node _ N l r hmem hleft hright hheight =>
      have htree : Holds F (some T) (.node l N.value r) := .node hmem hleft hright hheight
      unfold increment
      simp only [hmem, bind_eq_bind, bind_some]
      cases hL : N.left with
      | none =>
        rw [hL] at hleft
        obtain rfl := hleft.eq_nil
        refine ⟨_, _, rfl, ?_, Walk.left htree h⟩
        simp only [SearchTree.toList_node, length_append, length_cons]
        omega
      | some L =>
        rw [hL] at hleft
        have hlist : (SearchTree.node l N.value r).toList ++ xs =
            l.toList ++ (N.value :: (r.toList ++ xs)) := by simp
        rw [hlist]
        refine ⟨_, _, rfl, ?_, Walk.none hleft (Above.left htree h)⟩
        simp only [SearchTree.toList_node, length_append, length_cons]
        omega

theorem increment_value {T : Nat} {l r : SearchTree α} {v : α}
    (htree : Holds F (some T) (.node l v r)) (h : Above F stack xs k) :
    ∃ stack' k', F.increment ((T, .VisitedLeft) :: stack) = some stack' ∧
      k' < 4 * r.toList.length + 2 + k ∧ Walk F stack' (r.toList ++ xs) k' := by
  cases htree with
  | @node _ N _ _ hmem hleft hright hheight =>
    unfold increment
    simp only [hmem, bind_eq_bind, bind_some]
    cases hR : N.right with
    | none =>
      rw [hR] at hright
      obtain rfl := hright.eq_nil
      exact ⟨_, _, rfl, by simp; omega, Walk.right h⟩
    | some R =>
      rw [hR] at hright
      exact ⟨_, _, rfl, by omega, Walk.none hright (Above.right h)⟩

theorem settle_spec (h : Walk F stack xs k)
    (hfuel : k ≤ fuel) :
    ∃ stack' k', F.settle fuel stack = some stack' ∧ atStop stack' = true ∧ k' ≤ k ∧
      Walk F stack' xs k' := by
  induction fuel generalizing stack k with
  | zero =>
    cases hstop : atStop stack with
    | true => exact ⟨stack, k, by simp [settle, hstop], hstop, le_rfl, h⟩
    | false =>
      obtain ⟨stack', k', -, hlt, -⟩ := increment_spec h hstop
      omega
  | succ fuel ih =>
    cases hstop : atStop stack with
    | true => exact ⟨stack, k, by simp [settle, hstop], hstop, le_rfl, h⟩
    | false =>
      obtain ⟨stack₁, k₁, hrun₁, hlt, hwalk₁⟩ := increment_spec h hstop
      obtain ⟨stack₂, k₂, hrun₂, hstop₂, hle, hwalk₂⟩ := ih hwalk₁ (by omega)
      exact ⟨stack₂, k₂, by simp [settle, hstop, hrun₁, hrun₂], hstop₂, by omega, hwalk₂⟩

theorem advance_spec {T : Nat} {l r : SearchTree α} {v : α}
    (htree : Holds F (some T) (.node l v r)) (h : Above F stack xs k)
    (hfuel : 4 * r.toList.length + 2 + k ≤ fuel) :
    ∃ stack' k', F.advance fuel ((T, .VisitedLeft) :: stack) = some stack' ∧
      atStop stack' = true ∧ k' < 4 * r.toList.length + 2 + k ∧
        Walk F stack' (r.toList ++ xs) k' := by
  obtain ⟨stack₁, k₁, hrun₁, hlt, hwalk₁⟩ := increment_value htree h
  obtain ⟨stack₂, k₂, hrun₂, hstop₂, hle, hwalk₂⟩ := settle_spec hwalk₁ (show _ ≤ fuel by omega)
  exact ⟨stack₂, k₂, by simp [advance, hrun₁, hrun₂], hstop₂, by omega, hwalk₂⟩

theorem skipSubTree_spec (top : Nat × VisitFlag)
    (h : Above F stack xs k) (hfuel : k ≤ fuel) :
    ∃ stack' k', F.skipSubTree fuel (top :: stack) = some stack' ∧ atStop stack' = true ∧
      k' ≤ k ∧ Walk F stack' xs k' := by
  obtain ⟨stack₁, hrun₁, hwalk₁⟩ := skipToParent_spec top h
  obtain ⟨stack₂, k₂, hrun₂, hstop₂, hle, hwalk₂⟩ := settle_spec hwalk₁ hfuel
  exact ⟨stack₂, k₂, by simp [skipSubTree, hrun₁, hrun₂], hstop₂, hle, hwalk₂⟩

theorem begin_spec {T : Nat} {t : SearchTree α} (h : Holds F (some T) t)
    (hfuel : 4 * t.toList.length ≤ fuel) :
    ∃ stack k, F.begin fuel T = some stack ∧ atStop stack = true ∧ k < 4 * t.toList.length ∧
      Walk F stack t.toList k := by
  have hwalk := Walk.none h Above.nil
  rw [append_nil] at hwalk
  obtain ⟨stack₁, k₁, hrun₁, hlt, hwalk₁⟩ := increment_spec hwalk rfl
  obtain ⟨stack₂, k₂, hrun₂, hstop₂, hle, hwalk₂⟩ :=
    settle_spec hwalk₁ (show _ ≤ fuel by omega)
  exact ⟨stack₂, k₂, by simp [begin, advance, hrun₁, hrun₂], hstop₂, by omega, hwalk₂⟩

/-! ## Equality -/

theorem isEqualLoop_spec [DecidableEq α] {LItr RItr : Stack} {xs ys : List α}
    {m : Nat} (hL : Walk F LItr xs k) (hR : Walk F RItr ys m) (hstopL : atStop LItr = true)
    (hstopR : atStop RItr = true) (hk : k < fuel) (hm : m < fuel) :
    F.isEqualLoop fuel LItr RItr = some (decide (xs = ys)) := by
  induction fuel generalizing LItr RItr xs ys k m with
  | zero => omega
  | succ fuel ih =>
    cases hL with
    | none htree h | right h => exact absurd hstopL (by simp [atStop])
    | nil =>
      cases hR with
      | none htree h | right h => exact absurd hstopR (by simp [atStop])
      | nil | left htree h => simp [isEqualLoop]
    | @left TL ll lr lv lstack xs k htreeL hL =>
      cases hR with
      | none htree h | right h => exact absurd hstopR (by simp [atStop])
      | nil => simp [isEqualLoop]
      | @left TR rl rr rv rstack ys m htreeR hR =>
        unfold isEqualLoop
        by_cases hsame : TL = TR
        · subst hsame
          obtain ⟨rfl, rfl, rfl⟩ := SearchTree.node.inj (htreeL.unique htreeR)
          obtain ⟨L', k', hrunL, hstopL', hk', hwalkL⟩ := skipSubTree_spec
            (TL, .VisitedLeft) hL (show _ ≤ fuel by omega)
          obtain ⟨R', m', hrunR, hstopR', hm', hwalkR⟩ := skipSubTree_spec
            (TL, .VisitedLeft) hR (show _ ≤ fuel by omega)
          rw [if_pos rfl, hrunL, bind_eq_bind, bind_some, hrunR,
            bind_some, ih hwalkL hwalkR hstopL' hstopR' (by omega) (by omega)]
          simp
        · obtain ⟨NL, hmemL, hvalueL⟩ : ∃ N, F.memory TL = some N ∧ N.value = lv := by
            cases htreeL with
            | node hmem _ _ _ => exact ⟨_, hmem, rfl⟩
          obtain ⟨NR, hmemR, hvalueR⟩ : ∃ N, F.memory TR = some N ∧ N.value = rv := by
            cases htreeR with
            | node hmem _ _ _ => exact ⟨_, hmem, rfl⟩
          simp only [if_neg hsame, hmemL, hmemR, bind_eq_bind, bind_some, hvalueL, hvalueR]
          by_cases hvalue : lv = rv
          · obtain ⟨L', k', hrunL, hstopL', hk', hwalkL⟩ :=
              advance_spec htreeL hL (show _ ≤ fuel by omega)
            obtain ⟨R', m', hrunR, hstopR', hm', hwalkR⟩ :=
              advance_spec htreeR hR (show _ ≤ fuel by omega)
            rw [if_neg (not_not_intro hvalue), hrunL, bind_some, hrunR,
              bind_some, ih hwalkL hwalkR hstopL' hstopR' (by omega) (by omega)]
            simp [hvalue]
          · simp [hvalue]

theorem isEqual_spec [DecidableEq α] {L R : Nat} {s t : SearchTree α} (hs : Holds F (some L) s)
    (ht : Holds F (some R) t)
    (hfuel : 4 * (s.toList.length + t.toList.length) ≤ fuel) :
    F.isEqual fuel L R = some (decide (s.toList = t.toList)) := by
  unfold isEqual
  split_ifs with hsame
  · subst hsame
    rw [hs.unique ht]
    simp
  · obtain ⟨LItr, k, hrunL, hstopL, hk, hwalkL⟩ := begin_spec hs (show _ ≤ fuel by omega)
    obtain ⟨RItr, m, hrunR, hstopR, hm, hwalkR⟩ := begin_spec ht (show _ ≤ fuel by omega)
    rw [hrunL, bind_eq_bind, bind_some, hrunR, bind_some]
    exact isEqualLoop_spec hwalkL hwalkR hstopL hstopR (by omega) (by omega)

theorem ImmutableSet_isEqual_spec [DecidableEq α] {L R : Option Nat} {s t : SearchTree α}
    (hs : Holds F L s) (ht : Holds F R t)
    (hfuel : 4 * (s.toList.length + t.toList.length) ≤ fuel) :
    ImmutableSet.isEqual fuel F L R = some (decide (s.toList = t.toList)) := by
  cases L with
  | none =>
    obtain rfl := hs.eq_nil
    cases R with
    | none =>
      obtain rfl := ht.eq_nil
      simp [ImmutableSet.isEqual]
    | some R =>
      obtain ⟨N, l, r, -, rfl, -⟩ := ht.root
      simp [ImmutableSet.isEqual]
  | some L =>
    cases R with
    | none =>
      obtain rfl := ht.eq_nil
      obtain ⟨N, l, r, -, rfl, -⟩ := hs.root
      simp [ImmutableSet.isEqual]
    | some R => exact isEqual_spec hs ht hfuel

end Zapcc.ADT.ImutAVLFactory
