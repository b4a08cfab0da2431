import Mathlib.Data.List.Dedup
import Mathlib.Data.List.Perm.Subperm
import Mathlib.Data.List.Sort
import Zapcc.Library.RoundedDivision
import Zapcc.Support.MathExtras

/-!
# Weights of successors

The weights of the edges out of a block are collected in a `Distribution`, in which the weights to
the same target are combined. The main result is `combined_perm`: sorting and hashing combine the
same amounts.
-/

namespace Zapcc.BlockFrequency

open MathExtras RoundedDivision List Option

/-- What an edge is in its loop. -/
inductive DistType where
  | Local
  | Exit
  | Backedge
  deriving DecidableEq

/-- An index of a block that is not invalid. -/
def isValid (Index : Nat) : Prop := Index ≤ 2 ^ 32 - 1 - 1

instance (Index : Nat) : Decidable (isValid Index) := inferInstanceAs (Decidable (_ ≤ _))

/-- The weight of an edge, with the index of its target. -/
structure Weight where
  Type_ : DistType
  TargetNode : Nat
  Amount : Nat
  deriving DecidableEq

def defaultWeight : Weight := ⟨.Local, 2 ^ 32 - 1, 0⟩

structure Distribution where
  Weights : List Weight
  Total : Nat
  DidOverflow : Bool

/-- A distribution without weights. -/
def emptyDistribution : Distribution := ⟨[], 0, false⟩

/-- `Distribution::add`. There is no result where an assertion fails. -/
def add (Dist : Distribution) (W : Weight) : Option Distribution :=
  if W.Amount = 0 then none
  else
    let NewTotal := toUInt64 (Dist.Total + W.Amount)
    let IsOverflow : Bool := NewTotal < Dist.Total
    if Dist.DidOverflow && IsOverflow then none
    else some ⟨Dist.Weights ++ [W], NewTotal, Dist.DidOverflow || IsOverflow⟩

/-- Weights that are added one after the other. -/
def addAll (Dist : Distribution) : List Weight → Option Distribution
  | [] => some Dist
  | W :: Ws => (add Dist W).bind fun Dist => addAll Dist Ws

/-! ## Combining -/

def combineWeight (W OtherW : Weight) : Option Weight :=
  if ¬isValid OtherW.TargetNode then none
  else if W.Amount = 0 then some OtherW
  else if W.Type_ = OtherW.Type_ ∧ W.TargetNode = OtherW.TargetNode ∧ OtherW.Amount ≠ 0 then
    if toUInt64 (W.Amount + OtherW.Amount) < W.Amount then some { W with Amount := 2 ^ 64 - 1 }
    else some { W with Amount := toUInt64 (W.Amount + OtherW.Amount) }
  else none

/-- The loop over the sorted weights, with the first weight to a target and what the weights to it
are combined to so far. -/
def combineAdjacent (I O : Weight) : List Weight → Option (List Weight)
  | [] => some [O]
  | L :: Ws =>
    if I.TargetNode = L.TargetNode then
      (combineWeight O L).bind fun O => combineAdjacent I O Ws
    else (combineAdjacent L L Ws).map fun Combined => O :: Combined

/-- The loop over weights that are sorted by their targets. -/
def combineSorted : List Weight → Option (List Weight)
  | [] => some []
  | I :: Ws => combineAdjacent I I Ws

def combineWeightsBySorting (Weights : List Weight) : Option (List Weight) :=
  combineSorted (Weights.mergeSort fun L R => L.TargetNode ≤ R.TargetNode)

def tombstoneKey : Nat := 2 ^ 32 - 1 - 1

/-- A weight is combined with the entry of its target, which is inserted if it is new. The hash
table does not take the keys of empty buckets and of tombstones. -/
def combineInto (W : Weight) : List (Nat × Weight) → Option (List (Nat × Weight))
  | [] =>
    if W.TargetNode = 2 ^ 32 - 1 ∨ W.TargetNode = tombstoneKey then none
    else (combineWeight defaultWeight W).map fun C => [(W.TargetNode, C)]
  | E :: Combined =>
    if E.1 = W.TargetNode then (combineWeight E.2 W).map fun C => (E.1, C) :: Combined
    else (combineInto W Combined).map fun Combined => E :: Combined

/-- The loop that fills the hash table. -/
def collect (Combined : List (Nat × Weight)) : List Weight → Option (List (Nat × Weight))
  | [] => some Combined
  | W :: Ws => (combineInto W Combined).bind fun Combined => collect Combined Ws

/-- `combineWeightsByHashing`, with the order in which an iteration visits the entries. -/
def combineWeightsByHashing (iterate : List (Nat × Weight) → List (Nat × Weight))
    (Weights : List Weight) : Option (List Weight) :=
  (collect [] Weights).map fun Combined =>
    if Weights.length = Combined.length then Weights
    else (iterate Combined).map fun I => I.2

def combineWeights (iterate : List (Nat × Weight) → List (Nat × Weight)) (Weights : List Weight) :
    Option (List Weight) :=
  if 128 < Weights.length then combineWeightsByHashing iterate Weights
  else combineWeightsBySorting Weights

/-! ## What should be combined -/

/-- The sum of the amounts for a target. -/
def sumOf (Ws : List Weight) (Node : Nat) : Nat :=
  total ((Ws.filter fun W => W.TargetNode = Node).map Weight.Amount)

/-- The sum of the amounts for a target, which saturates. -/
def amountOf (Ws : List Weight) (Node : Nat) : Nat := min (sumOf Ws Node) (2 ^ 64 - 1)

/-- Weights as they are added: their targets are valid, their amounts are not zero and fit, and
those to the same target have the same type. -/
structure WellTyped (Ws : List Weight) : Prop where
  valid : ∀ W ∈ Ws, isValid W.TargetNode
  amount : ∀ W ∈ Ws, 0 < W.Amount ∧ W.Amount < 2 ^ 64
  typed : ∀ W ∈ Ws, ∀ W' ∈ Ws, W.TargetNode = W'.TargetNode → W.Type_ = W'.Type_

/-- One weight for each target, with the sum of the amounts. -/
structure Combines (Ws Cs : List Weight) : Prop where
  distinct : (Cs.map Weight.TargetNode).Nodup
  sound : ∀ C ∈ Cs, C.Amount = amountOf Ws C.TargetNode ∧
    ∃ W ∈ Ws, W.TargetNode = C.TargetNode ∧ W.Type_ = C.Type_
  complete : ∀ W ∈ Ws, ∃ C ∈ Cs, C.TargetNode = W.TargetNode

variable {Ws Cs : List Weight}

theorem sumOf_cons (W : Weight) (Ws : List Weight) (Node : Nat) :
    sumOf (W :: Ws) Node = (if W.TargetNode = Node then W.Amount else 0) + sumOf Ws Node := by
  unfold sumOf
  by_cases h : W.TargetNode = Node
  · rw [filter_cons_of_pos (by simpa using h), map_cons, total_cons, if_pos h]
  · rw [filter_cons_of_neg (by simpa using h), if_neg h, Nat.zero_add]

theorem sumOf_append (Ws Ws' : List Weight) (Node : Nat) :
    sumOf (Ws ++ Ws') Node = sumOf Ws Node + sumOf Ws' Node := by
  unfold sumOf
  rw [filter_append, map_append, total_append]

theorem sumOf_perm {Ws' : List Weight} (h : Ws.Perm Ws') (Node : Nat) :
    sumOf Ws Node = sumOf Ws' Node := total_perm ((h.filter _).map _)

theorem Combines.perm {Cs' : List Weight} (hW : WellTyped Ws) (h : Combines Ws Cs)
    (h' : Combines Ws Cs') : Cs.Perm Cs' := by
  have hsub : ∀ {As Bs : List Weight}, Combines Ws As → Combines Ws Bs → ∀ A ∈ As, A ∈ Bs := by
    intro As Bs hAs hBs A hA
    obtain ⟨hamount, W, hmem, hnode, htype⟩ := hAs.sound A hA
    obtain ⟨B, hB, hB'⟩ := hBs.complete W hmem
    obtain ⟨hamount', W', hmem', hnode', htype'⟩ := hBs.sound B hB
    have hsame : A = B := by
      have hnodes : A.TargetNode = B.TargetNode := hnode.symm.trans hB'.symm
      have htypes : A.Type_ = B.Type_ := by
        rw [← htype, ← htype']
        exact hW.typed W hmem W' hmem' (hnode.trans (hnodes.trans hnode'.symm))
      have hamounts : A.Amount = B.Amount := by rw [hamount, hamount', hnodes]
      cases A
      simp only at hnodes htypes hamounts
      rw [hnodes, htypes, hamounts]
    exact hsame ▸ hB
  rw [perm_ext_iff_of_nodup h.distinct.of_map h'.distinct.of_map]
  exact fun A => ⟨hsub h h' A, hsub h' h A⟩

theorem combineWeight_eq {W OtherW : Weight} (hvalid : isValid OtherW.TargetNode)
    (hW : 0 < W.Amount ∧ W.Amount < 2 ^ 64) (hOther : 0 < OtherW.Amount ∧ OtherW.Amount < 2 ^ 64)
    (htype : W.Type_ = OtherW.Type_) (hnode : W.TargetNode = OtherW.TargetNode) :
    combineWeight W OtherW =
      some { W with Amount := min (W.Amount + OtherW.Amount) (2 ^ 64 - 1) } := by
  unfold combineWeight toUInt64
  rw [if_neg (not_not.mpr hvalid), if_neg (by omega), if_pos ⟨htype, hnode, by omega⟩]
  by_cases hover : W.Amount + OtherW.Amount < 2 ^ 64
  · rw [Nat.mod_eq_of_lt hover, if_neg (by omega), Nat.min_eq_left (by omega)]
  · rw [if_pos (by omega), Nat.min_eq_right (by omega)]

theorem WellTyped.subset {Ws' : List Weight} (h : WellTyped Ws) (hsub : ∀ W ∈ Ws', W ∈ Ws) :
    WellTyped Ws' :=
  ⟨fun W hW => h.valid W (hsub W hW), fun W hW => h.amount W (hsub W hW),
    fun W hW W' hW' => h.typed W (hsub W hW) W' (hsub W' hW')⟩

def others (Node : Nat) (Ws : List Weight) : List Weight :=
  Ws.filter fun W => W.TargetNode ≠ Node

theorem mem_others {Node : Nat} {W : Weight} :
    W ∈ others Node Ws ↔ W ∈ Ws ∧ W.TargetNode ≠ Node := by
  simp [others]

theorem sumOf_others {Node Node' : Nat} (h : Node' ≠ Node) :
    sumOf (others Node Ws) Node' = sumOf Ws Node' := by
  induction Ws with
  | nil => rfl
  | cons W Ws ih =>
    unfold others at ih ⊢
    rw [sumOf_cons]
    by_cases hW : W.TargetNode = Node
    · rw [filter_cons_of_neg (by simpa using hW), ih, if_neg (by rw [hW]; exact h.symm),
        Nat.zero_add]
    · rw [filter_cons_of_pos (by simpa using hW), sumOf_cons, ih]

theorem sumOf_eq_zero {Node : Nat} (h : ∀ W ∈ Ws, W.TargetNode ≠ Node) : sumOf Ws Node = 0 := by
  unfold sumOf
  rw [filter_eq_nil_iff.mpr fun W hW => by simpa using h W hW]
  rfl

theorem Combines.cons {I C : Weight} (hnode : C.TargetNode = I.TargetNode)
    (htype : C.Type_ = I.Type_)
    (hamount : C.Amount = min (I.Amount + sumOf Ws I.TargetNode) (2 ^ 64 - 1))
    (h : Combines (others I.TargetNode Ws) Cs) : Combines (I :: Ws) (C :: Cs) := by
  have hne : ∀ D ∈ Cs, D.TargetNode ≠ I.TargetNode := by
    intro D hD
    obtain ⟨-, W, hW, hWD, -⟩ := h.sound D hD
    rw [← hWD]
    exact (mem_others.mp hW).2
  refine ⟨?_, fun D hD => ?_, fun W hW => ?_⟩
  · rw [map_cons, nodup_cons]
    refine ⟨fun hmem => ?_, h.distinct⟩
    obtain ⟨D, hD, heq⟩ := List.mem_map.mp hmem
    exact hne D hD (heq.trans hnode)
  · rcases mem_cons.mp hD with rfl | hD
    · refine ⟨?_, I, mem_cons_self, hnode.symm, htype.symm⟩
      rw [hamount, amountOf, hnode, sumOf_cons, if_pos rfl]
    · obtain ⟨hDamount, W, hW, hWD, hWtype⟩ := h.sound D hD
      refine ⟨?_, W, mem_cons_of_mem I (mem_others.mp hW).1, hWD, hWtype⟩
      rw [hDamount, amountOf, amountOf, sumOf_others (hne D hD), sumOf_cons,
        if_neg (hne D hD).symm, Nat.zero_add]
  · rcases mem_cons.mp hW with rfl | hW
    · exact ⟨C, mem_cons_self, hnode⟩
    · by_cases hsame : W.TargetNode = I.TargetNode
      · exact ⟨C, mem_cons_self, hnode.trans hsame.symm⟩
      · obtain ⟨D, hD, hDW⟩ := h.complete W (mem_others.mpr ⟨hW, hsame⟩)
        exact ⟨D, mem_cons_of_mem C hD, hDW⟩

theorem combines_nil : Combines [] [] :=
  ⟨nodup_nil, fun _ hC => absurd hC not_mem_nil, fun _ hW => absurd hW not_mem_nil⟩

theorem combineAdjacent_spec {I O : Weight} {a : Nat} (ha : 0 < a)
    (hnode : O.TargetNode = I.TargetNode) (htype : O.Type_ = I.Type_)
    (hamount : O.Amount = min a (2 ^ 64 - 1)) (hW : WellTyped (I :: Ws))
    (hsorted : (I :: Ws).Pairwise fun L R => L.TargetNode ≤ R.TargetNode) :
    ∃ Cs, combineAdjacent I O Ws =
        some ({ O with Amount := min (a + sumOf Ws I.TargetNode) (2 ^ 64 - 1) } :: Cs) ∧
      Combines (others I.TargetNode Ws) Cs := by
  induction Ws generalizing I O a with
  | nil =>
    refine ⟨[], ?_, combines_nil⟩
    rw [combineAdjacent, sumOf_eq_zero fun W hW => absurd hW not_mem_nil, Nat.add_zero, ← hamount]
  | cons L Ws ih =>
    obtain ⟨hI, hrest⟩ := pairwise_cons.mp hsorted
    have hL := hW.amount L (mem_cons_of_mem I mem_cons_self)
    have htail : WellTyped (L :: Ws) := hW.subset fun W hW => mem_cons_of_mem I hW
    unfold combineAdjacent
    by_cases hsame : I.TargetNode = L.TargetNode
    · have hLtype := hW.typed I mem_cons_self L
        (mem_cons_of_mem I mem_cons_self) hsame
      have hcombine := combineWeight_eq (hW.valid L (mem_cons_of_mem I mem_cons_self))
        (show 0 < O.Amount ∧ O.Amount < 2 ^ 64 by omega) hL (htype.trans hLtype)
        (hnode.trans hsame)
      obtain ⟨Cs, hrun, hCs⟩ := @ih I
        { O with Amount := min (O.Amount + L.Amount) (2 ^ 64 - 1) } (a + L.Amount) (by omega)
        hnode htype (by dsimp only; omega)
        (hW.subset fun W hW => by
          rcases mem_cons.mp hW with rfl | hW
          · exact mem_cons_self
          · exact mem_cons_of_mem I (mem_cons_of_mem L hW))
        (pairwise_cons.mpr ⟨fun W hW => hI W (mem_cons_of_mem L hW), (pairwise_cons.mp hrest).2⟩)
      refine ⟨Cs, ?_, ?_⟩
      · rw [if_pos hsame, hcombine, bind_some, hrun, sumOf_cons, if_pos hsame.symm, Nat.add_assoc]
      · unfold others
        rwa [filter_cons_of_neg (by simpa using hsame.symm)]
    · have hlater : ∀ W ∈ L :: Ws, W.TargetNode ≠ I.TargetNode := by
        intro W hW
        have hLW : L.TargetNode ≤ W.TargetNode := by
          rcases mem_cons.mp hW with rfl | hW
          · exact Nat.le_refl _
          · exact (pairwise_cons.mp hrest).1 W hW
        have hIL := hI L mem_cons_self
        omega
      obtain ⟨Cs, hrun, hCs⟩ := @ih L L L.Amount hL.1 rfl rfl (by omega) htail hrest
      refine ⟨{ L with Amount := min (L.Amount + sumOf Ws L.TargetNode) (2 ^ 64 - 1) } :: Cs,
        ?_, ?_⟩
      · rw [if_neg hsame, hrun, map_some, sumOf_eq_zero hlater, Nat.add_zero, ← hamount]
      · have hall : others I.TargetNode (L :: Ws) = L :: Ws :=
          filter_eq_self.mpr fun W hW => by simpa using hlater W hW
        rw [hall]
        exact .cons rfl rfl rfl hCs

theorem combineSorted_spec (hW : WellTyped Ws)
    (hsorted : Ws.Pairwise fun L R => L.TargetNode ≤ R.TargetNode) :
    ∃ Cs, combineSorted Ws = some Cs ∧ Combines Ws Cs := by
  cases Ws with
  | nil => exact ⟨[], rfl, combines_nil⟩
  | cons I Ws =>
    have hI := hW.amount I mem_cons_self
    obtain ⟨Cs, hrun, hCs⟩ := combineAdjacent_spec hI.1 rfl rfl (by omega) hW hsorted
    exact ⟨_, hrun, .cons rfl rfl rfl hCs⟩

theorem Combines.of_perm {Ws' : List Weight} (hperm : Ws.Perm Ws') (h : Combines Ws Cs) :
    Combines Ws' Cs := by
  refine ⟨h.distinct, fun C hC => ?_, fun W hW => h.complete W (hperm.mem_iff.mpr hW)⟩
  obtain ⟨hamount, W, hW, hnode, htype⟩ := h.sound C hC
  refine ⟨?_, W, hperm.mem_iff.mp hW, hnode, htype⟩
  rw [hamount, amountOf, amountOf, sumOf_perm hperm]

theorem combineWeightsBySorting_spec (hW : WellTyped Ws) :
    ∃ Cs, combineWeightsBySorting Ws = some Cs ∧ Combines Ws Cs := by
  have hperm := mergeSort_perm Ws fun L R => L.TargetNode ≤ R.TargetNode
  have hsorted : (Ws.mergeSort fun L R => L.TargetNode ≤ R.TargetNode).Pairwise fun L R =>
      L.TargetNode ≤ R.TargetNode := by
    have hpairs := @pairwise_mergeSort _ (fun L R => decide (L.TargetNode ≤ R.TargetNode))
      (fun A B C hAB hBC => by
        simp only [decide_eq_true_eq] at hAB hBC ⊢
        exact Nat.le_trans hAB hBC)
      (fun A B => by
        simp only [Bool.or_eq_true, decide_eq_true_eq]
        exact Nat.le_total _ _) Ws
    exact hpairs.imp fun h => of_decide_eq_true h
  obtain ⟨Cs, hrun, hCs⟩ := combineSorted_spec (hW.subset fun W => hperm.mem_iff.mp) hsorted
  exact ⟨Cs, hrun, hCs.of_perm hperm⟩

/-! ## The hash table -/

/-- The entries of the table are the weights to their keys. -/
def Keyed (Es : List (Nat × Weight)) : Prop := ∀ E ∈ Es, E.2.TargetNode = E.1

theorem combineInto_cases {W : Weight} (hlive : W.TargetNode ≠ tombstoneKey) (hW : WellTyped Ws)
    (hmem : W ∈ Ws) {Es : List (Nat × Weight)} (hkeyed : Keyed Es)
    (hentries : ∀ E ∈ Es, (0 < E.2.Amount ∧ E.2.Amount < 2 ^ 64) ∧
      ∃ W' ∈ Ws, W'.TargetNode = E.1 ∧ W'.Type_ = E.2.Type_) :
    (∃ Es₁ E Es₂, Es = Es₁ ++ E :: Es₂ ∧ E.1 = W.TargetNode ∧ combineInto W Es =
      some (Es₁ ++ (E.1, { E.2 with Amount := min (E.2.Amount + W.Amount) (2 ^ 64 - 1) }) :: Es₂)) ∨
    (∀ E ∈ Es, E.1 ≠ W.TargetNode) ∧ combineInto W Es = some (Es ++ [(W.TargetNode, W)]) := by
  have hvalid := hW.valid W hmem
  induction Es with
  | nil =>
    have hempty : W.TargetNode ≠ 2 ^ 32 - 1 := by
      unfold isValid at hvalid
      omega
    refine .inr ⟨fun E hE => absurd hE not_mem_nil, ?_⟩
    rw [combineInto, if_neg (not_or.mpr ⟨hempty, hlive⟩), combineWeight,
      if_neg (not_not.mpr hvalid), if_pos (show defaultWeight.Amount = 0 from rfl)]
    rfl
  | cons E Es ih =>
    obtain ⟨hamount, W', hW', hnode, htype⟩ := hentries E mem_cons_self
    unfold combineInto
    by_cases hkey : E.1 = W.TargetNode
    · have hcombine := combineWeight_eq hvalid hamount (hW.amount W hmem)
        (htype.symm.trans (hW.typed W' hW' W hmem (hnode.trans hkey)))
        ((hkeyed E mem_cons_self).trans hkey)
      refine .inl ⟨[], E, Es, rfl, hkey, ?_⟩
      rw [if_pos hkey, hcombine]
      rfl
    · rw [if_neg hkey]
      rcases ih (fun E' hE' => hkeyed E' (mem_cons_of_mem E hE'))
        (fun E' hE' => hentries E' (mem_cons_of_mem E hE')) with
        ⟨Es₁, E', Es₂, hsplit, hkey', hrun⟩ | ⟨hnew, hrun⟩
      · exact .inl ⟨E :: Es₁, E', Es₂, by rw [hsplit]; rfl, hkey', by rw [hrun]; rfl⟩
      · refine .inr ⟨fun E' hE' => ?_, by rw [hrun]; rfl⟩
        rcases mem_cons.mp hE' with rfl | hE'
        · exact hkey
        · exact hnew E' hE'

theorem sumOf_snoc (W : Weight) (Node : Nat) :
    sumOf (Ws ++ [W]) Node = sumOf Ws Node + if W.TargetNode = Node then W.Amount else 0 := by
  rw [sumOf_append, sumOf_cons]
  rfl

theorem amountOf_pos {C : Weight} (hW : WellTyped Ws) (h : Combines Ws Cs) (hC : C ∈ Cs) :
    0 < C.Amount ∧ C.Amount < 2 ^ 64 := by
  obtain ⟨hamount, W, hmem, hnode, -⟩ := h.sound C hC
  have hpos := (hW.amount W hmem).1
  have hle : W.Amount ≤ sumOf Ws C.TargetNode := by
    refine le_total (mem_map_of_mem (mem_filter.mpr ⟨hmem, ?_⟩))
    simpa using hnode
  rw [hamount, amountOf]
  omega

theorem Combines.update {W C : Weight} {Cs₁ Cs₂ : List Weight} (h : Combines Ws (Cs₁ ++ C :: Cs₂))
    (hnode : C.TargetNode = W.TargetNode) :
    Combines (Ws ++ [W])
      (Cs₁ ++ { C with Amount := min (C.Amount + W.Amount) (2 ^ 64 - 1) } :: Cs₂) := by
  have hnodes : (Cs₁ ++ { C with Amount := min (C.Amount + W.Amount) (2 ^ 64 - 1) } :: Cs₂).map
      Weight.TargetNode = (Cs₁ ++ C :: Cs₂).map Weight.TargetNode := by
    rw [map_append, map_append, map_cons, map_cons]
  have hother : ∀ D, D ∈ Cs₁ ∨ D ∈ Cs₂ → D.TargetNode ≠ W.TargetNode := by
    have hdistinct := h.distinct
    rw [map_append, map_cons] at hdistinct
    obtain ⟨-, hright, hcross⟩ := nodup_append.mp hdistinct
    intro D hD heq
    rcases hD with hD | hD
    · exact hcross _ (mem_map_of_mem hD) _ mem_cons_self (heq.trans hnode.symm)
    · refine (nodup_cons.mp hright).1 ?_
      rw [hnode, ← heq]
      exact mem_map_of_mem hD
  refine ⟨hnodes ▸ h.distinct, fun D hD => ?_, fun V hV => ?_⟩
  · have hcases : (D ∈ Cs₁ ∨ D ∈ Cs₂) ∨
        D = { C with Amount := min (C.Amount + W.Amount) (2 ^ 64 - 1) } := by
      rw [mem_append, mem_cons] at hD
      tauto
    rcases hcases with hold | rfl
    · have hmem : D ∈ Cs₁ ++ C :: Cs₂ := by
        rw [mem_append, mem_cons]
        tauto
      obtain ⟨hamount, V, hV, hVD, hVtype⟩ := h.sound D hmem
      refine ⟨?_, V, mem_append_left _ hV, hVD, hVtype⟩
      rw [hamount, amountOf, amountOf, sumOf_snoc, if_neg (hother D hold).symm, Nat.add_zero]
    · obtain ⟨hamount, V, hV, hVC, hVtype⟩ := h.sound C (mem_append_right _ mem_cons_self)
      refine ⟨?_, V, mem_append_left _ hV, hVC, hVtype⟩
      dsimp only
      rw [hamount, amountOf, amountOf, sumOf_snoc, if_pos hnode.symm]
      omega
  · have hfound : ∃ D ∈ Cs₁ ++ C :: Cs₂, D.TargetNode = V.TargetNode := by
      rcases mem_append.mp hV with hV | hV
      · exact h.complete V hV
      · rw [mem_singleton.mp hV]
        exact ⟨C, mem_append_right _ mem_cons_self, hnode⟩
    obtain ⟨D, hD, hDV⟩ := hfound
    rw [← hDV]
    have hmem := mem_map_of_mem (f := Weight.TargetNode) hD
    rw [← hnodes] at hmem
    obtain ⟨D', hD', heq⟩ := List.mem_map.mp hmem
    exact ⟨D', hD', heq⟩

theorem Combines.insert {W : Weight} (hW : W.Amount < 2 ^ 64) (h : Combines Ws Cs)
    (hnew : ∀ C ∈ Cs, C.TargetNode ≠ W.TargetNode) : Combines (Ws ++ [W]) (Cs ++ [W]) := by
  refine ⟨?_, fun D hD => ?_, fun V hV => ?_⟩
  · rw [map_append, nodup_append]
    refine ⟨h.distinct, nodup_singleton _, fun n hn m hm heq => ?_⟩
    obtain ⟨C, hC, rfl⟩ := List.mem_map.mp hn
    rw [map_singleton, mem_singleton] at hm
    exact hnew C hC (heq.trans hm)
  · rcases mem_append.mp hD with hD | hD
    · obtain ⟨hamount, V, hV, hVD, hVtype⟩ := h.sound D hD
      refine ⟨?_, V, mem_append_left _ hV, hVD, hVtype⟩
      rw [hamount, amountOf, amountOf, sumOf_snoc, if_neg (hnew D hD).symm, Nat.add_zero]
    · rw [mem_singleton.mp hD]
      refine ⟨?_, W, mem_append_right _ mem_cons_self, rfl, rfl⟩
      have hnone : sumOf Ws W.TargetNode = 0 := sumOf_eq_zero fun V hV heq => by
        obtain ⟨C, hC, hCV⟩ := h.complete V hV
        exact hnew C hC (hCV.trans heq)
      rw [amountOf, sumOf_snoc, if_pos rfl, hnone]
      omega
  · rcases mem_append.mp hV with hV | hV
    · obtain ⟨C, hC, hCV⟩ := h.complete V hV
      exact ⟨C, mem_append_left _ hC, hCV⟩
    · rw [mem_singleton.mp hV]
      exact ⟨W, mem_append_right _ mem_cons_self, rfl⟩

theorem collect_spec {Ps : List Weight} (hW : WellTyped (Ps ++ Ws))
    (hlive : ∀ W ∈ Ws, W.TargetNode ≠ tombstoneKey) {Es : List (Nat × Weight)} (hkeyed : Keyed Es)
    (h : Combines Ps (Es.map Prod.snd)) :
    ∃ Es', collect Es Ws = some Es' ∧ Combines (Ps ++ Ws) (Es'.map Prod.snd) := by
  induction Ws generalizing Ps Es with
  | nil => exact ⟨Es, rfl, by rwa [append_nil]⟩
  | cons W Ws ih =>
    have hmem : W ∈ Ps ++ W :: Ws := mem_append_right _ mem_cons_self
    have hPs : WellTyped Ps := hW.subset fun V hV => mem_append_left _ hV
    have hassoc : Ps ++ [W] ++ Ws = Ps ++ W :: Ws := by rw [append_assoc]; rfl
    have hentries : ∀ E ∈ Es, (0 < E.2.Amount ∧ E.2.Amount < 2 ^ 64) ∧
        ∃ W' ∈ Ps ++ W :: Ws, W'.TargetNode = E.1 ∧ W'.Type_ = E.2.Type_ := by
      intro E hE
      have hE' := mem_map_of_mem (f := Prod.snd) hE
      obtain ⟨-, V, hV, hnode, htype⟩ := h.sound E.2 hE'
      exact ⟨amountOf_pos hPs h hE', V, mem_append_left _ hV, hnode.trans (hkeyed E hE), htype⟩
    have hrest : ∀ V ∈ Ws, V.TargetNode ≠ tombstoneKey := fun V hV =>
      hlive V (mem_cons_of_mem W hV)
    rw [collect]
    rcases combineInto_cases (hlive W mem_cons_self) hW hmem hkeyed hentries with
      ⟨Es₁, E, Es₂, rfl, hkey, hrun⟩ | ⟨hnew, hrun⟩
    · have hE := hkeyed E (mem_append_right _ mem_cons_self)
      rw [map_append, map_cons] at h
      have hstep := h.update (hE.trans hkey)
      rw [hrun, bind_some]
      obtain ⟨Es', hcollect, hEs'⟩ := @ih (Ps ++ [W]) (hassoc ▸ hW) hrest
        (Es₁ ++ (E.1, { E.2 with Amount := min (E.2.Amount + W.Amount) (2 ^ 64 - 1) }) :: Es₂)
        (fun E' hE' => by
          rcases mem_append.mp hE' with hE' | hE'
          · exact hkeyed E' (mem_append_left _ hE')
          · rcases mem_cons.mp hE' with rfl | hE'
            · exact hE
            · exact hkeyed E' (mem_append_right _ (mem_cons_of_mem _ hE')))
        (by rw [map_append, map_cons]; exact hstep)
      exact ⟨Es', hcollect, hassoc ▸ hEs'⟩
    · have hstep := h.insert (hW.amount W hmem).2 fun C hC => by
        obtain ⟨E, hE, rfl⟩ := List.mem_map.mp hC
        rw [hkeyed E hE]
        exact hnew E hE
      rw [hrun, bind_some]
      obtain ⟨Es', hcollect, hEs'⟩ := @ih (Ps ++ [W]) (hassoc ▸ hW) hrest
        (Es ++ [(W.TargetNode, W)])
        (fun E' hE' => by
          rcases mem_append.mp hE' with hE' | hE'
          · exact hkeyed E' hE'
          · rw [mem_singleton.mp hE'])
        (by rw [map_append]; exact hstep)
      exact ⟨Es', hcollect, hassoc ▸ hEs'⟩

theorem collect_none {Es : List (Nat × Weight)} (hEs : ∀ E ∈ Es, E.1 ≠ tombstoneKey)
    (h : ∃ W ∈ Ws, W.TargetNode = tombstoneKey) : collect Es Ws = none := by
  have hinto : ∀ (W : Weight) (Es Es' : List (Nat × Weight)), (∀ E ∈ Es, E.1 ≠ tombstoneKey) →
      combineInto W Es = some Es' →
      W.TargetNode ≠ tombstoneKey ∧ ∀ E ∈ Es', E.1 ≠ tombstoneKey := by
    intro W Es
    induction Es with
    | nil =>
      intro Es' _ hrun
      rw [combineInto] at hrun
      split_ifs at hrun with hkey
      obtain ⟨C, -, rfl⟩ := map_eq_some_iff.mp hrun
      refine ⟨fun heq => hkey (.inr heq), fun E hE heq => ?_⟩
      rw [mem_singleton.mp hE] at heq
      exact hkey (.inr heq)
    | cons E Es ih =>
      intro Es' hEs hrun
      have hrest := fun E' hE' => hEs E' (mem_cons_of_mem E hE')
      rw [combineInto] at hrun
      split_ifs at hrun with hkey
      · obtain ⟨C, -, rfl⟩ := map_eq_some_iff.mp hrun
        refine ⟨hkey ▸ hEs E mem_cons_self, fun E' hE' => ?_⟩
        rcases mem_cons.mp hE' with rfl | hE'
        · exact hEs E mem_cons_self
        · exact hrest E' hE'
      · obtain ⟨Es'', hstep, rfl⟩ := map_eq_some_iff.mp hrun
        obtain ⟨hlive, hEs''⟩ := ih Es'' hrest hstep
        refine ⟨hlive, fun E' hE' => ?_⟩
        rcases mem_cons.mp hE' with rfl | hE'
        · exact hEs E' mem_cons_self
        · exact hEs'' E' hE'
  induction Ws generalizing Es with
  | nil =>
    obtain ⟨W, hW, -⟩ := h
    exact absurd hW not_mem_nil
  | cons W Ws ih =>
    rw [collect]
    cases hrun : combineInto W Es with
    | none => rfl
    | some Es' =>
      obtain ⟨hlive, hEs'⟩ := hinto W Es Es' hEs hrun
      refine ih hEs' ?_
      obtain ⟨V, hV, hkey⟩ := h
      rcases mem_cons.mp hV with rfl | hV
      · exact absurd hkey hlive
      · exact ⟨V, hV, hkey⟩

theorem Combines.perm_right {Cs' : List Weight} (hperm : Cs.Perm Cs') (h : Combines Ws Cs) :
    Combines Ws Cs' := by
  refine ⟨(hperm.map _).nodup_iff.mp h.distinct, fun C hC => h.sound C (hperm.mem_iff.mpr hC),
    fun W hW => ?_⟩
  obtain ⟨C, hC, hCW⟩ := h.complete W hW
  exact ⟨C, hperm.mem_iff.mp hC, hCW⟩

theorem Combines.of_length_eq (hW : WellTyped Ws) (h : Combines Ws Cs)
    (hlength : Ws.length = Cs.length) : Combines Ws Ws := by
  have hsubset : Cs.map Weight.TargetNode ⊆ Ws.map Weight.TargetNode := by
    intro n hn
    obtain ⟨C, hC, rfl⟩ := List.mem_map.mp hn
    obtain ⟨-, W, hmem, hnode, -⟩ := h.sound C hC
    exact hnode ▸ mem_map_of_mem hmem
  have hperm : (Cs.map Weight.TargetNode).Perm (Ws.map Weight.TargetNode) :=
    (subperm_of_subset h.distinct hsubset).perm_of_length_le (by
      rw [length_map, length_map]
      omega)
  have hdistinct : (Ws.map Weight.TargetNode).Nodup := hperm.nodup_iff.mp h.distinct
  refine ⟨hdistinct, fun W hmem => ⟨?_, W, hmem, rfl, rfl⟩, fun W hmem => ⟨W, hmem, rfl⟩⟩
  have hamount := (hW.amount W hmem).2
  obtain ⟨Ws₁, Ws₂, rfl⟩ := append_of_mem hmem
  rw [map_append, map_cons] at hdistinct
  obtain ⟨-, hright, hcross⟩ := nodup_append.mp hdistinct
  have hleft : sumOf Ws₁ W.TargetNode = 0 := sumOf_eq_zero fun V hV heq =>
    hcross _ (mem_map_of_mem hV) _ mem_cons_self heq
  have hrest : sumOf Ws₂ W.TargetNode = 0 := sumOf_eq_zero fun V hV heq =>
    (nodup_cons.mp hright).1 (heq ▸ mem_map_of_mem hV)
  rw [amountOf, sumOf_append, sumOf_cons, if_pos rfl, hleft, hrest]
  omega

variable {iterate : List (Nat × Weight) → List (Nat × Weight)}

theorem combineWeightsByHashing_spec (hiterate : ∀ Es, (iterate Es).Perm Es) (hW : WellTyped Ws)
    (hlive : ∀ W ∈ Ws, W.TargetNode ≠ tombstoneKey) :
    ∃ Cs, combineWeightsByHashing iterate Ws = some Cs ∧ Combines Ws Cs := by
  obtain ⟨Es, hcollect, hEs⟩ := @collect_spec Ws [] hW hlive []
    (fun E hE => absurd hE not_mem_nil) combines_nil
  unfold combineWeightsByHashing
  rw [hcollect, map_some]
  by_cases hlength : Ws.length = Es.length
  · rw [if_pos hlength]
    refine ⟨Ws, rfl, hEs.of_length_eq hW ?_⟩
    rw [hlength, length_map]
  · rw [if_neg hlength]
    exact ⟨_, rfl, hEs.perm_right ((hiterate Es).map Prod.snd).symm⟩

theorem combined_perm (hiterate : ∀ Es, (iterate Es).Perm Es) (hW : WellTyped Ws)
    (hlive : ∀ W ∈ Ws, W.TargetNode ≠ tombstoneKey) :
    ∃ Cs Cs', combineWeightsBySorting Ws = some Cs ∧
      combineWeightsByHashing iterate Ws = some Cs' ∧ Cs.Perm Cs' := by
  obtain ⟨Cs, hsort, hCs⟩ := combineWeightsBySorting_spec hW
  obtain ⟨Cs', hhash, hCs'⟩ := combineWeightsByHashing_spec hiterate hW hlive
  exact ⟨Cs, Cs', hsort, hhash, hCs.perm hW hCs'⟩

end Zapcc.BlockFrequency
