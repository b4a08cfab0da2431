import Zapcc.Analysis.WeightDistribution
import Zapcc.Support.BranchProbability

/-!
# Block mass

A distribution is normalized so that its total fits 32 bits, and a mass is split by its weights. The
main result is `losesNothing_iff`: no mass is lost unless rounding carries the total past 32 bits,
or the hash table does not take a target.
-/

namespace Zapcc.BlockFrequency

open MathExtras RoundedDivision List

/-! ## Normalizing -/

def shiftRightAndRound (N Shift : Nat) : Nat :=
  if Shift = 0 then N else N >>> Shift + N >>> (Shift - 1) % 2

/-- By how much the amounts are shifted right. -/
def getShift (Dist : Distribution) : Nat :=
  if Dist.DidOverflow then 33
  else if 2 ^ 32 - 1 < Dist.Total then 33 - (64 - Dist.Total.size)
  else 0

def scaleLoop (Shift : Nat) (Total : Nat) : List Weight → Option (List Weight × Nat)
  | [] => some ([], Total)
  | W :: Ws =>
    let Amount := max 1 (shiftRightAndRound W.Amount Shift)
    if isValid W.TargetNode ∧ Amount ≤ 2 ^ 32 - 1 then
      (scaleLoop Shift (toUInt64 (Total + Amount)) Ws).map fun r =>
        ({ W with Amount := Amount } :: r.1, r.2)
    else none

def normalize (iterate : List (Nat × Weight) → List (Nat × Weight)) (Dist : Distribution) :
    Option Distribution :=
  if Dist.Weights = [] then some Dist
  else
    (if 1 < Dist.Weights.length then combineWeights iterate Dist.Weights
      else some Dist.Weights).bind fun Weights =>
        if Weights.length = 1 then
          some ⟨Weights.map fun W => { W with Amount := 1 }, 1, Dist.DidOverflow⟩
        else
          let Shift := getShift Dist
          if Shift = 0 then
            if Dist.Total = Weights.foldl (fun Sum W => toUInt64 (Sum + W.Amount)) 0 then
              some ⟨Weights, Dist.Total, Dist.DidOverflow⟩
            else none
          else
            (scaleLoop Shift 0 Weights).bind fun r =>
              if r.2 ≤ 2 ^ 32 - 1 then some ⟨r.1, r.2, Dist.DidOverflow⟩ else none

/-! ## Taking masses -/

structure DitheringDistributer where
  RemWeight : Nat
  RemMass : Nat

/-- The difference of masses, which saturates. -/
def minusMass (Mass X : Nat) : Nat :=
  let Diff := toUInt64 (2 ^ 64 + Mass - X)
  if Mass < Diff then 0 else Diff

def takeMass (D : DitheringDistributer) (Weight : Nat) : Option (DitheringDistributer × Nat) :=
  if Weight = 0 ∨ D.RemWeight < Weight then none
  else
    (BranchProbability.ofFraction Weight D.RemWeight).bind fun P =>
      (P.scale D.RemMass).map fun Mass =>
        (⟨D.RemWeight - Weight, minusMass D.RemMass Mass⟩, Mass)

/-- The masses for some weights, in their order. -/
def takeAll (D : DitheringDistributer) : List Weight → Option (DitheringDistributer × List Nat)
  | [] => some (D, [])
  | W :: Ws =>
    (takeMass D (toUnsigned W.Amount)).bind fun r =>
      (takeAll r.1 Ws).map fun rest => (rest.1, r.2 :: rest.2)

def newDistributer (iterate : List (Nat × Weight) → List (Nat × Weight)) (Dist : Distribution)
    (Mass : Nat) : Option (Distribution × DitheringDistributer) :=
  (normalize iterate Dist).map fun Dist => (Dist, ⟨toUnsigned Dist.Total, Mass⟩)

/-- No mass that is taken is larger than what remains, and no weight either. -/
def NoUnderflow (D : DitheringDistributer) : List Weight → Prop
  | [] => True
  | W :: Ws => W.Amount ≤ D.RemWeight ∧
    ∃ D' Mass, takeMass D (toUnsigned W.Amount) = some (D', Mass) ∧ Mass ≤ D.RemMass ∧
      NoUnderflow D' Ws

variable {Ws Cs : List Weight}

theorem ofFraction_eq {w r : Nat} (hw : 0 < w) (hle : w ≤ r) (hr : r < 2 ^ 32) :
    ∃ N, BranchProbability.ofFraction w r = some ⟨N⟩ ∧ N ≤ BranchProbability.D ∧
      (w = r → N = BranchProbability.D) := by
  unfold BranchProbability.ofFraction
  rw [if_pos ⟨by omega, hle⟩]
  by_cases hD : r = BranchProbability.D
  · rw [if_pos hD]
    exact ⟨w, rfl, by omega, fun h => h.trans hD⟩
  · have hshare : nearest (w * BranchProbability.D) r ≤ BranchProbability.D :=
      share_le _ (by omega) hle
    have hvalue : toUnsigned (toUInt64 (w * BranchProbability.D + r / 2) / r) =
        nearest (w * BranchProbability.D) r := by
      unfold BranchProbability.D at hshare ⊢
      unfold nearest at hshare ⊢
      rw [toUInt64, toUnsigned,
        Nat.mod_eq_of_lt (show w * 2 ^ 31 + r / 2 < 2 ^ 64 by clear hshare; omega)]
      exact Nat.mod_eq_of_lt (by omega)
    rw [if_neg hD, hvalue]
    refine ⟨_, rfl, hshare, fun h => ?_⟩
    rw [h]
    exact nearest_mul _ (by omega)

theorem takeMass_spec {D : DitheringDistributer} {w : Nat} (hw : 0 < w) (hle : w ≤ D.RemWeight)
    (hr : D.RemWeight < 2 ^ 32) (hm : D.RemMass < 2 ^ 64) :
    ∃ Mass, takeMass D w = some (⟨D.RemWeight - w, D.RemMass - Mass⟩, Mass) ∧ Mass ≤ D.RemMass ∧
      (w = D.RemWeight → Mass = D.RemMass) := by
  obtain ⟨N, hfraction, hN, hall⟩ := ofFraction_eq hw hle hr
  have hpos : 0 < BranchProbability.D := by decide
  have hscale := @BranchProbability.Fraction.scale_spec BranchProbability.D D.RemMass N
    BranchProbability.D hm (hN.trans_lt (by decide)) (by decide) hpos (.inr rfl)
  have hmass : D.RemMass * N / BranchProbability.D ≤ D.RemMass :=
    Nat.div_le_of_le_mul (by rw [Nat.mul_comm]; exact Nat.mul_le_mul_right _ hN)
  rw [Nat.min_eq_left (by omega)] at hscale
  have hminus : minusMass D.RemMass (D.RemMass * N / BranchProbability.D) =
      D.RemMass - D.RemMass * N / BranchProbability.D := by
    generalize D.RemMass * N / BranchProbability.D = Mass at hmass ⊢
    unfold minusMass toUInt64
    rw [if_neg (by omega)]
    omega
  refine ⟨_, ?_, hmass, fun h => ?_⟩
  · unfold takeMass BranchProbability.scale
    rw [if_neg (by omega), hfraction, Option.bind_some]
    rw [hscale, Option.map_some, hminus]
  · rw [hall h]
    exact Nat.mul_div_cancel _ hpos

theorem takeAll_spec {D : DitheringDistributer} (hne : Ws ≠ []) (hpos : ∀ W ∈ Ws, 1 ≤ W.Amount)
    (htotal : D.RemWeight = total (Ws.map Weight.Amount)) (hr : D.RemWeight < 2 ^ 32)
    (hm : D.RemMass < 2 ^ 64) :
    (∃ Masses, takeAll D Ws = some (⟨0, 0⟩, Masses) ∧ total Masses = D.RemMass) ∧
      NoUnderflow D Ws := by
  induction Ws generalizing D with
  | nil => exact absurd rfl hne
  | cons W Ws ih =>
    rw [map_cons, total_cons] at htotal
    have hW := hpos W mem_cons_self
    have hfit : toUnsigned W.Amount = W.Amount := Nat.mod_eq_of_lt (by omega)
    obtain ⟨Mass, htake, hle, hall⟩ := @takeMass_spec D W.Amount hW (by omega) hr hm
    unfold takeAll NoUnderflow
    rw [hfit, htake, Option.bind_some]
    by_cases hlast : Ws = []
    · have hsame : W.Amount = D.RemWeight := by
        rw [htotal, hlast]
        rfl
      rw [hlast, hall hsame, hsame, Nat.sub_self, Nat.sub_self]
      exact ⟨⟨_, rfl, rfl⟩, Nat.le_refl _, _, _, rfl, Nat.le_refl _, trivial⟩
    · obtain ⟨⟨Masses, hrun, hsum⟩, hsafe⟩ := @ih ⟨D.RemWeight - W.Amount, D.RemMass - Mass⟩ hlast
        (fun V hV => hpos V (mem_cons_of_mem W hV)) (by dsimp only; omega)
        (by dsimp only; omega) (by dsimp only; omega)
      rw [hrun, Option.map_some]
      refine ⟨⟨_, rfl, ?_⟩, by omega, _, _, rfl, hle, hsafe⟩
      rw [total_cons, hsum]
      dsimp only
      omega

/-! ## When the total fits -/

/-- The sum of all amounts, without a bound. -/
def exactTotal (Ws : List Weight) : Nat := total (Ws.map Weight.Amount)

def exactShift (Ws : List Weight) : Nat :=
  if 2 ^ 64 ≤ exactTotal Ws then 33
  else if 2 ^ 32 ≤ exactTotal Ws then (exactTotal Ws).size - 31
  else 0

def targets (Ws : List Weight) : List Nat := (Ws.map Weight.TargetNode).dedup

/-- The sum of the combined amounts after a shift that rounds, with at least one for each. -/
def roundedTotal (Ws : List Weight) : Nat :=
  total ((targets Ws).map fun n => max 1 (nearest (amountOf Ws n) (2 ^ exactShift Ws)))

/-- The hash table takes all targets, and rounding does not carry the total past 32 bits. -/
structure RoundsWithin (Ws : List Weight) : Prop where
  live : ∀ W ∈ Ws, W.TargetNode ≠ tombstoneKey
  fits : (targets Ws).length ≤ 1 ∨ exactTotal Ws < 2 ^ 32 ∨ roundedTotal Ws < 2 ^ 32

/-- What is left of a distribution: weights that are at least one and sum up to a total of 32 bits,
one for each target. -/
structure Normal (Ws : List Weight) (Dist : Distribution) : Prop where
  amount : ∀ W ∈ Dist.Weights, 1 ≤ W.Amount
  total : Dist.Total = RoundedDivision.total (Dist.Weights.map Weight.Amount)
  fits : Dist.Total ≤ 2 ^ 32 - 1
  distinct : (Dist.Weights.map Weight.TargetNode).Nodup
  targets : ∀ n, n ∈ Dist.Weights.map Weight.TargetNode ↔ n ∈ Ws.map Weight.TargetNode

/-- Sorting and hashing combine the same amounts, the distribution is normalized, and every mass is
taken completely. -/
structure LosesNothing (iterate : List (Nat × Weight) → List (Nat × Weight)) (Ws : List Weight)
    (Dist : Distribution) : Prop where
  combined : ∃ Cs Cs', combineWeightsBySorting Ws = some Cs ∧
    combineWeightsByHashing iterate Ws = some Cs' ∧ Cs.Perm Cs'
  taken : ∃ Dist', normalize iterate Dist = some Dist' ∧ Normal Ws Dist' ∧
    ∀ Mass < 2 ^ 64, Ws ≠ [] →
      ∃ D, newDistributer iterate Dist Mass = some (Dist', D) ∧ NoUnderflow D Dist'.Weights ∧
        ∃ Masses, takeAll D Dist'.Weights = some (⟨0, 0⟩, Masses) ∧
          RoundedDivision.total Masses = Mass

theorem addAll_spec {Vs : List Weight} {Dist Dist' : Distribution} (hV : WellTyped (Vs ++ Ws))
    (hW : Dist.Weights = Vs) (hTotal : Dist.Total = toUInt64 (exactTotal Vs))
    (hflag : Dist.DidOverflow = decide (2 ^ 64 ≤ exactTotal Vs)) (hsmall : exactTotal Vs < 2 ^ 65)
    (h : addAll Dist Ws = some Dist') :
    Dist'.Weights = Vs ++ Ws ∧ Dist'.Total = toUInt64 (exactTotal (Vs ++ Ws)) ∧
      Dist'.DidOverflow = decide (2 ^ 64 ≤ exactTotal (Vs ++ Ws)) ∧
      exactTotal (Vs ++ Ws) < 2 ^ 65 := by
  induction Ws generalizing Vs Dist with
  | nil =>
    rw [addAll, Option.some.injEq] at h
    rw [← h, append_nil]
    exact ⟨hW, hTotal, hflag, hsmall⟩
  | cons W Ws ih =>
    have hamount := (hV.amount W (mem_append_right _ mem_cons_self)).2
    have hassoc : Vs ++ W :: Ws = Vs ++ [W] ++ Ws := by rw [append_assoc]; rfl
    have hexact : exactTotal (Vs ++ [W]) = exactTotal Vs + W.Amount := by
      unfold exactTotal
      rw [map_append, total_append]
      rfl
    obtain ⟨D, hadd, hrest⟩ := Option.bind_eq_some_iff.mp (show _ = _ from h)
    unfold add at hadd
    rw [hTotal, hflag] at hadd
    dsimp only at hadd
    split_ifs at hadd with hzero htwice
    obtain rfl := Option.some.inj hadd
    have hsum : toUInt64 (toUInt64 (exactTotal Vs) + W.Amount) =
        toUInt64 (exactTotal (Vs ++ [W])) := by
      rw [hexact]
      exact Nat.mod_add_mod _ _ _
    have hover : (decide (2 ^ 64 ≤ exactTotal Vs) ||
        decide (toUInt64 (toUInt64 (exactTotal Vs) + W.Amount) < toUInt64 (exactTotal Vs))) =
        decide (2 ^ 64 ≤ exactTotal (Vs ++ [W])) := by
      rw [hexact, Bool.eq_iff_iff, Bool.or_eq_true, decide_eq_true_iff, decide_eq_true_iff,
        decide_eq_true_iff]
      unfold toUInt64
      omega
    have honce : exactTotal (Vs ++ [W]) < 2 ^ 65 := by
      rw [Bool.and_eq_true, decide_eq_true_iff, decide_eq_true_iff] at htwice
      unfold toUInt64 at htwice
      omega
    rw [hassoc] at hV ⊢
    exact @ih (Vs ++ [W]) _ hV (by rw [← hW]) hsum hover honce hrest

theorem Combines.perm_targets (h : Combines Ws Cs) :
    (Cs.map Weight.TargetNode).Perm (targets Ws) := by
  unfold targets
  rw [perm_ext_iff_of_nodup h.distinct (nodup_dedup _)]
  intro n
  rw [mem_dedup, mem_map, mem_map]
  constructor
  · rintro ⟨C, hC, rfl⟩
    obtain ⟨-, W, hW, hnode, -⟩ := h.sound C hC
    exact ⟨W, hW, hnode⟩
  · rintro ⟨W, hW, rfl⟩
    exact h.complete W hW

theorem total_sumOf {ns : List Nat} (hdistinct : ns.Nodup) (h : ∀ W ∈ Ws, W.TargetNode ∈ ns) :
    total (ns.map (sumOf Ws)) = exactTotal Ws := by
  induction Ws with
  | nil =>
    have hzero : ns.map (sumOf []) = List.replicate ns.length 0 := map_const'
    rw [hzero, total_replicate]
    rfl
  | cons W Ws ih =>
    have hone : total (ns.map fun n => if W.TargetNode = n then W.Amount else 0) = W.Amount := by
      obtain ⟨ns₁, ns₂, rfl⟩ := append_of_mem (h W mem_cons_self)
      obtain ⟨-, hright, hcross⟩ := List.nodup_append.mp hdistinct
      have hnone : ∀ ms : List Nat, (∀ m ∈ ms, W.TargetNode ≠ m) →
          total (ms.map fun n => if W.TargetNode = n then W.Amount else 0) = 0 := by
        intro ms hms
        rw [map_congr_left (g := fun _ => 0) fun m hm => if_neg (hms m hm),
          map_const', total_replicate, Nat.mul_zero]
      rw [map_append, total_append, map_cons, total_cons, if_pos rfl,
        hnone ns₁ fun m hm heq => hcross m hm _ mem_cons_self heq.symm,
        hnone ns₂ fun m hm heq => (List.nodup_cons.mp hright).1 (heq ▸ hm)]
      omega
    have hsplit : ns.map (sumOf (W :: Ws)) =
        ns.map fun n => (if W.TargetNode = n then W.Amount else 0) + sumOf Ws n :=
      map_congr_left fun n _ => sumOf_cons W Ws n
    rw [hsplit, total_map_add, hone]
    have hrest : total (ns.map fun n => sumOf Ws n) = exactTotal Ws :=
      ih fun V hV => h V (mem_cons_of_mem W hV)
    rw [hrest]
    rfl

theorem shiftRightAndRound_eq (N Shift : Nat) :
    shiftRightAndRound N Shift = nearest N (2 ^ Shift) := by
  unfold shiftRightAndRound nearest
  by_cases hzero : Shift = 0
  · rw [if_pos hzero, hzero]
    simp
  · obtain ⟨k, rfl⟩ : ∃ k, Shift = k + 1 := ⟨Shift - 1, by omega⟩
    rw [if_neg hzero, Nat.add_sub_cancel, Nat.shiftRight_eq_div_pow, Nat.shiftRight_eq_div_pow,
      pow_succ, Nat.mul_div_cancel _ (by decide), ← Nat.div_div_eq_div_mul,
      ← Nat.div_div_eq_div_mul, Nat.add_div_right N (Nat.two_pow_pos k)]
    omega

def scaled (Shift : Nat) (Cs : List Weight) : List Weight :=
  Cs.map fun C => { C with Amount := max 1 (nearest C.Amount (2 ^ Shift)) }

theorem scaleLoop_eq {Shift Total : Nat} (hvalid : ∀ C ∈ Cs, isValid C.TargetNode)
    (hamount : ∀ C ∈ Cs, nearest C.Amount (2 ^ Shift) ≤ 2 ^ 31)
    (hlength : Total + Cs.length * 2 ^ 31 < 2 ^ 64) :
    scaleLoop Shift Total Cs =
      some (scaled Shift Cs, Total + total ((scaled Shift Cs).map Weight.Amount)) := by
  induction Cs generalizing Total with
  | nil => rfl
  | cons C Cs ih =>
    have hC := hamount C mem_cons_self
    rw [length_cons, Nat.succ_mul] at hlength
    unfold scaleLoop
    rw [shiftRightAndRound_eq]
    have hsum : toUInt64 (Total + max 1 (nearest C.Amount (2 ^ Shift))) =
        Total + max 1 (nearest C.Amount (2 ^ Shift)) := Nat.mod_eq_of_lt (by omega)
    rw [if_pos ⟨hvalid C mem_cons_self, by omega⟩, hsum,
      ih (fun C' hC' => hvalid C' (mem_cons_of_mem C hC'))
        (fun C' hC' => hamount C' (mem_cons_of_mem C hC')) (by omega), Option.map_some]
    unfold scaled
    rw [map_cons, map_cons, total_cons, Nat.add_assoc]

theorem getShift_eq {Dist : Distribution} (hTotal : Dist.Total = toUInt64 (exactTotal Ws))
    (hflag : Dist.DidOverflow = decide (2 ^ 64 ≤ exactTotal Ws)) :
    getShift Dist = exactShift Ws := by
  unfold getShift exactShift
  rw [hTotal, hflag]
  by_cases hover : 2 ^ 64 ≤ exactTotal Ws
  · rw [if_pos (decide_eq_true hover), if_pos hover]
  · have hfit : toUInt64 (exactTotal Ws) = exactTotal Ws := Nat.mod_eq_of_lt (by omega)
    rw [if_neg (by simpa using hover), if_neg hover, hfit]
    by_cases hlarge : 2 ^ 32 ≤ exactTotal Ws
    · have hhigh : (exactTotal Ws).size ≤ 64 := Nat.size_le.mpr (by omega)
      rw [if_pos (by omega), if_pos hlarge]
      omega
    · rw [if_neg (by omega), if_neg hlarge]

theorem sumOf_le (Ws : List Weight) (Node : Nat) : sumOf Ws Node ≤ exactTotal Ws := by
  unfold exactTotal
  induction Ws with
  | nil => exact Nat.le_refl _
  | cons W Ws ih =>
    rw [sumOf_cons, map_cons, total_cons]
    split_ifs <;> omega

theorem nearest_amountOf_le (hshift : exactShift Ws ≠ 0) (Node : Nat) :
    nearest (amountOf Ws Node) (2 ^ exactShift Ws) ≤ 2 ^ 31 := by
  have hle := sumOf_le Ws Node
  have hbound : amountOf Ws Node ≤ 2 ^ exactShift Ws * 2 ^ 31 := by
    unfold amountOf exactShift at *
    split_ifs at hshift ⊢ with hover hlarge
    · omega
    · have hlt := Nat.lt_size_self (exactTotal Ws)
      rw [← pow_add, show (exactTotal Ws).size - 31 + 31 = (exactTotal Ws).size by omega]
      omega
    · exact absurd rfl hshift
  exact (nearest_mono hbound _).trans_eq (nearest_mul _ (Nat.two_pow_pos _))

theorem Combines.mem_targets (h : Combines Ws Cs) (n : Nat) :
    n ∈ Cs.map Weight.TargetNode ↔ n ∈ Ws.map Weight.TargetNode := by
  rw [h.perm_targets.mem_iff, targets, mem_dedup]

theorem Combines.valid (hW : WellTyped Ws) (h : Combines Ws Cs) :
    ∀ C ∈ Cs, isValid C.TargetNode := by
  intro C hC
  obtain ⟨-, W, hmem, hnode, -⟩ := h.sound C hC
  exact hnode ▸ hW.valid W hmem

theorem Combines.length_le (hW : WellTyped Ws) (h : Combines Ws Cs) : Cs.length ≤ 2 ^ 32 := by
  have hsubset : Cs.map Weight.TargetNode ⊆ List.range (2 ^ 32) := by
    intro n hn
    obtain ⟨C, hC, rfl⟩ := List.mem_map.mp hn
    have hvalid := h.valid hW C hC
    unfold isValid at hvalid
    exact List.mem_range.mpr (by omega)
  have hle := (subperm_of_subset h.distinct hsubset).length_le
  rwa [length_map, length_range] at hle

variable {iterate : List (Nat × Weight) → List (Nat × Weight)}

theorem combine_spec (hiterate : ∀ Es, (iterate Es).Perm Es) (hW : WellTyped Ws)
    (hlive : ∀ W ∈ Ws, W.TargetNode ≠ tombstoneKey) :
    ∃ Cs, (if 1 < Ws.length then combineWeights iterate Ws else some Ws) = some Cs ∧
      Combines Ws Cs := by
  by_cases hmany : 1 < Ws.length
  · unfold combineWeights
    split_ifs
    · exact combineWeightsByHashing_spec hiterate hW hlive
    · exact combineWeightsBySorting_spec hW
  · rw [if_neg hmany]
    refine ⟨Ws, rfl, ?_⟩
    cases Ws with
    | nil => exact combines_nil
    | cons W Ws =>
      obtain rfl : Ws = [] :=
        List.length_eq_zero_iff.mp (by rw [length_cons] at hmany; omega)
      have hamount := (hW.amount W mem_cons_self).2
      refine .cons rfl rfl ?_ combines_nil
      rw [sumOf_eq_zero fun V hV => absurd hV not_mem_nil]
      omega

theorem foldl_amount (Cs : List Weight) (Sum : Nat) :
    toUInt64 (Cs.foldl (fun Sum W => toUInt64 (Sum + W.Amount)) Sum) =
      toUInt64 (Sum + exactTotal Cs) := by
  induction Cs generalizing Sum with
  | nil => rfl
  | cons C Cs ih =>
    have hmod : toUInt64 (toUInt64 (Sum + C.Amount) + exactTotal Cs) =
        toUInt64 (Sum + C.Amount + exactTotal Cs) := Nat.mod_add_mod _ _ _
    rw [foldl_cons, ih, hmod, Nat.add_assoc]
    rfl

theorem Combines.exactTotal_eq (h : Combines Ws Cs) (hfit : exactTotal Ws < 2 ^ 32) :
    exactTotal Cs = exactTotal Ws := by
  have hamounts : Cs.map Weight.Amount = (Cs.map Weight.TargetNode).map (sumOf Ws) := by
    rw [map_map]
    refine map_congr_left fun C hC => ?_
    have hle := sumOf_le Ws C.TargetNode
    rw [(h.sound C hC).1, amountOf, Function.comp_apply]
    omega
  have hcover : ∀ W ∈ Ws, W.TargetNode ∈ Cs.map Weight.TargetNode := fun W hW =>
    (h.mem_targets _).mpr (mem_map_of_mem hW)
  rw [← total_sumOf h.distinct hcover, ← hamounts]
  rfl

theorem Combines.total_scaled (h : Combines Ws Cs) :
    total ((scaled (exactShift Ws) Cs).map Weight.Amount) = roundedTotal Ws := by
  unfold scaled roundedTotal
  rw [← total_perm (h.perm_targets.map _), map_map, map_map]
  refine congrArg total (map_congr_left fun C hC => ?_)
  rw [Function.comp_apply, Function.comp_apply, (h.sound C hC).1]

theorem nodes_scaled (Shift : Nat) (Cs : List Weight) :
    (scaled Shift Cs).map Weight.TargetNode = Cs.map Weight.TargetNode := by
  unfold scaled
  rw [map_map]
  rfl

structure Added (Ws : List Weight) (Dist : Distribution) : Prop where
  weights : Dist.Weights = Ws
  total : Dist.Total = toUInt64 (exactTotal Ws)
  overflow : Dist.DidOverflow = decide (2 ^ 64 ≤ exactTotal Ws)

theorem foldl_amount_eq (h : exactTotal Cs < 2 ^ 32) :
    Cs.foldl (fun Sum W => toUInt64 (Sum + W.Amount)) 0 = exactTotal Cs := by
  have hmod := foldl_amount Cs 0
  have hsmall : Cs.foldl (fun Sum W => toUInt64 (Sum + W.Amount)) 0 < 2 ^ 64 := by
    refine List.foldlRecOn (motive := fun Sum => Sum < 2 ^ 64) Cs _ (by decide) fun Sum _ W _ => ?_
    exact Nat.mod_lt _ (by decide)
  rw [Nat.zero_add] at hmod
  unfold toUInt64 at hmod hsmall ⊢
  rwa [Nat.mod_eq_of_lt hsmall, Nat.mod_eq_of_lt (by omega)] at hmod

theorem normalize_spec (hiterate : ∀ Es, (iterate Es).Perm Es) (hW : WellTyped Ws)
    (hlive : ∀ W ∈ Ws, W.TargetNode ≠ tombstoneKey) {Dist : Distribution} (h : Added Ws Dist) :
    ((targets Ws).length ≤ 1 ∨ exactTotal Ws < 2 ^ 32 ∨ roundedTotal Ws < 2 ^ 32 →
      ∃ Dist', normalize iterate Dist = some Dist' ∧ Normal Ws Dist') ∧
    (¬((targets Ws).length ≤ 1 ∨ exactTotal Ws < 2 ^ 32 ∨ roundedTotal Ws < 2 ^ 32) →
      normalize iterate Dist = none) := by
  unfold normalize
  rw [h.weights, getShift_eq h.total h.overflow]
  by_cases hnil : Ws = []
  · subst hnil
    refine ⟨fun _ => ⟨Dist, if_pos rfl, ?_⟩, fun hnot => absurd (.inl (Nat.zero_le 1)) hnot⟩
    refine ⟨?_, ?_, ?_, ?_, ?_⟩
    · rw [h.weights]
      exact fun W hW => absurd hW not_mem_nil
    · rw [h.weights, h.total]
      rfl
    · rw [h.total]
      decide
    · rw [h.weights]
      exact nodup_nil
    · rw [h.weights]
      exact fun n => Iff.rfl
  obtain ⟨Cs, hcombine, hCs⟩ := combine_spec hiterate hW hlive
  have hlength : (targets Ws).length = Cs.length := by
    rw [← hCs.perm_targets.length_eq, length_map]
  have hnone : Cs ≠ [] := by
    rintro rfl
    obtain ⟨W, hmem⟩ := exists_mem_of_ne_nil Ws hnil
    obtain ⟨C, hC, -⟩ := hCs.complete W hmem
    exact not_mem_nil hC
  have hpos : 0 < Cs.length := List.length_pos_iff.mpr hnone
  rw [if_neg hnil, hcombine, Option.bind_some, hlength]
  by_cases hsingle : Cs.length = 1
  · rw [if_pos hsingle]
    refine ⟨fun _ => ⟨_, rfl, ?_⟩, fun hnot => absurd (.inl hsingle.le) hnot⟩
    have hnodes : (Cs.map fun W => { W with Amount := 1 }).map Weight.TargetNode =
        Cs.map Weight.TargetNode := by
      rw [map_map]
      rfl
    refine ⟨fun W hW => ?_, ?_, by dsimp only; omega, by rw [hnodes]; exact hCs.distinct,
      fun n => ?_⟩
    · obtain ⟨C, -, rfl⟩ := List.mem_map.mp hW
      exact Nat.le_refl 1
    · have hones : (Cs.map fun W => { W with Amount := 1 }).map Weight.Amount =
          List.replicate Cs.length 1 := by
        rw [map_map]
        exact map_const'
      rw [hones, total_replicate, hsingle]
    · rw [hnodes]
      exact hCs.mem_targets n
  rw [if_neg hsingle]
  by_cases hshift : exactShift Ws = 0
  · have hfit : exactTotal Ws < 2 ^ 32 := by
      by_contra hlarge
      unfold exactShift at hshift
      have hsize : 32 < (exactTotal Ws).size := Nat.lt_size.mpr (by omega)
      split_ifs at hshift <;> omega
    have hexact := hCs.exactTotal_eq hfit
    have htotal : Dist.Total = exactTotal Cs := by
      rw [h.total, hexact]
      exact Nat.mod_eq_of_lt (by omega)
    rw [if_pos hshift, foldl_amount_eq (by omega), if_pos htotal]
    refine ⟨fun _ => ⟨_, rfl, ?_⟩, fun hnot => absurd (.inr (.inl hfit)) hnot⟩
    exact ⟨fun C hC => (amountOf_pos hW hCs hC).1, htotal, by dsimp only; omega, hCs.distinct,
      hCs.mem_targets⟩
  · have hamount : ∀ C ∈ Cs, nearest C.Amount (2 ^ exactShift Ws) ≤ 2 ^ 31 := fun C hC => by
      rw [(hCs.sound C hC).1]
      exact nearest_amountOf_le hshift _
    have hmany := hCs.length_le hW
    have hlarge : ¬exactTotal Ws < 2 ^ 32 := by
      intro hfit
      refine hshift ?_
      unfold exactShift
      rw [if_neg (by omega), if_neg (by omega)]
    rw [if_neg hshift, scaleLoop_eq (hCs.valid hW) hamount (by omega), Option.bind_some,
      Nat.zero_add, hCs.total_scaled]
    refine ⟨fun hfits => ?_, fun hnot => if_neg fun hle => hnot (.inr (.inr (by omega)))⟩
    have hfit : roundedTotal Ws ≤ 2 ^ 32 - 1 := by
      rcases hfits with hle | hlt | hlt
      · omega
      · exact absurd hlt hlarge
      · omega
    rw [if_pos hfit]
    refine ⟨_, rfl, fun C hC => ?_, hCs.total_scaled.symm, hfit, ?_, fun n => ?_⟩
    · obtain ⟨C, -, rfl⟩ := List.mem_map.mp hC
      exact Nat.le_max_left _ _
    · rw [nodes_scaled]
      exact hCs.distinct
    · rw [nodes_scaled]
      exact hCs.mem_targets n

/-- No mass is lost if and only if the table takes all targets and the total fits 32 bits after
rounding. -/
theorem losesNothing_iff (hiterate : ∀ Es, (iterate Es).Perm Es) (hW : WellTyped Ws)
    {Dist : Distribution} (hadd : addAll emptyDistribution Ws = some Dist) :
    LosesNothing iterate Ws Dist ↔ RoundsWithin Ws := by
  obtain ⟨hweights, htotal, hflag, -⟩ := @addAll_spec Ws [] _ _ hW rfl rfl rfl (by decide) hadd
  have hadded : Added Ws Dist := ⟨hweights, htotal, hflag⟩
  constructor
  · rintro ⟨⟨Cs, Cs', -, hhash, -⟩, Dist', hnormalize, -⟩
    have hlive : ∀ W ∈ Ws, W.TargetNode ≠ tombstoneKey := by
      intro W hmem heq
      unfold combineWeightsByHashing at hhash
      rw [collect_none (fun E hE => absurd hE not_mem_nil) ⟨W, hmem, heq⟩] at hhash
      exact Option.some_ne_none Cs' hhash.symm
    refine ⟨hlive, ?_⟩
    by_contra hnot
    rw [(normalize_spec hiterate hW hlive hadded).2 hnot] at hnormalize
    exact Option.some_ne_none Dist' hnormalize.symm
  · rintro ⟨hlive, hfits⟩
    obtain ⟨Dist', hnormalize, hnormal⟩ := (normalize_spec hiterate hW hlive hadded).1 hfits
    refine ⟨combined_perm hiterate hW hlive, Dist', hnormalize, hnormal, fun Mass hMass hne => ?_⟩
    have hfit : toUnsigned Dist'.Total = Dist'.Total :=
      Nat.mod_eq_of_lt (by have := hnormal.fits; omega)
    have hsome : Dist'.Weights ≠ [] := by
      intro hnil
      obtain ⟨W, hmem⟩ := exists_mem_of_ne_nil Ws hne
      have hnode := (hnormal.targets W.TargetNode).mpr (mem_map_of_mem hmem)
      rw [hnil] at hnode
      exact not_mem_nil hnode
    obtain ⟨htake, hsafe⟩ := @takeAll_spec Dist'.Weights ⟨Dist'.Total, Mass⟩ hsome hnormal.amount
      hnormal.total (by have := hnormal.fits; dsimp only; omega) hMass
    refine ⟨⟨Dist'.Total, Mass⟩, ?_, hsafe, htake⟩
    unfold newDistributer
    rw [hnormalize, Option.map_some, hfit]

theorem losesNothing_example :
    LosesNothing id [⟨.Local, 1, 3⟩, ⟨.Exit, 2, 5⟩, ⟨.Local, 1, 4⟩]
        ⟨[⟨.Local, 1, 3⟩, ⟨.Exit, 2, 5⟩, ⟨.Local, 1, 4⟩], 12, false⟩ ↔
      RoundsWithin [⟨.Local, 1, 3⟩, ⟨.Exit, 2, 5⟩, ⟨.Local, 1, 4⟩] :=
  losesNothing_iff (fun Es => .refl Es)
    ⟨by simp [isValid], by simp, by simp⟩ rfl

/-- Two amounts of 64 bits are rounded up to a total of 33 bits. -/
theorem not_losesNothing :
    ∃ Ws Dist, WellTyped Ws ∧ addAll emptyDistribution Ws = some Dist ∧
      ¬LosesNothing id Ws Dist := by
  have hW : WellTyped [⟨.Local, 1, 2 ^ 64 - 1⟩, ⟨.Local, 2, 2 ^ 64 - 1⟩] :=
    ⟨by simp [isValid], by simp, by simp⟩
  refine ⟨_, ⟨[⟨.Local, 1, 2 ^ 64 - 1⟩, ⟨.Local, 2, 2 ^ 64 - 1⟩], 2 ^ 64 - 2, true⟩, hW,
    by simp [addAll, add, emptyDistribution, toUInt64],
    fun ⟨_, Dist', hnormalize, _⟩ => ?_⟩
  have hlarge : ¬((targets [⟨.Local, 1, 2 ^ 64 - 1⟩, ⟨.Local, 2, 2 ^ 64 - 1⟩]).length ≤ 1 ∨
      exactTotal [⟨.Local, 1, 2 ^ 64 - 1⟩, ⟨.Local, 2, 2 ^ 64 - 1⟩] < 2 ^ 32 ∨
      roundedTotal [⟨.Local, 1, 2 ^ 64 - 1⟩, ⟨.Local, 2, 2 ^ 64 - 1⟩] < 2 ^ 32) := by
    decide +kernel
  have hnone := (@normalize_spec _ id (fun Es => .refl Es) hW (by simp [tombstoneKey])
    ⟨[⟨.Local, 1, 2 ^ 64 - 1⟩, ⟨.Local, 2, 2 ^ 64 - 1⟩], 2 ^ 64 - 2, true⟩
    ⟨rfl, by decide, by decide⟩).2 hlarge
  rw [hnone] at hnormalize
  exact Option.some_ne_none Dist' hnormalize.symm

end Zapcc.BlockFrequency
