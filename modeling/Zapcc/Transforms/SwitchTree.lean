import Zapcc.Library.WrapAround
import Zapcc.Transforms.SwitchPhis

/-!
# The tree of compares

`switchConvert` gives each successor of a case range as many entries as edges, and for a value of
the condition the new blocks lead to the block of its case range, or to the default
(`switchConvert_spec`). The induction is on the fuel; the bounds hold of every value that reaches
the part of the tree.
-/

namespace Zapcc.LowerSwitch

open WrapAround List

variable {w : Nat} {V : Type}

def CaseRange.Contains (c : CaseRange w) (v : BitVec w) : Prop :=
  c.Low.toInt ≤ v.toInt ∧ v.toInt ≤ c.High.toInt

/-- The number of values of a case range. -/
def CaseRange.size (c : CaseRange w) : Nat := (c.High.toInt - c.Low.toInt).toNat + 1

/-- The number of values that lead to a block. -/
def sizeTo (Cases : List (CaseRange w)) (B : Nat) : Nat :=
  (Cases.map fun c => if c.BB = B then c.size else 0).sum

/-- The case ranges are not empty, and in ascending order. -/
structure InOrder (Cases : List (CaseRange w)) : Prop where
  le : ∀ c ∈ Cases, c.Low.toInt ≤ c.High.toInt
  apart : Cases.Pairwise fun c d => c.High.toInt < d.Low.toInt

variable {c : CaseRange w} {UnreachableRanges : List IntRange} {Cases : List (CaseRange w)}

variable {v : BitVec w} {F' : Function w V} {b : BasicBlock w V} {i : Nat}

theorem leafCompare_holds (h : c.Low.toInt ≤ c.High.toInt) :
    (leafCompare c).holds v ↔ c.Contains v := by
  unfold leafCompare CaseRange.Contains
  have hv := toInt_cases v
  have hLow := toInt_cases c.Low
  have hHigh := toInt_cases c.High
  split
  case isTrue heq =>
    show v = c.Low ↔ _
    rw [← heq, ← BitVec.toInt_inj]
    omega
  case isFalse =>
    split
    case isTrue heq =>
      have hmin := BitVec.toInt_intMin_le v
      rw [← heq] at hmin
      show v.toInt ≤ c.High.toInt ↔ _
      omega
    case isFalse =>
      split
      case isTrue heq =>
        show v ≤ c.High ↔ _
        have hzero : c.Low.toNat = 0 := by rw [heq]; rfl
        rw [BitVec.le_def]
        omega
      case isFalse =>
        show v + -c.Low ≤ -c.Low + c.High ↔ _
        have hsub := toNat_sub_cases v c.Low
        have hsub' := toNat_sub_cases c.High c.Low
        rw [add_comm (-c.Low), ← sub_eq_add_neg, ← sub_eq_add_neg, BitVec.le_def]
        omega

theorem toInt_pred {x y : BitVec w} (h : y.toInt < x.toInt) : (x - 1).toInt = x.toInt - 1 := by
  have hw : 0 < w := by
    rcases Nat.eq_zero_or_pos w with rfl | hw
    · rw [BitVec.toInt_of_zero_length rfl, BitVec.toInt_of_zero_length rfl] at h
      exact absurd h (lt_irrefl _)
    · exact hw
  have hy := toInt_cases y
  have hx := toInt_cases x
  have hpred := toInt_cases (x - 1)
  have hsub := toNat_sub_cases x 1
  have hone : (1 : BitVec w).toNat = 1 := toNat_one hw
  omega

/-- Coming from block `P` to block `R`, the blocks from `lo` on lead to block `B` before `stop`,
which is entered from block `Q`. -/
inductive Lands (F : Function w V) (stop lo : Nat) (v : BitVec w) : Nat → Nat → Nat → Nat → Prop
  | here {P R : Nat} (h : R < stop) : Lands F stop lo v P R P R
  | step {P R R' Q B : Nat} {b : BasicBlock w V} (hstop : stop ≤ R) (hlo : lo ≤ R)
      (hblock : F[R]? = some b) (hnext : b.terminator.next v = some R')
      (h : Lands F stop lo v R R' Q B) : Lands F stop lo v P R Q B

theorem Lands.mono {F : Function w V} {stop lo lo' : Nat} {P R Q B : Nat}
    (h : Lands F stop lo v P R Q B) (hlo : lo' ≤ lo)
    (hterminator : ∀ i b, lo ≤ i → F[i]? = some b →
      ∃ b', F'[i]? = some b' ∧ b'.terminator = b.terminator) :
    Lands F' stop lo' v P R Q B := by
  induction h with
  | here h => exact .here h
  | step hstop hloR hblock hnext _ ih =>
    obtain ⟨b', hblock', heq⟩ := hterminator _ _ hloR hblock
    exact .step hstop (hlo.trans hloR) hblock' (heq ▸ hnext) ih

namespace Function

variable {F : Function w V}

theorem getElem?_mapPhis (F : Function w V) (B i : Nat) (f : PHINode V → PHINode V) :
    (F.mapPhis B f)[i]? =
      F[i]?.map fun b => { b with phis := b.phis.map (if i = B then f else id) } := by
  unfold mapPhis
  rw [getElem?_modify]
  by_cases hi : B = i
  · simp [hi]
  · cases F[i]? <;> simp [hi, Ne.symm hi]

theorem getElem?_setTerminator (F : Function w V) (B i : Nat) (t : Terminator w) :
    (F.setTerminator B t)[i]? =
      F[i]?.map fun b => { b with terminator := if i = B then t else b.terminator } := by
  unfold setTerminator
  rw [getElem?_modify]
  by_cases hi : B = i
  · simp [hi]
  · cases F[i]? <;> simp [hi, Ne.symm hi]

@[simp] theorem length_mapPhis (F : Function w V) (B : Nat) (f : PHINode V → PHINode V) :
    (F.mapPhis B f).length = F.length := length_modify _ _ _

@[simp] theorem length_setTerminator (F : Function w V) (B : Nat) (t : Terminator w) :
    (F.setTerminator B t).length = F.length := length_modify _ _ _

theorem edges_eq {P : Nat} (h : F[P]? = some b) (B : Nat) :
    F.edges P B = b.terminator.successors.count B := by
  rw [edges, h]
  rfl

theorem edges_of_le {P : Nat} (h : F.length ≤ P) (B : Nat) : F.edges P B = 0 := by
  rw [edges, getElem?_eq_none h]
  rfl

theorem edges_congr {P : Nat}
    (h : F[P]?.map (fun b => b.terminator) = F'[P]?.map (fun b => b.terminator)) (B : Nat) :
    F.edges P B = F'.edges P B := by
  have hmap := congrArg (Option.map Terminator.successors) h
  rw [Option.map_map, Option.map_map] at hmap
  exact congrArg (fun o => (o.getD []).count B) hmap

end Function

/-- What a part of the tree does to a function: block `P` enters it at block `R`. A block with PHI
nodes loses an entry for `OrigBlock` for each value that leads to it, and has an entry for each
edge from a new block, and for an edge from `P`. The new blocks lead to block `N` and to blocks of
some value. -/
structure Converted (N OrigBlock P R : Nat) (size : Nat → Nat) (F F' : Function w V) : Prop where
  length_le : F.length ≤ F'.length
  root : R < F.length → 0 < size R
  target : ∀ Q i, F.length ≤ Q → i < F.length → i ≠ N → 0 < F'.edges Q i → 0 < size i
  old : ∀ i b, F[i]? = some b → ∃ g : PHINode V → PHINode V,
    F'[i]? = some { b with phis := b.phis.map g } ∧ ∀ PN ∈ b.phis, KeepsValues OrigBlock PN (g PN) ∧
      ∀ Q, (g PN).countFrom Q + (if Q = OrigBlock then size i else 0) =
        PN.countFrom Q + (if F.length ≤ Q then F'.edges Q i else 0) + if Q = P ∧ R = i then 1 else 0
  new : ∀ i b, F.length ≤ i → F'[i]? = some b → b.phis = []

/-- A value leads to the block of its case range, or to the default `N`. -/
structure Leads (Cases : List (CaseRange w)) (N : Nat) (v : BitVec w) (B : Nat) : Prop where
  contained : ∀ c ∈ Cases, c.Contains v → B = c.BB
  default : (∀ c ∈ Cases, ¬ c.Contains v) → B = N

theorem getElem?_concat (F : Function w V) (b : BasicBlock w V) (i : Nat) :
    (F ++ [b])[i]? = if i < F.length then F[i]? else if i = F.length then some b else none := by
  by_cases hlt : i < F.length
  · rw [if_pos hlt, getElem?_append_left hlt]
  · rw [if_neg hlt, getElem?_append_right (by omega)]
    by_cases heq : i = F.length
    · rw [if_pos heq, heq, Nat.sub_self]
      rfl
    · rw [if_neg heq, getElem?_eq_none]
      show 1 ≤ _
      omega

theorem eq_of_getElem?_concat {F : Function w V} {b' : BasicBlock w V}
    (hi : F.length ≤ i) (h : (F ++ [b'])[i]? = some b) : i = F.length ∧ b = b' := by
  rw [getElem?_concat, if_neg (by omega)] at h
  by_cases heq : i = F.length
  · rw [if_pos heq] at h
    exact ⟨heq, (Option.some.inj h).symm⟩
  · rw [if_neg heq] at h
    cases h

theorem Function.edges_mapPhis (F : Function w V) (B : Nat) (f : PHINode V → PHINode V)
    (P i : Nat) : (F.mapPhis B f).edges P i = F.edges P i := by
  refine edges_congr ?_ i
  rw [getElem?_mapPhis, Option.map_map]
  rfl

theorem edges_concat (F : Function w V) (t : Terminator w) {Q : Nat} (hQ : F.length ≤ Q) (i : Nat) :
    Function.edges (F ++ [newBlock t]) Q i =
      if Q = F.length then t.successors.count i else 0 := by
  unfold Function.edges
  rw [getElem?_concat, if_neg (by omega)]
  by_cases heq : Q = F.length
  · rw [if_pos heq, if_pos heq]
    rfl
  · rw [if_neg heq, if_neg heq]
    rfl

theorem Function.getElem?_setTerminator_ne (F : Function w V) {B : Nat} (h : i ≠ B)
    (t : Terminator w) : (F.setTerminator B t)[i]? = F[i]? := by
  rw [getElem?_setTerminator]
  simp only [if_neg h, Option.map_id']

theorem Function.edges_setTerminator_ne (F : Function w V) {B Q : Nat} (h : Q ≠ B)
    (t : Terminator w) (i : Nat) : (F.setTerminator B t).edges Q i = F.edges Q i := by
  refine edges_congr ?_ i
  rw [getElem?_setTerminator_ne F h]

theorem Function.edges_setTerminator_self (F : Function w V) {B : Nat} (h : B < F.length)
    (t : Terminator w) (i : Nat) :
    (F.setTerminator B t).edges B i = t.successors.count i := by
  have hblock := getElem?_setTerminator F B B t
  rw [getElem?_eq_getElem h, Option.map_some, if_pos rfl] at hblock
  rw [edges_eq hblock]

theorem lt_length_of_getElem? {F : Function w V}
    (h : F[i]? = some b) : i < F.length := (List.getElem?_eq_some_iff.mp h).1

@[simp] theorem sizeTo_singleton (c : CaseRange w) (B : Nat) :
    sizeTo [c] B = if c.BB = B then c.size else 0 := by simp [sizeTo]

variable {F : Function w V} {N OrigBlock P : Nat}

theorem leaf_entries {PN : PHINode V} {n : Nat}
    (hcount : c.size ≤ PN.countFrom OrigBlock) :
    KeepsValues OrigBlock PN (setIncomingBlock OrigBlock n
        (removeEntries OrigBlock (c.High.toInt - c.Low.toInt).toNat PN)) ∧
      ∀ Q, (setIncomingBlock OrigBlock n
          (removeEntries OrigBlock (c.High.toInt - c.Low.toInt).toNat PN)).countFrom Q +
            (if Q = OrigBlock then c.size else 0) =
        PN.countFrom Q + if Q = n then 1 else 0 := by
  unfold CaseRange.size at hcount ⊢
  have hremoved := countFrom_removeEntries (c.High.toInt - c.Low.toInt).toNat PN
    (show _ ≤ PN.countFrom OrigBlock by omega)
  have hleft := hremoved OrigBlock
  rw [if_pos rfl] at hleft
  refine ⟨(keepsValues_removeEntries _ _).trans (keepsValues_setIncomingBlock _), fun Q => ?_⟩
  have hset := countFrom_setIncomingBlock n _ (show 0 < (removeEntries OrigBlock
    (c.High.toInt - c.Low.toInt).toNat PN).countFrom OrigBlock by omega) Q
  have hQ := hremoved Q
  by_cases hQOrig : Q = OrigBlock
  · rw [if_pos hQOrig] at hset hQ ⊢
    omega
  · rw [if_neg hQOrig] at hset hQ ⊢
    omega

theorem leaf_lands {n : Nat} (hN : N < n) (hBB : c.BB < N)
    (hle : c.Low.toInt ≤ c.High.toInt)
    (hblock : F'[n]? = some (newBlock (.condBr (leafCompare c) c.BB N))) (v : BitVec w) :
    ∃ Q B, Lands F' (N + 1) n v P n Q B ∧ Leads [c] N v B := by
  by_cases hv : c.Contains v
  · refine ⟨n, c.BB, .step hN le_rfl hblock ?_ (.here (by omega)), ⟨?_, fun hnot => ?_⟩⟩
    · exact congrArg some (if_pos ((leafCompare_holds hle).mpr hv))
    · intro d hd _
      rw [List.mem_singleton.mp hd]
    · exact absurd hv (hnot c mem_cons_self)
  · refine ⟨n, N, .step hN le_rfl hblock ?_ (.here (Nat.lt_succ_self N)),
      ⟨fun d hd hcontains => ?_, fun _ => rfl⟩⟩
    · exact congrArg some (if_neg (mt (leafCompare_holds hle).mp hv))
    · rw [List.mem_singleton.mp hd] at hcontains
      exact absurd hcontains hv

theorem newLeafBlock_spec (hN : N < F.length) (hOrig : OrigBlock < N)
    (hBB : c.BB < N) (hdefault : ∀ b, F[N]? = some b → b.phis = [])
    (hle : c.Low.toInt ≤ c.High.toInt)
    (hcount : ∀ b, F[c.BB]? = some b → ∀ PN ∈ b.phis, c.size ≤ PN.countFrom OrigBlock) :
    ∃ F', newLeafBlock F c OrigBlock N = some (F', F.length) ∧
      Converted N OrigBlock P F.length (sizeTo [c]) F F' ∧ F.length < F'.length ∧
      ∀ v, ∃ Q B, Lands F' (N + 1) F.length v P F.length Q B ∧ Leads [c] N v B := by
  have hmore : Function.MoreEntries
      (F ++ [newBlock (.condBr (leafCompare c) c.BB N)]) c.BB OrigBlock
      (c.High.toInt - c.Low.toInt).toNat := by
    intro b hb PN hPN
    rw [Option.mem_def, getElem?_concat, if_pos (by omega)] at hb
    have := hcount b hb PN hPN
    unfold CaseRange.size at this
    omega
  have hedges : ∀ Q i, F.length ≤ Q → i ≠ N → Function.edges (Function.mapPhis
      (F ++ [newBlock (.condBr (leafCompare c) c.BB N)]) c.BB fun PN =>
        setIncomingBlock OrigBlock F.length
          (removeEntries OrigBlock (c.High.toInt - c.Low.toInt).toNat PN)) Q i =
      if Q = F.length ∧ c.BB = i then 1 else 0 := by
    intro Q i hQ hiN
    rw [Function.edges_mapPhis, edges_concat F _ hQ]
    by_cases hlast : Q = F.length
    · simp [hlast, Terminator.successors, count_cons, Ne.symm hiN]
    · simp [hlast]
  refine ⟨_, if_pos hmore, ?_, ?_, fun v => ?_⟩
  · refine ⟨by simp, fun hlt => absurd hlt (lt_irrefl _), fun Q i hQ hi hiN hpos => ?_,
      fun i b hb => ?_, fun i b hi hb => ?_⟩
    · rw [hedges Q i hQ hiN] at hpos
      rw [sizeTo_singleton]
      split at hpos
      · next h =>
        rw [if_pos h.2]
        exact Nat.succ_pos _
      · exact absurd hpos (lt_irrefl _)
    · have hi := lt_length_of_getElem? hb
      refine ⟨if i = c.BB then fun PN => setIncomingBlock OrigBlock F.length
        (removeEntries OrigBlock (c.High.toInt - c.Low.toInt).toNat PN) else id, ?_, ?_⟩
      · rw [Function.getElem?_mapPhis, getElem?_concat, if_pos hi, hb]
        rfl
      · intro PN hPN
        have hiN : i ≠ N := by
          rintro rfl
          rw [hdefault b hb] at hPN
          cases hPN
        by_cases hBBi : i = c.BB
        · rw [if_pos hBBi]
          subst hBBi
          obtain ⟨hkeeps, hentries⟩ :=
            leaf_entries (n := F.length) (hcount b hb PN hPN)
          refine ⟨hkeeps, fun Q => ?_⟩
          have hQ := hentries Q
          rw [sizeTo_singleton, if_pos rfl, if_neg (show ¬ (Q = P ∧ F.length = c.BB) by omega)]
          by_cases hnew : F.length ≤ Q
          · rw [if_pos hnew, hedges Q _ hnew hiN]
            simp only [and_true]
            omega
          · rw [if_neg hnew]
            rw [if_neg (show ¬ Q = F.length by omega)] at hQ
            omega
        · rw [if_neg hBBi]
          refine ⟨fun x BB hmem => .inl hmem, fun Q => ?_⟩
          rw [sizeTo_singleton, if_neg (Ne.symm hBBi), ite_self,
            if_neg (show ¬ (Q = P ∧ F.length = i) by omega)]
          by_cases hQ : F.length ≤ Q
          · rw [if_pos hQ, hedges Q i hQ hiN, if_neg (by tauto)]
            rfl
          · rw [if_neg hQ]
            rfl
    · rw [Function.getElem?_mapPhis, Option.map_eq_some_iff] at hb
      obtain ⟨b', hb', rfl⟩ := hb
      rw [(eq_of_getElem?_concat hi hb').2]
      rfl
  · simp
  · refine leaf_lands hN hBB hle ?_ v
    rw [Function.getElem?_mapPhis, getElem?_concat, if_neg (lt_irrefl _), if_pos rfl]
    rfl

theorem fixPhis_converted
    (hcount : ∀ b, F[c.BB]? = some b → ∀ PN ∈ b.phis, c.size ≤ PN.countFrom OrigBlock) :
    Converted N OrigBlock P c.BB (sizeTo [c]) F
      (F.mapPhis c.BB (fixPhi OrigBlock P (c.High.toInt - c.Low.toInt).toNat)) := by
  have hnone : ∀ Q i, F.length ≤ Q → (F.mapPhis c.BB
      (fixPhi OrigBlock P (c.High.toInt - c.Low.toInt).toNat)).edges Q i = 0 := fun Q i hQ =>
    Function.edges_of_le (by rwa [Function.length_mapPhis]) i
  refine ⟨by simp, fun _ => ?_, fun Q i hQ _ _ hpos => ?_, fun i b hb => ?_, fun i b hi hb => ?_⟩
  · rw [sizeTo_singleton, if_pos rfl]
    exact Nat.succ_pos _
  · rw [hnone Q i hQ] at hpos
    exact absurd hpos (lt_irrefl _)
  · refine ⟨if i = c.BB then fixPhi OrigBlock P (c.High.toInt - c.Low.toInt).toNat else id, ?_, ?_⟩
    · rw [Function.getElem?_mapPhis, hb]
      rfl
    · intro PN hPN
      have hadd : ∀ Q, (if F.length ≤ Q then (F.mapPhis c.BB
          (fixPhi OrigBlock P (c.High.toInt - c.Low.toInt).toNat)).edges Q i else 0) = 0 := by
        intro Q
        split
        · next hQ => exact hnone Q i hQ
        · rfl
      by_cases hBBi : i = c.BB
      · rw [if_pos hBBi]
        subst hBBi
        refine ⟨keepsValues_fixPhi _ _, fun Q => ?_⟩
        have hcounted := hcount b hb PN hPN
        unfold CaseRange.size at hcounted
        have hfixed := countFrom_fixPhi P (c.High.toInt - c.Low.toInt).toNat PN
          (show _ < PN.countFrom OrigBlock by omega) Q
        rw [hadd, sizeTo_singleton, if_pos rfl, add_zero]
        simpa [CaseRange.size] using hfixed
      · rw [if_neg hBBi]
        refine ⟨fun x BB hmem => .inl hmem, fun Q => ?_⟩
        rw [hadd, sizeTo_singleton, if_neg (Ne.symm hBBi), ite_self,
          if_neg (fun h => hBBi h.2.symm)]
        rfl
  · have hlt := lt_length_of_getElem? hb
    rw [Function.length_mapPhis] at hlt
    omega

/-- The gap between two halves of the case ranges. -/
def newUpperBound (UnreachableRanges : List IntRange) (Last Pivot : CaseRange w) : BitVec w :=
  if Last.High.toInt + 1 ≤ Pivot.Low.toInt - 1 ∧
      IsInRanges ⟨Last.High.toInt + 1, Pivot.Low.toInt - 1⟩ UnreachableRanges then Last.High
  else Pivot.Low - 1

/-- A value is in no unreachable range. -/
def Possible (UnreachableRanges : List IntRange) (v : BitVec w) : Prop :=
  ∀ R ∈ UnreachableRanges, ¬ (R.Low ≤ v.toInt ∧ v.toInt ≤ R.High)

theorem le_newUpperBound {Last Pivot : CaseRange w}
    (h : Last.High.toInt < Pivot.Low.toInt) (hv : Possible UnreachableRanges v)
    (hlt : v.toInt < Pivot.Low.toInt) :
    v.toInt ≤ (newUpperBound UnreachableRanges Last Pivot).toInt := by
  unfold newUpperBound
  split
  · next hgap =>
    obtain ⟨-, hin⟩ := hgap
    unfold IsInRanges at hin
    split at hin
    · cases hin
    · next R hfind =>
      have hmem := mem_of_find?_eq_some hfind
      have hhigh := find?_some hfind
      simp only [not_lt, decide_eq_true_eq] at hhigh hin
      have hout := hv R hmem
      by_contra hgt
      exact hout ⟨by omega, by omega⟩
  · rw [toInt_pred h]
    omega

section Node

variable {F₂ F₃ : Function w V} {R₁ R₂ : Nat} {size₁ size₂ : Nat → Nat} {t : Terminator w}

theorem getElem?_concat_old {b' : BasicBlock w V} (h : F[i]? = some b) :
    (F ++ [b'])[i]? = some b := by
  rw [getElem?_concat, if_pos (lt_length_of_getElem? h), h]

theorem Converted.terminator_eq {F : Function w V} {R : Nat} {size : Nat → Nat}
    (h : Converted N OrigBlock P R size F F') (hb : F[i]? = some b) :
    ∃ b', F'[i]? = some b' ∧ b'.terminator = b.terminator := by
  obtain ⟨g, hg, -⟩ := h.old i b hb
  exact ⟨_, hg, rfl⟩

theorem Converted.edges_eq {F : Function w V} {R : Nat} {size : Nat → Nat}
    (h : Converted N OrigBlock P R size F F') {Q : Nat} (hQ : Q < F.length) (i : Nat) :
    F'.edges Q i = F.edges Q i := by
  obtain ⟨b', hb', heq⟩ := h.terminator_eq (getElem?_eq_getElem hQ)
  refine Function.edges_congr ?_ i
  rw [hb', getElem?_eq_getElem hQ, Option.map_some, Option.map_some, heq]

theorem Converted.enough (hOrig : OrigBlock < F.length)
    (h : Converted N OrigBlock F.length R₁ size₁ (F ++ [newBlock t]) F₂)
    (hcount : ∀ i b, F[i]? = some b → ∀ PN ∈ b.phis, size₁ i + size₂ i ≤ PN.countFrom OrigBlock) :
    ∀ i b, F₂[i]? = some b → ∀ PN ∈ b.phis, size₂ i ≤ PN.countFrom OrigBlock := by
  intro i b hb PN hPN
  have hlength : (F ++ [newBlock t]).length = F.length + 1 := by simp
  by_cases hi : i < F.length
  · obtain ⟨g, hg, hentries⟩ :=
      h.old i F[i] (getElem?_concat_old (getElem?_eq_getElem hi))
    rw [hb, Option.some.injEq] at hg
    subst hg
    obtain ⟨PN', hPN', rfl⟩ := List.mem_map.mp hPN
    have hbefore := hcount i _ (getElem?_eq_getElem hi) PN' hPN'
    have hafter := (hentries PN' hPN').2 OrigBlock
    rw [if_pos rfl, if_neg (by omega), if_neg (by omega)] at hafter
    omega
  · by_cases heq : i = F.length
    · obtain ⟨g, hg, -⟩ := h.old i (newBlock t)
        (by rw [getElem?_concat, if_neg hi, if_pos heq])
      rw [hb, Option.some.injEq] at hg
      rw [hg] at hPN
      cases hPN
    · rw [h.new i b (by omega) hb] at hPN
      cases hPN

theorem Converted.node {Comp : Compare w}
    (h₁ : Converted N OrigBlock F.length R₁ size₁ (F ++ [newBlock t]) F₂)
    (h₂ : Converted N OrigBlock F.length R₂ size₂ F₂ F₃) :
    Converted N OrigBlock P F.length (fun i => size₁ i + size₂ i) F
      (F₃.setTerminator F.length (.condBr Comp R₁ R₂)) := by
  have hlength : (F ++ [newBlock t]).length = F.length + 1 := by simp
  have hle₁ := h₁.length_le
  have hle₂ := h₂.length_le
  have hself : ∀ i, (F₃.setTerminator F.length (.condBr Comp R₁ R₂)).edges F.length i =
      (if R₁ = i then 1 else 0) + if R₂ = i then 1 else 0 := by
    intro i
    rw [Function.edges_setTerminator_self F₃ (by omega)]
    simp [Terminator.successors, count_cons, Nat.add_comm]
  refine ⟨by rw [Function.length_setTerminator]; omega, fun hlt => absurd hlt (lt_irrefl _),
    fun Q i hQ hi hiN hpos => ?_, fun i b hb => ?_, fun i b hi hb => ?_⟩
  · have hhalves : 0 < size₁ i ∨ 0 < size₂ i := by
      rcases Nat.lt_or_eq_of_le hQ with hgt | rfl
      · rw [Function.edges_setTerminator_ne F₃ (by omega)] at hpos
        by_cases hlast : F₂.length ≤ Q
        · exact .inr (h₂.target Q i hlast (by omega) hiN hpos)
        · rw [h₂.edges_eq (by omega)] at hpos
          exact .inl (h₁.target Q i (by omega) (by omega) hiN hpos)
      · rw [hself] at hpos
        by_cases hR₁ : R₁ = i
        · subst hR₁
          exact .inl (h₁.root (by omega))
        · by_cases hR₂ : R₂ = i
          · subst hR₂
            exact .inr (h₂.root (by omega))
          · rw [if_neg hR₁, if_neg hR₂] at hpos
            exact absurd hpos (lt_irrefl _)
    omega
  · have hi := lt_length_of_getElem? hb
    obtain ⟨g₁, hg₁, hentries₁⟩ := h₁.old i b (getElem?_concat_old hb)
    obtain ⟨g₂, hg₂, hentries₂⟩ := h₂.old i _ hg₁
    refine ⟨fun PN => g₂ (g₁ PN), ?_, fun PN hPN => ?_⟩
    · rw [Function.getElem?_setTerminator, hg₂, Option.map_some, if_neg (by omega), map_map]
      rfl
    · obtain ⟨hkeeps₁, hcount₁⟩ := hentries₁ PN hPN
      obtain ⟨hkeeps₂, hcount₂⟩ := hentries₂ (g₁ PN) (mem_map_of_mem hPN)
      refine ⟨hkeeps₁.trans hkeeps₂, fun Q => ?_⟩
      have hQ₁ := hcount₁ Q
      have hQ₂ := hcount₂ Q
      have hedges : (if F.length ≤ Q then (F₃.setTerminator F.length
            (.condBr Comp R₁ R₂)).edges Q i else 0) =
          (if (F ++ [newBlock t]).length ≤ Q then F₂.edges Q i else 0) +
            (if F₂.length ≤ Q then F₃.edges Q i else 0) +
            ((if Q = F.length ∧ R₁ = i then 1 else 0) +
              if Q = F.length ∧ R₂ = i then 1 else 0) := by
        rcases lt_trichotomy Q F.length with hlt | heq | hgt
        · rw [if_neg (by omega), if_neg (by omega), if_neg (by omega), if_neg (by omega),
            if_neg (by omega)]
        · subst heq
          rw [if_pos le_rfl, if_neg (by omega), if_neg (by omega), hself]
          simp
        · have hnew : (F ++ [newBlock t]).length ≤ Q := by omega
          rw [if_pos hgt.le, if_pos hnew, if_neg (show ¬ (Q = F.length ∧ R₁ = i) by omega),
            if_neg (show ¬ (Q = F.length ∧ R₂ = i) by omega),
            Function.edges_setTerminator_ne F₃ (by omega)]
          by_cases hlast : F₂.length ≤ Q
          · rw [if_pos hlast, Function.edges_of_le hlast]
            omega
          · rw [if_neg hlast, h₂.edges_eq (by omega)]
            omega
      rw [hedges, if_neg (show ¬ (Q = P ∧ F.length = i) by omega)]
      beta_reduce
      by_cases hQ : Q = OrigBlock
      · rw [if_pos hQ] at hQ₁ hQ₂ ⊢
        omega
      · rw [if_neg hQ] at hQ₁ hQ₂ ⊢
        omega
  · rw [Function.getElem?_setTerminator, Option.map_eq_some_iff] at hb
    obtain ⟨b', hb', rfl⟩ := hb
    by_cases hi₂ : i < F₂.length
    · obtain ⟨g, hg, -⟩ := h₂.old i F₂[i] (getElem?_eq_getElem hi₂)
      rw [hb', Option.some.injEq] at hg
      have hphis : F₂[i].phis = [] := by
        by_cases heq : i = F.length
        · obtain ⟨g', hg', -⟩ := h₁.old i (newBlock t)
            (by rw [getElem?_concat, if_neg (by omega), if_pos heq])
          rw [getElem?_eq_getElem hi₂, Option.some.injEq] at hg'
          rw [hg']
          rfl
        · exact h₁.new i _ (by omega) (getElem?_eq_getElem hi₂)
      rw [hg]
      rw [hphis]
      rfl
    · exact h₂.new i b' (by omega) hb'

end Node

theorem InOrder.head_le (h : InOrder Cases) {First : CaseRange w}
    (hFirst : Cases.head? = some First) (hc : c ∈ Cases) :
    First.Low.toInt ≤ c.Low.toInt := by
  cases Cases with
  | nil => cases hc
  | cons I Cases =>
    obtain rfl := Option.some.inj hFirst
    rcases List.mem_cons.mp hc with rfl | hc
    · exact le_rfl
    · have := (List.pairwise_cons.mp h.apart).1 c hc
      have := h.le I mem_cons_self
      omega

theorem InOrder.halves (h : InOrder Cases) (htwo : 2 ≤ Cases.length) :
    ∃ Last Pivot, (Cases.take (Cases.length / 2)).getLast? = some Last ∧
      (Cases.drop (Cases.length / 2)).head? = some Pivot ∧
      InOrder (Cases.take (Cases.length / 2)) ∧ InOrder (Cases.drop (Cases.length / 2)) ∧
      Last.High.toInt < Pivot.Low.toInt ∧
      (∀ c ∈ Cases.take (Cases.length / 2), c.High.toInt < Pivot.Low.toInt) ∧
      ∀ c ∈ Cases.drop (Cases.length / 2), Pivot.Low.toInt ≤ c.Low.toInt := by
  have hsplit := take_append_drop (Cases.length / 2) Cases
  have hapart := h.apart
  rw [← hsplit, pairwise_append] at hapart
  obtain ⟨hapart₁, hapart₂, hbetween⟩ := hapart
  have hne₁ : Cases.take (Cases.length / 2) ≠ [] := by
    rw [← length_pos_iff, length_take]
    omega
  have hne₂ : Cases.drop (Cases.length / 2) ≠ [] := by
    rw [← length_pos_iff, length_drop]
    omega
  have hle₂ : ∀ c ∈ Cases.drop (Cases.length / 2), c.Low.toInt ≤ c.High.toInt := fun c hc =>
    h.le c (mem_of_mem_drop hc)
  have hhead := head_mem hne₂
  have hhead? := head?_eq_some_head hne₂
  exact ⟨_, _, getLast?_eq_some_getLast hne₁, hhead?,
    ⟨fun c hc => h.le c (mem_of_mem_take hc), hapart₁⟩, ⟨hle₂, hapart₂⟩,
    hbetween _ (getLast_mem hne₁) _ hhead, fun c hc => hbetween c hc _ hhead,
    fun c hc => InOrder.head_le ⟨hle₂, hapart₂⟩ hhead? hc⟩

theorem Leads.of_part {part Cases : List (CaseRange w)} {N B : Nat}
    (h : Leads part N v B) (hpart : ∀ c ∈ part, c ∈ Cases)
    (hrest : ∀ c ∈ Cases, c.Contains v → c ∈ part) : Leads Cases N v B where
  contained := fun c hc hcontains => h.contained c (hrest c hc hcontains) hcontains
  default := fun hnot => h.default fun c hc => hnot c (hpart c hc)

theorem Lands.node {F : Function w V} {N n P R Q B : Nat} {t : Terminator w}
    (h : Lands F (N + 1) (n + 1) v n R Q B) (hN : N < n) (hn : n < F.length)
    (hnext : t.next v = some R) : Lands (F.setTerminator n t) (N + 1) n v P n Q B := by
  have hblock := Function.getElem?_setTerminator F n n t
  rw [getElem?_eq_getElem hn, Option.map_some, if_pos rfl] at hblock
  refine .step hN le_rfl hblock hnext (h.mono (Nat.le_succ n) fun i b hi hb => ⟨b, ?_, rfl⟩)
  rw [Function.getElem?_setTerminator_ne F (by omega), hb]

theorem sizeTo_halves (Cases : List (CaseRange w)) (n B : Nat) :
    sizeTo (Cases.take n) B + sizeTo (Cases.drop n) B = sizeTo Cases B := by
  unfold sizeTo
  rw [← sum_append, ← map_append, take_append_drop]

theorem switchConvert_node {N OrigBlock fuel P R₁ R₂ : Nat}
    (htwo : 2 ≤ Cases.length) {Pivot Last : CaseRange w}
    (hPivot : (Cases.drop (Cases.length / 2)).head? = some Pivot)
    (hLast : (Cases.take (Cases.length / 2)).getLast? = some Last)
    {LowerBound UpperBound : Option (BitVec w)} {F F₂ F₃ : Function w V}
    (h₁ : switchConvert UnreachableRanges OrigBlock N fuel (Cases.take (Cases.length / 2))
      LowerBound (some (newUpperBound UnreachableRanges Last Pivot)) F.length
      (F ++ [newBlock (.other [])]) = some (F₂, R₁))
    (h₂ : switchConvert UnreachableRanges OrigBlock N fuel (Cases.drop (Cases.length / 2))
      (some Pivot.Low) UpperBound F.length F₂ = some (F₃, R₂)) :
    switchConvert UnreachableRanges OrigBlock N (fuel + 1) Cases LowerBound UpperBound P F =
      some (F₃.setTerminator F.length (.condBr (.slt Pivot.Low) R₁ R₂), F.length) := by
  match Cases, htwo with
  | c₁ :: c₂ :: rest, _ =>
    unfold newUpperBound at h₁
    simp only [switchConvert, hPivot, hLast, h₁, h₂, Option.bind_eq_bind, Option.bind_some]

theorem switchConvert_spec {N OrigBlock : Nat}
    (hOrig : OrigBlock < N) (fuel : Nat) (hfuel : Cases.length ≤ fuel)
    (hne : Cases ≠ []) (horder : InOrder Cases) (hBB : ∀ c ∈ Cases, c.BB < N)
    (LowerBound UpperBound : Option (BitVec w)) (P : Nat) {F : Function w V} (hN : N < F.length)
    (hdefault : ∀ b, F[N]? = some b → b.phis = [])
    (hcount : ∀ i b, F[i]? = some b → ∀ PN ∈ b.phis, sizeTo Cases i ≤ PN.countFrom OrigBlock) :
    ∃ F' R, switchConvert UnreachableRanges OrigBlock N fuel Cases LowerBound UpperBound P F =
        some (F', R) ∧ Converted N OrigBlock P R (sizeTo Cases) F F' ∧
      (R < N ∨ F.length ≤ R ∧ R < F'.length) ∧
      ∀ v, Possible UnreachableRanges v → (∀ l ∈ LowerBound, l.toInt ≤ v.toInt) →
        (∀ u ∈ UpperBound, v.toInt ≤ u.toInt) →
          ∃ Q B, Lands F' (N + 1) F.length v P R Q B ∧ Leads Cases N v B := by
  induction fuel generalizing Cases LowerBound UpperBound P F with
  | zero => exact absurd (List.length_eq_zero_iff.mp (Nat.le_zero.mp hfuel)) hne
  | succ fuel ih =>
    match Cases, hne with
    | [c], _ =>
      rw [switchConvert]
      have hcountBB : ∀ b, F[c.BB]? = some b → ∀ PN ∈ b.phis, c.size ≤ PN.countFrom OrigBlock := by
        intro b hb PN hPN
        have hle := hcount c.BB b hb PN hPN
        rwa [sizeTo_singleton, if_pos rfl] at hle
      have hcBB := hBB c mem_cons_self
      by_cases hbounds : LowerBound = some c.Low ∧ UpperBound = some c.High
      · rw [if_pos hbounds]
        refine ⟨_, _, rfl, fixPhis_converted hcountBB, .inl hcBB, fun v _ hl hu => ?_⟩
        have hcontains : c.Contains v :=
          ⟨hl _ (by rw [hbounds.1]; rfl), hu _ (by rw [hbounds.2]; rfl)⟩
        refine ⟨P, c.BB, .here (by omega), ⟨fun d hd _ => ?_, fun hnot => ?_⟩⟩
        · rw [List.mem_singleton.mp hd]
        · exact absurd hcontains (hnot c mem_cons_self)
      · rw [if_neg hbounds]
        obtain ⟨F', hF', hconverted, hlt, hlands⟩ := newLeafBlock_spec hN hOrig hcBB hdefault
          (horder.le c mem_cons_self) hcountBB
        exact ⟨F', F.length, hF', hconverted, .inr ⟨le_rfl, hlt⟩, fun v _ _ _ => hlands v⟩
    | c₁ :: c₂ :: rest, _ =>
      generalize hCases : c₁ :: c₂ :: rest = Cases at *
      have htwo : 2 ≤ Cases.length := by
        rw [← hCases]
        simp
      have hsplit := take_append_drop (Cases.length / 2) Cases
      obtain ⟨Last, Pivot, hLast, hPivot, horder₁, horder₂, hgap, hbelow, habove⟩ :=
        horder.halves htwo
      have hlength : (F ++ [newBlock (.other [])]).length = F.length + 1 := by simp
      have hsize := sizeTo_halves Cases (Cases.length / 2)
      -- the first half, behind the new block
      obtain ⟨F₂, R₁, h₁, hconverted₁, hR₁, hlands₁⟩ := ih
        (by rw [length_take]; omega)
        (by rw [← length_pos_iff, length_take]; omega) horder₁
        (fun c hc => hBB c (mem_of_mem_take hc)) LowerBound
        (some (newUpperBound UnreachableRanges Last Pivot)) F.length
        (F := F ++ [newBlock (.other [])]) (by omega)
        (fun b hb => hdefault b (by rwa [getElem?_concat, if_pos hN] at hb)) (by
          intro i b hb PN hPN
          rw [getElem?_concat] at hb
          split at hb
          · have := hcount i b hb PN hPN
            have := hsize i
            omega
          · split at hb
            · rw [← Option.some.inj hb] at hPN
              cases hPN
            · cases hb)
      have hle₁ := hconverted₁.length_le
      -- the second half
      obtain ⟨F₃, R₂, h₂, hconverted₂, hR₂, hlands₂⟩ := ih
        (by rw [length_drop]; omega)
        (by rw [← length_pos_iff, length_drop]; omega) horder₂
        (fun c hc => hBB c (mem_of_mem_drop hc)) (some Pivot.Low) UpperBound F.length
        (F := F₂) (by omega) (by
          intro b hb
          obtain ⟨g, hg, -⟩ := hconverted₁.old N F[N]
            (getElem?_concat_old (getElem?_eq_getElem hN))
          rw [hb, Option.some.injEq] at hg
          rw [hg, hdefault _ (getElem?_eq_getElem hN)]
          rfl) (hconverted₁.enough (by omega) fun i b hb PN hPN => by
            rw [hsize]
            exact hcount i b hb PN hPN)
      have hle₂ := hconverted₂.length_le
      have hnode : Converted N OrigBlock P F.length _ F
          (F₃.setTerminator F.length (.condBr (.slt Pivot.Low) R₁ R₂)) :=
        hconverted₁.node hconverted₂
      have hmem : ∀ c ∈ Cases, c ∈ Cases.take (Cases.length / 2) ∨
          c ∈ Cases.drop (Cases.length / 2) := by
        intro c hc
        rwa [← mem_append, hsplit]
      refine ⟨_, _, switchConvert_node htwo hPivot hLast h₁ h₂, ?_, .inr ⟨le_rfl, ?_⟩,
        fun v hpossible hl hu => ?_⟩
      · rwa [show (fun i => sizeTo (Cases.take (Cases.length / 2)) i +
          sizeTo (Cases.drop (Cases.length / 2)) i) = sizeTo Cases from funext hsize] at hnode
      · rw [Function.length_setTerminator]
        omega
      · by_cases hlt : v.toInt < Pivot.Low.toInt
        · obtain ⟨Q, B, hlands, hleads⟩ := hlands₁ v hpossible hl (by
            intro u hu
            rw [← Option.mem_some.mp hu]
            exact le_newUpperBound hgap hpossible hlt)
          rw [hlength] at hlands
          refine ⟨Q, B, (hlands.mono le_rfl fun i b _ hb => hconverted₂.terminator_eq hb).node hN
            (by omega) (congrArg some (if_pos hlt)), hleads.of_part
              (fun c hc => mem_of_mem_take hc) fun c hc hcontains => ?_⟩
          refine (hmem c hc).resolve_right fun hc => ?_
          have := habove c hc
          have := hcontains.1
          omega
        · obtain ⟨Q, B, hlands, hleads⟩ := hlands₂ v hpossible (by
            intro l hl
            rw [← Option.mem_some.mp hl]
            omega) hu
          have hlands' : Lands F₃ (N + 1) (F.length + 1) v F.length R₂ Q B :=
            hlands.mono (by omega) fun i b _ hb => ⟨b, hb, rfl⟩
          refine ⟨Q, B, hlands'.node hN (by omega) (congrArg some (if_neg hlt)),
            hleads.of_part (fun c hc => mem_of_mem_drop hc) fun c hc hcontains => ?_⟩
          refine (hmem c hc).resolve_left fun hc => ?_
          have := hbelow c hc
          have := hcontains.2
          omega

end Zapcc.LowerSwitch
