import Zapcc.Transforms.SwitchCases
import Zapcc.Transforms.SwitchRebuild

/-!
# Lowering keeps the destinations of a switch

After `processSwitchInst` each value of the condition leads to its destination, and the PHI nodes
there have the value of the edge of the switch. When the default is unreachable, the PHI nodes of
the most popular block and of the default can keep entries for edges that are gone.
-/

namespace Zapcc.LowerSwitch

open List

variable {w : Nat} {V : Type}

namespace Function

/-- The first instruction of a block is `unreachable`. -/
def StartsUnreachable (F : Function w V) (B : Nat) : Prop :=
  ∃ b, F[B]? = some b ∧ b.startsUnreachable = true

/-- A block has no PHI nodes. -/
def NoPhis (F : Function w V) (B : Nat) : Prop := ∀ b, F[B]? = some b → b.phis = []

/-- Each PHI node has one entry for each edge, but in blocks that are deleted. -/
def PhiForm (F : Function w V) (Deleted : List Nat) : Prop :=
  ∀ (B : Nat) b, F[B]? = some b → B ∉ Deleted → ∀ PN ∈ b.phis, ∀ P, PN.countFrom P = F.edges P B

/-- Each value of the condition leads to the destination that the switch has for it, unless this is
the unreachable default, and the PHI nodes there have the value of the edge of the switch. -/
def KeepsDestinations (F F' : Function w V) (CurBlock Default : Nat)
    (cases : List (BitVec w × Nat)) : Prop :=
  ∀ v B, (Terminator.switch Default cases).next v = some B →
    ¬ (B = Default ∧ F.StartsUnreachable Default) →
    ∃ Q b b', LeadsTo F F' CurBlock v Q B ∧ F[B]? = some b ∧ F'[B]? = some b' ∧
      List.Forall₂ (fun PN PN' => ∃ x, PHINode.Yields PN CurBlock x ∧ PHINode.Yields PN' Q x)
        b.phis b'.phis

/-- No PHI node loses an edge from a switch with an unreachable default: the most popular block has
no PHI nodes or one edge from the switch, and another block that is the default has no PHI nodes, or
has no other edge and the switch does not become a branch, so that it is deleted. -/
def LosesNoEdge (F : Function w V) (CurBlock Default : Nat) (cases : List (BitVec w × Nat)) :
    Prop :=
  F.StartsUnreachable Default → ∀ B, MostPopular cases B → (F.NoPhis B ∨ F.edges CurBlock B = 1) ∧
      (B = Default ∨ F.NoPhis Default ∨ (∃ c ∈ cases, c.2 ≠ B) ∧ (∀ c ∈ cases, c.2 ≠ Default) ∧
          ∀ P, P ≠ CurBlock → F.edges P Default = 0)

end Function

/-- `processSwitchInst` ends, keeps the destinations, and leaves PHI nodes with one entry for each
edge. -/
def Preserves (F : Function w V) (CurBlock Default : Nat) (cases : List (BitVec w × Nat)) : Prop :=
  ∃ F' Deleted, processSwitchInst F CurBlock = some (F', Deleted) ∧
    F.KeepsDestinations F' CurBlock Default cases ∧ F'.PhiForm Deleted

section Switch

variable {F : Function w V} {CurBlock Default : Nat} {cases : List (BitVec w × Nat)}
  {b : BasicBlock w V}

theorem not_unreachable (hF : F.Valid) (hreachable : F.Reachable CurBlock) :
    ¬ (CurBlock ≠ 0 ∧ F.predecessors CurBlock = [] ∨
      F.getSinglePredecessor CurBlock = some CurBlock) := by
  rintro (⟨hne, hnil⟩ | hsingle)
  · obtain ⟨P, -, hedge⟩ := hreachable.edge_ne hne
    exact hedge.ne' (Function.predecessors_eq_nil.mp hnil P)
  · unfold Function.getSinglePredecessor at hsingle
    split at hsingle
    · next P hpredecessors =>
      obtain rfl := Option.some.inj hsingle
      by_cases hzero : P = 0
      · subst hzero
        have := Function.predecessors_eq_nil.mpr hF.entry
        rw [this] at hpredecessors
        cases hpredecessors
      · obtain ⟨P', hne, hedge⟩ := hreachable.edge_ne hzero
        have hmem := Function.mem_predecessors.mpr hedge
        rw [hpredecessors, mem_singleton] at hmem
        exact hne hmem
    · cases hsingle

theorem edges_switch (hb : F[CurBlock]? = some b) (ht : b.terminator = .switch Default cases)
    (B : Nat) : F.edges CurBlock B =
      (if Default = B then 1 else 0) + (cases.map Prod.snd).count B := by
  rw [Function.edges_eq hb, ht, Terminator.successors, count_cons, Nat.add_comm]
  simp

variable {F' : Function w V} {c : CaseRange w}

theorem Rebuilt.phiForm_iff {D : Nat} {Cases : List (CaseRange w)}
    (h : Rebuilt CurBlock D Cases F F') {Deleted : List Nat} :
    F'.PhiForm Deleted ↔
      ∀ B, B < F.length → B ∉ Deleted → F.NoPhis B ∨ moved D Cases B = F.edges CurBlock B := by
  constructor
  · intro hform B hB hDeleted
    have hblock := getElem?_eq_getElem hB
    obtain ⟨g, b', hblock', hphis, hentries⟩ := h.old B _ hblock
    rcases eq_nil_or_concat' F[B].phis with hnil | ⟨PNs, PN, hPNs⟩
    · refine .inl fun b hb => ?_
      rw [hblock, Option.some.injEq] at hb
      rw [← hb, hnil]
    · have hmem : PN ∈ F[B].phis := by simp [hPNs]
      have hcount := (hentries PN hmem).2 CurBlock
      have := hform B b' hblock' hDeleted (g PN) (hphis ▸ mem_map_of_mem hmem) CurBlock
      rw [if_pos rfl, if_pos rfl] at hcount
      exact .inr (by omega)
  · intro hmoved B b' hblock' hDeleted PN' hPN' P
    by_cases hB : B < F.length
    · have hblock := getElem?_eq_getElem hB
      obtain ⟨g, b'', hblock'', hphis, hentries⟩ := h.old B _ hblock
      rw [hblock', Option.some.injEq] at hblock''
      subst hblock''
      rw [hphis] at hPN'
      obtain ⟨PN, hPN, rfl⟩ := List.mem_map.mp hPN'
      have hcount := (hentries PN hPN).2 P
      rcases hmoved B hB hDeleted with hnone | hall
      · rw [hnone _ hblock] at hPN
        cases hPN
      · by_cases hP : P = CurBlock
        · rw [if_pos hP, if_pos hP] at hcount
          omega
        · rw [if_neg hP, if_neg hP] at hcount
          exact hcount
    · rw [h.new B b' (not_lt.mp hB) hblock'] at hPN'
      cases hPN'

theorem rebuilt_branch (hF : F.Valid) (hb : F[CurBlock]? = some b) (D : Nat) :
    Rebuilt CurBlock D [] F (F.setTerminator CurBlock (.br D)) := by
  have hCur := lt_length_of_getElem? hb
  have hself : ∀ i, (F.setTerminator CurBlock (.br D)).edges CurBlock i =
      if D = i then 1 else 0 := by
    intro i
    rw [Function.edges_setTerminator_self F hCur]
    simp [Terminator.successors, count_singleton]
  refine ⟨fun i b hb => ⟨id, { b with terminator := if i = CurBlock then .br D else b.terminator },
    by rw [Function.getElem?_setTerminator, hb, Option.map_some], (map_id _).symm,
    fun PN hPN => ⟨fun x BB hmem => .inl hmem, fun Q => ?_⟩⟩,
    fun i b hi hb => ?_, fun Q i hne _ => Function.edges_setTerminator_ne F hne _ i,
    fun Q i hi hQ hedge => ?_⟩
  · rw [id_eq, hF.phis i b hb PN hPN]
    by_cases hQ : Q = CurBlock
    · rw [if_pos hQ, if_pos hQ, hQ, hself, Nat.add_comm]
      rfl
    · rw [if_neg hQ, if_neg hQ, Function.edges_setTerminator_ne F hQ]
  · have hlt := lt_length_of_getElem? hb
    rw [Function.length_setTerminator] at hlt
    omega
  · rcases hQ with rfl | hQ
    · rw [hself] at hedge
      exact hedge.trans_le (Nat.le_add_right _ _)
    · rw [Function.edges_of_le (by rwa [Function.length_setTerminator])] at hedge
      exact absurd hedge (lt_irrefl _)

theorem leadsTo_branch (hb : F[CurBlock]? = some b) {D : Nat} (hD : D < F.length) (v : BitVec w) :
    LeadsTo F (F.setTerminator CurBlock (.br D)) CurBlock v CurBlock D := by
  refine ⟨_, D, by rw [Function.getElem?_setTerminator, hb, Option.map_some], ?_, .here hD⟩
  simp only [if_true]
  rfl

variable {B : Nat}

theorem next_switch {v : BitVec w}
    (h : (Terminator.switch Default cases).next v = some B) :
    (v, B) ∈ cases ∨ B = Default ∧ ∀ B', (v, B') ∉ cases := by
  obtain rfl := Option.some.inj h
  cases hfind : cases.find? fun c => c.1 = v with
  | none =>
    refine .inr ⟨rfl, fun B' hmem => ?_⟩
    simpa using List.find?_eq_none.mp hfind _ hmem
  | some c =>
    have hmem := mem_of_find?_eq_some hfind
    have hv := find?_some hfind
    simp only [decide_eq_true_eq] at hv
    subst hv
    exact .inl hmem

theorem contains_of_mem (hnodup : (cases.map Prod.fst).Nodup) {v : BitVec w}
    (h : (v, B) ∈ cases) : ∃ c ∈ Clusterify cases, c.Contains v ∧ c.BB = B :=
  ((Clusterify_spec hnodup).2.1 v B).mpr h

theorem mem_of_mem_Clusterify (hnodup : (cases.map Prod.fst).Nodup)
    (hc : c ∈ Clusterify cases) : (c.Low, c.BB) ∈ cases := by
  obtain ⟨horder, hvalues, -⟩ := Clusterify_spec hnodup
  exact (hvalues c.Low c.BB).mp ⟨c, hc, ⟨le_rfl, horder.le c hc⟩, rfl⟩

theorem eq_of_contains (hnodup : (cases.map Prod.fst).Nodup) {v : BitVec w}
    (h : (v, B) ∈ cases) (hc : c ∈ Clusterify cases) (hcontains : c.Contains v) :
    c.BB = B := by
  have hmem := ((Clusterify_spec hnodup).2.1 v c.BB).mp ⟨c, hc, hcontains, rfl⟩
  exact congrArg Prod.snd (inj_on_of_nodup_map hnodup hmem h rfl)

theorem Rebuilt.keepsDestinations {D : Nat} {Cases : List (CaseRange w)}
    (h : Rebuilt CurBlock D Cases F F') (hF : F.Valid)
    (hmoved : ∀ B, moved D Cases B ≤ F.edges CurBlock B)
    (hrun : ∀ v B, (Terminator.switch Default cases).next v = some B →
      ¬ (B = Default ∧ F.StartsUnreachable Default) → ∃ Q, LeadsTo F F' CurBlock v Q B) :
    F.KeepsDestinations F' CurBlock Default cases := by
  intro v B hnext hreachable
  obtain ⟨Q, hleads⟩ := hrun v B hnext hreachable
  obtain ⟨b, b', hb, hb', hyields⟩ := h.yields hF hleads (hmoved B)
  exact ⟨Q, b, b', hleads, hb, hb', hyields⟩

theorem process_reachable (hF : F.Valid) (hb : F[CurBlock]? = some b)
    (ht : b.terminator = .switch Default cases) (hnodup : (cases.map Prod.fst).Nodup)
    (hne : cases ≠ []) :
    ∃ F', convertCases F CurBlock Default Default (Clusterify cases) none none [] =
        some (F', if F'.predecessors Default = [] then [Default] else []) ∧
      F.KeepsDestinations F' CurBlock Default cases ∧ ∀ Deleted, F'.PhiForm Deleted := by
  obtain ⟨horder, hvalues, hsize⟩ := Clusterify_spec hnodup
  have hsuccessors := hF.successors b (mem_of_getElem? hb)
  rw [ht] at hsuccessors
  have hmoved : ∀ B, moved Default (Clusterify cases) B = F.edges CurBlock B := fun B => by
    rw [edges_switch hb ht, moved, hsize]
  have hne' : Clusterify cases ≠ [] := by
    obtain ⟨e, he⟩ := exists_mem_of_ne_nil cases hne
    obtain ⟨c, hc, -⟩ := contains_of_mem hnodup he
    exact ne_nil_of_mem hc
  obtain ⟨F', heq, hrebuilt, hrun⟩ := convertCases_spec hF (lt_length_of_getElem? hb)
    (hsuccessors Default mem_cons_self) hne' horder
    (fun c hc => hsuccessors _ (mem_cons_of_mem _
      (mem_map_of_mem (mem_of_mem_Clusterify hnodup hc))))
    (fun B => (hmoved B).le) Default none none []
  refine ⟨F', heq, hrebuilt.keepsDestinations hF (fun B => (hmoved B).le) ?_, fun Deleted =>
    hrebuilt.phiForm_iff.mpr fun B _ _ => .inr (hmoved B)⟩
  intro v B hnext _
  obtain ⟨Q, B', hleads, hB'⟩ := hrun v (fun R hR => absurd hR not_mem_nil)
    (fun l hl => absurd hl (by simp)) (fun u hu => absurd hu (by simp))
  rcases next_switch hnext with hmem | ⟨rfl, hnone⟩
  · obtain ⟨c, hc, hcontains, rfl⟩ := contains_of_mem hnodup hmem
    rw [hB'.contained c hc hcontains] at hleads
    exact ⟨Q, hleads⟩
  · rw [hB'.default fun c hc hcontains =>
      hnone c.BB ((hvalues v c.BB).mp ⟨c, hc, hcontains, rfl⟩)] at hleads
    exact ⟨Q, hleads⟩

/-- The case ranges that are left when block `B` is the default. -/
def restOf (cases : List (BitVec w × Nat)) (B : Nat) : List (CaseRange w) :=
  (Clusterify cases).filter fun R => R.BB ≠ B

theorem mem_restOf :
    c ∈ restOf cases B ↔ c ∈ Clusterify cases ∧ c.BB ≠ B := by
  unfold restOf
  rw [mem_filter, decide_eq_true_eq]

theorem restOf_ne_nil (hnodup : (cases.map Prod.fst).Nodup) :
    restOf cases B ≠ [] ↔ ∃ c ∈ cases, c.2 ≠ B := by
  constructor
  · intro hne
    obtain ⟨c, hc⟩ := exists_mem_of_ne_nil _ hne
    obtain ⟨hc, hB⟩ := mem_restOf.mp hc
    exact ⟨_, mem_of_mem_Clusterify hnodup hc, hB⟩
  · rintro ⟨e, he, hB⟩
    obtain ⟨c, hc, -, heq⟩ := contains_of_mem hnodup he
    exact ne_nil_of_mem (mem_restOf.mpr ⟨hc, heq ▸ hB⟩)

theorem moved_restOf (hnodup : (cases.map Prod.fst).Nodup) (B i : Nat) :
    moved B (restOf cases B) i =
      if i = B then 1 else (cases.map Prod.snd).count i := by
  unfold moved restOf
  rw [sizeTo_filter, (Clusterify_spec hnodup).2.2]
  by_cases hi : i = B
  · rw [if_pos hi, if_pos hi.symm, if_pos hi]
  · rw [if_neg hi, if_neg (Ne.symm hi), if_neg hi, zero_add]

theorem Rebuilt.predecessors_eq_nil
    (h : Rebuilt CurBlock B (restOf cases B) F F') (hnodup : (cases.map Prod.fst).Nodup)
    (hDefault : Default < F.length) (hB : B ≠ Default)
    (hrun : ∀ v B', (v, B') ∈ cases → ∃ Q, LeadsTo F F' CurBlock v Q B') :
    F'.predecessors Default = [] ↔
      (∀ c ∈ cases, c.2 ≠ Default) ∧ ∀ P, P ≠ CurBlock → F.edges P Default = 0 := by
  rw [Function.predecessors_eq_nil]
  constructor
  · intro hnone
    refine ⟨fun c hc heq => ?_, fun P hP => ?_⟩
    · obtain ⟨Q, hleads⟩ := hrun c.1 c.2 hc
      exact hleads.edge.1.ne' (heq ▸ hnone Q)
    · by_cases hlt : P < F.length
      · rw [← h.edges_ne P Default hP hlt, hnone]
      · exact Function.edges_of_le (not_lt.mp hlt) Default
  · rintro ⟨hcases, hothers⟩ P
    by_contra hedge
    have hpos := Nat.pos_of_ne_zero hedge
    by_cases hP : P ≠ CurBlock ∧ P < F.length
    · rw [h.edges_ne P Default hP.1 hP.2, hothers P hP.1] at hpos
      exact absurd hpos (lt_irrefl _)
    · have hmoved := h.target P Default hDefault (by omega) hpos
      rw [moved_restOf hnodup, if_neg (Ne.symm hB), count_pos_iff] at hmoved
      obtain ⟨c, hc, heq⟩ := List.mem_map.mp hmoved
      exact hcases c hc heq

theorem Rebuilt.phiForm_iff_losesNoEdge
    (h : Rebuilt CurBlock B (restOf cases B) F F') (hF : F.Valid) (hb : F[CurBlock]? = some b)
    (ht : b.terminator = .switch Default cases) (hnodup : (cases.map Prod.fst).Nodup)
    (hunreachable : F.StartsUnreachable Default) (hB : MostPopular cases B)
    (hrun : ∀ v B', (v, B') ∈ cases → ∃ Q, LeadsTo F F' CurBlock v Q B') {Deleted : List Nat}
    (hDeleted : ∀ i, i ∈ Deleted ↔
      i = Default ∧ restOf cases B ≠ [] ∧ F'.predecessors Default = []) :
    F'.PhiForm Deleted ↔ F.LosesNoEdge CurBlock Default cases := by
  have hsuccessors := hF.successors b (mem_of_getElem? hb)
  rw [ht] at hsuccessors
  have hDefault : Default < F.length := hsuccessors Default mem_cons_self
  obtain ⟨Last, hLast, -⟩ := id hB
  have hBlt : B < F.length :=
    hsuccessors B (mem_cons_of_mem _ (mem_map_of_mem (f := Prod.snd) hLast))
  have hedges := edges_switch hb ht
  -- the most popular block has an edge
  have hBkept : B ∉ Deleted := by
    intro hmem
    obtain ⟨rfl, -, hnil⟩ := (hDeleted B).mp hmem
    obtain ⟨Q, hleads⟩ := hrun Last B hLast
    exact hleads.edge.1.ne' (Function.predecessors_eq_nil.mp hnil Q)
  have hlost : F.LosesNoEdge CurBlock Default cases ↔ (F.NoPhis B ∨ F.edges CurBlock B = 1) ∧
      (B = Default ∨ F.NoPhis Default ∨ Default ∈ Deleted) := by
    have hdeleted : B ≠ Default → (Default ∈ Deleted ↔ (∃ c ∈ cases, c.2 ≠ B) ∧
        (∀ c ∈ cases, c.2 ≠ Default) ∧ ∀ P, P ≠ CurBlock → F.edges P Default = 0) := by
      intro hne
      rw [hDeleted, h.predecessors_eq_nil hnodup hDefault hne hrun, restOf_ne_nil hnodup]
      exact and_iff_right rfl
    constructor
    · intro hloses
      obtain ⟨hpopular, hdefault⟩ := hloses hunreachable B hB
      refine ⟨hpopular, ?_⟩
      by_cases hne : B = Default
      · exact .inl hne
      · rw [hdeleted hne]
        exact hdefault
    · rintro ⟨hpopular, hdefault⟩ - B' hB'
      obtain rfl := hB.eq hnodup hB'
      refine ⟨hpopular, ?_⟩
      by_cases hne : B = Default
      · exact .inl hne
      · rw [← hdeleted hne]
        exact hdefault
  rw [h.phiForm_iff, hlost]
  constructor
  · intro hform
    refine ⟨(hform B hBlt hBkept).imp_right fun heq => ?_, ?_⟩
    · rw [← heq, moved_restOf hnodup, if_pos rfl]
    · by_cases hne : B = Default
      · exact .inl hne
      · by_cases hmem : Default ∈ Deleted
        · exact .inr (.inr hmem)
        · refine .inr (.inl ((hform Default hDefault hmem).resolve_right fun heq => ?_))
          rw [moved_restOf hnodup, if_neg (Ne.symm hne), hedges, if_pos rfl] at heq
          omega
  · rintro ⟨hpopular, hdefault⟩ i hi hkept
    rw [moved_restOf hnodup]
    by_cases hiB : i = B
    · subst hiB
      rw [if_pos rfl]
      exact hpopular.imp_right Eq.symm
    · rw [if_neg hiB, hedges]
      by_cases hiDefault : Default = i
      · subst hiDefault
        exact .inl (((hdefault.resolve_left (Ne.symm hiB)).resolve_right hkept))
      · rw [if_neg hiDefault, zero_add]
        exact .inr rfl

theorem le_toInt_of_le_64 (hw : w ≤ 64) (x : BitVec w) : -2 ^ 63 ≤ x.toInt := by
  have hmin := BitVec.le_toInt x
  have hpow : (2 : Int) ^ (w - 1) ≤ 2 ^ 63 := by
    have := Nat.pow_le_pow_right (show 0 < 2 by omega) (show w - 1 ≤ 63 by omega)
    exact_mod_cast this
  omega

theorem process_unreachable (hF : F.Valid) (hw : w ≤ 64) (hb : F[CurBlock]? = some b)
    (ht : b.terminator = .switch Default cases) (hnodup : (cases.map Prod.fst).Nodup)
    (hB : MostPopular cases B) (hunreachable : F.StartsUnreachable Default)
    {First Last : CaseRange w} (hFirst : (Clusterify cases).head? = some First)
    (hLast : (Clusterify cases).getLast? = some Last) :
    ∃ F' Deleted, (if restOf cases B = [] then some (F.setTerminator CurBlock (.br B), [])
        else convertCases F CurBlock B Default (restOf cases B) (some First.Low) (some Last.High)
          (unreachableRanges (-2 ^ 63) (Clusterify cases))) = some (F', Deleted) ∧
      F.KeepsDestinations F' CurBlock Default cases ∧
      (F'.PhiForm Deleted ↔ F.LosesNoEdge CurBlock Default cases) := by
  obtain ⟨horder, hvalues, hsize⟩ := Clusterify_spec hnodup
  have hsuccessors := hF.successors b (mem_of_getElem? hb)
  rw [ht] at hsuccessors
  obtain ⟨Lastv, hLastv, -⟩ := id hB
  have hBmem : B ∈ cases.map Prod.snd := mem_map_of_mem (f := Prod.snd) hLastv
  have hBlt : B < F.length := hsuccessors B (mem_cons_of_mem _ hBmem)
  have hmoved : ∀ i, moved B (restOf cases B) i ≤ F.edges CurBlock i := by
    intro i
    rw [moved_restOf hnodup, edges_switch hb ht]
    split
    · next hi =>
      have := List.count_pos_iff.mpr hBmem
      rw [hi]
      omega
    · omega
  -- only values with a case count
  have hdestination : ∀ F' : Function w V,
      (∀ v B', (v, B') ∈ cases → ∃ Q, LeadsTo F F' CurBlock v Q B') →
      ∀ v B', (Terminator.switch Default cases).next v = some B' →
        ¬ (B' = Default ∧ F.StartsUnreachable Default) → ∃ Q, LeadsTo F F' CurBlock v Q B' := by
    intro F' hrun v B' hnext hreachable
    rcases next_switch hnext with hmem | ⟨hdefault, -⟩
    · exact hrun v B' hmem
    · exact absurd ⟨hdefault, hunreachable⟩ hreachable
  by_cases hrest : restOf cases B = []
  · have hrebuilt := rebuilt_branch hF hb B
    rw [← hrest] at hrebuilt
    have hrun : ∀ v B', (v, B') ∈ cases →
        ∃ Q, LeadsTo F (F.setTerminator CurBlock (.br B)) CurBlock v Q B' := by
      intro v B' hmem
      have heq : B' = B := by
        by_contra hne
        exact (restOf_ne_nil hnodup).mpr ⟨_, hmem, hne⟩ hrest
      subst heq
      exact ⟨CurBlock, leadsTo_branch hb hBlt v⟩
    rw [if_pos hrest]
    refine ⟨_, _, rfl, hrebuilt.keepsDestinations hF hmoved (hdestination _ hrun),
      hrebuilt.phiForm_iff_losesNoEdge hF hb ht hnodup hunreachable hB hrun fun i => ?_⟩
    simp [hrest]
  · have horder' : InOrder (restOf cases B) :=
      ⟨fun c hc => horder.le c (mem_restOf.mp hc).1, horder.apart.sublist filter_sublist⟩
    obtain ⟨F', heq, hrebuilt, hlands⟩ := convertCases_spec hF (lt_length_of_getElem? hb)
      hBlt hrest horder' (fun c hc => hsuccessors _ (mem_cons_of_mem _
        (mem_map_of_mem (mem_of_mem_Clusterify hnodup (mem_restOf.mp hc).1))))
      hmoved Default (some First.Low) (some Last.High)
      (unreachableRanges (-2 ^ 63) (Clusterify cases))
    have hrun : ∀ v B', (v, B') ∈ cases → ∃ Q, LeadsTo F F' CurBlock v Q B' := by
      intro v B' hmem
      obtain ⟨c, hc, hcontains, hcB⟩ := contains_of_mem hnodup hmem
      obtain ⟨Q, B'', hleads, hB''⟩ := hlands v
        (fun R hR => (unreachableRanges_spec horder (fun d _ => le_toInt_of_le_64 hw d.Low) hR).2
          c hc v hcontains)
        (fun l hl => by
          rw [← Option.mem_some.mp hl]
          exact (horder.head_le hFirst hc).trans hcontains.1)
        (fun u hu => by
          rw [← Option.mem_some.mp hu]
          exact hcontains.2.trans (horder.le_last hLast hc))
      refine ⟨Q, ?_⟩
      by_cases hne : c.BB = B
      · have hdefault := hB''.default fun d hd hcontains' =>
          (mem_restOf.mp hd).2 ((eq_of_contains hnodup hmem (mem_restOf.mp hd).1
            hcontains').trans (hcB.symm.trans hne))
        rw [hdefault, ← hne, hcB] at hleads
        exact hleads
      · rw [hB''.contained c (mem_restOf.mpr ⟨hc, hne⟩) hcontains, hcB] at hleads
        exact hleads
    rw [if_neg hrest]
    refine ⟨F', _, heq, hrebuilt.keepsDestinations hF hmoved (hdestination _ hrun),
      hrebuilt.phiForm_iff_losesNoEdge hF hb ht hnodup hunreachable hB hrun fun i => ?_⟩
    split
    · next hnil => simp [hrest, hnil]
    · next hnil => simp [hnil]

theorem process_branch (hF : F.Valid) (hb : F[CurBlock]? = some b)
    (ht : b.terminator = .switch Default []) :
    F.KeepsDestinations (F.setTerminator CurBlock (.br Default)) CurBlock Default [] ∧
      (F.setTerminator CurBlock (.br Default)).PhiForm [] := by
  have hsuccessors := hF.successors b (mem_of_getElem? hb)
  rw [ht] at hsuccessors
  have hrebuilt := rebuilt_branch hF hb Default
  have hmoved : ∀ B, moved Default ([] : List (CaseRange w)) B = F.edges CurBlock B := fun B =>
    (edges_switch hb ht B).symm
  refine ⟨hrebuilt.keepsDestinations hF (fun B => (hmoved B).le) fun v B hnext _ => ?_,
    hrebuilt.phiForm_iff.mpr fun B _ _ => .inr (hmoved B)⟩
  obtain rfl := Option.some.inj hnext
  exact ⟨CurBlock, leadsTo_branch hb (hsuccessors Default mem_cons_self) v⟩

theorem processSwitchInst_spec (hF : F.Valid) (hw : w ≤ 64) (hreachable : F.Reachable CurBlock)
    (hb : F[CurBlock]? = some b) (ht : b.terminator = .switch Default cases)
    (hnodup : (cases.map Prod.fst).Nodup) :
    ∃ F' Deleted, processSwitchInst F CurBlock = some (F', Deleted) ∧
      F.KeepsDestinations F' CurBlock Default cases ∧
      (F'.PhiForm Deleted ↔ F.LosesNoEdge CurBlock Default cases) := by
  have hguard := not_unreachable hF hreachable
  have hDefault : Default < F.length := by
    refine hF.successors b (mem_of_getElem? hb) Default ?_
    rw [ht]
    exact mem_cons_self
  have hd := getElem?_eq_getElem hDefault
  by_cases hne : cases = []
  · subst hne
    obtain ⟨hkeeps, hform⟩ := process_branch hF hb ht
    refine ⟨_, _, ?_, hkeeps, iff_of_true hform ?_⟩
    · simp only [processSwitchInst, hb, ht, Option.bind_eq_bind, Option.bind_some, if_neg hguard,
        if_true]
    · rintro - B ⟨Last, hLast, -⟩
      cases hLast
  · by_cases hunreachable : F[Default].startsUnreachable = true
    · obtain ⟨B, hpopular, hB⟩ := popularSucc_cases hnodup hne
      have hne' : Clusterify cases ≠ [] := by
        obtain ⟨e, he⟩ := exists_mem_of_ne_nil cases hne
        obtain ⟨c, hc, -⟩ := contains_of_mem hnodup he
        exact ne_nil_of_mem hc
      have hFirst := head?_eq_some_head hne'
      have hLast := getLast?_eq_some_getLast hne'
      obtain ⟨F', Deleted, heq, hkeeps, hform⟩ := process_unreachable hF hw hb ht hnodup hB
        ⟨_, hd, hunreachable⟩ hFirst hLast
      refine ⟨F', Deleted, ?_, hkeeps, hform⟩
      rw [← heq]
      simp only [processSwitchInst, hb, ht, hd, hpopular, hFirst, hLast, Option.bind_eq_bind,
        Option.bind_some, if_neg hguard, if_neg hne, if_pos hunreachable]
      rfl
    · obtain ⟨F', heq, hkeeps, hform⟩ := process_reachable hF hb ht hnodup hne
      refine ⟨F', if F'.predecessors Default = [] then [Default] else [], ?_, hkeeps,
        iff_of_true (hform _) ?_⟩
      · rw [← heq]
        simp only [processSwitchInst, hb, ht, hd, Option.bind_eq_bind, Option.bind_some,
          if_neg hguard, if_neg hne, if_neg hunreachable]
      · rintro ⟨d, hd', hd''⟩
        rw [hd, Option.some.injEq] at hd'
        exact absurd (hd' ▸ hd'') hunreachable

/-- The pass keeps the meaning of a switch, with an entry of each PHI node for each edge, where no
entry is kept for an edge that is gone. -/
theorem preserves_iff_losesNoEdge (hF : F.Valid) (hw : w ≤ 64) (hreachable : F.Reachable CurBlock)
    (hb : F[CurBlock]? = some b) (ht : b.terminator = .switch Default cases)
    (hnodup : (cases.map Prod.fst).Nodup) :
    Preserves F CurBlock Default cases ↔ F.LosesNoEdge CurBlock Default cases := by
  obtain ⟨F', Deleted, heq, hkeeps, hform⟩ :=
    processSwitchInst_spec hF hw hreachable hb ht hnodup
  rw [← hform]
  constructor
  · rintro ⟨F'', Deleted', heq', -, hform'⟩
    obtain ⟨rfl, rfl⟩ := Prod.mk.inj (Option.some.inj (heq.symm.trans heq'))
    exact hform'
  · exact fun hform' => ⟨F', Deleted, heq, hkeeps, hform'⟩

end Switch

/-- A switch with two cases for one block and an unreachable default. -/
def popularTwice : Function 32 Nat :=
  [{ phis := [], startsUnreachable := false, terminator := .switch 1 [(0, 2), (1, 2)] },
   { phis := [], startsUnreachable := true, terminator := .other [] },
   { phis := [[(7, 0), (7, 0)]], startsUnreachable := false, terminator := .other [] }]

theorem popularTwice_edges (P B : Nat) :
    popularTwice.edges P B = if P = 0 then [1, 2, 2].count B else 0 := by
  match P with
  | 0 => rfl
  | 1 => rfl
  | 2 => rfl
  | _ + 3 => rfl

theorem popularTwice_phis {b : BasicBlock 32 Nat} (hb : popularTwice[B]? = some b)
    {PN : PHINode Nat} (hPN : PN ∈ b.phis) : B = 2 ∧ PN = [(7, 0), (7, 0)] := by
  match B with
  | 0 =>
    obtain rfl := Option.some.inj hb
    cases hPN
  | 1 =>
    obtain rfl := Option.some.inj hb
    cases hPN
  | 2 =>
    obtain rfl := Option.some.inj hb
    exact ⟨rfl, List.mem_singleton.mp hPN⟩
  | _ + 3 => cases hb

theorem popularTwice_valid : popularTwice.Valid := by
  refine ⟨by decide, fun P => ?_, fun B b hb PN hPN P => ?_, fun b hb PN hPN P x y hx hy => ?_⟩
  · rw [popularTwice_edges]
    split <;> rfl
  · obtain ⟨rfl, rfl⟩ := popularTwice_phis hb hPN
    rw [popularTwice_edges]
    by_cases hP : P = 0
    · subst hP
      rfl
    · rw [if_neg hP]
      simp [PHINode.countFrom, Ne.symm hP]
  · obtain ⟨B, hB⟩ := getElem?_of_mem hb
    obtain ⟨-, rfl⟩ := popularTwice_phis hB hPN
    simp only [mem_cons, Prod.mk.injEq, not_mem_nil, or_false, or_self] at hx hy
    rw [hx.1, hy.1]

/-- Both cases become a branch, and the PHI node keeps both entries. -/
theorem popularTwice_not_preserves : popularTwice.Valid ∧ popularTwice.Reachable 0 ∧
    popularTwice[0]?.map (fun b => b.terminator) = some (.switch 1 [(0, 2), (1, 2)]) ∧
    ¬ Preserves popularTwice 0 1 [(0, 2), (1, 2)] := by
  refine ⟨popularTwice_valid, .entry, rfl, ?_⟩
  rintro ⟨F', Deleted, heq, -, hform⟩
  have hbranch : processSwitchInst popularTwice 0 =
      some (popularTwice.setTerminator 0 (.br 2), []) := rfl
  obtain ⟨rfl, rfl⟩ := Prod.mk.inj (Option.some.inj (hbranch.symm.trans heq))
  have hcount := hform 2 _ rfl not_mem_nil _ (mem_singleton_self _) 0
  exact absurd hcount (by decide)

/-- The condition at the switch with two cases for one block. -/
theorem popularTwice_preserves_iff : popularTwice.Valid ∧
    (Preserves popularTwice 0 1 [(0, 2), (1, 2)] ↔ popularTwice.LosesNoEdge 0 1 [(0, 2), (1, 2)]) :=
  ⟨popularTwice_valid, preserves_iff_losesNoEdge popularTwice_valid (by decide) .entry rfl rfl
    (by decide)⟩

end Zapcc.LowerSwitch
