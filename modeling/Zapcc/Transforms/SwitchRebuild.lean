import Zapcc.Transforms.SwitchTree

/-!
# The blocks in place of a switch

The last part of `processSwitchInst` keeps the blocks of a function but for the end of the block of
the switch and the entries of PHI nodes for it (`Rebuilt`), and a PHI node has the value of the edge
of the switch on the edge that is taken instead of it (`Rebuilt.yields`).
-/

namespace Zapcc.LowerSwitch

open List Option

variable {w : Nat} {V : Type}

namespace Function

/-- Blocks that can be reached from the entry block. -/
inductive Reachable (F : Function w V) : Nat → Prop
  | entry : Reachable F 0
  | edge {P B : Nat} (h : Reachable F P) (hedge : 0 < F.edges P B) : Reachable F B

/-- A well-formed function. A PHI node has an entry for each edge, and one value for all edges from
one block. -/
structure Valid (F : Function w V) : Prop where
  successors : ∀ b ∈ F, ∀ B ∈ b.terminator.successors, B < F.length
  entry : ∀ P, F.edges P 0 = 0
  phis : ∀ (B : Nat) b, F[B]? = some b → ∀ PN ∈ b.phis, ∀ P, PN.countFrom P = F.edges P B
  values : ∀ b ∈ F, ∀ PN ∈ b.phis, ∀ P x y, (x, P) ∈ PN → (y, P) ∈ PN → x = y

variable {F : Function w V} {v : BitVec w}

variable {B : Nat} {b : BasicBlock w V}

theorem Reachable.edge_ne (h : F.Reachable B) (hB : B ≠ 0) :
    ∃ P, P ≠ B ∧ 0 < F.edges P B := by
  induction h with
  | entry => exact absurd rfl hB
  | @edge P B _ hedge ih =>
    by_cases hP : P = B
    · subst hP
      exact ih hB
    · exact ⟨P, hP, hedge⟩

theorem mem_predecessors {P : Nat} :
    P ∈ F.predecessors B ↔ 0 < F.edges P B := by
  unfold predecessors
  rw [mem_flatMap]
  constructor
  · rintro ⟨P', -, hP'⟩
    obtain ⟨hne, rfl⟩ := mem_replicate.mp hP'
    exact Nat.pos_of_ne_zero hne
  · intro hpos
    refine ⟨P, mem_range.mpr ?_, mem_replicate.mpr ⟨hpos.ne', rfl⟩⟩
    by_contra hge
    rw [edges_of_le (not_lt.mp hge)] at hpos
    exact absurd hpos (lt_irrefl _)

theorem predecessors_eq_nil :
    F.predecessors B = [] ↔ ∀ P, F.edges P B = 0 := by
  rw [eq_nil_iff_forall_not_mem]
  simp only [mem_predecessors, Nat.pos_iff_ne_zero, not_not]

end Function

/-- The value of a PHI node on the edges from a block. -/
def PHINode.Yields (PN : PHINode V) (P : Nat) (x : V) : Prop :=
  (x, P) ∈ PN ∧ ∀ y, (y, P) ∈ PN → y = x

/-- The entries for the block of the switch that are not for it any more. -/
def moved (Default : Nat) (Cases : List (CaseRange w)) (B : Nat) : Nat :=
  (if Default = B then 1 else 0) + sizeTo Cases B

/-- A function with other blocks in place of a switch. Where more entries are moved than the switch
has edges, a PHI node has too few of them, and where fewer are, too many. -/
structure Rebuilt (CurBlock Default : Nat) (Cases : List (CaseRange w)) (F F' : Function w V) :
    Prop where
  old : ∀ i b, F[i]? = some b → ∃ (g : PHINode V → PHINode V) (b' : BasicBlock w V),
    F'[i]? = some b' ∧ b'.phis = b.phis.map g ∧ ∀ PN ∈ b.phis, KeepsValues CurBlock PN (g PN) ∧
      ∀ Q, (g PN).countFrom Q + (if Q = CurBlock then moved Default Cases i else 0) =
        F'.edges Q i + if Q = CurBlock then F.edges CurBlock i else 0
  new : ∀ i b, F.length ≤ i → F'[i]? = some b → b.phis = []
  edges_ne : ∀ Q i, Q ≠ CurBlock → Q < F.length → F'.edges Q i = F.edges Q i
  target : ∀ Q i, i < F.length → Q = CurBlock ∨ F.length ≤ Q → 0 < F'.edges Q i →
    0 < moved Default Cases i

/-- The block of the switch leads through the new blocks to block `B`, which is entered from block
`Q`. -/
def LeadsTo (F F' : Function w V) (CurBlock : Nat) (v : BitVec w) (Q B : Nat) : Prop :=
  ∃ b R, F'[CurBlock]? = some b ∧ b.terminator.next v = some R ∧
    Lands F' F.length F.length v CurBlock R Q B

theorem mem_successors_of_next {t : Terminator w}
    (h : t.next v = some B) : B ∈ t.successors := by
  cases t with
  | switch Default cases =>
    obtain rfl := some.inj h
    cases hfind : cases.find? fun c => c.1 = v with
    | none => exact mem_cons_self
    | some c =>
      exact mem_cons_of_mem _ (List.mem_map_of_mem (mem_of_find?_eq_some hfind))
  | br dest =>
    obtain rfl := some.inj h
    exact mem_singleton_self _
  | condBr Comp ifTrue ifFalse =>
    obtain rfl := some.inj h
    rw [Terminator.successors]
    split <;> simp
  | other successors => cases h

theorem Lands.edge {stop lo : Nat} {P R Q : Nat}
    (h : Lands F stop lo v P R Q B) (hP : 0 < F.edges P R) :
    0 < F.edges Q B ∧ (Q = P ∨ lo ≤ Q) ∧ B < stop := by
  induction h with
  | here h => exact ⟨hP, .inl rfl, h⟩
  | step hstop hlo hblock hnext _ ih =>
    have hpos := count_pos_iff.mpr (mem_successors_of_next hnext)
    obtain ⟨hedge, hQ, hB⟩ := ih (by rwa [Function.edges_eq hblock])
    exact ⟨hedge, .inr (hQ.elim (fun h => h ▸ hlo) id), hB⟩

theorem LeadsTo.edge {F F' : Function w V} {CurBlock : Nat} {Q : Nat}
    (h : LeadsTo F F' CurBlock v Q B) :
    0 < F'.edges Q B ∧ (Q = CurBlock ∨ F.length ≤ Q) ∧ B < F.length := by
  obtain ⟨b, R, hblock, hnext, hlands⟩ := h
  refine hlands.edge ?_
  rw [Function.edges_eq hblock]
  exact count_pos_iff.mpr (mem_successors_of_next hnext)

theorem Rebuilt.yields {CurBlock Default : Nat} {Cases : List (CaseRange w)} {F F' : Function w V}
    (h : Rebuilt CurBlock Default Cases F F') (hF : F.Valid) {Q : Nat}
    (hleads : LeadsTo F F' CurBlock v Q B)
    (hmoved : moved Default Cases B ≤ F.edges CurBlock B) :
    ∃ b b', F[B]? = some b ∧ F'[B]? = some b' ∧
      Forall₂ (fun PN PN' => ∃ x, PHINode.Yields PN CurBlock x ∧ PHINode.Yields PN' Q x)
        b.phis b'.phis := by
  obtain ⟨hpos, hQ, hB⟩ := hleads.edge
  have hblock := getElem?_eq_getElem hB
  obtain ⟨g, b', hblock', hphis, hentries⟩ := h.old B _ hblock
  refine ⟨_, b', hblock, hblock', ?_⟩
  rw [hphis, forall₂_map_right_iff, forall₂_same]
  intro PN hPN
  obtain ⟨hkeeps, hcount⟩ := hentries PN hPN
  -- a value on the new edge is one of the edge of the switch
  have hvalue : ∀ x, (x, Q) ∈ g PN → (x, CurBlock) ∈ PN := by
    intro x hx
    rcases hkeeps x Q hx with hmem | hmem
    · rcases hQ with rfl | hge
      · exact hmem
      · have hnone := PHINode.countFrom_pos.mpr ⟨x, hmem⟩
        rw [hF.phis B _ hblock PN hPN, Function.edges_of_le hge] at hnone
        exact absurd hnone (lt_irrefl _)
    · exact hmem
  have hcounted := hcount Q
  obtain ⟨x, hx⟩ := PHINode.countFrom_pos.mp (show 0 < (g PN).countFrom Q by
    split at hcounted <;> omega)
  have hunique := hF.values _ (getElem_mem hB) PN hPN CurBlock
  exact ⟨x, ⟨hvalue x hx, fun y hy => hunique y x hy (hvalue x hx)⟩, hx,
    fun y hy => hunique y x (hvalue y hy) (hvalue x hx)⟩

theorem Lands.finish {N lo Default : Nat} {P R Q : Nat}
    (h : Lands F (N + 1) lo v P R Q B) (hblock : F[N]? = some b)
    (hnext : b.terminator.next v = some Default) (hDefault : Default < N) :
    ∃ Q', Lands F N N v P R Q' (if B = N then Default else B) := by
  induction h with
  | @here P R h =>
    by_cases hR : R = N
    · rw [if_pos hR]
      exact ⟨R, .step hR.ge hR.ge (hR ▸ hblock) hnext (.here hDefault)⟩
    · rw [if_neg hR]
      exact ⟨P, .here (by omega)⟩
  | step hstop hloR hblock' hnext' _ ih =>
    obtain ⟨Q', hlands⟩ := ih
    exact ⟨Q', .step (by omega) (by omega) hblock' hnext' hlands⟩

section Convert

variable {F : Function w V} {CurBlock Default : Nat} {Cases : List (CaseRange w)}

def withNewDefault (F : Function w V) (CurBlock Default : Nat) : Function w V :=
  Function.mapPhis (F ++ [newBlock (.br Default)]) Default (setIncomingBlock CurBlock F.length)

theorem length_withNewDefault (F : Function w V) (CurBlock Default : Nat) :
    (withNewDefault F CurBlock Default).length = F.length + 1 := by simp [withNewDefault]

theorem withNewDefault_old {i : Nat} (hb : F[i]? = some b) :
    (withNewDefault F CurBlock Default)[i]? = some { b with
      phis := b.phis.map (if i = Default then setIncomingBlock CurBlock F.length else id) } := by
  unfold withNewDefault
  rw [Function.getElem?_mapPhis, getElem?_concat_old hb]
  rfl

theorem withNewDefault_new (F : Function w V) (CurBlock Default : Nat) :
    (withNewDefault F CurBlock Default)[F.length]? = some (newBlock (.br Default)) := by
  unfold withNewDefault
  rw [Function.getElem?_mapPhis, getElem?_concat, if_neg (lt_irrefl _), if_pos rfl]
  rfl

theorem withNewDefault_entries {i : Nat} {PN : PHINode V}
    (hpos : Default = i → 0 < PN.countFrom CurBlock) :
    KeepsValues CurBlock PN
        ((if i = Default then setIncomingBlock CurBlock F.length else id) PN) ∧
      ∀ Q, PHINode.countFrom ((if i = Default then setIncomingBlock CurBlock F.length else id) PN)
          Q + (if Q = CurBlock ∧ Default = i then 1 else 0) =
        PN.countFrom Q + if Q = F.length ∧ Default = i then 1 else 0 := by
  by_cases hi : Default = i
  · subst hi
    simp only [if_pos, and_true]
    exact ⟨keepsValues_setIncomingBlock PN, countFrom_setIncomingBlock F.length PN (hpos rfl)⟩
  · simp only [if_neg (Ne.symm hi), hi, and_false, if_false]
    exact ⟨fun x BB hmem => .inl hmem, fun Q => rfl⟩

section Placed

variable {F₃ : Function w V} {R : Nat} {size : Nat → Nat}

/-- The edges of the blocks when the block of the switch leads to the tree and its new default. -/
theorem convert_edges (hCur : CurBlock < F.length)
    (h : Converted F.length CurBlock CurBlock R size (withNewDefault F CurBlock Default) F₃)
    (Q i : Nat) : (F₃.setTerminator CurBlock (.br R)).edges Q i =
      if Q = CurBlock then if R = i then 1 else 0
      else if Q < F.length then F.edges Q i
      else if Q = F.length then if Default = i then 1 else 0
      else F₃.edges Q i := by
  have hlength := length_withNewDefault F CurBlock Default
  have hle := h.length_le
  by_cases hQCur : Q = CurBlock
  · rw [if_pos hQCur, hQCur, Function.edges_setTerminator_self F₃ (by omega)]
    simp [Terminator.successors, count_singleton]
  · rw [if_neg hQCur, Function.edges_setTerminator_ne F₃ hQCur]
    by_cases hQ : Q < F.length
    · rw [if_pos hQ, h.edges_eq (by omega)]
      refine Function.edges_congr ?_ i
      rw [getElem?_eq_getElem hQ, withNewDefault_old (getElem?_eq_getElem hQ)]
      rfl
    · rw [if_neg hQ]
      by_cases hlast : Q = F.length
      · rw [if_pos hlast, hlast, h.edges_eq (by omega),
          Function.edges_eq (withNewDefault_new F CurBlock Default)]
        simp [newBlock, Terminator.successors, count_singleton]
      · rw [if_neg hlast]

theorem convert_entries (hF : F.Valid) (hCur : CurBlock < F.length)
    (h : Converted F.length CurBlock CurBlock R (sizeTo Cases) (withNewDefault F CurBlock Default)
      F₃) {i : Nat} (hb : F[i]? = some b)
    (hpos : ∀ PN ∈ b.phis, Default = i → 0 < PN.countFrom CurBlock) :
    ∃ (g : PHINode V → PHINode V) (b' : BasicBlock w V),
      (F₃.setTerminator CurBlock (.br R))[i]? = some b' ∧ b'.phis = b.phis.map g ∧
        ∀ PN ∈ b.phis, KeepsValues CurBlock PN (g PN) ∧
          ∀ Q, (g PN).countFrom Q + (if Q = CurBlock then moved Default Cases i else 0) =
            (F₃.setTerminator CurBlock (.br R)).edges Q i +
              if Q = CurBlock then F.edges CurBlock i else 0 := by
  have hlength := length_withNewDefault F CurBlock Default
  obtain ⟨g, hg, hentries⟩ := h.old i _ (withNewDefault_old hb)
  refine ⟨fun PN => g ((if i = Default then setIncomingBlock CurBlock F.length else id) PN), _,
    by rw [Function.getElem?_setTerminator, hg, map_some], List.map_map, fun PN hPN => ?_⟩
  obtain ⟨hkeeps, hcount⟩ := withNewDefault_entries (F := F) (hpos PN hPN)
  obtain ⟨hkeeps', hcount'⟩ := hentries _ (List.mem_map_of_mem hPN)
  refine ⟨hkeeps.trans hkeeps', fun Q => ?_⟩
  have hQ := hcount Q
  have hQ' := hcount' Q
  rw [hF.phis i b hb PN hPN] at hQ
  rw [hlength] at hQ'
  rw [convert_edges hCur h]
  unfold moved
  by_cases hQCur : Q = CurBlock
  · subst hQCur
    simp only [true_and, if_true] at hQ hQ' ⊢
    rw [if_neg (show ¬ (Q = F.length ∧ Default = i) by omega)] at hQ
    rw [if_neg (show ¬ F.length + 1 ≤ Q by omega)] at hQ'
    omega
  · simp only [hQCur, false_and, if_false] at hQ hQ' ⊢
    rcases lt_trichotomy Q F.length with hlt | rfl | hgt
    · rw [if_pos hlt]
      rw [if_neg (show ¬ (Q = F.length ∧ Default = i) by omega)] at hQ
      rw [if_neg (show ¬ F.length + 1 ≤ Q by omega)] at hQ'
      omega
    · rw [if_neg (lt_irrefl _), if_pos rfl]
      rw [Function.edges_of_le le_rfl] at hQ
      simp only [true_and] at hQ
      rw [if_neg (show ¬ F.length + 1 ≤ F.length by omega)] at hQ'
      omega
    · rw [if_neg (show ¬ Q < F.length by omega), if_neg (show ¬ Q = F.length by omega)]
      rw [Function.edges_of_le hgt.le, if_neg (show ¬ (Q = F.length ∧ Default = i) by omega)] at hQ
      rw [if_pos (show F.length + 1 ≤ Q by omega)] at hQ'
      omega

theorem convert_leads (hCur : CurBlock < F.length) (hDefault : Default < F.length)
    (hBB : ∀ c ∈ Cases, c.BB < F.length)
    (h : Converted F.length CurBlock CurBlock R size (withNewDefault F CurBlock Default) F₃)
    {Q : Nat}
    (hlands : Lands F₃ (F.length + 1) (F.length + 1) v CurBlock R Q B)
    (hleads : Leads Cases F.length v B) :
    ∃ Q' B', LeadsTo F (F₃.setTerminator CurBlock (.br R)) CurBlock v Q' B' ∧
      Leads Cases Default v B' := by
  have hle := h.length_le
  rw [length_withNewDefault] at hle
  have hsame : ∀ i b, F.length ≤ i → F₃[i]? = some b →
      (F₃.setTerminator CurBlock (.br R))[i]? = some b := by
    intro i b hi hb
    rw [Function.getElem?_setTerminator_ne F₃ (by omega), hb]
  obtain ⟨b₃, hb₃, heq₃⟩ := h.terminator_eq (withNewDefault_new F CurBlock Default)
  obtain ⟨Q', hfinish⟩ := (hlands.mono (Nat.le_succ F.length) fun i b hi hb =>
    ⟨b, hsame i b (by omega) hb, rfl⟩).finish (hsame _ _ le_rfl hb₃) (by rw [heq₃]; rfl) hDefault
  obtain ⟨b', hb'⟩ : ∃ b, F₃[CurBlock]? = some b :=
    ⟨_, getElem?_eq_getElem (show CurBlock < F₃.length by omega)⟩
  refine ⟨Q', _, ⟨_, R, by rw [Function.getElem?_setTerminator, hb', map_some], ?_,
    hfinish⟩, fun c hc hcontains => ?_, fun hnot => ?_⟩
  · simp only [if_true]
    rfl
  · have := hBB c hc
    rw [hleads.contained c hc hcontains, if_neg (by omega)]
  · rw [hleads.default hnot, if_pos rfl]

end Placed

theorem convertCases_spec (hF : F.Valid) (hCur : CurBlock < F.length)
    (hDefault : Default < F.length) (hne : Cases ≠ []) (horder : InOrder Cases)
    (hBB : ∀ c ∈ Cases, c.BB < F.length)
    (hmoved : ∀ B, moved Default Cases B ≤ F.edges CurBlock B) (OldDefault : Nat)
    (LowerBound UpperBound : Option (BitVec w)) (UnreachableRanges : List IntRange) :
    ∃ F', convertCases F CurBlock Default OldDefault Cases LowerBound UpperBound
        UnreachableRanges =
          some (F', if F'.predecessors OldDefault = [] then [OldDefault] else []) ∧
      Rebuilt CurBlock Default Cases F F' ∧
      ∀ v, Possible UnreachableRanges v → (∀ l ∈ LowerBound, l.toInt ≤ v.toInt) →
        (∀ u ∈ UpperBound, v.toInt ≤ u.toInt) →
          ∃ Q B, LeadsTo F F' CurBlock v Q B ∧ Leads Cases Default v B := by
  have hpos : ∀ i b, F[i]? = some b → ∀ PN ∈ b.phis, Default = i → 0 < PN.countFrom CurBlock := by
    rintro i b hb PN hPN rfl
    have := hmoved Default
    unfold moved at this
    rw [if_pos rfl] at this
    rw [hF.phis Default b hb PN hPN]
    omega
  have hmore : Function.MoreEntries (F ++ [newBlock (.br Default)]) Default CurBlock 0 := by
    intro b hb PN hPN
    rw [mem_def, getElem?_concat, if_pos hDefault] at hb
    exact hpos Default b hb PN hPN rfl
  have hlength := length_withNewDefault F CurBlock Default
  have hnewDefault := withNewDefault_new F CurBlock Default
  obtain ⟨F₃, R, hF₃, hconverted, hR, hlands⟩ := @switchConvert_spec w V UnreachableRanges _ _ _
    hCur _ le_rfl hne horder hBB LowerBound UpperBound CurBlock
    (withNewDefault F CurBlock Default) (by omega)
    (fun b hb => by rw [hnewDefault, some.injEq] at hb; rw [← hb]; rfl) (by
      intro i b hb PN hPN
      have hi := lt_length_of_getElem? hb
      by_cases hlast : i = F.length
      · rw [hlast, hnewDefault, some.injEq] at hb
        rw [← hb] at hPN
        cases hPN
      · have hblock : F[i]? = some F[i] := getElem?_eq_getElem (by omega)
        rw [withNewDefault_old hblock, some.injEq] at hb
        rw [← hb] at hPN
        obtain ⟨PN', hPN', rfl⟩ := List.mem_map.mp hPN
        have hentries := (withNewDefault_entries (F := F) (hpos i _ hblock PN' hPN')).2 CurBlock
        rw [hF.phis i _ hblock PN' hPN'] at hentries
        have hle := hmoved i
        unfold moved at hle
        simp only [true_and] at hentries
        omega)
  have hedges := convert_edges hCur hconverted
  refine ⟨F₃.setTerminator CurBlock (.br R), ?_,
    ⟨fun i b hb => convert_entries hF hCur hconverted hb (hpos i b hb), fun i b hi hb => ?_,
      fun Q i hne hQ => ?_, fun Q i hi hQ hedge => ?_⟩, fun v hpossible hl hu => ?_⟩
  · unfold withNewDefault at hF₃
    simp only [convertCases, hF₃, if_pos hmore, bind_eq_bind, bind_some]
  · rw [Function.getElem?_setTerminator, map_eq_some_iff] at hb
    obtain ⟨b', hb', rfl⟩ := hb
    by_cases hlast : i = F.length
    · obtain ⟨g, hg, -⟩ := hconverted.old F.length _ hnewDefault
      rw [hlast, hg, some.injEq] at hb'
      rw [← hb']
      rfl
    · exact hconverted.new i b' (by omega) hb'
  · rw [hedges, if_neg hne, if_pos hQ]
  · rw [hedges] at hedge
    unfold moved
    rcases hQ with rfl | hQ
    · rw [if_pos rfl] at hedge
      split at hedge
      · next hRi =>
        subst hRi
        have := hconverted.root (by omega)
        omega
      · exact absurd hedge (lt_irrefl _)
    · rw [if_neg (show Q ≠ CurBlock by omega), if_neg (Nat.not_lt.mpr hQ)] at hedge
      by_cases hlast : Q = F.length
      · rw [if_pos hlast] at hedge
        omega
      · rw [if_neg hlast] at hedge
        have := hconverted.target Q i (by omega) (by omega) (by omega) hedge
        omega
  · obtain ⟨Q, B, hrun, hleads⟩ := hlands v hpossible hl hu
    rw [hlength] at hrun
    exact convert_leads hCur hDefault hBB hconverted hrun hleads

end Convert

end Zapcc.LowerSwitch
