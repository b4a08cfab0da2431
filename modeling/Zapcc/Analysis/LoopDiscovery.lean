import Zapcc.Analysis.LoopInfo

/-!
# The discovery of the loops

The headers come in a post-order of the dominator tree, so that the loops in a loop are known before
it. `discovered` says what the map and the parents are behind the discovery.
-/

namespace Zapcc.Analysis

open Zapcc.ADT.po_iterator Zapcc.Dominance Zapcc.IR List Function Option

variable {V : Type*} [Fintype V] [DecidableEq V] {G : CFG V}

/-! ## The order of the headers -/

section Tree

variable (T : DomTree G)

theorem mem_tree_order {b : V} :
    b ∈ post_order T.children G.entry ↔ Reachable G.edge G.entry b := by
  rw [(post_order_spec T.children G.entry).2.1]
  constructor
  · intro htree
    induction htree with
    | refl => exact .refl
    | tail _ hchild => exact ((T.mem_children _ _).mp hchild).reachable
  · intro hb
    induction hrank : rank G.edge G.entry b using Nat.strong_induction_on generalizing b with
    | _ n ih =>
      by_cases hentry : b = G.entry
      · exact hentry ▸ .refl
      · obtain ⟨a, ha⟩ := exists_idom hb hentry
        have hlt := rank_lt ha.dominates ha.ne hb
        exact .tail (ih _ (hrank ▸ hlt) (ha.dominates.reachable hb) rfl)
          ((T.mem_children a b).mpr ha)

theorem dominated_first {l l' : List V} {h b : V}
    (hsplit : post_order T.children G.entry = l ++ h :: l') (hb : Reachable G.edge G.entry b)
    (hdom : Dominates G.edge G.entry h b) (hne : b ≠ h) : b ∈ l := by
  have hfirst := (post_order_spec T.children G.entry).2.2 (rank G.edge G.entry) fun v c hc => by
    have hidom := (T.mem_children v c).mp hc
    exact rank_lt hidom.dominates hidom.ne hidom.reachable
  induction hrank : rank G.edge G.entry b using Nat.strong_induction_on generalizing b with
  | _ n ih =>
    have hentry : b ≠ G.entry := fun heq =>
      hdom (heq ▸ .refl fun hbh => hne hbh)
    obtain ⟨a, ha⟩ := exists_idom hb hentry
    by_cases hah : a = h
    · exact hfirst l h l' hsplit b ((T.mem_children h b).mpr (hah ▸ ha))
    · have hlt := rank_lt ha.dominates ha.ne hb
      have hmem := ih _ (hrank ▸ hlt) (ha.dominates.reachable hb) (ha.nearest h hdom hne.symm) hah
        rfl
      obtain ⟨l₁, l₂, rfl⟩ := append_of_mem hmem
      have hbefore := hfirst l₁ a (l₂ ++ h :: l') (by simpa using hsplit) b
        ((T.mem_children a b).mpr ha)
      exact mem_append_left _ hbefore

theorem not_dominates_of_before {l l' : List V} {h m : V}
    (hsplit : post_order T.children G.entry = l ++ h :: l') (hm : m ∈ l) :
    ¬Dominates G.edge G.entry m h := by
  intro hdom
  have hnodup := (post_order_spec T.children G.entry).1
  have hh : Reachable G.edge G.entry h := (mem_tree_order T).mp (by simp [hsplit])
  rw [hsplit, nodup_middle, nodup_cons] at hnodup
  obtain ⟨l₁, l₂, rfl⟩ := append_of_mem hm
  have hne : h ≠ m := fun heq => hnodup.1 (by simp [heq])
  have hsplit' : post_order T.children G.entry = l₁ ++ m :: (l₂ ++ h :: l') := by simpa using hsplit
  have hbefore := dominated_first T hsplit' hh hdom hne
  exact hnodup.1 (by simp [hbefore])

end Tree

/-! ## The loops around a loop -/

/-- The parent of a loop is another one around it. -/
def Nested (G : CFG V) (loops : V → Prop) (LI : LoopInfo V) : Prop :=
  ∀ l, loops l → G.IsHeader l ∧ ∀ p, LI.ParentLoop l = some p → loops p ∧ p ≠ l ∧ G.InLoop p l

omit [DecidableEq V] in
theorem Nested.rank_lt {loops : V → Prop} {LI : LoopInfo V} {l p : V} (hn : Nested G loops LI)
    (hl : loops l) (hp : LI.ParentLoop l = some p) :
    rank G.edge G.entry p < rank G.edge G.entry l := by
  obtain ⟨hheader, hparent⟩ := hn l hl
  obtain ⟨-, hne, hin⟩ := hparent p hp
  exact Dominance.rank_lt hin.dominates hne hheader.reachable

omit [DecidableEq V] in
theorem rank_pos (l : V) : 0 < rank G.edge G.entry l := by
  classical
  exact Finset.card_pos.mpr ⟨l, Finset.mem_filter.mpr ⟨Finset.mem_univ l, dominates_refl l⟩⟩

omit [DecidableEq V] in
theorem Nested.outermost {loops : V → Prop} {LI : LoopInfo V} {n : Nat} {l : V}
    (hn : Nested G loops LI) (hl : loops l) (hrank : rank G.edge G.entry l ≤ n) :
    ∃ S, LI.outermost n l = some S ∧ loops S ∧ G.InLoop S l ∧
      (S = l ∨ ∃ m, loops m ∧ LI.ParentLoop m = some S ∧ G.InLoop m l) := by
  induction n generalizing l with
  | zero => exact absurd (rank_pos l) (Nat.not_lt.mpr hrank)
  | succ n ih =>
    unfold LoopInfo.outermost
    cases hparent : LI.ParentLoop l with
    | none => exact ⟨l, rfl, hl, (hn l hl).1.inLoop, .inl rfl⟩
    | some p =>
      obtain ⟨hp, -, hpl⟩ := (hn l hl).2 p hparent
      have hlt := hn.rank_lt hl hparent
      obtain ⟨S, houtermost, hS, hSp, hlast⟩ := ih hp (by omega)
      refine ⟨S, houtermost, hS, hSp.subset hpl, .inr ?_⟩
      rcases hlast with rfl | ⟨m, hm, hmS, hmp⟩
      · exact ⟨l, hl, hparent, (hn l hl).1.inLoop⟩
      · exact ⟨m, hm, hmS, hmp.subset hpl⟩

/-! ## The backward walk -/

/-- The block is in the loop of the walk, or in a loop that is known to be in it. -/
def Covered (G : CFG V) (done : V → Prop) (h : V) (LI : LoopInfo V) (b : V) : Prop :=
  LI.BBMap b = some h ∨ ∃ l, done l ∧ LI.ParentLoop l = some h ∧ G.InLoop l b

/-- What holds in the backward walk of a header, behind the loops of other ones. -/
structure Walking (G : CFG V) (done : V → Prop) (h : V) (LI : LoopInfo V) (W : List V) : Prop where
  map : ∀ b, (LI.BBMap b = some h ∧ G.InLoop h b ∧ ∀ l, done l → ¬G.InLoop l b) ∨
    G.Innermost done b (LI.BBMap b)
  parent : ∀ l, done l → G.IsHeader l →
    (LI.ParentLoop l = some h ∧ G.InLoop h l ∧ ∀ m, done m → m ≠ l → ¬G.InLoop m l) ∨
      G.Innermost (fun m => done m ∧ m ≠ l) l (LI.ParentLoop l)
  parent_header : LI.ParentLoop h = none
  worklist : ∀ p ∈ W, Reachable G.edge G.entry p → G.InLoop h p
  latches : ∀ p, Latch G.edge G.entry h p → Covered G done h LI p ∨ p ∈ W
  closed : ∀ b p, Covered G done h LI b → b ≠ h → G.edge p b → Reachable G.edge G.entry p →
    Covered G done h LI p ∨ p ∈ W

def LoopInfo.lists (LI : LoopInfo V) : List V × (V → List V) × (V → List V) × List V :=
  (LI.Loops, LI.SubLoops, LI.Blocks, LI.TopLevelLoops)

section Walk

variable {done : V → Prop} {h : V} {LI : LoopInfo V} {W : List V}

omit [Fintype V] [DecidableEq V] in
theorem Walking.skip {p : V} (hw : Walking G done h LI (p :: W))
    (hp : Reachable G.edge G.entry p → Covered G done h LI p) : Walking G done h LI W := by
  have hleft : ∀ q, Reachable G.edge G.entry q → Covered G done h LI q ∨ q ∈ p :: W →
      Covered G done h LI q ∨ q ∈ W := by
    intro q hq hcases
    rcases hcases with hcovered | hmem
    · exact .inl hcovered
    · rcases mem_cons.mp hmem with rfl | hmem
      · exact .inl (hp hq)
      · exact .inr hmem
  exact ⟨hw.map, hw.parent, hw.parent_header, fun q hq => hw.worklist q (mem_cons_of_mem _ hq),
    fun q hq => hleft q hq.reachable (hw.latches q hq),
    fun b q hb hne hedge hq => hleft q hq (hw.closed b q hb hne hedge hq)⟩

omit [Fintype V] in
theorem Walking.mapBlock {b : V} (pushed : List V) (hw : Walking G done h LI W)
    (hnone : LI.BBMap b = none) (hb : G.InLoop h b)
    (hpushed : ∀ p, p ∈ pushed ↔ b ≠ h ∧ p ∈ G.preds b) :
    Walking G done h (LI.changeLoopFor b h) (pushed ++ W) ∧
      Covered G done h (LI.changeLoopFor b h) b := by
  have hsame : ∀ {c}, c ≠ b → (LI.changeLoopFor b h).BBMap c = LI.BBMap c := fun hne =>
    update_of_ne hne _ _
  have hself : (LI.changeLoopFor b h).BBMap b = some h := update_self ..
  have hcovered : ∀ c, Covered G done h LI c → Covered G done h (LI.changeLoopFor b h) c := by
    rintro c (hmap | hin)
    · by_cases hc : c = b
      · exact .inl (hc ▸ hself)
      · exact .inl ((hsame hc).trans hmap)
    · exact .inr hin
  have hadd : ∀ {p}, Covered G done h LI p ∨ p ∈ W →
      Covered G done h (LI.changeLoopFor b h) p ∨ p ∈ pushed ++ W := fun {p} hp =>
    hp.imp (hcovered p) (mem_append_right _)
  refine ⟨⟨fun c => ?_, hw.parent, hw.parent_header, fun p hp hreach => ?_,
    fun p hp => hadd (hw.latches p hp), fun c p hc hne hedge hp => ?_⟩, .inl hself⟩
  · by_cases hc : c = b
    · rw [hc, hself]
      rcases hw.map b with ⟨hmap, -⟩ | hinner
      · rw [hnone] at hmap
        cases hmap
      · rw [hnone] at hinner
        exact .inl ⟨rfl, hb, hinner⟩
    · rw [hsame hc]
      exact hw.map c
  · rcases mem_append.mp hp with hp | hp
    · obtain ⟨hne, hpred⟩ := (hpushed p).mp hp
      exact hb.pred hne ((G.mem_preds p b).mp hpred) hreach
    · exact hw.worklist p hp hreach
  · by_cases hcb : c = b
    · have hpred := (hpushed p).mpr ⟨hcb ▸ hne, (G.mem_preds p b).mpr (hcb ▸ hedge)⟩
      exact .inr (mem_append_left _ hpred)
    · have hold : Covered G done h LI c := by
        rcases hc with hmap | hin
        · exact .inl ((hsame hcb).symm.trans hmap)
        · exact .inr hin
      exact hadd (hw.closed c p hold hne hedge hp)

omit [Fintype V] in
theorem Walking.nestLoop {S : V} (pushed : List V) (hw : Walking G done h LI W) (hh : ¬done h)
    (hS : done S) (hnone : LI.ParentLoop S = none) (hin : G.InLoop h S) (hheader : G.IsHeader S)
    (hpushed : ∀ p, p ∈ pushed ↔ p ∈ G.preds S ∧ LI.BBMap p ≠ some S) :
    Walking G done h (LI.setParentLoop S h) (pushed ++ W) ∧
      ∀ b, G.InLoop S b → Covered G done h (LI.setParentLoop S h) b := by
  have hSh : S ≠ h := fun heq => hh (heq ▸ hS)
  have hsame : ∀ {l}, l ≠ S → (LI.setParentLoop S h).ParentLoop l = LI.ParentLoop l := fun hne =>
    update_of_ne hne _ _
  have hself : (LI.setParentLoop S h).ParentLoop S = some h := update_self ..
  have hinside : ∀ b, G.InLoop S b → Covered G done h (LI.setParentLoop S h) b := fun b hb =>
    .inr ⟨S, hS, hself, hb⟩
  have hcovered : ∀ b, Covered G done h LI b → Covered G done h (LI.setParentLoop S h) b := by
    rintro b (hmap | ⟨l, hl, hlh, hlb⟩)
    · exact .inl hmap
    · by_cases hlS : l = S
      · exact hinside b (hlS ▸ hlb)
      · exact .inr ⟨l, hl, (hsame hlS).trans hlh, hlb⟩
  have hadd : ∀ {p}, Covered G done h LI p ∨ p ∈ W →
      Covered G done h (LI.setParentLoop S h) p ∨ p ∈ pushed ++ W := fun {p} hp =>
    hp.imp (hcovered p) (mem_append_right _)
  refine ⟨⟨hw.map, fun l hl hlheader => ?_, (hsame hSh.symm).trans hw.parent_header,
    fun p hp hreach => ?_, fun p hp => hadd (hw.latches p hp), fun b p hb hne hedge hp => ?_⟩,
    hinside⟩
  · by_cases hlS : l = S
    · rw [hlS, hself]
      rcases hw.parent S hS hheader with ⟨hparent, -⟩ | hinner
      · rw [hnone] at hparent
        cases hparent
      · rw [hnone] at hinner
        exact .inl ⟨rfl, hin, fun m hm hmS => hinner m ⟨hm, hmS⟩⟩
    · rw [hsame hlS]
      exact hw.parent l hl hlheader
  · rcases mem_append.mp hp with hp | hp
    · exact hin.pred hSh ((G.mem_preds p S).mp ((hpushed p).mp hp).1) hreach
    · exact hw.worklist p hp hreach
  · by_cases hSb : G.InLoop S b
    · by_cases hbS : b = S
      · -- the walk leaves out the predecessors that the map holds in this loop
        by_cases hmap : LI.BBMap p = some S
        · rcases hw.map p with ⟨hmap', -⟩ | hinner
          · exact absurd (some.inj (hmap.symm.trans hmap')) hSh
          · rw [hmap] at hinner
            exact .inl (hinside p hinner.2.1)
        · have hpred := (hpushed p).mpr ⟨(G.mem_preds p S).mpr (hbS ▸ hedge), hmap⟩
          exact .inr (mem_append_left _ hpred)
      · exact .inl (hinside p (hSb.pred hbS hedge hp))
    · have hold : Covered G done h LI b := by
        rcases hb with hmap | ⟨l, hl, hlh, hlb⟩
        · exact .inl hmap
        · by_cases hlS : l = S
          · exact absurd (hlS ▸ hlb) hSb
          · exact .inr ⟨l, hl, (hsame hlS).symm.trans hlh, hlb⟩
      exact hadd (hw.closed b p hold hne hedge hp)

end Walk

section Discovery

variable {done : V → Prop} {h : V} {LI : LoopInfo V} {W : List V} (T : DomTree G)

omit [Fintype V] [DecidableEq V] in
theorem Walking.nested (hw : Walking G done h LI W) (hnew : ¬done h) (hh : G.IsHeader h) :
    Nested G (fun l => G.IsHeader l ∧ (done l ∨ l = h)) LI := by
  rintro l ⟨hheader, hl⟩
  refine ⟨hheader, fun p hp => ?_⟩
  rcases hl with hl | rfl
  · rcases hw.parent l hl hheader with ⟨hparent, hin, -⟩ | hinner
    · obtain rfl : p = h := some.inj (hp.symm.trans hparent)
      exact ⟨⟨hh, .inr rfl⟩, fun heq => hnew (heq ▸ hl), hin⟩
    · rw [hp] at hinner
      obtain ⟨⟨hdone, hne⟩, hin, -⟩ := hinner
      exact ⟨⟨hin.header, .inl hdone⟩, hne, hin⟩
  · rw [hw.parent_header] at hp
    cases hp

omit [Fintype V] [DecidableEq V] in
theorem Walking.inLoop_map {b l : V} (hw : Walking G done h LI W) (hmap : LI.BBMap b = some l) :
    (done l ∨ l = h) ∧ G.InLoop l b := by
  rcases hw.map b with ⟨hmap', hin, -⟩ | hinner
  · obtain rfl : l = h := some.inj (hmap.symm.trans hmap')
    exact ⟨.inr rfl, hin⟩
  · rw [hmap] at hinner
    exact ⟨.inl hinner.1, hinner.2.1⟩

omit [Fintype V] [DecidableEq V] in
theorem inLoop_of_before {l b : V} (hbefore : ∀ m, done m → ¬Dominates G.edge G.entry m h)
    (hl : done l) (hlb : G.InLoop l b) (hb : G.InLoop h b) : G.InLoop h l := by
  have hdom := (hb.dominates.comparable hlb.dominates hb.reachable).resolve_right (hbefore l hl)
  exact hb.inLoop_of_dominates hlb hdom

theorem visitPred_spec {PredBB : V} (hw : Walking G done h LI (PredBB :: W))
    (hbefore : ∀ m, done m → ¬Dominates G.edge G.entry m h) (hh : G.IsHeader h) :
    ∃ LI' pushed, visitPred T h PredBB LI = some (LI', pushed) ∧
      Walking G done h LI' (pushed.reverse ++ W) ∧ LI'.lists = LI.lists := by
  have hnew : ¬done h := fun hdone => hbefore h hdone (dominates_refl h)
  have hskip : ∀ {LI'} {pushed : List V},
      Walking G done h LI' (pushed.reverse ++ PredBB :: W) → Covered G done h LI' PredBB →
        Walking G done h LI' (pushed.reverse ++ W) := by
    intro LI' pushed hw' hcovered
    refine Walking.skip (p := PredBB) ?_ fun _ => hcovered
    refine ⟨hw'.map, hw'.parent, hw'.parent_header, fun p hp => hw'.worklist p ?_, fun p hp => ?_,
      fun b p hb hne hedge hp => ?_⟩
    · exact perm_middle.mem_iff.mpr hp
    · exact (hw'.latches p hp).imp_right perm_middle.mem_iff.mp
    · exact (hw'.closed b p hb hne hedge hp).imp_right perm_middle.mem_iff.mp
  unfold visitPred LoopInfo.getLoopFor
  cases hmap : LI.BBMap PredBB with
  | none =>
    by_cases hreach : Reachable G.edge G.entry PredBB
    · have hin := hw.worklist PredBB mem_cons_self hreach
      rw [(T.reachable_iff PredBB).mpr hreach]
      by_cases hheader : PredBB = h
      · obtain ⟨hw', hcovered⟩ := hw.mapBlock [].reverse hmap hin fun p =>
          ⟨fun hp => (not_mem_nil hp).elim, fun hp => (hp.1 hheader).elim⟩
        exact ⟨_, [], by simp [hheader], hskip hw' hcovered, rfl⟩
      · obtain ⟨hw', hcovered⟩ := hw.mapBlock (G.preds PredBB).reverse hmap hin
          fun p => by simp [hheader]
        exact ⟨_, G.preds PredBB, by simp [hheader], hskip hw' hcovered, rfl⟩
    · have hfalse : T.isReachableFromEntry PredBB = false := by
        simpa using fun htrue => hreach ((T.reachable_iff PredBB).mp htrue)
      rw [hfalse]
      exact ⟨LI, [], rfl, hw.skip fun hp => absurd hp hreach, rfl⟩
  | some l =>
    obtain ⟨hl, hlb⟩ := hw.inLoop_map hmap
    have hin := hw.worklist PredBB mem_cons_self hlb.reachable
    obtain ⟨S, houtermost, ⟨hSheader, hS⟩, hSl, hlast⟩ :=
      (hw.nested hnew hh).outermost ⟨hlb.header, hl⟩ (rank_le l)
    have hSb := hSl.subset hlb
    dsimp only
    rw [houtermost]
    dsimp only
    by_cases hSh : S = h
    · rw [if_pos hSh]
      refine ⟨LI, [], rfl, hw.skip fun _ => ?_, rfl⟩
      rcases hlast with rfl | ⟨m, ⟨-, hm⟩, hmS, hml⟩
      · exact .inl (hSh ▸ hmap)
      · have hmh : m ≠ h := by
          rintro rfl
          rw [hw.parent_header] at hmS
          cases hmS
        exact .inr ⟨m, hm.resolve_right hmh, hSh ▸ hmS, hml.subset hlb⟩
    · rw [if_neg hSh]
      have hSdone := hS.resolve_right hSh
      obtain ⟨hw', hcovered⟩ := hw.nestLoop
        ((G.preds S).filter fun Pred => LI.BBMap Pred ≠ some S).reverse hnew hSdone
        (LI.ParentLoop_outermost houtermost) (inLoop_of_before hbefore hSdone hSb hin) hSheader
        fun p => by simp
      exact ⟨_, _, rfl, hskip hw' (hcovered PredBB hSb), rfl⟩

theorem discoverAndMapSubloop_spec (hw : Walking G done h LI W)
    (hbefore : ∀ m, done m → ¬Dominates G.edge G.entry m h) (hh : G.IsHeader h) :
    ∃ LI', discoverAndMapSubloop T h W LI = some LI' ∧ Walking G done h LI' [] ∧
      LI'.lists = LI.lists := by
  induction W, LI using discoverAndMapSubloop.induct T h with
  | case1 LI =>
    rw [discoverAndMapSubloop]
    exact ⟨LI, rfl, hw, rfl⟩
  | case2 LI PredBB rest hstep =>
    obtain ⟨LI', pushed, hstep', -⟩ := visitPred_spec T hw hbefore hh
    rw [hstep] at hstep'
    cases hstep'
  | case3 LI PredBB rest LI' pushed hstep ih =>
    obtain ⟨LI'', pushed', hstep', hw', hlists⟩ := visitPred_spec T hw hbefore hh
    rw [hstep] at hstep'
    obtain ⟨rfl, rfl⟩ := Prod.mk.inj (some.inj hstep')
    obtain ⟨last, hlast, hwlast, hlists'⟩ := ih hw'
    rw [discoverAndMapSubloop]
    split
    · next hnone => rw [hstep] at hnone; cases hnone
    · next LI₂ pushed₂ hsome =>
      rw [hstep] at hsome
      obtain ⟨rfl, rfl⟩ := Prod.mk.inj (some.inj hsome)
      exact ⟨last, hlast, hwlast, hlists'.trans hlists⟩

omit [Fintype V] [DecidableEq V] in
theorem Walking.covered {b : V} (hw : Walking G done h LI []) (hb : G.InLoop h b) :
    Covered G done h LI b := by
  have hlatch : ∀ p, Latch G.edge G.entry h p → Covered G done h LI p := fun p hp =>
    (hw.latches p hp).resolve_right not_mem_nil
  have hwalk : ∀ {x z}, Around G.edge (· = h) x z → Covered G done h LI z →
      Reachable G.edge G.entry x → Covered G done h LI x := by
    intro x z hxz hz
    induction hxz with
    | refl => exact fun _ => hz
    | @step x y z _ hedge hyz ih =>
      intro hx
      have hy := ih hz (hx.tail hedge)
      exact (hw.closed y x hy hyz.left hedge hx).resolve_right not_mem_nil
  rcases hb.around with rfl | ⟨p, hp, haround⟩
  · obtain ⟨p, hp⟩ := hb.header
    by_cases hpb : p = b
    · exact hpb ▸ hlatch p hp
    · -- the header is a predecessor of the first block behind it
      obtain ⟨y, hedge, haround⟩ := hp.dominated.exists_leave hpb hp.reachable
      have hy := hwalk haround (hlatch p hp) (hb.reachable.tail hedge)
      exact (hw.closed y b hy haround.left hedge hb.reachable).resolve_right not_mem_nil
  · exact hwalk haround (hlatch p hp) hb.reachable

end Discovery

/-! ## The loops of some headers -/

/-- The map and the parents behind the discovery of the loops of some headers. -/
structure Mapped (G : CFG V) (done : V → Prop) (LI : LoopInfo V) : Prop where
  map : ∀ b, G.Innermost done b (LI.BBMap b)
  parent : ∀ l, done l → G.IsHeader l → G.Innermost (fun m => done m ∧ m ≠ l) l (LI.ParentLoop l)
  loops_nodup : LI.Loops.Nodup
  mem_loops : ∀ l, l ∈ LI.Loops ↔ done l ∧ G.IsHeader l
  blocks : ∀ l ∈ LI.Loops, LI.Blocks l = [l]
  subLoops : ∀ l ∈ LI.Loops, LI.SubLoops l = []
  topLevelLoops : LI.TopLevelLoops = []

section Headers

variable {done : V → Prop} {h : V} {LI : LoopInfo V} (T : DomTree G)

omit [Fintype V] in
theorem Mapped.walking {W : List V} (hm : Mapped G done LI) (hnew : ¬done h)
    (hW : ∀ p, p ∈ W ↔ Latch G.edge G.entry h p) :
    Walking G done h (LI.AllocateLoop h) W := by
  have hsame : ∀ {l}, done l → (LI.AllocateLoop h).ParentLoop l = LI.ParentLoop l := fun {l} hl =>
    update_of_ne (show l ≠ h from fun heq => hnew (heq ▸ hl)) _ _
  refine ⟨fun b => .inr (hm.map b), fun l hl hheader => ?_, update_self ..,
    fun p hp _ => ((hW p).mp hp).inLoop, fun p hp => .inr ((hW p).mpr hp), fun b p hb => ?_⟩
  · rw [hsame hl]
    exact .inr (hm.parent l hl hheader)
  · -- no block is in the new loop yet
    rcases hb with hmap | ⟨l, hl, hparent, hlb⟩
    · have hinner := hm.map b
      rw [show LI.BBMap b = some h from hmap] at hinner
      exact absurd hinner.1 hnew
    · have hinner := hm.parent l hl hlb.header
      rw [← hsame hl, hparent] at hinner
      exact absurd hinner.1.1 hnew

omit [Fintype V] [DecidableEq V] in
theorem Walking.map_innermost (hw : Walking G done h LI [])
    (hbefore : ∀ m, done m → ¬Dominates G.edge G.entry m h) (b : V) :
    G.Innermost (fun m => done m ∨ m = h) b (LI.BBMap b) := by
  rcases hw.map b with ⟨hmap, hin, hnot⟩ | hinner
  · rw [hmap]
    refine ⟨.inr rfl, hin, fun m hm hmb => ?_⟩
    obtain rfl : m = h := hm.resolve_left fun hdone => hnot m hdone hmb
    exact hin.header.inLoop
  · cases hmap : LI.BBMap b with
    | none =>
      rw [hmap] at hinner
      rintro m (hm | rfl) hmb
      · exact hinner m hm hmb
      · rcases hw.covered hmb with hmap' | ⟨l, hl, -, hlb⟩
        · rw [hmap] at hmap'
          cases hmap'
        · exact hinner l hl hlb
    | some l =>
      rw [hmap] at hinner
      obtain ⟨hl, hlb, hall⟩ := hinner
      refine ⟨.inl hl, hlb, ?_⟩
      rintro m (hm | rfl) hmb
      · exact hall m hm hmb
      · exact inLoop_of_before hbefore hl hlb hmb

omit [Fintype V] [DecidableEq V] in
theorem Walking.parent_innermost (hw : Walking G done h LI [])
    (hbefore : ∀ m, done m → ¬Dominates G.edge G.entry m h) {l : V} (hl : done l)
    (hheader : G.IsHeader l) :
    G.Innermost (fun m => (done m ∨ m = h) ∧ m ≠ l) l (LI.ParentLoop l) := by
  have hne : h ≠ l := fun heq => hbefore l hl (heq ▸ dominates_refl h)
  rcases hw.parent l hl hheader with ⟨hparent, hin, hnot⟩ | hinner
  · rw [hparent]
    refine ⟨⟨.inr rfl, hne⟩, hin, fun m hm hml => ?_⟩
    obtain rfl : m = h := hm.1.resolve_left fun hdone => hnot m hdone hm.2 hml
    exact hin.header.inLoop
  · cases hparent : LI.ParentLoop l with
    | none =>
      rw [hparent] at hinner
      rintro m ⟨hm | rfl, hml⟩ hin
      · exact hinner m ⟨hm, hml⟩ hin
      · rcases hw.covered hin with hmap | ⟨c, hc, hch, hcl⟩
        · rcases hw.map l with ⟨-, -, hnot⟩ | hinnermost
          · exact hnot l hl hheader.inLoop
          · rw [hmap] at hinnermost
            exact hbefore m hinnermost.1 (dominates_refl m)
        · by_cases hcl' : c = l
          · rw [hcl', hparent] at hch
            cases hch
          · exact hinner c ⟨hc, hcl'⟩ hcl
    | some p =>
      rw [hparent] at hinner
      obtain ⟨⟨hp, hpl⟩, hin, hall⟩ := hinner
      refine ⟨⟨.inl hp, hpl⟩, hin, ?_⟩
      rintro m ⟨hm | rfl, hml⟩ hmin
      · exact hall m ⟨hm, hml⟩ hmin
      · exact inLoop_of_before hbefore hp hin hmin

omit [Fintype V] [DecidableEq V] in
theorem mem_backedges {p : V} : p ∈ backedges T h ↔ Latch G.edge G.entry h p := by
  unfold backedges
  rw [mem_filter, G.mem_preds, Bool.and_eq_true, T.dominates_iff, T.reachable_iff]
  exact ⟨fun ⟨hedge, hdom, hreach⟩ => ⟨hedge, hreach, hdom⟩,
    fun hp => ⟨hp.back, hp.dominated, hp.reachable⟩⟩

omit [Fintype V] [DecidableEq V] in
theorem Mapped.congr {done' : V → Prop} (hm : Mapped G done LI)
    (h : ∀ m, G.IsHeader m → (done m ↔ done' m)) : Mapped G done' LI where
  map b := (hm.map b).congr fun m hmb => h m hmb.header
  parent l hl hheader := (hm.parent l ((h l hheader).mpr hl) hheader).congr fun m hml =>
    and_congr_left fun _ => h m hml.header
  loops_nodup := hm.loops_nodup
  mem_loops l := (hm.mem_loops l).trans (and_congr_left (h l))
  blocks := hm.blocks
  subLoops := hm.subLoops
  topLevelLoops := hm.topLevelLoops

theorem discoverHeader_spec (hm : Mapped G done LI)
    (hbefore : ∀ m, done m → ¬Dominates G.edge G.entry m h) :
    ∃ LI', discoverHeader T LI h = some LI' ∧ Mapped G (fun m => done m ∨ m = h) LI' := by
  have hnew : ¬done h := fun hdone => hbefore h hdone (dominates_refl h)
  unfold discoverHeader
  by_cases hempty : backedges T h = []
  · rw [if_neg (not_not.mpr hempty)]
    have hno : ¬G.IsHeader h := fun ⟨p, hp⟩ => by
      have hmem := (mem_backedges T).mpr hp
      rw [hempty] at hmem
      cases hmem
    refine ⟨LI, rfl, hm.congr fun m hheader => (or_iff_left ?_).symm⟩
    exact fun heq => hno (heq ▸ hheader)
  · rw [if_pos hempty]
    obtain ⟨p, hp⟩ := exists_mem_of_ne_nil _ hempty
    have hh : G.IsHeader h := ⟨p, (mem_backedges T).mp hp⟩
    obtain ⟨LI', hwalked, hw, hlists⟩ := discoverAndMapSubloop_spec T (hm.walking hnew fun p =>
      mem_reverse.trans (mem_backedges T)) hbefore hh
    obtain ⟨hLoops, hrest⟩ := Prod.mk.inj hlists
    obtain ⟨hSubLoops, hrest⟩ := Prod.mk.inj hrest
    obtain ⟨hBlocks, hTop⟩ := Prod.mk.inj hrest
    have hold : ∀ l ∈ LI'.Loops, l ≠ h → l ∈ LI.Loops := by
      rw [hLoops]
      exact fun l hl hlh =>
        (mem_append.mp hl).resolve_right fun hmem => hlh (mem_singleton.mp hmem)
    refine ⟨LI', hwalked, hw.map_innermost hbefore, fun l hl hheader => ?_, ?_, fun l => ?_,
      fun l hl => ?_, fun l hl => ?_, hTop.trans hm.topLevelLoops⟩
    · rcases hl with hl | rfl
      · exact hw.parent_innermost hbefore hl hheader
      · rw [hw.parent_header]
        rintro m ⟨hmdone, hne⟩ hin
        exact hbefore m (hmdone.resolve_right hne) hin.dominates
    · rw [hLoops]
      refine nodup_append.mpr ⟨hm.loops_nodup, nodup_singleton h, fun l hl m hm' => ?_⟩
      rw [mem_singleton.mp hm']
      exact fun heq => hnew (heq ▸ ((hm.mem_loops l).mp hl).1)
    · rw [hLoops]
      change l ∈ LI.Loops ++ [h] ↔ _
      rw [mem_append, hm.mem_loops, mem_singleton, or_and_right]
      exact or_congr_right ⟨fun heq => ⟨heq, heq ▸ hh⟩, And.left⟩
    · rw [hBlocks]
      by_cases hlh : l = h
      · exact hlh ▸ update_self ..
      · exact (update_of_ne hlh _ _).trans (hm.blocks l (hold l hl hlh))
    · rw [hSubLoops]
      by_cases hlh : l = h
      · exact hlh ▸ update_self ..
      · exact (update_of_ne hlh _ _).trans (hm.subLoops l (hold l hl hlh))

theorem discoverHeaders_spec {l l' : List V} (hm : Mapped G (· ∈ l) LI)
    (hsplit : post_order T.children G.entry = l ++ l') :
    ∃ LI', l'.foldlM (discoverHeader T) LI = some LI' ∧ Mapped G (· ∈ l ++ l') LI' := by
  induction l' generalizing l LI with
  | nil => exact ⟨LI, rfl, by rwa [append_nil]⟩
  | cons h l' ih =>
    obtain ⟨LI', hstep, hm'⟩ := discoverHeader_spec T hm fun m hmem =>
      not_dominates_of_before T hsplit hmem
    have hm'' : Mapped G (· ∈ l ++ [h]) LI' := hm'.congr fun m _ => by simp
    obtain ⟨last, hlast, hmlast⟩ := ih hm'' (by rw [hsplit]; simp)
    refine ⟨last, ?_, by simpa using hmlast⟩
    rw [foldlM_cons, hstep]
    exact hlast

theorem discovered : ∃ LI,
    (post_order T.children G.entry).foldlM (discoverHeader T) LoopInfo.empty = some LI ∧
      Mapped G (Reachable G.edge G.entry) LI := by
  have hstart : Mapped G (· ∈ ([] : List V)) LoopInfo.empty :=
    ⟨fun _ _ hm => (not_mem_nil hm).elim, fun _ hl => (not_mem_nil hl).elim,
      nodup_nil, by simp [LoopInfo.empty], fun _ hl => (not_mem_nil hl).elim,
      fun _ hl => (not_mem_nil hl).elim, rfl⟩
  obtain ⟨LI, hrun, hm⟩ := discoverHeaders_spec T hstart (nil_append _).symm
  exact ⟨LI, hrun, hm.congr fun m _ => mem_tree_order T⟩

end Headers

end Zapcc.Analysis
