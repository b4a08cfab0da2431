import Mathlib.Data.Set.Card
import Zapcc.Analysis.LoopDiscovery

/-!
# The lists of the loops

The forward walk adds each block to the loops around it. `analyze_naturalLoops` says that the
analysis ends with the natural loops of the graph.
-/

namespace Zapcc.Analysis

open Zapcc.ADT.po_iterator Zapcc.Dominance Zapcc.IR List Function Option

variable {V : Type*} [Fintype V] [DecidableEq V] {G : CFG V} {LI₀ LI : LoopInfo V}

/-! ## The loops around a block -/

omit [Fintype V] [DecidableEq V] in
theorem Mapped.inLoop_iff_map (hm : Mapped G (Reachable G.edge G.entry) LI) {b m : V} :
    G.InLoop m b ↔ ∃ l ∈ LI.BBMap b, G.InLoop m l := by
  have hinner := hm.map b
  cases hmap : LI.BBMap b with
  | none =>
    rw [hmap] at hinner
    exact ⟨fun hin => absurd hin (hinner m hin.header.reachable), by simp⟩
  | some l =>
    rw [hmap] at hinner
    simp only [mem_def, some.injEq, exists_eq_left']
    exact ⟨fun hin => (hinner.inLoop_iff hin.header.reachable).mp hin,
      fun hin => (hinner.inLoop_iff hin.header.reachable).mpr hin⟩

omit [Fintype V] [DecidableEq V] in
theorem Mapped.inLoop_iff_parent (hm : Mapped G (Reachable G.edge G.entry) LI) {l m : V}
    (hl : G.IsHeader l) :
    G.InLoop m l ∧ m ≠ l ↔ ∃ p ∈ LI.ParentLoop l, G.InLoop m p := by
  have hinner := hm.parent l hl.reachable hl
  cases hparent : LI.ParentLoop l with
  | none =>
    rw [hparent] at hinner
    exact ⟨fun ⟨hin, hne⟩ => absurd hin (hinner m ⟨hin.header.reachable, hne⟩), by simp⟩
  | some p =>
    rw [hparent] at hinner
    simp only [mem_def, some.injEq, exists_eq_left']
    constructor
    · rintro ⟨hin, hne⟩
      exact hinner.2.2 m ⟨hin.header.reachable, hne⟩ hin
    · intro hmp
      refine ⟨hmp.subset hinner.2.1, ?_⟩
      rintro rfl
      exact hinner.1.2 (hinner.2.1.dominates.antisymm hmp.dominates hl.reachable)

omit [Fintype V] [DecidableEq V] in
theorem Mapped.isHeader_iff (hm : Mapped G (Reachable G.edge G.entry) LI) {b : V} :
    G.IsHeader b ↔ LI.BBMap b = some b := by
  have hinner := hm.map b
  constructor
  · intro hb
    obtain ⟨l, hl, hbl⟩ := hm.inLoop_iff_map.mp hb.inLoop
    rw [mem_def] at hl
    rw [hl] at hinner
    rw [hl, hinner.2.1.dominates.antisymm hbl.dominates hb.reachable]
  · intro hmap
    rw [hmap] at hinner
    exact hinner.2.1.header

omit [Fintype V] [DecidableEq V] in
theorem Mapped.nested (hm : Mapped G (Reachable G.edge G.entry) LI) :
    Nested G G.IsHeader LI := by
  refine fun l hl => ⟨hl, fun p hp => ?_⟩
  have hinner := hm.parent l hl.reachable hl
  rw [hp] at hinner
  exact ⟨hinner.2.1.header, hinner.1.2, hinner.2.1⟩

/-! ## A block comes into its loops -/

/-- The map, the parents and the loops of the discovery. -/
structure SameLoops (LI₀ LI : LoopInfo V) : Prop where
  map : LI.BBMap = LI₀.BBMap
  parent : LI.ParentLoop = LI₀.ParentLoop
  loops : LI.Loops = LI₀.Loops

/-- The block lists when some blocks are done: the header, and once each other block. -/
def HasBlocks (G : CFG V) (LI₀ : LoopInfo V) (done : List V) (LI : LoopInfo V) : Prop :=
  ∀ l ∈ LI₀.Loops, ∃ rest, LI.Blocks l = l :: rest ∧ rest.Nodup ∧
    ∀ b, b ∈ rest ↔ b ∈ done ∧ G.InLoop l b ∧ l ≠ b

/-- The lists of subloops when some blocks are done. -/
structure HasSubLoops (LI₀ : LoopInfo V) (done : List V) (LI : LoopInfo V) : Prop where
  nodup : ∀ l ∈ LI₀.Loops, (LI.SubLoops l).Nodup
  mem : ∀ l ∈ LI₀.Loops, ∀ c, c ∈ LI.SubLoops l ↔
    c ∈ done ∧ c ∈ LI₀.Loops ∧ LI₀.ParentLoop c = some l
  top_nodup : LI.TopLevelLoops.Nodup
  mem_top : ∀ c, c ∈ LI.TopLevelLoops ↔ c ∈ done ∧ c ∈ LI₀.Loops ∧ LI₀.ParentLoop c = none

theorem addBlockEntries_spec {b : V} {n : Nat} {o : Option V}
    (hm : Mapped G (Reachable G.edge G.entry) LI₀) (hsame : SameLoops LI₀ LI)
    (ho : ∀ l ∈ o, G.IsHeader l ∧ rank G.edge G.entry l ≤ n) :
    ∃ LI', addBlockEntries b n o LI = some LI' ∧ SameLoops LI₀ LI' ∧
      LI'.SubLoops = LI.SubLoops ∧ LI'.TopLevelLoops = LI.TopLevelLoops ∧
      (∀ m, (∃ l ∈ o, G.InLoop m l) → LI'.Blocks m = LI.Blocks m ++ [b]) ∧
      ∀ m, (¬∃ l ∈ o, G.InLoop m l) → LI'.Blocks m = LI.Blocks m := by
  induction n generalizing o LI with
  | zero =>
    cases o with
    | none => exact ⟨LI, rfl, hsame, rfl, rfl, by simp, fun _ _ => rfl⟩
    | some l => exact absurd (rank_pos l) (Nat.not_lt.mpr (ho l rfl).2)
  | succ n ih =>
    cases o with
    | none => exact ⟨LI, rfl, hsame, rfl, rfl, by simp, fun _ _ => rfl⟩
    | some l =>
      obtain ⟨hl, hrank⟩ := ho l rfl
      have hsplit : ∀ m, (∃ c ∈ some l, G.InLoop m c) ↔
          m = l ∨ ∃ p ∈ LI.ParentLoop l, G.InLoop m p := by
        intro m
        rw [hsame.parent, ← hm.inLoop_iff_parent hl]
        simp only [mem_def, some.injEq, exists_eq_left']
        by_cases hml : m = l
        · exact iff_of_true (hml ▸ hl.inLoop) (.inl hml)
        · exact ⟨fun hin => .inr ⟨hin, hml⟩, fun h => (h.resolve_left hml).1⟩
      have hself : ¬∃ p ∈ LI.ParentLoop l, G.InLoop l p := by
        rw [hsame.parent, ← hm.inLoop_iff_parent hl]
        exact fun h => h.2 rfl
      have hadded : SameLoops LI₀ (LI.addBlockEntry l b) :=
        ⟨hsame.map, hsame.parent, hsame.loops⟩
      obtain ⟨LI', hrun, hsame', hsub, htop, hin, hout⟩ :=
        ih (o := LI.ParentLoop l) hadded fun p hp => by
          rw [hsame.parent] at hp
          have hlt := hm.nested.rank_lt hl hp
          exact ⟨((hm.nested l hl).2 p hp).2.2.header, by omega⟩
      refine ⟨LI', hrun, hsame', hsub, htop, fun m hmem => ?_, fun m hmem => ?_⟩
      · rcases (hsplit m).mp hmem with rfl | hparent
        · rw [hout m hself]
          exact update_self ..
        · have hml : m ≠ l := fun heq => hself (heq ▸ hparent)
          rw [hin m hparent]
          exact congrArg (· ++ [b]) (update_of_ne hml ..)
      · rw [hsplit, not_or] at hmem
        exact (hout m hmem.2).trans (update_of_ne hmem.1 ..)

omit [Fintype V] [DecidableEq V] in
theorem HasBlocks.add {done : List V} {b : V} {LI' : LoopInfo V} (hb : HasBlocks G LI₀ done LI)
    (hnew : b ∉ done) (hin : ∀ m, G.InLoop m b ∧ m ≠ b → LI'.Blocks m = LI.Blocks m ++ [b])
    (hout : ∀ m, ¬(G.InLoop m b ∧ m ≠ b) → LI'.Blocks m = LI.Blocks m) :
    HasBlocks G LI₀ (done ++ [b]) LI' := by
  intro l hl
  obtain ⟨rest, hblocks, hnodup, hmem⟩ := hb l hl
  by_cases haround : G.InLoop l b ∧ l ≠ b
  · refine ⟨rest ++ [b], by rw [hin l haround, hblocks]; rfl, ?_, fun c => ?_⟩
    · refine nodup_append.mpr ⟨hnodup, nodup_singleton b, fun c hc d hd => ?_⟩
      rw [mem_singleton.mp hd]
      exact fun heq => hnew (heq ▸ ((hmem c).mp hc).1)
    · rw [mem_append, mem_append, hmem, mem_singleton, or_and_right]
      exact or_congr_right ⟨fun heq => ⟨heq, heq ▸ haround⟩, And.left⟩
  · refine ⟨rest, (hout l haround).trans hblocks, hnodup, fun c => ?_⟩
    rw [hmem, mem_append, mem_singleton, or_and_right]
    refine (or_iff_left ?_).symm
    rintro ⟨rfl, h⟩
    exact haround h

omit [Fintype V] [DecidableEq V] in
theorem HasSubLoops.add {done : List V} {b : V} {LI' : LoopInfo V} (hs : HasSubLoops LI₀ done LI)
    (hb : b ∉ LI₀.Loops) (hsub : LI'.SubLoops = LI.SubLoops)
    (htop : LI'.TopLevelLoops = LI.TopLevelLoops) : HasSubLoops LI₀ (done ++ [b]) LI' := by
  have hdone : ∀ {c} {P : Prop}, c ∈ done ∧ c ∈ LI₀.Loops ∧ P ↔
      c ∈ done ++ [b] ∧ c ∈ LI₀.Loops ∧ P := by
    intro c P
    rw [mem_append, mem_singleton, or_and_right]
    refine (or_iff_left ?_).symm
    rintro ⟨rfl, h, -⟩
    exact hb h
  exact ⟨by rw [hsub]; exact hs.nodup, fun l hl c => by rw [hsub, hs.mem l hl, hdone],
    by rw [htop]; exact hs.top_nodup, fun c => by rw [htop, hs.mem_top, hdone]⟩

omit [Fintype V] in
theorem reverse_spec {done done' : List V} {b : V} (hblocks : HasBlocks G LI₀ done LI)
    (hs : HasSubLoops LI₀ done' LI) :
    HasBlocks G LI₀ done ((LI.reverseBlock b 1).reverseSubLoops b) ∧
      HasSubLoops LI₀ done' ((LI.reverseBlock b 1).reverseSubLoops b) := by
  have hsub : ∀ l, ((LI.reverseBlock b 1).reverseSubLoops b).SubLoops l = LI.SubLoops l ∨
      ((LI.reverseBlock b 1).reverseSubLoops b).SubLoops l = (LI.SubLoops l).reverse := by
    intro l
    by_cases hl : l = b
    · exact .inr (hl ▸ update_self ..)
    · exact .inl (update_of_ne hl ..)
  refine ⟨fun l hl => ?_, fun l hl => ?_, fun l hl c => ?_, hs.top_nodup, hs.mem_top⟩
  · obtain ⟨rest, hrest, hnodup, hmem⟩ := hblocks l hl
    by_cases hlb : l = b
    · refine ⟨rest.reverse, ?_, nodup_reverse.mpr hnodup, fun c => ?_⟩
      · refine hlb ▸ (update_self ..).trans ?_
        rw [hrest]
        rfl
      · rw [mem_reverse, hmem]
    · exact ⟨rest, (update_of_ne hlb ..).trans hrest, hnodup, hmem⟩
  · rcases hsub l with heq | heq
    · rw [heq]
      exact hs.nodup l hl
    · rw [heq, nodup_reverse]
      exact hs.nodup l hl
  · rcases hsub l with heq | heq
    · rw [heq]
      exact hs.mem l hl c
    · rw [heq, mem_reverse]
      exact hs.mem l hl c

omit [Fintype V] in
theorem completeSubloop_spec {done : List V} {b : V} (hsame : SameLoops LI₀ LI)
    (hb : b ∈ LI₀.Loops) (hnew : b ∉ done) (hblocks : HasBlocks G LI₀ done LI)
    (hs : HasSubLoops LI₀ done LI) :
    SameLoops LI₀ (completeSubloop LI b) ∧ HasBlocks G LI₀ done (completeSubloop LI b) ∧
      HasSubLoops LI₀ (done ++ [b]) (completeSubloop LI b) := by
  have hsnoc : ∀ {l : List V} {o : Option V}, l.Nodup →
      (∀ c, c ∈ l ↔ c ∈ done ∧ c ∈ LI₀.Loops ∧ LI₀.ParentLoop c = o) →
      LI₀.ParentLoop b = o → (l ++ [b]).Nodup ∧
        ∀ c, c ∈ l ++ [b] ↔ c ∈ done ++ [b] ∧ c ∈ LI₀.Loops ∧ LI₀.ParentLoop c = o := by
    intro l o hnodup hmem ho
    constructor
    · refine nodup_append.mpr ⟨hnodup, nodup_singleton b, fun c hc d hd => ?_⟩
      rw [mem_singleton.mp hd]
      exact fun heq => hnew (heq ▸ ((hmem c).mp hc).1)
    · intro c
      rw [mem_append, mem_append, hmem, mem_singleton, or_and_right]
      exact or_congr_right ⟨fun heq => ⟨heq, heq ▸ hb, heq ▸ ho⟩, And.left⟩
  have hother : ∀ {o c}, LI₀.ParentLoop b ≠ o → (c ∈ done ∧ c ∈ LI₀.Loops ∧ LI₀.ParentLoop c = o ↔
        c ∈ done ++ [b] ∧ c ∈ LI₀.Loops ∧ LI₀.ParentLoop c = o) := by
    intro o c ho
    rw [mem_append, mem_singleton, or_and_right]
    refine (or_iff_left ?_).symm
    rintro ⟨rfl, -, h⟩
    exact ho h
  unfold completeSubloop
  rw [hsame.parent]
  cases hparent : LI₀.ParentLoop b with
  | none =>
    rw [hparent] at hother hsnoc
    obtain ⟨hnodup, hmem⟩ := hsnoc hs.top_nodup hs.mem_top rfl
    have hadded : HasSubLoops LI₀ (done ++ [b]) (LI.addTopLevelLoop b) :=
      ⟨hs.nodup, fun l hl c => (hs.mem l hl c).trans (hother (by simp)), hnodup, hmem⟩
    exact ⟨⟨hsame.map, hsame.parent, hsame.loops⟩, reverse_spec hblocks hadded⟩
  | some p =>
    rw [hparent] at hother hsnoc
    have hself : (LI.addSubLoop p b).SubLoops p = LI.SubLoops p ++ [b] := update_self ..
    have hne : ∀ {l}, l ≠ p → (LI.addSubLoop p b).SubLoops l = LI.SubLoops l := fun hl =>
      update_of_ne hl ..
    have hadded : HasSubLoops LI₀ (done ++ [b]) (LI.addSubLoop p b) := by
      refine ⟨fun l hl => ?_, fun l hl c => ?_, hs.top_nodup, fun c =>
        (hs.mem_top c).trans (hother (by simp))⟩
      · by_cases hlp : l = p
        · subst hlp
          rw [hself]
          exact (hsnoc (hs.nodup l hl) (hs.mem l hl) rfl).1
        · rw [hne hlp]
          exact hs.nodup l hl
      · by_cases hlp : l = p
        · subst hlp
          rw [hself]
          exact (hsnoc (hs.nodup l hl) (hs.mem l hl) rfl).2 c
        · rw [hne hlp, hs.mem l hl]
          exact hother fun heq => hlp (some.inj heq).symm
    exact ⟨⟨hsame.map, hsame.parent, hsame.loops⟩, reverse_spec hblocks hadded⟩

theorem insertIntoLoop_spec {done : List V} {b : V}
    (hm : Mapped G (Reachable G.edge G.entry) LI₀) (hsame : SameLoops LI₀ LI) (hnew : b ∉ done)
    (hblocks : HasBlocks G LI₀ done LI) (hs : HasSubLoops LI₀ done LI) :
    ∃ LI', insertIntoLoop LI b = some LI' ∧ SameLoops LI₀ LI' ∧
      HasBlocks G LI₀ (done ++ [b]) LI' ∧ HasSubLoops LI₀ (done ++ [b]) LI' := by
  have hheaders : ∀ l, G.IsHeader l ↔ l ∈ LI₀.Loops := fun l => by
    rw [hm.mem_loops]
    exact (and_iff_right_of_imp fun hl => hl.reachable).symm
  unfold insertIntoLoop LoopInfo.getLoopFor
  rw [hsame.map]
  cases hmap : LI₀.BBMap b with
  | none =>
    have hno : ∀ m, ¬G.InLoop m b := fun m hmb => by
      obtain ⟨l, hl, -⟩ := hm.inLoop_iff_map.mp hmb
      rw [hmap] at hl
      cases hl
    have hnot : b ∉ LI₀.Loops := fun hb => hno b ((hheaders b).mpr hb).inLoop
    exact ⟨LI, rfl, hsame, hblocks.add hnew (fun m h => absurd h.1 (hno m)) fun _ _ => rfl,
      hs.add hnot rfl rfl⟩
  | some l =>
    dsimp only
    by_cases hbl : b = l
    · rw [if_pos hbl, ← hbl]
      have hheader : G.IsHeader b := hm.isHeader_iff.mpr (hbl ▸ hmap)
      obtain ⟨hsame₁, hblocks₁, hs₁⟩ := completeSubloop_spec hsame ((hheaders b).mp hheader) hnew
        hblocks hs
      obtain ⟨LI', hrun, hsame', hsub, htop, hin, hout⟩ := addBlockEntries_spec (b := b)
        (n := Fintype.card V) (o := LI₀.ParentLoop b) hm hsame₁ fun p hp =>
          ⟨((hm.nested b hheader).2 p hp).2.2.header, rank_le p⟩
      simp only [← hm.inLoop_iff_parent hheader] at hin hout
      refine ⟨LI', by rw [hsame₁.parent]; exact hrun, hsame', hblocks₁.add hnew hin hout, ?_⟩
      exact ⟨by rw [hsub]; exact hs₁.nodup, by rw [hsub]; exact hs₁.mem,
        by rw [htop]; exact hs₁.top_nodup, by rw [htop]; exact hs₁.mem_top⟩
    · rw [if_neg hbl]
      have hnot : ¬G.IsHeader b := fun hb =>
        hbl (some.inj ((hm.isHeader_iff.mp hb).symm.trans hmap))
      have hheader : G.IsHeader l := by
        have hinner := hm.map b
        rw [hmap] at hinner
        exact hinner.2.1.header
      obtain ⟨LI', hrun, hsame', hsub, htop, hin, hout⟩ := addBlockEntries_spec (b := b)
        (n := Fintype.card V) (o := some l) hm hsame fun p hp => by
          obtain rfl := some.inj hp
          exact ⟨hheader, rank_le l⟩
      have haround : ∀ m, (∃ c ∈ some l, G.InLoop m c) ↔ G.InLoop m b ∧ m ≠ b := by
        intro m
        rw [← hmap, ← hm.inLoop_iff_map]
        refine (and_iff_left_of_imp fun hmb => ?_).symm
        rintro rfl
        exact hnot hmb.header
      simp only [haround] at hin hout
      exact ⟨LI', hrun, hsame', hblocks.add hnew hin hout,
        hs.add (fun hb => hnot ((hheaders b).mpr hb)) hsub htop⟩

theorem insertIntoLoops_spec {done l : List V} (hm : Mapped G (Reachable G.edge G.entry) LI₀)
    (hsame : SameLoops LI₀ LI) (hnodup : (done ++ l).Nodup) (hblocks : HasBlocks G LI₀ done LI)
    (hs : HasSubLoops LI₀ done LI) :
    ∃ LI', l.foldlM insertIntoLoop LI = some LI' ∧ SameLoops LI₀ LI' ∧
      HasBlocks G LI₀ (done ++ l) LI' ∧ HasSubLoops LI₀ (done ++ l) LI' := by
  induction l generalizing done LI with
  | nil => exact ⟨LI, rfl, hsame, by rwa [append_nil], by rwa [append_nil]⟩
  | cons b l ih =>
    have hnew : b ∉ done := fun hmem =>
      (nodup_append.mp hnodup).2.2 b hmem b mem_cons_self rfl
    obtain ⟨LI', hstep, hsame', hblocks', hs'⟩ := insertIntoLoop_spec hm hsame hnew hblocks hs
    have hassoc : done ++ b :: l = done ++ [b] ++ l := by simp
    obtain ⟨last, hrun, hsame'', hblocks'', hs''⟩ := ih hsame' (hassoc ▸ hnodup) hblocks' hs'
    rw [hassoc]
    refine ⟨last, ?_, hsame'', hblocks'', hs''⟩
    rw [foldlM_cons, hstep]
    exact hrun

/-! ## The natural loops -/

/-- The loops, their block lists, the innermost loops and the nesting of the loops. -/
structure FindsNaturalLoops (G : CFG V) (LI : LoopInfo V) : Prop where
  loops_nodup : LI.Loops.Nodup
  mem_loops : ∀ h, h ∈ LI.Loops ↔
    ∃ p ∈ G.preds h, Reachable G.edge G.entry p ∧ Dominates G.edge G.entry h p
  blocks : ∀ h ∈ LI.Loops, ∃ rest, LI.Blocks h = h :: rest ∧ (h :: rest).Nodup ∧
    ∀ b, b ∈ h :: rest ↔ b ∈ naturalLoop G.edge G.entry h
  loopFor_none : ∀ b, LI.getLoopFor b = none → ∀ h ∈ LI.Loops, b ∉ naturalLoop G.edge G.entry h
  loopFor_some : ∀ b l, LI.getLoopFor b = some l → l ∈ LI.Loops ∧
    b ∈ naturalLoop G.edge G.entry l ∧ ∀ h ∈ LI.Loops, b ∈ naturalLoop G.edge G.entry h →
      naturalLoop G.edge G.entry l ⊆ naturalLoop G.edge G.entry h
  parent_none : ∀ l ∈ LI.Loops, LI.ParentLoop l = none → ∀ h ∈ LI.Loops,
    ¬StrictlyIn G.edge G.entry l h
  parent_some : ∀ l ∈ LI.Loops, ∀ p, LI.ParentLoop l = some p → p ∈ LI.Loops ∧
    StrictlyIn G.edge G.entry l p ∧ ∀ h ∈ LI.Loops, StrictlyIn G.edge G.entry l h →
        naturalLoop G.edge G.entry p ⊆ naturalLoop G.edge G.entry h
  subLoops : ∀ l ∈ LI.Loops, (LI.SubLoops l).Nodup ∧
    ∀ c, c ∈ LI.SubLoops l ↔ c ∈ LI.Loops ∧ LI.ParentLoop c = some l
  topLevelLoops : LI.TopLevelLoops.Nodup ∧
    ∀ c, c ∈ LI.TopLevelLoops ↔ c ∈ LI.Loops ∧ LI.ParentLoop c = none

omit [Fintype V] [DecidableEq V] in
theorem Mapped.findsNaturalLoops {done : List V}
    (hm : Mapped G (Reachable G.edge G.entry) LI₀) (hsame : SameLoops LI₀ LI)
    (hdone : ∀ b, b ∈ done ↔ Reachable G.edge G.entry b) (hblocks : HasBlocks G LI₀ done LI)
    (hs : HasSubLoops LI₀ done LI) : FindsNaturalLoops G LI := by
  have hheaders : ∀ l, l ∈ LI.Loops ↔ G.IsHeader l := fun l => by
    rw [hsame.loops, hm.mem_loops]
    exact and_iff_right_of_imp fun hl => hl.reachable
  have hsubset : ∀ {l m}, G.InLoop m l →
      naturalLoop G.edge G.entry l ⊆ naturalLoop G.edge G.entry m := fun hin b hb => hin.subset hb
  have hmem : ∀ {c o}, c ∈ done ∧ c ∈ LI₀.Loops ∧ LI₀.ParentLoop c = o ↔
      c ∈ LI.Loops ∧ LI.ParentLoop c = o := by
    intro c o
    rw [hsame.loops, hsame.parent]
    exact and_iff_right_of_imp fun hc => (hdone c).mpr ((hm.mem_loops c).mp hc.1).1
  refine ⟨hsame.loops ▸ hm.loops_nodup, fun h => ?_, fun h hh => ?_, fun b hmap h _ => ?_,
    fun b l hmap => ?_, fun l hl hparent h _ => ?_, fun l hl p hparent => ?_, fun l hl => ?_,
    hs.top_nodup, fun c => (hs.mem_top c).trans hmem⟩
  · rw [hheaders]
    constructor
    · rintro ⟨p, hp⟩
      exact ⟨p, (G.mem_preds p h).mpr hp.back, hp.reachable, hp.dominated⟩
    · rintro ⟨p, hp, hreach, hdom⟩
      exact ⟨p, (G.mem_preds p h).mp hp, hreach, hdom⟩
  · obtain ⟨rest, hrest, hnodup, hrestmem⟩ := hblocks h (hsame.loops ▸ hh)
    refine ⟨rest, hrest, nodup_cons.mpr ⟨fun hmem' => ?_, hnodup⟩, fun b => ?_⟩
    · exact ((hrestmem h).mp hmem').2.2 rfl
    · rw [mem_cons, hrestmem, hdone]
      constructor
      · rintro (rfl | ⟨-, hin, -⟩)
        · exact ((hheaders b).mp hh).inLoop
        · exact hin
      · intro hin
        by_cases hbh : b = h
        · exact .inl hbh
        · exact .inr ⟨hin.reachable, hin, fun heq => hbh heq.symm⟩
  · have hinner := hm.map b
    rw [← hsame.map, show LI.BBMap b = none from hmap] at hinner
    exact fun hin => hinner h hin.header.reachable hin
  · have hinner := hm.map b
    rw [← hsame.map, show LI.BBMap b = some l from hmap] at hinner
    exact ⟨(hheaders l).mpr hinner.2.1.header, hinner.2.1, fun h _ hin =>
      hsubset (hinner.2.2 h hin.header.reachable hin)⟩
  · have hlheader := (hheaders l).mp hl
    have hinner := hm.parent l hlheader.reachable hlheader
    rw [← hsame.parent, hparent] at hinner
    rw [strictlyIn_iff hlheader]
    exact fun ⟨hin, hne⟩ => hinner h ⟨hin.header.reachable, hne⟩ hin
  · have hlheader := (hheaders l).mp hl
    have hinner := hm.parent l hlheader.reachable hlheader
    rw [← hsame.parent, hparent] at hinner
    obtain ⟨⟨-, hne⟩, hin, hall⟩ := hinner
    refine ⟨(hheaders p).mpr hin.header, (strictlyIn_iff hlheader).mpr ⟨hin, hne⟩,
      fun h _ hss => ?_⟩
    obtain ⟨hhl, hne'⟩ := (strictlyIn_iff hlheader).mp hss
    exact hsubset (hall h ⟨hhl.header.reachable, hne'⟩ hhl)
  · have hl₀ : l ∈ LI₀.Loops := hsame.loops ▸ hl
    exact ⟨hs.nodup l hl₀, fun c => (hs.mem l hl₀ c).trans hmem⟩

/-- The analysis ends with the natural loops of the graph. -/
theorem analyze_naturalLoops (T : DomTree G) :
    ∃ LI, analyze T = some LI ∧ FindsNaturalLoops G LI := by
  obtain ⟨LI₀, hdiscovered, hm⟩ := discovered T
  obtain ⟨hnodup, hmem, -⟩ := post_order_spec G.succs G.entry
  have hnodup' : ([] ++ post_order G.succs G.entry).Nodup := hnodup
  have hblocks : HasBlocks G LI₀ [] LI₀ := fun l hl =>
    ⟨[], hm.blocks l hl, nodup_nil, by simp⟩
  have hs : HasSubLoops LI₀ [] LI₀ :=
    ⟨fun l hl => by rw [hm.subLoops l hl]; exact nodup_nil,
      fun l hl c => by rw [hm.subLoops l hl]; simp,
      by rw [hm.topLevelLoops]; exact nodup_nil, fun c => by rw [hm.topLevelLoops]; simp⟩
  obtain ⟨LI, hrun, hsame, hblocks', hs'⟩ :=
    insertIntoLoops_spec hm ⟨rfl, rfl, rfl⟩ hnodup' hblocks hs
  refine ⟨LI, ?_, hm.findsNaturalLoops hsame hmem hblocks' hs'⟩
  unfold analyze traverse
  rw [hdiscovered]
  exact hrun

/-! ## Depths -/

theorem analyzed (T : DomTree G) : ∃ LI₀ LI, analyze T = some LI ∧
    Mapped G (Reachable G.edge G.entry) LI₀ ∧ SameLoops LI₀ LI := by
  obtain ⟨LI₀, hdiscovered, hm⟩ := discovered T
  have hblocks : HasBlocks G LI₀ [] LI₀ := fun l hl =>
    ⟨[], hm.blocks l hl, nodup_nil, by simp⟩
  have hs : HasSubLoops LI₀ [] LI₀ :=
    ⟨fun l hl => by rw [hm.subLoops l hl]; exact nodup_nil,
      fun l hl c => by rw [hm.subLoops l hl]; simp,
      by rw [hm.topLevelLoops]; exact nodup_nil, fun c => by rw [hm.topLevelLoops]; simp⟩
  obtain ⟨LI, hrun, hsame, -⟩ := insertIntoLoops_spec hm ⟨rfl, rfl, rfl⟩
    (post_order_spec G.succs G.entry).1 hblocks hs
  refine ⟨LI₀, LI, ?_, hm, hsame⟩
  unfold analyze traverse
  rw [hdiscovered]
  exact hrun

variable {o : Option V} {n : Nat}

omit [DecidableEq V] in
theorem Mapped.parent_rank (hm : Mapped G (Reachable G.edge G.entry) LI) {l p : V}
    (hl : G.IsHeader l) (hrank : rank G.edge G.entry l ≤ n + 1) (hp : p ∈ LI.ParentLoop l) :
    G.IsHeader p ∧ rank G.edge G.entry p ≤ n := by
  have hlt := hm.nested.rank_lt hl hp
  exact ⟨((hm.nested l hl).2 p hp).1, by omega⟩

omit [DecidableEq V] in
theorem depthLoop_spec (hm : Mapped G (Reachable G.edge G.entry) LI₀) (hsame : SameLoops LI₀ LI)
    (D : Nat) (ho : ∀ l ∈ o, G.IsHeader l ∧ rank G.edge G.entry l ≤ n) :
    LI.depthLoop n o D = some (D + Set.ncard {m | ∃ l ∈ o, G.InLoop m l}) := by
  induction n generalizing o D with
  | zero =>
    cases o with
    | none => simp [LoopInfo.depthLoop]
    | some l => exact absurd (ho l rfl).2 (Nat.not_le.mpr (rank_pos l))
  | succ n ih =>
    cases o with
    | none => simp [LoopInfo.depthLoop]
    | some l =>
      obtain ⟨hl, hrank⟩ := ho l rfl
      have hparent (m : V) := hm.inLoop_iff_parent (m := m) hl
      have hsplit : {m | ∃ l' ∈ some l, G.InLoop m l'} =
          insert l {m | ∃ p ∈ LI₀.ParentLoop l, G.InLoop m p} := by
        ext m
        constructor
        · rintro ⟨_, ⟨⟩, hin⟩
          exact or_iff_not_imp_left.mpr fun hne => (hparent m).mp ⟨hin, hne⟩
        · rintro (rfl | hin)
          · exact ⟨m, rfl, hl.inLoop⟩
          · exact ⟨l, rfl, ((hparent m).mpr hin).1⟩
      have hnew : l ∉ {m | ∃ p ∈ LI₀.ParentLoop l, G.InLoop m p} :=
        fun hmem => ((hparent l).mpr hmem).2 rfl
      rw [hsplit, Set.ncard_insert_of_notMem hnew (Set.toFinite _), LoopInfo.depthLoop,
        hsame.parent, ih (D + 1) fun p hp => hm.parent_rank hl hrank hp]
      congr 1
      omega

theorem contains_spec (hm : Mapped G (Reachable G.edge G.entry) LI₀) (hsame : SameLoops LI₀ LI)
    {h : V} (ho : ∀ l ∈ o, G.IsHeader l ∧ rank G.edge G.entry l ≤ n) :
    ∃ r, LI.contains h n o = some r ∧ (r = true ↔ ∃ l ∈ o, G.InLoop h l) := by
  induction n generalizing o with
  | zero =>
    cases o with
    | none => exact ⟨false, rfl, by simp⟩
    | some l => exact absurd (ho l rfl).2 (Nat.not_le.mpr (rank_pos l))
  | succ n ih =>
    cases o with
    | none => exact ⟨false, rfl, by simp⟩
    | some l =>
      obtain ⟨hl, hrank⟩ := ho l rfl
      unfold LoopInfo.contains
      by_cases heq : l = h
      · subst heq
        exact ⟨true, if_pos rfl, by simpa using hl.inLoop⟩
      · obtain ⟨r, hrun, hr⟩ := ih (o := LI₀.ParentLoop l) fun p hp => hm.parent_rank hl hrank hp
        refine ⟨r, (if_neg heq).trans (hsame.parent ▸ hrun), hr.trans ?_⟩
        rw [← hm.inLoop_iff_parent hl]
        simp [Ne.symm heq]

/-- The depth of a block is the number of the natural loops around it, and a loop contains another
one exactly if its blocks include those of the other. -/
theorem analyze_depths (T : DomTree G) : ∃ LI, analyze T = some LI ∧
    (∀ b, LI.getLoopDepth (Fintype.card V) b =
      some (Set.ncard {h | b ∈ naturalLoop G.edge G.entry h})) ∧
    ∀ l m, G.IsHeader m → ∃ r, LI.contains l (Fintype.card V) (some m) = some r ∧
      (r = true ↔ naturalLoop G.edge G.entry m ⊆ naturalLoop G.edge G.entry l) := by
  obtain ⟨LI₀, LI, hrun, hm, hsame⟩ := analyzed T
  refine ⟨LI, hrun, fun b => ?_, fun l m hheader => ?_⟩
  · have hset : {h | b ∈ naturalLoop G.edge G.entry h} =
        {h | ∃ l ∈ LI₀.BBMap b, G.InLoop h l} := Set.ext fun h => hm.inLoop_iff_map
    rw [hset, LoopInfo.getLoopDepth, LoopInfo.getLoopFor, hsame.map]
    have hinner := hm.map b
    cases hmap : LI₀.BBMap b with
    | none => simp
    | some l =>
      rw [hmap] at hinner
      have hdepth := depthLoop_spec (o := some l) (n := Fintype.card V + 1) hm hsame 0 (by
        rintro _ ⟨⟩
        exact ⟨hinner.2.1.header, Nat.le_succ_of_le (rank_le l)⟩)
      rwa [Nat.zero_add] at hdepth
  · obtain ⟨r, hcontains, hr⟩ := contains_spec (o := some m) (h := l) (n := Fintype.card V) hm
      hsame (by
        rintro _ ⟨⟩
        exact ⟨hheader, rank_le m⟩)
    refine ⟨r, hcontains, hr.trans ⟨?_, fun hsub => ⟨m, rfl, hsub hheader.inLoop⟩⟩⟩
    rintro ⟨_, ⟨⟩, hin⟩ b hb
    exact hin.subset hb

end Zapcc.Analysis
