import Mathlib.Data.Set.Card
import Zapcc.ADT.SCCInvariant

/-!
# The enumeration of the components

A node that is popped either belongs to the component of a node below it, or it is the root of a
complete component (`Inv.pop_inner`, `Inv.pop_root`). So each step of the iterator yields the
next component of the reachable nodes, until none is left (`enumerates_components`).
-/

namespace Zapcc.ADT.SccIterator

open Components List Relation

variable {V : Type*} {children : V → List V} {entryN : V} {it : SccIterator V}

/-! ## Popping a node -/

theorem Inv.pop_inner (h : Inv children entryN it) {n : V} {m : VisitNum}
    {rest : List (StackElement V)} (hstack : it.VisitStack = ⟨n, [], m⟩ :: rest)
    (hm : it.nodeVisitNumbers n ≠ some m) :
    Inv children entryN { it with VisitStack := propagate m rest } := by
  obtain ⟨B, S, hS, hpart, hrest⟩ := h.cases_top hstack
  have hfall := hS ▸ h.falling
  have hpair := hS ▸ h.path
  obtain ⟨x, hx, hnum, hpath⟩ := hpart.low
  have hxS : x ∈ S := by
    refine (mem_cons.mp hx).resolve_left fun heq => hm ?_
    rw [← hnum, heq]
  refine ⟨h.active, h.bound, h.falling, h.path, ?_, h.closed, h.reached, h.entry⟩
  rw [hS]
  -- the node of the minimum also reaches a frame of the rest
  obtain ⟨gx, hgx, hxg⟩ := hrest.back hxS
  cases hrest with
  | nil => simp at hxS
  | @cons f fs B' S' hpart' hrest' =>
    have hfall' : Falling it.nodeVisitNumbers (B' ++ f.Node :: S') :=
      (pairwise_cons.mp (pairwise_append.mp hfall).2.1).2
    let min : VisitNum := if f.MinVisited > m then m else f.MinVisited
    have hlem : min ≤ m := by
      show (if f.MinVisited > m then m else f.MinVisited) ≤ m
      split
      · exact le_refl m
      · exact not_lt.mp ‹_›
    have hlef : min ≤ f.MinVisited := by
      show (if f.MinVisited > m then m else f.MinVisited) ≤ f.MinVisited
      split
      · exact le_of_lt ‹_›
      · exact le_refl _
    have hnode : Path children f.Node n :=
      (pairwise_cons.mp (pairwise_append.mp hpair).2.1).1 _ (by simp)
    rw [← cons_append, ← append_assoc]
    obtain ⟨done, hdone, habove⟩ := hpart.followed
    obtain ⟨done', hdone', habove'⟩ := hpart'.followed
    refine .cons (f := ⟨f.Node, f.NextChild, min⟩) ⟨?_, ?_, ?_, ?_⟩ hrest'
    · intro v hv w hw
      rcases mem_append.mp hv with hv | hv
      · exact (hpart.edges v hv w hw).mono_min hlem
      · rcases mem_cons.mp hv with rfl | hv
        · refine (habove w ?_).mono_min hlem
          simpa [show children v = _ from hdone] using hw
        · exact (hpart'.edges v hv w hw).mono_min hlef
    · have hframe : ∀ g ∈ f :: fs, ∃ g' ∈ (⟨f.Node, f.NextChild, min⟩ : StackElement V) :: fs,
          g'.Node = g.Node := by
        intro g hg
        rcases mem_cons.mp hg with rfl | hg
        · exact ⟨_, mem_cons_self, rfl⟩
        · exact ⟨g, mem_cons_of_mem _ hg, rfl⟩
      have hmove : ∀ v, (∃ g ∈ f :: fs, Path children v g.Node) →
          ∃ g ∈ (⟨f.Node, f.NextChild, min⟩ : StackElement V) :: fs, Path children v g.Node := by
        rintro v ⟨g, hg, hpath⟩
        obtain ⟨g', hg', heq⟩ := hframe g hg
        exact ⟨g', hg', heq ▸ hpath⟩
      have hback : ∀ v, Path children v n → ∃ g ∈ f :: fs, Path children v g.Node :=
        fun v hv => ⟨gx, hgx, (hv.trans hpath).trans hxg⟩
      intro v hv
      rcases mem_append.mp hv with hv | hv
      · obtain ⟨g, hg, hvg⟩ := hpart.back v hv
        rcases mem_cons.mp hg with rfl | hg
        · exact hmove v (hback v hvg)
        · exact hmove v ⟨g, hg, hvg⟩
      · rcases mem_cons.mp hv with rfl | hv
        · exact hmove v (hback v .refl)
        · exact hmove v (hpart'.back v hv)
    · refine ⟨done', hdone', fun w hw => (habove' w hw).mono_min hlef⟩
    · by_cases hlt : f.MinVisited > m
      · have hmin : min = m := if_pos hlt
        refine ⟨x, ?_, by rw [hmin]; exact hnum, hnode.trans hpath⟩
        refine (mem_append.mp hxS).resolve_left fun hB => ?_
        obtain ⟨a, ha, -⟩ := h.number (v := f.Node) (by simp [hS])
        have hless := hfall'.lt_of_above hB ha hnum
        exact absurd (hpart'.min_le hfall' ha) (not_le.mpr (hless.trans hlt))
      · have hmin : min = f.MinVisited := if_neg hlt
        rw [hmin]
        exact hpart'.low

theorem Inv.propagate_root (h : Inv children entryN it) {n : V} {m : VisitNum}
    {rest : List (StackElement V)} (hstack : it.VisitStack = ⟨n, [], m⟩ :: rest)
    (hm : it.nodeVisitNumbers n = some m) : propagate m rest = rest := by
  obtain ⟨B, S, hS, -, hrest⟩ := h.cases_top hstack
  have hfall := hS ▸ h.falling
  cases hrest with
  | nil => rfl
  | @cons f fs B' S' hpart' _ =>
    have hfall' : Falling it.nodeVisitNumbers (B' ++ f.Node :: S') :=
      (pairwise_cons.mp (pairwise_append.mp hfall).2.1).2
    obtain ⟨a, ha, -⟩ := h.number (v := f.Node) (by simp [hS])
    have hless : WithTop.some a < m := hfall.lt_of_below (by simp) ha hm
    have hle : ¬f.MinVisited > m := not_lt.mpr ((hpart'.min_le hfall' ha).trans hless.le)
    show ⟨f.Node, f.NextChild, if f.MinVisited > m then m else f.MinVisited⟩ :: fs = f :: fs
    rw [if_neg hle]

/-! ## A complete component

A root `n` with the nodes `B` above it on the component stack, where `S` is below it. -/

section Root

variable {n : V} {m : VisitNum} {rest : List (StackElement V)} {B S : List V}

theorem Inv.root_disjoint (h : Inv children entryN it) (hS : it.SCCNodeStack = B ++ n :: S) :
    (B ++ [n]).Nodup ∧ n ∉ B ∧ ∀ v ∈ B ++ [n], v ∉ S := by
  have hnd : (B ++ n :: S).Nodup := hS ▸ h.nodup
  have hn : n ∉ B := fun hn => (nodup_append'.mp hnd).2.2 hn mem_cons_self
  rw [← singleton_append, ← append_assoc, nodup_append'] at hnd
  exact ⟨hnd.1, hn, fun v hv => hnd.2.2 hv⟩

theorem Inv.root_fresh (h : Inv children entryN it) {v : V} (hv : v ∈ it.SCCNodeStack) :
    it.nodeVisitNumbers v ≠ some ⊤ := by
  intro htop
  obtain ⟨a, ha, -⟩ := h.number hv
  exact WithTop.coe_ne_top (Option.some.inj (ha.symm.trans htop))

theorem Inv.root_leave (h : Inv children entryN it) (hS : it.SCCNodeStack = B ++ n :: S)
    (hpart : Part children it.nodeVisitNumbers ⟨n, [], m⟩ rest B S)
    (hm : it.nodeVisitNumbers n = some m) :
    ∀ u ∈ B ++ [n], ∀ w, w ∈ children u → w ∈ B ++ [n] ∨ it.nodeVisitNumbers w = some ⊤ := by
  intro u hu w hw
  have hfall := hS ▸ h.falling
  have habove : Above it.nodeVisitNumbers m w := by
    rcases mem_append.mp hu with hu | hu
    · exact hpart.edges u hu w hw
    · obtain rfl := mem_singleton.mp hu
      obtain ⟨done, hdone, habove⟩ := hpart.followed
      exact habove w (by simpa [show children u = _ from hdone] using hw)
  obtain ⟨k, hk, hmk⟩ := habove
  rcases h.complete_or_active (v := w) (by simp [hk]) with htop | hact
  · exact .inr htop
  · rw [hS, ← singleton_append, ← append_assoc] at hact
    refine .inl ((mem_append.mp hact).resolve_right fun hwS => ?_)
    exact absurd (hfall.lt_of_below hwS hk hm) (not_lt.mpr hmk)

theorem Inv.root_component (h : Inv children entryN it) (hS : it.SCCNodeStack = B ++ n :: S)
    (hpart : Part children it.nodeVisitNumbers ⟨n, [], m⟩ rest B S)
    (hrest : Frames children it.nodeVisitNumbers rest S)
    (hm : it.nodeVisitNumbers n = some m) :
    IsComponent (fun u v => v ∈ children u) (B ++ [n]) := by
  have hpair := hS ▸ h.path
  have hleave := h.root_leave hS hpart hm
  have hclosed : ∀ x y, (x ∈ B ++ [n] ∨ it.nodeVisitNumbers x = some ⊤) → y ∈ children x →
      y ∈ B ++ [n] ∨ it.nodeVisitNumbers y = some ⊤ := by
    rintro x y (hx | hx) hedge
    · exact hleave x hx y hedge
    · exact .inr (h.closed x y hx hedge)
  refine isComponent_of_root (D := fun v => it.nodeVisitNumbers v = some ⊤) (r := n) (by simp)
    (fun v hv => ?_) (fun v hv => ?_) (fun u v hu hedge => h.closed u v hu hedge)
    (fun v hv => h.root_fresh ?_) hleave
  · rcases mem_append.mp hv with hv | hv
    · exact (pairwise_append.mp hpair).2.2 v hv n (by simp)
    · rw [mem_singleton.mp hv]
  · rcases mem_append.mp hv with hvB | hvn
    · obtain ⟨g, hg, hpath⟩ := hpart.back v hvB
      rcases mem_cons.mp hg with rfl | hg
      · exact hpath
      · have hgS := hrest.mem hg
        rcases hpath.closed hclosed (.inl hv) with hgC | hgD
        · exact absurd hgS ((h.root_disjoint hS).2.2 _ hgC)
        · exact absurd hgD (h.root_fresh (by rw [hS]; simp [hgS]))
    · rw [mem_singleton.mp hvn]
  · rw [hS]
    rcases mem_append.mp hv with hv | hv
    · exact mem_append_left _ hv
    · simp [mem_singleton.mp hv]

variable [DecidableEq V]

/-- The numbers after the nodes of a root are complete. -/
def completed (N : V → Option VisitNum) (C : List V) : V → Option VisitNum :=
  fun M => if M ∈ C then some ⊤ else N M

theorem completed_of_mem {N : V → Option VisitNum} {C : List V} {v : V} (hv : v ∈ C) :
    completed N C v = some ⊤ := if_pos hv

theorem completed_of_notMem {N : V → Option VisitNum} {C : List V} {v : V} (hv : v ∉ C) :
    completed N C v = N v := if_neg hv

theorem completed_eq_top {N : V → Option VisitNum} {C : List V} {v : V} :
    completed N C v = some ⊤ ↔ N v = some ⊤ ∨ v ∈ C := by
  by_cases hv : v ∈ C
  · simp only [completed_of_mem hv, hv, or_true]
  · simp only [completed_of_notMem hv, hv, or_false]

theorem Inv.pop_nodes (h : Inv children entryN it) (hS : it.SCCNodeStack = B ++ n :: S)
    (hpart : Part children it.nodeVisitNumbers ⟨n, [], m⟩ rest B S)
    (hrest : Frames children it.nodeVisitNumbers rest S)
    (hm : it.nodeVisitNumbers n = some m) :
    Inv children entryN
      ⟨it.visitNum, completed it.nodeVisitNumbers (B ++ [n]), S, it.CurrentSCC ++ (B ++ [n]),
        rest⟩ := by
  have hfall := hS ▸ h.falling
  have hleave := h.root_leave hS hpart hm
  obtain ⟨-, -, hdisj⟩ := h.root_disjoint hS
  have hsplit : it.SCCNodeStack = B ++ [n] ++ S := by simp [hS]
  have hstays : ∀ v ∈ S, completed it.nodeVisitNumbers (B ++ [n]) v = it.nodeVisitNumbers v :=
    fun v hv => completed_of_notMem fun hvC => hdisj v hvC hv
  refine ⟨fun v => ?_, fun v a ha => ?_, ?_, ?_, ?_, fun v w hv hw => ?_, fun v hv => ?_, ?_⟩
  · by_cases hv : v ∈ B ++ [n]
    · refine iff_of_false (hdisj v hv) ?_
      rintro ⟨a, ha⟩
      exact WithTop.coe_ne_top (Option.some.inj (ha.symm.trans (completed_of_mem hv)))
    · show v ∈ S ↔ ∃ a : Nat, completed it.nodeVisitNumbers (B ++ [n]) v = some (WithTop.some a)
      rw [completed_of_notMem hv, ← h.active, hsplit, mem_append, or_iff_right hv]
  · by_cases hv : v ∈ B ++ [n]
    · exact absurd (Option.some.inj (ha.symm.trans (completed_of_mem hv))) WithTop.coe_ne_top
    · exact h.bound v a ((completed_of_notMem hv).symm.trans ha)
  · refine (Pairwise.and_mem.mp (pairwise_cons.mp (pairwise_append.mp hfall).2.1).2).imp ?_
    rintro v u ⟨hv, hu, hless⟩ b c hb hc
    exact hless b c ((hstays u hu).symm.trans hb) ((hstays v hv).symm.trans hc)
  · exact (pairwise_cons.mp (pairwise_append.mp (hS ▸ h.path)).2.1).2
  · refine hrest.grow (fun w k hk => ?_) hstays
    by_cases hw : w ∈ B ++ [n]
    · exact ⟨⊤, completed_of_mem hw, le_top⟩
    · exact ⟨k, (completed_of_notMem hw).trans hk, le_refl k⟩
  · refine completed_eq_top.mpr ?_
    rcases completed_eq_top.mp hv with hv | hv
    · exact .inl (h.closed v w hv hw)
    · exact (hleave v hv w hw).symm
  · by_cases hvC : v ∈ B ++ [n]
    · obtain ⟨a, ha, -⟩ := h.number (v := v) (by rw [hsplit]; exact mem_append_left _ hvC)
      exact h.reached v (by simp [ha])
    · exact h.reached v fun hnone => hv ((completed_of_notMem hvC).trans hnone)
  · show completed it.nodeVisitNumbers (B ++ [n]) entryN ≠ none
    by_cases hvC : entryN ∈ B ++ [n]
    · simp [completed_of_mem hvC]
    · rw [completed_of_notMem hvC]
      exact h.entry

end Root

variable [DecidableEq V]

theorem popSCC_eq {n : V} {B S : List V} (hn : n ∉ B) (it : SccIterator V) :
    popSCC n (B ++ n :: S) it =
      some { it with
        nodeVisitNumbers := completed it.nodeVisitNumbers (B ++ [n])
        CurrentSCC := it.CurrentSCC ++ (B ++ [n])
        SCCNodeStack := S } := by
  induction B generalizing it with
  | nil =>
    rw [nil_append, popSCC, if_neg (by simp)]
    have hnum : (it.setNumber n ⊤).nodeVisitNumbers = completed it.nodeVisitNumbers [n] := by
      funext M
      simp [setNumber, completed]
    rw [nil_append, ← hnum]
    rfl
  | cons v B ih =>
    have hne : v ≠ n := fun heq => hn (heq ▸ mem_cons_self)
    rw [cons_append, popSCC]
    simp only [hne, ne_eq, not_false_eq_true, if_true]
    rw [ih fun hmem => hn (mem_cons_of_mem v hmem)]
    congr 2
    · funext M
      simp only [completed, setNumber, cons_append, mem_cons]
      by_cases hB : M ∈ B ++ [n] <;> by_cases hv : M = v <;> simp [hB, hv]
    · simp

/-- What a step of the iterator does to the complete nodes. -/
structure Completes (children : V → List V) (it it' : SccIterator V) (C : List V) : Prop where
  component : IsComponent (fun u v => v ∈ children u) C
  nodup : C.Nodup
  fresh : ∀ v ∈ C, it.nodeVisitNumbers v ≠ some ⊤
  complete : ∀ v, it'.nodeVisitNumbers v = some ⊤ ↔ it.nodeVisitNumbers v = some ⊤ ∨ v ∈ C
  current : it'.CurrentSCC = it.CurrentSCC ++ C

theorem Inv.pop_root (h : Inv children entryN it) {n : V} {m : VisitNum}
    {rest : List (StackElement V)} (hstack : it.VisitStack = ⟨n, [], m⟩ :: rest)
    (hm : it.nodeVisitNumbers n = some m) :
    ∃ it' C, popSCC n it.SCCNodeStack { it with VisitStack := propagate m rest } = some it' ∧
      Completes children it it' C ∧ Inv children entryN it' := by
  obtain ⟨B, S, hS, hpart, hrest⟩ := h.cases_top hstack
  obtain ⟨hnd, hn, -⟩ := h.root_disjoint hS
  rw [h.propagate_root hstack hm, hS, popSCC_eq hn]
  refine ⟨_, B ++ [n], rfl, ⟨h.root_component hS hpart hrest hm, hnd, fun v hv => ?_,
    fun v => completed_eq_top, rfl⟩, h.pop_nodes hS hpart hrest hm⟩
  refine h.root_fresh ?_
  rw [hS, ← singleton_append, ← append_assoc]
  exact mem_append_left _ hv

/-! ## The steps of the iterator -/

variable [Fintype V]

/-- Nothing is left to yield: the visit stack is empty. -/
structure Finished (it it' : SccIterator V) : Prop where
  stack : it'.VisitStack = []
  complete : ∀ v, it'.nodeVisitNumbers v = some ⊤ ↔ it.nodeVisitNumbers v = some ⊤
  current : it'.CurrentSCC = it.CurrentSCC

theorem Inv.popLeaves (h : Inv children entryN it) :
    ∃ it', popLeaves children it = some it' ∧ Inv children entryN it' ∧
      (Finished it it' ∨ ∃ C, Completes children it it' C) := by
  fun_induction SccIterator.popLeaves children it with
  | case1 it hempty => exact ⟨it, rfl, h, .inl ⟨hempty, fun v => .rfl, rfl⟩⟩
  | case2 it hne hstack =>
    obtain ⟨-, ⟨Node, m, rest, htop⟩, -⟩ := h.DFSVisitChildren hne
    simp [hstack] at htop
  | case3 it hne n left m rest hstack popped hm ih =>
    obtain ⟨hinv, ⟨Node, m', rest', htop⟩, hcur, hsame⟩ := h.DFSVisitChildren hne
    obtain ⟨⟨rfl, rfl, rfl⟩, rfl⟩ : (n = Node ∧ left = [] ∧ m = m') ∧ rest = rest' := by
      simpa [hstack] using htop
    have hinv' : Inv children entryN popped :=
      hinv.pop_inner hstack fun heq => hm (by simp [popped, heq])
    obtain ⟨it', heq, hinv'', hstep⟩ := ih hinv'
    refine ⟨it', heq, hinv'', ?_⟩
    rcases hstep with ⟨hs, hc, hcurr⟩ | ⟨C, hcomp, hnd, hfresh, hcomplete, hcurr⟩
    · exact .inl ⟨hs, fun v => (hc v).trans (hsame v), hcurr.trans hcur⟩
    · refine .inr ⟨C, hcomp, hnd, fun v hv htop => hfresh v hv ((hsame v).mpr htop),
        fun v => (hcomplete v).trans (or_congr (hsame v) .rfl), hcurr.trans ?_⟩
      exact congrArg (· ++ C) hcur
  | case4 it hne n left m rest hstack popped hm =>
    obtain ⟨hinv, ⟨Node, m', rest', htop⟩, hcur, hsame⟩ := h.DFSVisitChildren hne
    obtain ⟨⟨rfl, rfl, rfl⟩, rfl⟩ : (n = Node ∧ left = [] ∧ m = m') ∧ rest = rest' := by
      simpa [hstack] using htop
    have hn : n ∈ (it.DFSVisitChildren children).SCCNodeStack :=
      hinv.frames.mem (g := ⟨n, [], m⟩) (by simp [hstack])
    obtain ⟨a, ha, -⟩ := hinv.number hn
    have hroot : (it.DFSVisitChildren children).nodeVisitNumbers n = some m := by
      have hma : m = WithTop.some a := by simpa [popped, ha] using hm
      rw [ha, hma]
    obtain ⟨it', C, hpop, ⟨hcomp, hnd, hfresh, hcomplete, hcurr⟩, hinv'⟩ :=
      hinv.pop_root hstack hroot
    refine ⟨it', hpop, hinv', .inr ⟨C, hcomp, hnd,
      fun v hv htop => hfresh v hv ((hsame v).mpr htop),
      fun v => (hcomplete v).trans (or_congr (hsame v) .rfl), hcurr.trans ?_⟩⟩
    exact congrArg (· ++ C) hcur

/-! ## The whole enumeration -/

/-- An iterator after a step, where `D` are the nodes that were complete before. -/
structure Yielded (children : V → List V) (entryN : V) (D : V → Prop) (it : SccIterator V) :
    Prop where
  inv : Inv children entryN it
  step : (it.VisitStack = [] ∧ it.CurrentSCC = [] ∧ ∀ v, it.nodeVisitNumbers v = some ⊤ ↔ D v) ∨
    (IsComponent (fun u v => v ∈ children u) it.CurrentSCC ∧ it.CurrentSCC.Nodup ∧
      (∀ v ∈ it.CurrentSCC, ¬D v) ∧
      ∀ v, it.nodeVisitNumbers v = some ⊤ ↔ D v ∨ v ∈ it.CurrentSCC)

theorem Inv.GetNextSCC (h : Inv children entryN it) :
    ∃ it', GetNextSCC children it = some it' ∧
      Yielded children entryN (fun v => it.nodeVisitNumbers v = some ⊤) it' := by
  have hclear : Inv children entryN { it with CurrentSCC := [] } :=
    ⟨h.active, h.bound, h.falling, h.path, h.frames, h.closed, h.reached, h.entry⟩
  obtain ⟨it', heq, hinv, hstep⟩ := hclear.popLeaves
  refine ⟨it', heq, hinv, ?_⟩
  rcases hstep with ⟨hs, hc, hcur⟩ | ⟨C, hcomp, hnd, hfresh, hcomplete, hcur⟩
  · exact .inl ⟨hs, hcur, hc⟩
  · obtain rfl : it'.CurrentSCC = C := hcur
    exact .inr ⟨hcomp, hnd, hfresh, hcomplete⟩

omit [DecidableEq V] [Fintype V] in
theorem Inv.complete_path (h : Inv children entryN it) {u v : V}
    (hu : it.nodeVisitNumbers u = some ⊤) (hpath : Path children u v) :
    it.nodeVisitNumbers v = some ⊤ :=
  hpath.closed (D := fun v => it.nodeVisitNumbers v = some ⊤)
    (fun u v hu hedge => h.closed u v hu hedge) hu

omit [DecidableEq V] [Fintype V] in
theorem Inv.complete_of_path (h : Inv children entryN it) (hempty : it.VisitStack = []) {v : V}
    (hpath : Path children entryN v) : it.nodeVisitNumbers v = some ⊤ := by
  have hS : ∀ v, v ∉ it.SCCNodeStack := by
    intro v hv
    obtain ⟨g, hg, -⟩ := h.frames.back hv
    simp [hempty] at hg
  have hentry : it.nodeVisitNumbers entryN = some ⊤ := by
    exact (h.complete_or_active h.entry).resolve_right (hS entryN)
  exact h.complete_path hentry hpath

omit [Fintype V] in
theorem hasLoop_iff (hC : IsComponent (fun u v => v ∈ children u) it.CurrentSCC)
    (hnd : it.CurrentSCC.Nodup) :
    ∃ b, it.hasLoop children = some b ∧
      (b = true ↔ ∃ v ∈ it.CurrentSCC, TransGen (fun u v => v ∈ children u) v v) := by
  unfold hasLoop
  generalize hcur : it.CurrentSCC = C at hC hnd
  match C with
  | [] => exact absurd rfl hC.nonempty
  | [N] =>
    refine ⟨_, rfl, ?_⟩
    have hedge : ((children N).any fun M => M = N) = true ↔ N ∈ children N := by simp
    rw [hedge]
    constructor
    · intro hN
      exact ⟨N, by simp, .single hN⟩
    · rintro ⟨v, hv, hcycle⟩
      obtain rfl := mem_singleton.mp hv
      exact hC.edge_of_cycle hcycle
  | u :: v :: C =>
    refine ⟨true, rfl, iff_of_true rfl ⟨u, by simp, ?_⟩⟩
    exact hC.cycle_of_ne (v := v) (by simp) (by simp) fun heq => by simp [heq] at hnd

theorem Yielded.enumerates {D : V → Prop} (h : Yielded children entryN D it) :
    ∃ its, Enumerates children it its ∧
      Decomposition (fun u v => v ∈ children u) (fun v => Path children entryN v ∧ ¬D v)
        (its.map CurrentSCC) ∧
      ∀ it' ∈ its, ∃ b, it'.hasLoop children = some b ∧ (b = true ↔
          ∃ v ∈ it'.CurrentSCC, TransGen (fun u v => v ∈ children u) v v) := by
  induction hn : Set.ncard {v | ¬D v} using Nat.strong_induction_on generalizing D it with
  | _ n ih =>
    subst hn
    rcases h.step with ⟨hempty, hcur, hD⟩ | ⟨hcomp, hnd, hfresh, hcomplete⟩
    · refine ⟨[], .atEnd (by simp [isAtEnd, hempty, hcur]), decomposition_nil ?_, by simp⟩
      rintro v ⟨hpath, hv⟩
      exact hv ((hD v).mp (h.inv.complete_of_path hempty hpath))
    · obtain ⟨it', hnext, hyield⟩ := h.inv.GetNextSCC
      have hless : Set.ncard {v | ¬it.nodeVisitNumbers v = some ⊤} < Set.ncard {v | ¬D v} := by
        obtain ⟨v, hv⟩ := exists_mem_of_ne_nil _ hcomp.nonempty
        refine Set.ncard_lt_ncard ⟨fun w hw hD => hw ((hcomplete w).mpr (.inl hD)), ?_⟩
        exact fun hsub => hsub (hfresh v hv) ((hcomplete v).mpr (.inr hv))
      obtain ⟨its, henum, hdec, hloop⟩ := ih _ hless hyield rfl
      refine ⟨it :: its, .next ?_ hnext henum, ?_, ?_⟩
      · simp [isAtEnd, hcomp.nonempty]
      · refine hdec.cons hcomp hnd (fun v => ?_) ?_
        · have hreached : v ∈ it.CurrentSCC → Path children entryN v := fun hv =>
            h.inv.reached v (by simp [(hcomplete v).mpr (.inr hv)])
          have hnew := hfresh v
          rw [hcomplete v]
          by_cases hv : v ∈ it.CurrentSCC
          · simp [hv, hreached hv, hnew hv]
          · simp [hv]
        · rintro u hu v hpath ⟨-, hv⟩
          exact hv (h.inv.complete_path ((hcomplete u).mpr (.inr hu)) hpath)
      · intro it'' hit
        rcases mem_cons.mp hit with rfl | hit
        · exact hasLoop_iff hcomp hnd
        · exact hloop it'' hit

/-- Advancing the iterator from the first component ends, the components that it yields are the
strongly connected ones of the nodes that are reached from the entry, each after those that it
reaches, and a component has a loop if it contains a cycle. -/
theorem enumerates_components (children : V → List V) (entryN : V) :
    ∃ it its, begin children entryN = some it ∧ Enumerates children it its ∧
      Decomposition (fun u v => v ∈ children u) (Path children entryN) (its.map CurrentSCC) ∧
      ∀ it' ∈ its, ∃ b, it'.hasLoop children = some b ∧ (b = true ↔
          ∃ v ∈ it'.CurrentSCC, TransGen (fun u v => v ∈ children u) v v) := by
  have hstart : Inv children entryN (start children entryN) := inv_start entryN
  obtain ⟨it, hbegin, hyield⟩ := hstart.GetNextSCC
  obtain ⟨its, henum, hdec, hloop⟩ := hyield.enumerates
  refine ⟨it, its, hbegin, henum, ⟨hdec.nodup, fun v => ?_, hdec.component, hdec.ordered⟩, hloop⟩
  rw [hdec.mem, and_iff_left]
  -- nothing is complete before the first search
  intro htop
  by_cases hv : v = entryN
  · simp [start, DFSVisitOne, setNumber] at htop
  · simp [start, DFSVisitOne, setNumber, hv] at htop

end Zapcc.ADT.SccIterator
