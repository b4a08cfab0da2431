import Mathlib.Logic.Relation
import Mathlib.Data.List.Nodup

/-!
# Strongly connected components

The components of a directed graph, in reverse topological order. A set of nodes around a root is a
component if every edge that leaves it leads to nodes that are closed under edges
(`isComponent_of_root`), and a component that only reaches outside of what a list decomposes can be
put before it (`Decomposition.cons`).
-/

namespace Zapcc.Components

open Relation List

variable {V : Type*} {E : V → V → Prop}

/-- A node is reached from another one along edges. -/
abbrev Reaches (E : V → V → Prop) : V → V → Prop := ReflTransGen E

theorem Reaches.closed {D : V → Prop} (hD : ∀ u v, D u → E u v → D v) {u v : V}
    (h : Reaches E u v) (hu : D u) : D v := by
  induction h with
  | refl => exact hu
  | tail _ hedge ih => exact hD _ _ ih hedge

/-- The nodes of a list are a strongly connected component. -/
structure IsComponent (E : V → V → Prop) (C : List V) : Prop where
  nonempty : C ≠ []
  mem : ∀ u ∈ C, ∀ v, v ∈ C ↔ Reaches E u v ∧ Reaches E v u

/-- The nodes around a root are a component if the edges that leave them lead to nodes that are
closed under edges. -/
theorem isComponent_of_root {C : List V} {D : V → Prop} {r : V} (hr : r ∈ C)
    (hfrom : ∀ v ∈ C, Reaches E r v) (hto : ∀ v ∈ C, Reaches E v r)
    (hD : ∀ u v, D u → E u v → D v) (hdisj : ∀ v ∈ C, ¬D v)
    (hleave : ∀ u ∈ C, ∀ v, E u v → v ∈ C ∨ D v) : IsComponent E C := by
  refine ⟨ne_nil_of_mem hr, fun u hu v => ⟨fun hv => ?_, fun ⟨huv, hvu⟩ => ?_⟩⟩
  · exact ⟨(hto u hu).trans (hfrom v hv), (hto v hv).trans (hfrom u hu)⟩
  · have hclosed : ∀ x y, (x ∈ C ∨ D x) → E x y → y ∈ C ∨ D y := by
      rintro x y (hx | hx) hedge
      · exact hleave x hx y hedge
      · exact .inr (hD x y hx hedge)
    rcases huv.closed hclosed (.inl hu) with hv | hv
    · exact hv
    · exact absurd (hvu.closed hD hv) (hdisj u hu)

theorem IsComponent.cycle_of_ne {C : List V} (h : IsComponent E C) {u v : V} (hu : u ∈ C)
    (hv : v ∈ C) (hne : u ≠ v) : TransGen E u u := by
  obtain ⟨huv, hvu⟩ := (h.mem u hu v).mp hv
  rcases reflTransGen_iff_eq_or_transGen.mp huv with heq | hpath
  · exact absurd heq.symm hne
  · exact hpath.trans_left hvu

theorem IsComponent.edge_of_cycle {v : V} (h : IsComponent E [v]) (hcycle : TransGen E v v) :
    E v v := by
  obtain ⟨w, hedge, hback⟩ := TransGen.head'_iff.mp hcycle
  have hw : w ∈ [v] := (h.mem v (by simp) w).mpr ⟨.single hedge, hback⟩
  rwa [mem_singleton.mp hw] at hedge

/-- A list of components holds the nodes of a set, each once, and every component comes after
those that it reaches. -/
structure Decomposition (E : V → V → Prop) (P : V → Prop) (L : List (List V)) : Prop where
  nodup : L.flatten.Nodup
  mem : ∀ v, v ∈ L.flatten ↔ P v
  component : ∀ C ∈ L, IsComponent E C
  ordered : L.Pairwise fun C D => ∀ u ∈ C, ∀ v ∈ D, ¬Reaches E u v

theorem decomposition_nil {P : V → Prop} (hP : ∀ v, ¬P v) : Decomposition E P [] :=
  ⟨by simp, by simpa using hP, by simp, .nil⟩

/-- A component that does not reach what a list decomposes can be put before it. -/
theorem Decomposition.cons {P Q : V → Prop} {L : List (List V)} (h : Decomposition E P L)
    {C : List V} (hC : IsComponent E C) (hnd : C.Nodup) (hQ : ∀ v, Q v ↔ v ∈ C ∨ P v)
    (hreach : ∀ u ∈ C, ∀ v, Reaches E u v → ¬P v) : Decomposition E Q (C :: L) := by
  refine ⟨?_, fun v => ?_, ?_, ?_⟩
  · rw [flatten_cons, nodup_append']
    refine ⟨hnd, h.nodup, fun v hv hL => ?_⟩
    exact hreach v hv v .refl ((h.mem v).mp hL)
  · rw [flatten_cons, mem_append, hQ, h.mem]
  · simpa using ⟨hC, h.component⟩
  · refine pairwise_cons.mpr ⟨fun D hD u hu v hv huv => ?_, h.ordered⟩
    exact hreach u hu v huv ((h.mem v).mp (mem_flatten.mpr ⟨D, hD, hv⟩))

end Zapcc.Components
