import Mathlib.Data.Finset.Max
import Mathlib.Data.Fintype.Card

/-!
# Dominance and natural loops

A node dominates another one when each path from the entry to it meets the node. The natural loop of
a header is what reaches, without the header, a predecessor that the header dominates. Two natural
loops are nested or disjoint.
-/

namespace Zapcc.Dominance

open Relation Finset

variable {V : Type*} {edge : V → V → Prop} {entry a b c h x y z : V} {avoid : V → Prop}

/-- There is a path on which no node is avoided. -/
inductive Around (edge : V → V → Prop) (avoid : V → Prop) : V → V → Prop where
  | refl {x : V} (hx : ¬avoid x) : Around edge avoid x x
  | step {x y z : V} (hx : ¬avoid x) (hedge : edge x y) (h : Around edge avoid y z) :
      Around edge avoid x z

abbrev Reachable (edge : V → V → Prop) (entry b : V) : Prop := ReflTransGen edge entry b

/-- Each path from the entry meets the node. -/
def Dominates (edge : V → V → Prop) (entry a b : V) : Prop := ¬Around edge (· = a) entry b

theorem Around.left (h : Around edge avoid x z) : ¬avoid x := by
  cases h with
  | refl hx | step hx => exact hx

theorem Around.right (h : Around edge avoid x z) : ¬avoid z := by
  induction h with
  | refl hx => exact hx
  | step _ _ _ ih => exact ih

theorem Around.trans (hxy : Around edge avoid x y) (hyz : Around edge avoid y z) :
    Around edge avoid x z := by
  induction hxy with
  | refl => exact hyz
  | step hx hedge _ ih => exact .step hx hedge (ih hyz)

theorem Around.reaches (h : Around edge avoid x z) : ReflTransGen edge x z := by
  induction h with
  | refl => exact .refl
  | step _ hedge _ ih => exact .head hedge ih

theorem Around.mono {avoid' : V → Prop} (h : Around edge avoid x z)
    (hle : ∀ v, avoid' v → avoid v) : Around edge avoid' x z := by
  induction h with
  | refl hx => exact .refl fun hv => hx (hle _ hv)
  | step hx hedge _ ih => exact .step (fun hv => hx (hle _ hv)) hedge ih

theorem Around.first (c : V) (h : Around edge avoid x z) :
    Around edge (fun v => avoid v ∨ v = c) x z ∨ Around edge avoid x c := by
  induction h with
  | @refl x hx =>
    by_cases heq : x = c
    · exact .inr (heq ▸ .refl hx)
    · exact .inl (.refl (not_or.mpr ⟨hx, heq⟩))
  | @step x y z hx hedge _ ih =>
    by_cases heq : x = c
    · exact .inr (heq ▸ .refl hx)
    · rcases ih with hall | hmeets
      · exact .inl (.step (not_or.mpr ⟨hx, heq⟩) hedge hall)
      · exact .inr (.step hx hedge hmeets)

theorem around_of_reaches (h : ReflTransGen edge x z) : Around edge (fun _ => False) x z := by
  induction h using ReflTransGen.head_induction_on with
  | refl => exact .refl id
  | head hedge _ ih => exact .step id hedge ih

/-- Of two nodes, a path that meets one has an end that begins at one and avoids the other. -/
theorem last_of_two (hac : a ≠ c) (h : ReflTransGen edge x b) :
    Around edge (fun v => v = a ∨ v = c) x b ∨ Around edge (· = c) a b ∨
      Around edge (· = a) c b := by
  induction h using ReflTransGen.head_induction_on with
  | refl =>
    by_cases ha : b = a
    · exact .inr (.inl (ha ▸ .refl (ha ▸ hac)))
    · by_cases hc : b = c
      · exact .inr (.inr (hc ▸ .refl (hc ▸ hac.symm)))
      · exact .inl (.refl (not_or.mpr ⟨ha, hc⟩))
  | @head x y hedge _ ih =>
    rcases ih with hboth | hsuffix
    · have hskip : ∀ d, d = a ∨ d = c → Around edge (· = d) y b := fun d hd =>
        hboth.mono fun v hv => by rw [hv]; exact hd
      by_cases ha : x = a
      · exact .inr (.inl (.step (ha ▸ hac) (ha ▸ hedge) (hskip c (.inr rfl))))
      · by_cases hc : x = c
        · exact .inr (.inr (.step (hc ▸ hac.symm) (hc ▸ hedge) (hskip a (.inl rfl))))
        · exact .inl (.step (not_or.mpr ⟨ha, hc⟩) hedge hboth)
    · exact .inr hsuffix

theorem first_of_two (hac : a ≠ c) (h : ReflTransGen edge x b) :
    Around edge (fun v => v = a ∨ v = c) x b ∨ Around edge (· = c) x a ∨
      Around edge (· = a) x c := by
  induction h using ReflTransGen.head_induction_on with
  | refl =>
    by_cases ha : b = a
    · exact .inr (.inl (ha ▸ .refl (ha ▸ hac)))
    · by_cases hc : b = c
      · exact .inr (.inr (hc ▸ .refl (hc ▸ hac.symm)))
      · exact .inl (.refl (not_or.mpr ⟨ha, hc⟩))
  | @head x y hedge _ ih =>
    by_cases ha : x = a
    · exact .inr (.inl (ha ▸ .refl (ha ▸ hac)))
    · by_cases hc : x = c
      · exact .inr (.inr (hc ▸ .refl (hc ▸ hac.symm)))
      · rcases ih with hboth | hfirst | hfirst
        · exact .inl (.step (not_or.mpr ⟨ha, hc⟩) hedge hboth)
        · exact .inr (.inl (.step hc hedge hfirst))
        · exact .inr (.inr (.step ha hedge hfirst))

theorem dominates_refl (a : V) : Dominates edge entry a a := fun h => h.right rfl

theorem Dominates.trans (hab : Dominates edge entry a b) (hbc : Dominates edge entry b c) :
    Dominates edge entry a c := by
  intro haround
  rcases haround.first b with hall | hmeets
  · exact hbc (hall.mono fun v hv => .inr hv)
  · exact hab hmeets

theorem Dominates.antisymm (hab : Dominates edge entry a b) (hba : Dominates edge entry b a)
    (hb : Reachable edge entry b) : a = b := by
  by_contra hne
  rcases first_of_two hne hb with hboth | hfirst | hfirst
  · exact hboth.right (.inr rfl)
  · exact hba hfirst
  · exact hab hfirst

theorem Dominates.around (hcb : Dominates edge entry c b) (hca : ¬Dominates edge entry c a)
    (hb : Reachable edge entry b) : Around edge (· = a) c b := by
  have hne : a ≠ c := fun heq => hca (heq ▸ dominates_refl a)
  rcases last_of_two hne hb with hboth | hlast | hlast
  · exact absurd (hboth.mono fun v hv => .inr hv) hcb
  · exact absurd ((not_not.mp hca).trans hlast) hcb
  · exact hlast

theorem Dominates.comparable (hab : Dominates edge entry a b) (hcb : Dominates edge entry c b)
    (hb : Reachable edge entry b) : Dominates edge entry a c ∨ Dominates edge entry c a := by
  by_contra hnot
  obtain ⟨hac, hca⟩ := not_or.mp hnot
  exact hab ((not_not.mp hac).trans (hcb.around hca hb))

theorem Dominates.exists_leave (hab : Dominates edge entry a b) (hne : b ≠ a)
    (hb : Reachable edge entry b) : ∃ y, edge a y ∧ Around edge (· = a) y b := by
  have hpath : ∀ {x}, ReflTransGen edge x b → Around edge (· = a) x b ∨
      ∃ y, edge a y ∧ Around edge (· = a) y b := by
    intro x hx
    induction hx using ReflTransGen.head_induction_on with
    | refl => exact .inl (.refl hne)
    | @head x y hedge _ ih =>
      rcases ih with haround | hleave
      · by_cases hxa : x = a
        · exact .inr ⟨y, hxa ▸ hedge, haround⟩
        · exact .inl (.step hxa hedge haround)
      · exact .inr hleave
  exact (hpath hb).resolve_left hab

/-- The predecessor of a header that it dominates. -/
structure Latch (edge : V → V → Prop) (entry h p : V) : Prop where
  back : edge p h
  reachable : Reachable edge entry p
  dominated : Dominates edge entry h p

/-- There is a natural loop with this header. -/
def IsHeader (edge : V → V → Prop) (entry h : V) : Prop := ∃ p, Latch edge entry h p

/-- The node is in the natural loop of the header. -/
structure InLoop (edge : V → V → Prop) (entry h b : V) : Prop where
  header : IsHeader edge entry h
  reachable : Reachable edge entry b
  around : b = h ∨ ∃ p, Latch edge entry h p ∧ Around edge (· = h) b p

theorem IsHeader.reachable (hh : IsHeader edge entry h) : Reachable edge entry h := by
  obtain ⟨p, hp⟩ := hh
  exact hp.reachable.tail hp.back

theorem IsHeader.inLoop (hh : IsHeader edge entry h) : InLoop edge entry h h :=
  ⟨hh, hh.reachable, .inl rfl⟩

theorem Latch.inLoop {p : V} (hp : Latch edge entry h p) : InLoop edge entry h p := by
  refine ⟨⟨p, hp⟩, hp.reachable, ?_⟩
  by_cases hne : p = h
  · exact .inl hne
  · exact .inr ⟨p, hp, .refl hne⟩

theorem InLoop.dominates (hb : InLoop edge entry h b) : Dominates edge entry h b := by
  rcases hb.around with rfl | ⟨p, hp, haround⟩
  · exact dominates_refl b
  · exact fun hto => hp.dominated (hto.trans haround)

theorem InLoop.pred (hy : InLoop edge entry h y) (hne : y ≠ h) (hedge : edge x y)
    (hx : Reachable edge entry x) : InLoop edge entry h x := by
  refine ⟨hy.header, hx, ?_⟩
  by_cases hxh : x = h
  · exact .inl hxh
  · obtain ⟨p, hp, haround⟩ := hy.around.resolve_left hne
    exact .inr ⟨p, hp, .step hxh hedge haround⟩

/-- Of two loops with a common node, the header that dominates the other has it in its loop. -/
theorem InLoop.inLoop_of_dominates (hb : InLoop edge entry h b) (hb' : InLoop edge entry c b)
    (hdom : Dominates edge entry h c) : InLoop edge entry h c := by
  have hc := hb'.header.reachable
  by_cases hne : c = h
  · exact ⟨hb.header, hc, .inl hne⟩
  · have hnot : ¬Dominates edge entry c h := fun hback =>
      hne (hback.antisymm hdom hb.header.reachable)
    have haround := hb'.dominates.around hnot hb.reachable
    obtain ⟨p, hp, hrest⟩ := hb.around.resolve_left fun heq => hnot (heq ▸ hb'.dominates)
    exact ⟨hb.header, hc, .inr ⟨p, hp, haround.trans hrest⟩⟩

theorem InLoop.subset (hc : InLoop edge entry h c) (hb : InLoop edge entry c b) :
    InLoop edge entry h b := by
  by_cases hne : c = h
  · exact hne ▸ hb
  · rcases hb.around with rfl | ⟨p, hp, haround⟩
    · exact hc
    · have hlatch : InLoop edge entry h p := hc.pred hne hp.back hp.reachable
      have hnot : ∀ {x}, InLoop edge entry c x → x ≠ h := fun hx heq => hne
        ((heq ▸ hx.dominates).antisymm hc.dominates hc.header.reachable)
      have hwalk : ∀ {x z}, Around edge (· = c) x z → Latch edge entry c z →
          InLoop edge entry h z → Reachable edge entry x → InLoop edge entry h x := by
        intro x z hxz hz hhz
        induction hxz with
        | refl => exact fun _ => hhz
        | @step x y z _ hedge hyz ih =>
          intro hx
          have hy := hx.tail hedge
          exact (ih hz hhz hy).pred (hnot ⟨hb.header, hy, .inr ⟨z, hz, hyz⟩⟩) hedge hx
      exact hwalk haround hp hlatch hb.reachable

/-- The number of nodes that dominate a node. -/
noncomputable def rank [Fintype V] (edge : V → V → Prop) (entry b : V) : Nat :=
  open Classical in (Finset.univ.filter (Dominates edge entry · b)).card

theorem rank_le [Fintype V] (b : V) : rank edge entry b ≤ Fintype.card V := by
  exact card_le_univ _

theorem rank_lt [Fintype V] (hab : Dominates edge entry a b) (hne : a ≠ b)
    (hb : Reachable edge entry b) : rank edge entry a < rank edge entry b := by
  classical
  refine card_lt_card ⟨fun d hd => ?_, fun hle => ?_⟩
  · have hda := (mem_filter.mp hd).2
    exact mem_filter.mpr ⟨mem_univ d, hda.trans hab⟩
  · have hmem := hle (mem_filter.mpr ⟨mem_univ b, dominates_refl b⟩)
    exact hne (hab.antisymm (mem_filter.mp hmem).2 hb)

/-- The immediate dominator of a reachable node. -/
structure IDom (edge : V → V → Prop) (entry a b : V) : Prop where
  reachable : Reachable edge entry b
  dominates : Dominates edge entry a b
  ne : a ≠ b
  nearest : ∀ d, Dominates edge entry d b → d ≠ b → Dominates edge entry d a

theorem Dominates.reachable (hab : Dominates edge entry a b) (hb : Reachable edge entry b) :
    Reachable edge entry a := by
  rcases (around_of_reaches hb).first a with hall | hmeets
  · exact absurd (hall.mono fun v hv => .inr hv) hab
  · exact hmeets.reaches

theorem exists_idom [Fintype V] (hb : Reachable edge entry b) (hne : b ≠ entry) :
    ∃ a, IDom edge entry a b := by
  classical
  let strict : Finset V := Finset.univ.filter fun a => Dominates edge entry a b ∧ a ≠ b
  have hmem : ∀ a, a ∈ strict ↔ Dominates edge entry a b ∧ a ≠ b := fun a => by simp [strict]
  have hentry : entry ∈ strict := (hmem entry).mpr ⟨fun h => h.left rfl, hne.symm⟩
  obtain ⟨a, ha, hmax⟩ := strict.exists_max_image (rank edge entry) ⟨entry, hentry⟩
  obtain ⟨hab, hane⟩ := (hmem a).mp ha
  refine ⟨a, hb, hab, hane, fun d hd hdne => ?_⟩
  rcases hd.comparable hab hb with hda | had
  · exact hda
  · by_cases heq : a = d
    · exact heq ▸ dominates_refl a
    · have hlt := rank_lt had heq (hd.reachable hb)
      exact absurd (hmax d ((hmem d).mpr ⟨hd, hdne⟩)) (Nat.not_le.mpr hlt)

def naturalLoop (edge : V → V → Prop) (entry h : V) : Set V := { b | InLoop edge entry h b }

/-- A loop is in another one that is not the same. -/
def StrictlyIn (edge : V → V → Prop) (entry c h : V) : Prop :=
  naturalLoop edge entry c ⊆ naturalLoop edge entry h ∧
    naturalLoop edge entry c ≠ naturalLoop edge entry h

theorem strictlyIn_iff (hc : IsHeader edge entry c) :
    StrictlyIn edge entry c h ↔ InLoop edge entry h c ∧ h ≠ c := by
  constructor
  · intro hss
    have hin : InLoop edge entry h c := hss.1 hc.inLoop
    exact ⟨hin, fun heq => hss.2 (heq ▸ rfl)⟩
  · rintro ⟨hin, hne⟩
    refine ⟨fun b hb => hin.subset hb, fun heq => hne ?_⟩
    have hback : InLoop edge entry c h := heq.symm.subset hin.header.inLoop
    exact hin.dominates.antisymm hback.dominates hc.reachable

/-- The innermost of some loops that contain a node. -/
def Innermost (edge : V → V → Prop) (entry : V) (P : V → Prop) (b : V) : Option V → Prop
  | none => ∀ m, P m → ¬InLoop edge entry m b
  | some l => P l ∧ InLoop edge entry l b ∧ ∀ m, P m → InLoop edge entry m b → InLoop edge entry m l

theorem Innermost.congr {P Q : V → Prop} {o : Option V} (h : Innermost edge entry P b o)
    (hPQ : ∀ m, InLoop edge entry m b → (P m ↔ Q m)) : Innermost edge entry Q b o := by
  cases o with
  | none => exact fun m hm hin => h m ((hPQ m hin).mpr hm) hin
  | some l =>
    obtain ⟨hl, hin, hall⟩ := h
    exact ⟨(hPQ l hin).mp hl, hin, fun m hm hmb => hall m ((hPQ m hmb).mpr hm) hmb⟩

/-- The loops that contain a node are the ones that contain the header of its innermost loop. -/
theorem Innermost.inLoop_iff {P : V → Prop} {l m : V} (h : Innermost edge entry P b (some l))
    (hm : P m) : InLoop edge entry m b ↔ InLoop edge entry m l :=
  ⟨h.2.2 m hm, fun hml => hml.subset h.2.1⟩

end Zapcc.Dominance
