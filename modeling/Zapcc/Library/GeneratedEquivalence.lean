import Mathlib.Logic.Relation

/-!
# Equivalences generated by pairs

One more pair joins two classes (`generated_concat_iff`).
-/

namespace Zapcc.GeneratedEquivalence

open Relation List

variable {α : Type*}

theorem eqvGen_le {r t : α → α → Prop} {x y : α} (h : ∀ x y, r x y → EqvGen t x y)
    (hxy : EqvGen r x y) : EqvGen t x y :=
  (EqvGen.is_equivalence t).eqvGen_iff.mp (EqvGen.mono h _ _ hxy)

/-- The equivalence generated by pairs. -/
def Generated (joins : List (α × α)) : α → α → Prop := EqvGen fun x y => (x, y) ∈ joins

variable {joins joins' : List (α × α)} {a b x y z : α}

theorem Generated.refl (joins : List (α × α)) (x : α) : Generated joins x x := EqvGen.refl x

theorem Generated.symm (h : Generated joins x y) : Generated joins y x := EqvGen.symm _ _ h

theorem Generated.trans (h : Generated joins x y) (h' : Generated joins y z) :
    Generated joins x z := EqvGen.trans _ _ _ h h'

theorem Generated.of_mem (h : (x, y) ∈ joins) : Generated joins x y := .rel _ _ h

theorem Generated.le (hle : ∀ x y, (x, y) ∈ joins → Generated joins' x y)
    (h : Generated joins x y) : Generated joins' x y :=
  eqvGen_le hle h

theorem generated_concat_iff :
    Generated (joins ++ [(a, b)]) x y ↔ Generated joins x y ∨
      (Generated joins x a ∧ Generated joins b y) ∨
        (Generated joins x b ∧ Generated joins a y) := by
  have hold : ∀ {x y}, Generated joins x y → Generated (joins ++ [(a, b)]) x y :=
    fun h => h.le fun x y hxy => .of_mem (mem_append_left _ hxy)
  have hnew : Generated (joins ++ [(a, b)]) a b :=
    .of_mem (mem_append_right _ mem_cons_self)
  constructor
  · intro h
    induction h with
    | rel x y h =>
      rcases mem_append.mp h with h | h
      · exact .inl (.of_mem h)
      · obtain ⟨rfl, rfl⟩ := Prod.mk.inj (mem_singleton.mp h)
        exact .inr (.inl ⟨.refl _ _, .refl _ _⟩)
    | refl => exact .inl (.refl _ _)
    | symm _ _ _ ih =>
      rcases ih with h | ⟨h, h'⟩ | ⟨h, h'⟩
      · exact .inl h.symm
      · exact .inr (.inr ⟨h'.symm, h.symm⟩)
      · exact .inr (.inl ⟨h'.symm, h.symm⟩)
    | trans _ _ _ _ _ ih ih' =>
      rcases ih with h | ⟨h, h'⟩ | ⟨h, h'⟩ <;> rcases ih' with k | ⟨k, k'⟩ | ⟨k, k'⟩
      · exact .inl (h.trans k)
      · exact .inr (.inl ⟨h.trans k, k'⟩)
      · exact .inr (.inr ⟨h.trans k, k'⟩)
      · exact .inr (.inl ⟨h, h'.trans k⟩)
      · exact .inr (.inl ⟨h, k'⟩)
      · exact .inl (h.trans k')
      · exact .inr (.inr ⟨h, h'.trans k⟩)
      · exact .inl (h.trans k')
      · exact .inr (.inr ⟨h, k'⟩)
  · rintro (h | ⟨h, h'⟩ | ⟨h, h'⟩)
    · exact hold h
    · exact (hold h).trans (hnew.trans (hold h'))
    · exact (hold h).trans (hnew.symm.trans (hold h'))

end Zapcc.GeneratedEquivalence
