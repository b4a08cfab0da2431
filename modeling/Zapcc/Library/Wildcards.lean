import Mathlib.Data.List.Forall2

/-!
# Patterns with wildcards

An item of a pattern matches one character with some property, or any text. The matchings are
those of `Matches`. Items in front that match one character each are split off
(`matches_append_iff`), and an item that matches any text absorbs characters
(`matches_any_cons_iff`, `Matches.absorb`).
-/

namespace Zapcc.Wildcards

open List

variable {α : Type*}

inductive Item (α : Type*)
  | any
  | one (p : α → Prop)

/-- The texts that a pattern matches. -/
inductive Matches : List (Item α) → List α → Prop
  | nil : Matches [] []
  | any {items : List (Item α)} {t : List α} (s : List α) (h : Matches items t) :
      Matches (.any :: items) (s ++ t)
  | one {p : α → Prop} {items : List (Item α)} {t : List α} {c : α} (hc : p c)
      (h : Matches items t) : Matches (.one p :: items) (c :: t)

/-- An item that matches exactly one character. -/
def Item.MatchesOne : Item α → α → Prop
  | any, _ => False
  | one p, c => p c

/-- The number of characters that a pattern needs. -/
def need : List (Item α) → Nat
  | [] => 0
  | .any :: items => need items
  | .one _ :: items => need items + 1

variable {items : List (Item α)} {s t : List α}

theorem Matches.need_le {t : List α} (h : Matches items t) :
    need items ≤ t.length := by
  induction h with
  | nil => exact Nat.le_refl 0
  | any s _ ih =>
    rw [need, length_append]
    omega
  | one _ _ ih =>
    rw [need, length_cons]
    omega

theorem matches_nil_right_iff : Matches items [] ↔ need items = 0 := by
  refine ⟨fun h => Nat.le_zero.mp h.need_le, fun h => ?_⟩
  induction items with
  | nil => exact .nil
  | cons item items ih =>
    cases item with
    | any => exact .any [] (ih h)
    | one p => exact absurd h (Nat.succ_ne_zero _)

theorem matches_nil_iff {t : List α} : Matches [] t ↔ t = [] := by
  refine ⟨fun h => ?_, fun h => ?_⟩
  · cases h
    rfl
  · subst h
    exact .nil

theorem matches_one_iff {p : α → Prop} {t : List α} :
    Matches (.one p :: items) t ↔ ∃ c s, t = c :: s ∧ p c ∧ Matches items s := by
  refine ⟨fun h => ?_, fun h => ?_⟩
  · cases h with
    | one hc h => exact ⟨_, _, rfl, hc, h⟩
  · obtain ⟨c, s, rfl, hc, h⟩ := h
    exact .one hc h

theorem Matches.matchesOne {item : Item α} {c : α} {t : List α}
    (h : Matches (item :: items) (c :: t)) (hne : item ≠ .any) : item.MatchesOne c := by
  cases item with
  | any => exact absurd rfl hne
  | one p =>
    obtain ⟨d, s, heq, hd, _⟩ := matches_one_iff.mp h
    cases heq
    exact hd

theorem matches_any_iff {t : List α} :
    Matches (.any :: items) t ↔ ∃ s, s <:+ t ∧ Matches items s := by
  refine ⟨fun h => ?_, fun h => ?_⟩
  · cases h with
    | any s h => exact ⟨_, suffix_append _ _, h⟩
  · obtain ⟨s, ⟨r, rfl⟩, h⟩ := h
    exact .any r h

theorem Matches.absorb (h : Matches (.any :: items) s)
    (hsuffix : s <:+ t) : Matches (.any :: items) t := by
  obtain ⟨r, hr, h⟩ := matches_any_iff.mp h
  exact matches_any_iff.mpr ⟨r, hr.trans hsuffix, h⟩

theorem matches_any_cons_iff {c : α} {t : List α} :
    Matches (.any :: items) (c :: t) ↔ Matches items (c :: t) ∨ Matches (.any :: items) t := by
  simp only [matches_any_iff, suffix_cons_iff, or_and_right, exists_or, exists_eq_left]

theorem matches_any_any_iff {t : List α} :
    Matches (.any :: .any :: items) t ↔ Matches (.any :: items) t := by
  refine ⟨fun h => ?_, fun h => matches_any_iff.mpr ⟨t, suffix_refl t, h⟩⟩
  obtain ⟨s, hs, h⟩ := matches_any_iff.mp h
  exact h.absorb hs

theorem matches_append {front items : List (Item α)} {t : List α} :
    Matches (front ++ items) t ↔ ∃ s r, t = s ++ r ∧ Matches front s ∧ Matches items r := by
  induction front generalizing t with
  | nil => simp [matches_nil_iff]
  | cons item front ih =>
    refine ⟨fun h => ?_, fun ⟨s, r, ht, hs, hr⟩ => ?_⟩
    · cases h with
      | any s h =>
        obtain ⟨s', r, rfl, hs, hr⟩ := ih.mp h
        exact ⟨s ++ s', r, (append_assoc s s' r).symm, .any s hs, hr⟩
      | @one _ _ _ c hc h =>
        obtain ⟨s', r, rfl, hs, hr⟩ := ih.mp h
        exact ⟨c :: s', r, rfl, .one hc hs, hr⟩
    · subst ht
      cases hs with
      | any s h =>
        rw [cons_append, append_assoc]
        exact .any s (ih.mpr ⟨_, r, rfl, h, hr⟩)
      | one hc h => exact .one hc (ih.mpr ⟨_, r, rfl, h, hr⟩)

theorem matches_append_iff {front : List (Item α)}
    (hfront : Forall₂ Item.MatchesOne front s) :
    Matches (front ++ items) (s ++ t) ↔ Matches items t := by
  induction hfront with
  | nil => exact Iff.rfl
  | @cons item c front s hitem _ ih =>
    cases item with
    | any => exact hitem.elim
    | one p =>
      refine ⟨fun h => ?_, fun h => .one hitem (ih.mpr h)⟩
      obtain ⟨d, r, heq, _, h⟩ := matches_one_iff.mp h
      cases heq
      exact ih.mp h

/-- What is behind the items in front of a text that they match is behind as many characters. -/
theorem Matches.drop_front {front items : List (Item α)}
    (hfront : Forall₂ Item.MatchesOne front s) (h : Matches (front ++ items) t) :
    ∃ r, Matches items r ∧ r <:+ t ∧ r.length + s.length = t.length := by
  induction hfront generalizing t with
  | nil => exact ⟨t, h, suffix_refl t, rfl⟩
  | @cons item c front s hitem _ ih =>
    cases item with
    | any => exact hitem.elim
    | one p =>
      obtain ⟨d, t, rfl, _, h⟩ := matches_one_iff.mp h
      obtain ⟨r, hr, hsuffix, hlength⟩ := ih h
      refine ⟨r, hr, hsuffix.trans (suffix_cons d t), ?_⟩
      rw [length_cons, length_cons]
      omega

/-- The items up to one that matches any text can be left out behind another one. -/
theorem matches_any_append_iff {front items : List (Item α)}
    (hfront : Forall₂ Item.MatchesOne front s) :
    Matches (.any :: (front ++ .any :: items)) (s ++ t) ↔ Matches (.any :: items) t := by
  refine ⟨fun h => ?_, fun h => ?_⟩
  · obtain ⟨r, hr, h⟩ := matches_any_iff.mp h
    obtain ⟨q, hq, hsuffix, hlength⟩ := h.drop_front hfront
    have hlen := hr.length_le
    rw [length_append] at hlen
    have hback : q <:+ t :=
      suffix_of_suffix_length_le (hsuffix.trans hr) (suffix_append s t) (by omega)
    exact hq.absorb hback
  · exact matches_any_iff.mpr ⟨s ++ t, suffix_refl _, (matches_append_iff hfront).mpr h⟩

/-- The items that match the characters of a text themselves. -/
def literal (s : List α) : List (Item α) := s.map fun c => .one (· = c)

theorem matches_literal_append_iff :
    Matches (literal s ++ items) t ↔ ∃ r, t = s ++ r ∧ Matches items r := by
  induction s generalizing t with
  | nil => simp [literal]
  | cons c s ih =>
    refine matches_one_iff.trans ⟨fun ⟨d, u, ht, hd, h⟩ => ?_, fun ⟨r, ht, h⟩ => ?_⟩
    · obtain ⟨r, rfl, hitems⟩ := ih.mp h
      exact ⟨r, by rw [ht, hd, cons_append], hitems⟩
    · exact ⟨c, s ++ r, ht, rfl, ih.mpr ⟨r, rfl, h⟩⟩

theorem matches_literal_iff : Matches (literal s) t ↔ t = s := by
  rw [← append_nil (literal s), matches_literal_append_iff]
  simp [matches_nil_iff]

theorem matches_any_literal_iff :
    Matches (.any :: literal s) t ↔ s <:+ t := by
  simp only [matches_any_iff, matches_literal_iff, exists_eq_right]

theorem matches_any_literal_any_iff :
    Matches (.any :: (literal s ++ [.any])) t ↔ s <:+: t := by
  simp only [matches_any_iff, matches_literal_append_iff, matches_nil_iff]
  refine ⟨fun ⟨u, hu, r, heq, _⟩ => ?_, fun ⟨front, back, heq⟩ => ?_⟩
  · have hprefix : s <+: u := ⟨r, heq.symm⟩
    exact hprefix.isInfix.trans hu.isInfix
  · exact ⟨s ++ back, ⟨front, by rw [← heq, append_assoc]⟩, back, rfl, [], nil_suffix, rfl⟩

end Zapcc.Wildcards
