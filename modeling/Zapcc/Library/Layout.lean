import Mathlib.Algebra.BigOperators.Group.List.Basic
import Mathlib.Algebra.Order.Ring.Nat
import Mathlib.Data.Fintype.Card

/-!
# Pieces of a buffer

A piece lies at an offset of a buffer when the buffer holds its elements from there on. Pieces
that lie in one buffer can be copied into a blank one of its length in any order, however they
overlap: no copy undoes what another one has settled (`copyAll_settles`). Pieces that are pairwise
different take room: two elements each, but for a few (`two_mul_length_le`).
-/

namespace Zapcc.Layout

open List

variable {α : Type*}

/-- The piece `S` lies at an offset of `Z`. -/
def LiesAt (Z : List α) (off : Nat) (S : List α) : Prop :=
  off + S.length ≤ Z.length ∧ ∀ i, i < S.length → Z[off + i]? = S[i]?

theorem liesAt_append (Z S T : List α) : LiesAt (Z ++ S ++ T) Z.length S := by
  refine ⟨by simp, fun i hi => ?_⟩
  rw [append_assoc, getElem?_append_right (by omega), getElem?_append_left (by omega)]
  simp

variable {off : Nat}

variable {Z S : List α}

/-- A piece keeps its place when the buffer grows at its end. -/
theorem LiesAt.append (h : LiesAt Z off S) (T : List α) :
    LiesAt (Z ++ T) off S := by
  refine ⟨?_, fun i hi => ?_⟩
  · have hle := h.1
    simp only [length_append]
    omega
  · rw [getElem?_append_left (by have hle := h.1; omega)]
    exact h.2 i hi

theorem liesAt_of_suffix (h : S <:+ Z) : LiesAt Z (Z.length - S.length) S := by
  obtain ⟨T, rfl⟩ := h
  simpa using liesAt_append T S []

theorem LiesAt.left {T : List α} (h : LiesAt Z off (S ++ T)) :
    LiesAt Z off S := by
  obtain ⟨hle, hat⟩ := h
  simp only [length_append] at hle hat
  refine ⟨by omega, fun i hi => ?_⟩
  rw [hat i (by omega), getElem?_append_left hi]

theorem LiesAt.right {T : List α} (h : LiesAt Z off (S ++ T)) :
    LiesAt Z (off + S.length) T := by
  obtain ⟨hle, hat⟩ := h
  simp only [length_append] at hle hat
  refine ⟨by omega, fun i hi => ?_⟩
  rw [Nat.add_assoc, hat (S.length + i) (by omega), getElem?_append_right (by omega),
      Nat.add_sub_cancel_left]

theorem LiesAt.take_drop (h : LiesAt Z off S) :
    (Z.drop off).take S.length = S := by
  apply ext_getElem?
  intro i
  by_cases hi : i < S.length
  · rw [getElem?_take_of_lt hi, getElem?_drop]
    exact h.2 i hi
  · rw [getElem?_eq_none (by simp; omega), getElem?_eq_none (by omega)]

theorem LiesAt.drop (h : LiesAt Z off S) :
    Z.drop off = S ++ Z.drop (off + S.length) := by
  have hsplit := take_append_drop S.length (Z.drop off)
  rw [h.take_drop, drop_drop] at hsplit
  exact hsplit.symm

theorem LiesAt.trans {T : List α} {off off' : Nat} (h : LiesAt Z off S)
    (h' : LiesAt S off' T) : LiesAt Z (off + off') T := by
  have hle := h.1
  have hle' := h'.1
  refine ⟨by omega, fun i hi => ?_⟩
  rw [Nat.add_assoc, h.2 _ (by omega), h'.2 i hi]

theorem liesAt_flatMap {β : Type*} {f : β → List α} {n : Nat} (hf : ∀ b, (f b).length = n)
    {l : List β} {i : Nat} {b : β} (hb : l[i]? = some b) :
    LiesAt (l.flatMap f) (n * i) (f b) := by
  induction l generalizing i with
  | nil => simp at hb
  | cons c l ih =>
    cases i with
    | zero =>
      obtain rfl : c = b := by simpa using hb
      simpa using liesAt_append [] (f c) (l.flatMap f)
    | succ i =>
      have htail := liesAt_append (f c) (l.flatMap f) []
      rw [append_nil, hf] at htail
      rw [Nat.mul_succ, Nat.add_comm]
      exact htail.trans (ih (by simpa using hb))

theorem LiesAt.congr {Z' : List α} (h : LiesAt Z off S)
    (hlen : Z'.length = Z.length)
    (hsame : ∀ i, i < S.length → Z'[off + i]? = Z[off + i]?) : LiesAt Z' off S :=
  ⟨hlen ▸ h.1, fun i hi => (hsame i hi).trans (h.2 i hi)⟩

/-- Copy a piece to an offset, which needs room for it there. -/
def copy (Z : List α) (off : Nat) (S : List α) : Option (List α) :=
  if off + S.length ≤ Z.length then
    some (Z.take off ++ S ++ Z.drop (off + S.length))
  else
    none

theorem copy_spec (h : off + S.length ≤ Z.length) :
    ∃ Z', copy Z off S = some Z' ∧ Z'.length = Z.length ∧ LiesAt Z' off S ∧
      ∀ i : Nat, i < off ∨ off + S.length ≤ i → Z'[i]? = Z[i]? := by
  have htake : (Z.take off).length = off := by simp; omega
  refine ⟨_, if_pos h, ?_, ?_, ?_⟩
  · simp only [length_append, length_take, length_drop]
    omega
  · have hat := liesAt_append (Z.take off) S (Z.drop (off + S.length))
    rwa [htake] at hat
  · rintro i (hi | hi)
    · rw [append_assoc, getElem?_append_left (by omega), getElem?_take_of_lt hi]
    · rw [getElem?_append_right (by simp only [length_append]; omega), getElem?_drop]
      congr 1
      simp only [length_append, htake]
      omega

/-- Copy pieces to their offsets, one after the other. -/
def copyAll (Z : List α) : List (List α × Nat) → Option (List α)
  | [] => some Z
  | P :: l => (copy Z P.2 P.1).bind fun Z' => copyAll Z' l

/-- The copies of pieces of one buffer `Z` only bring a buffer closer to it, and end with every
piece in its place. -/
theorem copyAll_settles {l : List (List α × Nat)}
    (hl : ∀ P ∈ l, LiesAt Z P.2 P.1) {B : List α} (hlen : B.length = Z.length) :
    ∃ B', copyAll B l = some B' ∧ B'.length = Z.length ∧
      (∀ i : Nat, B'[i]? = B[i]? ∨ B'[i]? = Z[i]?) ∧ ∀ P ∈ l, LiesAt B' P.2 P.1 := by
  induction l generalizing B with
  | nil => exact ⟨B, rfl, hlen, fun i => .inl rfl, by simp⟩
  | cons P l ih =>
    have hP : LiesAt Z P.2 P.1 := hl P (by simp)
    obtain ⟨B₁, hcopy, hlen₁, hat, hother⟩ := copy_spec (Z := B) (hlen ▸ hP.1)
    -- inside of the piece the copy agrees with `Z`
    have hinside : ∀ i : Nat, P.2 ≤ i → i < P.2 + P.1.length → B₁[i]? = Z[i]? := by
      intro i hlow hhigh
      have heq : i = P.2 + (i - P.2) := by omega
      rw [heq, hat.2 _ (by omega), hP.2 _ (by omega)]
    obtain ⟨B', hall, hlen', hstep, hrest⟩ :=
      ih (fun Q hQ => hl Q (by simp [hQ])) (hlen₁.trans hlen)
    have hstays : ∀ i : Nat, B₁[i]? = Z[i]? → B'[i]? = Z[i]? := by
      intro i hi
      rcases hstep i with hB | hZ
      · rw [hB, hi]
      · exact hZ
    refine ⟨B', by rw [copyAll, hcopy, Option.bind_some, hall], hlen', fun i => ?_, ?_⟩
    · by_cases hi : P.2 ≤ i ∧ i < P.2 + P.1.length
      · exact .inr (hstays i (hinside i hi.1 hi.2))
      · rw [← hother i (by omega)]
        exact hstep i
    · intro Q hQ
      rcases List.mem_cons.mp hQ with rfl | hQ
      · exact hP.congr hlen' fun i hi => hstays _ (hinside _ (by omega) (by omega))
      · exact hrest Q hQ

theorem countP_short_le [Fintype α] [DecidableEq α] {l : List (List α)} (hnodup : l.Nodup) :
    l.countP (fun S => S.length ≤ 1) ≤ Fintype.card α + 1 := by
  have hsub : (l.filter fun S => S.length ≤ 1).toFinset ⊆
      insert [] (Finset.univ.image fun a : α => [a]) := by
    intro S hS
    rw [mem_toFinset, mem_filter] at hS
    have hlen : S.length ≤ 1 := by simpa using hS.2
    cases S with
    | nil => simp
    | cons a rest =>
      obtain rfl : rest = [] := by
        rw [length_cons] at hlen
        exact List.length_eq_zero_iff.mp (by omega)
      simp
  calc l.countP (fun S => S.length ≤ 1)
      = (l.filter fun S => S.length ≤ 1).length := countP_eq_length_filter
    _ = (l.filter fun S => S.length ≤ 1).toFinset.card :=
        (toFinset_card_of_nodup (hnodup.filter _)).symm
    _ ≤ (insert [] (Finset.univ.image fun a : α => [a])).card := Finset.card_le_card hsub
    _ ≤ (Finset.univ.image fun a : α => [a]).card + 1 := Finset.card_insert_le _ _
    _ ≤ Fintype.card α + 1 := Nat.succ_le_succ Finset.card_image_le

theorem two_mul_length_le [Fintype α] [DecidableEq α] {l : List (List α)} (hnodup : l.Nodup) :
    2 * l.length ≤ (l.map List.length).sum + 2 * (Fintype.card α + 1) := by
  have hsum : ∀ l : List (List α),
      2 * l.length ≤ (l.map List.length).sum + 2 * l.countP (fun S => S.length ≤ 1) := by
    intro l
    induction l with
    | nil => simp
    | cons S l ih =>
      rw [length_cons, map_cons, sum_cons, countP_cons]
      split
      · omega
      · rename_i hlong
        have hlen : ¬ S.length ≤ 1 := by simpa using hlong
        omega
  have hshort := countP_short_le hnodup
  have hall := hsum l
  omega

end Zapcc.Layout
