import Zapcc.Library.EditDistance
import Zapcc.Support.MathExtras

/-!
# The bounded edit distance

`ComputeEditDistance` keeps one row of the table of distances. The main result is `computes_iff`: a
distance that passes the bound only behind the last row is returned as it is, and two empty
sequences read a cell of the row that is not set.
-/

namespace Zapcc.ADT.EditDistance

open Zapcc.EditDistance Zapcc.MathExtras List Function Option

/-- The row of the table, whose cells are not set at first. -/
abbrev Row := Nat → Option Nat

/-- The loop that numbers the row. -/
def fillRow (n : Nat) : Row :=
  (range' 1 n).foldl (fun Row i => update Row i (some i)) fun _ => none

/-- The variables of the inner loop. -/
structure RowState where
  Row : Row
  Previous : Nat
  BestThisRow : Nat

section Table

variable {α : Type*} [DecidableEq α] (AllowReplacements : Bool)

/-- One cell, for two elements that are equal or not. -/
def visitCell (eq : Bool) (x : Nat) (s : RowState) : Option RowState := do
  let OldRow ← s.Row x
  let cell ←
    if AllowReplacements then do
      let left ← s.Row (x - 1)
      some (min (toUnsigned (s.Previous + if eq then 0 else 1)) (toUnsigned (min left OldRow + 1)))
    else if eq then some s.Previous
    else do
      let left ← s.Row (x - 1)
      some (toUnsigned (min left OldRow + 1))
  some ⟨update s.Row x (some cell), OldRow, min s.BestThisRow cell⟩

/-- The inner loop, over the elements of a sequence from an index on. -/
def visitCells (a : α) : List α → Nat → RowState → Option RowState
  | [], _, s => some s
  | b :: ToArray, x, s =>
    (visitCell AllowReplacements (a = b) x s).bind (visitCells a ToArray (x + 1))

/-- The outer loop, from a row on. -/
def visitRows (ToArray : List α) (MaxEditDistance : Nat) : List α → Nat → Row → Option Nat
  | [], _, Row => Row ToArray.length
  | a :: FromArray, y, Row => do
      let s ← visitCells AllowReplacements a ToArray 1
        ⟨update Row 0 (some (toUnsigned y)), toUnsigned (y - 1), toUnsigned y⟩
      if MaxEditDistance ≠ 0 ∧ s.BestThisRow > MaxEditDistance then
        some (toUnsigned (MaxEditDistance + 1))
      else visitRows ToArray MaxEditDistance FromArray (y + 1) s.Row

/-- `ComputeEditDistance`. There is no result where a cell is read that is not set, or where no
`unsigned` is greater than the length of the row. -/
def ComputeEditDistance (FromArray ToArray : List α) (MaxEditDistance : Nat) : Option Nat :=
  if ToArray.length < 2 ^ 32 - 1 then
    visitRows AllowReplacements ToArray MaxEditDistance FromArray 1 (fillRow ToArray.length)
  else none

end Table

variable {α : Type*} [DecidableEq α] {allow : Bool}

/-! ## The row -/

theorem fillRow_eq (n i : Nat) : fillRow n i = if 1 ≤ i ∧ i ≤ n then some i else none := by
  unfold fillRow
  induction n with
  | zero =>
    rw [if_neg (by omega)]
    rfl
  | succ n ih =>
    rw [range'_concat, foldl_append]
    by_cases hi : i = 1 + 1 * n
    · subst hi
      rw [if_pos (by omega)]
      exact update_self ..
    · refine (update_of_ne hi _ _).trans (ih.trans ?_)
      exact if_congr (by omega) rfl rfl

/-- The row of a part of the first sequence, where some cells are of the next row already. -/
structure Filling (xs : List α) (a : α) (ys : List α) (x : Nat) (s : RowState) (allow : Bool) :
    Prop where
  new : ∀ i < x, s.Row i = some (dist allow (xs ++ [a]) (ys.take i))
  old : ∀ i, x ≤ i → i ≤ ys.length → s.Row i = some (dist allow xs (ys.take i))
  previous : s.Previous = dist allow xs (ys.take (x - 1))
  best_le : ∀ i < x, s.BestThisRow ≤ dist allow (xs ++ [a]) (ys.take i)
  best_eq : ∃ i < x, s.BestThisRow = dist allow (xs ++ [a]) (ys.take i)

theorem visitCell_spec {xs ys : List α} {a b : α} {x : Nat} {s : RowState}
    (h : Filling xs a ys x s allow) (hx : 1 ≤ x) (hb : ys[x - 1]? = some b)
    (hlength : xs.length + 1 + ys.length < 2 ^ 32 - 1) :
    ∃ s', visitCell allow (a = b) x s = some s' ∧ Filling xs a ys (x + 1) s' allow := by
  obtain ⟨hlt, hget⟩ := List.getElem?_eq_some_iff.mp hb
  have htake : ys.take x = ys.take (x - 1) ++ [b] := by
    have hx' : x = x - 1 + 1 := by omega
    rw [hx', take_succ_eq_append_getElem hlt, hget]
    simp
  have hold := h.old x le_rfl (by omega)
  have hleft := h.new (x - 1) (by omega)
  have hcell : dist allow (xs ++ [a]) (ys.take x) = cell allow (a = b) s.Previous
      (dist allow (xs ++ [a]) (ys.take (x - 1))) (dist allow xs (ys.take x)) := by
    rw [h.previous, htake]
    exact dist_concat xs (ys.take (x - 1)) a b
  -- no value is too large for an unsigned
  have hsmall : ∀ (zs : List α) (i : Nat), zs.length ≤ xs.length + 1 →
      dist allow zs (ys.take i) + 1 < 2 ^ 32 := by
    intro zs i hzs
    have hle : dist allow zs (ys.take i) ≤ zs.length + (ys.take i).length := dist_le_length _ _
    rw [length_take] at hle
    omega
  have hprev : s.Previous + 1 < 2 ^ 32 := by
    rw [h.previous]
    exact hsmall _ _ (by omega)
  have hleft' := hsmall (xs ++ [a]) (x - 1) (by simp)
  have hold' := hsmall xs x (by omega)
  have hmin : toUnsigned (min (dist allow (xs ++ [a]) (ys.take (x - 1)))
      (dist allow xs (ys.take x)) + 1) = min (dist allow (xs ++ [a]) (ys.take (x - 1)))
        (dist allow xs (ys.take x)) + 1 := toUnsigned_of_lt (by omega)
  have hvisit : visitCell allow (a = b) x s =
      some ⟨update s.Row x (some (dist allow (xs ++ [a]) (ys.take x))), dist allow xs (ys.take x),
        min s.BestThisRow (dist allow (xs ++ [a]) (ys.take x))⟩ := by
    rw [hcell]
    unfold visitCell cell
    rw [hold, hleft]
    simp only [bind_eq_bind, bind_some, hmin]
    have hdiag : toUnsigned (s.Previous + if decide (a = b) = true then 0 else 1) =
        s.Previous + if decide (a = b) = true then 0 else 1 :=
      toUnsigned_of_lt (by split_ifs <;> omega)
    rw [hdiag]
    split_ifs <;> rfl
  refine ⟨_, hvisit, fun i hi => ?_, fun i hlo hhi => ?_, rfl, fun i hi => ?_, ?_⟩
  · by_cases heq : i = x
    · subst heq
      exact update_self ..
    · exact (update_of_ne heq _ _).trans (h.new i (by omega))
  · exact (update_of_ne (by omega) _ _).trans (h.old i (by omega) hhi)
  · by_cases heq : i = x
    · exact heq ▸ Nat.min_le_right _ _
    · exact (Nat.min_le_left _ _).trans (h.best_le i (by omega))
  · obtain ⟨i, hi, hbest⟩ := h.best_eq
    rcases Nat.le_total s.BestThisRow (dist allow (xs ++ [a]) (ys.take x)) with hle | hle
    · exact ⟨i, by omega, (Nat.min_eq_left hle).trans hbest⟩
    · exact ⟨x, by omega, Nat.min_eq_right hle⟩

theorem visitCells_spec {xs ys : List α} {a : α} {rest : List α} {x : Nat} {s : RowState}
    (h : Filling xs a ys x s allow) (hx : 1 ≤ x) (hrest : ys.drop (x - 1) = rest)
    (hlength : xs.length + 1 + ys.length < 2 ^ 32 - 1) :
    ∃ s', visitCells allow a rest x s = some s' ∧ Filling xs a ys (ys.length + 1) s' allow := by
  induction rest generalizing x s with
  | nil =>
    have hle : ys.length ≤ x - 1 := drop_eq_nil_iff.mp hrest
    obtain ⟨i, hi, hbest⟩ := h.best_eq
    refine ⟨s, rfl, fun i hi => h.new i (by omega), fun i hlo hhi => by omega, ?_,
      fun i hi => h.best_le i (by omega), ?_⟩
    · rw [h.previous, take_of_length_le hle, Nat.add_sub_cancel, take_length]
    · by_cases hi' : i < ys.length + 1
      · exact ⟨i, hi', hbest⟩
      · refine ⟨ys.length, by omega, hbest.trans ?_⟩
        rw [take_of_length_le (by omega), take_length]
  | cons b rest ih =>
    have hb : ys[x - 1]? = some b := by
      rw [← head?_drop, hrest]
      rfl
    obtain ⟨s', hvisit, hs'⟩ := visitCell_spec h hx hb hlength
    have hdrop : ys.drop (x + 1 - 1) = rest := by
      have hx' : x + 1 - 1 = x - 1 + 1 := by omega
      rw [hx', ← drop_drop, hrest]
      rfl
    obtain ⟨s'', hrun, hs''⟩ := ih hs' (by omega) hdrop
    refine ⟨s'', ?_, hs''⟩
    rw [visitCells, hvisit]
    exact hrun

/-- All values of a row are greater than the bound. -/
def RowAbove (allow : Bool) (Max : Nat) (FromArray ToArray : List α) (y : Nat) : Prop :=
  ∀ x ≤ ToArray.length, Max < dist allow (FromArray.take y) (ToArray.take x)

/-- The rows of a part of the first sequence are filled. -/
structure Filled (allow : Bool) (xs ys : List α) (Row : Row) : Prop where
  cell : ∀ i, 1 ≤ i → i ≤ ys.length → Row i = some (dist allow xs (ys.take i))
  first : Row 0 = if xs = [] then none else some xs.length

theorem visitRows_spec (Max : Nat) {xs ys : List α} (rest : List α) {Row : Row}
    (h : Filled allow xs ys Row)
    (hlength : (xs ++ rest).length + ys.length < 2 ^ 32 - 1) :
    (∃ y ≤ rest.length, 0 < y ∧ Max ≠ 0 ∧ RowAbove allow Max (xs ++ rest) ys (xs.length + y) ∧
        visitRows allow ys Max rest (xs.length + 1) Row = some (toUnsigned (Max + 1))) ∨
      (∀ y ≤ rest.length, 0 < y → Max ≠ 0 → ¬RowAbove allow Max (xs ++ rest) ys (xs.length + y)) ∧
        visitRows allow ys Max rest (xs.length + 1) Row =
          if xs ++ rest = [] ∧ ys = [] then none else some (dist allow (xs ++ rest) ys) := by
  induction rest generalizing xs Row with
  | nil =>
    refine .inr ⟨fun y hy hpos => by simp at hy; omega, ?_⟩
    rw [append_nil, visitRows]
    by_cases hys : ys = []
    · subst hys
      rw [length_nil, h.first]
      by_cases hxs : xs = [] <;> simp [hxs]
    · rw [if_neg fun hnil => hys hnil.2]
      have hpos := length_pos_iff.mpr hys
      rw [h.cell ys.length hpos le_rfl, take_length]
  | cons a rest ih =>
    rw [length_append, length_cons] at hlength
    have hassoc : xs ++ a :: rest = xs ++ [a] ++ rest := by simp
    have hcells : Filling xs a ys 1 ⟨update Row 0 (some (toUnsigned (xs.length + 1))),
        toUnsigned (xs.length + 1 - 1), toUnsigned (xs.length + 1)⟩ allow := by
      have hsmall : toUnsigned (xs.length + 1) = xs.length + 1 := toUnsigned_of_lt (by omega)
      have hsmall' : toUnsigned (xs.length + 1 - 1) = xs.length := toUnsigned_of_lt (by omega)
      refine ⟨fun i hi => ?_, fun i hlo hhi => ?_, ?_, fun i hi => ?_, 0, Nat.one_pos, ?_⟩
      · rw [Nat.lt_one_iff.mp hi, hsmall]
        simp
      · dsimp only
        rw [update_of_ne (by omega)]
        exact h.cell i hlo hhi
      · rw [hsmall']
        simp
      · rw [hsmall, Nat.lt_one_iff.mp hi]
        simp
      · rw [hsmall]
        simp
    have hdrop : ys.drop (1 - 1) = ys := rfl
    obtain ⟨s, hrun, hs⟩ := visitCells_spec hcells le_rfl hdrop (by omega)
    have hrow : (xs ++ a :: rest).take (xs.length + 1) = xs ++ [a] := by
      rw [hassoc]
      exact take_left' (by simp)
    have habove : Max < s.BestThisRow ↔
        RowAbove allow Max (xs ++ a :: rest) ys (xs.length + 1) := by
      unfold RowAbove
      rw [hrow]
      constructor
      · exact fun hlt x hx => hlt.trans_le (hs.best_le x (by omega))
      · intro hall
        obtain ⟨i, hi, hbest⟩ := hs.best_eq
        exact hbest ▸ hall i (by omega)
    rw [visitRows, hrun]
    simp only [bind_eq_bind, bind_some]
    by_cases hstop : Max ≠ 0 ∧ s.BestThisRow > Max
    · rw [if_pos hstop]
      exact .inl ⟨1, by simp, Nat.one_pos, hstop.1, habove.mp hstop.2, rfl⟩
    · rw [if_neg hstop]
      have hfilled : Filled allow (xs ++ [a]) ys s.Row := by
        refine ⟨fun i _ hhi => hs.new i (by omega), ?_⟩
        rw [hs.new 0 (by omega), if_neg (by simp)]
        simp
      have hlen : xs.length + 1 + 1 = (xs ++ [a]).length + 1 := by simp
      rw [hlen, hassoc]
      have hshift : ∀ y, (xs ++ [a]).length + y = xs.length + (y + 1) := by
        omega
      rcases ih hfilled (by simp; omega) with ⟨y, hy, hpos, hmax, hrow', hres⟩ | ⟨hnone, hres⟩
      · exact .inl ⟨y + 1, by simpa using hy, by omega, hmax, hshift y ▸ hrow', hres⟩
      · refine .inr ⟨fun y hy hpos hmax hrow' => ?_, hres⟩
        by_cases hone : y = 1
        · subst hone
          exact hstop ⟨hmax, habove.mpr (hassoc ▸ hrow')⟩
        · have hy' : y = y - 1 + 1 := by omega
          rw [length_cons] at hy
          refine hnone (y - 1) (by omega) (by omega) hmax ?_
          rw [hshift, ← hy']
          exact hrow'

/-! ## The result -/

/-- The result is the least number of edits if this is at most the bound, and one more than the
bound otherwise. -/
def Computes (allow : Bool) (Max : Nat) (FromArray ToArray : List α) : Prop :=
  ∃ d, IsLeast { n | Edits allow n FromArray ToArray } d ∧
    ComputeEditDistance allow FromArray ToArray Max =
      some (if Max = 0 ∨ d ≤ Max then d else Max + 1)

/-- Two sequences are not both empty, and a distance that passes the bound by more than one does so
in each cell of some row. -/
theorem computes_iff (FromArray ToArray : List α) (allow : Bool) {Max : Nat}
    (hlength : FromArray.length + ToArray.length < 2 ^ 32 - 1) (hMax : Max < 2 ^ 32) :
    Computes allow Max FromArray ToArray ↔ ¬(FromArray = [] ∧ ToArray = []) ∧
        (Max = 0 ∨ dist allow FromArray ToArray ≤ Max + 1 ∨
          ∃ y ≤ FromArray.length, RowAbove allow Max FromArray ToArray y) := by
  have hleast : IsLeast { n | Edits allow n FromArray ToArray } (dist allow FromArray ToArray) :=
    dist_isLeast _ _
  have hle : dist allow FromArray ToArray ≤ FromArray.length + ToArray.length :=
    dist_le_length _ _
  have hcomputes : Computes allow Max FromArray ToArray ↔
      ComputeEditDistance allow FromArray ToArray Max =
        some (if Max = 0 ∨ dist allow FromArray ToArray ≤ Max then dist allow FromArray ToArray
          else Max + 1) :=
    ⟨fun ⟨d, hd, hres⟩ => hd.unique hleast ▸ hres, fun hres => ⟨_, hleast, hres⟩⟩
  have hfilled : Filled allow [] ToArray (fillRow ToArray.length) := by
    refine ⟨fun i hlo hhi => ?_, ?_⟩
    · rw [fillRow_eq, if_pos ⟨hlo, hhi⟩, dist_nil_left, length_take, Nat.min_eq_left hhi]
    · rw [fillRow_eq, if_neg (by omega), if_pos rfl]
  have hrows := visitRows_spec Max FromArray hfilled (by simpa using hlength)
  simp only [nil_append, length_nil, Nat.zero_add] at hrows
  have hrun : ComputeEditDistance allow FromArray ToArray Max =
      visitRows allow ToArray Max FromArray 1 (fillRow ToArray.length) := if_pos (by omega)
  rw [hcomputes, hrun]
  rcases hrows with ⟨y, hy, hpos, hmax, habove, hres⟩ | ⟨hnone, hres⟩
  · have hgt : Max < dist allow FromArray ToArray := by
      obtain ⟨i, hi, hle'⟩ : ∃ i ≤ ToArray.length, dist allow (FromArray.take y)
          (ToArray.take i) ≤ dist allow FromArray ToArray := exists_take FromArray ToArray y
      exact (habove i hi).trans_le hle'
    rw [hres, if_neg (by omega), toUnsigned_of_lt (by omega)]
    refine iff_of_true rfl ⟨fun hnil => ?_, .inr (.inr ⟨y, hy, habove⟩)⟩
    rw [hnil.1] at hy
    simp at hy
    omega
  · rw [hres]
    by_cases hnil : FromArray = [] ∧ ToArray = []
    · rw [if_pos hnil]
      exact iff_of_false (by simp) fun h => h.1 hnil
    · rw [if_neg hnil, some.injEq]
      have hrow0 : ∀ y ≤ FromArray.length, Max ≠ 0 → ¬RowAbove allow Max FromArray ToArray y := by
        intro y hy hmax habove
        by_cases hpos : 0 < y
        · exact hnone y hy hpos hmax habove
        · have h0 := habove 0 (Nat.zero_le _)
          rw [Nat.eq_zero_of_not_pos hpos] at h0
          simp at h0
      constructor
      · intro heq
        refine ⟨hnil, ?_⟩
        split_ifs at heq with hcase <;> omega
      · rintro ⟨-, hcase⟩
        by_cases hsmall : Max = 0 ∨ dist allow FromArray ToArray ≤ Max
        · rw [if_pos hsmall]
        · rw [if_neg hsmall]
          rcases hcase with h0 | hone | ⟨y, hy, habove⟩
          · exact absurd (.inl h0) hsmall
          · omega
          · exact absurd habove (hrow0 y hy fun h0 => hsmall (.inl h0))

theorem computes_replacement : Computes true 0 [1] [2] :=
  (computes_iff [1] [2] true (by decide) (by decide)).mpr ⟨by simp, .inl rfl⟩

/-- There is no row behind which the bound is looked at, and the distance is returned as it is. -/
theorem not_computes_insertions : ¬Computes true 1 [] [0, 1, 2] := by
  rintro ⟨d, hd, hres⟩
  have h3 : d = 3 := by
    have heq := hd.unique (dist_isLeast [] [0, 1, 2])
    rwa [dist_nil_left] at heq
  have hrun : ComputeEditDistance true [] [0, 1, 2] 1 = some 3 := by decide
  rw [hrun, h3] at hres
  exact absurd hres (by decide)

end Zapcc.ADT.EditDistance
