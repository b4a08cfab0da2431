import Mathlib.Data.List.Induction
import Mathlib.Order.Bounds.Basic

/-!
# Edit distance

An edit inserts, deletes or, if this is allowed, replaces one element of a sequence. The recursion
`dist` is the least number of edits between two sequences.
-/

namespace Zapcc.EditDistance

open List

variable {α : Type*} {allow : Bool}

inductive Edit (allow : Bool) : List α → List α → Prop where
  | insert (l r : List α) (a : α) : Edit allow (l ++ r) (l ++ a :: r)
  | delete (l r : List α) (a : α) : Edit allow (l ++ a :: r) (l ++ r)
  | replace (l r : List α) (a b : α) (h : allow = true) : Edit allow (l ++ a :: r) (l ++ b :: r)

/-- So many edits lead from one sequence to the other. -/
inductive Edits (allow : Bool) : Nat → List α → List α → Prop where
  | nil (xs : List α) : Edits allow 0 xs xs
  | cons {n : Nat} {xs ys zs : List α} (h : Edit allow xs ys) (hrest : Edits allow n ys zs) :
      Edits allow (n + 1) xs zs

variable {xs ys : List α}

theorem Edit.reverse (h : Edit allow xs ys) :
    Edit allow xs.reverse ys.reverse := by
  cases h with
  | insert l r a =>
    have h : Edit allow (r.reverse ++ l.reverse) (r.reverse ++ a :: l.reverse) := .insert _ _ a
    simpa using h
  | delete l r a =>
    have h : Edit allow (r.reverse ++ a :: l.reverse) (r.reverse ++ l.reverse) := .delete _ _ a
    simpa using h
  | replace l r a b h => simpa using Edit.replace r.reverse l.reverse a b h

theorem Edits.reverse {n : Nat} (h : Edits allow n xs ys) :
    Edits allow n xs.reverse ys.reverse := by
  induction h with
  | nil xs => exact .nil _
  | cons h _ ih => exact .cons h.reverse ih

theorem edits_reverse_iff {n : Nat} :
    Edits allow n xs.reverse ys.reverse ↔ Edits allow n xs ys :=
  ⟨fun h => by simpa using h.reverse, Edits.reverse⟩

theorem Edit.cons (c : α) (h : Edit allow xs ys) :
    Edit allow (c :: xs) (c :: ys) := by
  cases h with
  | insert l r a => exact .insert (c :: l) r a
  | delete l r a => exact .delete (c :: l) r a
  | replace l r a b h => exact .replace (c :: l) r a b h

theorem Edits.cons_cons {n : Nat} (c : α) (h : Edits allow n xs ys) :
    Edits allow n (c :: xs) (c :: ys) := by
  induction h with
  | nil xs => exact .nil _
  | cons h _ ih => exact .cons (h.cons c) ih

theorem Edits.snoc {n : Nat} {xs ys zs : List α} (h : Edits allow n xs ys)
    (hlast : Edit allow ys zs) : Edits allow (n + 1) xs zs := by
  induction h with
  | nil xs => exact .cons hlast (.nil _)
  | cons h _ ih => exact .cons h (ih hlast)

theorem Edits.min {m n : Nat} (hm : Edits allow m xs ys)
    (hn : Edits allow n xs ys) : Edits allow (min m n) xs ys := by
  rcases Nat.le_total m n with h | h
  · rwa [Nat.min_eq_left h]
  · rwa [Nat.min_eq_right h]

/-- The distance of two sequences from the distances without one of the first elements or both. -/
def cell (allow eq : Bool) (diag left top : Nat) : Nat :=
  if allow then min (diag + if eq then 0 else 1) (min left top + 1)
  else if eq then diag else min left top + 1

/-- The value is one more than before at most, if this holds of what it is made from. -/
theorem cell_le {eq : Bool} {d l t d' l' t' : Nat} (hd : d ≤ d' + 1) (hl : l ≤ l' + 1)
    (ht : t ≤ t' + 1) : cell allow eq d l t ≤ cell allow eq d' l' t' + 1 := by
  unfold cell
  split_ifs <;> omega

variable [DecidableEq α]

def dist (allow : Bool) : List α → List α → Nat
  | [], ys => ys.length
  | x :: xs, [] => (x :: xs).length
  | x :: xs, y :: ys =>
    cell allow (x = y) (dist allow xs ys) (dist allow (x :: xs) ys) (dist allow xs (y :: ys))

@[simp] theorem dist_nil_left (ys : List α) : dist allow [] ys = ys.length := by
  rw [dist]

@[simp] theorem dist_nil_right (xs : List α) : dist allow xs [] = xs.length := by
  cases xs with
  | nil | cons x xs => rw [dist]

theorem dist_cons_cons (x y : α) (xs ys : List α) :
    dist allow (x :: xs) (y :: ys) = cell allow (x = y) (dist allow xs ys) (dist allow (x :: xs) ys)
        (dist allow xs (y :: ys)) := by
  rw [dist]

theorem dist_comm (xs ys : List α) : dist allow xs ys = dist allow ys xs := by
  induction xs, ys using dist.induct with
  | case1 ys | case2 x xs => simp
  | case3 x xs y ys hdiag hleft htop =>
    rw [dist_cons_cons, dist_cons_cons, hdiag, hleft, htop]
    unfold cell
    rw [Nat.min_comm (dist allow ys (x :: xs))]
    simp only [eq_comm]

@[simp] theorem dist_self (xs : List α) : dist allow xs xs = 0 := by
  induction xs with
  | nil => simp
  | cons x xs ih =>
    rw [dist_cons_cons, ih]
    unfold cell
    split_ifs <;> simp_all

theorem dist_cons_near (xs ys : List α) (x : α) :
    dist allow xs ys ≤ dist allow (x :: xs) ys + 1 ∧
      dist allow (x :: xs) ys ≤ dist allow xs ys + 1 := by
  induction hn : xs.length + ys.length using Nat.strong_induction_on generalizing xs ys x with
  | _ n ih =>
    subst hn
    cases ys with
    | nil =>
      simp only [dist_nil_right, length_cons]
      omega
    | cons y ys =>
      have hdown := (ih _ (by simp) xs ys x rfl).1
      have hright : dist allow xs (y :: ys) ≤ dist allow xs ys + 1 ∧
          dist allow xs ys ≤ dist allow xs (y :: ys) + 1 := by
        have h := ih (ys.length + xs.length) (by simp; omega) ys xs y rfl
        rw [dist_comm xs, dist_comm xs]
        exact ⟨h.2, h.1⟩
      rw [dist_cons_cons]
      unfold cell
      split_ifs <;> omega

theorem dist_edit_cons (c : α)
    (h : ∀ zs, dist allow xs zs ≤ dist allow ys zs + 1) (zs : List α) :
    dist allow (c :: xs) zs ≤ dist allow (c :: ys) zs + 1 := by
  induction zs with
  | nil =>
    have := h []
    simp at this ⊢
    omega
  | cons z zs ih =>
    rw [dist_cons_cons, dist_cons_cons]
    exact cell_le (h zs) ih (h (z :: zs))

theorem dist_replace (a b : α) (r zs : List α) :
    dist true (a :: r) zs ≤ dist true (b :: r) zs + 1 := by
  induction zs with
  | nil => simp
  | cons z zs ih =>
    rw [dist_cons_cons, dist_cons_cons]
    unfold cell
    simp only [if_true]
    split_ifs <;> omega

theorem dist_edit (h : Edit allow xs ys) (zs : List α) :
    dist allow xs zs ≤ dist allow ys zs + 1 := by
  have hprefix : ∀ (l : List α) {xs ys : List α}, (∀ zs, dist allow xs zs ≤ dist allow ys zs + 1) →
      ∀ zs, dist allow (l ++ xs) zs ≤ dist allow (l ++ ys) zs + 1 := by
    intro l xs ys h
    induction l with
    | nil => exact h
    | cons c l ih => exact dist_edit_cons c ih
  cases h with
  | insert l r a => exact hprefix l (fun zs => (dist_cons_near r zs a).1) zs
  | delete l r a => exact hprefix l (fun zs => (dist_cons_near r zs a).2) zs
  | replace l r a b h =>
    subst h
    exact hprefix l (dist_replace a b r) zs

theorem dist_le_of_edits {n : Nat} (h : Edits allow n xs ys) :
    dist allow xs ys ≤ n := by
  induction h with
  | nil xs => simp
  | cons h _ ih =>
    have := dist_edit h
    exact (this _).trans (Nat.succ_le_succ ih)

theorem edits_dist (xs ys : List α) : Edits allow (dist allow xs ys) xs ys := by
  induction xs, ys using dist.induct with
  | case1 ys =>
    rw [dist_nil_left]
    induction ys with
    | nil => exact .nil _
    | cons y ys ih => exact ih.snoc (.insert [] ys y)
  | case2 x xs =>
    rw [dist_nil_right]
    generalize x :: xs = xs
    induction xs with
    | nil => exact .nil _
    | cons y xs ih => exact .cons (.delete [] xs y) ih
  | case3 x xs y ys hdiag hleft htop =>
    -- one of the three ways gives the least number
    have hinsert : Edits allow (dist allow (x :: xs) ys + 1) (x :: xs) (y :: ys) :=
      hleft.snoc (.insert [] ys y)
    have hdelete : Edits allow (dist allow xs (y :: ys) + 1) (x :: xs) (y :: ys) :=
      .cons (.delete [] xs x) htop
    have hmin : Edits allow (min (dist allow (x :: xs) ys) (dist allow xs (y :: ys)) + 1)
        (x :: xs) (y :: ys) := by
      rw [← Nat.add_min_add_right]
      exact hinsert.min hdelete
    rw [dist_cons_cons]
    unfold cell
    by_cases heq : x = y
    · subst heq
      have hkeep := hdiag.cons_cons x
      simp only [decide_true, if_true, Nat.add_zero]
      split_ifs
      · exact hkeep.min hmin
      · exact hkeep
    · simp only [heq, decide_false, Bool.false_eq_true, if_false]
      split_ifs with hallow
      · exact ((hdiag.cons_cons x).snoc (.replace [] ys x y hallow)).min hmin
      · exact hmin

theorem dist_isLeast (xs ys : List α) : IsLeast { n | Edits allow n xs ys } (dist allow xs ys) :=
  ⟨edits_dist xs ys, fun _ h => dist_le_of_edits h⟩

theorem dist_reverse (xs ys : List α) : dist allow xs.reverse ys.reverse = dist allow xs ys := by
  refine (dist_isLeast xs.reverse ys.reverse).unique ?_
  simp only [edits_reverse_iff]
  exact dist_isLeast xs ys

theorem dist_le_length (xs ys : List α) : dist allow xs ys ≤ xs.length + ys.length := by
  induction xs with
  | nil => simp
  | cons x xs ih =>
    have hnear : dist allow (x :: xs) ys ≤ dist allow xs ys + 1 := (dist_cons_near xs ys x).2
    rw [length_cons]
    omega

/-! ## The last elements -/

theorem dist_concat (xs ys : List α) (x y : α) :
    dist allow (xs ++ [x]) (ys ++ [y]) =
      cell allow (x = y) (dist allow xs ys) (dist allow (xs ++ [x]) ys)
        (dist allow xs (ys ++ [y])) := by
  have hrev : ∀ xs ys : List α, dist allow xs ys = dist allow xs.reverse ys.reverse := fun xs ys =>
    (dist_reverse xs ys).symm
  rw [hrev (xs ++ [x]) (ys ++ [y]), hrev xs ys, hrev (xs ++ [x]) ys, hrev xs (ys ++ [y])]
  simp only [reverse_append, reverse_cons, reverse_nil, nil_append, singleton_append]
  exact dist_cons_cons x y xs.reverse ys.reverse

/-- Without the last element of one sequence, some part of the other one is not farther away. -/
theorem exists_take_concat (xs ys : List α) (x : α) :
    ∃ i ≤ ys.length, dist allow xs (ys.take i) ≤ dist allow (xs ++ [x]) ys := by
  induction ys using List.reverseRecOn with
  | nil =>
    simp
  | append_singleton ys y ih =>
    obtain ⟨i, hi, hle⟩ := ih
    have htake : (ys ++ [y]).take i = ys.take i := take_append_of_le_length hi
    have hall : (ys ++ [y]).take ys.length = ys := by simp
    have hfull : (ys ++ [y]).take (ys.length + 1) = ys ++ [y] := take_of_length_le (by simp)
    have hlength : (ys ++ [y]).length = ys.length + 1 := by simp
    rw [dist_concat]
    by_cases hdiag : dist allow xs ys ≤ cell allow (x = y) (dist allow xs ys)
        (dist allow (xs ++ [x]) ys) (dist allow xs (ys ++ [y]))
    · exact ⟨ys.length, by omega, by rwa [hall]⟩
    · by_cases htop : dist allow xs (ys ++ [y]) ≤ cell allow (x = y) (dist allow xs ys)
        (dist allow (xs ++ [x]) ys) (dist allow xs (ys ++ [y]))
      · exact ⟨ys.length + 1, by omega, by rwa [hfull]⟩
      · refine ⟨i, by omega, ?_⟩
        rw [htake]
        revert hdiag htop
        unfold cell
        split_ifs <;> omega

/-- Some part of one sequence is as near to each part of the other one as the whole is. -/
theorem exists_take (xs ys : List α) (j : Nat) :
    ∃ i ≤ ys.length, dist allow (xs.take j) (ys.take i) ≤ dist allow xs ys := by
  induction xs using List.reverseRecOn generalizing ys with
  | nil => exact ⟨ys.length, le_rfl, by simp⟩
  | append_singleton xs x ih =>
    by_cases hj : j ≤ xs.length
    · obtain ⟨i, hi, hle⟩ : ∃ i ≤ ys.length,
          dist allow xs (ys.take i) ≤ dist allow (xs ++ [x]) ys := exists_take_concat xs ys x
      obtain ⟨k, hk, hle'⟩ := ih (ys.take i)
      rw [length_take] at hk
      rw [take_take, Nat.min_eq_left (by omega)] at hle'
      refine ⟨k, by omega, ?_⟩
      rw [take_append_of_le_length hj]
      exact hle'.trans hle
    · refine ⟨ys.length, le_rfl, ?_⟩
      rw [take_of_length_le (by simp; omega), take_length]

end Zapcc.EditDistance
