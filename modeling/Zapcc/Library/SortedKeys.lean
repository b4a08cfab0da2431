import Mathlib.Order.Lattice

/-!
# Lists that are sorted by a key

A bound cuts a list into what is below it and what is above it: `below_append_above`. The lemmas
count what is below another bound after a cut and an insertion.
-/

namespace Zapcc.SortedKeys

open List

variable {α κ : Type} [LinearOrder κ] (key : α → κ)

/-- The elements whose keys are below a bound. -/
def below (k : κ) (xs : List α) : List α := xs.filter fun x => key x < k

/-- The elements whose keys are not below a bound. -/
def above (k : κ) (xs : List α) : List α := xs.filter fun x => k ≤ key x

variable {key} {k : κ} {x : α} {xs ys : List α}

theorem mem_below : x ∈ below key k xs ↔ x ∈ xs ∧ key x < k := by
  rw [below, mem_filter, decide_eq_true_iff]

theorem mem_above : x ∈ above key k xs ↔ x ∈ xs ∧ k ≤ key x := by
  rw [above, mem_filter, decide_eq_true_iff]

theorem below_append : below key k (xs ++ ys) = below key k xs ++ below key k ys :=
  filter_append ..

theorem below_of_lt (h : ∀ x ∈ xs, key x < k) : below key k xs = xs :=
  filter_eq_self.mpr fun x hx => decide_eq_true (h x hx)

theorem below_of_le (h : ∀ x ∈ xs, k ≤ key x) : below key k xs = [] :=
  filter_eq_nil_iff.mpr fun x hx hlt => absurd (of_decide_eq_true hlt) (not_lt.mpr (h x hx))

theorem below_append_above (h : xs.Pairwise fun x y => key x ≤ key y) (k : κ) :
    below key k xs ++ above key k xs = xs := by
  induction xs with
  | nil => rfl
  | cons x xs ih =>
    obtain ⟨hx, hxs⟩ := pairwise_cons.mp h
    by_cases hlt : key x < k
    · have hbelow : below key k (x :: xs) = x :: below key k xs :=
        filter_cons_of_pos (decide_eq_true hlt)
      have habove : above key k (x :: xs) = above key k xs :=
        filter_cons_of_neg (by rw [decide_eq_true_iff]; exact not_le.mpr hlt)
      rw [hbelow, habove, cons_append, ih hxs]
    · have hle : ∀ y ∈ x :: xs, k ≤ key y := by
        intro y hy
        rcases mem_cons.mp hy with rfl | hy
        · exact not_lt.mp hlt
        · exact (not_lt.mp hlt).trans (hx y hy)
      have habove : above key k (x :: xs) = x :: xs :=
        filter_eq_self.mpr fun y hy => decide_eq_true (hle y hy)
      rw [below_of_le hle, habove, nil_append]

/-- The number of elements below a bound does not change when a list is cut. -/
theorem length_below_cut (k k' : κ) (xs : List α) :
    (below key k' (below key k xs ++ above key k xs)).length = (below key k' xs).length := by
  have hperm : (below key k xs ++ above key k xs).Perm xs := by
    have hnot : above key k xs = xs.filter fun x => !decide (key x < k) := by
      refine filter_congr fun x _ => ?_
      rw [← decide_not, decide_eq_decide, not_lt]
    rw [hnot]
    exact filter_append_perm _ xs
  exact (hperm.filter _).length_eq

/-- Elements put in at a bound. -/
def insertAtKey (key : α → κ) (k : κ) (new xs : List α) : List α :=
  below key k xs ++ (new ++ above key k xs)

theorem length_below_insertAtKey {new : List α} {kn : κ} (hnew : ∀ x ∈ new, key x = kn) (k' : κ) :
    (below key k' (insertAtKey key k new xs)).length =
      (below key k' xs).length + if kn < k' then new.length else 0 := by
  have hcut := @length_below_cut _ _ _ key k k' xs
  rw [below_append, length_append] at hcut
  rw [insertAtKey, below_append, below_append, length_append, length_append]
  by_cases hlt : kn < k'
  · rw [if_pos hlt, below_of_lt fun x hx => (hnew x hx).trans_lt hlt]
    omega
  · rw [if_neg hlt, below_of_le fun x hx => (not_lt.mp hlt).trans_eq (hnew x hx).symm, length_nil]
    omega

end Zapcc.SortedKeys
