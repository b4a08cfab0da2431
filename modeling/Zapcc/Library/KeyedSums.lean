import Mathlib.Algebra.BigOperators.Group.List.Basic
import Mathlib.Algebra.Order.Ring.Int

/-!
# Sums over the keys below a bound

A list of keys and values that is sorted by its keys, as a map that sums the values of equal keys.
`sumBelow_addAt` says what an addition changes; the lemmas about `++` find the part of the list that
it changes.
-/

namespace Zapcc.KeyedSums

open List

variable {κ α : Type}

section Order

variable [LinearOrder κ]

/-- The keys are in strictly increasing order. -/
def Sorted (xs : List (κ × α)) : Prop := xs.Pairwise fun x y => x.1 < y.1

variable {xs ys : List (κ × α)}

theorem Sorted.append (h : Sorted (xs ++ ys)) :
    Sorted xs ∧ Sorted ys ∧ ∀ x ∈ xs, ∀ y ∈ ys, x.1 < y.1 := pairwise_append.mp h

theorem findIdx_spec (k : κ) (xs : List (κ × α)) (hsorted : Sorted xs) :
    (∀ x ∈ xs.take (xs.findIdx fun x => decide (k ≤ x.1)), x.1 < k) ∧
      ∀ x ∈ xs.drop (xs.findIdx fun x => decide (k ≤ x.1)), k ≤ x.1 := by
  induction xs with
  | nil => exact ⟨fun x hx => absurd hx not_mem_nil, fun x hx => absurd hx not_mem_nil⟩
  | cons x xs ih =>
    obtain ⟨hx, hxs⟩ := pairwise_cons.mp hsorted
    rw [findIdx_cons]
    by_cases hk : k ≤ x.1
    · rw [decide_eq_true hk]
      refine ⟨fun y hy => absurd hy not_mem_nil, fun y hy => ?_⟩
      rcases mem_cons.mp hy with rfl | hy
      · exact hk
      · exact hk.trans (le_of_lt (hx y hy))
    · rw [decide_eq_false hk]
      obtain ⟨htake, hdrop⟩ := ih hxs
      refine ⟨fun y hy => ?_, hdrop⟩
      rcases mem_cons.mp hy with rfl | hy
      · exact not_le.mp hk
      · exact htake y hy

end Order

section Sum

variable [AddCommMonoid α]

def total (xs : List (κ × α)) : α := (xs.map Prod.snd).sum

variable {x : κ × α} {xs ys : List (κ × α)}

theorem total_nil : total ([] : List (κ × α)) = 0 := rfl

theorem total_cons : total (x :: xs) = x.2 + total xs := sum_cons

theorem total_append : total (xs ++ ys) = total xs + total ys := by
  rw [total, map_append, sum_append]
  rfl

end Sum

variable [LinearOrder κ] [AddCommMonoid α]

/-- The sum of the values whose keys are below a bound. -/
def sumBelow (k : κ) (xs : List (κ × α)) : α := total (xs.filter fun x => x.1 < k)

/-- Add to the value of a key. -/
def addAt (k : κ) (d : α) : List (κ × α) → List (κ × α)
  | [] => [(k, d)]
  | x :: xs =>
    if x.1 < k then x :: addAt k d xs
    else if x.1 = k then (x.1, x.2 + d) :: xs
    else (k, d) :: x :: xs

variable {k : κ} {d : α} {x : κ × α} {xs ys : List (κ × α)}

theorem addAt_nil : addAt k d ([] : List (κ × α)) = [(k, d)] := rfl

theorem addAt_cons : addAt k d (x :: xs) =
    if x.1 < k then x :: addAt k d xs
    else if x.1 = k then (x.1, x.2 + d) :: xs
    else (k, d) :: x :: xs := rfl

theorem sumBelow_append : sumBelow k (xs ++ ys) = sumBelow k xs + sumBelow k ys := by
  rw [sumBelow, filter_append, total_append]
  rfl

theorem sumBelow_cons : sumBelow k (x :: xs) = (if x.1 < k then x.2 else 0) + sumBelow k xs := by
  rw [sumBelow, filter_cons]
  by_cases hx : x.1 < k
  · rw [if_pos (decide_eq_true hx), if_pos hx, total_cons]
    rfl
  · rw [if_neg (fun h => hx (of_decide_eq_true h)), if_neg hx, zero_add]
    rfl

theorem sumBelow_of_lt (h : ∀ x ∈ xs, x.1 < k) : sumBelow k xs = total xs := by
  rw [sumBelow, filter_eq_self.mpr fun x hx => decide_eq_true (h x hx)]

theorem sumBelow_of_le (h : ∀ x ∈ xs, k ≤ x.1) : sumBelow k xs = 0 := by
  have hnil : xs.filter (fun x => x.1 < k) = [] := by
    rw [filter_eq_nil_iff]
    intro x hx hlt
    exact absurd (of_decide_eq_true hlt) (not_lt.mpr (h x hx))
  rw [sumBelow, hnil]
  rfl

theorem sumBelow_addAt (k' : κ) :
    sumBelow k' (addAt k d xs) = sumBelow k' xs + if k < k' then d else 0 := by
  induction xs with
  | nil => rw [addAt_nil, sumBelow_cons, add_comm]
  | cons x xs ih =>
    rw [addAt_cons]
    by_cases hlt : x.1 < k
    · rw [if_pos hlt, sumBelow_cons, sumBelow_cons, ih, add_assoc]
    · rw [if_neg hlt]
      by_cases heq : x.1 = k
      · rw [if_pos heq, sumBelow_cons, sumBelow_cons, heq]
        by_cases hk : k < k'
        · rw [if_pos hk, if_pos hk, if_pos hk, add_right_comm]
        · rw [if_neg hk, if_neg hk, if_neg hk, add_zero]
      · rw [if_neg heq, sumBelow_cons, add_comm]

theorem total_addAt : total (addAt k d xs) = total xs + d := by
  induction xs with
  | nil => rw [addAt_nil, total_cons, add_comm]
  | cons x xs ih =>
    rw [addAt_cons]
    split_ifs with hlt heq
    · rw [total_cons, total_cons, ih, add_assoc]
    · rw [total_cons, total_cons, add_right_comm]
    · rw [total_cons, add_comm]

theorem mem_addAt {y : κ × α} (h : y ∈ addAt k d xs) : y.1 = k ∨ ∃ x ∈ xs, x.1 = y.1 := by
  induction xs with
  | nil =>
    rw [addAt_nil, mem_singleton] at h
    exact .inl (congrArg Prod.fst h)
  | cons x xs ih =>
    rw [addAt_cons] at h
    split_ifs at h with hlt heq
    · rcases mem_cons.mp h with rfl | h
      · exact .inr ⟨y, mem_cons_self .., rfl⟩
      · rcases ih h with hk | ⟨z, hz, hkey⟩
        · exact .inl hk
        · exact .inr ⟨z, mem_cons_of_mem _ hz, hkey⟩
    · rcases mem_cons.mp h with rfl | h
      · exact .inl heq
      · exact .inr ⟨y, mem_cons_of_mem _ h, rfl⟩
    · rcases mem_cons.mp h with rfl | h
      · exact .inl rfl
      · exact .inr ⟨y, h, rfl⟩

theorem Sorted.addAt (h : Sorted xs) : Sorted (addAt k d xs) := by
  induction xs with
  | nil => exact pairwise_singleton ..
  | cons x xs ih =>
    obtain ⟨hx, hxs⟩ := pairwise_cons.mp h
    rw [addAt_cons]
    split_ifs with hlt heq
    · refine pairwise_cons.mpr ⟨fun y hy => ?_, ih hxs⟩
      rcases mem_addAt hy with hk | ⟨z, hz, hkey⟩
      · rw [hk]
        exact hlt
      · rw [← hkey]
        exact hx z hz
    · exact pairwise_cons.mpr ⟨fun y hy => hx y hy, hxs⟩
    · have hkx : k < x.1 := lt_of_le_of_ne (not_lt.mp hlt) fun h => heq h.symm
      refine pairwise_cons.mpr ⟨fun y hy => ?_, h⟩
      rcases mem_cons.mp hy with rfl | hy
      · exact hkx
      · exact hkx.trans (hx y hy)

theorem addAt_append_left (h : ∀ x ∈ xs, x.1 < k) : addAt k d (xs ++ ys) = xs ++ addAt k d ys := by
  induction xs with
  | nil => rfl
  | cons x xs ih =>
    rw [cons_append, addAt_cons, if_pos (h x (mem_cons_self ..)),
      ih fun y hy => h y (mem_cons_of_mem _ hy)]
    rfl

theorem addAt_append_right (h : ∀ y ∈ ys, k < y.1) :
    addAt k d (xs ++ ys) = addAt k d xs ++ ys := by
  induction xs with
  | nil =>
    cases ys with
    | nil => rfl
    | cons y ys =>
      have hy := h y (mem_cons_self ..)
      show (if y.1 < k then _ else if y.1 = k then _ else (k, d) :: y :: ys) = (k, d) :: y :: ys
      rw [if_neg (not_lt.mpr (le_of_lt hy)), if_neg (ne_of_gt hy)]
  | cons x xs ih =>
    rw [cons_append, addAt_cons, addAt_cons]
    split_ifs with hlt heq
    · rw [ih]
      rfl
    · rfl
    · rfl

theorem addAt_of_eq (hx : x.1 = k) : addAt k d (x :: xs) = (x.1, x.2 + d) :: xs := by
  rw [addAt, if_neg (not_lt.mpr (le_of_eq hx.symm)), if_pos hx]

end Zapcc.KeyedSums
