import Mathlib.Algebra.Order.Group.Nat
import Mathlib.Algebra.BigOperators.Group.List.Basic

/-!
# Sequences of segments

A segment has a size and can be cut. `total` is the size of a sequence of segments, and
`takeUnits` and `dropUnits` are its first units and the units after them, where the segment in the
middle is cut.
-/

namespace Zapcc.Segments

open List

/-- Things of some size that can be cut. -/
class Segment (α : Type*) where
  size : α → Nat
  front : α → Nat → α
  back : α → Nat → α
  size_front (x : α) (n : Nat) : size (front x n) = n
  size_back (x : α) (n : Nat) : size (back x n) = size x - n

export Segment (size front back)

section

variable {α : Type*} {size : α → Nat}

def total (size : α → Nat) : List α → Nat
  | [] => 0
  | x :: xs => size x + total size xs

theorem total_nil : total size [] = 0 := rfl

theorem total_cons (x : α) (xs : List α) : total size (x :: xs) = size x + total size xs := rfl

theorem total_append (xs ys : List α) :
    total size (xs ++ ys) = total size xs + total size ys := by
  induction xs with
  | nil => exact (Nat.zero_add _).symm
  | cons x xs ih =>
    show size x + total size (xs ++ ys) = size x + total size xs + total size ys
    rw [ih, Nat.add_assoc]

/-- The loop `for (; Offset >= Offs + x.size(); ++i) Offs += x.size();` from `i` on. There is no
result when it leaves the sequence. -/
def findAt (size : α → Nat) (Offset : Nat) : List α → Nat → Nat → Option (Nat × Nat)
  | [], _, _ => none
  | x :: xs, i, Offs =>
    if Offs + size x ≤ Offset then findAt size Offset xs (i + 1) (Offs + size x)
    else some (i, Offs)

/-- The loop `for (; Offset > Offs + x.size(); ++i) Offs += x.size();` from `i` on. There is no
result when it leaves the sequence. -/
def findReaching (size : α → Nat) (Offset : Nat) : List α → Nat → Nat → Option (Nat × Nat)
  | [], _, _ => none
  | x :: xs, i, Offs =>
    if Offs + size x < Offset then findReaching size Offset xs (i + 1) (Offs + size x)
    else some (i, Offs)

/-- The loop `for (; Offset > Offs; ++i) Offs += x.size();` from `i` on. There is no result when it
leaves the sequence. -/
def findStart (size : α → Nat) (Offset : Nat) : List α → Nat → Nat → Option (Nat × Nat)
  | [], i, Offs => if Offs < Offset then none else some (i, Offs)
  | x :: xs, i, Offs =>
    if Offs < Offset then findStart size Offset xs (i + 1) (Offs + size x) else some (i, Offs)

theorem findAt_spec {Offset Offs : Nat} {xs : List α} (i : Nat) (hle : Offs ≤ Offset)
    (hlt : Offset < Offs + total size xs) :
    ∃ before x after, xs = before ++ x :: after ∧
      findAt size Offset xs i Offs = some (i + before.length, Offs + total size before) ∧
      Offs + total size before ≤ Offset ∧ Offset < Offs + total size before + size x := by
  induction xs generalizing i Offs with
  | nil => exact absurd hlt (by simp only [total_nil]; omega)
  | cons x xs ih =>
    rw [total_cons] at hlt
    by_cases hskip : Offs + size x ≤ Offset
    · obtain ⟨before, y, after, rfl, hfind, hlow, hhigh⟩ := ih (i + 1) hskip (by omega)
      refine ⟨x :: before, y, after, rfl, ?_, ?_, ?_⟩
      · rw [findAt, if_pos hskip, hfind, length_cons, total_cons]
        congr 2 <;> omega
      · rw [total_cons]
        omega
      · rw [total_cons]
        omega
    · refine ⟨[], x, xs, rfl, ?_, by simpa [total_nil] using hle, ?_⟩
      · rw [findAt, if_neg hskip]
        rfl
      · omega

theorem findReaching_spec {Offset Offs : Nat} {xs : List α} (i : Nat) (hne : xs ≠ [])
    (hle : Offset ≤ Offs + total size xs) :
    ∃ before x after, xs = before ++ x :: after ∧
      findReaching size Offset xs i Offs = some (i + before.length, Offs + total size before) ∧
      (before = [] ∨ Offs + total size before < Offset) ∧
      Offset ≤ Offs + total size before + size x := by
  induction xs generalizing i Offs with
  | nil => exact absurd rfl hne
  | cons x xs ih =>
    rw [total_cons] at hle
    by_cases hskip : Offs + size x < Offset
    · have hrest : xs ≠ [] := by
        rintro rfl
        rw [total_nil] at hle
        omega
      obtain ⟨before, y, after, rfl, hfind, hlow, hhigh⟩ :=
        @ih (Offs + size x) (i + 1) hrest (by omega)
      refine ⟨x :: before, y, after, rfl, ?_, .inr ?_, ?_⟩
      · rw [findReaching, if_pos hskip, hfind, length_cons, total_cons]
        congr 2 <;> omega
      · rw [total_cons]
        rcases hlow with rfl | hlow
        · rw [total_nil]
          omega
        · omega
      · rw [total_cons]
        omega
    · refine ⟨[], x, xs, rfl, ?_, .inl rfl, ?_⟩
      · rw [findReaching, if_neg hskip]
        rfl
      · omega

theorem findStart_spec (Offs i : Nat) (before after : List α) (hpos : ∀ x ∈ before, 0 < size x) :
    findStart size (Offs + total size before) (before ++ after) i Offs =
      some (i + before.length, Offs + total size before) := by
  induction before generalizing i Offs with
  | nil =>
    cases after with
    | nil | cons x after => exact if_neg (Nat.lt_irrefl _)
  | cons x before ih =>
    have hx := hpos x (mem_cons_self ..)
    have hrest := ih (Offs + size x) (i + 1) fun y hy => hpos y (mem_cons_of_mem _ hy)
    rw [cons_append, findStart, total_cons, if_pos (by omega), ← Nat.add_assoc, hrest, length_cons]
    congr 2
    omega

end

variable {α : Type*} [Segment α]

/-- The first units of a sequence. -/
def takeUnits : Nat → List α → List α
  | _, [] => []
  | n, x :: xs =>
    if n = 0 then [] else if n < size x then [front x n] else x :: takeUnits (n - size x) xs

/-- The sequence after its first units. -/
def dropUnits : Nat → List α → List α
  | _, [] => []
  | n, x :: xs =>
    if n = 0 then x :: xs else if n < size x then back x n :: xs else dropUnits (n - size x) xs

theorem takeUnits_zero (xs : List α) : takeUnits 0 xs = [] := by
  cases xs with
  | nil => rfl
  | cons x xs => exact if_pos rfl

theorem dropUnits_zero (xs : List α) : dropUnits 0 xs = xs := by
  cases xs with
  | nil => rfl
  | cons x xs => exact if_pos rfl

/-- The segments of a sequence have units. -/
def AllPos (xs : List α) : Prop := ∀ x ∈ xs, 0 < size x

theorem AllPos.append {xs ys : List α} (hx : AllPos xs) (hy : AllPos ys) : AllPos (xs ++ ys) := by
  intro z hz
  rcases List.mem_append.mp hz with h | h
  · exact hx z h
  · exact hy z h

theorem AllPos.left {xs ys : List α} (h : AllPos (xs ++ ys)) : AllPos xs :=
  fun z hz => h z (mem_append_left _ hz)

theorem AllPos.right {xs ys : List α} (h : AllPos (xs ++ ys)) : AllPos ys :=
  fun z hz => h z (mem_append_right _ hz)

theorem AllPos.total_pos {xs : List α} (h : AllPos xs) (hne : xs ≠ []) : 0 < total size xs := by
  cases xs with
  | nil => exact absurd rfl hne
  | cons x xs => exact Nat.add_pos_left (h x (mem_cons_self ..)) _

theorem AllPos.eq_nil {xs : List α} (h : AllPos xs) (hzero : total size xs = 0) : xs = [] := by
  by_contra hne
  exact Nat.ne_of_gt (h.total_pos hne) hzero

theorem units_append_of_le {n : Nat} {xs : List α} (ys : List α) (h : n ≤ total size xs) :
    takeUnits n (xs ++ ys) = takeUnits n xs ∧ dropUnits n (xs ++ ys) = dropUnits n xs ++ ys := by
  induction xs generalizing n with
  | nil =>
    have hzero : n = 0 := Nat.eq_zero_of_le_zero h
    subst hzero
    exact ⟨takeUnits_zero ys, dropUnits_zero ys⟩
  | cons x xs ih =>
    have hrest : n - size x ≤ total size xs := by
      rw [total_cons] at h
      omega
    obtain ⟨htake, hdrop⟩ := ih hrest
    simp only [cons_append, takeUnits, dropUnits]
    split_ifs
    · exact ⟨rfl, rfl⟩
    · exact ⟨rfl, rfl⟩
    · exact ⟨by rw [htake], hdrop⟩

theorem units_append_of_ge {n : Nat} {xs : List α} (ys : List α) (hpos : AllPos xs)
    (h : total size xs ≤ n) :
    takeUnits n (xs ++ ys) = xs ++ takeUnits (n - total size xs) ys ∧
      dropUnits n (xs ++ ys) = dropUnits (n - total size xs) ys := by
  induction xs generalizing n with
  | nil => exact ⟨rfl, rfl⟩
  | cons x xs ih =>
    have hx := hpos x (mem_cons_self ..)
    rw [total_cons] at h
    obtain ⟨htake, hdrop⟩ := ih (fun z hz => hpos z (mem_cons_of_mem _ hz))
      (show total size xs ≤ n - size x by omega)
    have hsub : n - total size (x :: xs) = n - size x - total size xs := Nat.sub_add_eq ..
    simp only [cons_append, takeUnits, dropUnits]
    rw [if_neg (by omega), if_neg (by omega), if_neg (by omega), if_neg (by omega), htake, hdrop,
      hsub]
    exact ⟨rfl, rfl⟩

theorem units_total {xs : List α} (hpos : AllPos xs) :
    takeUnits (total size xs) xs = xs ∧ dropUnits (total size xs) xs = [] := by
  obtain ⟨htake, hdrop⟩ := units_append_of_ge [] hpos (Nat.le_refl _)
  rw [append_nil] at htake hdrop
  exact ⟨htake.trans (append_nil _), hdrop⟩

theorem units_boundary {xs : List α} (ys : List α) (hpos : AllPos xs) :
    takeUnits (total size xs) (xs ++ ys) = xs ∧ dropUnits (total size xs) (xs ++ ys) = ys := by
  obtain ⟨htake, hdrop⟩ := units_append_of_ge ys hpos (Nat.le_refl _)
  rw [Nat.sub_self, takeUnits_zero, append_nil] at htake
  rw [Nat.sub_self, dropUnits_zero] at hdrop
  exact ⟨htake, hdrop⟩

theorem units_inside {n : Nat} {xs : List α} {x : α} (ys : List α) (hpos : AllPos xs) (hn : 0 < n)
    (hlt : n < size x) :
    takeUnits (total size xs + n) (xs ++ x :: ys) = xs ++ [front x n] ∧
      dropUnits (total size xs + n) (xs ++ x :: ys) = back x n :: ys := by
  obtain ⟨htake, hdrop⟩ := units_append_of_ge (x :: ys) hpos (Nat.le_add_right (total size xs) n)
  rw [Nat.add_sub_cancel_left, takeUnits, if_neg (by omega), if_pos hlt] at htake
  rw [Nat.add_sub_cancel_left, dropUnits, if_neg (by omega), if_pos hlt] at hdrop
  exact ⟨htake, hdrop⟩

theorem units_of_boundary {n : Nat} {xs ys : List α} (hpos : AllPos xs) (hn : n = total size xs) :
    takeUnits n (xs ++ ys) ++ dropUnits n (xs ++ ys) = xs ++ ys := by
  obtain ⟨htake, hdrop⟩ := units_boundary ys hpos
  rw [hn, htake, hdrop]

theorem total_takeUnits {n : Nat} {xs : List α} (h : n ≤ total size xs) :
    total size (takeUnits n xs) = n := by
  induction xs generalizing n with
  | nil => exact (Nat.eq_zero_of_le_zero h).symm
  | cons x xs ih =>
    rw [total_cons] at h
    rw [takeUnits]
    split_ifs with hzero hlt
    · exact hzero.symm
    · rw [total_cons, total_nil, Segment.size_front, Nat.add_zero]
    · rw [total_cons, ih (by omega)]
      omega

theorem total_dropUnits (n : Nat) (xs : List α) :
    total size (dropUnits n xs) = total size xs - n := by
  induction xs generalizing n with
  | nil => exact (Nat.zero_sub n).symm
  | cons x xs ih =>
    rw [dropUnits]
    split_ifs with hzero hlt
    · rw [hzero, Nat.sub_zero]
    · rw [total_cons, total_cons, Segment.size_back]
      omega
    · rw [ih, total_cons]
      omega

/-- Of two decompositions of a sequence, the one with the smaller front is finer. -/
theorem exists_of_append_eq {xs ys ls rs : List α} (heq : xs ++ ys = ls ++ rs) (hpos : AllPos xs)
    (h : total size xs ≤ total size ls) : ∃ mid, ls = xs ++ mid ∧ ys = mid ++ rs := by
  rcases List.append_eq_append_iff.mp heq with ⟨mid, hls, hys⟩ | ⟨mid, hxs, hrs⟩
  · exact ⟨mid, hls, hys⟩
  · subst hxs
    rw [total_append] at h
    have hmid := AllPos.right hpos |>.eq_nil (show total size mid = 0 by omega)
    subst hmid
    exact ⟨[], by simp, by simpa using hrs.symm⟩

end Zapcc.Segments
