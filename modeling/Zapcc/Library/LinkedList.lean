import Mathlib.Data.List.Chain
import Mathlib.Data.List.Nodup

/-!
# Singly linked lists in a heap

`Linked previous start cells` says that the list which starts at the pointer `start` and is
linked through the field `previous` ends and has exactly the cells `cells`, in this order.
`skipWhile` and `findNext` are loops that walk such a list, with enough fuel for every cell.
`Linked.unlink` is the rule for patching a cell out of the middle.
-/

namespace Zapcc.LinkedList

open Function

variable {Addr : Type*} {previous : Addr → Option Addr} {start : Option Addr} {cells : List Addr}

/-- The list that starts at `start` has exactly these cells, in this order. -/
inductive Linked (previous : Addr → Option Addr) : Option Addr → List Addr → Prop where
  | nil : Linked previous none []
  | cons {a : Addr} {rest : List Addr} :
      Linked previous (previous a) rest → Linked previous (some a) (a :: rest)

namespace Linked

theorem start_eq (h : Linked previous start cells) : start = cells.head? := by
  cases h with
  | nil | cons _ => rfl

theorem tail {a : Addr} {rest : List Addr} (h : Linked previous start (a :: rest)) :
    Linked previous (previous a) rest := by
  cases h with
  | cons h => exact h

variable {before : List Addr} {after : List Addr}

theorem suffix {a : Addr}
    (h : Linked previous start (before ++ a :: after)) : Linked previous (previous a) after := by
  induction before generalizing start with
  | nil => exact h.tail
  | cons b before ih => exact ih h.tail

theorem isChain (h : Linked previous start cells) :
    cells.IsChain fun a b => previous a = some b := by
  induction h with
  | nil => exact .nil
  | cons h ih =>
    refine ih.cons fun b hb => ?_
    rw [h.start_eq]
    exact hb

theorem previous_of_getLast {last : Addr} (h : Linked previous start cells)
    (hlast : cells.getLast? = some last) : previous last = none := by
  obtain ⟨before, rfl⟩ := List.getLast?_eq_some_iff.mp hlast
  exact h.suffix.start_eq

theorem start_ne {next target : Addr}
    (h : Linked previous start (before ++ next :: target :: after))
    (hnodup : (before ++ next :: target :: after).Nodup) : start ≠ some target := by
  rw [h.start_eq]
  cases before with
  | nil | cons b before => simp_all

theorem congr {others : Addr → Option Addr} (h : Linked previous start cells)
    (heq : ∀ a ∈ cells, others a = previous a) : Linked others start cells := by
  induction h with
  | nil => exact .nil
  | cons h ih =>
    refine .cons ?_
    rw [heq _ (List.mem_cons_self ..)]
    exact ih fun a ha => heq a (List.mem_cons_of_mem _ ha)

variable [DecidableEq Addr]

theorem update_of_notMem {a : Addr} {target : Option Addr} (h : Linked previous start cells)
    (ha : a ∉ cells) : Linked (Function.update previous a target) start cells := by
  refine h.congr fun b hb => ?_
  rw [update_of_ne]
  intro heq
  subst heq
  exact ha hb

theorem push {a : Addr} (h : Linked previous start cells) (ha : a ∉ cells) :
    Linked (Function.update previous a start) (some a) (a :: cells) := by
  refine .cons ?_
  rw [update_self]
  exact h.update_of_notMem ha

/-- Patching the cell in front of `target` to point behind it takes `target` out. -/
theorem unlink {next target : Addr}
    (h : Linked previous start (before ++ next :: target :: after))
    (hnodup : (before ++ next :: target :: after).Nodup) :
    Linked (Function.update previous next (previous target)) start (before ++ next :: after) := by
  induction before generalizing start with
  | nil =>
    cases h with
    | cons h =>
      have hafter : Linked previous (previous target) after := h.tail
      have hnext : next ∉ after := by
        simp only [List.nil_append, List.nodup_cons, List.mem_cons, not_or] at hnodup
        exact hnodup.1.2
      exact .cons (by rw [update_self]; exact hafter.update_of_notMem hnext)
  | cons b before ih =>
    cases h with
    | cons h =>
      rw [List.cons_append, List.nodup_cons] at hnodup
      have hb : b ≠ next := by
        intro heq
        subst heq
        exact hnodup.1 (by simp)
      refine .cons ?_
      rw [update_of_ne hb]
      exact ih h hnodup.2

/-- Patching a cell to point to a new one, and the new one to what followed, puts it in. -/
theorem insertAfter {a new : Addr}
    (h : Linked previous start (before ++ a :: after)) (hnodup : (before ++ a :: after).Nodup)
    (hnew : new ∉ before ++ a :: after) :
    Linked (Function.update (Function.update previous new (previous a)) a (some new)) start
      (before ++ a :: new :: after) := by
  induction before generalizing start with
  | nil =>
    cases h with
    | cons h =>
      simp only [List.nil_append, List.mem_cons, not_or] at hnew
      have ha : a ∉ after := (List.nodup_cons.mp hnodup).1
      refine .cons ?_
      rw [update_self]
      refine .cons ?_
      rw [update_of_ne hnew.1, update_self]
      exact (h.update_of_notMem hnew.2).update_of_notMem ha
  | cons b before ih =>
    cases h with
    | cons h =>
      rw [List.cons_append, List.nodup_cons] at hnodup
      rw [List.cons_append, List.mem_cons, not_or] at hnew
      have hb : b ≠ a := by
        intro heq
        subst heq
        exact hnodup.1 (by simp)
      refine .cons ?_
      rw [update_of_ne hb, update_of_ne (Ne.symm hnew.1)]
      exact ih h hnodup.2 hnew.2

end Linked

/-- The loop `while (it && p(it)) it = it->previous`. There is no result when the fuel runs
out. -/
def skipWhile (previous : Addr → Option Addr) (p : Addr → Bool) :
    Nat → Option Addr → Option (Option Addr)
  | 0, _ => none
  | _ + 1, none => some none
  | fuel + 1, some a => if p a then skipWhile previous p fuel (previous a) else some (some a)

theorem Linked.skipWhile_eq (h : Linked previous start cells) (p : Addr → Bool) {fuel : Nat}
    (hfuel : cells.length < fuel) :
    ∃ found, skipWhile previous p fuel start = some found ∧
      Linked previous found (cells.dropWhile p) := by
  induction h generalizing fuel with
  | nil =>
    obtain ⟨fuel, rfl⟩ := Nat.exists_eq_succ_of_ne_zero (Nat.ne_zero_of_lt hfuel)
    exact ⟨none, rfl, .nil⟩
  | @cons a rest h ih =>
    obtain ⟨fuel, rfl⟩ := Nat.exists_eq_succ_of_ne_zero (Nat.ne_zero_of_lt hfuel)
    unfold skipWhile
    cases hp : p a with
    | true =>
      rw [if_pos rfl, List.dropWhile_cons_of_pos hp]
      exact ih (by simpa using hfuel)
    | false =>
      rw [if_neg Bool.false_ne_true, List.dropWhile_cons_of_neg (by simp [hp])]
      exact ⟨some a, rfl, .cons h⟩

variable [DecidableEq Addr]

/-- The loop `while (next->previous != target) next = next->previous`. There is no result when
it reads through a null pointer, or when the fuel runs out. -/
def findNext (previous : Addr → Option Addr) (target : Addr) : Nat → Option Addr → Option Addr
  | 0, _ => none
  | _ + 1, none => none
  | fuel + 1, some next =>
    if previous next = some target then some next
    else findNext previous target fuel (previous next)

theorem Linked.findNext_eq {next target : Addr}
    (h : Linked previous start (before ++ next :: target :: after))
    (hnodup : (before ++ next :: target :: after).Nodup) {fuel : Nat}
    (hfuel : before.length < fuel) : findNext previous target fuel start = some next := by
  induction before generalizing start fuel with
  | nil =>
    obtain ⟨fuel, rfl⟩ := Nat.exists_eq_succ_of_ne_zero (Nat.ne_zero_of_lt hfuel)
    cases h with
    | cons h =>
      exact if_pos h.start_eq
  | cons b before ih =>
    obtain ⟨fuel, rfl⟩ := Nat.exists_eq_succ_of_ne_zero (Nat.ne_zero_of_lt hfuel)
    cases h with
    | cons h =>
      rw [List.cons_append, List.nodup_cons] at hnodup
      have hne : previous b ≠ some target := by
        intro heq
        have hhead := h.start_eq.symm.trans heq
        cases before with
        | nil =>
          have htarget : next = target := by simpa using hhead
          simp [htarget] at hnodup
        | cons c before =>
          have htarget : c = target := by simpa using hhead
          simp [htarget] at hnodup
      unfold findNext
      rw [if_neg hne]
      exact ih h hnodup.2 (by simpa using hfuel)

end Zapcc.LinkedList
