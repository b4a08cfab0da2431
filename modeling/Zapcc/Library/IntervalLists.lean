import Mathlib.Data.List.Chain

/-!
# Sorted lists of intervals with values

A list of half-open intervals with values stands for a partial function on the numbers
(`Denotes`). It is `Coalesced` when it is sorted and disjoint, and intervals that touch have
different values. `Denotes.fill` and `Denotes.clear` say what a list stands for after a value was
written over an interval, or after an interval was cut out.
-/

namespace Zapcc.Intervals

open List

/-- The numbers from `start` on and before `end_`, with a value. -/
structure ValuedInterval (V : Type*) where
  start : Nat
  end_ : Nat
  value : V
  deriving DecidableEq, Repr

variable {V : Type*}

/-- `I` ends before `J` starts, and if the two touch they have different values. -/
def Apart (I J : ValuedInterval V) : Prop :=
  I.end_ ≤ J.start ∧ (I.end_ = J.start → I.value ≠ J.value)

/-- A sorted list of disjoint intervals, none of which could be joined with the next one. -/
structure Coalesced (l : List (ValuedInterval V)) : Prop where
  nonempty : ∀ I ∈ l, I.start < I.end_
  apart : l.Pairwise Apart

def Covers (l : List (ValuedInterval V)) (x : Nat) (v : V) : Prop :=
  ∃ I ∈ l, I.start ≤ x ∧ x < I.end_ ∧ I.value = v

/-- The list stands for a partial function. -/
def Denotes (l : List (ValuedInterval V)) (m : Nat → Option V) : Prop :=
  ∀ x v, m x = some v ↔ Covers l x v

/-- A partial function with one value on an interval. -/
def fill (m : Nat → Option V) (a b : Nat) (v : Option V) (x : Nat) : Option V :=
  if a ≤ x ∧ x < b then v else m x

@[simp] theorem covers_nil (x : Nat) (v : V) : ¬ Covers [] x v := by
  rintro ⟨I, hI, -⟩
  exact not_mem_nil hI

@[simp] theorem covers_cons (I : ValuedInterval V) (l : List (ValuedInterval V)) (x : Nat) (v : V) :
    Covers (I :: l) x v ↔ (I.start ≤ x ∧ x < I.end_ ∧ I.value = v) ∨ Covers l x v := by
  unfold Covers
  simp

@[simp] theorem covers_append (l l' : List (ValuedInterval V)) (x : Nat) (v : V) :
    Covers (l ++ l') x v ↔ Covers l x v ∨ Covers l' x v := by
  unfold Covers
  simp only [mem_append, or_and_right, exists_or]

@[simp] theorem coalesced_nil : Coalesced ([] : List (ValuedInterval V)) :=
  ⟨by simp, Pairwise.nil⟩

theorem coalesced_cons {I : ValuedInterval V} {l : List (ValuedInterval V)} :
    Coalesced (I :: l) ↔ I.start < I.end_ ∧ (∀ J ∈ l, Apart I J) ∧ Coalesced l := by
  constructor
  · intro h
    obtain ⟨hI, hl⟩ := pairwise_cons.mp h.apart
    exact ⟨h.nonempty I mem_cons_self, hI, ⟨fun J hJ => h.nonempty J (mem_cons_of_mem _ hJ), hl⟩⟩
  · rintro ⟨hI, hapart, hl⟩
    refine ⟨fun J hJ => ?_, pairwise_cons.mpr ⟨hapart, hl.apart⟩⟩
    rcases mem_cons.mp hJ with rfl | hJ
    · exact hI
    · exact hl.nonempty J hJ

variable {l l' : List (ValuedInterval V)}

theorem coalesced_append :
    Coalesced (l ++ l') ↔ Coalesced l ∧ Coalesced l' ∧ ∀ I ∈ l, ∀ J ∈ l', Apart I J := by
  constructor
  · intro h
    obtain ⟨hl, hl', hapart⟩ := pairwise_append.mp h.apart
    exact ⟨⟨fun I hI => h.nonempty I (mem_append_left _ hI), hl⟩,
      ⟨fun I hI => h.nonempty I (mem_append_right _ hI), hl'⟩, hapart⟩
  · rintro ⟨hl, hl', hapart⟩
    refine ⟨fun I hI => ?_, pairwise_append.mpr ⟨hl.apart, hl'.apart, hapart⟩⟩
    rcases mem_append.mp hI with hI | hI
    · exact hl.nonempty I hI
    · exact hl'.nonempty I hI

theorem Apart.trans {I J K : ValuedInterval V} (h : Apart I J) (hJ : J.start < J.end_)
    (h' : J.end_ ≤ K.start) : Apart I K :=
  ⟨by have := h.1; omega, fun heq => by have := h.1; omega⟩

theorem coalesced_of_isChain {l : List (ValuedInterval V)} (hne : ∀ I ∈ l, I.start < I.end_)
    (hchain : l.IsChain Apart) : Coalesced l := by
  induction l with
  | nil => exact coalesced_nil
  | cons I l ih =>
    have hl : Coalesced l :=
      ih (fun J hJ => hne J (mem_cons_of_mem _ hJ)) hchain.tail
    refine coalesced_cons.mpr ⟨hne I mem_cons_self, fun J hJ => ?_, hl⟩
    cases l with
    | nil => simp at hJ
    | cons K l =>
      have hIK : Apart I K := (isChain_cons_cons.mp hchain).1
      obtain ⟨hK, hKl, -⟩ := coalesced_cons.mp hl
      rcases mem_cons.mp hJ with rfl | hJ
      · exact hIK
      · exact hIK.trans hK (hKl J hJ).1

theorem Coalesced.covers_unique {l : List (ValuedInterval V)} (h : Coalesced l) {x : Nat} {v w : V}
    (hv : Covers l x v) (hw : Covers l x w) : v = w := by
  induction l with
  | nil => exact absurd hv (covers_nil x v)
  | cons I l ih =>
    obtain ⟨-, hI, hl⟩ := coalesced_cons.mp h
    have hafter : ∀ u, Covers l x u → ¬ x < I.end_ := by
      rintro u ⟨J, hJ, hstart, -⟩
      have hle := (hI J hJ).1
      omega
    rcases (covers_cons I l x v).mp hv with ⟨-, hlt, rfl⟩ | hv
    · rcases (covers_cons I l x w).mp hw with ⟨-, -, rfl⟩ | hw
      · rfl
      · exact absurd hlt (hafter w hw)
    · rcases (covers_cons I l x w).mp hw with ⟨-, hlt, -⟩ | hw
      · exact absurd hlt (hafter v hv)
      · exact ih hl hv hw

theorem Denotes.fill {m : Nat → Option V} (h : Denotes l m)
    {a b : Nat} {v : V} (hcompat : ∀ x w, a ≤ x → x < b → Covers l x w → w = v)
    (hl' : ∀ x w, Covers l' x w ↔ Covers l x w ∨ (a ≤ x ∧ x < b ∧ w = v)) :
    Denotes l' (Intervals.fill m a b (some v)) := by
  intro x w
  rw [hl', ← h x w]
  unfold Intervals.fill
  by_cases hx : a ≤ x ∧ x < b
  · rw [if_pos hx, Option.some.injEq]
    constructor
    · rintro rfl
      exact .inr ⟨hx.1, hx.2, rfl⟩
    · rintro (hw | ⟨-, -, rfl⟩)
      · exact (hcompat x w hx.1 hx.2 ((h x w).mp hw)).symm
      · rfl
  · rw [if_neg hx]
    exact ⟨.inl, fun h => h.elim id fun h => absurd ⟨h.1, h.2.1⟩ hx⟩

theorem Denotes.clear {m : Nat → Option V} (h : Denotes l m)
    {a b : Nat} (hl' : ∀ x w, Covers l' x w ↔ Covers l x w ∧ ¬ (a ≤ x ∧ x < b)) :
    Denotes l' (Intervals.fill m a b none) := by
  intro x w
  rw [hl', ← h x w]
  unfold Intervals.fill
  by_cases hx : a ≤ x ∧ x < b
  · simp [hx]
  · simp [hx]

/-! ## Numbers of a list -/

/-- An interval of the list holds the number. -/
def Inside (l : List (ValuedInterval V)) (x : Nat) : Prop := ∃ I ∈ l, I.start ≤ x ∧ x < I.end_

theorem not_inside_nil (x : Nat) : ¬Inside ([] : List (ValuedInterval V)) x := by
  rintro ⟨I, hI, -⟩
  exact not_mem_nil hI

theorem inside_append {x : Nat} : Inside (l ++ l') x ↔ Inside l x ∨ Inside l' x := by
  unfold Inside
  simp only [mem_append, or_and_right, exists_or]

theorem inside_cons {I : ValuedInterval V} {x : Nat} :
    Inside (I :: l) x ↔ (I.start ≤ x ∧ x < I.end_) ∨ Inside l x := by
  unfold Inside
  simp

/-- Intervals that end before some number are not needed for the numbers from it on. -/
theorem inside_append_of_le {x : Nat} (h : ∀ I ∈ l, I.end_ ≤ x) :
    Inside (l ++ l') x ↔ Inside l' x := by
  refine inside_append.trans (or_iff_right ?_)
  rintro ⟨I, hI, -, hlt⟩
  have hle := h I hI
  omega

theorem Coalesced.end_le_of_inside {I : ValuedInterval V} {x : Nat} (h : Coalesced (I :: l))
    (hx : Inside l x) : I.end_ ≤ x := by
  obtain ⟨J, hJ, hstart, -⟩ := hx
  have hle := ((coalesced_cons.mp h).2.1 J hJ).1
  omega

theorem Coalesced.start_le_of_inside {I : ValuedInterval V} {x : Nat} (h : Coalesced (I :: l))
    (hx : Inside (I :: l) x) : I.start ≤ x := by
  rcases inside_cons.mp hx with hI | hx
  · exact hI.1
  · have hne := (coalesced_cons.mp h).1
    have hle := h.end_le_of_inside hx
    omega

end Zapcc.Intervals
