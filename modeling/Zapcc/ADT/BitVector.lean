import Mathlib.Data.List.Count
import Mathlib.Data.List.Range

/-!
# Bit vectors

A `BitVector` is the list of its bits. The operations are described by the bits that are not set
(`Unset`), and searches by the number of bits that are set.
-/

namespace Zapcc.BitVector

open List

/-- Grow or shrink a vector, where the new bits are `t`. -/
def resize (bits : List Bool) (N : Nat) (t : Bool) : List Bool :=
  bits.take N ++ List.replicate (N - bits.length) t

/-- The number of bits that are set. -/
def count (bits : List Bool) : Nat := bits.count true

def setBits (bits : List Bool) (Idxs : List Nat) (v : Bool) : List Bool :=
  Idxs.foldl (fun bits I => bits.set I v) bits

def reset (bits : List Bool) (I E : Nat) : List Bool := setBits bits (List.range' I (E - I)) false

/-- The first bit from `Begin` on that is set. -/
def find_first_in (bits : List Bool) (Begin : Nat) : Option Nat :=
  ((bits.drop Begin).findIdx? id).map (Begin + ·)

def find_first (bits : List Bool) : Option Nat := find_first_in bits 0

def find_next (bits : List Bool) (Prev : Nat) : Option Nat := find_first_in bits (Prev + 1)

/-- A bit of the vector is not set. -/
def Unset (bits : List Bool) (i : Nat) : Prop := bits[i]? = some false

instance (bits : List Bool) (i : Nat) : Decidable (Unset bits i) :=
  inferInstanceAs (Decidable (bits[i]? = some false))

variable {bits : List Bool} {i I : Nat}

theorem Unset.lt (h : Unset bits i) : i < bits.length := (List.getElem?_eq_some_iff.mp h).1

theorem getElem?_eq_true_iff : bits[i]? = some true ↔ i < bits.length ∧ ¬ Unset bits i := by
  unfold Unset
  by_cases hi : i < bits.length
  · cases bits[i] <;> simp [hi]
  · simp [hi]

theorem unset_set_true : Unset (bits.set I true) i ↔ Unset bits i ∧ i ≠ I := by
  unfold Unset
  rw [getElem?_set]
  by_cases hi : I = i
  · split <;> simp [hi]
  · rw [if_neg hi]
    simp [Ne.symm hi]

theorem unset_set_false (hI : I < bits.length) :
    Unset (bits.set I false) i ↔ Unset bits i ∨ i = I := by
  unfold Unset
  rw [getElem?_set]
  by_cases hi : I = i
  · rw [if_pos hi, if_pos hI]
    simp [hi]
  · rw [if_neg hi]
    simp [Ne.symm hi]

theorem eq_of_unset {bits' : List Bool} (hlength : bits.length = bits'.length)
    (h : ∀ i, Unset bits i ↔ Unset bits' i) : bits = bits' := by
  refine ext_getElem? fun i => ?_
  by_cases hi : i < bits.length
  · have hset : bits[i]? = some true ↔ bits'[i]? = some true := by
      rw [getElem?_eq_true_iff, getElem?_eq_true_iff, h, hlength]
    have hunset := h i
    unfold Unset at hunset
    rw [getElem?_eq_getElem hi, getElem?_eq_getElem (hlength ▸ hi)] at hset hunset ⊢
    cases hb : bits[i] <;> simp_all
  · rw [getElem?_eq_none (not_lt.mp hi), getElem?_eq_none (hlength ▸ not_lt.mp hi)]

@[simp] theorem length_setBits (Idxs : List Nat) (v : Bool) :
    (setBits bits Idxs v).length = bits.length := by
  unfold setBits
  induction Idxs generalizing bits with
  | nil => rfl
  | cons I Idxs ih =>
    rw [foldl_cons, ih]
    exact length_set

theorem unset_setBits_true (Idxs : List Nat) :
    Unset (setBits bits Idxs true) i ↔ Unset bits i ∧ i ∉ Idxs := by
  unfold setBits
  induction Idxs generalizing bits with
  | nil => simp
  | cons I Idxs ih =>
    rw [foldl_cons, ih, unset_set_true, mem_cons, not_or, and_assoc]

theorem unset_setBits_false {Idxs : List Nat} (h : ∀ I ∈ Idxs, I < bits.length) :
    Unset (setBits bits Idxs false) i ↔ Unset bits i ∨ i ∈ Idxs := by
  unfold setBits
  induction Idxs generalizing bits with
  | nil => simp
  | cons I Idxs ih =>
    rw [foldl_cons, ih, unset_set_false (h I mem_cons_self), mem_cons, or_assoc]
    intro J hJ
    rw [length_set]
    exact h J (mem_cons_of_mem _ hJ)

theorem length_resize (N : Nat) (t : Bool) : (resize bits N t).length = N := by
  unfold resize
  simp
  omega

theorem unset_resize {N : Nat} (h : bits.length ≤ N) :
    Unset (resize bits N true) i ↔ Unset bits i := by
  unfold Unset resize
  rw [take_of_length_le h, getElem?_append, getElem?_replicate]
  by_cases hi : i < bits.length
  · rw [if_pos hi]
  · rw [if_neg hi, getElem?_eq_none (not_lt.mp hi)]
    split <;> simp

theorem resize_resize {N M : Nat} (hN : bits.length ≤ N) (hM : N ≤ M) :
    resize (resize bits N true) M true = resize bits M true := by
  refine eq_of_unset (by rw [length_resize, length_resize]) fun i => ?_
  rw [unset_resize (by rw [length_resize]; exact hM), unset_resize hN, unset_resize (hN.trans hM)]

theorem count_resize {N : Nat} (h : bits.length ≤ N) :
    count (resize bits N true) = count bits + (N - bits.length) := by
  unfold count resize
  rw [take_of_length_le h, count_append, count_replicate_self]

theorem count_set_false (h : bits[I]? = some true) : count (bits.set I false) + 1 = count bits := by
  unfold count
  induction bits generalizing I with
  | nil => simp at h
  | cons b bits ih =>
    cases I with
    | zero =>
      obtain rfl : b = true := by simpa using h
      simp
    | succ I =>
      have hcount := ih (I := I) (by simpa using h)
      rw [set_cons_succ, count_cons, count_cons]
      omega

theorem find_first_in_spec {Begin : Nat} (h : 0 < count (bits.drop Begin)) :
    ∃ I, find_first_in bits Begin = some I ∧ Begin ≤ I ∧ bits[I]? = some true ∧
      count (bits.drop Begin) = count (bits.drop (I + 1)) + 1 := by
  have hfind : ∀ l : List Bool, 0 < count l → ∃ k, l.findIdx? id = some k ∧ l[k]? = some true ∧
      count l = count (l.drop (k + 1)) + 1 := by
    intro l
    induction l with
    | nil => exact fun hl => absurd hl (lt_irrefl _)
    | cons b l ih =>
      intro hl
      cases b with
      | true => exact ⟨0, rfl, rfl, by simp [count]⟩
      | false =>
        obtain ⟨k, hk, hget, hcount⟩ := ih (by simpa [count] using hl)
        refine ⟨k + 1, ?_, hget, ?_⟩
        · rw [findIdx?_cons, hk]
          rfl
        · simpa [count] using hcount
  obtain ⟨k, hk, hget, hcount⟩ := hfind _ h
  refine ⟨Begin + k, by rw [find_first_in, hk]; rfl, Nat.le_add_right _ _, ?_, ?_⟩
  · rw [getElem?_drop] at hget
    exact hget
  · rw [drop_drop] at hcount
    rw [hcount, Nat.add_assoc]

end Zapcc.BitVector
