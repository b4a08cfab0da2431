import Zapcc.Library.Layout
import Zapcc.Support.MathExtras

/-!
# String tables

A string table holds its strings one behind the other, each once. `finalize` lays the strings
out again, sorted by their reversed text, so that a string can share the tail of the one before
it. A function has no result where an assertion fails, a string is not found or a write goes
out of the buffer.
-/

namespace Zapcc.MC

open Layout MathExtras List

abbrev Str := List UInt8

/-- A string and its offset in the table. -/
abbrev StringPair := Str × Nat

inductive Kind where
  | ELF
  | WinCOFF
  | MachO
  | RAW
  | DWARF
  deriving DecidableEq

/-- The NUL bytes behind a string. -/
def Kind.terminator (K : Kind) : Str := if K ≠ .RAW then [0] else []

/-- The order in which the entries of the map are visited, which depends on their hash values. -/
structure Visit where
  entries : List StringPair → List StringPair
  perm : ∀ l, (entries l).Perm l

/-- The builder, whose table fits in memory. -/
structure StringTableBuilder where
  StringIndexMap : List StringPair
  Size : Nat
  K : Kind
  Alignment : Nat
  Finalized : Bool

/-! ## The sort -/

/-- The character at a position from the end of a string. -/
def charTailAt (P : StringPair) (Pos : Nat) : Int :=
  if _ : P.1.length ≤ Pos then -1 else (P.1[P.1.length - Pos - 1]).toNat

def swap (Vec : List StringPair) (i j : Nat) : List StringPair :=
  match Vec[i]?, Vec[j]? with
  | some P, some Q => (Vec.set i Q).set j P
  | _, _ => Vec

/-- The partition of the entries into those of a greater character than the pivot, before `I`,
the same one, before `J`, and a smaller one. -/
def partition (Pos : Nat) (Pivot : Int) (Vec : List StringPair) (I J K : Nat) :
    List StringPair × Nat × Nat :=
  if _ : K < J then
    match Vec[K]? with
    | none => (Vec, I, J)
    | some P =>
      if charTailAt P Pos > Pivot then
        partition Pos Pivot (swap Vec I K) (I + 1) J (K + 1)
      else if charTailAt P Pos < Pivot then
        partition Pos Pivot (swap Vec (J - 1) K) I (J - 1) K
      else
        partition Pos Pivot Vec I J (K + 1)
  else
    (Vec, I, J)
termination_by J - K

@[simp] theorem length_swap (Vec : List StringPair) (i j : Nat) :
    (swap Vec i j).length = Vec.length := by
  unfold swap
  split <;> simp

theorem swap_perm (Vec : List StringPair) (i j : Nat) : (swap Vec i j).Perm Vec := by
  unfold swap
  split
  · rename_i P Q hP hQ
    obtain ⟨hi, rfl⟩ := List.getElem?_eq_some_iff.mp hP
    obtain ⟨hj, rfl⟩ := List.getElem?_eq_some_iff.mp hQ
    exact set_set_perm hi hj
  · exact .refl _

variable {Vec : List StringPair}

theorem getElem?_swap {i j : Nat} (hi : i < Vec.length)
    (hj : j < Vec.length) (k : Nat) :
    (swap Vec i j)[k]? = if k = j then Vec[i]? else if k = i then Vec[j]? else Vec[k]? := by
  unfold swap
  rw [getElem?_eq_getElem hi, getElem?_eq_getElem hj]
  by_cases hkj : k = j
  · subst hkj
    rw [if_pos rfl, getElem?_set_self (by simpa using hj)]
  · rw [if_neg hkj, getElem?_set_ne (Ne.symm hkj)]
    by_cases hki : k = i
    · subst hki
      rw [if_pos rfl, getElem?_set_self hi]
    · rw [if_neg hki, getElem?_set_ne (Ne.symm hki)]

/-- The entries from `I` to `K` have the pivot at the position. -/
def SamePivot (Pos : Nat) (Pivot : Int) (Vec : List StringPair) (I K : Nat) : Prop :=
  ∀ k, I ≤ k → k < K → ∃ P, Vec[k]? = some P ∧ charTailAt P Pos = Pivot

/-- The partition only changes the order of the entries, keeps the pivot, and leaves only
entries of its character between the two bounds. -/
theorem partition_spec {Pos : Nat} {Pivot : Int} {I J K : Nat}
    (hIK : I < K) (hKJ : K ≤ J) (hJ : J ≤ Vec.length) (hsame : SamePivot Pos Pivot Vec I K) :
    ∃ Vec' I' J', partition Pos Pivot Vec I J K = (Vec', I', J') ∧ Vec'.Perm Vec ∧ I' < J' ∧
      J' ≤ Vec'.length ∧ SamePivot Pos Pivot Vec' I' J' := by
  fun_induction partition Pos Pivot Vec I J K with
  | case1 Vec I J K hlt hnone =>
    have := List.getElem?_eq_none_iff.mp hnone
    omega
  | case2 Vec I J K hlt P hP hgt ih =>
    have hget := getElem?_swap (show I < Vec.length by omega) (show K < Vec.length by omega)
    obtain ⟨Vec', I', J', heq, hperm, hrest⟩ := ih (by omega) (by omega) (by simpa using hJ) (by
      intro k hlow hhigh
      rw [hget]
      by_cases hk : k = K
      · rw [if_pos hk]
        exact hsame I (by omega) hIK
      · rw [if_neg hk, if_neg (by omega)]
        exact hsame k (by omega) (by omega))
    exact ⟨Vec', I', J', heq, hperm.trans (swap_perm Vec I K), hrest⟩
  | case3 Vec I J K hlt P hP hgt hless ih =>
    have hget := getElem?_swap (show J - 1 < Vec.length by omega) (show K < Vec.length by omega)
    obtain ⟨Vec', I', J', heq, hperm, hrest⟩ :=
      ih hIK (by omega) (by simp only [length_swap]; omega) (by
        intro k hlow hhigh
        rw [hget, if_neg (by omega), if_neg (by omega)]
        exact hsame k hlow hhigh)
    exact ⟨Vec', I', J', heq, hperm.trans (swap_perm Vec (J - 1) K), hrest⟩
  | case4 Vec I J K hlt P hP hgt hless ih =>
    refine ih (by omega) (by omega) hJ fun k hlow hhigh => ?_
    by_cases hk : k = K
    · exact ⟨P, hk ▸ hP, by omega⟩
    · exact hsame k hlow (by omega)
  | case5 Vec I J K hlt =>
    have hKJ' : K = J := by omega
    exact ⟨Vec, I, J, rfl, .refl _, by omega, hJ, hKJ' ▸ hsame⟩

/-- What is left to compare of the entries from a position on. -/
def remaining (Vec : List StringPair) (Pos : Nat) : Nat :=
  (Vec.map fun P => P.1.length + 1 - Pos + 1).sum

theorem remaining_perm {Vec Vec' : List StringPair} (h : Vec'.Perm Vec) (Pos : Nat) :
    remaining Vec' Pos = remaining Vec Pos :=
  (h.map _).sum_eq

@[simp] theorem remaining_append (Vec Vec' : List StringPair) (Pos : Nat) :
    remaining (Vec ++ Vec') Pos = remaining Vec Pos + remaining Vec' Pos := by
  simp [remaining]

theorem length_le_remaining (Vec : List StringPair) (Pos : Nat) :
    Vec.length ≤ remaining Vec Pos := by
  induction Vec with
  | nil => simp [remaining]
  | cons P Vec ih =>
    simp only [remaining, map_cons, sum_cons, length_cons] at ih ⊢
    omega

theorem remaining_succ_le {Pos : Nat}
    (h : ∀ P ∈ Vec, charTailAt P Pos ≠ -1) :
    remaining Vec (Pos + 1) + Vec.length ≤ remaining Vec Pos := by
  induction Vec with
  | nil => simp [remaining]
  | cons P Vec ih =>
    have hP : Pos < P.1.length := by
      by_contra hlong
      exact h P (by simp) (dif_pos (by omega))
    have hVec := ih fun Q hQ => h Q (by simp [hQ])
    simp only [remaining, map_cons, sum_cons, length_cons] at hVec ⊢
    omega

theorem parts_append {α : Type*} (Vec : List α) {I J : Nat} (h : I ≤ J) :
    Vec.take I ++ ((Vec.drop I).take (J - I) ++ Vec.drop J) = Vec := by
  have hJ : Vec.drop J = (Vec.drop I).drop (J - I) := by
    rw [drop_drop, Nat.add_sub_of_le h]
  rw [hJ, take_append_drop, take_append_drop]

theorem partition_first {Pos I J : Nat} {Vec' : List StringPair}
    (hlen : 1 < Vec.length)
    (h : partition Pos (charTailAt Vec[0] Pos) Vec 0 Vec.length 1 = (Vec', I, J)) :
    Vec'.Perm Vec ∧ I < J ∧ J ≤ Vec'.length ∧
      ∀ P ∈ (Vec'.drop I).take (J - I), charTailAt P Pos = charTailAt Vec[0] Pos := by
  have hfirst : SamePivot Pos (charTailAt Vec[0] Pos) Vec 0 1 := by
    intro k _ hk
    obtain rfl : k = 0 := by omega
    exact ⟨Vec[0], getElem?_eq_getElem (by omega), rfl⟩
  obtain ⟨Vec₁, I₁, J₁, hpart, hperm, hIJ, hJ, hsame⟩ :=
    partition_spec Nat.zero_lt_one (by omega) (Nat.le_refl _) hfirst
  obtain ⟨rfl, rfl, rfl⟩ : Vec₁ = Vec' ∧ I₁ = I ∧ J₁ = J := by simpa [hpart] using h
  refine ⟨hperm, hIJ, hJ, fun P hP => ?_⟩
  obtain ⟨i, hi, rfl⟩ := List.mem_iff_getElem.mp hP
  have hi' : i < J₁ - I₁ := by simp at hi; omega
  obtain ⟨Q, hQ, hchar⟩ := hsame (I₁ + i) (by omega) (by omega)
  have hQ' : ((Vec₁.drop I₁).take (J₁ - I₁))[i] = Q := by
    rw [getElem_take, getElem_drop]
    exact (List.getElem?_eq_some_iff.mp hQ).2
  rw [hQ', hchar]

theorem remaining_parts {Pos I J : Nat} {Vec' : List StringPair}
    (hlen : 1 < Vec.length)
    (h : partition Pos (charTailAt Vec[0] Pos) Vec 0 Vec.length 1 = (Vec', I, J)) :
    remaining (Vec'.take I) Pos < remaining Vec Pos ∧
      remaining (Vec'.drop J) Pos < remaining Vec Pos ∧
      (charTailAt Vec[0] Pos ≠ -1 →
        remaining ((Vec'.drop I).take (J - I)) (Pos + 1) < remaining Vec Pos) := by
  obtain ⟨hperm, hIJ, hJ, hsame⟩ := partition_first hlen h
  have hsum : remaining (Vec'.take I) Pos +
      (remaining ((Vec'.drop I).take (J - I)) Pos + remaining (Vec'.drop J) Pos) =
        remaining Vec Pos := by
    rw [← remaining_append, ← remaining_append, parts_append Vec' hIJ.le, remaining_perm hperm]
  have hmid : ((Vec'.drop I).take (J - I)).length = J - I := by simp; omega
  have hpos := length_le_remaining ((Vec'.drop I).take (J - I)) Pos
  refine ⟨by omega, by omega, fun hpivot => ?_⟩
  have hchars : ∀ P ∈ (Vec'.drop I).take (J - I), charTailAt P Pos ≠ -1 := by
    intro P hP
    rw [hsame P hP]
    exact hpivot
  have hless := remaining_succ_le hchars
  omega

/-- Three-way radix quicksort by the characters from the end. -/
def multikeySort (Vec : List StringPair) (Pos : Nat) : List StringPair :=
  if hlen : Vec.length ≤ 1 then Vec
  else
    match hpart : partition Pos (charTailAt Vec[0] Pos) Vec 0 Vec.length 1 with
    | (Vec', I, J) =>
      multikeySort (Vec'.take I) Pos ++ ((if hpivot : charTailAt Vec[0] Pos ≠ -1 then
            multikeySort ((Vec'.drop I).take (J - I)) (Pos + 1)
          else
            (Vec'.drop I).take (J - I)) ++
          multikeySort (Vec'.drop J) Pos)
termination_by remaining Vec Pos
decreasing_by
  · exact (remaining_parts (by omega) hpart).1
  · exact (remaining_parts (by omega) hpart).2.2 hpivot
  · exact (remaining_parts (by omega) hpart).2.1

theorem multikeySort_perm (Vec : List StringPair) (Pos : Nat) :
    (multikeySort Vec Pos).Perm Vec := by
  fun_induction multikeySort Vec Pos with
  | case1 => exact .refl _
  | case2 Vec Pos hlen Vec' I J hpart ih₁ ih₂ ih₃ =>
    obtain ⟨hperm, hIJ, -, -⟩ := partition_first (by omega) hpart
    have hmid : (if _ : charTailAt Vec[0] Pos ≠ -1 then
        multikeySort ((Vec'.drop I).take (J - I)) (Pos + 1)
        else (Vec'.drop I).take (J - I)).Perm ((Vec'.drop I).take (J - I)) := by
      split
      · exact ih₂ ‹_›
      · exact .refl _
    refine (ih₁.append (hmid.append ih₃)).trans ?_
    rw [parts_append Vec' hIJ.le]
    exact hperm

namespace StringTableBuilder

/-! ## Building the table -/

/-- The leading bytes of a table. -/
def initSize : Kind → Nat
  | .RAW | .DWARF => 0
  | .MachO | .ELF => 1
  | .WinCOFF => 4

/-- A builder without strings. -/
def create (K : Kind) (Alignment : Nat) : StringTableBuilder :=
  ⟨[], initSize K, K, Alignment, false⟩

/-- Add a string, and return its position until the table is finalized. -/
def add (T : StringTableBuilder) (S : Str) : Option (StringTableBuilder × Nat) :=
  if T.K = .WinCOFF ∧ S.length ≤ 8 ∨ T.Finalized then none
  else
    match T.StringIndexMap.lookup S with
    | some off => some (T, off)
    | none =>
      let Start := alignTo T.Size T.Alignment
      some ({ T with
        StringIndexMap := (S, Start) :: T.StringIndexMap
        Size := Start + S.length + T.K.terminator.length }, Start)

/-- Add strings one after the other. -/
def addAll (T : StringTableBuilder) : List Str → Option StringTableBuilder
  | [] => some T
  | S :: Ss => (T.add S).bind fun r => r.1.addAll Ss

/-- Move a string to a position. -/
def setOffset (T : StringTableBuilder) (S : Str) (Pos : Nat) : StringTableBuilder :=
  { T with StringIndexMap := T.StringIndexMap.map fun P => if P.1 = S then (S, Pos) else P }

/-- Lay out the strings in an order, where one that is a tail of the one placed before it stays
in that one if it is aligned there. -/
def placeStrings (T : StringTableBuilder) (Previous : Str) : List StringPair → StringTableBuilder
  | [] => T
  | P :: Strings =>
    let S := P.1
    let Pos := T.Size - S.length - T.K.terminator.length
    if S <:+ Previous ∧ Pos &&& (T.Alignment - 1) = 0 then
      placeStrings (T.setOffset S Pos) Previous Strings
    else
      let Start := alignTo T.Size T.Alignment
      placeStrings
        { T.setOffset S Start with Size := Start + S.length + T.K.terminator.length } S Strings

/-- Finalize the table, after a new layout of its strings or as they are. -/
def finalizeStringTable (V : Visit) (Optimize : Bool) (T : StringTableBuilder) :
    StringTableBuilder :=
  let placed :=
    if Optimize then
      placeStrings { T with Size := initSize T.K, Finalized := true } []
        (multikeySort (V.entries T.StringIndexMap) 0)
    else { T with Finalized := true }
  if T.K = .MachO then { placed with Size := alignTo placed.Size 4 } else placed

/-- Finalize the table with a new layout. -/
def finalize (V : Visit) (T : StringTableBuilder) : Option StringTableBuilder :=
  if T.K = .DWARF then none else some (finalizeStringTable V true T)

/-- Finalize the table without reordering it. -/
def finalizeInOrder (V : Visit) (T : StringTableBuilder) : StringTableBuilder :=
  finalizeStringTable V false T

def getOffset (T : StringTableBuilder) (S : Str) : Option Nat :=
  if T.Finalized then T.StringIndexMap.lookup S else none

/-! ## Writing the table -/

/-- A value of 32 bits, with its low byte first. -/
def write32le (Value : Nat) : Str := (List.range 4).map fun i => UInt8.ofNat (Value >>> (8 * i))

/-- Write the table into a buffer. -/
def writeTo (V : Visit) (T : StringTableBuilder) (Buf : Str) : Option Str :=
  if T.Finalized then
    (copyAll Buf ((V.entries T.StringIndexMap).filter fun P => P.1 ≠ [])).bind fun Buf =>
      if T.K ≠ .WinCOFF then some Buf else copy Buf 0 (write32le T.Size)
  else
    none

def write (V : Visit) (T : StringTableBuilder) : Option Str :=
  writeTo V T (List.replicate T.Size 0)

end StringTableBuilder

end Zapcc.MC
