import Zapcc.Analysis.DependenceAnalysis
import Zapcc.Library.SignedFits

/-!
# Pairs of subscripts and sound verdicts

A verdict on a pair of subscripts is sound when it keeps the direction of every pair of iterations
in which they are equal.
-/

namespace Zapcc.SIV

open ConstantRange SignedFits

variable {w : Nat}

/-- A source and a destination subscript in a loop with the iterations up to `bound`, which the
test may know or not. -/
structure Subscripts (w : Nat) where
  SrcConst : BitVec w
  SrcCoeff : BitVec w
  DstConst : BitVec w
  DstCoeff : BitVec w
  bound : Nat
  known : Bool

namespace Subscripts

/-- The source subscript in an iteration. -/
def src (S : Subscripts w) (i : Nat) : Int := S.SrcConst.toInt + S.SrcCoeff.toInt * i

/-- The destination subscript in an iteration. -/
def dst (S : Subscripts w) (j : Nat) : Int := S.DstConst.toInt + S.DstCoeff.toInt * j

/-- The upper bound that the tests see. -/
def UpperBound (S : Subscripts w) : Option (BitVec w) :=
  if S.known then some (BitVec.ofNat w S.bound) else none

/-- A value that one of the subscripts takes in the loop. -/
def Takes (S : Subscripts w) (x : Int) : Prop := ∃ i ≤ S.bound, x = S.src i ∨ x = S.dst i

/-- All subscripts and their differences fit the width. -/
structure Representable (S : Subscripts w) : Prop where
  value : ∀ x, S.Takes x → Fits w x
  difference : ∀ x y, S.Takes x → S.Takes y → Fits w (x - y)

/-- The subscripts are equal in two iterations of the loop. -/
def Meets (S : Subscripts w) (i j : Nat) : Prop := i ≤ S.bound ∧ j ≤ S.bound ∧ S.src i = S.dst j

def test (S : Subscripts w) (Direction : BitVec 3) : Option Verdict :=
  testSIV S.SrcConst S.SrcCoeff S.DstConst S.DstCoeff S.UpperBound Direction

end Subscripts

def Contains (Direction : BitVec 3) (entry : DVEntry) : Prop :=
  entry.bits &&& Direction = entry.bits

instance (Direction : BitVec 3) (entry : DVEntry) : Decidable (Contains Direction entry) :=
  inferInstanceAs (Decidable (_ = _))

/-- The direction from one iteration to another. -/
def direction (i j : Nat) : DVEntry := if i < j then .LT else if i = j then .EQ else .GT

/-- A verdict that keeps the directions of all iterations in which the subscripts are equal. -/
def Sound (S : Subscripts w) (Direction : BitVec 3) (v : Verdict) : Prop :=
  ∀ i j, S.Meets i j → Contains Direction (direction i j) →
    v.disproven = false ∧ Contains v.Direction (direction i j)

variable {Direction : BitVec 3} {entry : DVEntry}

@[simp] theorem contains_and {mask : BitVec 3} :
    Contains (Direction &&& mask) entry ↔ Contains Direction entry ∧ Contains mask entry := by
  revert Direction mask
  cases entry <;> decide

theorem Contains.or_left {other : BitVec 3}
    (h : Contains Direction entry) : Contains (Direction ||| other) entry := by
  revert Direction other
  cases entry <;> decide

theorem Contains.or_right {other : BitVec 3}
    (h : Contains other entry) : Contains (Direction ||| other) entry := by
  rw [BitVec.or_comm]
  exact h.or_left

theorem contains_bits (entry : DVEntry) : Contains entry.bits entry := BitVec.and_self

theorem Contains.ne_zero {i j : Nat}
    (h : Contains Direction (direction i j)) : Direction ≠ 0 := by
  rintro rfl
  revert h
  unfold direction
  split
  · decide
  · split <;> decide

theorem direction_lt {i j : Nat} (h : i < j) : direction i j = .LT := if_pos h

theorem direction_eq {i j : Nat} (h : i = j) : direction i j = .EQ := by
  rw [direction, if_neg (by omega), if_pos h]

theorem direction_gt {i j : Nat} (h : j < i) : direction i j = .GT := by
  rw [direction, if_neg (by omega), if_neg (by omega)]

theorem Sound.of_none {S : Subscripts w} (h : ∀ i j, ¬ S.Meets i j) (Direction : BitVec 3)
    (v : Verdict) : Sound S Direction v := fun i j hmeets => absurd hmeets (h i j)

theorem Sound.of_mask {S : Subscripts w} {mask : BitVec 3}
    (h : ∀ i j, S.Meets i j → Contains mask (direction i j)) (Direction : BitVec 3) :
    Sound S Direction ⟨false, Direction &&& mask⟩ := fun i j hmeets hD =>
  ⟨rfl, contains_and.mpr ⟨hD, h i j hmeets⟩⟩

theorem Sound.unchanged (S : Subscripts w) (Direction : BitVec 3) :
    Sound S Direction ⟨false, Direction⟩ := fun _ _ _ hD => ⟨rfl, hD⟩

theorem Sound.onlyEqual {S : Subscripts w} (h : ∀ i j, S.Meets i j → i = j)
    (Direction : BitVec 3) : Sound S Direction (SIV.onlyEqual Direction) := by
  intro i j hmeets hD
  have hkept : Contains (Direction &&& ~~~DVEntry.LT.bits &&& ~~~DVEntry.GT.bits)
      (direction i j) := by
    rw [contains_and, contains_and, direction_eq (h i j hmeets)]
    rw [direction_eq (h i j hmeets)] at hD
    exact ⟨⟨hD, by decide⟩, by decide⟩
  exact ⟨decide_eq_false hkept.ne_zero, hkept⟩

theorem isKnownPredicate_sgt {X Y : BitVec w} (h : Fits w (X.toInt - Y.toInt)) :
    isKnownPredicate .sgt X Y ↔ Y.toInt < X.toInt := by
  show Y.toInt < X.toInt ∨ 0 < (X - Y).toInt ↔ _
  rw [toInt_sub h]
  omega

theorem isKnownPredicate_eq {X Y : BitVec w} : isKnownPredicate .eq X Y ↔ X = Y := by
  show X = Y ∨ X - Y = 0 ↔ _
  rw [sub_eq_zero, or_self]

namespace Subscripts

variable {S : Subscripts w}

theorem takes_src {i : Nat} (hi : i ≤ S.bound) : S.Takes (S.src i) := ⟨i, hi, .inl rfl⟩

theorem takes_dst {j : Nat} (hj : j ≤ S.bound) : S.Takes (S.dst j) := ⟨j, hj, .inr rfl⟩

theorem src_zero : S.src 0 = S.SrcConst.toInt := by simp [src]

theorem dst_zero : S.dst 0 = S.DstConst.toInt := by simp [dst]

theorem mem_upperBound {U : BitVec w} :
    U ∈ S.UpperBound ↔ S.known = true ∧ U = BitVec.ofNat w S.bound := by
  unfold UpperBound
  cases S.known <;> simp [eq_comm]

namespace Representable

variable (h : S.Representable)

include h

theorem dst_sub_src : Fits w (S.DstConst.toInt - S.SrcConst.toInt) := by
  rw [← src_zero, ← dst_zero]
  exact h.difference _ _ (takes_dst (Nat.zero_le _)) (takes_src (Nat.zero_le _))

theorem src_sub_dst : Fits w (S.SrcConst.toInt - S.DstConst.toInt) := by
  rw [← src_zero, ← dst_zero]
  exact h.difference _ _ (takes_src (Nat.zero_le _)) (takes_dst (Nat.zero_le _))

theorem srcStep : Fits w (S.SrcCoeff.toInt * S.bound) ∧ Fits w (-(S.SrcCoeff.toInt * S.bound)) := by
  have hup := h.difference _ _ (takes_src le_rfl) (takes_src (Nat.zero_le _))
  have hdown := h.difference _ _ (takes_src (Nat.zero_le _)) (takes_src le_rfl)
  rw [src_zero, src] at hup hdown
  exact ⟨by simpa using hup, by simpa using hdown⟩

theorem dstStep : Fits w (S.DstCoeff.toInt * S.bound) ∧ Fits w (-(S.DstCoeff.toInt * S.bound)) := by
  have hup := h.difference _ _ (takes_dst le_rfl) (takes_dst (Nat.zero_le _))
  have hdown := h.difference _ _ (takes_dst (Nat.zero_le _)) (takes_dst le_rfl)
  rw [dst_zero, dst] at hup hdown
  exact ⟨by simpa using hup, by simpa using hdown⟩

end Representable

end Subscripts

end Zapcc.SIV
