import Mathlib.SetTheory.Cardinal.Finite
import Zapcc.IR.RangeTruncate

/-!
# The smallest ranges around a union and an intersection

A range is an arc on the circle of all values. When it lies in another arc, the distance between
the two starts and its own size are within the size of the other one (`offset_add_size_le`). With
this, `unionWith` and `intersectWith` are no larger than any range around the union or the
intersection (`unionWith_intersectWith_optimal`).
-/

namespace Zapcc.ConstantRange

open WrapAround APInt BitVec

variable {w : Nat}

/-- The number of values in a range. -/
def size (R : ConstantRange w) : Nat := if R.isFullSet then 2 ^ w else (R.upper - R.lower).toNat

theorem size_le (R : ConstantRange w) : R.size ≤ 2 ^ w := by
  unfold size
  split_ifs
  · exact le_rfl
  · exact (R.upper - R.lower).isLt.le

variable {R : ConstantRange w} {A B : ConstantRange w}

theorem size_cases (h : ¬ R.isFullSet) :
    R.lower.toNat ≤ R.upper.toNat ∧ R.size + R.lower.toNat = R.upper.toNat ∨
      R.upper.toNat < R.lower.toNat ∧ R.size + R.lower.toNat = R.upper.toNat + 2 ^ w := by
  have hsub := toNat_sub_cases R.upper R.lower
  rw [size, if_neg h]
  omega

theorem size_ofBounds_cases {lower upper : BitVec w} (hne : lower ≠ upper) :
    lower.toNat ≤ upper.toNat ∧ (ofBounds lower upper hne).size + lower.toNat = upper.toNat ∨
      upper.toNat < lower.toNat ∧
        (ofBounds lower upper hne).size + lower.toNat = upper.toNat + 2 ^ w :=
  size_cases (R := ofBounds lower upper hne) fun hfull => hne hfull.1

theorem contains_iff_sub_lt_size {v : BitVec w} :
    R.contains v ↔ (v - R.lower).toNat < R.size := by
  by_cases hfull : R.isFullSet
  · rw [size, if_pos hfull]
    exact iff_of_true (contains_iff.mpr (.inl hfull)) (v - R.lower).isLt
  · have hsize := size_cases hfull
    have hsub := toNat_sub_cases v R.lower
    rw [contains_iff, or_iff_right hfull]
    omega

theorem toNat_ofNat_offset (i : Fin R.size) :
    (BitVec.ofNat w i).toNat = i := by
  rw [toNat_ofNat, Nat.mod_eq_of_lt (i.isLt.trans_le R.size_le)]

/-- The members are numbered by their distance from the lower bound. -/
def membersEquiv (R : ConstantRange w) : {v // R.contains v} ≃ Fin R.size where
  toFun v := ⟨(v.1 - R.lower).toNat, contains_iff_sub_lt_size.mp v.2⟩
  invFun i := ⟨BitVec.ofNat w i + R.lower, by
    rw [contains_iff_sub_lt_size, BitVec.add_sub_cancel, toNat_ofNat_offset]
    exact i.isLt⟩
  left_inv v := by
      refine Subtype.ext ?_
      show BitVec.ofNat w (v.1 - R.lower).toNat + R.lower = v.1
      rw [ofNat_toNat, setWidth_eq, BitVec.sub_add_cancel]
  right_inv i := by
      refine Fin.ext ?_
      show (BitVec.ofNat w i + R.lower - R.lower).toNat = i
      rw [BitVec.add_sub_cancel, toNat_ofNat_offset]

instance (R : ConstantRange w) : Finite {v // R.contains v} :=
  Finite.of_equiv _ R.membersEquiv.symm

theorem card_members (R : ConstantRange w) : Nat.card {v // R.contains v} = R.size := by
  rw [Nat.card_congr R.membersEquiv, Nat.card_eq_fintype_card, Fintype.card_fin]

theorem offset_add_size_le {R C : ConstantRange w} (hR : R.lower ≠ R.upper)
    (hC : ¬ C.isFullSet) (h : ∀ v, R.contains v → C.contains v) :
    (R.lower - C.lower).toNat + R.size ≤ C.size := by
  have hsize := size_cases (R := R) fun hfull => hR hfull.1
  have hsize' := size_cases hC
  have hoffset := toNat_sub_cases R.lower C.lower
  have hne : R.lower.toNat ≠ R.upper.toNat := fun heq => hR (eq_of_toNat_eq heq)
  -- the first value behind the large arc is not in the small one
  have hout : ¬ R.contains C.upper := by
    intro hin
    have hmem := h C.upper hin
    rw [contains_iff, or_iff_right hC] at hmem
    omega
  have hfirst : C.contains R.lower := h R.lower (by rw [contains_iff_of_ne hR]; omega)
  rw [contains_iff_of_ne hR] at hout
  rw [contains_iff, or_iff_right hC] at hfirst
  omega

/-- A range with the members of a set and, among these ranges, one with the fewest members. -/
structure IsHull (S : BitVec w → Prop) (R : ConstantRange w) : Prop where
  covers : ∀ v, S v → R.contains v
  least : ∀ C : ConstantRange w, (∀ v, S v → C.contains v) →
    Nat.card {v // R.contains v} ≤ Nat.card {v // C.contains v}

theorem IsHull.of_iff {S : BitVec w → Prop} (h : ∀ v, R.contains v ↔ S v) :
    IsHull S R where
  covers v := (h v).mpr
  least _ hC :=
    Nat.card_le_card_of_injective (fun v => ⟨v.1, hC v.1 ((h v.1).mp v.2)⟩) fun _ _ heq =>
      Subtype.ext (congrArg (fun m => m.1) heq)

theorem IsHull.of_size_le {S : BitVec w → Prop}
    (hcovers : ∀ v, S v → R.contains v)
    (hleast : ∀ C : ConstantRange w, ¬ C.isFullSet → (∀ v, S v → C.contains v) →
      R.size ≤ C.size) : IsHull S R where
  covers := hcovers
  least C hC := by
      rw [card_members, card_members]
      by_cases hfull : C.isFullSet
      · rw [size, size, if_pos hfull, ← size]
        exact R.size_le
      · exact hleast C hfull hC

theorem size_unionWithBounds_le {A B C : ConstantRange w} {hA : A.lower ≠ A.upper}
    {hB : B.lower ≠ B.upper} {hswap : B.isWrappedSet → A.isWrappedSet} (hC : ¬ C.isFullSet)
    (h : ∀ v, A.contains v ∨ B.contains v → C.contains v) :
    (unionWithBounds A B hA hB hswap).size ≤ C.size := by
  have hinA := offset_add_size_le hA hC fun v hv => h v (.inl hv)
  have hinB := offset_add_size_le hB hC fun v hv => h v (.inr hv)
  have hoffA := toNat_sub_cases A.lower C.lower
  have hoffB := toNat_sub_cases B.lower C.lower
  have hsizeA := size_cases (R := A) fun hfull => hA hfull.1
  have hsizeB := size_cases (R := B) fun hfull => hB hfull.1
  have hsizeC := C.size_le
  have hltA := A.lower.isLt
  have hltC := C.lower.isLt
  have hend := C.upper.isLt
  have hsize := size_cases hC
  clear h
  unfold unionWithBounds
  by_cases hplain : ¬ A.isWrappedSet ∧ ¬ B.isWrappedSet
  · rw [dif_pos hplain]
    simp only [isWrappedSet, lt_def] at hplain
    by_cases hapart : B.upper < A.lower ∨ A.upper < B.lower
    · rw [dif_pos hapart]
      have hgap := toNat_sub_cases B.lower A.upper
      have hgap' := toNat_sub_cases A.lower B.upper
      simp only [lt_def] at hapart ⊢
      split_ifs with hless
      · have hres := size_ofBounds_cases (show A.lower ≠ B.upper by bv_omega)
        omega
      · have hres := size_ofBounds_cases (show B.lower ≠ A.upper by bv_omega)
        omega
    · rw [dif_neg hapart]
      have hne : A.lower.toNat ≠ A.upper.toNat := fun heq => hA (eq_of_toNat_eq heq)
      have hne' : B.lower.toNat ≠ B.upper.toNat := fun heq => hB (eq_of_toNat_eq heq)
      simp only [lt_def] at hapart
      have hlower := toNat_lower_hull A.lower B.lower
      have hupper := toNat_upper_hull (a := A.upper) (b := B.upper) (by omega) (by omega)
      dsimp only
      by_cases hzero : (if B.lower < A.lower then B.lower else A.lower) = 0#w ∧
          (if A.upper - 1#w < B.upper - 1#w then B.upper else A.upper) = 0#w
      · rw [hzero.2, toNat_zero] at hupper
        omega
      · rw [if_neg hzero]
        have hres := size_ofBounds_cases (hull_ne (p := A.upper - 1#w < B.upper - 1#w)
          (a := A.lower) (b := A.upper) (c := B.lower) (d := B.upper) (by bv_omega) (by bv_omega))
        omega
  · rw [dif_neg hplain]
    by_cases hone : ¬ B.isWrappedSet
    · rw [dif_pos hone]
      simp only [isWrappedSet, lt_def] at hplain hone
      have hgap := toNat_sub_cases B.lower A.upper
      have hgap' := toNat_sub_cases A.lower B.upper
      simp only [lt_def, le_def]
      split_ifs with hin hboth hinside hless hlower
      · omega
      · omega
      · have hres := size_ofBounds_cases (show A.lower ≠ B.upper by bv_omega)
        omega
      · have hres := size_ofBounds_cases (show B.lower ≠ A.upper by bv_omega)
        omega
      · have hres := size_ofBounds_cases (show B.lower ≠ A.upper by bv_omega)
        omega
      · have hres := size_ofBounds_cases (show A.lower ≠ B.upper by bv_omega)
        omega
    · rw [dif_neg hone]
      have hwrapped := hswap (Classical.not_not.mp hone)
      simp only [isWrappedSet, lt_def] at hone hwrapped
      by_cases hcover : B.lower ≤ A.upper ∨ A.lower ≤ B.upper
      · rw [dif_pos hcover]
        simp only [le_def] at hcover
        omega
      · rw [dif_neg hcover]
        simp only [le_def] at hcover
        have hlower := toNat_lower_hull A.lower B.lower
        have hupper : (if A.upper < B.upper then B.upper else A.upper).toNat =
            max A.upper.toNat B.upper.toNat := by split_ifs <;> bv_omega
        have hne : (if B.lower < A.lower then B.lower else A.lower) ≠
            (if A.upper < B.upper then B.upper else A.upper) := fun heq => by
          rw [heq] at hlower
          omega
        have hres := size_ofBounds_cases hne
        dsimp only
        omega

theorem isHull_unionWith (hw : 0 < w) (A B : ConstantRange w) :
    IsHull (fun v => A.contains v ∨ B.contains v) (A.unionWith B) := by
  have hsubset {R Q : ConstantRange w} (h : R.isFullSet ∨ Q.isEmptySet) (v : BitVec w)
      (hv : Q.contains v) : R.contains v :=
    h.elim (fun hfull => contains_iff.mpr (.inl hfull)) fun hempty =>
      absurd hempty (not_isEmptySet hw hv)
  unfold unionWith
  split_ifs with hleft hright hswap
  · exact .of_iff fun v => ⟨.inl, fun h => h.elim id (hsubset hleft v)⟩
  · exact .of_iff fun v => ⟨.inr, fun h => h.elim (hsubset hright v) id⟩
  · exact .of_size_le (fun v h => contains_unionWithBounds h.symm) fun C hC h =>
      size_unionWithBounds_le hC fun v hv => h v hv.symm
  · exact .of_size_le (fun v h => contains_unionWithBounds h) fun C hC h =>
      size_unionWithBounds_le hC h

theorem upper_lt_lower_of_one
    (hplain : ¬ (¬ A.isWrappedSet ∧ ¬ B.isWrappedSet)) (hone : ¬ B.isWrappedSet) :
    A.upper < A.lower := Classical.not_not.mp fun hA => hplain ⟨hA, hone⟩

theorem upper_lt_lower_of_both (hswap : B.isWrappedSet → A.isWrappedSet)
    (hone : ¬ ¬ B.isWrappedSet) : A.upper < A.lower := hswap (Classical.not_not.mp hone)

/-- The intersection of two ranges with different bounds. The second one wraps around only if the
first one does. -/
def intersectWithBounds (A B : ConstantRange w) (hswap : B.isWrappedSet → A.isWrappedSet) :
    ConstantRange w :=
  if hplain : ¬ A.isWrappedSet ∧ ¬ B.isWrappedSet then
    if hless : A.lower < B.lower then
      if happart : A.upper ≤ B.lower then empty w
      else if A.upper < B.upper then ofBounds B.lower A.upper (by bv_omega)
      else B
    else if A.upper < B.upper then A
    else if hin : A.lower < B.upper then ofBounds A.lower B.upper (by bv_omega)
    else empty w
  else if hone : ¬ B.isWrappedSet then
    have hA : A.upper < A.lower := upper_lt_lower_of_one hplain hone
    if hstart : B.lower < A.upper then
      if B.upper < A.upper then B
      else if B.upper ≤ A.lower then ofBounds B.lower A.upper (by bv_omega)
      else if A.isSizeStrictlySmallerThan B then A
      else B
    else if B.lower < A.lower then
      if hbefore : B.upper ≤ A.lower then empty w
      else ofBounds A.lower B.upper (by bv_omega)
    else B
  else
    have hA : A.upper < A.lower := upper_lt_lower_of_both hswap hone
    if hupper : B.upper < A.upper then
      if B.lower < A.upper then
        if A.isSizeStrictlySmallerThan B then A else B
      else if B.lower < A.lower then ofBounds A.lower B.upper (by bv_omega)
      else B
    else if B.upper ≤ A.lower then
      if hlower : B.lower < A.lower then A
      else ofBounds B.lower A.upper (by bv_omega)
    else if A.isSizeStrictlySmallerThan B then A
    else B

theorem wrapped_of_swap (hswap : ¬ A.isWrappedSet ∧ B.isWrappedSet)
    (_ : A.isWrappedSet) : B.isWrappedSet := hswap.2

theorem wrapped_of_not_swap (hswap : ¬ (¬ A.isWrappedSet ∧ B.isWrappedSet))
    (h : B.isWrappedSet) : A.isWrappedSet := by
  by_contra hA
  exact hswap ⟨hA, h⟩

/-- A range around the values of both ranges. -/
def intersectWith (A B : ConstantRange w) : ConstantRange w :=
  if A.isEmptySet ∨ B.isFullSet then A
  else if B.isEmptySet ∨ A.isFullSet then B
  -- the recursive call with the operands exchanged gets to this point again
  else if hswap : ¬ A.isWrappedSet ∧ B.isWrappedSet then
    intersectWithBounds B A (wrapped_of_swap hswap)
  else intersectWithBounds A B (wrapped_of_not_swap hswap)

theorem isSizeStrictlySmallerThan_iff :
    A.isSizeStrictlySmallerThan B ↔ A.size < B.size := by
  have hle := B.size_le
  have hlt := (A.upper - A.lower).isLt
  unfold isSizeStrictlySmallerThan
  split_ifs with hA hB
  · rw [size, if_pos hA]
    exact iff_of_false id (by omega)
  · rw [size, size, if_neg hA, if_pos hB]
    exact iff_of_true trivial hlt
  · rw [size, size, if_neg hA, if_neg hB, lt_def]

/-- Whether two ranges meet in two arcs: together they go around the circle. -/
def MeetTwice (A B : ConstantRange w) : Prop :=
  A.upper.toNat < A.lower.toNat ∧ (B.lower.toNat < A.upper.toNat ∧ A.lower.toNat < B.upper.toNat ∨
      B.upper.toNat < B.lower.toNat ∧ B.lower.toNat < A.upper.toNat ∨
      A.lower.toNat < B.upper.toNat ∧ B.upper.toNat < B.lower.toNat)

theorem size_le_of_meetTwice {A B C : ConstantRange w} (hmeet : MeetTwice A B)
    (hC : ¬ C.isFullSet) (h : ∀ v, A.contains v ∧ B.contains v → C.contains v) :
    A.size ≤ C.size ∨ B.size ≤ C.size := by
  unfold MeetTwice at hmeet
  have hA : A.lower ≠ A.upper := by bv_omega
  have hB : B.lower ≠ B.upper := by bv_omega
  have hstart : B.lower ≠ A.upper := by bv_omega
  have hend : A.lower ≠ B.upper := by bv_omega
  have hlow : ∀ v, (ofBounds B.lower A.upper hstart).contains v → C.contains v := by
    intro v hv
    refine h v ?_
    rw [contains_ofBounds] at hv
    rw [contains_iff_of_ne hA, contains_iff_of_ne hB]
    omega
  have hhigh : ∀ v, (ofBounds A.lower B.upper hend).contains v → C.contains v := by
    intro v hv
    refine h v ?_
    rw [contains_ofBounds] at hv
    rw [contains_iff_of_ne hA, contains_iff_of_ne hB]
    omega
  have hinC := offset_add_size_le (R := ofBounds B.lower A.upper hstart) hstart hC hlow
  have hinC' := offset_add_size_le (R := ofBounds A.lower B.upper hend) hend hC hhigh
  have hoff : ((ofBounds B.lower A.upper hstart).lower - C.lower).toNat =
    (B.lower - C.lower).toNat := rfl
  have hoff' : ((ofBounds A.lower B.upper hend).lower - C.lower).toNat =
    (A.lower - C.lower).toNat := rfl
  have hdist := toNat_sub_cases B.lower C.lower
  have hdist' := toNat_sub_cases A.lower C.lower
  have hsize := size_ofBounds_cases hstart
  have hsize' := size_ofBounds_cases hend
  have hsizeA := size_cases (R := A) fun hfull => hA hfull.1
  have hsizeB := size_cases (R := B) fun hfull => hB hfull.1
  omega

theorem isHull_smaller (hmeet : MeetTwice A B) :
    IsHull (fun v => A.contains v ∧ B.contains v)
      (if A.isSizeStrictlySmallerThan B then A else B) := by
  refine .of_size_le (fun v hv => ?_) fun C hC h => ?_
  · split_ifs
    · exact hv.1
    · exact hv.2
  · have hle := size_le_of_meetTwice hmeet hC h
    simp only [isSizeStrictlySmallerThan_iff]
    split_ifs <;> omega

theorem isHull_intersectWithBounds (hw : 0 < w) (hA : A.lower ≠ A.upper)
    (hB : B.lower ≠ B.upper) (hswap : B.isWrappedSet → A.isWrappedSet) :
    IsHull (fun v => A.contains v ∧ B.contains v) (intersectWithBounds A B hswap) := by
  have hempty (v : BitVec w) : ¬ (empty w).contains v := fun h =>
    not_isEmptySet hw h ⟨rfl, rfl⟩
  unfold intersectWithBounds
  by_cases hplain : ¬ A.isWrappedSet ∧ ¬ B.isWrappedSet
  · rw [dif_pos hplain]
    simp only [isWrappedSet, lt_def] at hplain
    split_ifs with hless happart hupper hupper hin
    all_goals
      refine .of_iff fun v => ?_
      simp only [hempty, false_iff, contains_ofBounds, contains_iff_of_ne hA, contains_iff_of_ne hB]
      simp only [lt_def, le_def] at *
      omega
  · rw [dif_neg hplain]
    by_cases hone : ¬ B.isWrappedSet
    · rw [dif_pos hone]
      simp only [isWrappedSet, lt_def] at hplain hone
      simp only [lt_def, le_def]
      by_cases htwice : MeetTwice A B
      · have hsmaller := isHull_smaller htwice
        unfold MeetTwice at htwice
        rw [dif_pos (by omega), if_neg (by omega), if_neg (by omega)]
        exact hsmaller
      · unfold MeetTwice at htwice
        split_ifs with hstart hend hbefore hsmall hlower hbefore
        all_goals
          refine .of_iff fun v => ?_
          simp only [hempty, false_iff, contains_ofBounds, contains_iff_of_ne hA,
            contains_iff_of_ne hB]
          omega
    · rw [dif_neg hone]
      have hwrapped := hswap (Classical.not_not.mp hone)
      simp only [isWrappedSet, lt_def] at hone hwrapped
      simp only [lt_def, le_def]
      by_cases htwice : MeetTwice A B
      · have hsmaller := isHull_smaller htwice
        unfold MeetTwice at htwice
        by_cases hupper : B.upper.toNat < A.upper.toNat
        · rw [dif_pos hupper, if_pos (by omega)]
          exact hsmaller
        · rw [dif_neg hupper, if_neg (by omega)]
          exact hsmaller
      · unfold MeetTwice at htwice
        split_ifs with hupper hlower hsmall hbefore hend hbefore hsmall
        all_goals
          refine .of_iff fun v => ?_
          simp only [contains_ofBounds, contains_iff_of_ne hA, contains_iff_of_ne hB]
          omega

theorem isHull_intersectWith (hw : 0 < w) (A B : ConstantRange w) :
    IsHull (fun v => A.contains v ∧ B.contains v) (A.intersectWith B) := by
  have hsubset {R Q : ConstantRange w} (h : R.isEmptySet ∨ Q.isFullSet) (v : BitVec w)
      (hv : R.contains v) : Q.contains v :=
    h.elim (fun hempty => absurd hempty (not_isEmptySet hw hv)) fun hfull =>
      contains_iff.mpr (.inl hfull)
  unfold intersectWith
  split_ifs with hleft hright hswap
  · exact .of_iff fun v => ⟨fun h => ⟨h, hsubset hleft v h⟩, fun h => h.1⟩
  · exact .of_iff fun v => ⟨fun h => ⟨hsubset hright v h, h⟩, fun h => h.2⟩
  all_goals
    have hA := lower_ne_upper (fun h => hright (.inr h)) (fun h => hleft (.inl h))
    have hB := lower_ne_upper (fun h => hleft (.inr h)) (fun h => hright (.inl h))
  · have hhull := isHull_intersectWithBounds hw hB hA fun h => absurd h hswap.1
    refine ⟨fun v h => hhull.covers v h.symm, fun C hC => hhull.least C fun v h => hC v h.symm⟩
  · exact isHull_intersectWithBounds hw hA hB _

/-- The union and the intersection of two ranges lose no value, and no range around the values has
less members. -/
theorem unionWith_intersectWith_optimal (hw : 0 < w) (A B : ConstantRange w) :
    IsHull (fun v => A.contains v ∧ B.contains v) (A.intersectWith B) ∧
      IsHull (fun v => A.contains v ∨ B.contains v) (A.unionWith B) :=
  ⟨isHull_intersectWith hw A B, isHull_unionWith hw A B⟩

/-- Two ranges that wrap around. -/
theorem unionWith_intersectWith_optimal_wrapped :
    IsHull (fun v => (ofBounds 6#3 3#3 (by decide)).contains v ∧
        (ofBounds 2#3 7#3 (by decide)).contains v)
      ((ofBounds 6#3 3#3 (by decide)).intersectWith (ofBounds 2#3 7#3 (by decide))) ∧
    IsHull (fun v => (ofBounds 6#3 3#3 (by decide)).contains v ∨
        (ofBounds 2#3 7#3 (by decide)).contains v)
      ((ofBounds 6#3 3#3 (by decide)).unionWith (ofBounds 2#3 7#3 (by decide))) :=
  unionWith_intersectWith_optimal (by decide) _ _

end Zapcc.ConstantRange
