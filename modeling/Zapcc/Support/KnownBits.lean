import Mathlib.Tactic.ByContra
import Mathlib.Tactic.SplitIfs

/-!
# Known bits of sums and differences

The carries of all sums lie between those of the smallest and of the largest sum
(`carry_mono`). A bit of the result is known when its operands' bits are and these two carries
agree. The main result is `computeForAddSub_spec`.
-/

namespace Zapcc

open Bool BitVec

structure KnownBits (w : Nat) where
  Zero : BitVec w
  One : BitVec w

namespace KnownBits

variable {w : Nat}

/-! ## The code -/

def isNegative (K : KnownBits w) : Bool := K.One.msb

def isNonNegative (K : KnownBits w) : Bool := K.Zero.msb

def makeNegative (K : KnownBits w) : Option (KnownBits w) :=
  if K.isNonNegative then none else some { K with One := K.One ||| intMin w }

def makeNonNegative (K : KnownBits w) : Option (KnownBits w) :=
  if K.isNegative then none else some { K with Zero := K.Zero ||| intMin w }

def sum (x y : BitVec w) (CarryIn : Bool) : BitVec w :=
  x + y + (BitVec.ofBool CarryIn).setWidth w

def possibleSumZero (LHS RHS : KnownBits w) (CarryIn : Bool) : BitVec w :=
  sum (~~~LHS.Zero) (~~~RHS.Zero) CarryIn

def possibleSumOne (LHS RHS : KnownBits w) (CarryIn : Bool) : BitVec w :=
  sum LHS.One RHS.One CarryIn

def carryKnownZero (LHS RHS : KnownBits w) (CarryIn : Bool) : BitVec w :=
  ~~~(possibleSumZero LHS RHS CarryIn ^^^ LHS.Zero ^^^ RHS.Zero)

def carryKnownOne (LHS RHS : KnownBits w) (CarryIn : Bool) : BitVec w :=
  possibleSumOne LHS RHS CarryIn ^^^ LHS.One ^^^ RHS.One

def known (LHS RHS : KnownBits w) (CarryIn : Bool) : BitVec w :=
  (LHS.Zero ||| LHS.One) &&& (RHS.Zero ||| RHS.One) &&&
    (carryKnownZero LHS RHS CarryIn ||| carryKnownOne LHS RHS CarryIn)

def knownOut (LHS RHS : KnownBits w) (CarryIn : Bool) : KnownBits w where
  Zero := ~~~possibleSumZero LHS RHS CarryIn &&& known LHS RHS CarryIn
  One := possibleSumOne LHS RHS CarryIn &&& known LHS RHS CarryIn

/-- `computeForAddSub` behind the swap. -/
def computeForSum (CarryIn NSW : Bool) (LHS RHS : KnownBits w) : Option (KnownBits w) :=
  if possibleSumZero LHS RHS CarryIn &&& known LHS RHS CarryIn ≠
      possibleSumOne LHS RHS CarryIn &&& known LHS RHS CarryIn then none
  else if !(known LHS RHS CarryIn).msb && NSW then
    if LHS.isNonNegative && RHS.isNonNegative then (knownOut LHS RHS CarryIn).makeNonNegative
    else if LHS.isNegative && RHS.isNegative then (knownOut LHS RHS CarryIn).makeNegative
    else some (knownOut LHS RHS CarryIn)
  else some (knownOut LHS RHS CarryIn)

def computeForAddSub (Add NSW : Bool) (LHS RHS : KnownBits w) : Option (KnownBits w) :=
  if Add then computeForSum false NSW LHS RHS
  else computeForSum true NSW LHS ⟨RHS.One, RHS.Zero⟩

/-! ## Described values -/

/-- No bit is known to be zero and one. -/
def Consistent (K : KnownBits w) : Prop :=
  ∀ i < w, K.Zero.getLsbD i = true → K.One.getLsbD i = false

/-- The values with the known bits. -/
def Describes (K : KnownBits w) (x : BitVec w) : Prop :=
  ∀ i < w, (K.Zero.getLsbD i = true → x.getLsbD i = false) ∧
    (K.One.getLsbD i = true → x.getLsbD i = true)

def op (Add : Bool) (x y : BitVec w) : BitVec w := if Add then x + y else x - y

/-- The operation overflows in the signed sense. -/
def Overflows (Add : Bool) (x y : BitVec w) : Prop :=
  if Add then BitVec.saddOverflow x y = true else BitVec.ssubOverflow x y = true

/-- The known bits are right, without signed overflow if `NSW` holds. -/
def Sound (Add NSW : Bool) (LHS RHS Out : KnownBits w) : Prop :=
  ∀ x y, LHS.Describes x → RHS.Describes y → (NSW = true → ¬ Overflows Add x y) →
    Out.Describes (op Add x y)

/-- A bit that is not known takes both values. -/
def Optimal (Add : Bool) (LHS RHS Out : KnownBits w) : Prop :=
  ∀ i < w, Out.Zero.getLsbD i = false → Out.One.getLsbD i = false → ∀ v,
    ∃ x y, LHS.Describes x ∧ RHS.Describes y ∧ (op Add x y).getLsbD i = v

/-! ## Carries -/

variable {x y x' y' : BitVec w} {c : Bool} {i : Nat}

theorem atLeastTwo_mono {a b c a' b' c' : Bool} (ha : a ≤ a') (hb : b ≤ b') (hc : c ≤ c') :
    Bool.atLeastTwo a b c ≤ Bool.atLeastTwo a' b' c' := by
  revert a b c a' b' c'
  decide

theorem carry_mono (hx : ∀ j < i, x.getLsbD j ≤ x'.getLsbD j)
    (hy : ∀ j < i, y.getLsbD j ≤ y'.getLsbD j) :
    BitVec.carry i x y c ≤ BitVec.carry i x' y' c := by
  induction i with
  | zero => simp
  | succ i ih =>
    rw [carry_succ, carry_succ]
    exact atLeastTwo_mono (hx i (Nat.lt_succ_self i)) (hy i (Nat.lt_succ_self i))
      (ih (fun j hj => hx j (by omega)) fun j hj => hy j (by omega))

theorem bool_le_antisymm {a b : Bool} (hab : a ≤ b) (hba : b ≤ a) : a = b := by
  revert a b
  decide

theorem carry_congr (hx : ∀ j < i, x.getLsbD j = x'.getLsbD j)
    (hy : ∀ j < i, y.getLsbD j = y'.getLsbD j) :
    BitVec.carry i x y c = BitVec.carry i x' y' c :=
  bool_le_antisymm
    (carry_mono (fun j hj => (hx j hj) ▸ Bool.le_refl _) fun j hj => (hy j hj) ▸ Bool.le_refl _)
    (carry_mono (fun j hj => (hx j hj) ▸ Bool.le_refl _) fun j hj => (hy j hj) ▸ Bool.le_refl _)

theorem getLsbD_sum (hi : i < w) :
    (sum x y c).getLsbD i = (x.getLsbD i ^^ (y.getLsbD i ^^ BitVec.carry i x y c)) :=
  getLsbD_add_add_bool hi x y c

/-! ## Sums -/

variable {L R : KnownBits w}

theorem Describes.one_le (h : L.Describes x) (hi : i < w) : L.One.getLsbD i ≤ x.getLsbD i := by
  cases hone : L.One.getLsbD i with
  | false => exact Bool.false_le _
  | true => exact fun _ => (h i hi).2 hone

theorem Describes.le_zero (h : L.Describes x) (hi : i < w) :
    x.getLsbD i ≤ (~~~L.Zero).getLsbD i := by
  rw [getLsbD_not, decide_eq_true hi, Bool.true_and]
  cases hzero : L.Zero.getLsbD i with
  | false => exact Bool.le_true _
  | true => rw [(h i hi).1 hzero]; exact Bool.false_le _

theorem Consistent.describes_one (h : L.Consistent) : L.Describes L.One :=
  fun i hi => ⟨h i hi, id⟩

theorem Consistent.describes_zero (h : L.Consistent) : L.Describes (~~~L.Zero) := by
  intro i hi
  rw [getLsbD_not, decide_eq_true hi, Bool.true_and]
  refine ⟨fun hzero => by rw [hzero]; rfl, fun hone => ?_⟩
  cases hzero : L.Zero.getLsbD i with
  | false => rfl
  | true => exact absurd hone (by rw [h i hi hzero]; decide)

theorem Consistent.describes_flip (h : L.Consistent) (hzero : L.Zero.getLsbD i = false) :
    L.Describes (L.One ||| twoPow w i) := by
  intro j hj
  rw [getLsbD_or, getLsbD_twoPow]
  refine ⟨fun hz => ?_, fun hone => by rw [hone]; rfl⟩
  have hij : i ≠ j := by
    rintro rfl
    exact absurd hz (by rw [hzero]; decide)
  simp [h j hj hz, hij]

theorem carry_bounds (hx : L.Describes x) (hy : R.Describes y) (hi : i < w) :
    BitVec.carry i L.One R.One c ≤ BitVec.carry i x y c ∧
      BitVec.carry i x y c ≤ BitVec.carry i (~~~L.Zero) (~~~R.Zero) c :=
  ⟨carry_mono (fun _ hj => hx.one_le (by omega)) fun _ hj => hy.one_le (by omega),
    carry_mono (fun _ hj => hx.le_zero (by omega)) fun _ hj => hy.le_zero (by omega)⟩

theorem getLsbD_known (hi : i < w) :
    (known L R c).getLsbD i =
      ((L.Zero.getLsbD i || L.One.getLsbD i) && (R.Zero.getLsbD i || R.One.getLsbD i) &&
        (!BitVec.carry i (~~~L.Zero) (~~~R.Zero) c || BitVec.carry i L.One R.One c)) := by
  simp only [known, carryKnownZero, carryKnownOne, possibleSumZero, possibleSumOne,
    getLsbD_and, getLsbD_or, getLsbD_not, getLsbD_xor,
    getLsbD_sum hi, decide_eq_true hi, Bool.true_and]
  generalize BitVec.carry i (~~~L.Zero) (~~~R.Zero) c = carry
  generalize BitVec.carry i L.One R.One c = carry'
  cases L.Zero.getLsbD i <;> cases R.Zero.getLsbD i <;> cases L.One.getLsbD i <;>
    cases R.One.getLsbD i <;> cases carry <;> cases carry' <;> rfl

theorem getLsbD_sum_of_known (hx : L.Describes x) (hy : R.Describes y) (hi : i < w)
    (hknown : (known L R c).getLsbD i = true) :
    (sum x y c).getLsbD i = (possibleSumOne L R c).getLsbD i ∧
      (sum x y c).getLsbD i = (possibleSumZero L R c).getLsbD i := by
  rw [getLsbD_known hi] at hknown
  obtain ⟨hlow, hhigh⟩ := carry_bounds (c := c) hx hy hi
  have hx' := hx i hi
  have hy' := hy i hi
  have hxlow := hx.one_le hi
  have hylow := hy.one_le hi
  rw [possibleSumOne, possibleSumZero, getLsbD_sum hi, getLsbD_sum hi, getLsbD_sum hi,
    getLsbD_not, getLsbD_not, decide_eq_true hi, Bool.true_and, Bool.true_and]
  revert hknown hlow hhigh hx' hy' hxlow hylow
  generalize BitVec.carry i (~~~L.Zero) (~~~R.Zero) c = carry
  generalize BitVec.carry i L.One R.One c = carry'
  generalize BitVec.carry i x y c = carry''
  generalize L.Zero.getLsbD i = lz, L.One.getLsbD i = lo, R.Zero.getLsbD i = rz,
    R.One.getLsbD i = ro, x.getLsbD i = xi, y.getLsbD i = yi
  revert carry carry' carry'' lz lo rz ro xi yi
  decide

theorem knownOut_describes (hx : L.Describes x) (hy : R.Describes y) :
    (knownOut L R c).Describes (sum x y c) := by
  intro i hi
  simp only [knownOut, getLsbD_and, getLsbD_not, decide_eq_true hi, Bool.true_and,
    and_eq_true, not_eq_true']
  refine ⟨fun ⟨hzero, hknown⟩ => ?_, fun ⟨hone, hknown⟩ => ?_⟩
  · rw [(getLsbD_sum_of_known hx hy hi hknown).2, hzero]
  · rw [(getLsbD_sum_of_known hx hy hi hknown).1, hone]

theorem possibleSum_known_eq (hL : L.Consistent) (hR : R.Consistent) :
    possibleSumZero L R c &&& known L R c = possibleSumOne L R c &&& known L R c := by
  refine eq_of_getLsbD_eq fun i hi => ?_
  rw [getLsbD_and, getLsbD_and]
  cases hknown : (known L R c).getLsbD i with
  | false => rw [Bool.and_false, Bool.and_false]
  | true =>
    obtain ⟨hone, hzero⟩ :=
      getLsbD_sum_of_known hL.describes_one hR.describes_one hi hknown
    rw [← hzero, ← hone]

theorem getLsbD_sum_flip (hi : i < w) (hone : x.getLsbD i = false) :
    (sum (x ||| twoPow w i) y c).getLsbD i = !(sum x y c).getLsbD i := by
  have hcarry : BitVec.carry i (x ||| twoPow w i) y c = BitVec.carry i x y c := by
    refine carry_congr (fun j hj => ?_) fun _ _ => rfl
    simp [show i ≠ j by omega]
  rw [getLsbD_sum hi, getLsbD_sum hi, hcarry, getLsbD_or, getLsbD_twoPow, hone]
  simp [hi]

theorem sum_comm (x y : BitVec w) (c : Bool) : sum x y c = sum y x c := by
  rw [sum, sum, BitVec.add_comm x y]

theorem exists_getLsbD (hx : L.Describes x) (hy : R.Describes y) (hx' : L.Describes x')
    (hy' : R.Describes y') (hne : (sum x' y' c).getLsbD i = !(sum x y c).getLsbD i) (v : Bool) :
    ∃ x y, L.Describes x ∧ R.Describes y ∧ (sum x y c).getLsbD i = v := by
  by_cases hv : (sum x y c).getLsbD i = v
  · exact ⟨x, y, hx, hy, hv⟩
  · refine ⟨x', y', hx', hy', ?_⟩
    cases v <;> simp_all

theorem knownOut_optimal (hL : L.Consistent) (hR : R.Consistent) (hi : i < w)
    (hzero : (knownOut L R c).Zero.getLsbD i = false)
    (hone : (knownOut L R c).One.getLsbD i = false) (v : Bool) :
    ∃ x y, L.Describes x ∧ R.Describes y ∧ (sum x y c).getLsbD i = v := by
  have hunknown : (known L R c).getLsbD i = false := by
    cases hknown : (known L R c).getLsbD i with
    | false => rfl
    | true =>
      obtain ⟨hO, hZ⟩ := getLsbD_sum_of_known hL.describes_one hR.describes_one hi hknown
      simp only [knownOut, getLsbD_and, getLsbD_not, decide_eq_true hi,
        Bool.true_and, hknown, Bool.and_true] at hzero hone
      rw [← hZ, hO, hone] at hzero
      exact absurd hzero (by decide)
  rw [getLsbD_known hi] at hunknown
  have hLi := hL i hi
  have hRi := hR i hi
  by_cases hleft : L.Zero.getLsbD i = false ∧ L.One.getLsbD i = false
  · exact exists_getLsbD hL.describes_one hR.describes_one (hL.describes_flip hleft.1)
      hR.describes_one (getLsbD_sum_flip hi hleft.2) v
  by_cases hright : R.Zero.getLsbD i = false ∧ R.One.getLsbD i = false
  · refine exists_getLsbD hL.describes_one hR.describes_one hL.describes_one
      (hR.describes_flip hright.1) ?_ v
    rw [sum_comm, getLsbD_sum_flip hi hright.2, sum_comm]
  -- both bits are known, so that the carry is not
  refine exists_getLsbD hL.describes_one hR.describes_one hL.describes_zero hR.describes_zero ?_ v
  rw [getLsbD_sum hi, getLsbD_sum hi, getLsbD_not, getLsbD_not, decide_eq_true hi,
    Bool.true_and, Bool.true_and]
  revert hunknown hLi hRi hleft hright
  generalize BitVec.carry i (~~~L.Zero) (~~~R.Zero) c = carry
  generalize BitVec.carry i L.One R.One c = carry'
  generalize L.Zero.getLsbD i = lz, L.One.getLsbD i = lo, R.Zero.getLsbD i = rz,
    R.One.getLsbD i = ro
  revert carry carry' lz lo rz ro
  decide

/-! ## The sign -/

theorem known_msb_of_isNegative (h : (knownOut L R c).isNegative = true) :
    (known L R c).msb = true := by
  rw [isNegative, knownOut, msb_and, and_eq_true] at h
  exact h.2

theorem known_msb_of_isNonNegative (h : (knownOut L R c).isNonNegative = true) :
    (known L R c).msb = true := by
  rw [isNonNegative, knownOut, msb_and, and_eq_true] at h
  exact h.2

theorem Describes.msb_of_isNonNegative (h : L.Describes x) (hL : L.isNonNegative = true) :
    x.msb = false := by
  rw [isNonNegative, msb_eq_getLsbD_last] at hL
  rw [msb_eq_getLsbD_last]
  exact (h _ (lt_of_getLsbD hL)).1 hL

theorem Describes.msb_of_isNegative (h : L.Describes x) (hL : L.isNegative = true) :
    x.msb = true := by
  rw [isNegative, msb_eq_getLsbD_last] at hL
  rw [msb_eq_getLsbD_last]
  exact (h _ (lt_of_getLsbD hL)).2 hL

theorem makeNonNegative_describes {K K' : KnownBits w} (h : K.Describes x) (hx : x.msb = false)
    (hK : K.makeNonNegative = some K') : K'.Describes x := by
  unfold makeNonNegative at hK
  split_ifs at hK
  obtain rfl := Option.some.inj hK
  refine fun i hi => ⟨fun hzero => ?_, (h i hi).2⟩
  rw [getLsbD_or, or_eq_true, getLsbD_intMin, decide_eq_true_eq] at hzero
  rcases hzero with hzero | rfl
  · exact (h i hi).1 hzero
  · rwa [msb_eq_getLsbD_last] at hx

theorem makeNegative_describes {K K' : KnownBits w} (h : K.Describes x) (hx : x.msb = true)
    (hK : K.makeNegative = some K') : K'.Describes x := by
  unfold makeNegative at hK
  split_ifs at hK
  obtain rfl := Option.some.inj hK
  refine fun i hi => ⟨(h i hi).1, fun hone => ?_⟩
  rw [getLsbD_or, or_eq_true, getLsbD_intMin, decide_eq_true_eq] at hone
  rcases hone with hone | rfl
  · exact (h i hi).2 hone
  · rwa [msb_eq_getLsbD_last] at hx

/-- The signed result of two operands of one sign, the second one without the complement. -/
def KeepsSign (x y : BitVec w) (c : Bool) : Prop :=
  x.msb = y.msb → (sum x y c).msb = x.msb

theorem computeForSum_spec (hL : L.Consistent) (hR : R.Consistent) (NSW : Bool) :
    ∃ Out, computeForSum c NSW L R = some Out ∧
      (∀ x y, L.Describes x → R.Describes y → (NSW = true → KeepsSign x y c) →
        Out.Describes (sum x y c)) ∧
      (NSW = false → Out = knownOut L R c) := by
  rw [computeForSum, if_neg (not_not.mpr (possibleSum_known_eq hL hR))]
  split_ifs with hNSW hnonneg hneg
  · rw [and_eq_true, not_eq_true'] at hNSW
    have hfalse : (knownOut L R c).isNegative = false :=
      Bool.eq_false_iff.mpr fun h => by simp [known_msb_of_isNegative h] at hNSW
    refine ⟨_, by rw [makeNonNegative, hfalse]; rfl, fun x y hx hy hkeeps => ?_, fun h => ?_⟩
    · rw [and_eq_true] at hnonneg
      have hxmsb := hx.msb_of_isNonNegative hnonneg.1
      have hymsb := hy.msb_of_isNonNegative hnonneg.2
      refine makeNonNegative_describes (knownOut_describes hx hy) ?_
        (by rw [makeNonNegative, hfalse]; rfl)
      rw [hkeeps hNSW.2 (hxmsb.trans hymsb.symm), hxmsb]
    · exact absurd (hNSW.2.symm.trans h) (by decide)
  · rw [and_eq_true, not_eq_true'] at hNSW
    have hfalse : (knownOut L R c).isNonNegative = false :=
      Bool.eq_false_iff.mpr fun h => by simp [known_msb_of_isNonNegative h] at hNSW
    refine ⟨_, by rw [makeNegative, hfalse]; rfl, fun x y hx hy hkeeps => ?_, fun h => ?_⟩
    · rw [and_eq_true] at hneg
      have hxmsb := hx.msb_of_isNegative hneg.1
      have hymsb := hy.msb_of_isNegative hneg.2
      refine makeNegative_describes (knownOut_describes hx hy) ?_
        (by rw [makeNegative, hfalse]; rfl)
      rw [hkeeps hNSW.2 (hxmsb.trans hymsb.symm), hxmsb]
    · exact absurd (hNSW.2.symm.trans h) (by decide)
  · exact ⟨_, rfl, fun x y hx hy _ => knownOut_describes hx hy, fun _ => rfl⟩
  · exact ⟨_, rfl, fun x y hx hy _ => knownOut_describes hx hy, fun _ => rfl⟩

/-! ## Sums and differences -/

theorem add_eq_sum (x y : BitVec w) : x + y = sum x y false := by
  simp [sum]

theorem sub_eq_sum (x y : BitVec w) : x - y = sum x (~~~y) true := by
  have hone : (BitVec.ofBool true).setWidth w = 1#w := eq_of_toNat_eq (by simp)
  rw [sum, hone, BitVec.sub_eq_add_neg, neg_eq_not_add, BitVec.add_assoc]

theorem keepsSign_add (h : ¬ BitVec.saddOverflow x y = true) : KeepsSign x y false := by
  intro hmsb
  have hsum := toInt_add_of_not_saddOverflow h
  rw [← add_eq_sum]
  rw [msb_eq_toInt, msb_eq_toInt, decide_eq_decide] at *
  omega

theorem keepsSign_sub (h : ¬ BitVec.ssubOverflow x y = true) : KeepsSign x (~~~y) true := by
  intro hmsb
  have hsub := toInt_sub_of_not_ssubOverflow h
  rw [← sub_eq_sum]
  rcases Nat.eq_zero_or_pos w with rfl | hw
  · rfl
  · rw [msb_not, decide_eq_true hw, Bool.true_and] at hmsb
    rw [msb_eq_toInt, msb_eq_toInt] at *
    by_cases hx : x.toInt < 0 <;> by_cases hy : y.toInt < 0 <;> simp_all <;> omega

theorem consistent_swap (h : R.Consistent) : Consistent ⟨R.One, R.Zero⟩ := by
  intro i hi hone
  by_contra hzero
  have hnot : R.One.getLsbD i = false := h i hi ((not_eq_false _).mp hzero)
  exact absurd (hone.symm.trans hnot) (by decide)

theorem describes_swap_iff : Describes ⟨R.One, R.Zero⟩ (~~~y) ↔ R.Describes y := by
  refine forall₂_congr fun i hi => ?_
  rw [getLsbD_not, decide_eq_true hi, Bool.true_and]
  cases R.Zero.getLsbD i <;> cases R.One.getLsbD i <;> cases y.getLsbD i <;> simp

/-- The known bits of a sum or difference are right, and without `NSW` no other bit is known. -/
theorem computeForAddSub_spec (Add NSW : Bool) {LHS RHS : KnownBits w} (hL : LHS.Consistent)
    (hR : RHS.Consistent) :
    ∃ Out, computeForAddSub Add NSW LHS RHS = some Out ∧ Sound Add NSW LHS RHS Out ∧
      (NSW = false → Optimal Add LHS RHS Out) := by
  cases Add with
  | true =>
    obtain ⟨Out, hOut, hsound, hknown⟩ := computeForSum_spec (c := false) hL hR NSW
    refine ⟨Out, hOut, fun x y hx hy hNSW => ?_, fun hNSW i hi hzero hone v => ?_⟩
    · rw [op, if_pos rfl, add_eq_sum]
      exact hsound x y hx hy fun h => keepsSign_add (hNSW h)
    · rw [hknown hNSW] at hzero hone
      obtain ⟨x, y, hx, hy, hv⟩ := knownOut_optimal hL hR hi hzero hone v
      exact ⟨x, y, hx, hy, by rw [op, if_pos rfl, add_eq_sum, hv]⟩
  | false =>
    have hR' := consistent_swap hR
    obtain ⟨Out, hOut, hsound, hknown⟩ := computeForSum_spec (c := true) hL hR' NSW
    refine ⟨Out, hOut, fun x y hx hy hNSW => ?_, fun hNSW i hi hzero hone v => ?_⟩
    · rw [op, if_neg Bool.false_ne_true, sub_eq_sum]
      exact hsound x _ hx (describes_swap_iff.mpr hy) fun h => keepsSign_sub (hNSW h)
    · rw [hknown hNSW] at hzero hone
      obtain ⟨x, y, hx, hy, hv⟩ := knownOut_optimal hL hR' hi hzero hone v
      rw [← BitVec.not_not (b := y), describes_swap_iff] at hy
      refine ⟨x, ~~~y, hx, hy, ?_⟩
      rw [op, if_neg Bool.false_ne_true, sub_eq_sum, BitVec.not_not, hv]

theorem computeForAddSub_four_bits :
    ∃ Out, computeForAddSub false true (⟨0b1000#4, 0b0001#4⟩ : KnownBits 4) ⟨0#4, 0b1000#4⟩ =
        some Out ∧
      Sound false true (⟨0b1000#4, 0b0001#4⟩ : KnownBits 4) ⟨0#4, 0b1000#4⟩ Out ∧
      (true = false → Optimal false (⟨0b1000#4, 0b0001#4⟩ : KnownBits 4) ⟨0#4, 0b1000#4⟩ Out) :=
  computeForAddSub_spec false true (by unfold Consistent; decide) (by unfold Consistent; decide)

end KnownBits

end Zapcc
