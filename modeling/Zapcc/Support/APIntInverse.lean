import Zapcc.Library.ExtendedEuclid
import Zapcc.Library.SignedFits
import Zapcc.Support.APIntDivrem

/-!
# The multiplicative inverse

`multiplicativeInverse` is the extended Euclidean algorithm with coefficients that are kept modulo
two to the width. `multiplicativeInverse_spec` says that it returns the inverse. `udivrem` may give
a wrong last quotient, because the remainder is put into the dividend, but it is not used.
-/

namespace Zapcc.APInt

open ExtendedEuclid SignedFits Option

variable {w : Nat}

/-- The value of an object, which an operation takes in its own width. -/
def Object.ofWidth (o : Object) (w : Nat) : Option (BitVec w) :=
  if o.bitWidth = w then some (o.val.setWidth w) else none

/-- The loop over `i`, with `r[0]` and `r[1]` in the objects 0 and 1, and `q` in the object 2. -/
def inverseLoop : Nat → Nat → Heap → (Nat → BitVec w) → Option (Nat × Heap × (Nat → BitVec w))
  | 0, _, _, _ => none
  | fuel + 1, i, r, t =>
    if (r (i ^^^ 1)).val.toNat = 0 then some (i, r, t)
    else do
      let r ← udivrem (.object i) (.object (i ^^^ 1)) 2 i r
      let q ← (r 2).ofWidth w
      inverseLoop fuel (i ^^^ 1) r fun j => if j = i then t i - t (i ^^^ 1) * q else t j

/-- `multiplicativeInverse`. The remainders get smaller. -/
def multiplicativeInverse (hw : 0 < w) (x modulo : BitVec w) : Option (BitVec w) :=
  if modulo ≤ x then none
  else do
    let (i, r, t) ← inverseLoop (x.toNat + 1) 0
      (fun j => ⟨w, if j = 0 then modulo else if j = 1 then x else 0#w, hw⟩)
      (fun j => if j = 1 then 1#w else 0#w)
    if (r i).val.toNat ≠ 1 then some 0#w
    else if (t i).msb then some (t i + modulo) else some (t i)

section

variable {LHS RHS : Operand} {Quotient Remainder lhsWords rhsWords j : Nat} {h h' : Heap}

theorem compareAndDivide_frame (hq : j ≠ Quotient) (hr : j ≠ Remainder)
    (hresult : compareAndDivide LHS RHS Quotient Remainder lhsWords rhsWords h = some h') :
    h' j = h j := by
  unfold compareAndDivide at hresult
  split_ifs at hresult
  · rw [← Option.some.inj hresult, Heap.set_other _ _ hq, Heap.set_other _ _ hr]
  · rw [← Option.some.inj hresult, Heap.set_other _ _ hr, Heap.set_other _ _ hq]
  · simp only [bind, bind_eq_some_iff] at hresult
    obtain ⟨quot, -, rem, -, hset⟩ := hresult
    rw [← Option.some.inj hset, Heap.set_other _ _ hr, Heap.set_other _ _ hq,
      Heap.set_other _ _ hr, Heap.set_other _ _ hq]
  · simp only [bind, bind_eq_some_iff] at hresult
    obtain ⟨⟨quot, rem⟩, -, hset⟩ := hresult
    rw [← Option.some.inj hset, Heap.set_other _ _ hr, Heap.set_other _ _ hq,
      Heap.set_other _ _ hr, Heap.set_other _ _ hq]

theorem udivrem_frame (hq : j ≠ Quotient) (hr : j ≠ Remainder)
    (hresult : udivrem LHS RHS Quotient Remainder h = some h') : h' j = h j := by
  unfold udivrem at hresult
  dsimp only at hresult
  split_ifs at hresult
  · simp only [bind, bind_eq_some_iff] at hresult
    obtain ⟨quot, -, rem, -, hset⟩ := hresult
    rw [← Option.some.inj hset, Heap.set_other _ _ hr, Heap.set_other _ _ hq]
  · rw [← Option.some.inj hresult, Heap.set_other _ _ hr, Heap.set_other _ _ hq]
  · rw [compareAndDivide_frame hq hr hresult, Heap.set_other _ _ hr, Heap.set_other _ _ hq]
  · exact compareAndDivide_frame hq hr hresult

end

theorem udivrem_inPlace {i j q : Nat} {r : Heap} {x y : BitVec w} {hw : 0 < w} (hqi : q ≠ i)
    (hji : j ≠ i) (hjq : j ≠ q) (hi : r i = ⟨w, x, hw⟩) (hj : r j = ⟨w, y, hw⟩) (hy : y ≠ 0#w)
    (hlt : y.toNat < x.toNat) :
    ∃ r' quot, udivrem (.object i) (.object j) q i r = some r' ∧ r' i = ⟨w, x % y, hw⟩ ∧
      r' j = ⟨w, y, hw⟩ ∧ r' q = ⟨w, quot, hw⟩ ∧ (y.toNat ≠ 1 → quot = x / y) := by
  have hL : r.read (.object i) = ⟨w, x, hw⟩ := hi
  have hR : r.read (.object j) = ⟨w, y, hw⟩ := hj
  have hx : x ≠ 0#w := by
    rw [ne_eq, ← BitVec.toNat_inj, BitVec.toNat_zero]
    omega
  suffices ∃ r' quot, udivrem (.object i) (.object j) q i r = some r' ∧ r' i = ⟨w, x % y, hw⟩ ∧
      r' q = ⟨w, quot, hw⟩ ∧ (y.toNat ≠ 1 → quot = x / y) by
    obtain ⟨r', quot, hresult, hrem, hquot, hright⟩ := this
    exact ⟨r', quot, hresult, hrem, (udivrem_frame hjq hji hresult).trans hj, hquot, hright⟩
  rcases Nat.lt_or_ge 64 w with hwide | hsingle
  · by_cases hone : y = 1#w
    · subst hone
      have hrem := @afterOneBit_remainder (.object i) q i r hqi
      have hquot := @afterOneBit_quotient (.object i) q i r hqi
      rw [hi] at hrem
      rw [hL] at hquot
      have hdivisor : (afterOneBit (.object i) q i r).read (.object j) = ⟨w, 1#w, hw⟩ := by
        rw [afterOneBit_other (fun heq => hjq (by injection heq))
          (fun heq => hji (by injection heq))]
        exact hR
      have hsmaller : ((afterOneBit (.object i) q i r).read (.object i)).val.toNat <
          ((afterOneBit (.object i) q i r).read (.object j)).val.toNat := by
        rw [hdivisor]
        change (afterOneBit (.object i) q i r i).val.toNat < (1#w).toNat
        rw [hrem, toNat_assignWord_zero, toNat_one_of_wide hwide]
        decide
      obtain ⟨r', hresult, hq, hr⟩ := @compareAndDivide_lt (.object i) (.object j) q i
        (getNumWords (getActiveBits x)) 1 _ hqi hsmaller
      have hremainder : r' i = ⟨w, x % 1#w, hw⟩ := by
        rw [hr]
        change afterOneBit (.object i) q i r i = _
        rw [hrem, Object.assignWord_eq rfl, BitVec.umod_one]
        rfl
      refine ⟨r', 0#w, (udivrem_oneBit hL hR hx hwide).trans hresult, hremainder, ?_,
        fun hne => absurd (toNat_one_of_wide hwide) hne⟩
      rw [hq, hquot]
      rfl
    · have hwords : getNumWords (getActiveBits y) ≤ getNumWords (getActiveBits x) := by
        by_contra hless
        have hbelow := lt_of_getNumWords_lt (Nat.not_le.mp hless)
        rw [BitVec.lt_def] at hbelow
        omega
      obtain ⟨r', hresult, hquot, hrem⟩ := compareAndDivide_gt hqi hL hR hwords
        (lt_of_getNumWords (Nat.le_refl _)) (lt_of_getNumWords (Nat.le_refl _)) (toNat_pos hy) hlt
      exact ⟨r', x / y, (udivrem_moreBits hL hR hx hy hone hwide).trans hresult, hrem, hquot,
        fun _ => rfl⟩
  · obtain ⟨r', hresult, hquot, hrem⟩ := udivrem_single hqi hL hR hy hsingle
    exact ⟨r', x / y, hresult, hrem, hquot, fun _ => rfl⟩

theorem Object.ofWidth_val (x : BitVec w) (hw : 0 < w) :
    Object.ofWidth ⟨w, x, hw⟩ w = some x := by
  simp [Object.ofWidth]

theorem other_index {i : Nat} (hi : i < 2) :
    i ^^^ 1 < 2 ∧ i ^^^ 1 ≠ i ∧ i ^^^ 1 ^^^ 1 = i := by
  revert i
  decide

theorem ofInt_next_coefficient (U V : Int) (x y : BitVec w) :
    BitVec.ofInt w U - BitVec.ofInt w V * (x / y) =
      BitVec.ofInt w (U - (x.toNat / y.toNat : Nat) * V) := by
  have hquot : x / y = BitVec.ofInt w (x.toNat / y.toNat : Nat) := by
    rw [BitVec.ofInt_natCast]
    refine BitVec.eq_of_toNat_eq ?_
    rw [BitVec.toNat_udiv, BitVec.toNat_ofNat, Nat.mod_eq_of_lt]
    exact Nat.lt_of_le_of_lt (Nat.div_le_self _ _) x.isLt
  rw [hquot, ← BitVec.ofInt_mul, BitVec.sub_eq_add_neg, ← BitVec.ofInt_neg, ← BitVec.ofInt_add,
    Int.mul_comm V, Int.sub_eq_add_neg]

/-- What the loop leaves: the greatest common divisor with its coefficient. -/
structure Inverted (w m A b : Nat) (hw : 0 < w) (i : Nat) (r : Heap) (t : Nat → BitVec w) :
    Prop where
  remainder : ∃ g : BitVec w, r i = ⟨w, g, hw⟩ ∧ g.toNat = Nat.gcd m A
  coefficient : ∃ U : Int, t i = BitVec.ofInt w U ∧ (m : Int) ∣ A * U - Nat.gcd m A ∧
    (0 < b → Nat.gcd m A = 1 → -m ≤ 2 * U ∧ 2 * U ≤ m)

theorem inverseLoop_spec {m A : Nat} {hw : 0 < w} : ∀ {fuel i : Nat} {r : Heap}
    {t : Nat → BitVec w} {x y : BitVec w} {U V : Int}, i < 2 → r i = ⟨w, x, hw⟩ →
    r (i ^^^ 1) = ⟨w, y, hw⟩ → t i = BitVec.ofInt w U → t (i ^^^ 1) = BitVec.ofInt w V →
    y.toNat < x.toNat → Cofactors m A x.toNat y.toNat U V → y.toNat < fuel →
    ∃ i' r' t', inverseLoop fuel i r t = some (i', r', t') ∧
      Inverted w m A y.toNat hw i' r' t' := by
  intro fuel
  induction fuel with
  | zero =>
    omega
  | succ fuel ih =>
    intro i r t x y U V hi hx hy hU hV hlt hco hfuel
    obtain ⟨hother, hne, hback⟩ := other_index hi
    by_cases hzero : y.toNat = 0
    · have hgcd : x.toNat = Nat.gcd m A := by
        rw [← hco.gcd, hzero, Nat.gcd_zero_right]
      refine ⟨i, r, t, ?_, ⟨x, hx, hgcd⟩, U, hU, hgcd ▸ hco.first, fun hpos => by omega⟩
      rw [inverseLoop, hy, if_pos hzero]
    · have hne0 : y ≠ 0#w := fun heq => hzero (by rw [heq, BitVec.toNat_zero])
      obtain ⟨r', quot, hdivrem, hrem, hdivisor, hquot, hright⟩ :=
        udivrem_inPlace (q := 2) (by omega) hne (by omega) hx hy hne0 hlt
      have hloop : inverseLoop (fuel + 1) i r t = inverseLoop fuel (i ^^^ 1) r'
          fun j => if j = i then t i - t (i ^^^ 1) * quot else t j := by
        rw [inverseLoop, hy, if_neg hzero, hdivrem, bind_eq_bind, bind_some, hquot,
          Object.ofWidth_val, bind_eq_bind, bind_some]
      rw [hloop]
      by_cases hone : y.toNat = 1
      · have hend : (r' (i ^^^ 1 ^^^ 1)).val.toNat = 0 := by
          rw [hback, hrem]
          rw [BitVec.toNat_umod, hone, Nat.mod_one]
        have hgcd : y.toNat = Nat.gcd m A := by
          rw [← hco.gcd, hone, Nat.gcd_one_right]
        obtain ⟨fuel, rfl⟩ : ∃ f, fuel = f + 1 := ⟨fuel - 1, by omega⟩
        refine ⟨i ^^^ 1, r', fun j => if j = i then t i - t (i ^^^ 1) * quot else t j, ?_,
          ⟨y, hdivisor, hgcd⟩, V, ?_, hgcd ▸ hco.second, fun _ _ => ?_⟩
        · rw [inverseLoop, if_pos hend]
        · rw [if_neg hne, hV]
        · exact hco.alternate.two_mul_le (by omega)
      · have hmod : (x % y).toNat = x.toNat % y.toNat := BitVec.toNat_umod
        obtain ⟨i', r'', t', hresult, hinverted⟩ := ih (x := y) (y := x % y) (U := V)
          (V := U - (x.toNat / y.toNat : Nat) * V) (t := fun j =>
            if j = i then t i - t (i ^^^ 1) * quot else t j) hother hdivisor (by rwa [hback])
          (by rw [if_neg hne, hV])
          (by rw [hback, if_pos rfl, hright hone, hU, hV, ofInt_next_coefficient])
          (by rw [hmod]; exact Nat.mod_lt _ (by omega)) (by rw [hmod]; exact hco.step)
          (by have := Nat.mod_lt x.toNat (show y.toNat > 0 by omega); omega)
        refine ⟨i', r'', t', hresult, hinverted.remainder, ?_⟩
        obtain ⟨U', hU', hdvd, hbound⟩ := hinverted.coefficient
        refine ⟨U', hU', hdvd, fun _ hgcd => hbound ?_ hgcd⟩
        rw [hmod]
        refine Nat.pos_of_ne_zero fun hlast => hone ?_
        rw [← hgcd, ← hco.step.gcd, hlast, Nat.gcd_zero_right]

theorem toNat_inverse {m : BitVec w} {U : Int}
    (hbound : -(m.toNat : Int) ≤ 2 * U ∧ 2 * U ≤ m.toNat) :
    ((if (BitVec.ofInt w U).msb then BitVec.ofInt w U + m else BitVec.ofInt w U).toNat : Int) =
      if U < 0 then U + m.toNat else U := by
  have hlt : (m.toNat : Int) < 2 ^ w := by exact_mod_cast m.isLt
  have hfits : Fits w U := ⟨by omega, by omega⟩
  have hmsb : (BitVec.ofInt w U).msb = decide (U < 0) := by
    rw [BitVec.msb_eq_toInt, toInt_ofInt hfits]
  rw [hmsb]
  by_cases hneg : U < 0
  · have hsum : BitVec.ofInt w U + m = BitVec.ofInt w (U + m.toNat) := by
      rw [BitVec.ofInt_add, BitVec.ofInt_natCast, BitVec.ofNat_toNat, BitVec.setWidth_eq]
    rw [if_pos (decide_eq_true hneg), if_pos hneg, hsum, BitVec.toNat_ofInt,
      Int.emod_eq_of_lt (by omega) (by push_cast; omega), Int.toNat_of_nonneg (by omega)]
  · rw [if_neg (by simpa using hneg), if_neg hneg, BitVec.toNat_ofInt,
      Int.emod_eq_of_lt (by omega) (by push_cast; omega), Int.toNat_of_nonneg (by omega)]

/-- The inverse modulo `modulo` is returned, and zero if there is none. -/
theorem multiplicativeInverse_spec (hw : 0 < w) (x modulo : BitVec w) (hlt : x < modulo) :
    ∃ inverse, multiplicativeInverse hw x modulo = some inverse ∧
      (1 < modulo.toNat → Nat.Coprime x.toNat modulo.toNat →
        inverse < modulo ∧ x.toNat * inverse.toNat ≡ 1 [MOD modulo.toNat]) ∧
      (¬Nat.Coprime x.toNat modulo.toNat → inverse = 0#w) := by
  obtain ⟨i, r, t, hloop, ⟨⟨g, hr, hg⟩, U, hU, hdvd, hbound⟩⟩ := @inverseLoop_spec w
    modulo.toNat x.toNat hw (x.toNat + 1) 0
    (fun j => ⟨w, if j = 0 then modulo else if j = 1 then x else 0#w, hw⟩)
    (fun j => if j = 1 then 1#w else 0#w) modulo x 0 1 (by decide) rfl rfl (by simp)
    (by simp) (BitVec.lt_def.mp hlt) (Cofactors.start _ _)
    (Nat.lt_succ_self _)
  have hresult : multiplicativeInverse hw x modulo = some
      (if g.toNat ≠ 1 then 0#w else if (t i).msb then t i + modulo else t i) := by
    have hle : ¬modulo ≤ x := BitVec.not_le.mpr hlt
    rw [multiplicativeInverse, if_neg hle, hloop, bind_eq_bind, bind_some]
    dsimp only
    rw [hr]
    split_ifs <;> rfl
  refine ⟨_, hresult, fun hm hcoprime => ?_, fun hnot => ?_⟩
  · have hgcd : Nat.gcd modulo.toNat x.toNat = 1 := hcoprime.symm
    rw [hgcd] at hg hdvd
    have hpos : 0 < x.toNat := by
      refine Nat.pos_of_ne_zero fun hzero => ?_
      rw [hzero, Nat.gcd_zero_right] at hgcd
      omega
    have hU' := hbound hpos hgcd
    have hnat := toNat_inverse hU'
    rw [if_neg (not_not.mpr hg), hU]
    refine ⟨BitVec.lt_def.mpr ?_, Nat.modEq_iff_dvd.mpr ?_⟩
    · zify
      rw [hnat]
      split_ifs <;> omega
    · push_cast
      rw [hnat, ← dvd_neg, neg_sub]
      split_ifs
      · rw [mul_add, add_sub_right_comm]
        exact dvd_add hdvd (Dvd.intro_left _ rfl)
      · exact hdvd
  · rw [if_pos]
    rw [hg, Nat.gcd_comm]
    exact hnot

theorem multiplicativeInverse_spec_seven :
    ∃ inverse, multiplicativeInverse (by decide) 3#8 7#8 = some inverse ∧
      (1 < (7#8).toNat → Nat.Coprime (3#8).toNat (7#8).toNat →
        inverse < 7#8 ∧ (3#8).toNat * inverse.toNat ≡ 1 [MOD (7#8).toNat]) ∧
      (¬Nat.Coprime (3#8).toNat (7#8).toNat → inverse = 0#8) :=
  multiplicativeInverse_spec (by decide) 3#8 7#8 (by decide)

end Zapcc.APInt
