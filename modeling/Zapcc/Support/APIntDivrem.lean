import Zapcc.Support.APIntDivision

/-!
# Division with remainder into objects

`udivrem` and `sdivrem` write the quotient and the remainder into two objects, which may be the
operands. The main result is `division_correct_iff`: the case of a divisor with one active bit does
not return, and goes on with operands that it may have overwritten.
-/

namespace Zapcc.APInt

open DivideWords Nat

/-- An `APInt` object. -/
structure Object where
  bitWidth : Nat
  val : BitVec bitWidth
  pos : 0 < bitWidth

/-- The assignment of a word, which keeps the width. -/
def Object.assignWord (o : Object) (RHS : WordType) : Object :=
  ⟨o.bitWidth, ofWord o.bitWidth RHS, o.pos⟩

/-- `reallocate`: the words stay when their number does, else the new ones hold anything. -/
def Object.reallocate (o LHS : Object) : Object :=
  ⟨LHS.bitWidth, if getNumWords o.bitWidth = getNumWords LHS.bitWidth then
    o.val.setWidth LHS.bitWidth else 0#(LHS.bitWidth), LHS.pos⟩

/-- The lowest words of an object, and zeros above them. -/
def Object.setWords (o : Object) (ws : List WordType) : Object :=
  ⟨o.bitWidth, BitVec.ofNat o.bitWidth (Digits.value ws), o.pos⟩

def Object.negate (o : Object) : Object := ⟨o.bitWidth, -o.val, o.pos⟩

abbrev Heap := Nat → Object

def Heap.set (h : Heap) (i : Nat) (o : Object) : Heap := fun j => if j = i then o else h j

/-- An operand: an object that may also be an output, or a temporary one. -/
inductive Operand where
  | object (i : Nat)
  | temporary (o : Object)

def Heap.read (h : Heap) : Operand → Object
  | .object i => h i
  | .temporary o => o

/-- The part of `udivrem` from the comparison of the operands on. -/
def compareAndDivide (LHS RHS : Operand) (Quotient Remainder lhsWords rhsWords : Nat) (h : Heap) :
    Option Heap :=
  if lhsWords < rhsWords ∨ (h.read LHS).val.toNat < (h.read RHS).val.toNat then
    let h := h.set Remainder (h.read LHS)
    some (h.set Quotient ((h Quotient).assignWord 0#64))
  else if (h.read LHS).val.toNat = (h.read RHS).val.toNat then
    let h := h.set Quotient ((h Quotient).assignWord 1#64)
    some (h.set Remainder ((h Remainder).assignWord 0#64))
  else
    let h := h.set Quotient ((h Quotient).reallocate (h.read LHS))
    let h := h.set Remainder ((h Remainder).reallocate (h.read LHS))
    if lhsWords = 1 then
      let lhsValue := lowWord (h.read LHS).val
      let rhsValue := lowWord (h.read RHS).val
      do
        let quot ← nativeDiv lhsValue rhsValue
        let h := h.set Quotient ((h Quotient).assignWord quot)
        let rem ← nativeRem lhsValue rhsValue
        some (h.set Remainder ((h Remainder).assignWord rem))
    else do
      let (quot, rem) ← divide ((words (h.read LHS).val).take lhsWords)
        ((words (h.read RHS).val).take rhsWords)
      let h := h.set Quotient ((h Quotient).setWords quot)
      some (h.set Remainder ((h Remainder).setWords rem))

def udivrem (LHS RHS : Operand) (Quotient Remainder : Nat) (h : Heap) : Option Heap :=
  let L := h.read LHS
  let R := h.read RHS
  if L.bitWidth ≠ R.bitWidth then none
  else if L.bitWidth ≤ 64 then do
    let QuotVal ← nativeDiv (lowWord L.val) (lowWord R.val)
    let RemVal ← nativeRem (lowWord L.val) (lowWord R.val)
    let h := h.set Quotient ⟨L.bitWidth, ofWord L.bitWidth QuotVal, L.pos⟩
    some (h.set Remainder ⟨L.bitWidth, ofWord L.bitWidth RemVal, L.pos⟩)
  else
    let lhsWords := getNumWords (getActiveBits L.val)
    let rhsBits := getActiveBits R.val
    let rhsWords := getNumWords rhsBits
    if rhsWords = 0 then none
    else if lhsWords = 0 then
      let h := h.set Quotient ((h Quotient).assignWord 0#64)
      some (h.set Remainder ((h Remainder).assignWord 0#64))
    else if rhsBits = 1 then
      -- there is no return after these assignments
      let h := h.set Quotient L
      let h := h.set Remainder ((h Remainder).assignWord 0#64)
      compareAndDivide LHS RHS Quotient Remainder lhsWords rhsWords h
    else compareAndDivide LHS RHS Quotient Remainder lhsWords rhsWords h

def sdivrem (LHS RHS : Nat) (Quotient Remainder : Nat) (h : Heap) : Option Heap :=
  if (h LHS).val.msb then do
    let h ←
      if (h RHS).val.msb then
        udivrem (.temporary (h LHS).negate) (.temporary (h RHS).negate) Quotient Remainder h
      else do
        let h ← udivrem (.temporary (h LHS).negate) (.object RHS) Quotient Remainder h
        some (h.set Quotient (h Quotient).negate)
    some (h.set Remainder (h Remainder).negate)
  else if (h RHS).val.msb then do
    let h ← udivrem (.object LHS) (.temporary (h RHS).negate) Quotient Remainder h
    some (h.set Quotient (h Quotient).negate)
  else udivrem (.object LHS) (.object RHS) Quotient Remainder h

/-- The divisor is one, and an operand that is read again is an output that was written before. -/
def Overwritten {w : Nat} (LHS RHS : Operand) (Quotient Remainder : Nat) (x y : BitVec w) : Prop :=
  64 < w ∧ y = 1#w ∧ x ≠ 0#w ∧ LHS ≠ RHS ∧
    (LHS = .object Remainder ∨ RHS = .object Remainder ∨ RHS = .object Quotient ∧ x ≠ 1#w)

/-- The operands are equal and not one: then the quotient is assigned a word, in the width that it
has. -/
def KeepsWidth {w : Nat} (x y : BitVec w) : Prop := 64 < w ∧ x = y ∧ y ≠ 1#w

@[simp] theorem Heap.set_same (h : Heap) (i : Nat) (o : Object) : h.set i o i = o := if_pos rfl

theorem Heap.set_other (h : Heap) {i j : Nat} (o : Object) (hne : j ≠ i) : h.set i o j = h j :=
  if_neg hne

theorem toNat_assignWord_zero (o : Object) : (o.assignWord 0#64).val.toNat = 0 := by
  show (ofWord o.bitWidth 0#64).toNat = 0
  rw [ofWord, BitVec.toNat_ofNat, BitVec.toNat_zero, zero_mod]

theorem toNat_assignWord_one (o : Object) : (o.assignWord 1#64).val.toNat = 1 := by
  have hpow : 2 ≤ 2 ^ o.bitWidth := Nat.le_self_pow (Nat.pos_iff_ne_zero.mp o.pos) 2
  show (ofWord o.bitWidth 1#64).toNat = 1
  rw [ofWord, BitVec.toNat_ofNat, BitVec.toNat_one (by decide), mod_eq_of_lt (by omega)]

section

variable {LHS RHS : Operand} {Quotient Remainder lhsWords rhsWords : Nat} {h : Heap}

theorem compareAndDivide_lt (hne : Quotient ≠ Remainder)
    (hlt : (h.read LHS).val.toNat < (h.read RHS).val.toNat) :
    ∃ h', compareAndDivide LHS RHS Quotient Remainder lhsWords rhsWords h = some h' ∧
      h' Quotient = (h Quotient).assignWord 0#64 ∧ h' Remainder = h.read LHS := by
  refine ⟨_, if_pos (.inr hlt), ?_, ?_⟩
  · rw [Heap.set_same, Heap.set_other _ _ hne]
  · rw [Heap.set_other _ _ hne.symm, Heap.set_same]

theorem compareAndDivide_eq (hne : Quotient ≠ Remainder) (hwords : rhsWords ≤ lhsWords)
    (heq : (h.read LHS).val.toNat = (h.read RHS).val.toNat) :
    ∃ h', compareAndDivide LHS RHS Quotient Remainder lhsWords rhsWords h = some h' ∧
      h' Quotient = (h Quotient).assignWord 1#64 ∧
      h' Remainder = (h Remainder).assignWord 0#64 := by
  unfold compareAndDivide
  rw [if_neg (by omega), if_pos heq]
  refine ⟨_, rfl, ?_, ?_⟩
  · rw [Heap.set_other _ _ hne, Heap.set_same]
  · rw [Heap.set_same, Heap.set_other _ _ hne.symm]

variable {o : Object} {h' : Heap}

theorem Object.reallocate_self {LHS : Object} (hwidth : o.bitWidth = LHS.bitWidth) :
    o.reallocate LHS = o := by
  obtain ⟨bitWidth, val, pos⟩ := o
  subst hwidth
  simp [reallocate]

theorem Heap.read_reallocate (h : Heap) (X : Operand) (i : Nat) (LHS : Object)
    (hwidth : (h.read X).bitWidth = LHS.bitWidth) :
    (h.set i ((h i).reallocate LHS)).read X = h.read X := by
  cases X with
  | temporary o => rfl
  | object j =>
    show h.set i ((h i).reallocate LHS) j = h j
    by_cases heq : j = i
    · subst heq
      rw [set_same]
      exact Object.reallocate_self hwidth
    · exact set_other _ _ heq

theorem Object.assignWord_eq {w : Nat} {hw : 0 < w} (hwidth : o.bitWidth = w)
    (RHS : WordType) : o.assignWord RHS = ⟨w, ofWord w RHS, hw⟩ := by
  subst hwidth
  rfl

theorem Object.setWords_eq {w : Nat} {hw : 0 < w} (hwidth : o.bitWidth = w)
    (ws : List WordType) : o.setWords ws = ⟨w, BitVec.ofNat w (Digits.value ws), hw⟩ := by
  subst hwidth
  rfl

theorem exists_reallocated {w : Nat} {x y : BitVec w} {hw : 0 < w} (hne : Quotient ≠ Remainder)
    (hL : h.read LHS = ⟨w, x, hw⟩) (hR : h.read RHS = ⟨w, y, hw⟩) :
    ∃ h₂ : Heap, (let h₁ := h.set Quotient ((h Quotient).reallocate (h.read LHS))
        h₁.set Remainder ((h₁ Remainder).reallocate (h₁.read LHS))) = h₂ ∧
      h₂.read LHS = ⟨w, x, hw⟩ ∧ h₂.read RHS = ⟨w, y, hw⟩ ∧ (h₂ Quotient).bitWidth = w ∧
      (h₂ Remainder).bitWidth = w := by
  have hfirstL := h.read_reallocate LHS Quotient (h.read LHS) rfl
  have hfirstR := h.read_reallocate RHS Quotient (h.read LHS) (by rw [hL, hR])
  refine ⟨_, rfl, ?_, ?_, ?_, ?_⟩
  · rw [Heap.read_reallocate _ _ _ _ rfl, hfirstL, hL]
  · rw [Heap.read_reallocate _ _ _ _ (by rw [hfirstL, hfirstR, hL, hR]), hfirstR, hR]
  · rw [Heap.set_other _ _ hne, Heap.set_same]
    show (h.read LHS).bitWidth = w
    rw [hL]
  · rw [Heap.set_same]
    show ((h.set Quotient ((h Quotient).reallocate (h.read LHS))).read LHS).bitWidth = w
    rw [hfirstL, hL]

theorem compareAndDivide_gt {w : Nat} {x y : BitVec w} {hw : 0 < w} (hne : Quotient ≠ Remainder)
    (hL : h.read LHS = ⟨w, x, hw⟩) (hR : h.read RHS = ⟨w, y, hw⟩) (hwords : rhsWords ≤ lhsWords)
    (hx : x.toNat < (2 ^ 64) ^ lhsWords) (hy : y.toNat < (2 ^ 64) ^ rhsWords)
    (hpos : 0 < y.toNat) (hgt : y.toNat < x.toNat) :
    ∃ h', compareAndDivide LHS RHS Quotient Remainder lhsWords rhsWords h = some h' ∧
      h' Quotient = ⟨w, x / y, hw⟩ ∧ h' Remainder = ⟨w, x % y, hw⟩ := by
  obtain ⟨h₂, hh₂, hL₂, hR₂, hquotient, hremainder⟩ := exists_reallocated hne hL hR
  unfold compareAndDivide
  dsimp only at hh₂ ⊢
  rw [hh₂, hL₂, hR₂, hL, hR]
  dsimp only
  rw [if_neg (by omega), if_neg (by omega)]
  by_cases hlow : lhsWords = 1
  · rw [hlow, pow_one] at hx
    obtain ⟨quot, rem, hquot, hrem, hqvalue, hrvalue⟩ := native_spec hx (by omega) hpos
    rw [if_pos hlow, hquot, hrem]
    refine ⟨_, rfl, ?_, ?_⟩
    · rw [Heap.set_other _ _ hne, Heap.set_same, Object.assignWord_eq hquotient, ofWord, hqvalue,
        ofNat_div]
    · rw [Heap.set_same, Heap.set_other _ _ hne.symm, Object.assignWord_eq hremainder, ofWord,
        hrvalue, ofNat_mod]
  · obtain ⟨Q, R, hresult, hqvalue, hrvalue⟩ := divide_words hx hy hpos (by omega)
    rw [if_neg hlow, hresult]
    refine ⟨_, rfl, ?_, ?_⟩
    · rw [Heap.set_other _ _ hne, Heap.set_same, Object.setWords_eq hquotient, hqvalue, ofNat_div]
    · rw [Heap.set_same, Heap.set_other _ _ hne.symm, Object.setWords_eq hremainder, hrvalue,
        ofNat_mod]

theorem compareAndDivide_zero {w : Nat} {x y : BitVec w} {hw : 0 < w} (hne : Quotient ≠ Remainder)
    (hL : h.read LHS = ⟨w, x, hw⟩) (hR : h.read RHS = ⟨w, y, hw⟩) (hwords : rhsWords ≤ lhsWords)
    (hpos : 0 < x.toNat) (hzero : y = 0#w) :
    compareAndDivide LHS RHS Quotient Remainder lhsWords rhsWords h = none := by
  obtain ⟨h₂, hh₂, hL₂, hR₂, -, -⟩ := exists_reallocated hne hL hR
  subst hzero
  unfold compareAndDivide
  dsimp only at hh₂ ⊢
  rw [hh₂, hL₂, hR₂, hL, hR]
  dsimp only
  rw [BitVec.toNat_zero, if_neg (by omega), if_neg (by omega)]
  by_cases hlow : lhsWords = 1
  · rw [if_pos hlow]
    have hnone : nativeDiv (lowWord x) (lowWord 0#w) = none := by
      rw [nativeDiv, if_pos]
      rw [lowWord, BitVec.setWidth_zero]
    rw [hnone]
    rfl
  · have hvalue : Digits.value ((words 0#w).take rhsWords) = 0 := by
      rw [value_words (by rw [BitVec.toNat_zero]; positivity), BitVec.toNat_zero]
    rw [if_neg hlow, divide_zero _ hvalue]
    rfl

theorem toNat_one_of_wide {w : Nat} (hwide : 64 < w) : (1#w).toNat = 1 :=
  BitVec.toNat_one (by omega)

/-- The objects after the case of a divisor with one active bit. -/
def afterOneBit (LHS : Operand) (Quotient Remainder : Nat) (h : Heap) : Heap :=
  let h' := h.set Quotient (h.read LHS)
  h'.set Remainder ((h' Remainder).assignWord 0#64)

theorem afterOneBit_quotient (hne : Quotient ≠ Remainder) :
    afterOneBit LHS Quotient Remainder h Quotient = h.read LHS := by
  rw [afterOneBit, Heap.set_other _ _ hne, Heap.set_same]

theorem afterOneBit_remainder (hne : Quotient ≠ Remainder) :
    afterOneBit LHS Quotient Remainder h Remainder = (h Remainder).assignWord 0#64 := by
  rw [afterOneBit, Heap.set_same, Heap.set_other _ _ hne.symm]

theorem afterOneBit_other {X : Operand} (hquotient : X ≠ .object Quotient)
    (hremainder : X ≠ .object Remainder) :
    (afterOneBit LHS Quotient Remainder h).read X = h.read X := by
  cases X with
  | temporary o => rfl
  | object j =>
    have hq : j ≠ Quotient := fun heq => hquotient (congrArg Operand.object heq)
    have hr : j ≠ Remainder := fun heq => hremainder (congrArg Operand.object heq)
    show afterOneBit LHS Quotient Remainder h j = h j
    rw [afterOneBit, Heap.set_other _ _ hr, Heap.set_other _ _ hq]

theorem afterOneBit_dividend (hne : Quotient ≠ Remainder) (hLHS : LHS ≠ .object Remainder) :
    (afterOneBit LHS Quotient Remainder h).read LHS = h.read LHS := by
  by_cases hquotient : LHS = .object Quotient
  · subst hquotient
    exact afterOneBit_quotient hne
  · exact afterOneBit_other hquotient hLHS

variable {w : Nat} {x y : BitVec w} {hw : 0 < w}

theorem udivrem_single (hne : Quotient ≠ Remainder) (hL : h.read LHS = ⟨w, x, hw⟩)
    (hR : h.read RHS = ⟨w, y, hw⟩) (hy : y ≠ 0#w) (hsingle : w ≤ 64) :
    ∃ h', udivrem LHS RHS Quotient Remainder h = some h' ∧ h' Quotient = ⟨w, x / y, hw⟩ ∧
      h' Remainder = ⟨w, x % y, hw⟩ := by
  obtain ⟨quot, rem, hquot, hrem, hqvalue, hrvalue⟩ :=
    native_spec (isLt_of_le (x := x) hsingle) (isLt_of_le hsingle) (toNat_pos hy)
  unfold udivrem
  rw [hL, hR]
  rw [if_neg (not_not.mpr rfl), if_pos hsingle, hquot, hrem]
  refine ⟨_, rfl, ?_, ?_⟩
  · rw [Heap.set_other _ _ hne, Heap.set_same, ofWord, hqvalue, ofNat_div]
  · rw [Heap.set_same, ofWord, hrvalue, ofNat_mod]

theorem udivrem_zero (hne : Quotient ≠ Remainder) (hL : h.read LHS = ⟨w, 0#w, hw⟩)
    (hR : h.read RHS = ⟨w, y, hw⟩) (hy : y ≠ 0#w) (hwide : 64 < w) :
    ∃ h', udivrem LHS RHS Quotient Remainder h = some h' ∧
      h' Quotient = (h Quotient).assignWord 0#64 ∧
      h' Remainder = (h Remainder).assignWord 0#64 := by
  unfold udivrem
  rw [hL, hR]
  dsimp only
  rw [if_neg (not_not.mpr rfl), if_neg (by omega), if_neg (mt getNumWords_eq_zero.mp hy),
    if_pos (getNumWords_eq_zero.mpr rfl)]
  refine ⟨_, rfl, ?_, ?_⟩
  · rw [Heap.set_other _ _ hne, Heap.set_same]
  · rw [Heap.set_same, Heap.set_other _ _ hne.symm]

theorem udivrem_oneBit (hL : h.read LHS = ⟨w, x, hw⟩) (hR : h.read RHS = ⟨w, 1#w, hw⟩)
    (hx : x ≠ 0#w) (hwide : 64 < w) :
    udivrem LHS RHS Quotient Remainder h =
      compareAndDivide LHS RHS Quotient Remainder (getNumWords (getActiveBits x)) 1
        (afterOneBit LHS Quotient Remainder h) := by
  have hone : getActiveBits 1#w = 1 :=
    getActiveBits_eq_one.mpr (toNat_one_of_wide hwide)
  unfold udivrem afterOneBit
  rw [hL, hR]
  dsimp only
  rw [if_neg (not_not.mpr rfl), if_neg (by omega), hone, if_neg (by decide),
    if_neg (mt getNumWords_eq_zero.mp hx), if_pos rfl]
  rfl

theorem udivrem_moreBits (hL : h.read LHS = ⟨w, x, hw⟩) (hR : h.read RHS = ⟨w, y, hw⟩)
    (hx : x ≠ 0#w) (hy : y ≠ 0#w) (hone : y ≠ 1#w) (hwide : 64 < w) :
    udivrem LHS RHS Quotient Remainder h =
      compareAndDivide LHS RHS Quotient Remainder (getNumWords (getActiveBits x))
        (getNumWords (getActiveBits y)) h := by
  have hbits : getActiveBits y ≠ 1 := by
    intro heq
    refine hone (BitVec.eq_of_toNat_eq ?_)
    rw [getActiveBits_eq_one.mp heq, toNat_one_of_wide hwide]
  unfold udivrem
  rw [hL, hR]
  dsimp only
  rw [if_neg (not_not.mpr rfl), if_neg (by omega), if_neg (mt getNumWords_eq_zero.mp hy),
    if_neg (mt getNumWords_eq_zero.mp hx), if_neg hbits]

/-- What `udivrem` leaves in its outputs. -/
structure Divided (x y : BitVec w) (Quotient Remainder : Nat) (h h' : Heap) : Prop where
  quotient : (h' Quotient).val.toNat = x.toNat / y.toNat
  remainder : (h' Remainder).val.toNat = x.toNat % y.toNat
  remainderWidth : (h' Remainder).bitWidth = w ∨ (h' Remainder).val.toNat = 0
  quotientWidth : (h' Quotient).bitWidth = w ∨ (h' Quotient).val.toNat = 0 ∨
    KeepsWidth x y ∧ (h' Quotient).bitWidth = (h Quotient).bitWidth
  keptWidth : KeepsWidth x y → (h' Quotient).bitWidth = (h Quotient).bitWidth

theorem divided_of_width (hkeep : ¬KeepsWidth x y)
    (hq : h' Quotient = ⟨w, x / y, hw⟩) (hr : h' Remainder = ⟨w, x % y, hw⟩) :
    Divided x y Quotient Remainder h h' where
  quotient := by rw [hq, BitVec.toNat_udiv]
  remainder := by rw [hr, BitVec.toNat_umod]
  remainderWidth := .inl (by rw [hr])
  quotientWidth := .inl (by rw [hq])
  keptWidth hkeeps := absurd hkeeps hkeep

theorem divided_one (hwide : 64 < w)
    (hq : h' Quotient = (⟨w, 1#w, hw⟩ : Object).assignWord 1#64)
    (hr : h' Remainder = (h Remainder).assignWord 0#64) :
    Divided 1#w 1#w Quotient Remainder h h' where
  quotient := by rw [hq, toNat_assignWord_one, toNat_one_of_wide hwide]
  remainder := by rw [hr, toNat_assignWord_zero, toNat_one_of_wide hwide]
  remainderWidth := .inr (by rw [hr, toNat_assignWord_zero])
  quotientWidth := .inl (by rw [hq]; rfl)
  keptWidth hkeeps := absurd rfl hkeeps.2.2

theorem one_of_not_zero_of_not_gt (hx : x ≠ 0#w) (hwide : 64 < w) (hgt : ¬1 < x.toNat) :
    x = 1#w := by
  have hpos := toNat_pos hx
  refine BitVec.eq_of_toNat_eq ?_
  rw [toNat_one_of_wide hwide]
  omega

/-- The case of a divisor with one active bit is right when nothing is read that was overwritten. -/
theorem oneBit_divided (hne : Quotient ≠ Remainder) (hL : h.read LHS = ⟨w, x, hw⟩)
    (hR : h.read RHS = ⟨w, 1#w, hw⟩) (hx : x ≠ 0#w) (hwide : 64 < w)
    (hsafe : ¬Overwritten LHS RHS Quotient Remainder x 1#w) :
    ∃ h', udivrem LHS RHS Quotient Remainder h = some h' ∧
      Divided x 1#w Quotient Remainder h h' := by
  have hwords : 1 ≤ getNumWords (getActiveBits x) :=
    Nat.pos_of_ne_zero (mt getNumWords_eq_zero.mp hx)
  have hquotient := @afterOneBit_quotient LHS Quotient Remainder h hne
  have hremainder := @afterOneBit_remainder LHS Quotient Remainder h hne
  rw [udivrem_oneBit hL hR hx hwide]
  by_cases hgt : 1 < x.toNat
  · have hx1 : x ≠ 1#w := by
      intro heq
      rw [heq, toNat_one_of_wide hwide] at hgt
      omega
    have hoperands : LHS ≠ RHS := by
      intro heq
      rw [heq, hR] at hL
      injection hL with _ hval
      exact hx1 hval.symm
    have hleft : LHS ≠ .object Remainder := fun heq => hsafe ⟨hwide, rfl, hx, hoperands, .inl heq⟩
    have hright : RHS ≠ .object Remainder :=
      fun heq => hsafe ⟨hwide, rfl, hx, hoperands, .inr (.inl heq)⟩
    have hright' : RHS ≠ .object Quotient :=
      fun heq => hsafe ⟨hwide, rfl, hx, hoperands, .inr (.inr ⟨heq, hx1⟩)⟩
    obtain ⟨h', hresult, hq, hr⟩ := compareAndDivide_gt hne
      ((afterOneBit_dividend hne hleft).trans hL) ((afterOneBit_other hright' hright).trans hR)
      hwords (lt_of_getNumWords (Nat.le_refl _)) (by rw [toNat_one_of_wide hwide]; decide)
      (by rw [toNat_one_of_wide hwide]; decide) (by rw [toNat_one_of_wide hwide]; exact hgt)
    exact ⟨h', hresult, divided_of_width (fun hkeeps => hx1 hkeeps.2.1) hq hr⟩
  · have hx1 := one_of_not_zero_of_not_gt hx hwide hgt
    subst hx1
    have hreads : ((afterOneBit LHS Quotient Remainder h).read LHS).val.toNat =
        ((afterOneBit LHS Quotient Remainder h).read RHS).val.toNat := by
      by_cases hoperands : LHS = RHS
      · rw [hoperands]
      · have hleft : LHS ≠ .object Remainder :=
          fun heq => hsafe ⟨hwide, rfl, hx, hoperands, .inl heq⟩
        have hright : RHS ≠ .object Remainder :=
          fun heq => hsafe ⟨hwide, rfl, hx, hoperands, .inr (.inl heq)⟩
        rw [afterOneBit_dividend hne hleft, hL]
        by_cases hq : RHS = .object Quotient
        · rw [hq]
          show _ = (afterOneBit LHS Quotient Remainder h Quotient).val.toNat
          rw [hquotient, hL]
        · rw [afterOneBit_other hq hright, hR]
    obtain ⟨h', hresult, hq, hr⟩ := compareAndDivide_eq hne hwords hreads
    rw [hquotient, hL] at hq
    rw [hremainder] at hr
    exact ⟨h', hresult, divided_one hwide hq hr⟩

theorem udivrem_divided (hne : Quotient ≠ Remainder) (hL : h.read LHS = ⟨w, x, hw⟩)
    (hR : h.read RHS = ⟨w, y, hw⟩) (hy : y ≠ 0#w)
    (hsafe : ¬Overwritten LHS RHS Quotient Remainder x y) :
    ∃ h', udivrem LHS RHS Quotient Remainder h = some h' ∧ Divided x y Quotient Remainder h h' := by
  rcases Nat.lt_or_ge 64 w with hwide | hsingle
  swap
  · obtain ⟨h', hresult, hq, hr⟩ := udivrem_single hne hL hR hy hsingle
    exact ⟨h', hresult, divided_of_width (fun hkeeps => absurd hkeeps.1 (by omega)) hq hr⟩
  by_cases hx : x = 0#w
  · subst hx
    obtain ⟨h', hresult, hq, hr⟩ := udivrem_zero hne hL hR hy hwide
    have hquotient : (h' Quotient).val.toNat = 0 := by rw [hq, toNat_assignWord_zero]
    have hremainder : (h' Remainder).val.toNat = 0 := by rw [hr, toNat_assignWord_zero]
    refine ⟨h', hresult, ?_, ?_, .inr hremainder, .inr (.inl hquotient), ?_⟩
    · rw [hquotient, BitVec.toNat_zero, Nat.zero_div]
    · rw [hremainder, BitVec.toNat_zero, zero_mod]
    · exact fun hkeeps => absurd hkeeps.2.1.symm hy
  by_cases hone : y = 1#w
  · subst hone
    exact oneBit_divided hne hL hR hx hwide hsafe
  rw [udivrem_moreBits hL hR hx hy hone hwide]
  rcases Nat.lt_trichotomy x.toNat y.toNat with hlt | heq | hgt
  · obtain ⟨h', hresult, hq, hr⟩ := @compareAndDivide_lt LHS RHS Quotient Remainder
      (getNumWords (getActiveBits x)) (getNumWords (getActiveBits y)) h hne
      (by rw [hL, hR]; exact hlt)
    rw [hL] at hr
    have hquotient : (h' Quotient).val.toNat = 0 := by rw [hq, toNat_assignWord_zero]
    refine ⟨h', hresult, ?_, ?_, .inl (by rw [hr]), .inr (.inl hquotient), ?_⟩
    · rw [hquotient, div_eq_of_lt hlt]
    · rw [hr, mod_eq_of_lt hlt]
    · rintro ⟨-, rfl, -⟩
      exact absurd hlt (Nat.lt_irrefl _)
  · have hxy := BitVec.eq_of_toNat_eq heq
    subst hxy
    obtain ⟨h', hresult, hq, hr⟩ := compareAndDivide_eq hne (Nat.le_refl _)
      (show (h.read LHS).val.toNat = (h.read RHS).val.toNat by rw [hL, hR])
    have hremainder : (h' Remainder).val.toNat = 0 := by rw [hr, toNat_assignWord_zero]
    have hwidth : (h' Quotient).bitWidth = (h Quotient).bitWidth := by
      rw [hq]
      rfl
    refine ⟨h', hresult, ?_, ?_, .inr hremainder, .inr (.inr ⟨⟨hwide, rfl, hone⟩, hwidth⟩),
      fun _ => hwidth⟩
    · rw [hq, toNat_assignWord_one, Nat.div_self (toNat_pos hy)]
    · rw [hremainder, mod_self]
  · have hwords : getNumWords (getActiveBits y) ≤ getNumWords (getActiveBits x) := by
      by_contra hlt
      have hbelow := lt_of_getNumWords_lt (Nat.not_le.mp hlt)
      rw [BitVec.lt_def] at hbelow
      omega
    obtain ⟨h', hresult, hq, hr⟩ := compareAndDivide_gt hne hL hR hwords
      (lt_of_getNumWords (Nat.le_refl _)) (lt_of_getNumWords (Nat.le_refl _)) (toNat_pos hy) hgt
    refine ⟨h', hresult, divided_of_width ?_ hq hr⟩
    rintro ⟨-, rfl, -⟩
    exact absurd hgt (Nat.lt_irrefl _)

theorem udivrem_overwritten (hne : Quotient ≠ Remainder) (hL : h.read LHS = ⟨w, x, hw⟩)
    (hR : h.read RHS = ⟨w, y, hw⟩) (hbad : Overwritten LHS RHS Quotient Remainder x y)
    (hresult : udivrem LHS RHS Quotient Remainder h = some h') :
    (h' Quotient).bitWidth = w ∧ (h' Quotient).val.toNat ≠ x.toNat := by
  obtain ⟨hwide, rfl, hx, hoperands, hcases⟩ := hbad
  have hwords : 1 ≤ getNumWords (getActiveBits x) :=
    Nat.pos_of_ne_zero (mt getNumWords_eq_zero.mp hx)
  have hquotient := @afterOneBit_quotient LHS Quotient Remainder h hne
  have hremainder := @afterOneBit_remainder LHS Quotient Remainder h hne
  have hpos := toNat_pos hx
  rw [udivrem_oneBit hL hR hx hwide] at hresult
  rw [hL] at hquotient
  by_cases hleft : LHS = .object Remainder
  · have hzero : ((afterOneBit LHS Quotient Remainder h).read LHS).val.toNat = 0 := by
      rw [hleft, ← toNat_assignWord_zero (h Remainder), ← hremainder, hleft]
      rfl
    have hdivisor : 0 < ((afterOneBit LHS Quotient Remainder h).read RHS).val.toNat := by
      have hright : RHS ≠ .object Remainder := fun heq => hoperands (hleft.trans heq.symm)
      by_cases hq : RHS = .object Quotient
      · rw [hq]
        show 0 < (afterOneBit LHS Quotient Remainder h Quotient).val.toNat
        rw [hquotient]
        exact hpos
      · rw [afterOneBit_other hq hright, hR]
        rw [toNat_one_of_wide hwide]
        decide
    obtain ⟨h'', hresult', hq, -⟩ := @compareAndDivide_lt LHS RHS Quotient Remainder
      (getNumWords (getActiveBits x)) 1 _ hne (hzero.trans_lt hdivisor)
    rw [hresult', Option.some.injEq] at hresult
    rw [← hresult, hq, hquotient]
    refine ⟨rfl, ?_⟩
    rw [toNat_assignWord_zero]
    omega
  · have hdividend := (afterOneBit_dividend hne hleft (h := h)).trans hL
    rcases hcases with habsurd | hright | ⟨hright, hx1⟩
    · exact absurd habsurd hleft
    · have hdivisor : (afterOneBit LHS Quotient Remainder h).read RHS = ⟨w, 0#w, hw⟩ := by
        rw [hright] at hR ⊢
        show afterOneBit LHS Quotient Remainder h Remainder = _
        have hwidth : (h Remainder).bitWidth = w := congrArg Object.bitWidth hR
        rw [hremainder, @Object.assignWord_eq _ w hw hwidth]
        rfl
      rw [compareAndDivide_zero hne hdividend hdivisor hwords hpos rfl] at hresult
      exact absurd hresult (by simp)
    · have hdivisor : (afterOneBit LHS Quotient Remainder h).read RHS = ⟨w, x, hw⟩ := by
        rw [hright]
        exact hquotient
      obtain ⟨h'', hresult', hq, -⟩ := compareAndDivide_eq hne hwords
        (show ((afterOneBit LHS Quotient Remainder h).read LHS).val.toNat =
          ((afterOneBit LHS Quotient Remainder h).read RHS).val.toNat by rw [hdividend, hdivisor])
      rw [hresult', Option.some.injEq] at hresult
      rw [← hresult, hq, hquotient]
      refine ⟨rfl, ?_⟩
      exact fun heq => hx1 (BitVec.eq_of_toNat_eq heq).symm

theorem toNat_negate {v : BitVec w} (hvalue : o.val.toNat = v.toNat)
    (hwidth : o.bitWidth = w ∨ o.val.toNat = 0) : o.negate.val.toNat = (-v).toNat := by
  obtain ⟨bitWidth, val, pos⟩ := o
  show (-val).toNat = (-v).toNat
  rw [BitVec.toNat_neg, BitVec.toNat_neg, ← hvalue]
  rcases hwidth with heq | hzero
  · subst heq
    rfl
  · rw [hzero, Nat.sub_zero, Nat.sub_zero, mod_self, mod_self]

theorem toNat_negate_one (hone : o.val.toNat = 1) :
    o.negate.val.toNat = 2 ^ o.bitWidth - 1 := by
  show (-o.val).toNat = 2 ^ o.bitWidth - 1
  rw [BitVec.toNat_neg, hone, mod_eq_of_lt (by omega)]

theorem Divided.negate_quotient (hd : Divided x y Quotient Remainder h h')
    (hy : y ≠ 0#w) :
    (h' Quotient).negate.val.toNat = (-(x / y)).toNat ↔
      ¬(KeepsWidth x y ∧ (h Quotient).bitWidth ≠ w) := by
  have hquotient := hd.quotient
  constructor
  · rintro hnegate ⟨hkeeps, hwidth⟩
    have hkept := hd.keptWidth hkeeps
    obtain ⟨hwide, rfl, -⟩ := hkeeps
    have hone : (x / x).toNat = 1 := by rw [BitVec.toNat_udiv, Nat.div_self (toNat_pos hy)]
    rw [toNat_negate_one (hquotient.trans hone), BitVec.toNat_neg, hone,
      mod_eq_of_lt (by omega), hkept] at hnegate
    exact hwidth (Nat.pow_right_injective (Nat.le_refl 2) (by dsimp only; omega))
  · intro hwidth
    refine toNat_negate hquotient ?_
    rcases hd.quotientWidth with heq | hzero | ⟨hkeeps, hkept⟩
    · exact .inl heq
    · exact .inr hzero
    · by_contra hother
      exact hwidth ⟨hkeeps, fun heq => hother (.inl (hkept.trans heq))⟩

/-- `sdivrem` after `udivrem`: the outputs are negated according to the signs of the operands. -/
def negateOutputs (negL negR : Bool) (Quotient Remainder : Nat) (h : Heap) : Heap :=
  let h := if negL = negR then h else h.set Quotient (h Quotient).negate
  if negL then h.set Remainder (h Remainder).negate else h

/-- The operand without its sign, in a temporary object if it has one. -/
def magnitude (h : Heap) (i : Nat) : Operand :=
  if (h i).val.msb then .temporary (h i).negate else .object i

theorem sdivrem_eq (l r : Nat) :
    sdivrem l r Quotient Remainder h =
      (udivrem (magnitude h l) (magnitude h r) Quotient Remainder h).map
        (negateOutputs (h l).val.msb (h r).val.msb Quotient Remainder) := by
  unfold sdivrem magnitude negateOutputs
  cases (h l).val.msb <;> cases (h r).val.msb <;> simp only [Bool.false_eq_true, ↓reduceIte]
  · cases udivrem (.object l) (.object r) Quotient Remainder h <;> rfl
  · cases udivrem (.object l) (.temporary (h r).negate) Quotient Remainder h <;> rfl
  · cases udivrem (.temporary (h l).negate) (.object r) Quotient Remainder h <;> rfl
  · cases udivrem (.temporary (h l).negate) (.temporary (h r).negate) Quotient Remainder h <;> rfl

theorem negateOutputs_quotient (hne : Quotient ≠ Remainder) (negL negR : Bool) (h : Heap) :
    negateOutputs negL negR Quotient Remainder h Quotient =
      if negL = negR then h Quotient else (h Quotient).negate := by
  unfold negateOutputs
  cases negL <;> cases negR <;> simp [Heap.set_other, hne]

theorem negateOutputs_remainder (hne : Quotient ≠ Remainder) (negL negR : Bool) (h : Heap) :
    negateOutputs negL negR Quotient Remainder h Remainder =
      if negL then (h Remainder).negate else h Remainder := by
  unfold negateOutputs
  cases negL <;> cases negR <;> simp [Heap.set_other, hne.symm]

theorem negateOutputs_correct_iff (hne : Quotient ≠ Remainder) (hL : h.read LHS = ⟨w, x, hw⟩)
    (hR : h.read RHS = ⟨w, y, hw⟩) (hy : y ≠ 0#w) (negL negR : Bool) :
    (∃ h', (udivrem LHS RHS Quotient Remainder h).map
        (negateOutputs negL negR Quotient Remainder) = some h' ∧
      (h' Quotient).val.toNat = (if negL = negR then x / y else -(x / y)).toNat ∧
      (h' Remainder).val.toNat = (if negL then -(x % y) else x % y).toNat) ↔
    ¬(Overwritten LHS RHS Quotient Remainder x y ∨
      negL ≠ negR ∧ KeepsWidth x y ∧ (h Quotient).bitWidth ≠ w) := by
  by_cases hbad : Overwritten LHS RHS Quotient Remainder x y
  · refine iff_of_false ?_ (fun hnot => hnot (.inl hbad))
    rintro ⟨h', hresult, hquotient, -⟩
    obtain ⟨h₁, hudivrem, rfl⟩ := Option.map_eq_some_iff.mp hresult
    obtain ⟨hwidth, hwrong⟩ := udivrem_overwritten hne hL hR hbad hudivrem
    have hdiv : x / y = x := by
      obtain ⟨-, rfl, -⟩ := hbad
      exact BitVec.udiv_one
    rw [hdiv, negateOutputs_quotient hne] at hquotient
    subst hwidth
    by_cases hsign : negL = negR
    · rw [if_pos hsign, if_pos hsign] at hquotient
      exact hwrong hquotient
    · rw [if_neg hsign, if_neg hsign] at hquotient
      exact hwrong (congrArg BitVec.toNat (BitVec.neg_inj.mp (BitVec.eq_of_toNat_eq hquotient)))
  · obtain ⟨h₁, hudivrem, hd⟩ := udivrem_divided hne hL hR hy hbad
    have hremainder : (negateOutputs negL negR Quotient Remainder h₁ Remainder).val.toNat =
        (if negL then -(x % y) else x % y).toNat := by
      have hvalue := hd.remainder
      rw [negateOutputs_remainder hne]
      cases negL with
      | false => exact hvalue
      | true => exact toNat_negate hvalue hd.remainderWidth
    have hquotient : (negateOutputs negL negR Quotient Remainder h₁ Quotient).val.toNat =
          (if negL = negR then x / y else -(x / y)).toNat ↔
        ¬(negL ≠ negR ∧ KeepsWidth x y ∧ (h Quotient).bitWidth ≠ w) := by
      rw [negateOutputs_quotient hne]
      by_cases hsign : negL = negR
      · rw [if_pos hsign, if_pos hsign, BitVec.toNat_udiv]
        exact iff_of_true hd.quotient fun hfail => hfail.1 hsign
      · rw [if_neg hsign, if_neg hsign, hd.negate_quotient hy]
        exact not_congr (and_iff_right hsign).symm
    rw [not_or, hudivrem, Option.map_some]
    constructor
    · rintro ⟨h', hresult, hq, -⟩
      rw [Option.some.injEq] at hresult
      subst hresult
      exact ⟨hbad, hquotient.mp hq⟩
    · rintro ⟨-, hwidth⟩
      exact ⟨_, rfl, hquotient.mpr hwidth, hremainder⟩

end

/-- A call of `udivrem` on two objects leaves a quotient and a remainder. -/
def UdivremCorrect {w : Nat} (x y : BitVec w) (l r Quotient Remainder : Nat) (h : Heap) : Prop :=
  ∃ h', udivrem (.object l) (.object r) Quotient Remainder h = some h' ∧
    x.toNat = (h' Quotient).val.toNat * y.toNat + (h' Remainder).val.toNat ∧
    (h' Remainder).val.toNat < y.toNat

/-- A call of `sdivrem` on two objects leaves the quotient truncated toward zero and its
remainder. -/
def SdivremCorrect {w : Nat} (x y : BitVec w) (l r Quotient Remainder : Nat) (h : Heap) : Prop :=
  ∃ h', sdivrem l r Quotient Remainder h = some h' ∧
    (h' Quotient).val.toNat = (x.sdiv y).toNat ∧ (h' Remainder).val.toNat = (x.srem y).toNat

section

variable {w : Nat} {x y : BitVec w} {hw : 0 < w} {l r Quotient Remainder : Nat} {h : Heap}

theorem udivrem_correct (hy : y ≠ 0#w) (hne : Quotient ≠ Remainder) (hl : h l = ⟨w, x, hw⟩)
    (hr : h r = ⟨w, y, hw⟩) :
    UdivremCorrect x y l r Quotient Remainder h ↔
      ¬Overwritten (.object l) (.object r) Quotient Remainder x y := by
  have hL : h.read (.object l) = ⟨w, x, hw⟩ := hl
  have hR : h.read (.object r) = ⟨w, y, hw⟩ := hr
  constructor
  · rintro ⟨h', hresult, hsum, hlt⟩ hbad
    obtain ⟨-, hwrong⟩ := udivrem_overwritten hne hL hR hbad hresult
    obtain ⟨hwide, rfl, -⟩ := hbad
    rw [toNat_one_of_wide hwide] at hsum hlt
    exact hwrong (by omega)
  · intro hsafe
    obtain ⟨h', hresult, hd⟩ := udivrem_divided hne hL hR hy hsafe
    refine ⟨h', hresult, ?_, ?_⟩
    · rw [hd.quotient, hd.remainder, div_add_mod']
    · rw [hd.remainder]
      exact mod_lt _ (toNat_pos hy)

theorem read_magnitude (hl : h l = ⟨w, x, hw⟩) : h.read (magnitude h l) = ⟨w, x.abs, hw⟩ := by
  unfold magnitude
  rw [hl, BitVec.abs]
  cases hsign : x.msb with
  | false => exact hl
  | true => rfl

theorem sdiv_eq_abs (x y : BitVec w) :
    x.sdiv y = if x.msb = y.msb then x.abs / y.abs else -(x.abs / y.abs) := by
  rw [BitVec.sdiv_eq, BitVec.abs, BitVec.abs]
  cases x.msb <;> cases y.msb <;> rfl

theorem srem_eq_abs (x y : BitVec w) :
    x.srem y = if x.msb then -(x.abs % y.abs) else x.abs % y.abs := by
  rw [BitVec.srem_eq, BitVec.abs, BitVec.abs]
  cases x.msb <;> cases y.msb <;> rfl

/-- `sdivrem` is wrong exactly when the division of the magnitudes reads what it has overwritten, or
negates a quotient in another width. -/
theorem sdivrem_correct (hy : y ≠ 0#w) (hne : Quotient ≠ Remainder) (hl : h l = ⟨w, x, hw⟩)
    (hr : h r = ⟨w, y, hw⟩) :
    SdivremCorrect x y l r Quotient Remainder h ↔
      ¬(Overwritten (magnitude h l) (magnitude h r) Quotient Remainder x.abs y.abs ∨
        x.msb ≠ y.msb ∧ KeepsWidth x.abs y.abs ∧ (h Quotient).bitWidth ≠ w) := by
  have habs : y.abs ≠ 0#w := by
    rw [BitVec.abs]
    split_ifs
    · exact neg_ne_zero hy
    · exact hy
  rw [← negateOutputs_correct_iff hne (read_magnitude hl) (read_magnitude hr) habs, SdivremCorrect,
    sdivrem_eq, hl, hr, sdiv_eq_abs, srem_eq_abs]

end

/-- Division is right for values of every width, and `udivrem` and `sdivrem` for all operands and
outputs but the ones that are overwritten too early or keep another width. -/
theorem division_correct_iff {w : Nat} {x y : BitVec w} {hw : 0 < w}
    {l r Quotient Remainder : Nat} {h : Heap} (hy : y ≠ 0#w) (hne : Quotient ≠ Remainder)
    (hl : h l = ⟨w, x, hw⟩) (hr : h r = ⟨w, y, hw⟩) :
    (UdivremCorrect x y l r Quotient Remainder h ↔
      ¬Overwritten (.object l) (.object r) Quotient Remainder x y) ∧
    (SdivremCorrect x y l r Quotient Remainder h ↔
      ¬(Overwritten (magnitude h l) (magnitude h r) Quotient Remainder x.abs y.abs ∨
        x.msb ≠ y.msb ∧ KeepsWidth x.abs y.abs ∧ (h Quotient).bitWidth ≠ w)) ∧
    udiv x y = some (x / y) ∧ urem x y = some (x % y) ∧
    sdiv x y = some (x.sdiv y) ∧ srem x y = some (x.srem y) :=
  ⟨udivrem_correct hy hne hl hr, sdivrem_correct hy hne hl hr, udiv_eq x hy, urem_eq x hy,
    sdiv_eq x hy, srem_eq x hy⟩

/-- Two objects of 128 bits. -/
def pair (x y : BitVec 128) : Heap := fun i => ⟨128, if i = 0 then x else y, by decide⟩

/-- The operands are the outputs. -/
theorem udivrem_correct_pair : UdivremCorrect 7#128 2#128 0 1 0 1 (pair 7#128 2#128) :=
  (@division_correct_iff 128 7#128 2#128 (by decide) 0 1 0 1 (pair 7#128 2#128) (by decide)
    (by decide) rfl rfl).1.mpr fun hbad => absurd hbad.2.1 (by decide)

/-- A divisor of one that is an output gives no result. -/
theorem not_udivremCorrect :
    ¬∀ (w : Nat) (x y : BitVec w) (hw : 0 < w) (l r Quotient Remainder : Nat) (h : Heap),
      y ≠ 0#w → Quotient ≠ Remainder → h l = ⟨w, x, hw⟩ → h r = ⟨w, y, hw⟩ →
        UdivremCorrect x y l r Quotient Remainder h := by
  intro hall
  have hcorrect := hall 128 5#128 1#128 (by decide) 0 1 0 1 (pair 5#128 1#128) (by decide)
    (by decide) rfl rfl
  refine (udivrem_correct (by decide) (by decide) rfl rfl).mp hcorrect ?_
  exact ⟨by decide, rfl, by decide, by simp, .inr (.inl rfl)⟩

end Zapcc.APInt
