import Zapcc.Support.DivideWords

/-!
# The division of values

`udiv`, `urem`, `sdiv` and `srem` of a value. A value of at most 64 bits is divided by the machine,
a wider one after some degenerate cases by `divide`. There is no result when an assertion fails or
the machine divides by zero.
-/

namespace Zapcc.APInt

open DivideWords Nat Option

variable {w : Nat}

def getNumWords (bits : Nat) : Nat := (bits + 63) / 64

def words (x : BitVec w) : List WordType := Digits.ofValue 64 (getNumWords w) x.toNat

/-- The lowest word, `U.VAL` or `U.pVal[0]`. -/
def lowWord (x : BitVec w) : WordType := x.setWidth 64

/-- `APInt(numBits, val)`. -/
def ofWord (numBits : Nat) (val : WordType) : BitVec numBits := BitVec.ofNat numBits val.toNat

/-- The division of the machine. -/
def nativeDiv (a b : WordType) : Option WordType := if b = 0#64 then none else some (a / b)

/-- The remainder of the machine. -/
def nativeRem (a b : WordType) : Option WordType := if b = 0#64 then none else some (a % b)

def udiv (LHS RHS : BitVec w) : Option (BitVec w) :=
  if w ≤ 64 then (nativeDiv (lowWord LHS) (lowWord RHS)).map (ofWord w)
  else
    let lhsWords := getNumWords (getActiveBits LHS)
    let rhsBits := getActiveBits RHS
    let rhsWords := getNumWords rhsBits
    if rhsWords = 0 then none
    else if lhsWords = 0 then some 0#w
    else if rhsBits = 1 then some LHS
    else if lhsWords < rhsWords ∨ LHS < RHS then some 0#w
    else if LHS = RHS then some 1#w
    else if lhsWords = 1 then (nativeDiv (lowWord LHS) (lowWord RHS)).map (ofWord w)
    else
      (divide ((words LHS).take lhsWords) ((words RHS).take rhsWords)).map fun result =>
        BitVec.ofNat w (Digits.value result.1)

def urem (LHS RHS : BitVec w) : Option (BitVec w) :=
  if w ≤ 64 then (nativeRem (lowWord LHS) (lowWord RHS)).map (ofWord w)
  else
    let lhsWords := getNumWords (getActiveBits LHS)
    let rhsBits := getActiveBits RHS
    let rhsWords := getNumWords rhsBits
    if rhsWords = 0 then none
    else if lhsWords = 0 then some 0#w
    else if rhsBits = 1 then some 0#w
    else if lhsWords < rhsWords ∨ LHS < RHS then some LHS
    else if LHS = RHS then some 0#w
    else if lhsWords = 1 then (nativeRem (lowWord LHS) (lowWord RHS)).map (ofWord w)
    else
      (divide ((words LHS).take lhsWords) ((words RHS).take rhsWords)).map fun result =>
        BitVec.ofNat w (Digits.value result.2)

def sdiv (LHS RHS : BitVec w) : Option (BitVec w) :=
  if LHS.msb then
    if RHS.msb then udiv (-LHS) (-RHS) else (udiv (-LHS) RHS).map (- ·)
  else if RHS.msb then (udiv LHS (-RHS)).map (- ·)
  else udiv LHS RHS

def srem (LHS RHS : BitVec w) : Option (BitVec w) :=
  if LHS.msb then
    if RHS.msb then (urem (-LHS) (-RHS)).map (- ·) else (urem (-LHS) RHS).map (- ·)
  else if RHS.msb then urem LHS (-RHS)
  else urem LHS RHS

variable {y : BitVec w} {x : BitVec w}

theorem toNat_pos (hy : y ≠ 0#w) : 0 < y.toNat := by
  refine Nat.pos_of_ne_zero fun hzero => hy ?_
  exact BitVec.eq_of_toNat_eq (hzero.trans BitVec.toNat_zero.symm)

theorem getActiveBits_eq_zero : getActiveBits x = 0 ↔ x = 0#w := by
  rw [getActiveBits, size_eq_zero, ← BitVec.toNat_inj, BitVec.toNat_zero]

theorem getNumWords_eq_zero : getNumWords (getActiveBits x) = 0 ↔ x = 0#w := by
  rw [← getActiveBits_eq_zero, getNumWords]
  omega

theorem lt_of_getNumWords {n : Nat} (h : getNumWords (getActiveBits x) ≤ n) :
    x.toNat < (2 ^ 64) ^ n := by
  rw [← pow_mul, ← getActiveBits_le]
  rw [getNumWords] at h
  omega

theorem lt_of_getNumWords_lt {x y : BitVec w}
    (h : getNumWords (getActiveBits x) < getNumWords (getActiveBits y)) : x < y := by
  have hx := lt_of_getNumWords (Nat.le_refl (getNumWords (getActiveBits x)))
  rw [BitVec.lt_def]
  by_contra hge
  have hy : getActiveBits y ≤ 64 * getNumWords (getActiveBits x) := by
    rw [getActiveBits_le, pow_mul]
    omega
  rw [getNumWords, getNumWords] at h
  rw [getNumWords] at hy
  omega

theorem getActiveBits_eq_one : getActiveBits x = 1 ↔ x.toNat = 1 := by
  have hle : getActiveBits x ≤ 1 ↔ x.toNat < 2 ^ 1 := getActiveBits_le
  have hzero := @getActiveBits_eq_zero w x
  rw [← BitVec.toNat_inj, BitVec.toNat_zero] at hzero
  omega

theorem value_words {n : Nat} (h : x.toNat < (2 ^ 64) ^ n) :
    Digits.value ((words x).take n) = x.toNat := by
  have hfit : x.toNat < (2 ^ 64) ^ getNumWords w := by
    refine Nat.lt_of_lt_of_le x.isLt ?_
    rw [← pow_mul]
    refine Nat.pow_le_pow_right (by decide) ?_
    rw [getNumWords]
    omega
  rw [Digits.value_take, words, Digits.value_ofValue, mod_eq_of_lt hfit, mod_eq_of_lt h]

theorem divide_words {x y : BitVec w} {m n : Nat} (hx : x.toNat < (2 ^ 64) ^ m)
    (hy : y.toNat < (2 ^ 64) ^ n) (hpos : 0 < y.toNat) (hle : y.toNat ≤ x.toNat) :
    ∃ Q R, divide ((words x).take m) ((words y).take n) = some (Q, R) ∧
      Digits.value Q = x.toNat / y.toNat ∧ Digits.value R = x.toNat % y.toNat := by
  have hx' := value_words hx
  have hy' := value_words hy
  obtain ⟨Q, R, hresult, -, -, hquot, hrem⟩ :=
    divide_spec (hpos.trans_eq hy'.symm) (hy'.trans_le (hle.trans hx'.ge))
  rw [hx', hy'] at hquot hrem
  exact ⟨Q, R, hresult, hquot, hrem⟩

theorem toNat_lowWord (h : x.toNat < 2 ^ 64) : (lowWord x).toNat = x.toNat := by
  rw [lowWord, BitVec.toNat_setWidth, mod_eq_of_lt h]

theorem native_spec {x y : BitVec w} (hx : x.toNat < 2 ^ 64) (hy : y.toNat < 2 ^ 64)
    (hpos : 0 < y.toNat) :
    ∃ quot rem, nativeDiv (lowWord x) (lowWord y) = some quot ∧
      nativeRem (lowWord x) (lowWord y) = some rem ∧
      quot.toNat = x.toNat / y.toNat ∧ rem.toNat = x.toNat % y.toNat := by
  have hzero : lowWord y ≠ 0#64 := by
    intro heq
    rw [← toNat_lowWord hy, heq] at hpos
    exact Nat.lt_irrefl 0 hpos
  refine ⟨lowWord x / lowWord y, lowWord x % lowWord y, if_neg hzero, if_neg hzero, ?_, ?_⟩
  · rw [BitVec.toNat_udiv, toNat_lowWord hx, toNat_lowWord hy]
  · rw [BitVec.toNat_umod, toNat_lowWord hx, toNat_lowWord hy]

theorem isLt_of_le (h : w ≤ 64) : x.toNat < 2 ^ 64 :=
  Nat.lt_of_lt_of_le x.isLt (Nat.pow_le_pow_right (by decide) h)

theorem ofNat_div (x y : BitVec w) : BitVec.ofNat w (x.toNat / y.toNat) = x / y := by
  refine BitVec.eq_of_toNat_eq ?_
  rw [BitVec.toNat_ofNat, BitVec.toNat_udiv,
    mod_eq_of_lt (Nat.lt_of_le_of_lt (Nat.div_le_self _ _) x.isLt)]

theorem ofNat_mod (x y : BitVec w) : BitVec.ofNat w (x.toNat % y.toNat) = x % y := by
  refine BitVec.eq_of_toNat_eq ?_
  rw [BitVec.toNat_ofNat, BitVec.toNat_umod, mod_eq_of_lt (Nat.lt_of_le_of_lt (mod_le _ _) x.isLt)]

theorem udiv_eq (x : BitVec w) (hy : y ≠ 0#w) : udiv x y = some (x / y) := by
  have hpos := toNat_pos hy
  rw [← ofNat_div]
  unfold udiv
  dsimp only
  split_ifs with hsingle hassert hzero hone hlt heq hlow
  · obtain ⟨quot, rem, hquot, -, hvalue, -⟩ :=
      native_spec (isLt_of_le (x := x) hsingle) (isLt_of_le hsingle) hpos
    rw [hquot, map_some, ofWord, hvalue]
  · exact absurd (getNumWords_eq_zero.mp hassert) hy
  · rw [getNumWords_eq_zero.mp hzero, BitVec.toNat_zero, Nat.zero_div]
  · rw [getActiveBits_eq_one.mp hone, Nat.div_one, BitVec.ofNat_toNat, BitVec.setWidth_eq]
  · have hbelow : x.toNat < y.toNat := hlt.elim lt_of_getNumWords_lt id
    rw [div_eq_of_lt hbelow]
  · rw [heq, Nat.div_self hpos]
  · rw [not_or, BitVec.lt_def] at hlt
    have hx := lt_of_getNumWords (n := 1) hlow.le
    obtain ⟨quot, rem, hquot, -, hvalue, -⟩ := native_spec hx (by omega) hpos
    rw [hquot, map_some, ofWord, hvalue]
  · rw [not_or, BitVec.lt_def] at hlt
    obtain ⟨Q, R, hresult, hquot, -⟩ := divide_words (lt_of_getNumWords (x := x) (Nat.le_refl _))
      (lt_of_getNumWords (Nat.le_refl _)) hpos (by omega)
    rw [hresult, map_some, hquot]

theorem urem_eq (x : BitVec w) (hy : y ≠ 0#w) : urem x y = some (x % y) := by
  have hpos := toNat_pos hy
  rw [← ofNat_mod]
  unfold urem
  dsimp only
  split_ifs with hsingle hassert hzero hone hlt heq hlow
  · obtain ⟨quot, rem, -, hrem, -, hvalue⟩ :=
      native_spec (isLt_of_le (x := x) hsingle) (isLt_of_le hsingle) hpos
    rw [hrem, map_some, ofWord, hvalue]
  · exact absurd (getNumWords_eq_zero.mp hassert) hy
  · rw [getNumWords_eq_zero.mp hzero, BitVec.toNat_zero, zero_mod]
  · rw [getActiveBits_eq_one.mp hone, mod_one]
  · have hbelow : x.toNat < y.toNat := hlt.elim lt_of_getNumWords_lt id
    rw [mod_eq_of_lt hbelow, BitVec.ofNat_toNat, BitVec.setWidth_eq]
  · rw [heq, mod_self]
  · rw [not_or, BitVec.lt_def] at hlt
    have hx := lt_of_getNumWords (n := 1) hlow.le
    obtain ⟨quot, rem, -, hrem, -, hvalue⟩ := native_spec hx (by omega) hpos
    rw [hrem, map_some, ofWord, hvalue]
  · rw [not_or, BitVec.lt_def] at hlt
    obtain ⟨Q, R, hresult, -, hrem⟩ := divide_words (lt_of_getNumWords (x := x) (Nat.le_refl _))
      (lt_of_getNumWords (Nat.le_refl _)) hpos (by omega)
    rw [hresult, map_some, hrem]

theorem neg_ne_zero (hy : y ≠ 0#w) : -y ≠ 0#w := by
  rwa [ne_eq, BitVec.neg_eq_zero_iff]

theorem sdiv_eq (x : BitVec w) (hy : y ≠ 0#w) :
    sdiv x y = some (x.sdiv y) := by
  unfold sdiv
  rw [BitVec.sdiv_eq, udiv_eq _ hy, udiv_eq _ hy, udiv_eq _ (neg_ne_zero hy),
    udiv_eq _ (neg_ne_zero hy)]
  cases x.msb <;> cases y.msb <;> rfl

theorem srem_eq (x : BitVec w) (hy : y ≠ 0#w) :
    srem x y = some (x.srem y) := by
  unfold srem
  rw [BitVec.srem_eq, urem_eq _ hy, urem_eq _ hy, urem_eq _ (neg_ne_zero hy),
    urem_eq _ (neg_ne_zero hy)]
  cases x.msb <;> cases y.msb <;> rfl

end Zapcc.APInt
