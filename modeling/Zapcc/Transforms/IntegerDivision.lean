import Zapcc.Library.WrapAround

/-!
# Expanded integer division

The code that `expandDivision` and `expandRemainder` generate at 32 and 64 bits, as what it
computes. A shift by the width or more has no result, and counting the leading zeros of zero gives
any value. The main result is `expands`: the generated loop ends, and the code computes the
operation.
-/

namespace Zapcc.IntegerDivision

open BitVec Option WrapAround

inductive Opcode where
  | UDiv
  | SDiv
  | URem
  | SRem
  deriving DecidableEq

def Opcode.eval {w : Nat} : Opcode → BitVec w → BitVec w → BitVec w
  | .UDiv => (· / ·)
  | .SDiv => BitVec.sdiv
  | .URem => (· % ·)
  | .SRem => BitVec.srem

variable {w : Nat}

/-! ## The generated code -/

def shl (x amount : BitVec w) : Option (BitVec w) :=
  if amount.toNat < w then some (x <<< amount.toNat) else none

def lshr (x amount : BitVec w) : Option (BitVec w) :=
  if amount.toNat < w then some (x >>> amount.toNat) else none

/-- A shift down by the number of the highest bit, which repeats the sign. -/
def sign (x : BitVec w) : BitVec w := x.sshiftRight (w - 1)

/-- `llvm.ctlz`, where the result for zero is undefined. -/
def ctlz (undef x : BitVec w) : BitVec w := if x = 0#w then undef else x.clz

/-- The values at the start of the block `do-while`. -/
structure LoopState (w : Nat) where
  carry_1 : BitVec w
  sr_3 : BitVec w
  r_1 : BitVec w
  q_2 : BitVec w

/-- The block `do-while`: the next values, and whether it is left. -/
def doWhile (divisor tmp4 : BitVec w) (s : LoopState w) : LoopState w × Bool :=
  let tmp5 := s.r_1 <<< 1
  let tmp6 := s.q_2 >>> (w - 1)
  let tmp7 := tmp5 ||| tmp6
  let tmp8 := s.q_2 <<< 1
  let q_1 := s.carry_1 ||| tmp8
  let tmp9 := tmp4 - tmp7
  let tmp10 := sign tmp9
  let carry := tmp10 &&& 1#w
  let tmp11 := tmp10 &&& divisor
  let r := tmp7 - tmp11
  let sr_2 := s.sr_3 + -1#w
  (⟨carry, sr_2, r, q_1⟩, sr_2 == 0#w)

/-- The loop, for a number of iterations at most. -/
def loop (divisor tmp4 : BitVec w) : Nat → LoopState w → Option (LoopState w)
  | 0, _ => none
  | fuel + 1, s =>
      let (s, leave) := doWhile divisor tmp4 s
      if leave then some s else loop divisor tmp4 fuel s

def generateUnsignedDivisionCode (undef undef' : BitVec w) (fuel : Nat)
    (dividend divisor : BitVec w) : Option (BitVec w) :=
  let msb := BitVec.ofNat w (w - 1)
  let sr := ctlz undef divisor - ctlz undef' dividend
  let ret0 := divisor = 0#w ∨ dividend = 0#w ∨ msb < sr
  let retVal := if ret0 then 0#w else dividend
  if ret0 ∨ sr = msb then some retVal
  else do
    let sr_1 := sr + 1#w
    let q ← shl dividend (msb - sr)
    let s ←
      if sr_1 = 0#w then some ⟨0#w, sr_1, 0#w, q⟩
      else do
        let tmp3 ← lshr dividend sr_1
        loop divisor (divisor + -1#w) fuel ⟨0#w, sr_1, tmp3, q⟩
    some (s.carry_1 ||| s.q_2 <<< 1)

def generateSignedDivisionCode (udiv : BitVec w → BitVec w → Option (BitVec w))
    (dividend divisor : BitVec w) : Option (BitVec w) := do
  let tmp := sign dividend
  let tmp1 := sign divisor
  let u_dvnd := (tmp ^^^ dividend) - tmp
  let u_dvsr := (tmp1 ^^^ divisor) - tmp1
  let q_sgn := tmp1 ^^^ tmp
  let q_mag ← udiv u_dvnd u_dvsr
  some ((q_mag ^^^ q_sgn) - q_sgn)

def generatedUnsignedRemainderCode (udiv : BitVec w → BitVec w → Option (BitVec w))
    (dividend divisor : BitVec w) : Option (BitVec w) := do
  let quotient ← udiv dividend divisor
  some (dividend - divisor * quotient)

def generateSignedRemainderCode (urem : BitVec w → BitVec w → Option (BitVec w))
    (dividend divisor : BitVec w) : Option (BitVec w) := do
  let dividend_sgn := sign dividend
  let divisor_sgn := sign divisor
  let u_dividend := (dividend ^^^ dividend_sgn) - dividend_sgn
  let u_divisor := (divisor ^^^ divisor_sgn) - divisor_sgn
  let urem ← urem u_dividend u_divisor
  some ((urem ^^^ dividend_sgn) - dividend_sgn)

/-- The code that `expandDivision` puts in the place of a division. There is none where an assertion
fails. -/
def expandDivision (undef undef' : BitVec w) (fuel : Nat) (op : Opcode)
    (dividend divisor : BitVec w) : Option (BitVec w) :=
  if w = 32 ∨ w = 64 then
    match op with
    | .SDiv => generateSignedDivisionCode (generateUnsignedDivisionCode undef undef' fuel)
        dividend divisor
    | .UDiv => generateUnsignedDivisionCode undef undef' fuel dividend divisor
    | _ => none
  else none

/-- The code that `expandRemainder` puts in the place of a remainder. -/
def expandRemainder (undef undef' : BitVec w) (fuel : Nat) (op : Opcode)
    (dividend divisor : BitVec w) : Option (BitVec w) :=
  let urem := generatedUnsignedRemainderCode (expandDivision undef undef' fuel .UDiv)
  if w = 32 ∨ w = 64 then
    match op with
    | .SRem => generateSignedRemainderCode urem dividend divisor
    | .URem => urem dividend divisor
    | _ => none
  else none

/-- The shape of the four functions for narrower widths: the operands are extended to `v` bits, and
what is expanded there is truncated. -/
def expandUpTo (v : Nat) (isSigned : Bool) (expandNarrow : BitVec w → BitVec w → Option (BitVec w))
    (expandWide : BitVec v → BitVec v → Option (BitVec v)) (dividend divisor : BitVec w) :
    Option (BitVec w) :=
  if v < w then none
  else if w = v then expandNarrow dividend divisor
  else
    let ext (x : BitVec w) : BitVec v := if isSigned then x.signExtend v else x.setWidth v
    (expandWide (ext dividend) (ext divisor)).map (·.setWidth w)

def expandRemainderUpTo (v : Nat) (undef undef' : BitVec v) (fuel : Nat) (op : Opcode) :
    BitVec w → BitVec w → Option (BitVec w) :=
  expandUpTo v (op = .SRem)
    (expandRemainder (undef.setWidth w) (undef'.setWidth w) fuel op)
    (expandRemainder undef undef' fuel op)

def expandDivisionUpTo (v : Nat) (undef undef' : BitVec v) (fuel : Nat) (op : Opcode) :
    BitVec w → BitVec w → Option (BitVec w) :=
  expandUpTo v (op = .SDiv)
    (expandDivision (undef.setWidth w) (undef'.setWidth w) fuel op)
    (expandDivision undef undef' fuel op)

def expandRemainderUpTo32Bits (undef undef' : BitVec 32) (fuel : Nat) (op : Opcode) :
    BitVec w → BitVec w → Option (BitVec w) := expandRemainderUpTo 32 undef undef' fuel op

def expandRemainderUpTo64Bits (undef undef' : BitVec 64) (fuel : Nat) (op : Opcode) :
    BitVec w → BitVec w → Option (BitVec w) := expandRemainderUpTo 64 undef undef' fuel op

def expandDivisionUpTo32Bits (undef undef' : BitVec 32) (fuel : Nat) (op : Opcode) :
    BitVec w → BitVec w → Option (BitVec w) := expandDivisionUpTo 32 undef undef' fuel op

def expandDivisionUpTo64Bits (undef undef' : BitVec 64) (fuel : Nat) (op : Opcode) :
    BitVec w → BitVec w → Option (BitVec w) := expandDivisionUpTo 64 undef undef' fuel op

/-! ## The loop -/

variable {a d : Nat} {s : LoopState w} {dividend divisor tmp4 undef undef' : BitVec w} {fuel : Nat}

theorem sign_eq (hw : 0 < w) (x : BitVec w) : sign x = if x.msb then BitVec.allOnes w else 0#w := by
  refine eq_of_getLsbD_eq fun i hi => ?_
  rw [sign, getLsbD_sshiftRight]
  have hmsb : x.getLsbD (w - 1) = x.msb := (msb_eq_getLsbD_last x).symm
  have hbit : (if w - 1 + i < w then x.getLsbD (w - 1 + i) else x.msb) = x.msb := by
    split
    · rw [show w - 1 + i = w - 1 by omega]
      exact hmsb
    · rfl
  rw [hbit]
  cases x.msb <;> simp [hi]

theorem toNat_shl_or {x b : BitVec w} (hb : b.toNat < 2) :
    (x <<< 1 ||| b).toNat = 2 * x.toNat % 2 ^ w + b.toNat := by
  have hdvd : 2 * x.toNat % 2 ^ w = 2 ^ 1 * (2 * x.toNat % 2 ^ w / 2) := by
    rcases w with _ | w
    · simp [Nat.mod_one]
    · rw [Nat.pow_succ', Nat.mul_mod_mul_left]
      omega
  rw [toNat_or, toNat_shiftLeft, Nat.shiftLeft_eq, Nat.pow_one, Nat.mul_comm, hdvd,
    ← Nat.two_pow_add_eq_or_of_lt (by omega)]

/-- After the bits of the dividend `a` above the lowest `j`, the quotient and the remainder of these
bits are there. The last bit of the quotient is in the carry, the others are behind the bits of the
dividend that are left. -/
structure Scanned (a d j : Nat) (s : LoopState w) (Q R : Nat) : Prop where
  quotient : a / 2 ^ j = d * Q + R
  remainder : R < d
  sr : s.sr_3.toNat = j
  r : s.r_1.toNat = R
  q : s.q_2.toNat = a % 2 ^ j * 2 ^ (w - j) + Q / 2
  carry : s.carry_1.toNat = Q % 2

theorem toNat_pred (hw : 0 < w) {x : BitVec w} (hx : 0 < x.toNat) :
    (x + -1#w).toNat = x.toNat - 1 := by
  have hone := BitVec.toNat_one hw
  rw [← BitVec.sub_eq_add_neg, toNat_sub_of_le (by rwa [le_def, hone]), hone]

theorem msb_sub {T : BitVec w} (hw : 0 < w) (hd : 0 < divisor.toNat)
    (hlow : divisor.toNat ≤ T.toNat + 2 ^ (w - 1)) (hhigh : T.toNat < divisor.toNat + 2 ^ (w - 1)) :
    (divisor + -1#w - T).msb = decide (divisor.toNat ≤ T.toNat) := by
  have hpow := two_pow_eq_two_mul hw
  have hcases := toNat_sub_cases (divisor + -1#w) T
  rw [toNat_pred hw hd] at hcases
  rw [msb_eq_decide, decide_eq_decide]
  omega

theorem doWhile_scanned {k Q R : Nat} (hw : 0 < w) (ha : a < 2 ^ w) (hk : k < w)
    (h : Scanned a divisor.toNat (k + 1) s Q R)
    (hfits : 2 * R + a / 2 ^ k % 2 < 2 ^ w)
    (hlow : divisor.toNat ≤ 2 * R + a / 2 ^ k % 2 + 2 ^ (w - 1))
    (hhigh : 2 * R + a / 2 ^ k % 2 < divisor.toNat + 2 ^ (w - 1)) :
    ∃ Q' R', Scanned a divisor.toNat k (doWhile divisor (divisor + -1#w) s).1 Q' R' := by
  obtain ⟨hquotient, hR, hsr, hr, hq, hcarry⟩ := h
  have hd : 0 < divisor.toNat := by omega
  obtain ⟨bit, hbit⟩ : ∃ bit, bit = a / 2 ^ k % 2 := ⟨_, rfl⟩
  obtain ⟨p, hp⟩ : ∃ p, p = 2 ^ (w - (k + 1)) := ⟨_, rfl⟩
  have hpk : 2 ^ (w - k) = 2 * p := by
    rw [hp, ← Nat.pow_succ', show w - k = w - (k + 1) + 1 by omega]
  have hhalf : 2 ^ (w - 1) = 2 ^ k * p := by rw [hp, ← Nat.pow_add]; congr; omega
  have hpow : 2 ^ w = 2 * (2 ^ k * p) := by rw [← hhalf, ← Nat.pow_succ']; congr; omega
  have hhead : a / 2 ^ k = 2 * (divisor.toNat * Q + R) + bit := by
    rw [← hquotient, Nat.pow_succ, ← Nat.div_div_eq_div_mul, hbit, Nat.div_add_mod]
  have hQ : Q < p := by
    have hle : Q ≤ a / 2 ^ (k + 1) := by
      rw [hquotient]
      exact (Nat.le_mul_of_pos_left Q hd).trans (Nat.le_add_right _ _)
    refine hle.trans_lt (Nat.div_lt_of_lt_mul ?_)
    rw [hp, ← Nat.pow_add, show k + 1 + (w - (k + 1)) = w by omega]
    exact ha
  rw [← hbit] at hfits hlow hhigh
  -- the bits that are left, and the quotient behind them
  obtain ⟨X, hX, hlt⟩ : ∃ X, X = a % 2 ^ k * p + Q / 2 ∧ X < 2 ^ k * p := by
    refine ⟨_, rfl, ?_⟩
    have hmul : (a % 2 ^ k + 1) * p ≤ 2 ^ k * p :=
      Nat.mul_le_mul_right _ (Nat.mod_lt _ (Nat.two_pow_pos k))
    rw [Nat.add_mul, Nat.one_mul] at hmul
    omega
  have hq' : s.q_2.toNat = 2 ^ k * p * bit + X := by
    rw [hq, Nat.mod_pow_succ, ← hbit, ← hp, Nat.add_mul, hX, Nat.mul_right_comm]
    omega
  have hbit2 : bit < 2 := hbit ▸ Nat.mod_lt _ (by decide)
  have htmp6 : (s.q_2 >>> (w - 1)).toNat = bit := by
    rw [toNat_ushiftRight, Nat.shiftRight_eq_div_pow, hhalf, hq',
      Nat.mul_add_div (by omega), Nat.div_eq_of_lt hlt, Nat.add_zero]
  have htmp7 : (s.r_1 <<< 1 ||| s.q_2 >>> (w - 1)).toNat = 2 * R + bit := by
    rw [toNat_shl_or (by omega), htmp6, hr, Nat.mod_eq_of_lt (by omega)]
  have hq1 : (s.carry_1 ||| s.q_2 <<< 1).toNat = a % 2 ^ k * 2 ^ (w - k) + Q := by
    have htwice : 2 * (2 ^ k * p * bit + X) % 2 ^ w = 2 * X := by
      rw [hpow, Nat.mul_mod_mul_left, Nat.mul_add_mod, Nat.mod_eq_of_lt hlt]
    rw [BitVec.or_comm, toNat_shl_or (by omega), hcarry, hq', htwice, hpk, hX, Nat.mul_left_comm]
    omega
  have hsr2 : (s.sr_3 + -1#w).toNat = k := by rw [toNat_pred hw (by omega), hsr, Nat.add_sub_cancel]
  have hsign : sign (divisor + -1#w - (s.r_1 <<< 1 ||| s.q_2 >>> (w - 1))) =
      if divisor.toNat ≤ 2 * R + bit then BitVec.allOnes w else 0#w := by
    rw [sign_eq hw, msb_sub hw hd (by rw [htmp7]; exact hlow) (by rw [htmp7]; exact hhigh), htmp7]
    simp only [decide_eq_true_eq]
  have hmul : divisor.toNat * (2 * Q) = 2 * (divisor.toNat * Q) := Nat.mul_left_comm _ _ _
  unfold doWhile
  dsimp only
  rw [hsign]
  by_cases hle : divisor.toNat ≤ 2 * R + bit
  · rw [if_pos hle, allOnes_and, allOnes_and]
    refine ⟨2 * Q + 1, 2 * R + bit - divisor.toNat, ?_, by omega, hsr2, ?_, ?_, ?_⟩
    · rw [hhead, Nat.mul_add _ (2 * Q), hmul]
      omega
    · rw [toNat_sub_of_le (by rw [le_def, htmp7]; exact hle), htmp7]
    · exact hq1.trans (by omega)
    · rw [BitVec.toNat_one hw]
      omega
  · rw [if_neg hle, zero_and, zero_and, BitVec.sub_zero]
    refine ⟨2 * Q, 2 * R + bit, ?_, by omega, hsr2, htmp7, ?_, ?_⟩
    · omega
    · exact hq1.trans (by omega)
    · rw [toNat_ofNat, Nat.zero_mod]
      omega

/-- A divisor with the highest bit set is compared with the whole dividend in the only iteration. -/
def Small (a d k w : Nat) : Prop := d ≤ 2 ^ (w - 1) ∨ k = 0 ∧ a / 2 < d ∧ 2 ^ (w - 1) ≤ a

theorem Small.fits {k Q R : Nat} (hw : 0 < w) (ha : a < 2 ^ w) (hd : d < 2 ^ w)
    (h : Small a d k w) (hquotient : a / 2 ^ (k + 1) = d * Q + R) (hR : R < d) :
    2 * R + a / 2 ^ k % 2 < 2 ^ w ∧ d ≤ 2 * R + a / 2 ^ k % 2 + 2 ^ (w - 1) ∧
      2 * R + a / 2 ^ k % 2 < d + 2 ^ (w - 1) := by
  have hpow := two_pow_eq_two_mul hw
  rcases h with hle | ⟨rfl, hlt, hge⟩
  · omega
  · have hQ : Q = 0 := by
      by_contra hne
      have hmul := Nat.le_mul_of_pos_right d (Nat.pos_of_ne_zero hne)
      omega
    subst hQ
    omega

theorem loop_scanned {k Q R : Nat} (hw : 0 < w) (ha : a < 2 ^ w) (hk : k < w) (hfuel : k < fuel)
    (h : Scanned a divisor.toNat (k + 1) s Q R) (hsmall : Small a divisor.toNat k w) :
    ∃ s' Q' R', loop divisor (divisor + -1#w) fuel s = some s' ∧
      Scanned a divisor.toNat 0 s' Q' R' := by
  induction k generalizing s Q R fuel with
  | zero =>
    obtain ⟨fuel, rfl⟩ := Nat.exists_eq_succ_of_ne_zero hfuel.ne'
    obtain ⟨hfits, hlow, hhigh⟩ := hsmall.fits hw ha divisor.isLt h.quotient h.remainder
    obtain ⟨Q', R', hnext⟩ := doWhile_scanned hw ha hk h hfits hlow hhigh
    have hleave : (doWhile divisor (divisor + -1#w) s).2 = true :=
      beq_iff_eq.mpr (eq_of_toNat_eq hnext.sr)
    exact ⟨_, Q', R', if_pos hleave, hnext⟩
  | succ k ih =>
    obtain ⟨fuel, rfl⟩ := Nat.exists_eq_succ_of_ne_zero (Nat.ne_zero_of_lt hfuel)
    obtain ⟨hfits, hlow, hhigh⟩ := hsmall.fits hw ha divisor.isLt h.quotient h.remainder
    obtain ⟨Q', R', hnext⟩ := doWhile_scanned hw ha hk h hfits hlow hhigh
    have hstay : ¬ (doWhile divisor (divisor + -1#w) s).2 = true := by
      intro hleave
      have hsr := hnext.sr
      rw [show (doWhile divisor (divisor + -1#w) s).1.sr_3 = 0#w from beq_iff_eq.mp hleave] at hsr
      simp at hsr
    obtain ⟨s', Q'', R'', hrun, hdone⟩ := ih (by omega) (Nat.lt_of_succ_lt_succ hfuel) hnext
      (hsmall.imp_right fun hzero => absurd hzero.1 (Nat.succ_ne_zero k))
    exact ⟨s', Q'', R'', (if_neg hstay).trans hrun, hdone⟩

theorem Scanned.exit {Q R : Nat} (ha : a < 2 ^ w) (h : Scanned a d 0 s Q R) :
    (s.carry_1 ||| s.q_2 <<< 1).toNat = a / d := by
  obtain ⟨hquotient, hR, -, -, hq, hcarry⟩ := h
  rw [Nat.pow_zero, Nat.div_one] at hquotient
  have hdiv : a / d = Q := by
    rw [hquotient, Nat.mul_add_div (by omega), Nat.div_eq_of_lt hR, Nat.add_zero]
  have hle := Nat.div_le_self a d
  rw [Nat.pow_zero, Nat.mod_one, Nat.zero_mul, Nat.zero_add] at hq
  rw [BitVec.or_comm, toNat_shl_or (by omega), hq, hcarry, Nat.mod_eq_of_lt (by omega), hdiv]
  omega

/-! ## Unsigned division -/

theorem clz_bounds (hw : 0 < w) {x : BitVec w} (hx : x ≠ 0#w) :
    ∃ n < w, (ctlz undef x).toNat = w - 1 - n ∧ 2 ^ n ≤ x.toNat ∧ x.toNat < 2 ^ (n + 1) := by
  have hlt : x.clz.toNat < w := by
    have h := BitVec.lt_def.mp (BitVec.clz_lt_iff_ne_zero.mpr hx)
    rwa [show (w : BitVec w).toNat = w % 2 ^ w from rfl, Nat.mod_eq_of_lt Nat.lt_two_pow_self] at h
  refine ⟨w - 1 - x.clz.toNat, by omega, ?_, two_pow_sub_clz_le_toNat_of_ne_zero hw hx, ?_⟩
  · rw [ctlz, if_neg hx]
    omega
  · rw [show w - 1 - x.clz.toNat + 1 = w - x.clz.toNat by omega]
    exact toNat_lt_two_pow_sub_clz

theorem generateUnsignedDivisionCode_eq (hw : 0 < w) (hfuel : w ≤ fuel) (hd : divisor ≠ 0#w) :
    generateUnsignedDivisionCode undef undef' fuel dividend divisor =
      some (dividend / divisor) := by
  unfold generateUnsignedDivisionCode
  dsimp only
  by_cases hzero : dividend = 0#w
  · rw [if_pos (.inl (.inr (.inl hzero))), if_pos (.inr (.inl hzero)), hzero, zero_udiv]
  obtain ⟨n, hn, hclz, hdlow, hdhigh⟩ := @clz_bounds _ undef hw _ hd
  obtain ⟨m, hm, hclz', halow, hahigh⟩ := @clz_bounds _ undef' hw _ hzero
  have hcases := toNat_sub_cases (ctlz undef divisor) (ctlz undef' dividend)
  generalize ctlz undef divisor - ctlz undef' dividend = sr at hcases ⊢
  rw [hclz, hclz'] at hcases
  have hwide : 2 * w ≤ 2 ^ w := by
    obtain ⟨v, rfl⟩ := Nat.exists_eq_succ_of_ne_zero hw.ne'
    rw [Nat.pow_succ']
    exact Nat.mul_le_mul_left 2 Nat.lt_two_pow_self
  have hmsb : (BitVec.ofNat w (w - 1)).toNat = w - 1 := by
    rw [toNat_ofNat, Nat.mod_eq_of_lt (by omega)]
  have hsmaller : (BitVec.ofNat w (w - 1) < sr) ↔ m < n := by
    rw [lt_def, hmsb]
    omega
  simp only [hd, hzero, false_or, hsmaller]
  by_cases hmn : m < n
  · rw [if_pos (.inl hmn), if_pos hmn]
    have hlt : dividend.toNat < divisor.toNat :=
      hahigh.trans_le ((Nat.pow_le_pow_right (by decide) hmn).trans hdlow)
    exact congrArg some (eq_of_toNat_eq (by rw [toNat_udiv, Nat.div_eq_of_lt hlt, toNat_zero]))
  have hsr : sr.toNat = m - n := by omega
  by_cases hlast : sr = BitVec.ofNat w (w - 1)
  · rw [if_pos (.inr hlast), if_neg hmn]
    have hlen : m - n = w - 1 := by rw [← hsr, hlast, hmsb]
    have hone : divisor.toNat = 1 := by
      rw [show n = 0 by omega] at hdlow hdhigh
      omega
    exact congrArg some (eq_of_toNat_eq (by rw [toNat_udiv, hone, Nat.div_one]))
  have hlen : m - n < w - 1 := by
    refine Nat.lt_of_le_of_ne (by omega) fun heq => hlast (eq_of_toNat_eq ?_)
    rw [hsr, hmsb, heq]
  have hsr1 : (sr + 1#w).toNat = m - n + 1 := by
    rw [toNat_add, hsr, BitVec.toNat_one hw, Nat.mod_eq_of_lt (by omega)]
  have hshift : (BitVec.ofNat w (w - 1) - sr).toNat = w - (m - n + 1) := by
    rw [toNat_sub_of_le (by rw [le_def, hmsb, hsr]; omega), hmsb, hsr]
    omega
  have hne : sr + 1#w ≠ 0#w := fun h => by simp [h] at hsr1
  have hhead : dividend.toNat / 2 ^ (m - n + 1) < divisor.toNat := by
    refine (Nat.div_lt_of_lt_mul ?_).trans_le hdlow
    rw [← Nat.pow_add, show m - n + 1 + n = m + 1 by omega]
    exact hahigh
  have hscanned : Scanned dividend.toNat divisor.toNat (m - n + 1)
      ⟨0#w, sr + 1#w, dividend >>> (sr + 1#w).toNat,
        dividend <<< (BitVec.ofNat w (w - 1) - sr).toNat⟩ 0
      (dividend.toNat / 2 ^ (m - n + 1)) := by
    refine ⟨by omega, hhead, hsr1, ?_, ?_, toNat_zero⟩
    · rw [toNat_ushiftRight, hsr1, Nat.shiftRight_eq_div_pow]
    · rw [toNat_shiftLeft, Nat.shiftLeft_eq, hshift,
        show 2 ^ w = 2 ^ (m - n + 1) * 2 ^ (w - (m - n + 1)) by rw [← Nat.pow_add]; congr; omega,
        Nat.mul_mod_mul_right]
      rfl
  have hsmall : Small dividend.toNat divisor.toNat (m - n) w := by
    by_cases hle : divisor.toNat ≤ 2 ^ (w - 1)
    · exact .inl hle
    · have hlong : w - 1 ≤ n := by
        by_contra hlt
        have hpow := Nat.pow_le_pow_right (by decide : 2 > 0) (show n + 1 ≤ w - 1 by omega)
        omega
      have hpow := Nat.pow_le_pow_right (by decide : 2 > 0) (show w - 1 ≤ m by omega)
      refine .inr ⟨by omega, ?_, by omega⟩
      rwa [show m - n + 1 = 1 by omega, Nat.pow_one] at hhead
  obtain ⟨s, Q, R, hrun, hdone⟩ := @loop_scanned _ _ _ _ fuel _ _ _ hw dividend.isLt (by omega)
    (by omega) hscanned hsmall
  rw [if_neg (by simp [hmn, hlast]), shl, if_pos (by omega), bind_eq_bind, bind_some,
    if_neg hne, lshr, if_pos (by omega), bind_some, hrun]
  exact congrArg some (eq_of_toNat_eq (by rw [hdone.exit dividend.isLt, toNat_udiv]))

/-! ## Signs -/

theorem xor_sub_sign (x : BitVec w) (b : Bool) :
    (x ^^^ if b then BitVec.allOnes w else 0#w) - (if b then BitVec.allOnes w else 0#w) =
      if b then -x else x := by
  cases b with
  | false => simp
  | true =>
    simp only [if_true]
    rw [xor_allOnes, ← neg_one_eq_allOnes, BitVec.sub_neg, neg_eq_not_add]

theorem abs_ne_zero {x : BitVec w} (hx : x ≠ 0#w) (b : Bool) : (if b then -x else x) ≠ 0#w := by
  cases b with
  | false => exact hx
  | true => exact fun h => hx (by simpa using h)

theorem generateSignedDivisionCode_eq (hw : 0 < w) (hd : divisor ≠ 0#w)
    {udiv : BitVec w → BitVec w → Option (BitVec w)}
    (hudiv : ∀ x y, y ≠ 0#w → udiv x y = some (x / y)) :
    generateSignedDivisionCode udiv dividend divisor = some (dividend.sdiv divisor) := by
  unfold generateSignedDivisionCode
  have hsign : sign divisor ^^^ sign dividend =
      if divisor.msb ^^ dividend.msb then BitVec.allOnes w else 0#w := by
    rw [sign_eq hw, sign_eq hw]
    cases divisor.msb <;> cases dividend.msb <;> simp
  dsimp only
  rw [hsign, sign_eq hw, sign_eq hw, BitVec.xor_comm _ dividend, BitVec.xor_comm _ divisor,
    xor_sub_sign, xor_sub_sign, hudiv _ _ (abs_ne_zero hd _), bind_eq_bind, bind_some,
    xor_sub_sign, sdiv_eq]
  cases divisor.msb <;> cases dividend.msb <;> rfl

theorem generatedUnsignedRemainderCode_eq {udiv : BitVec w → BitVec w → Option (BitVec w)}
    (hudiv : udiv dividend divisor = some (dividend / divisor)) :
    generatedUnsignedRemainderCode udiv dividend divisor = some (dividend % divisor) := by
  have hle := Nat.mul_div_le dividend.toNat divisor.toNat
  have hmul : (divisor * (dividend / divisor)).toNat =
      divisor.toNat * (dividend.toNat / divisor.toNat) := by
    rw [toNat_mul, toNat_udiv, Nat.mod_eq_of_lt (hle.trans_lt dividend.isLt)]
  rw [generatedUnsignedRemainderCode, hudiv]
  refine congrArg some (eq_of_toNat_eq ?_)
  rw [toNat_sub_of_le (by rw [le_def, hmul]; exact hle), hmul, toNat_umod]
  have hdiv := Nat.div_add_mod dividend.toNat divisor.toNat
  omega

theorem generateSignedRemainderCode_eq (hw : 0 < w) (hd : divisor ≠ 0#w)
    {urem : BitVec w → BitVec w → Option (BitVec w)}
    (hurem : ∀ x y, y ≠ 0#w → urem x y = some (x % y)) :
    generateSignedRemainderCode urem dividend divisor = some (dividend.srem divisor) := by
  unfold generateSignedRemainderCode
  dsimp only
  rw [sign_eq hw, sign_eq hw, xor_sub_sign, xor_sub_sign, hurem _ _ (abs_ne_zero hd _),
    bind_eq_bind, bind_some, xor_sub_sign, srem_eq]
  cases divisor.msb <;> cases dividend.msb <;> rfl

/-! ## Both widths and the narrower ones -/

theorem expandDivision_eq {op : Opcode} (hw : w = 32 ∨ w = 64) (hfuel : w ≤ fuel)
    (hd : divisor ≠ 0#w) (hop : op = .UDiv ∨ op = .SDiv) :
    expandDivision undef undef' fuel op dividend divisor = some (op.eval dividend divisor) := by
  have hpos : 0 < w := by omega
  unfold expandDivision
  rw [if_pos hw]
  rcases hop with rfl | rfl
  · exact generateUnsignedDivisionCode_eq hpos hfuel hd
  · exact generateSignedDivisionCode_eq hpos hd fun x y hy =>
      generateUnsignedDivisionCode_eq hpos hfuel hy

theorem expandRemainder_eq {op : Opcode} (hw : w = 32 ∨ w = 64) (hfuel : w ≤ fuel)
    (hd : divisor ≠ 0#w) (hop : op = .URem ∨ op = .SRem) :
    expandRemainder undef undef' fuel op dividend divisor = some (op.eval dividend divisor) := by
  have hurem (x y : BitVec w) (hy : y ≠ 0#w) :
      generatedUnsignedRemainderCode (expandDivision undef undef' fuel .UDiv) x y = some (x % y) :=
    generatedUnsignedRemainderCode_eq (expandDivision_eq hw hfuel hy (.inl rfl))
  unfold expandRemainder
  rw [if_pos hw]
  rcases hop with rfl | rfl
  · exact hurem _ _ hd
  · exact generateSignedRemainderCode_eq (by omega) hd hurem

theorem setWidth_eq_of_toInt {v : Nat} {x : BitVec v} {y : BitVec w} (h : w ≤ v) {z : Int}
    (hx : x.toInt = z.bmod (2 ^ v)) (hy : y.toInt = z.bmod (2 ^ w)) : x.setWidth w = y := by
  have hdvd : 2 ^ w ∣ 2 ^ v := Nat.pow_dvd_pow 2 h
  refine eq_of_toInt_eq ?_
  rw [hy, toInt_setWidth, ← Int.bmod_bmod_of_dvd hdvd, ← toInt_eq_toNat_bmod, hx,
    Int.bmod_bmod_of_dvd hdvd]

theorem eval_ext {v : Nat} (h : w ≤ v) (op : Opcode) (isSigned : Bool)
    (hsigned : isSigned = true ↔ op = .SDiv ∨ op = .SRem) :
    (op.eval (if isSigned then dividend.signExtend v else dividend.setWidth v)
      (if isSigned then divisor.signExtend v else divisor.setWidth v)).setWidth w =
      op.eval dividend divisor := by
  cases op with
  | UDiv =>
    rw [show isSigned = false by simpa using hsigned]
    refine eq_of_toNat_eq ?_
    have hle := Nat.div_le_self dividend.toNat divisor.toNat
    simp only [Opcode.eval, Bool.false_eq_true, if_false, toNat_setWidth, toNat_udiv,
      toNat_setWidth_of_le h]
    exact Nat.mod_eq_of_lt (by omega)
  | URem =>
    rw [show isSigned = false by simpa using hsigned]
    refine eq_of_toNat_eq ?_
    have hle := Nat.mod_le dividend.toNat divisor.toNat
    simp only [Opcode.eval, Bool.false_eq_true, if_false, toNat_setWidth, toNat_umod,
      toNat_setWidth_of_le h]
    exact Nat.mod_eq_of_lt (by omega)
  | SDiv =>
    rw [if_pos (hsigned.mpr (.inl rfl)), if_pos (hsigned.mpr (.inl rfl))]
    refine setWidth_eq_of_toInt h (toInt_sdiv _ _) ?_
    rw [toInt_signExtend_of_le h, toInt_signExtend_of_le h]
    exact toInt_sdiv _ _
  | SRem =>
    rw [if_pos (hsigned.mpr (.inr rfl)), if_pos (hsigned.mpr (.inr rfl))]
    refine setWidth_eq_of_toInt h (toInt_bmod_cancel _).symm ?_
    show (dividend.srem divisor).toInt =
      ((dividend.signExtend v).srem (divisor.signExtend v)).toInt.bmod (2 ^ w)
    rw [toInt_srem (dividend.signExtend v), toInt_signExtend_of_le h, toInt_signExtend_of_le h,
      ← toInt_srem, toInt_bmod_cancel]

theorem ext_ne_zero {v : Nat} (h : w ≤ v) (hd : divisor ≠ 0#w) (isSigned : Bool) :
    (if isSigned then divisor.signExtend v else divisor.setWidth v) ≠ 0#v := by
  intro hzero
  cases isSigned with
  | false =>
    have hnat := congrArg BitVec.toNat hzero
    simp only [Bool.false_eq_true, if_false, toNat_setWidth_of_le h] at hnat
    exact hd (eq_of_toNat_eq (by simpa using hnat))
  | true =>
    have hint := congrArg BitVec.toInt hzero
    simp only [if_true, toInt_signExtend_of_le h] at hint
    exact hd (eq_of_toInt_eq (by simpa using hint))

theorem expandUpTo_eq {v : Nat} (h : w ≤ v) (hd : divisor ≠ 0#w) (op : Opcode) {isSigned : Bool}
    (hsigned : isSigned = true ↔ op = .SDiv ∨ op = .SRem)
    {expandNarrow : BitVec w → BitVec w → Option (BitVec w)}
    {expandWide : BitVec v → BitVec v → Option (BitVec v)}
    (hnarrow : w = v → expandNarrow dividend divisor = some (op.eval dividend divisor))
    (hwide : ∀ x y, y ≠ 0#v → expandWide x y = some (op.eval x y)) :
    expandUpTo v isSigned expandNarrow expandWide dividend divisor =
      some (op.eval dividend divisor) := by
  unfold expandUpTo
  rw [if_neg (Nat.not_lt.mpr h)]
  by_cases heq : w = v
  · rw [if_pos heq, hnarrow heq]
  · rw [if_neg heq]
    dsimp only
    rw [hwide _ _ (ext_ne_zero h hd isSigned), map_some, eval_ext h op isSigned hsigned]

theorem expandUpTo_eval {v : Nat} (hv : v = 32 ∨ v = 64) (hfuel : v ≤ fuel) (h : w ≤ v)
    (hd : divisor ≠ 0#w) (undef undef' : BitVec v) (op : Opcode) :
    (op = .UDiv ∨ op = .SDiv → expandDivisionUpTo v undef undef' fuel op dividend divisor =
      some (op.eval dividend divisor)) ∧
    (op = .URem ∨ op = .SRem → expandRemainderUpTo v undef undef' fuel op dividend divisor =
      some (op.eval dividend divisor)) :=
  ⟨fun hop => expandUpTo_eq h hd op (by rcases hop with rfl | rfl <;> decide)
      (fun heq => expandDivision_eq (heq ▸ hv) (heq ▸ hfuel) hd hop)
      fun _ _ hy => expandDivision_eq hv hfuel hy hop,
    fun hop => expandUpTo_eq h hd op (by rcases hop with rfl | rfl <;> decide)
      (fun heq => expandRemainder_eq (heq ▸ hv) (heq ▸ hfuel) hd hop)
      fun _ _ hy => expandRemainder_eq hv hfuel hy hop⟩

/-- What is generated ends and computes the operation, at 32 and 64 bits and at every narrower
width, for every value that counting the leading zeros of zero gives. This includes the signed
minimum divided by -1, where the quotient wraps. -/
theorem expands (op : Opcode) (hd : divisor ≠ 0#w) (hfuel : 64 ≤ fuel) :
    (w = 32 ∨ w = 64 → ∀ undef undef' : BitVec w, (op = .UDiv ∨ op = .SDiv →
        expandDivision undef undef' fuel op dividend divisor = some (op.eval dividend divisor)) ∧
      (op = .URem ∨ op = .SRem →
        expandRemainder undef undef' fuel op dividend divisor = some (op.eval dividend divisor))) ∧
    (w ≤ 32 → ∀ undef undef' : BitVec 32,
      (op = .UDiv ∨ op = .SDiv → expandDivisionUpTo32Bits undef undef' fuel op dividend divisor =
        some (op.eval dividend divisor)) ∧
      (op = .URem ∨ op = .SRem → expandRemainderUpTo32Bits undef undef' fuel op dividend divisor =
        some (op.eval dividend divisor))) ∧
    (w ≤ 64 → ∀ undef undef' : BitVec 64,
      (op = .UDiv ∨ op = .SDiv → expandDivisionUpTo64Bits undef undef' fuel op dividend divisor =
        some (op.eval dividend divisor)) ∧
      (op = .URem ∨ op = .SRem → expandRemainderUpTo64Bits undef undef' fuel op dividend divisor =
        some (op.eval dividend divisor))) :=
  ⟨fun hw _ _ => ⟨expandDivision_eq hw (by omega) hd, expandRemainder_eq hw (by omega) hd⟩,
    fun h _ _ => expandUpTo_eval (.inl rfl) (by omega) h hd _ _ op,
    fun h _ _ => expandUpTo_eval (.inr rfl) hfuel h hd _ _ op⟩

theorem expands_byte :
    expandDivisionUpTo32Bits 0#32 0#32 64 .SDiv 0x9c#8 0x07#8 = some 0xf2#8 :=
  (((expands .SDiv (by decide) le_rfl).2.1 (by decide)) 0#32 0#32).1 (.inr rfl)

end Zapcc.IntegerDivision
