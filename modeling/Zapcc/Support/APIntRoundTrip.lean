import Zapcc.Support.APIntText

/-!
# Reading what was written

Each of the three loops of `toString` writes the digits of the magnitude. `fromString_toString` says
that `fromString` gives the value back.
-/

namespace Zapcc.APInt

open DivideWords DigitStrings List Option

variable {w : Nat}

section

variable {i : Nat} {h : Heap} {x : BitVec w} {hw : 0 < w} {RHS : WordType}

theorem udivremWord_inPlace (hi : h i = ⟨w, x, hw⟩) (hRHS : RHS ≠ 0#64) :
    ∃ h' rem, udivremWord i RHS i h = some (h', rem) ∧
      h' i = ⟨w, BitVec.ofNat w (x.toNat / RHS.toNat), hw⟩ ∧ rem.toNat = x.toNat % RHS.toNat := by
  have hpos := toNat_pos hRHS
  have hcopy : (if RHS = 1#64 then h.set i ⟨w, x, hw⟩ else h) i = ⟨w, x, hw⟩ := by
    split_ifs
    · rw [Heap.set_same]
    · exact hi
  have hnative : ∀ {y : WordType}, nativeDiv y RHS = some (y / RHS) ∧
      nativeRem y RHS = some (y % RHS) := ⟨if_neg hRHS, if_neg hRHS⟩
  unfold udivremWord
  dsimp only
  rw [hi, if_neg hRHS]
  rw [hcopy]
  dsimp only
  by_cases hsingle : w ≤ 64
  · have hx := isLt_of_le (x := x) hsingle
    rw [if_pos hsingle, hnative.1, hnative.2]
    refine ⟨_, _, rfl, ?_, ?_⟩
    · rw [Heap.set_same, ofWord, BitVec.toNat_udiv, toNat_lowWord hx]
    · rw [BitVec.toNat_umod, toNat_lowWord hx]
  · rw [if_neg hsingle]
    by_cases hzero : getNumWords (getActiveBits x) = 0
    · have hx : x.toNat = 0 := by
        rw [getNumWords_eq_zero.mp hzero, BitVec.toNat_zero]
      rw [if_pos hzero, hx]
      refine ⟨_, _, rfl, ?_, ?_⟩
      · rw [Heap.set_same, Object.assignWord_eq rfl, ofWord, Nat.zero_div]
        rfl
      · rw [Nat.zero_mod]
        rfl
    · rw [if_neg hzero]
      rcases Nat.lt_trichotomy x.toNat RHS.toNat with hlt | heq | hgt
      · rw [if_pos hlt, Nat.div_eq_of_lt hlt, Nat.mod_eq_of_lt hlt]
        refine ⟨_, _, rfl, ?_, toNat_lowWord (hlt.trans RHS.isLt)⟩
        rw [Heap.set_same]
        rfl
      · rw [if_neg (by omega), if_pos heq, heq, Nat.div_self hpos, Nat.mod_self]
        refine ⟨_, _, rfl, ?_, rfl⟩
        rw [Heap.set_same]
        rfl
      · rw [if_neg (by omega), if_neg (by omega), Object.reallocate_self rfl, Heap.set_same]
        by_cases hlow : getNumWords (getActiveBits x) = 1
        · have hx : x.toNat < 2 ^ 64 := by
            exact lt_of_getNumWords hlow.le
          rw [if_pos hlow, hnative.1, hnative.2]
          refine ⟨_, _, rfl, ?_, ?_⟩
          · rw [Heap.set_same, Object.assignWord_eq rfl, ofWord, BitVec.toNat_udiv,
              toNat_lowWord hx]
          · rw [BitVec.toNat_umod, toNat_lowWord hx]
        · have hvalue : Digits.value [RHS] = RHS.toNat := by
            rw [Digits.value, Digits.value, Nat.mul_zero, Nat.add_zero]
          have hwords := value_words (x := x) (lt_of_getNumWords (Nat.le_refl _))
          obtain ⟨Q, R, hdivide, -, hlength, hquot, hrem⟩ := @divide_spec
            ((words x).take (getNumWords (getActiveBits x))) [RHS]
            (by rw [hvalue]; exact hpos) (by rw [hvalue, hwords]; exact hgt.le)
          obtain ⟨r, rfl⟩ := List.length_eq_one_iff.mp hlength
          rw [hwords, hvalue] at hquot hrem
          rw [if_neg hlow, hdivide]
          refine ⟨_, _, rfl, ?_, ?_⟩
          · rw [Heap.set_same, Object.setWords_eq rfl, hquot]
          · rw [← hrem, Digits.value, Digits.value, Nat.mul_zero, Nat.add_zero, headD_cons]

end

section

variable {Radix : Nat}

theorem ValidRadix.mod_lt (hradix : ValidRadix Radix) (N : Nat) : N % Radix < 36 :=
  (Nat.mod_lt N (Nat.zero_lt_of_lt hradix.one_lt)).trans_le hradix.le

theorem wordLoop_eq (hradix : ValidRadix Radix) {fuel N : Nat} {Buffer : List Char}
    (hfuel : N < fuel) (hroom : (write letter Radix N).length + Buffer.length ≤ 65) :
    wordLoop Radix fuel N Buffer = some (write letter Radix N ++ Buffer) := by
  induction fuel generalizing N Buffer with
  | zero => omega
  | succ fuel ih =>
    rw [wordLoop]
    by_cases hN : N = 0
    · rw [if_pos hN, hN, write_zero, nil_append]
    · have happend := write_eq_append letter hradix.one_lt hN
      have hsmaller := Nat.div_lt_self (Nat.pos_of_ne_zero hN) hradix.one_lt
      have hmod := hradix.mod_lt N
      rw [happend, length_append, length_singleton] at hroom
      rw [if_neg hN, if_neg (by omega), getElem?_digits hmod, bind_eq_bind,
        bind_some, ih (by omega) (by rw [length_cons]; omega), happend,
        append_assoc, singleton_append]

theorem reverse_write {N : Nat} (hradix : ValidRadix Radix) (hN : N ≠ 0) :
    (write letter Radix N).reverse =
      [letter (N % Radix)] ++ (write letter Radix (N / Radix)).reverse := by
  rw [write_eq_append letter hradix.one_lt hN, reverse_append, reverse_singleton]

theorem lowWord_and_mask {s : Nat} (hs : s ≤ 32) (x : BitVec w) :
    (lowWord x).toNat % 2 ^ 32 &&& (2 ^ s - 1) = x.toNat % 2 ^ s := by
  rw [Nat.and_two_pow_sub_one_eq_mod, lowWord, BitVec.toNat_setWidth,
    Nat.mod_mod_of_dvd _ (Nat.pow_dvd_pow 2 hs),
    Nat.mod_mod_of_dvd _ (Nat.pow_dvd_pow 2 (hs.trans (by decide)))]

theorem shiftLoop_eq {s fuel : Nat} {Tmp : BitVec w} {Str : List Char} (hradix : ValidRadix Radix)
    (hpow : 2 ^ s = Radix) (hs : s ≤ 32) (hsw : s ≤ w) (hfuel : Tmp.toNat < fuel) :
    shiftLoop s (Radix - 1) fuel Tmp Str =
      some (Str ++ (write letter Radix Tmp.toNat).reverse) := by
  induction fuel generalizing Tmp Str with
  | zero => omega
  | succ fuel ih =>
    rw [shiftLoop]
    by_cases hTmp : Tmp = 0#w
    · rw [if_pos hTmp, hTmp, BitVec.toNat_zero, write_zero, reverse_nil, append_nil]
    · have hpos := toNat_pos hTmp
      have hshift : (Tmp >>> s).toNat = Tmp.toNat / Radix := by
        rw [BitVec.toNat_ushiftRight, Nat.shiftRight_eq_div_pow, hpow]
      have hsmaller := Nat.div_lt_self hpos hradix.one_lt
      have hmod := hradix.mod_lt Tmp.toNat
      have hdigit : (lowWord Tmp).toNat % 2 ^ 32 &&& (Radix - 1) = Tmp.toNat % Radix := by
        rw [← hpow, lowWord_and_mask hs]
      rw [if_neg hTmp, hdigit]
      dsimp only
      rw [getElem?_digits hmod, bind_eq_bind, bind_some, lshrInPlace,
        if_neg (by omega), bind_eq_bind, bind_some, ih (by rw [hshift]; omega),
        hshift, reverse_write (N := Tmp.toNat) hradix hpos.ne', append_assoc]

theorem divideLoop_eq {fuel : Nat} {h : Heap} {x : BitVec w} {hw : 0 < w} {Str : List Char}
    (hradix : ValidRadix Radix) (hx : h 0 = ⟨w, x, hw⟩) (hfuel : x.toNat < fuel) :
    divideLoop Radix fuel h Str = some (Str ++ (write letter Radix x.toNat).reverse) := by
  induction fuel generalizing h x Str with
  | zero => omega
  | succ fuel ih =>
    rw [divideLoop, hx]
    dsimp only
    by_cases hzero : x.toNat = 0
    · rw [if_pos hzero, hzero, write_zero, reverse_nil, append_nil]
    · have hone := hradix.one_lt
      have hword : (BitVec.ofNat 64 Radix).toNat = Radix := by
        have := hradix.le
        rw [BitVec.toNat_ofNat, Nat.mod_eq_of_lt (by omega)]
      have hne : BitVec.ofNat 64 Radix ≠ 0#64 := by
        rw [ne_eq, ← BitVec.toNat_inj, hword, BitVec.toNat_zero]
        omega
      obtain ⟨h', rem, hdivrem, hquot, hrem⟩ := udivremWord_inPlace hx hne
      rw [hword] at hquot hrem
      have hsmaller := Nat.div_lt_self (Nat.pos_of_ne_zero hzero) hone
      have hnext : (BitVec.ofNat w (x.toNat / Radix)).toNat = x.toNat / Radix := by
        rw [BitVec.toNat_ofNat, Nat.mod_eq_of_lt (hsmaller.trans x.isLt)]
      have hdigit : x.toNat % Radix < Radix := Nat.mod_lt _ (by omega)
      rw [if_neg hzero, hdivrem, bind_eq_bind, bind_some]
      rw [hrem, if_neg (by omega), getElem?_digits (hradix.mod_lt x.toNat),
        bind_eq_bind, bind_some, ih hquot (by omega), hnext,
        reverse_write (N := x.toNat) hradix hzero, append_assoc]

end

theorem digitLoop_eq {Radix : Nat} {hw : 0 < w} {Tmp : BitVec w} {Str : List Char}
    (hradix : ValidRadix Radix) (hwide : 64 < w) :
    digitLoop hw Radix Tmp Str = some (Str ++ (write letter Radix Tmp.toNat).reverse) := by
  unfold digitLoop
  by_cases hshift : Radix = 2 ∨ Radix = 8 ∨ Radix = 16
  · rcases hshift with rfl | rfl | rfl
    · exact shiftLoop_eq (s := 1) hradix rfl (by decide) (by omega) (Nat.lt_succ_self _)
    · exact shiftLoop_eq (s := 3) hradix rfl (by decide) (by omega) (Nat.lt_succ_self _)
    · exact shiftLoop_eq (s := 4) hradix rfl (by decide) (by omega) (Nat.lt_succ_self _)
  · rw [if_neg hshift]
    exact divideLoop_eq hradix rfl (Nat.lt_succ_self _)

def writtenSign (Signed : Bool) (x : BitVec w) : List Char := if Signed && x.msb then ['-'] else []

/-- The number that is written behind the sign. -/
def writtenNumber (Signed : Bool) (x : BitVec w) : Nat :=
  if Signed && x.msb then (-x).toNat else x.toNat

section

variable {Radix : Nat} {Signed : Bool} {x : BitVec w}

theorem toNat_signExtended (hw : 0 < w) (hsingle : w ≤ 64) (x : BitVec w) :
    (x.signExtend 64).msb = x.msb ∧
      ((if (x.signExtend 64).msb then -x.signExtend 64 else x.signExtend 64).toNat =
        if x.msb then (-x).toNat else x.toNat) := by
  have hmsb : (x.signExtend 64).msb = x.msb := by
    rw [BitVec.msb_signExtend]
    by_cases hword : w ≥ 64
    · have hfull : w - 64 = 0 := by omega
      simp [hword, hfull, BitVec.msb]
    · simp [hword]
  refine ⟨hmsb, ?_⟩
  have hpow : 2 ^ w ≤ 2 ^ 64 := Nat.pow_le_pow_right (by decide) hsingle
  have hvalue := BitVec.toNat_signExtend x (v := 64)
  rw [BitVec.toNat_setWidth, Nat.mod_eq_of_lt (by omega)] at hvalue
  rw [hmsb]
  cases hsign : x.msb with
  | false =>
    rw [hsign] at hvalue
    simpa using hvalue
  | true =>
    have hlow : 0 < x.toNat := by
      rw [BitVec.msb_eq_decide, decide_eq_true_eq] at hsign
      exact (Nat.two_pow_pos _).trans_le hsign
    rw [hsign, if_pos rfl] at hvalue
    rw [if_pos rfl, if_pos rfl, BitVec.toNat_neg, BitVec.toNat_neg, hvalue,
      Nat.mod_eq_of_lt (by omega), Nat.mod_eq_of_lt (by omega)]
    omega

theorem toString_eq (hw : 0 < w) (hradix : ValidRadix Radix) (hx : x ≠ 0#w) (Str : List Char) :
    toString hw Str Radix Signed false x =
      some (Str ++ writtenSign Signed x ++ write letter Radix (writtenNumber Signed x)) := by
  unfold toString
  rw [if_neg (by simpa using hradix), if_neg (by decide), bind_eq_bind, bind_some]
  dsimp only
  rw [if_neg hx]
  by_cases hsingle : w ≤ 64
  · obtain ⟨hmsb, hnumber⟩ := toNat_signExtended hw hsingle x
    have hN : (if Signed then if (x.signExtend 64).msb then -x.signExtend 64 else x.signExtend 64
        else lowWord x).toNat = writtenNumber Signed x := by
      unfold writtenNumber
      cases Signed with
      | false => simpa using toNat_lowWord (isLt_of_le hsingle)
      | true => simpa using hnumber
    have hlength := length_write_le letter hradix.one_lt
      (show writtenNumber Signed x < 2 ^ 64 by rw [← hN]; exact BitVec.isLt _)
    rw [if_pos hsingle, hN,
      wordLoop_eq hradix (Nat.lt_succ_self _) (by rw [length_nil]; omega), bind_some,
      hmsb, append_nil, append_nil, writtenSign]
    split_ifs <;> simp
  · have hN : (if Signed && x.msb then -x else x).toNat = writtenNumber Signed x := by
      unfold writtenNumber
      split_ifs <;> rfl
    have hsign : (if Signed && x.msb then Str ++ ['-'] else Str) = Str ++ writtenSign Signed x := by
      unfold writtenSign
      split_ifs <;> simp
    rw [if_neg hsingle, digitLoop_eq hradix (by omega), bind_some, hN, hsign,
      append_nil, take_left, drop_left, reverse_reverse]

/-- The bits of all digits but one are fewer than the width. -/
def DigitsFit (w slen radix : Nat) : Prop := ∀ k, 2 ^ k ≤ radix → k * (slen - 1) < w

theorem DigitsFit.widthSuffices {slen : Nat} (h : DigitsFit w slen Radix) :
    widthSuffices w slen Radix = true := by
  rw [APInt.widthSuffices, decide_eq_true_eq]
  refine ⟨?_, ?_, ?_, ?_⟩
  · by_cases heq : Radix = 2
    · have := h 1 (by omega)
      omega
    · exact .inr heq
  · by_cases heq : Radix = 8
    · have := h 3 (by omega)
      omega
    · exact .inr heq
  · by_cases heq : Radix = 16
    · have := h 4 (by omega)
      omega
    · exact .inr heq
  · by_cases heq : Radix = 10
    · have := h 3 (by omega)
      omega
    · exact .inr heq

theorem DigitsFit.digitShift_le {slen : Nat} (h : DigitsFit w slen Radix)
    (hradix : ValidRadix Radix) (hslen : 1 < slen) : digitShift Radix ≤ w := by
  by_cases hzero : digitShift Radix = 0
  · omega
  · have hlt := h _ (two_pow_digitShift hradix hzero).le
    have hle := Nat.le_mul_of_pos_right (digitShift Radix) (show 0 < slen - 1 by omega)
    omega

theorem withoutSign_digits {p : List Char} (hradix : ValidRadix Radix) (hp : AreDigits Radix p) :
    withoutSign p = p ∧ hasMinus p = false := by
  obtain ⟨hminus, hplus⟩ := le_getDigit_sign hradix
  have hhead : ∀ c, p.head? = some c → getDigit c Radix < Radix := fun c hc =>
    hp c (mem_of_mem_head? hc)
  have hnot : ∀ c, Radix ≤ getDigit c Radix → p.head? ≠ some c := fun c hle heq => by
    have := hhead c heq
    omega
  exact ⟨if_neg (not_or.mpr ⟨hnot _ hminus, hnot _ hplus⟩), decide_eq_false (hnot _ hminus)⟩

theorem fromString_write (hw : 0 < w) (hradix : ValidRadix Radix) {N : Nat} (hN : N ≠ 0)
    (hlt : N < 2 ^ w) :
    fromString w (writtenSign Signed x ++ write letter Radix N) Radix = some
      (if Signed && x.msb then -BitVec.ofNat w N else BitVec.ofNat w N) := by
  have hone := hradix.one_lt
  have hdigits : AreDigits Radix (write letter Radix N) := by
    intro c hc
    obtain ⟨d, hd, rfl⟩ := exists_of_mem_write hone hc
    rw [getDigit_letter hradix d hd]
    exact hd
  have hfit : DigitsFit w (write letter Radix N).length Radix := fun k hk =>
    mul_length_write_lt letter hone hN hk hlt
  have hvalue : textValue Radix (write letter Radix N) = N :=
    value_write (getDigit_letter hradix) hone N
  have hparts : withoutSign (writtenSign Signed x ++ write letter Radix N) = write letter Radix N ∧
      hasMinus (writtenSign Signed x ++ write letter Radix N) = (Signed && x.msb) := by
    unfold writtenSign
    cases Signed && x.msb with
    | false => exact withoutSign_digits hradix hdigits
    | true => exact ⟨rfl, rfl⟩
  have hread := fromString_eq (writtenSign Signed x ++ write letter Radix N) hw hradix
  rw [hparts.1, hparts.2, hvalue] at hread
  exact hread (write_ne_nil letter hN) hdigits hfit.widthSuffices (hfit.digitShift_le hradix)

/-- What `toString` writes is read back by `fromString`. -/
theorem fromString_toString (hw : 0 < w) (hradix : ValidRadix Radix) (Signed : Bool)
    (x : BitVec w) :
    ∃ str, toString hw [] Radix Signed false x = some str ∧ fromString w str Radix = some x := by
  by_cases hx : x = 0#w
  · subst hx
    have hwritten : toString hw [] Radix Signed false 0#w = some ['0'] := by
      unfold toString
      rw [if_neg (by simpa using hradix), if_neg (by decide), bind_eq_bind, bind_some]
      exact if_pos rfl
    have hdigit : getDigit '0' Radix = 0 := by
      rcases hradix with rfl | rfl | rfl | rfl | rfl <;> decide
    have hfit : DigitsFit w 1 Radix := fun k _ => by omega
    have hdigits : AreDigits Radix ['0'] := by
      intro c hc
      rw [List.mem_singleton.mp hc, hdigit]
      exact Nat.zero_lt_of_lt hradix.one_lt
    have hvalue : textValue Radix ['0'] = 0 := by
      rw [textValue, value, foldl_cons, foldl_nil, Nat.zero_mul, Nat.zero_add, hdigit]
    obtain ⟨hwithout, hminus⟩ := withoutSign_digits hradix hdigits
    have hread := fromString_eq ['0'] hw hradix
    rw [hwithout, hminus, hvalue] at hread
    exact ⟨_, hwritten, hread (cons_ne_nil _ _) hdigits hfit.widthSuffices
      (hfit.digitShift_le hradix)⟩
  · have hN : writtenNumber Signed x ≠ 0 ∧ writtenNumber Signed x < 2 ^ w := by
      unfold writtenNumber
      split_ifs
      · exact ⟨(toNat_pos (neg_ne_zero hx)).ne', BitVec.isLt _⟩
      · exact ⟨(toNat_pos hx).ne', BitVec.isLt _⟩
    refine ⟨_, toString_eq hw hradix hx [], ?_⟩
    rw [nil_append, fromString_write hw hradix hN.1 hN.2, writtenNumber]
    split_ifs
    · rw [BitVec.ofNat_toNat, BitVec.setWidth_eq, BitVec.neg_neg]
    · rw [BitVec.ofNat_toNat, BitVec.setWidth_eq]

end

theorem fromString_toString_negative :
    ∃ str, toString (show 0 < 8 by decide) [] 36 true false 200#8 = some str ∧
      fromString 8 str 36 = some 200#8 :=
  fromString_toString (by decide) (by decide) true 200#8

end Zapcc.APInt
