import Zapcc.Support.APIntStorage

/-!
# The insertion and the extraction of bits

`insertBits` and `extractBits` on the storage of values. `CopiesBits` says that they do what they
should, and `copiesBits_iff` when: a result of at most 64 bits whose bits lie in two words of the
source is stored in a word, but written as an array.
-/

namespace Zapcc.APInt

open DivideWords Stored List Nat Option

variable {w k : Nat}

/-- The value with other bits from a position on. -/
def replaceBits (x : BitVec w) (y : BitVec k) (bitPosition : Nat) : BitVec w :=
  x &&& ~~~((BitVec.allOnes k).setWidth w <<< bitPosition) ||| y.setWidth w <<< bitPosition

/-- The bits when others are put in their place from a position on. -/
def replaced (bitPosition count : Nat) (sub bits : Nat → Bool) (i : Nat) : Bool :=
  if bitPosition ≤ i ∧ i < bitPosition + count then sub (i - bitPosition) else bits i

variable {p : Nat}

theorem getLsbD_replaceBits {x : BitVec w} {y : BitVec k} (h : k + p ≤ w) (i : Nat) :
    (replaceBits x y p).getLsbD i = replaced p k y.getLsbD x.getLsbD i := by
  unfold replaceBits replaced
  by_cases hi : i < w
  · simp only [BitVec.getLsbD_or, BitVec.getLsbD_and, BitVec.getLsbD_not,
      BitVec.getLsbD_shiftLeft, BitVec.getLsbD_setWidth, BitVec.getLsbD_allOnes]
    by_cases hp : i < p
    · simp [hi, hp]
    · by_cases hk : i - p < k
      · rw [if_pos (by omega)]
        simp [hi, hp, hk, show i - p < w by omega]
      · rw [if_neg (by omega), BitVec.getLsbD_of_ge y _ (by omega)]
        simp [hi, hp, hk]
  · rw [BitVec.getLsbD_of_ge _ _ (not_lt.mp hi), if_neg (by omega),
      BitVec.getLsbD_of_ge _ _ (not_lt.mp hi)]

theorem extractLsb'_replaceBits {x : BitVec w} {y : BitVec k} (h : k + p ≤ w) :
    (replaceBits x y p).extractLsb' p k = y := by
  refine BitVec.eq_of_getLsbD_eq fun i hi => ?_
  rw [BitVec.getLsbD_extractLsb', getLsbD_replaceBits h, replaced, if_pos (by omega),
    decide_eq_true hi, Bool.true_and, Nat.add_sub_cancel_left]

namespace Stored

variable {q index : Nat} {bits sub : Nat → Bool} {this subBits : Stored}

theorem Holds.getWord (h : Holds this w bits) (hw : 0 < w) (hq : q < w) :
    ∃ word, this.getWord q = some word ∧
      ∀ b, b < 64 → word.getLsbD b = bits (64 * (q / 64) + b) := by
  by_cases hsingle : w ≤ 64
  · obtain ⟨word, rfl, hword⟩ := h.exists_VAL hsingle
    refine ⟨word, ?_, fun b _ => ?_⟩
    · unfold Stored.getWord
      rw [isSingleWord, if_pos (decide_eq_true hsingle)]
      rfl
    · rw [hword, div_eq_of_lt (by omega), Nat.mul_zero, Nat.zero_add]
  · obtain ⟨words, rfl, hlength, hwords⟩ := h.exists_pVal (not_le.mp hsingle)
    have hlt : q / 64 < words.length := by
      rw [hlength, getNumWords]
      omega
    refine ⟨words[q / 64], ?_, fun b hb => ?_⟩
    · unfold Stored.getWord
      rw [isSingleWord, if_neg (by simpa using hsingle)]
      exact getElem?_eq_getElem hlt
    · rw [← hwords, Digits.bit_mul_add _ hb, getD_eq_getElem _ _ hlt]

theorem Holds.testBit (h : Holds this w bits) (hw : 0 < w) (hq : q < w) :
    this.testBit q = some (bits q) := by
  obtain ⟨word, hword, hbits⟩ := h.getWord hw hq
  have hlt : q % 64 < 64 := mod_lt q (by decide)
  have hand : maskBit q &&& word ≠ 0#64 ↔ bits q = true := by
    rw [maskBit, whichBit, ← BitVec.twoPow_eq, BitVec.twoPow_and, ← div_add_mod q 64,
      ← hbits _ hlt, div_add_mod]
    split
    · next hbit =>
      refine iff_of_true (fun hzero => ?_) hbit
      have hbitOfZero := congrArg (BitVec.getLsbD · (q % 64)) hzero
      simp [hlt] at hbitOfZero
    · next hbit => simpa using hbit
  unfold Stored.testBit
  rw [h.width, if_neg (not_le.mpr hq), hword, map_some]
  simp only [hand, Bool.decide_eq_true]

theorem Holds.setBit (h : Holds this w bits) (hq : q < w) :
    ∃ next, this.setBit q = some next ∧ Holds next w (fun i => if i = q then true else bits i) := by
  obtain ⟨next, hnext, hholds⟩ := h.updateAt hq (bitwise_or (maskBit q))
  refine ⟨next, ?_, hholds.congr fun i => ?_⟩
  · rw [Stored.setBit, h.width, if_neg (by omega)]
    exact hnext
  · unfold updated
    dsimp only
    rw [getLsbD_maskBit]
    split_ifs with hword hi hi
    · rw [hi, decide_eq_true rfl, Bool.or_true]
    · rw [decide_eq_false (by omega), Bool.or_false]
    · exact absurd (congrArg (· / 64) hi) hword
    · rfl

theorem Holds.clearBit (h : Holds this w bits) (hq : q < w) :
    ∃ next, this.clearBit q = some next ∧
      Holds next w (fun i => if i = q then false else bits i) := by
  obtain ⟨next, hnext, hholds⟩ := h.updateAt hq (bitwise_and (~~~maskBit q))
  refine ⟨next, ?_, hholds.congr fun i => ?_⟩
  · rw [Stored.clearBit, h.width, if_neg (by omega)]
    exact hnext
  · unfold updated
    dsimp only
    rw [BitVec.getLsbD_not, getLsbD_maskBit, decide_eq_true (mod_lt i (by decide)), Bool.true_and]
    split_ifs with hword hi hi
    · rw [hi, decide_eq_true rfl, Bool.not_true, Bool.and_false]
    · rw [decide_eq_false (by omega), Bool.not_false, Bool.and_true]
    · exact absurd (congrArg (· / 64) hi) hword
    · rfl

theorem Holds.putBit (h : Holds this w bits) (hq : q < w) (bit : Bool) :
    ∃ next, this.putBit bit q = some next ∧
      Holds next w (fun i => if i = q then bit else bits i) := by
  cases bit with
  | false => exact h.clearBit hq
  | true => exact h.setBit hq

theorem insertLoop_spec (hsub : Holds subBits k sub) (hk : 0 < k) (hp : k + p ≤ w)
    {count : Nat} (hcount : count ≤ k) (h : Holds this w bits) :
    ∃ next, insertLoop subBits p count this = some next ∧ Holds next w (fun i =>
        if p + (k - count) ≤ i ∧ i < p + k then sub (i - p) else bits i) := by
  induction count generalizing this bits with
  | zero =>
    refine ⟨this, rfl, h.congr fun i => ?_⟩
    rw [if_neg (by omega)]
  | succ count ih =>
    have htest := hsub.testBit hk (show k - (count + 1) < k by omega)
    obtain ⟨middle, hmiddle, hholds⟩ :=
      h.putBit (q := p + (k - (count + 1))) (by omega) (sub (k - (count + 1)))
    obtain ⟨next, hnext, hlast⟩ := ih (by omega) hholds
    refine ⟨next, ?_, hlast.congr fun i => ?_⟩
    · rw [insertLoop, hsub.width]
      simp only [htest, hmiddle, hnext, bind_eq_bind, bind_some]
    · by_cases hi : i = p + (k - (count + 1))
      · rw [if_neg (by omega), if_pos hi, if_pos (by omega), hi, Nat.add_sub_cancel_left]
      · split_ifs <;> first | rfl | omega

theorem updated_replaced {y : BitVec k} {word : WordType} (hk : k ≤ 64)
    (hword : ∀ i, word.getLsbD i = y.getLsbD i) (hone : (p + k - 1) / 64 = p / 64) (hpos : 0 < k)
    (i : Nat) :
    updated (updated bits (p / 64) fun b v =>
        v && (~~~(BitVec.allOnes 64 >>> (64 - k) <<< (p % 64))).getLsbD b) (p / 64)
      (fun b v => v || (word <<< (p % 64)).getLsbD b) i = replaced p k y.getLsbD bits i := by
  unfold updated replaced
  have hlt : i % 64 < 64 := mod_lt i (by decide)
  by_cases hindex : i / 64 = p / 64
  · rw [if_pos hindex, if_pos hindex]
    dsimp only
    rw [BitVec.getLsbD_not, BitVec.getLsbD_shiftLeft,
      BitVec.getLsbD_shiftLeft, getLsbD_mask hk, hword, decide_eq_true hlt]
    by_cases hlow : p ≤ i
    · rw [decide_eq_false (show ¬i % 64 < p % 64 by omega),
        show i % 64 - p % 64 = i - p by omega]
      by_cases hhigh : i < p + k
      · rw [if_pos ⟨hlow, hhigh⟩, decide_eq_true (show i - p < k by omega)]
        simp
      · rw [if_neg (by omega), decide_eq_false (show ¬i - p < k by omega),
          BitVec.getLsbD_of_ge y _ (by omega)]
        simp
    · rw [if_neg (by omega), decide_eq_true (show i % 64 < p % 64 by omega)]
      simp
  · rw [if_neg hindex, if_neg hindex, if_neg (by omega)]

theorem Holds.copyWords {count : Nat} (h : Holds this w bits) (hw : 64 < w) {source : List WordType}
    (hindex : index + count ≤ getNumWords w) (hcount : count ≤ source.length) :
    ∃ next, this.copyWords index source count = some next ∧
      Holds next w (replaced (64 * index) (64 * count) (Digits.bit source) bits) := by
  obtain ⟨words, rfl, hlength, hwords⟩ := h.exists_pVal hw
  refine ⟨⟨w, .pVal (words.take index ++ source.take count ++ words.drop (index + count))⟩,
    if_pos ⟨hlength ▸ hindex, hcount⟩, rfl, ⟨hw, ?_⟩, fun i => ?_⟩
  · rw [length_append, length_append, length_take, length_take, length_drop]
    omega
  · change Digits.bit _ i = _
    have hfront : (words.take index).length = index := by
      rw [length_take]
      omega
    have hmiddle : (words.take index ++ source.take count).length = index + count := by
      rw [length_append, hfront, length_take]
      omega
    rw [Digits.bit_append (by decide), hmiddle, Digits.bit_append (by decide), hfront,
      Digits.bit_take (by decide), Digits.bit_take (by decide), Digits.bit_drop (by decide),
      hwords, replaced]
    split_ifs with hhigh hlow hin hin hin
    · omega
    · rw [decide_eq_true hlow, Bool.true_and]
    · rw [decide_eq_true (by omega), Bool.true_and]
    · omega
    · omega
    · rw [Nat.add_sub_cancel' (by omega), hwords]

theorem getRawData_spec (y : BitVec k) (hk : 64 < k) :
    ∃ source, (stored y).getRawData = some source ∧ source.length = getNumWords k ∧
      ∀ i, Digits.bit source i = y.getLsbD i := by
  obtain ⟨words, hstored, hlength, hwords⟩ := (holds_stored y).exists_pVal hk
  refine ⟨words, ?_, hlength, hwords⟩
  rw [hstored, getRawData, isSingleWord, if_neg (by simpa using hk)]
  rfl

theorem insertWords_spec (x : BitVec w) (y : BitVec k) (hk : 64 < k) (hp : k + p ≤ w)
    (haligned : p % 64 = 0) :
    ∃ next, (stored x).insertWords (stored y) (p / 64) ((p + k - 1) / 64) = some next ∧
      Holds next w (replaced p k y.getLsbD x.getLsbD) := by
  have hw : 64 < w := by omega
  obtain ⟨source, hsource, hlength, hbits⟩ := getRawData_spec y hk
  have hwhole : k / 64 ≤ source.length := by
    rw [hlength, getNumWords]
    omega
  have hfit : p / 64 + k / 64 ≤ getNumWords w := by
    rw [getNumWords]
    omega
  obtain ⟨copied, hcopied, hcopiedHolds⟩ := (holds_stored x).copyWords hw hfit hwhole
  have hwidth : (stored y).BitWidth = k := rfl
  unfold insertWords
  simp only [hsource, hwidth, hcopied, bind_eq_bind, bind_some]
  by_cases hrest : k % 64 = 0
  · rw [if_pos hrest]
    refine ⟨copied, rfl, hcopiedHolds.congr fun i => ?_⟩
    unfold replaced
    rw [hbits, show 64 * (p / 64) = p by omega, show 64 * (k / 64) = k by omega]
  · rw [if_neg hrest]
    have hindex : (p + k - 1) / 64 < getNumWords w := by
      rw [getNumWords]
      omega
    obtain ⟨masked, hmasked, hmaskedHolds⟩ := hcopiedHolds.updateWord hw hindex
      (bitwise_and (~~~(BitVec.allOnes 64 >>> (64 - k % 64))))
    obtain ⟨word, hword, hwordBits⟩ :=
      (holds_stored y).getWord (show 0 < k by omega) (show k - 1 < k by omega)
    obtain ⟨next, hnext, hnextHolds⟩ := hmaskedHolds.updateWord hw hindex (bitwise_or word)
    refine ⟨next, ?_, hnextHolds.congr fun i => ?_⟩
    · rw [hmasked, bind_some, hword, bind_some, hnext]
    · unfold updated
      dsimp only
      rw [BitVec.getLsbD_not, getLsbD_mask (by omega), hwordBits _ (mod_lt i (by decide)),
        decide_eq_true (mod_lt i (by decide)), Bool.true_and]
      unfold replaced
      rw [hbits, show 64 * (p / 64) = p by omega]
      by_cases hlast : i / 64 = (p + k - 1) / 64
      · rw [if_pos hlast, if_pos hlast, if_neg (show ¬(p ≤ i ∧ i < p + 64 * (k / 64)) by omega)]
        by_cases hin : i % 64 < k % 64
        · rw [if_pos (show p ≤ i ∧ i < p + k by omega), decide_eq_true hin, Bool.not_true,
            Bool.and_false, Bool.false_or]
          congr 1
          omega
        · rw [if_neg (show ¬(p ≤ i ∧ i < p + k) by omega), decide_eq_false hin,
            BitVec.getLsbD_of_ge y _ (by omega), Bool.not_false, Bool.and_true, Bool.or_false]
      · split_ifs <;> first | rfl | omega

theorem insertBits_spec (x : BitVec w) (y : BitVec k) (hk : 0 < k) (hp : k + p ≤ w) :
    (stored x).insertBits (stored y) p = some (stored (replaceBits x y p)) := by
  suffices ∃ next, (stored x).insertBits (stored y) p = some next ∧
      Holds next w (replaced p k y.getLsbD x.getLsbD) by
    obtain ⟨next, hnext, hholds⟩ := this
    rw [hnext, (hholds.congr fun i => (getLsbD_replaceBits hp i).symm).eq_stored]
  have hx := holds_stored x
  have hy := holds_stored y
  have hone : ∀ hsmall : k ≤ 64, ∃ word, (stored y).VAL = some word ∧
      ∀ i, word.getLsbD i = y.getLsbD i := fun hsmall => by
    obtain ⟨word, hstored, hword⟩ := hy.exists_VAL hsmall
    exact ⟨word, by rw [hstored]; rfl, hword⟩
  unfold insertBits
  rw [hx.width, hy.width, if_neg (by omega), isSingleWord, hx.width]
  by_cases hsame : k = w
  · subst hsame
    rw [if_pos rfl]
    refine ⟨stored y, rfl, hy.congr fun i => ?_⟩
    unfold replaced
    split
    · rw [show i - p = i by omega]
    · rw [BitVec.getLsbD_of_ge _ _ (by omega), BitVec.getLsbD_of_ge _ _ (by omega)]
  · rw [if_neg hsame]
    by_cases hsingle : w ≤ 64
    · rw [if_pos (decide_eq_true hsingle)]
      obtain ⟨word, hword, hwordBits⟩ := hone (by omega)
      have hzero : p / 64 = 0 := div_eq_of_lt (by omega)
      have hmod : p % 64 = p := mod_eq_of_lt (by omega)
      obtain ⟨masked, hmasked, hmaskedHolds⟩ := hx.updateVAL hsingle
        (bitwise_and (~~~(BitVec.allOnes 64 >>> (64 - k) <<< p)))
      obtain ⟨next, hnext, hnextHolds⟩ := hmaskedHolds.updateVAL hsingle (bitwise_or (word <<< p))
      refine ⟨next, ?_, hnextHolds.congr fun i => ?_⟩
      · simp only [hmasked, hword, hnext, bind_eq_bind, bind_some]
      · rw [← updated_replaced (by omega) hwordBits (by omega) hk i, hzero, hmod]
    · rw [if_neg (by simpa using hsingle)]
      unfold whichWord whichBit
      by_cases hword : p / 64 = (p + k - 1) / 64
      · rw [if_pos hword]
        have hindex : p / 64 < getNumWords w := by
          rw [getNumWords]
          omega
        obtain ⟨word, hsubWord, hwordBits⟩ := hone (by omega)
        obtain ⟨masked, hmasked, hmaskedHolds⟩ := hx.updateWord (not_le.mp hsingle) hindex
          (bitwise_and (~~~(BitVec.allOnes 64 >>> (64 - k) <<< (p % 64))))
        obtain ⟨next, hnext, hnextHolds⟩ := hmaskedHolds.updateWord (not_le.mp hsingle) hindex
          (bitwise_or (word <<< (p % 64)))
        refine ⟨next, ?_, hnextHolds.congr fun i => ?_⟩
        · simp only [hmasked, hsubWord, hnext, bind_eq_bind, bind_some]
        · exact updated_replaced (by omega) hwordBits hword.symm hk i
      · rw [if_neg hword]
        by_cases haligned : p % 64 = 0
        · rw [if_pos haligned]
          exact insertWords_spec x y (by omega) hp haligned
        · rw [if_neg haligned]
          obtain ⟨next, hnext, hholds⟩ := insertLoop_spec hy hk hp le_rfl hx
          refine ⟨next, hnext, hholds.congr fun i => ?_⟩
          rw [Nat.sub_self, Nat.add_zero, replaced]

/-- The span of a result of one word lies in two words of the source. -/
def Straddles (numBits bitPosition : Nat) : Prop :=
  numBits ≤ 64 ∧ bitPosition / 64 ≠ (bitPosition + numBits - 1) / 64

theorem getLsbD_joined {p n : Nat} {words : List WordType}
    (hwords : ∀ i, Digits.bit words i = bits i) {w0 : WordType}
    (hw0 : words[p / 64 + n]? = some w0) {b : Nat} (hb : b < 64) :
    (w0 >>> (p % 64) ||| (words[p / 64 + n + 1]?.getD 0#64) <<< (64 - p % 64)).getLsbD b =
      bits (p + (64 * n + b)) := by
  have hget : ∀ index, words.getD index 0#64 = words[index]?.getD 0#64 := fun index =>
    getD_eq_getElem?_getD
  rw [BitVec.getLsbD_or, BitVec.getLsbD_ushiftRight, BitVec.getLsbD_shiftLeft, ← hwords,
    decide_eq_true hb, Bool.true_and]
  by_cases hlow : p % 64 + b < 64
  · have hsplit : p + (64 * n + b) = 64 * (p / 64 + n) + (p % 64 + b) := by omega
    rw [decide_eq_true (show b < 64 - p % 64 by omega), hsplit, Digits.bit_mul_add _ hlow, hget,
      hw0]
    simp
  · have hsplit : p + (64 * n + b) = 64 * (p / 64 + n + 1) + (b - (64 - p % 64)) := by omega
    rw [BitVec.getLsbD_of_ge w0 _ (not_lt.mp hlow),
      decide_eq_false (show ¬b < 64 - p % 64 by omega), hsplit,
      Digits.bit_mul_add _ (show b - (64 - p % 64) < 64 by omega), hget]
    simp

theorem extractLoop_spec {words : List WordType}
    (hwords : ∀ i, Digits.bit words i = bits i) (hlength : words.length = getNumWords w)
    (hk : 64 < k) (hfit : k + p ≤ w) {count n : Nat}
    (hn : n + count = getNumWords k) {Result : Stored}
    (h : Holds Result k fun i => decide (i < 64 * n) && bits (p + i)) :
    ∃ next, extractLoop words (p / 64) (p % 64) count n Result = some next ∧
      Holds next k fun i => decide (i < 64 * getNumWords k) && bits (p + i) := by
  induction count generalizing n Result with
  | zero => exact ⟨Result, rfl, by rwa [← hn, Nat.add_zero]⟩
  | succ count ih =>
    have hnum : getNumWords k = (k + 63) / 64 := rfl
    have hlt : p / 64 + n < words.length := by
      rw [hlength, getNumWords]
      omega
    have hw0 := getElem?_eq_getElem hlt
    obtain ⟨middle, hmiddle, hholds⟩ := h.updateWord hk (show n < getNumWords k by omega)
      (bitwise_const (words[p / 64 + n] >>> (p % 64) |||
        (words[p / 64 + n + 1]?.getD 0#64) <<< (64 - p % 64)))
    have hjoined : Holds middle k fun i => decide (i < 64 * (n + 1)) && bits (p + i) :=
      hholds.congr fun i => by
        unfold updated
        split
        · next hi =>
          dsimp only
          rw [getLsbD_joined hwords hw0 (mod_lt i (by decide)),
            decide_eq_true (show i < 64 * (n + 1) by omega), Bool.true_and, ← hi,
            div_add_mod]
        · dsimp only
          rw [decide_eq_decide.mpr (show i < 64 * n ↔ i < 64 * (n + 1) by omega)]
    obtain ⟨next, hnext, hlast⟩ := ih (by omega) hjoined
    refine ⟨next, ?_, hlast⟩
    rw [extractLoop, hw0]
    simp only [hmiddle, hnext, bind_eq_bind, bind_some]

theorem extractBits_spec (x : BitVec w) (hk : 0 < k) (hp : k + p ≤ w)
    (hspan : ¬Straddles k p) :
    (stored x).extractBits k p = some (stored (x.extractLsb' p k)) := by
  suffices ∃ next, (stored x).extractBits k p = some next ∧
      Holds next k fun i => decide (i < k) && x.getLsbD (p + i) by
    obtain ⟨next, hnext, hholds⟩ := this
    rw [hnext, (hholds.congr fun i => (BitVec.getLsbD_extractLsb' ..).symm).eq_stored]
  have hx := holds_stored x
  unfold extractBits
  rw [hx.width, if_neg (by omega), isSingleWord, hx.width]
  by_cases hsingle : w ≤ 64
  · rw [if_pos (decide_eq_true hsingle)]
    obtain ⟨word, hstored, hword⟩ := hx.exists_VAL hsingle
    obtain ⟨next, hnext, hholds⟩ := ofVal_spec hk (word >>> p)
    refine ⟨next, ?_, hholds.congr fun i => ?_⟩
    · rw [hstored]
      exact hnext
    · rw [BitVec.getLsbD_ushiftRight, hword]
  · rw [if_neg (by simpa using hsingle)]
    obtain ⟨words, hstored, hlength, hwords⟩ := hx.exists_pVal (not_le.mp hsingle)
    have hpVal : (stored x).pVal = some words := by
      rw [hstored]
      rfl
    have hnum : getNumWords w = (w + 63) / 64 := rfl
    have hlt : p / 64 < words.length := by omega
    unfold whichWord whichBit
    simp only [hpVal, bind_eq_bind, bind_some]
    by_cases hone : p / 64 = (p + k - 1) / 64
    · obtain ⟨next, hnext, hholds⟩ := ofVal_spec hk (words[p / 64] >>> (p % 64))
      rw [if_pos hone, getElem?_eq_getElem hlt, bind_some]
      refine ⟨next, hnext, hholds.congr fun i => ?_⟩
      by_cases hi : i < k
      · have hsplit : p + i = 64 * (p / 64) + (p % 64 + i) := by omega
        rw [decide_eq_true hi, Bool.true_and, Bool.true_and, BitVec.getLsbD_ushiftRight, ← hwords,
          hsplit, Digits.bit_mul_add _ (by omega), getD_eq_getElem _ _ hlt]
      · rw [decide_eq_false hi, Bool.false_and, Bool.false_and]
    · rw [if_neg hone]
      by_cases haligned : p % 64 = 0
      · rw [if_pos haligned]
        have hne : (words.drop (p / 64)).take (1 + (p + k - 1) / 64 - p / 64) ≠ [] := by
          rw [ne_eq, ← length_eq_zero_iff, length_take, length_drop]
          omega
        obtain ⟨next, hnext, hholds⟩ := ofArray_spec hk hne
        refine ⟨next, hnext, hholds.congr fun i => ?_⟩
        by_cases hi : i < k
        · rw [Digits.bit_take (by decide), Digits.bit_drop (by decide), hwords,
            decide_eq_true (show i < 64 * (1 + (p + k - 1) / 64 - p / 64) by omega),
            show 64 * (p / 64) = p by omega, Bool.true_and]
        · rw [decide_eq_false hi, Bool.false_and, Bool.false_and]
      · rw [if_neg haligned]
        have hlarge : 64 < k := not_le.mp fun hle => hspan ⟨hle, hone⟩
        obtain ⟨first, hfirst, hfirstHolds⟩ := ofVal_spec hk 0#64
        have hempty : Holds first k fun i => decide (i < 64 * 0) && x.getLsbD (p + i) :=
          hfirstHolds.congr fun i => by simp
        obtain ⟨filled, hfilled, hfilledHolds⟩ :=
          extractLoop_spec hwords hlength hlarge hp (Nat.zero_add (getNumWords k)) hempty
        obtain ⟨next, hnext, hholds⟩ := hfilledHolds.clearUnusedBits hk
        refine ⟨next, ?_, hholds.congr fun i => ?_⟩
        · rw [hfirst, bind_some, hfilled, bind_some, hnext]
        · by_cases hi : i < k
          · have hnumk : getNumWords k = (k + 63) / 64 := rfl
            rw [decide_eq_true (show i < 64 * getNumWords k by omega), Bool.true_and]
          · rw [decide_eq_false hi, Bool.false_and, Bool.false_and]

theorem extractBits_eq_none (x : BitVec w) (hk : 0 < k) (hp : k + p ≤ w)
    (hspan : Straddles k p) : (stored x).extractBits k p = none := by
  have hx := holds_stored x
  have hsingle : 64 < w := by
    have := hspan.2
    omega
  obtain ⟨words, hstored, hlength, -⟩ := hx.exists_pVal hsingle
  have hpVal : (stored x).pVal = some words := by
    rw [hstored]
    rfl
  have hnum : getNumWords w = (w + 63) / 64 := rfl
  have hlt : p / 64 + 0 < words.length := by omega
  have hcount : getNumWords k = 0 + 1 := by
    have := hspan.1
    rw [getNumWords]
    omega
  obtain ⟨first, hfirst, hfirstHolds⟩ := ofVal_spec hk 0#64
  obtain ⟨word, rfl, -⟩ := hfirstHolds.exists_VAL hspan.1
  unfold extractBits whichWord whichBit
  rw [hx.width, if_neg (by omega), isSingleWord, hx.width, if_neg (by simpa using hsingle)]
  simp only [hpVal, bind_eq_bind, bind_some]
  rw [if_neg hspan.2, if_neg (by have := hspan; rw [Straddles] at this; omega), hfirst,
    bind_some, hcount, extractLoop, getElem?_eq_getElem hlt]
  rfl

end Stored

/-- Inserting replaces the bits, extracting gives them, and gives back what was inserted. -/
structure CopiesBits (x : BitVec w) (y : BitVec k) (bitPosition : Nat) : Prop where
  inserts : (stored x).insertBits (stored y) bitPosition =
    some (stored (replaceBits x y bitPosition))
  extracts : (stored x).extractBits k bitPosition = some (stored (x.extractLsb' bitPosition k))
  extractsInserted : (stored (replaceBits x y bitPosition)).extractBits k bitPosition =
    some (stored y)

/-- Bits are copied as they should be when the span does not straddle two words or the result has
more than one. -/
theorem copiesBits_iff (x : BitVec w) (y : BitVec k) {bitPosition : Nat} (hk : 0 < k)
    (hposition : k + bitPosition ≤ w) :
    CopiesBits x y bitPosition ↔ ¬Straddles k bitPosition := by
  constructor
  · intro h hspan
    have hnone := extractBits_eq_none x hk hposition hspan
    rw [h.extracts] at hnone
    cases hnone
  · intro hspan
    refine ⟨insertBits_spec x y hk hposition, extractBits_spec x hk hposition hspan, ?_⟩
    rw [extractBits_spec _ hk hposition hspan, extractLsb'_replaceBits hposition]

/-- Eight bits at the position 60 of a value of 128 bits. -/
theorem copiesBits_straddling : ¬CopiesBits 0#128 0#8 60 := fun h => by
  have hnone : (stored 0#128).extractBits 8 60 = none := by decide
  rw [h.extracts] at hnone
  cases hnone

/-- Seventy bits at the same position. -/
theorem copiesBits_iff_wide : CopiesBits 0#256 0#70 60 ↔ ¬Straddles 70 60 :=
  copiesBits_iff 0#256 0#70 (by decide) (by decide)

end Zapcc.APInt
