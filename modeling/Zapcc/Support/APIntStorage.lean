import Zapcc.Library.Digits
import Zapcc.Support.APIntDivision

/-!
# The storage of values

A value of at most 64 bits is stored in a word, a wider one in an array. The functions here work on
the storage. There is no result when an assertion fails, and none when the member of the union that
is not in use is accessed or an index is out of range.
-/

namespace Zapcc.APInt

open DivideWords List BitVec

inductive WordOrArray
  | VAL (word : WordType)
  | pVal (words : List WordType)
  deriving DecidableEq

/-- An `APInt` as it is stored. -/
structure Stored where
  BitWidth : Nat
  U : WordOrArray
  deriving DecidableEq

namespace Stored

variable (this : Stored)

def isSingleWord : Bool := this.BitWidth ≤ 64

def whichWord (bitPosition : Nat) : Nat := bitPosition / 64

def whichBit (bitPosition : Nat) : Nat := bitPosition % 64

def maskBit (bitPosition : Nat) : WordType := 1#64 <<< whichBit bitPosition

/-- Read `U.VAL`. -/
def VAL : Option WordType :=
  match this.U with
  | .VAL word => some word
  | .pVal _ => none

/-- Read `U.pVal`. -/
def pVal : Option (List WordType) :=
  match this.U with
  | .VAL _ => none
  | .pVal words => some words

/-- Write a word into `U.VAL` that is computed from the one before. -/
def updateVAL (f : WordType → WordType) : Option Stored :=
  match this.U with
  | .VAL word => some { this with U := .VAL (f word) }
  | .pVal _ => none

/-- Write a word into `U.pVal` that is computed from the one before. -/
def updateWord (index : Nat) (f : WordType → WordType) : Option Stored :=
  match this.U with
  | .VAL _ => none
  | .pVal words =>
    if index < words.length then
      some { this with U := .pVal (words.set index (f (words.getD index 0#64))) }
    else none

def getWord (bitPosition : Nat) : Option WordType :=
  if this.isSingleWord then this.VAL
  else this.pVal.bind fun words => words[whichWord bitPosition]?

def getRawData : Option (List WordType) :=
  if this.isSingleWord then this.VAL.map fun word => [word] else this.pVal

def clearUnusedBits : Option Stored :=
  let WordBits := (this.BitWidth - 1) % 64 + 1
  let mask := allOnes 64 >>> (64 - WordBits)
  if this.isSingleWord then this.updateVAL (· &&& mask)
  else this.updateWord (getNumWords this.BitWidth - 1) (· &&& mask)

/-- `APInt(numBits, val)`. -/
def ofVal (numBits : Nat) (val : WordType) : Option Stored :=
  if numBits = 0 then none
  else if numBits ≤ 64 then clearUnusedBits ⟨numBits, .VAL val⟩
  else
    clearUnusedBits ⟨numBits, .pVal ((List.replicate (getNumWords numBits) 0#64).set 0 val)⟩

/-- `APInt(numBits, bigVal)`. -/
def ofArray (numBits : Nat) (bigVal : List WordType) : Option Stored :=
  if numBits = 0 then none
  else if numBits ≤ 64 then do
    let word ← bigVal[0]?
    clearUnusedBits ⟨numBits, .VAL word⟩
  else
    let words := min bigVal.length (getNumWords numBits)
    clearUnusedBits ⟨numBits,
      .pVal (bigVal.take words ++ List.replicate (getNumWords numBits - words) 0#64)⟩

def setBit (BitPosition : Nat) : Option Stored :=
  if this.BitWidth < BitPosition then none
  else if this.isSingleWord then this.updateVAL (· ||| maskBit BitPosition)
  else this.updateWord (whichWord BitPosition) (· ||| maskBit BitPosition)

def clearBit (BitPosition : Nat) : Option Stored :=
  if this.BitWidth < BitPosition then none
  else if this.isSingleWord then this.updateVAL (· &&& ~~~maskBit BitPosition)
  else this.updateWord (whichWord BitPosition) (· &&& ~~~maskBit BitPosition)

/-- `operator[]`. -/
def testBit (bitPosition : Nat) : Option Bool :=
  if this.BitWidth ≤ bitPosition then none
  else (this.getWord bitPosition).map fun word => maskBit bitPosition &&& word ≠ 0#64

/-- `memcpy` of some words to `U.pVal + index`. -/
def copyWords (index : Nat) (source : List WordType) (count : Nat) : Option Stored :=
  match this.U with
  | .VAL _ => none
  | .pVal words =>
    if index + count ≤ words.length ∧ count ≤ source.length then
      some { this with
        U := .pVal (words.take index ++ source.take count ++ words.drop (index + count)) }
    else none

/-- The body of the loop of `insertBits`. -/
def putBit (bit : Bool) (BitPosition : Nat) : Option Stored :=
  if bit then this.setBit BitPosition else this.clearBit BitPosition

def insertLoop (subBits : Stored) (bitPosition : Nat) : Nat → Stored → Option Stored
  | 0, this => some this
  | bits + 1, this => do
      let i := subBits.BitWidth - (bits + 1)
      let bit ← subBits.testBit i
      let this ← this.putBit bit (bitPosition + i)
      insertLoop subBits bitPosition bits this

def insertWords (subBits : Stored) (loWord hi1Word : Nat) : Option Stored := do
  let source ← subBits.getRawData
  let this ← this.copyWords loWord source (subBits.BitWidth / 64)
  let remainingBits := subBits.BitWidth % 64
  if remainingBits = 0 then some this
  else
    let mask := allOnes 64 >>> (64 - remainingBits)
    let this ← this.updateWord hi1Word (· &&& ~~~mask)
    let word ← subBits.getWord (subBits.BitWidth - 1)
    this.updateWord hi1Word (· ||| word)

def insertBits (subBits : Stored) (bitPosition : Nat) : Option Stored :=
  let subBitWidth := subBits.BitWidth
  if subBitWidth = 0 ∨ this.BitWidth < subBitWidth + bitPosition then none
  else if subBitWidth = this.BitWidth then some subBits
  else if this.isSingleWord then do
    let mask := allOnes 64 >>> (64 - subBitWidth)
    let this ← this.updateVAL (· &&& ~~~(mask <<< bitPosition))
    let word ← subBits.VAL
    this.updateVAL (· ||| word <<< bitPosition)
  else
    let loBit := whichBit bitPosition
    let loWord := whichWord bitPosition
    let hi1Word := whichWord (bitPosition + subBitWidth - 1)
    if loWord = hi1Word then do
      let mask := allOnes 64 >>> (64 - subBitWidth)
      let this ← this.updateWord loWord (· &&& ~~~(mask <<< loBit))
      let word ← subBits.VAL
      this.updateWord loWord (· ||| word <<< loBit)
    else if loBit = 0 then this.insertWords subBits loWord hi1Word
    else insertLoop subBits bitPosition subBitWidth this

/-- The loop of `extractBits`, with some words of the result to go. -/
def extractLoop (source : List WordType) (loWord loBit : Nat) :
    Nat → Nat → Stored → Option Stored
  | 0, _, Result => some Result
  | count + 1, word, Result => do
      let w0 ← source[loWord + word]?
      let w1 := (source[loWord + word + 1]?).getD 0#64
      let Result ← Result.updateWord word fun _ => w0 >>> loBit ||| w1 <<< (64 - loBit)
      extractLoop source loWord loBit count (word + 1) Result

def extractBits (numBits bitPosition : Nat) : Option Stored :=
  if numBits = 0 ∨ this.BitWidth ≤ bitPosition ∨ this.BitWidth < numBits + bitPosition then none
  else if this.isSingleWord then do
    let word ← this.VAL
    ofVal numBits (word >>> bitPosition)
  else do
    let loBit := whichBit bitPosition
    let loWord := whichWord bitPosition
    let hiWord := whichWord (bitPosition + numBits - 1)
    let words ← this.pVal
    if loWord = hiWord then do
      let word ← words[loWord]?
      ofVal numBits (word >>> loBit)
    else if loBit = 0 then ofArray numBits ((words.drop loWord).take (1 + hiWord - loWord))
    else do
      let Result ← ofVal numBits 0#64
      let Result ← extractLoop words loWord loBit (getNumWords numBits) 0 Result
      Result.clearUnusedBits

end Stored

def stored {w : Nat} (x : BitVec w) : Stored :=
  ⟨w, if w ≤ 64 then .VAL (lowWord x) else .pVal (words x)⟩

/-- A bit of the member that is in use, `false` above it. -/
def WordOrArray.bit : WordOrArray → Nat → Bool
  | .VAL word, i => word.getLsbD i
  | .pVal words, i => Digits.bit words i

/-- Values of at most 64 bits are in the word. -/
def WordOrArray.InUse (w : Nat) : WordOrArray → Prop
  | .VAL _ => w ≤ 64
  | .pVal words => 64 < w ∧ words.length = getNumWords w

namespace Stored

/-- The storage of a value of `w` bits has these bits, the unused ones included. -/
structure Holds (this : Stored) (w : Nat) (bits : Nat → Bool) : Prop where
  width : this.BitWidth = w
  inUse : this.U.InUse w
  bits : ∀ i, this.U.bit i = bits i

/-- A function on words that works bit by bit. -/
def Bitwise (f : WordType → WordType) (g : Nat → Bool → Bool) : Prop :=
  ∀ word b, b < 64 → (f word).getLsbD b = g b (word.getLsbD b)

/-- The bits when those of a word are changed. -/
def updated (bits : Nat → Bool) (index : Nat) (g : Nat → Bool → Bool) (i : Nat) : Bool :=
  if i / 64 = index then g (i % 64) (bits i) else bits i

variable {w index q : Nat} {bits : Nat → Bool} {this : Stored}

theorem Holds.congr {other : Nat → Bool} (h : Holds this w bits) (heq : ∀ i, bits i = other i) :
    Holds this w other :=
  ⟨h.width, h.inUse, fun i => (h.bits i).trans (heq i)⟩

theorem Holds.unique {other : Stored} (h : Holds this w bits) (hother : Holds other w bits) :
    this = other := by
  obtain ⟨width, U⟩ := this
  obtain ⟨otherWidth, otherU⟩ := other
  have hwidth : width = otherWidth := h.width.trans hother.width.symm
  have hbits : ∀ i, U.bit i = otherU.bit i := fun i => (h.bits i).trans (hother.bits i).symm
  have huse := h.inUse
  have hotherUse := hother.inUse
  suffices U = otherU by rw [hwidth, this]
  cases U with
  | VAL word =>
    cases otherU with
    | VAL otherWord => rw [eq_of_getLsbD_eq fun i _ => hbits i]
    | pVal otherWords => exact absurd huse (not_le.mpr hotherUse.1)
  | pVal words =>
    cases otherU with
    | VAL otherWord => exact absurd hotherUse (not_le.mpr huse.1)
    | pVal otherWords =>
      rw [Digits.eq_of_bit_eq (huse.2.trans hotherUse.2.symm) hbits]

theorem Holds.bits_of_ge (h : Holds this w bits) (hw : 0 < w) {i : Nat}
    (hi : 64 * getNumWords w ≤ i) : bits i = false := by
  rw [← h.bits i]
  have huse := h.inUse
  cases hU : this.U with
  | VAL word =>
    rw [getNumWords] at hi
    exact getLsbD_of_ge _ _ (by omega)
  | pVal words =>
    rw [hU] at huse
    exact Digits.bit_of_ge (by decide) (by rw [huse.2]; exact hi)

theorem Holds.exists_VAL (h : Holds this w bits) (hw : w ≤ 64) :
    ∃ word, this = ⟨w, .VAL word⟩ ∧ ∀ i, word.getLsbD i = bits i := by
  obtain ⟨width, U⟩ := this
  have hwidth : width = w := h.width
  have huse := h.inUse
  cases U with
  | VAL word => exact ⟨word, by rw [hwidth], h.bits⟩
  | pVal words => exact absurd hw (not_le.mpr huse.1)

theorem Holds.exists_pVal (h : Holds this w bits) (hw : 64 < w) :
    ∃ words, this = ⟨w, .pVal words⟩ ∧ words.length = getNumWords w ∧
      ∀ i, Digits.bit words i = bits i := by
  obtain ⟨width, U⟩ := this
  have hwidth : width = w := h.width
  have huse := h.inUse
  cases U with
  | VAL word => exact absurd huse (not_le.mpr hw)
  | pVal words => exact ⟨words, by rw [hwidth], huse.2, h.bits⟩

variable {f : WordType → WordType} {g : Nat → Bool → Bool}

theorem Holds.updateVAL (h : Holds this w bits) (hw : w ≤ 64)
    (hf : Bitwise f g) :
    ∃ next, this.updateVAL f = some next ∧ Holds next w (updated bits 0 g) := by
  obtain ⟨word, rfl, hword⟩ := h.exists_VAL hw
  refine ⟨⟨w, .VAL (f word)⟩, rfl, rfl, hw, fun i => ?_⟩
  change (f word).getLsbD i = updated bits 0 g i
  unfold updated
  split
  · have hlt : i < 64 := by omega
    rw [hf word i hlt, hword, Nat.mod_eq_of_lt hlt]
  · have hge : 64 ≤ i := by omega
    rw [← hword i, getLsbD_of_ge _ _ hge, getLsbD_of_ge _ _ hge]

theorem Holds.updateWord (h : Holds this w bits) (hw : 64 < w) (hindex : index < getNumWords w)
    (hf : Bitwise f g) :
    ∃ next, this.updateWord index f = some next ∧ Holds next w (updated bits index g) := by
  obtain ⟨words, rfl, hlength, hwords⟩ := h.exists_pVal hw
  have hlt : index < words.length := hlength ▸ hindex
  refine ⟨⟨w, .pVal (words.set index (f (words.getD index 0#64)))⟩, ?_, rfl,
    ⟨hw, by rw [length_set, hlength]⟩, fun i => ?_⟩
  · change (if index < words.length then _ else _) = _
    rw [if_pos hlt]
  · change Digits.bit _ i = updated bits index g i
    rw [Digits.bit_set hlt, updated]
    split
    · next hi =>
      rw [hf _ _ (Nat.mod_lt _ (by decide)), ← hwords i, Digits.bit, hi]
    · exact hwords i

theorem Holds.updateAt (h : Holds this w bits) (hq : q < w)
    (hf : Bitwise f g) :
    ∃ next, (if this.isSingleWord then this.updateVAL f else this.updateWord (q / 64) f) =
      some next ∧ Holds next w (updated bits (q / 64) g) := by
  rw [isSingleWord, h.width]
  by_cases hsingle : w ≤ 64
  · rw [if_pos (decide_eq_true hsingle), Nat.div_eq_of_lt (by omega)]
    exact h.updateVAL hsingle hf
  · rw [if_neg (by simpa using hsingle)]
    refine h.updateWord (not_le.mp hsingle) ?_ hf
    rw [getNumWords]
    omega

theorem holds_stored (x : BitVec w) : Holds (stored x) w x.getLsbD := by
  unfold stored
  refine ⟨rfl, ?_, fun i => ?_⟩
  · split
    · next hw => exact hw
    · next hw => exact ⟨not_le.mp hw, Digits.length_ofValue _ _⟩
  · split
    · change (x.setWidth 64).getLsbD i = _
      rw [getLsbD_setWidth]
      by_cases hi : i < 64
      · rw [decide_eq_true hi, Bool.true_and]
      · rw [decide_eq_false hi, Bool.false_and, getLsbD_of_ge _ _ (by omega)]
    · change Digits.bit (Digits.ofValue 64 (getNumWords w) x.toNat) i = _
      rw [Digits.bit_ofValue (by decide), ← testBit_toNat, getNumWords]
      by_cases hi : i < 64 * ((w + 63) / 64)
      · rw [decide_eq_true hi, Bool.true_and]
      · rw [decide_eq_false hi, Bool.false_and, testBit_toNat, getLsbD_of_ge _ _ (by omega)]

theorem Holds.eq_stored {z : BitVec w} (h : Holds this w z.getLsbD) : this = stored z :=
  h.unique (holds_stored z)

theorem getLsbD_mask {n b : Nat} (hn : n ≤ 64) :
    (allOnes 64 >>> (64 - n)).getLsbD b = decide (b < n) := by
  rw [getLsbD_ushiftRight, getLsbD_allOnes, decide_eq_decide]
  omega

theorem getLsbD_maskBit (b : Nat) : (maskBit q).getLsbD b = decide (q % 64 = b) := by
  rw [maskBit, whichBit, ← twoPow_eq, getLsbD_twoPow,
    decide_eq_true (Nat.mod_lt q (by decide)), Bool.true_and]

theorem bitwise_and (mask : WordType) :
    Bitwise (· &&& mask) (fun b v => v && mask.getLsbD b) := fun _ _ _ => getLsbD_and

theorem bitwise_or (mask : WordType) :
    Bitwise (· ||| mask) (fun b v => v || mask.getLsbD b) := fun _ _ _ => getLsbD_or

theorem bitwise_const (word : WordType) :
    Bitwise (fun _ => word) (fun b _ => word.getLsbD b) := fun _ _ _ => rfl

theorem Holds.clearUnusedBits (h : Holds this w bits) (hw : 0 < w) :
    ∃ next, this.clearUnusedBits = some next ∧
      Holds next w (fun i => decide (i < w) && bits i) := by
  have hmask := bitwise_and (allOnes 64 >>> (64 - ((w - 1) % 64 + 1)))
  have hbits : ∀ i, updated bits (getNumWords w - 1) (fun b v =>
      v && (allOnes 64 >>> (64 - ((w - 1) % 64 + 1))).getLsbD b) i =
        (decide (i < w) && bits i) := fun i => by
    unfold updated getNumWords
    dsimp only
    rw [getLsbD_mask (by omega)]
    by_cases hi : i < w
    · rw [decide_eq_true hi, Bool.true_and]
      split
      · next hword => rw [decide_eq_true (by omega), Bool.and_true]
      · rfl
    · rw [decide_eq_false hi, Bool.false_and]
      split
      · next hword => rw [decide_eq_false (by omega), Bool.and_false]
      · next hword => exact h.bits_of_ge hw (by rw [getNumWords]; omega)
  obtain ⟨next, hnext, hholds⟩ := h.updateAt (q := w - 1) (by omega) hmask
  have hword : (w - 1) / 64 = getNumWords w - 1 := by
    rw [getNumWords]
    omega
  rw [hword] at hnext hholds
  rw [Stored.clearUnusedBits, h.width]
  exact ⟨next, hnext, hholds.congr hbits⟩

theorem ofVal_spec (hw : 0 < w) (val : WordType) :
    ∃ next, ofVal w val = some next ∧ Holds next w (fun i => decide (i < w) && val.getLsbD i) := by
  unfold ofVal
  rw [if_neg hw.ne']
  by_cases hsingle : w ≤ 64
  · rw [if_pos hsingle]
    exact Holds.clearUnusedBits ⟨rfl, hsingle, fun i => rfl⟩ hw
  · rw [if_neg hsingle]
    have hlength : 0 < (List.replicate (getNumWords w) 0#64).length := by
      rw [length_replicate, getNumWords]
      omega
    refine Holds.clearUnusedBits ⟨rfl, ⟨not_le.mp hsingle, by simp⟩, fun i => ?_⟩ hw
    change Digits.bit _ i = _
    rw [Digits.bit_set hlength, Digits.bit_replicate_zero]
    split
    · next hi => rw [Nat.mod_eq_of_lt (by omega)]
    · next hi => rw [getLsbD_of_ge _ _ (by omega)]

theorem ofArray_spec (hw : 0 < w) {bigVal : List WordType} (hbigVal : bigVal ≠ []) :
    ∃ next, ofArray w bigVal = some next ∧
      Holds next w (fun i => decide (i < w) && Digits.bit bigVal i) := by
  unfold ofArray
  rw [if_neg hw.ne']
  by_cases hsingle : w ≤ 64
  · rw [if_pos hsingle]
    cases bigVal with
    | nil => exact absurd rfl hbigVal
    | cons word rest =>
      have hraw : Holds ⟨w, .VAL word⟩ w word.getLsbD := ⟨rfl, hsingle, fun i => rfl⟩
      obtain ⟨next, hnext, hholds⟩ := hraw.clearUnusedBits hw
      refine ⟨next, hnext, hholds.congr fun i => ?_⟩
      by_cases hi : i < w
      · rw [Digits.bit_cons (by decide), if_pos (by omega)]
      · rw [decide_eq_false hi, Bool.false_and, Bool.false_and]
  · rw [if_neg hsingle]
    have hlength : (bigVal.take (min bigVal.length (getNumWords w)) ++ List.replicate
        (getNumWords w - min bigVal.length (getNumWords w)) 0#64).length = getNumWords w := by
      rw [length_append, length_take, length_replicate]
      omega
    have hraw : Holds ⟨w, .pVal (bigVal.take (min bigVal.length (getNumWords w)) ++
        List.replicate (getNumWords w - min bigVal.length (getNumWords w)) 0#64)⟩ w _ :=
      ⟨rfl, ⟨not_le.mp hsingle, hlength⟩, fun i => rfl⟩
    obtain ⟨next, hnext, hholds⟩ := hraw.clearUnusedBits hw
    refine ⟨next, hnext, hholds.congr fun i => ?_⟩
    by_cases hi : i < w
    · rw [decide_eq_true hi, Bool.true_and, Bool.true_and]
      change Digits.bit _ i = _
      rw [Digits.bit_append (by decide), Digits.bit_replicate_zero, Digits.bit_take (by decide),
        length_take]
      unfold getNumWords
      split
      · next hlt => rw [decide_eq_true (by omega), Bool.true_and]
      · next hge => rw [Digits.bit_of_ge (by decide) (by omega)]
    · rw [decide_eq_false hi, Bool.false_and, Bool.false_and]

end Stored

end Zapcc.APInt
