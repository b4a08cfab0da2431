import Zapcc.Library.RoundedDivision
import Zapcc.Support.MathExtras

/-!
# Branch probabilities

Probabilities as numerators over `1 << 31`. The main result is `arithmetic_spec`: `scale` computes
the product with a probability exactly, unless it does not fit, and `normalizeProbabilities` makes
the sum of the probabilities one, except for rounding, as long as its counters do not wrap around.
-/

namespace Zapcc

open MathExtras RoundedDivision List

structure BranchProbability where
  N : Nat

namespace BranchProbability

def D : Nat := 2 ^ 31

/-- The numerator of an unknown probability. -/
def UnknownN : Nat := 2 ^ 32 - 1

def isUnknown (BP : BranchProbability) : Bool := BP.N = UnknownN

def getRaw (N : Nat) : BranchProbability := ⟨N⟩

def getZero : BranchProbability := ⟨0⟩

/-- The constructor from a fraction. There is no result where an assertion fails. -/
def ofFraction (Numerator Denominator : Nat) : Option BranchProbability :=
  if 0 < Denominator ∧ Numerator ≤ Denominator then
    if Denominator = D then some ⟨Numerator⟩
    else some ⟨toUnsigned (toUInt64 (Numerator * D + Denominator / 2) / Denominator)⟩
  else none

/-! ## Scaling -/

/-- `scale`, whose template argument is taken as the denominator if it is not zero. -/
def Fraction.scale (ConstD Num N D : Nat) : Option Nat :=
  let D := if 0 < ConstD then ConstD else D
  if D = 0 then none
  else if Num = 0 ∨ D = N then some Num
  else
    let ProductHigh := toUInt64 (Num >>> 32 * N)
    let ProductLow := toUInt64 (Num % 2 ^ 32 * N)
    let Upper32 := toUnsigned (ProductHigh >>> 32)
    let Lower32 := ProductLow % 2 ^ 32
    let Mid32Partial := ProductHigh % 2 ^ 32
    let Mid32 := toUnsigned (Mid32Partial + ProductLow >>> 32)
    let Upper32 := toUnsigned (Upper32 + if Mid32 < Mid32Partial then 1 else 0)
    if D ≤ Upper32 then some (2 ^ 64 - 1)
    else
      let Rem := toUInt64 (Upper32 <<< 32) ||| Mid32
      let UpperQ := Rem / D
      if 2 ^ 32 - 1 < UpperQ then some (2 ^ 64 - 1)
      else
        let Rem := toUInt64 ((Rem % D) <<< 32) ||| Lower32
        let LowerQ := Rem / D
        let Q := toUInt64 (toUInt64 (UpperQ <<< 32) + LowerQ)
        some (if Q < LowerQ then 2 ^ 64 - 1 else Q)

/-- The product with a probability. -/
def scale (BP : BranchProbability) (Num : Nat) : Option Nat := Fraction.scale D Num BP.N D

/-- The quotient by a probability. -/
def scaleByInverse (BP : BranchProbability) (Num : Nat) : Option Nat :=
  Fraction.scale 0 Num D BP.N

theorem or_digit {U M : Nat} (hU : U < 2 ^ 32) (hM : M < 2 ^ 32) :
    toUInt64 (U <<< 32) ||| M = U * 2 ^ 32 + M := by
  have hsmall : U <<< 32 < 2 ^ 64 := by
    omega
  rw [toUInt64, Nat.mod_eq_of_lt hsmall, Nat.shiftLeft_eq, Nat.mul_comm U,
    Nat.two_pow_add_eq_or_of_lt hM]

theorem product_parts {Num N : Nat} (hNum : Num < 2 ^ 64) (hN : N < 2 ^ 32) :
    ∃ high low, toUInt64 (Num >>> 32 * N) = high ∧ toUInt64 (Num % 2 ^ 32 * N) = low ∧
      high ≤ (2 ^ 32 - 1) * (2 ^ 32 - 1) ∧ low ≤ (2 ^ 32 - 1) * (2 ^ 32 - 1) ∧
      high * 2 ^ 32 + low = Num * N := by
  have hdigits : Num >>> 32 * 2 ^ 32 + Num % 2 ^ 32 = Num := by
    omega
  have hdigit : Num >>> 32 ≤ 2 ^ 32 - 1 := by
    omega
  have hhigh : Num >>> 32 * N ≤ (2 ^ 32 - 1) * (2 ^ 32 - 1) := Nat.mul_le_mul hdigit (by omega)
  have hlow : Num % 2 ^ 32 * N ≤ (2 ^ 32 - 1) * (2 ^ 32 - 1) :=
    Nat.mul_le_mul (by omega) (by omega)
  refine ⟨_, _, Nat.mod_eq_of_lt (by omega), Nat.mod_eq_of_lt (by omega), hhigh, hlow, ?_⟩
  conv_rhs => rw [← hdigits]
  rw [Nat.add_mul, Nat.mul_right_comm]

theorem product_digits {high low Mid32 Upper32 : Nat} (hhigh : high ≤ (2 ^ 32 - 1) * (2 ^ 32 - 1))
    (hlow : low ≤ (2 ^ 32 - 1) * (2 ^ 32 - 1))
    (hMid : Mid32 = toUnsigned (high % 2 ^ 32 + low >>> 32))
    (hUpper : Upper32 = toUnsigned (toUnsigned (high >>> 32) +
      if Mid32 < high % 2 ^ 32 then 1 else 0)) :
    (Upper32 * 2 ^ 32 + Mid32) * 2 ^ 32 + low % 2 ^ 32 = high * 2 ^ 32 + low ∧
      Upper32 < 2 ^ 32 ∧ Mid32 < 2 ^ 32 := by
  simp only [toUnsigned, Nat.shiftRight_eq_div_pow] at hMid hUpper
  split_ifs at hUpper with hcarry
  · omega
  · omega

theorem long_division {upper lower D : Nat} (hD : 0 < D) :
    (upper * 2 ^ 32 + lower) / D = upper / D * 2 ^ 32 + (upper % D * 2 ^ 32 + lower) / D := by
  have hsplit : upper * 2 ^ 32 + lower =
      D * (upper / D * 2 ^ 32) + (upper % D * 2 ^ 32 + lower) := by
    conv_lhs => rw [← Nat.div_add_mod upper D]
    ring
  rw [hsplit, Nat.mul_add_div hD]

theorem quotient_digits {UpperQ LowerQ : Nat} (hUpper : UpperQ < 2 ^ 32)
    (hLower : LowerQ < 2 ^ 32) :
    (if toUInt64 (toUInt64 (UpperQ <<< 32) + LowerQ) < LowerQ then 2 ^ 64 - 1
      else toUInt64 (toUInt64 (UpperQ <<< 32) + LowerQ)) =
      min (UpperQ * 2 ^ 32 + LowerQ) (2 ^ 64 - 1) := by
  have hsum : toUInt64 (toUInt64 (UpperQ <<< 32) + LowerQ) = UpperQ * 2 ^ 32 + LowerQ := by
    simp only [toUInt64, Nat.shiftLeft_eq]
    omega
  rw [hsum, if_neg (by omega), Nat.min_eq_left (by omega)]

theorem Fraction.scale_spec {ConstD Num N D : Nat} (hNum : Num < 2 ^ 64) (hN : N < 2 ^ 32)
    (hD : D < 2 ^ 32) (hpos : 0 < D) (hConstD : ConstD = 0 ∨ ConstD = D) :
    Fraction.scale ConstD Num N D = some (min (Num * N / D) (2 ^ 64 - 1)) := by
  have hchoice : (if 0 < ConstD then ConstD else D) = D := by
    rcases hConstD with rfl | rfl
    · rw [if_neg (Nat.lt_irrefl 0)]
    · rw [if_pos hpos]
  obtain ⟨high, low, hhigh, hlow, hhighle, hlowle, hproduct⟩ := product_parts hNum hN
  unfold Fraction.scale
  rw [hchoice]
  dsimp only
  rw [if_neg (Nat.ne_of_gt hpos), hhigh, hlow, ← hproduct]
  by_cases hone : Num = 0 ∨ D = N
  · rw [if_pos hone, hproduct]
    rcases hone with rfl | rfl
    · simp
    · rw [Nat.mul_div_cancel _ hpos, Nat.min_eq_left (by omega)]
  rw [if_neg hone]
  obtain ⟨hdigits, hUpper, hMid⟩ := product_digits hhighle hlowle rfl rfl
  rw [← hdigits]
  generalize toUnsigned (toUnsigned (high >>> 32) + _) = Upper32 at *
  generalize toUnsigned (high % 2 ^ 32 + _) = Mid32 at *
  have hLower := Nat.mod_lt low (show 0 < 2 ^ 32 by decide)
  generalize low % 2 ^ 32 = Lower32 at *
  rw [or_digit hUpper hMid, @long_division (Upper32 * 2 ^ 32 + Mid32) Lower32 D hpos]
  by_cases hlarge : D ≤ Upper32
  · have hq : 2 ^ 32 ≤ (Upper32 * 2 ^ 32 + Mid32) / D := by
      rw [Nat.le_div_iff_mul_le hpos]
      omega
    have hle : 2 ^ 64 - 1 ≤ (Upper32 * 2 ^ 32 + Mid32) / D * 2 ^ 32 := by omega
    rw [if_pos hlarge, Nat.min_eq_right (hle.trans (Nat.le_add_right _ _))]
  · have hrem := Nat.mod_lt (Upper32 * 2 ^ 32 + Mid32) hpos
    have hq : (Upper32 * 2 ^ 32 + Mid32) / D < 2 ^ 32 := by
      rw [Nat.div_lt_iff_lt_mul hpos]
      omega
    rw [if_neg hlarge, if_neg (by omega), or_digit (by omega) hLower]
    have hlow : ((Upper32 * 2 ^ 32 + Mid32) % D * 2 ^ 32 + Lower32) / D < 2 ^ 32 := by
      rw [Nat.div_lt_iff_lt_mul hpos]
      omega
    exact congrArg some (quotient_digits hq hlow)

/-! ## Normalizing -/

/-- The sum of the known numerators, and the number of unknown ones. -/
def accumulate (Probs : List BranchProbability) : Nat × Nat :=
  Probs.foldl (fun S BP =>
    if BP.isUnknown then (S.1, toUnsigned (S.2 + 1)) else (toUInt64 (S.1 + BP.N), S.2)) (0, 0)

/-- The known probabilities, scaled so that their sum is one, or equal ones for zeros. -/
def rescale (Sum : Nat) (Probs : List BranchProbability) : Option (List BranchProbability) :=
  if Sum = 0 then
    (ofFraction 1 (toUnsigned Probs.length)).map fun BP => Probs.map fun _ => BP
  else
    some (Probs.map fun BP => ⟨toUnsigned (toUInt64 (toUInt64 (BP.N * D) + Sum / 2) / Sum)⟩)

def normalizeProbabilities (Probs : List BranchProbability) : Option (List BranchProbability) :=
  if Probs = [] then some []
  else
    let (Sum, UnknownProbCount) := accumulate Probs
    if 0 < UnknownProbCount then
      let ProbForUnknown :=
        if Sum < D then getRaw (toUnsigned ((D - Sum) / UnknownProbCount)) else getZero
      let Probs := Probs.map fun BP => if BP.isUnknown then ProbForUnknown else BP
      if Sum ≤ D then some Probs else rescale Sum Probs
    else rescale Sum Probs

def knownN (BP : BranchProbability) : Nat := if BP.isUnknown then 0 else BP.N

/-- The sum of the known numerators, without a bound. -/
def knownSum (Probs : List BranchProbability) : Nat := total (Probs.map knownN)

/-- The number of unknown probabilities, without a bound. -/
def unknownCount (Probs : List BranchProbability) : Nat := Probs.countP isUnknown

/-- Unknown, or at most one. -/
def Valid (BP : BranchProbability) : Prop := BP.isUnknown = true ∨ BP.N ≤ D

/-- No counter of the normalization wraps around. -/
structure CountsFit (Probs : List BranchProbability) : Prop where
  sum : knownSum Probs < 2 ^ 64
  unknown : unknownCount Probs < 2 ^ 32
  zeros : knownSum Probs = 0 → unknownCount Probs = 0 → Probs.length < 2 ^ 32

/-- What the normalization should return. -/
structure Normalized (Probs Result : List BranchProbability) : Prop where
  length : Result.length = Probs.length
  known : ∀ BP ∈ Result, BP.isUnknown = false
  atMostOne : ∀ BP ∈ Result, BP.N ≤ D
  low : D ≤ total (Result.map N) + Result.length
  high : total (Result.map N) ≤ D + Result.length
  order : ∀ (i j : Nat) (L R L' R' : BranchProbability), Probs[i]? = some L →
    Probs[j]? = some R → Result[i]? = some L' → Result[j]? = some R' →
    L.isUnknown = false → R.isUnknown = false → L.N ≤ R.N → L'.N ≤ R'.N

variable {Probs : List BranchProbability}

theorem accumulate_eq (Probs : List BranchProbability) :
    accumulate Probs = (toUInt64 (knownSum Probs), toUnsigned (unknownCount Probs)) := by
  have hloop : ∀ S U : Nat, Probs.foldl (fun S BP =>
      if BP.isUnknown then (S.1, toUnsigned (S.2 + 1)) else (toUInt64 (S.1 + BP.N), S.2))
      (toUInt64 S, toUnsigned U) =
      (toUInt64 (S + knownSum Probs), toUnsigned (U + unknownCount Probs)) := by
    induction Probs with
    | nil => exact fun S U => rfl
    | cons BP Probs ih =>
      intro S U
      unfold knownSum unknownCount at ih ⊢
      rw [foldl_cons, map_cons, total_cons, countP_cons, knownN]
      by_cases hBP : BP.isUnknown = true
      · have hcount : toUnsigned (toUnsigned U + 1) = toUnsigned (U + 1) := Nat.mod_add_mod _ _ _
        rw [if_pos hBP, if_pos hBP, if_pos hBP, hcount, ih, Nat.zero_add, Nat.add_right_comm,
          Nat.add_assoc]
      · have hsum : toUInt64 (toUInt64 S + BP.N) = toUInt64 (S + BP.N) := Nat.mod_add_mod _ _ _
        rw [if_neg hBP, if_neg hBP, if_neg hBP, hsum, ih, Nat.add_zero, Nat.add_assoc]
  have h := hloop 0 0
  rwa [Nat.zero_add, Nat.zero_add] at h

theorem Normalized.of_map {f : BranchProbability → BranchProbability}
    (hone : ∀ BP ∈ Probs, (f BP).N ≤ D)
    (hlow : D ≤ total (Probs.map fun BP => (f BP).N) + Probs.length)
    (hhigh : total (Probs.map fun BP => (f BP).N) ≤ D + Probs.length)
    (horder : ∀ L ∈ Probs, ∀ R ∈ Probs, L.isUnknown = false → R.isUnknown = false → L.N ≤ R.N →
      (f L).N ≤ (f R).N) : Normalized Probs (Probs.map f) := by
  have hresult : ∀ BP ∈ Probs.map f, BP.N ≤ D := by
    intro BP hBP
    obtain ⟨BP, hmem, rfl⟩ := List.mem_map.mp hBP
    exact hone BP hmem
  have htotal : (Probs.map f).map N = Probs.map fun BP => (f BP).N := by
    rw [map_map]
    rfl
  refine ⟨length_map _, fun BP hBP => ?_, hresult, ?_, ?_, ?_⟩
  · have hle := hresult BP hBP
    unfold D at hle
    exact decide_eq_false (by unfold UnknownN; omega)
  · rwa [htotal, length_map]
  · rwa [htotal, length_map]
  · intro i j L R L' R' hL hR hL' hR'
    rw [getElem?_map, hL] at hL'
    rw [getElem?_map, hR] at hR'
    obtain rfl := Option.some.inj hL'
    obtain rfl := Option.some.inj hR'
    exact horder L (mem_of_getElem? hL) R (mem_of_getElem? hR)

theorem knownN_le {BP : BranchProbability} (h : BP ∈ Probs) : knownN BP ≤ knownSum Probs :=
  le_total (mem_map_of_mem h)

theorem knownN_eq {BP : BranchProbability} (h : BP.isUnknown = false) : knownN BP = BP.N := by
  rw [knownN, if_neg (by simp [h])]

theorem scaled_eq {Sum n : Nat} (hle : n ≤ D) (hSum : Sum < 2 ^ 64) (hpos : 0 < Sum)
    (hn : n ≤ Sum) :
    toUnsigned (toUInt64 (toUInt64 (n * D) + Sum / 2) / Sum) = nearest (n * D) Sum := by
  have hprod : n * D ≤ D * D := Nat.mul_le_mul_right D hle
  have hshare : nearest (n * D) Sum ≤ D := share_le D hpos hn
  unfold D at hprod hshare
  unfold nearest at hshare
  have hfit : toUInt64 (n * D) = n * D := Nat.mod_eq_of_lt (by unfold D; omega)
  have hsum : toUInt64 (n * D + Sum / 2) = n * D + Sum / 2 :=
    Nat.mod_eq_of_lt (by unfold D; omega)
  rw [hfit, hsum]
  unfold nearest D
  exact Nat.mod_eq_of_lt (by omega)

theorem normalized_shares (hpos : 0 < knownSum Probs) :
    Normalized Probs (Probs.map fun BP => ⟨nearest (knownN BP * D) (knownSum Probs)⟩) := by
  obtain ⟨hhigh, hlow⟩ := @shares_of_total D (Probs.map knownN) hpos
  rw [map_map, length_map] at hhigh hlow
  refine .of_map (fun BP hBP => share_le D hpos (knownN_le hBP)) ?_ ?_ fun L _ R _ hL hR hle => ?_
  · have hle : D ≤ total (Probs.map fun BP => nearest (knownN BP * D) (knownSum Probs)) +
        Probs.length := by
      change 2 * D ≤ 2 * total (Probs.map fun BP => nearest (knownN BP * D) (knownSum Probs)) +
        Probs.length at hlow
      omega
    exact hle
  · change 2 * total (Probs.map fun BP => nearest (knownN BP * D) (knownSum Probs)) ≤
      2 * D + Probs.length at hhigh
    change total (Probs.map fun BP => nearest (knownN BP * D) (knownSum Probs)) ≤ D + Probs.length
    omega
  · rw [knownN_eq hL, knownN_eq hR]
    exact nearest_mono (Nat.mul_le_mul_right D hle) _

theorem total_fill (x : Nat) (Probs : List BranchProbability) :
    total (Probs.map fun BP => (if BP.isUnknown then ⟨x⟩ else BP : BranchProbability).N) =
      knownSum Probs + unknownCount Probs * x := by
  unfold knownSum unknownCount
  induction Probs with
  | nil => simp [total]
  | cons BP Probs ih =>
    rw [map_cons, map_cons, total_cons, total_cons, ih, countP_cons, knownN]
    split_ifs
    · ring
    · ring

theorem normalized_fill (hProbs : ∀ BP ∈ Probs, Valid BP) (hle : knownSum Probs ≤ D)
    (hcount : 0 < unknownCount Probs) :
    Normalized Probs (Probs.map fun BP =>
      if BP.isUnknown then ⟨(D - knownSum Probs) / unknownCount Probs⟩ else BP) := by
  have hdiv := Nat.div_add_mod (D - knownSum Probs) (unknownCount Probs)
  have hmod := Nat.mod_lt (D - knownSum Probs) hcount
  have hlength : unknownCount Probs ≤ Probs.length := countP_le_length
  refine .of_map (fun BP hBP => ?_) ?_ ?_ fun L _ R _ hL hR hle => ?_
  · split_ifs with hunknown
    · exact (Nat.div_le_self _ _).trans (Nat.sub_le _ _)
    · exact (hProbs BP hBP).resolve_left hunknown
  · rw [total_fill]
    omega
  · rw [total_fill]
    omega
  · rwa [if_neg (by simp [hL]), if_neg (by simp [hR])]

theorem normalized_equal (hne : Probs ≠ []) :
    Normalized Probs (Probs.map fun _ => ⟨nearest D Probs.length⟩) := by
  have hpos : 0 < Probs.length := List.length_pos_iff.mpr hne
  have hhigh := nearest_le D Probs.length
  have hlow := @le_nearest D Probs.length hpos
  have htotal : total (Probs.map fun _ => nearest D Probs.length) =
      Probs.length * nearest D Probs.length := by
    rw [map_const', total_replicate]
  refine .of_map (fun BP _ => ?_) ?_ ?_ fun _ _ _ _ _ _ _ => Nat.le_refl _
  · refine (nearest_mono (Nat.le_mul_of_pos_left D hpos) Probs.length).trans_eq ?_
    exact nearest_mul D hpos
  · rw [htotal]
    omega
  · rw [htotal]
    omega

theorem ofFraction_one {n : Nat} (hpos : 0 < n) (hn : n < 2 ^ 32) :
    ofFraction 1 n = some ⟨nearest D n⟩ := by
  unfold ofFraction
  rw [if_pos ⟨hpos, hpos⟩]
  split_ifs with hD
  · rw [hD]
    rfl
  · have hle : (D + n / 2) / n ≤ D + n / 2 := Nat.div_le_self _ _
    have hfit : toUInt64 (1 * D + n / 2) = D + n / 2 := by
      exact Nat.mod_eq_of_lt (by unfold D; omega)
    rw [hfit]
    refine congrArg some (congrArg mk (Nat.mod_eq_of_lt ?_))
    unfold D at hle ⊢
    omega

theorem rescale_spec (hne : Probs ≠ []) (hknown : ∀ BP ∈ Probs, BP.isUnknown = false)
    (hone : ∀ BP ∈ Probs, BP.N ≤ D) (hsum : knownSum Probs < 2 ^ 64)
    (hzeros : knownSum Probs = 0 → Probs.length < 2 ^ 32) :
    ∃ Result, rescale (knownSum Probs) Probs = some Result ∧ Normalized Probs Result := by
  unfold rescale
  split_ifs with hzero
  · have hlength : toUnsigned Probs.length = Probs.length := Nat.mod_eq_of_lt (hzeros hzero)
    rw [hlength, ofFraction_one (List.length_pos_iff.mpr hne) (hzeros hzero)]
    exact ⟨_, rfl, normalized_equal hne⟩
  · have hpos := Nat.pos_of_ne_zero hzero
    refine ⟨_, rfl, ?_⟩
    have hshares := normalized_shares hpos
    have hmap : (Probs.map fun BP => (⟨toUnsigned (toUInt64 (toUInt64 (BP.N * D) +
        knownSum Probs / 2) / knownSum Probs)⟩ : BranchProbability)) =
        Probs.map fun BP => ⟨nearest (knownN BP * D) (knownSum Probs)⟩ := by
      refine map_congr_left fun BP hBP => ?_
      rw [← knownN_eq (hknown BP hBP), scaled_eq _ hsum hpos (knownN_le hBP)]
      rw [knownN_eq (hknown BP hBP)]
      exact hone BP hBP
    rwa [hmap]

/-- The probabilities with zeros for the unknown ones. -/
def withZeros (Probs : List BranchProbability) : List BranchProbability :=
  Probs.map fun BP => if BP.isUnknown then getZero else BP

theorem knownN_getZero : knownN getZero = 0 := rfl

theorem knownSum_withZeros (Probs : List BranchProbability) :
    knownSum (withZeros Probs) = knownSum Probs := by
  unfold knownSum withZeros
  rw [map_map]
  refine congrArg total (map_congr_left fun BP _ => ?_)
  rw [Function.comp_apply]
  split_ifs with hunknown
  · rw [knownN_getZero, knownN, if_pos hunknown]
  · rfl

theorem mem_withZeros (hProbs : ∀ BP ∈ Probs, Valid BP) {BP : BranchProbability}
    (h : BP ∈ withZeros Probs) : BP.isUnknown = false ∧ BP.N ≤ D := by
  obtain ⟨BP, hmem, rfl⟩ := List.mem_map.mp h
  split_ifs with hunknown
  · exact ⟨rfl, Nat.zero_le D⟩
  · exact ⟨by simpa using hunknown, (hProbs BP hmem).resolve_left hunknown⟩

theorem Normalized.of_withZeros {Result : List BranchProbability}
    (h : Normalized (withZeros Probs) Result) : Normalized Probs Result := by
  refine ⟨h.length.trans (length_map _), h.known, h.atMostOne, h.low, h.high, ?_⟩
  intro i j L R L' R' hL hR hL' hR' hLknown hRknown hle
  have hkept : ∀ {i : Nat} {L : BranchProbability}, Probs[i]? = some L → L.isUnknown = false →
      (withZeros Probs)[i]? = some L := by
    intro i L hL hknown
    unfold withZeros
    rw [getElem?_map, hL, Option.map_some, if_neg (by simp [hknown])]
  exact h.order i j L R L' R' (hkept hL hLknown) (hkept hR hRknown) hL' hR' hLknown hRknown hle

theorem unknownCount_eq_zero (h : unknownCount Probs = 0) :
    ∀ BP ∈ Probs, BP.isUnknown = false := by
  intro BP hBP
  have hnot := List.countP_eq_zero.mp h BP hBP
  simpa using hnot

theorem normalizeProbabilities_spec (hne : Probs ≠ []) (hProbs : ∀ BP ∈ Probs, Valid BP)
    (hfit : CountsFit Probs) :
    ∃ Result, normalizeProbabilities Probs = some Result ∧ Normalized Probs Result := by
  have hsum : toUInt64 (knownSum Probs) = knownSum Probs := Nat.mod_eq_of_lt hfit.sum
  have hcount : toUnsigned (unknownCount Probs) = unknownCount Probs :=
    Nat.mod_eq_of_lt hfit.unknown
  unfold normalizeProbabilities
  rw [if_neg hne, accumulate_eq, hsum, hcount]
  dsimp only
  by_cases hunknown : 0 < unknownCount Probs
  · rw [if_pos hunknown]
    by_cases hle : knownSum Probs ≤ D
    · have hshare : toUnsigned ((D - knownSum Probs) / unknownCount Probs) =
          (D - knownSum Probs) / unknownCount Probs := by
        have hdiv : (D - knownSum Probs) / unknownCount Probs ≤ D - knownSum Probs :=
          Nat.div_le_self _ _
        refine Nat.mod_eq_of_lt ?_
        unfold D at hdiv ⊢
        omega
      have hvalue : (if knownSum Probs < D then
          getRaw (toUnsigned ((D - knownSum Probs) / unknownCount Probs)) else getZero) =
          ⟨(D - knownSum Probs) / unknownCount Probs⟩ := by
        split_ifs with hless
        · rw [hshare]
          rfl
        · rw [show D - knownSum Probs = 0 by omega, Nat.zero_div]
          rfl
      rw [if_pos hle, hvalue]
      exact ⟨_, rfl, normalized_fill hProbs hle hunknown⟩
    · have hzeros : knownSum (withZeros Probs) = 0 → (withZeros Probs).length < 2 ^ 32 := by
        intro hzero
        rw [knownSum_withZeros] at hzero
        omega
      obtain ⟨Result, hresult, hnormalized⟩ := @rescale_spec (withZeros Probs)
        (fun hnil => hne (List.map_eq_nil_iff.mp hnil))
        (fun BP hBP => (mem_withZeros hProbs hBP).1)
        (fun BP hBP => (mem_withZeros hProbs hBP).2)
        (by rw [knownSum_withZeros]; exact hfit.sum) hzeros
      rw [knownSum_withZeros] at hresult
      rw [if_neg hle, if_neg (by omega)]
      exact ⟨Result, hresult, hnormalized.of_withZeros⟩
  · have hzero : unknownCount Probs = 0 := by omega
    have hknown := unknownCount_eq_zero hzero
    rw [if_neg hunknown]
    refine rescale_spec hne hknown (fun BP hBP => ?_) hfit.sum fun hsum => hfit.zeros hsum hzero
    exact (hProbs BP hBP).resolve_left (by simp [hknown BP hBP])

/-- Products with probabilities are exact unless they do not fit, and the probabilities are
normalized as long as no counter wraps around. -/
theorem arithmetic_spec {ConstD Num N D : Nat} {Probs : List BranchProbability}
    (hNum : Num < 2 ^ 64) (hN : N < 2 ^ 32) (hD : D < 2 ^ 32) (hpos : 0 < D)
    (hConstD : ConstD = 0 ∨ ConstD = D) (hne : Probs ≠ []) (hProbs : ∀ BP ∈ Probs, Valid BP)
    (hfit : CountsFit Probs) :
    Fraction.scale ConstD Num N D = some (min (Num * N / D) (2 ^ 64 - 1)) ∧
      ∃ Result, normalizeProbabilities Probs = some Result ∧ Normalized Probs Result :=
  ⟨Fraction.scale_spec hNum hN hD hpos hConstD, normalizeProbabilities_spec hne hProbs hfit⟩

theorem arithmetic_example :
    Fraction.scale 0 (2 ^ 64 - 1) 3 2 = some (min ((2 ^ 64 - 1) * 3 / 2) (2 ^ 64 - 1)) ∧
      ∃ Result, normalizeProbabilities [⟨2 ^ 30⟩, ⟨UnknownN⟩, ⟨5⟩] = some Result ∧
        Normalized [⟨2 ^ 30⟩, ⟨UnknownN⟩, ⟨5⟩] Result := by
  refine arithmetic_spec (by decide) (by decide) (by decide) (by decide) (.inl rfl) (by simp) ?_
    ⟨?_, ?_, ?_⟩
  · simp [Valid, isUnknown, UnknownN, D]
  · decide
  · decide
  · decide

/-- `2 ^ 32` unknown probabilities are not counted, and no probability is `1 / 2 ^ 32`. -/
theorem not_normalized_unknown :
    List.replicate (2 ^ 32) (⟨UnknownN⟩ : BranchProbability) ≠ [] ∧
      (∀ BP ∈ List.replicate (2 ^ 32) (⟨UnknownN⟩ : BranchProbability), Valid BP) ∧
      ¬∃ Result, normalizeProbabilities (List.replicate (2 ^ 32) ⟨UnknownN⟩) = some Result ∧
        Normalized (List.replicate (2 ^ 32) ⟨UnknownN⟩) Result := by
  have hne : List.replicate (2 ^ 32) (⟨UnknownN⟩ : BranchProbability) ≠ [] := by
    decide
  have hsum : toUInt64 (knownSum (List.replicate (2 ^ 32) ⟨UnknownN⟩)) = 0 := by
    unfold knownSum
    rw [map_replicate, total_replicate]
    rfl
  have hcount : toUnsigned (unknownCount (List.replicate (2 ^ 32) ⟨UnknownN⟩)) = 0 := by
    unfold unknownCount
    rw [countP_replicate, if_pos (show isUnknown ⟨UnknownN⟩ = true from rfl)]
    rfl
  refine ⟨hne, fun BP hBP => .inl ?_, ?_⟩
  · rw [eq_of_mem_replicate hBP]
    rfl
  · rintro ⟨Result, hresult, -⟩
    unfold normalizeProbabilities at hresult
    rw [if_neg hne, accumulate_eq, hsum, hcount] at hresult
    dsimp only at hresult
    rw [if_neg (Nat.lt_irrefl 0), rescale, if_pos rfl, length_replicate] at hresult
    exact Option.some_ne_none Result hresult.symm

end BranchProbability

end Zapcc
