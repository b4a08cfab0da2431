import Mathlib.Data.Nat.Prime.Basic
import Zapcc.Library.MagicDivision
import Zapcc.Library.WrapAround

/-!
# The magic number of a signed division

`magic` searches for the smallest power of two at which the multiplier of the divisor is exact
enough for all dividends: for the critical dividend `anc`, which is the greatest one that leaves
the greatest remainder. The search works on quotients and remainders of that power, which are
doubled in each step. It ends within the width, and the multiplier fits it (`magic_spec`).
-/

namespace Zapcc.Magic

open MagicDivision Nat Bool

variable {w : Nat}

/-- The magic number and the shift amount of a signed division. -/
structure Ms (w : Nat) where
  m : BitVec w
  s : Nat

/-- Double the quotient and the remainder of a number by `a`. -/
def doubled (a q r : BitVec w) : BitVec w × BitVec w :=
  let q := q <<< 1
  let r := r <<< 1
  -- must be an unsigned comparison
  if a ≤ r then (q + 1, r - a) else (q, r)

/-- The variables of the search: the quotients and remainders of the power `p` by `anc` and by
the absolute value of the divisor. -/
structure MagicState (w : Nat) where
  p : Nat
  q1 : BitVec w
  r1 : BitVec w
  q2 : BitVec w
  r2 : BitVec w

def magicStep (ad anc : BitVec w) (S : MagicState w) : MagicState w :=
  { p := S.p + 1
    q1 := (doubled anc S.q1 S.r1).1
    r1 := (doubled anc S.q1 S.r1).2
    q2 := (doubled ad S.q2 S.r2).1
    r2 := (doubled ad S.q2 S.r2).2 }

/-- The search, of at most `fuel` steps. -/
def magicLoop (ad anc : BitVec w) : Nat → MagicState w → Option (MagicState w)
  | 0, _ => none
  | fuel + 1, S =>
    let S := magicStep ad anc S
    let delta := ad - S.r2
    if S.q1 < delta ∨ S.q1 = delta ∧ S.r1 = 0 then magicLoop ad anc fuel S else some S

/-- The magic number of a divisor. -/
def magic (d : BitVec w) (fuel : Nat) : Option (Ms w) :=
  let signedMin := BitVec.intMin w
  let ad := d.abs
  let t := signedMin + d >>> (w - 1)
  let anc := t - 1 - t % ad
  let q1 := signedMin / anc
  let q2 := signedMin / ad
  (magicLoop ad anc fuel ⟨w - 1, q1, signedMin - q1 * anc, q2, signedMin - q2 * ad⟩).map
    fun S => ⟨if d.msb then -(S.q2 + 1) else S.q2 + 1, S.p - w⟩

/-! ## The critical dividend -/

/-- The numbers of a search: `h` is the half of the values, and `t` is above all absolute values
that a dividend of the sign of the divisor can have. -/
structure Critical (h t ad anc : Nat) : Prop where
  two_le : 2 ≤ ad
  ad_le : ad ≤ h
  ad_lt : ad < t
  bound : t = h ∨ t = h + 1
  anc_eq : anc = t - 1 - t % ad

section Critical

variable {h t ad anc : Nat}

theorem Critical.anc_succ (H : Critical h t ad anc) :
    anc + 1 + t % ad = t ∧ ad ∣ anc + 1 ∧ ad ≤ anc + 1 := by
  have hr : t % ad < ad := mod_lt t (by have := H.two_le; omega)
  have hanc : anc + 1 + t % ad = t := by
    have := H.anc_eq
    have := H.ad_lt
    omega
  have hdvd : ad ∣ anc + 1 := by
    have heq : anc + 1 = t - t % ad := by omega
    rw [heq]
    exact dvd_sub_mod t
  exact ⟨hanc, hdvd, le_of_dvd (by omega) hdvd⟩

theorem Critical.le_two_mul (H : Critical h t ad anc) : t ≤ 2 * anc + 1 := by
  obtain ⟨hanc, -, hle⟩ := H.anc_succ
  have hr : t % ad < ad := mod_lt t (by have := H.two_le; omega)
  omega

theorem Critical.mod_eq (H : Critical h t ad anc) {n : Nat} (hlow : anc < n) (hhigh : n ≤ t) :
    n % ad + (t - n) = t % ad := by
  obtain ⟨hanc, ⟨k, hk⟩, -⟩ := H.anc_succ
  have hr : t % ad < ad := mod_lt t (by have := H.two_le; omega)
  have hn : n = n - (anc + 1) + ad * k := by omega
  have hmod : n % ad = n - (anc + 1) := by
    rw [hn, add_mul_mod_self_left, ← hn]
    exact mod_eq_of_lt (by omega)
  omega

/-! ## The error at a power of two -/

/-- The error of the multiplier `2 ^ p / ad + 1`. -/
def delta (ad p : Nat) : Nat := ad - 2 ^ p % ad

theorem delta_pos (had : 0 < ad) (p : Nat) : 0 < delta ad p := Nat.sub_pos_of_lt (mod_lt _ had)

theorem delta_le (ad p : Nat) : delta ad p ≤ ad := sub_le _ _

theorem mul_delta (had : 0 < ad) (p : Nat) : (2 ^ p / ad + 1) * ad = 2 ^ p + delta ad p := by
  have hdiv : ad * (2 ^ p / ad) + 2 ^ p % ad = 2 ^ p := div_add_mod _ _
  have hr : 2 ^ p % ad < ad := mod_lt _ had
  unfold delta
  rw [Nat.add_mul, Nat.one_mul, Nat.mul_comm]
  omega

theorem delta_succ (had : 0 < ad) (p : Nat) :
    delta ad (p + 1) = if 2 * delta ad p ≤ ad then 2 * delta ad p else 2 * delta ad p - ad := by
  have hmod := (double_div_mod had (2 ^ p) 0 (by omega)).2
  simp only [Nat.add_zero] at hmod
  unfold delta
  rw [Nat.pow_succ, Nat.mul_comm (2 ^ p), hmod]
  split <;> split <;> omega

theorem Critical.error (H : Critical h t ad anc) {p n : Nat} (hcrit : anc * delta ad p < 2 ^ p)
    (hn : n < t) : n * delta ad p < 2 ^ p * (ad - n % ad) := by
  have had : 0 < ad := by have := H.two_le; omega
  by_cases hle : n ≤ anc
  · exact error_of_le had hcrit hle
  · have hmod := H.mod_eq (by omega) hn.le
    have hr : t % ad < ad := mod_lt t had
    have htwo := H.le_two_mul
    exact error_of_le_two_mul hcrit (by omega) (by omega)

theorem Critical.error_bound (H : Critical h t ad anc) {p k : Nat} (ht : t = 2 ^ k)
    (hk : 0 < k) (hkp : k ≤ p) (hcrit : anc * delta ad p < 2 ^ p) :
    t * delta ad p ≤ 2 ^ p * (ad - t % ad) := by
  have had : 0 < ad := by have := H.two_le; omega
  have hr : t % ad < ad := mod_lt t had
  by_cases hroom : t % ad + 2 ≤ ad
  · have heven : t ≤ 2 * anc := by
      have htwo := H.le_two_mul
      obtain ⟨j, rfl⟩ : ∃ j, k = j + 1 := ⟨k - 1, by omega⟩
      rw [Nat.pow_succ] at ht
      omega
    exact (error_of_le_two_mul hcrit heven hroom).le
  · have hlast : ad - t % ad = 1 := by omega
    rw [hlast, Nat.mul_one]
    obtain ⟨j, rfl⟩ : ∃ j, p = k + j := ⟨p - k, by omega⟩
    have hpow : 2 ^ (k + j) = t * 2 ^ j := by rw [Nat.pow_add, ht]
    rw [hpow]
    refine Nat.mul_le_mul_left t ?_
    have hsum : 2 ^ (k + j) + 2 ^ j = ad * ((t / ad + 1) * 2 ^ j) := by
      have hdiv : ad * (t / ad) + t % ad = t := div_add_mod t ad
      have hnext : ad * (t / ad + 1) = t + 1 := by
        rw [Nat.mul_add, Nat.mul_one]
        omega
      rw [← Nat.mul_assoc, hnext, hpow]
      ring
    by_contra hlt
    have hdvd : ad ∣ delta ad (k + j) - 2 ^ j := by
      have heq : delta ad (k + j) - 2 ^ j =
          (2 ^ (k + j) / ad + 1) * ad - ad * ((t / ad + 1) * 2 ^ j) := by
        rw [mul_delta had, ← hsum]
        omega
      rw [heq]
      exact Nat.dvd_sub (Nat.dvd_mul_left _ _) (Nat.dvd_mul_right _ _)
    have hle := le_of_dvd (by omega) hdvd
    have hdelta := delta_le ad (k + j)
    have hone := Nat.two_pow_pos j
    omega

/-! ## The width -/

theorem Critical.anc_le (H : Critical h t ad anc) : anc ≤ h := by
  obtain ⟨hanc, -, -⟩ := H.anc_succ
  have := H.bound
  omega

theorem Critical.le_of_continues (H : Critical h t ad anc) {p k : Nat} (hh : h = 2 ^ k)
    (hcont : 2 ^ p ≤ anc * delta ad p) : p ≤ 2 * k := by
  have hsquare : 2 ^ p ≤ 2 ^ (2 * k) := by
    calc 2 ^ p ≤ anc * delta ad p := hcont
      _ ≤ h * h := Nat.mul_le_mul H.anc_le ((delta_le ad p).trans H.ad_le)
      _ = 2 ^ (2 * k) := by rw [hh, ← Nat.pow_add, Nat.two_mul]
  exact (Nat.pow_le_pow_iff_right (by omega)).mp hsquare

theorem Critical.quotient_fits (H : Critical h t ad anc) {p k : Nat} (hh : h = 2 ^ k)
    (hk : 2 ≤ k) (hcont : 2 ^ p ≤ anc * delta ad p) : 2 ^ (p + 1) / anc < 2 * h := by
  have hpos : 0 < anc := by
    by_contra hzero
    obtain rfl : anc = 0 := by omega
    have := Nat.two_pow_pos p
    omega
  have hdelta := delta_le ad p
  have had := H.ad_le
  rw [Nat.div_lt_iff_lt_mul hpos]
  by_cases hlt : delta ad p < h
  · calc 2 ^ (p + 1) = 2 * 2 ^ p := by rw [Nat.pow_succ, Nat.mul_comm]
      _ ≤ 2 * (anc * delta ad p) := Nat.mul_le_mul_left 2 hcont
      _ < 2 * (anc * h) := by
        exact Nat.mul_lt_mul_of_pos_left (Nat.mul_lt_mul_of_pos_left hlt hpos) (by omega)
      _ = 2 * h * anc := by ring
  · -- the divisor is the smallest signed value
    obtain rfl : ad = h := by omega
    have hlt := H.ad_lt
    have ht : t = ad + 1 := H.bound.resolve_left (by omega)
    have hfour : 4 ≤ ad := by
      rw [hh]
      calc 4 = 2 ^ 2 := rfl
        _ ≤ 2 ^ k := Nat.pow_le_pow_right (by omega) hk
    have hanc : anc + 1 = ad := by
      have hsucc := H.anc_succ.1
      have hmod : t % ad = 1 := by
        rw [ht, add_mod_left]
        exact mod_eq_of_lt (by omega)
      omega
    have hless : 2 ^ p < 2 ^ (2 * k) := by
      calc 2 ^ p ≤ anc * delta ad p := hcont
        _ ≤ anc * ad := Nat.mul_le_mul_left anc hdelta
        _ < ad * ad := Nat.mul_lt_mul_of_pos_right (by omega) (by omega)
        _ = 2 ^ (2 * k) := by rw [hh, ← Nat.pow_add, Nat.two_mul]
    have hp : p + 1 ≤ 2 * k := (Nat.pow_lt_pow_iff_right (by omega)).mp hless
    calc 2 ^ (p + 1) ≤ 2 ^ (2 * k) := Nat.pow_le_pow_right (by omega) hp
      _ = ad * ad := by rw [hh, ← Nat.pow_add, Nat.two_mul]
      _ < ad * (2 * anc) := Nat.mul_lt_mul_of_pos_left (by omega) (by omega)
      _ = 2 * ad * anc := by ring

/-- The error is the divisor itself only if it divides the power. Then it does not divide the
successor of an even number. -/
theorem Critical.delta_lt (H : Critical h t ad anc) {p k : Nat} (hh : h = 2 ^ k) (hk : 0 < k)
    (hanc : anc = h) : delta ad p < ad := by
  have htwo := H.two_le
  by_contra hge
  have hdvd : ad ∣ 2 ^ p := by
    apply dvd_of_mod_eq_zero
    unfold delta at hge
    have := mod_lt (2 ^ p) (show 0 < ad by omega)
    omega
  obtain ⟨i, -, rfl⟩ := (Nat.dvd_prime_pow prime_two).mp hdvd
  obtain ⟨j, rfl⟩ : ∃ j, i = j + 1 := by
    cases i with
    | zero => simp at htwo
    | succ j => exact ⟨j, rfl⟩
  have heven : 2 ∣ anc + 1 := (Dvd.intro_left _ (Nat.pow_succ ..).symm).trans H.anc_succ.2.1
  obtain ⟨l, rfl⟩ : ∃ l, k = l + 1 := ⟨k - 1, by omega⟩
  omega

theorem Critical.multiplier_fits (H : Critical h t ad anc) {p k : Nat} (hh : h = 2 ^ k)
    (hk : 0 < k) (hcont : 2 ^ p ≤ anc * delta ad p) : 2 ^ (p + 1) / ad + 1 < 2 * h := by
  have htwo := H.two_le
  have had : 0 < ad := by omega
  have hmul := mul_delta had (p + 1)
  have hdelta := delta_le ad p
  have hpow : 2 ^ (p + 1) ≤ 2 * (anc * delta ad p) := by
    rw [Nat.pow_succ, Nat.mul_comm]
    exact Nat.mul_le_mul_left 2 hcont
  have hle := H.anc_le
  refine Nat.lt_of_mul_lt_mul_right (a := ad) ?_
  rw [hmul, delta_succ had]
  split
  · rename_i hhalf
    calc 2 ^ (p + 1) + 2 * delta ad p ≤ (anc + 1) * (2 * delta ad p) := by nlinarith
      _ ≤ (anc + 1) * ad := Nat.mul_le_mul_left _ hhalf
      _ < 2 * h * ad := Nat.mul_lt_mul_of_pos_right (by have := H.ad_le; omega) had
  · by_cases hanc : anc = h
    · have hlt := H.delta_lt (p := p) hh hk hanc
      have hmax : 2 * (anc * delta ad p) ≤ 2 * (h * (ad - 1)) := by
        rw [hanc]
        exact Nat.mul_le_mul_left 2 (Nat.mul_le_mul_left h (by omega))
      have hsplit : 2 * (h * (ad - 1)) + 2 * h = 2 * h * ad := by
        obtain ⟨b, rfl⟩ : ∃ b, ad = b + 1 := ⟨ad - 1, by omega⟩
        rw [Nat.add_sub_cancel]
        ring
      have := H.ad_le
      omega
    · have hmax : 2 * (anc * delta ad p) ≤ 2 * ((h - 1) * ad) :=
        Nat.mul_le_mul_left 2 (Nat.mul_le_mul (by omega) hdelta)
      have hsplit : 2 * ((h - 1) * ad) + 2 * ad = 2 * h * ad := by
        obtain ⟨b, rfl⟩ : ∃ b, h = b + 1 := ⟨h - 1, by have := H.ad_le; omega⟩
        rw [Nat.add_sub_cancel]
        ring
      omega

end Critical

/-! ## The search -/

theorem doubled_eq {a : BitVec w} (hw : 0 < w) (ha : 0 < a.toNat) (hle : a.toNat ≤ 2 ^ (w - 1))
    (x : Nat) :
    doubled a (BitVec.ofNat w (x / a.toNat)) (BitVec.ofNat w (x % a.toNat)) =
      (BitVec.ofNat w (2 * x / a.toNat), BitVec.ofNat w (2 * x % a.toNat)) := by
  have hpow := WrapAround.two_pow_eq_two_mul hw
  have hr : x % a.toNat < a.toNat := mod_lt x ha
  obtain ⟨hdiv, hmod⟩ := double_div_mod ha x 0 (by omega)
  simp only [Nat.add_zero] at hdiv hmod
  have hlt : 2 * (x % a.toNat) < 2 ^ w := by omega
  have hshift : ∀ y, BitVec.ofNat w y <<< 1 = BitVec.ofNat w (2 * y) := by
    intro y
    apply BitVec.eq_of_toNat_eq
    simp only [BitVec.toNat_shiftLeft, BitVec.toNat_ofNat, shiftLeft_eq, pow_one]
    rw [mod_mul_mod, Nat.mul_comm]
  have hcmp : a ≤ BitVec.ofNat w (2 * (x % a.toNat)) ↔ a.toNat ≤ 2 * (x % a.toNat) := by
    rw [BitVec.le_def, BitVec.toNat_ofNat, mod_eq_of_lt hlt]
  unfold doubled
  simp only [hshift, hcmp, hdiv, hmod]
  split
  · rename_i hge
    refine Prod.ext ?_ ?_
    · exact (BitVec.ofNat_add _ _).symm
    · apply BitVec.eq_of_toNat_eq
      have hlt' : 2 * (x % a.toNat) - a.toNat < 2 ^ w := by omega
      rw [BitVec.toNat_sub_of_le (hcmp.mpr hge), BitVec.toNat_ofNat, BitVec.toNat_ofNat,
          mod_eq_of_lt hlt, mod_eq_of_lt hlt']
  · rw [Nat.add_zero]

/-- The variables are the quotients and the remainders of the power. -/
structure Exact (ad anc : BitVec w) (S : MagicState w) : Prop where
  q1 : S.q1 = BitVec.ofNat w (2 ^ S.p / anc.toNat)
  r1 : S.r1 = BitVec.ofNat w (2 ^ S.p % anc.toNat)
  q2 : S.q2 = BitVec.ofNat w (2 ^ S.p / ad.toNat)
  r2 : S.r2 = BitVec.ofNat w (2 ^ S.p % ad.toNat)

section Search

variable {t : Nat} {ad anc : BitVec w}

theorem Exact.step {S : MagicState w} (hS : Exact ad anc S) (hw : 0 < w)
    (H : Critical (2 ^ (w - 1)) t ad.toNat anc.toNat) (hanc : 0 < anc.toNat) :
    Exact ad anc (magicStep ad anc S) := by
  have htwo := H.two_le
  have hpow : 2 ^ (S.p + 1) = 2 * 2 ^ S.p := Nat.pow_succ'
  have h1 := doubled_eq hw hanc H.anc_le (2 ^ S.p)
  have h2 := doubled_eq hw (by omega) H.ad_le (2 ^ S.p)
  rw [← hS.q1, ← hS.r1, ← hpow] at h1
  rw [← hS.q2, ← hS.r2, ← hpow] at h2
  exact ⟨congrArg Prod.fst h1, congrArg Prod.snd h1, congrArg Prod.fst h2, congrArg Prod.snd h2⟩

theorem Exact.continues_iff {S : MagicState w} (hS : Exact ad anc S)
    (H : Critical (2 ^ (w - 1)) t ad.toNat anc.toNat) (hanc : 0 < anc.toNat)
    (hfits : 2 ^ S.p / anc.toNat < 2 ^ w) :
    (S.q1 < ad - S.r2 ∨ S.q1 = ad - S.r2 ∧ S.r1 = 0) ↔
      2 ^ S.p ≤ anc.toNat * delta ad.toNat S.p := by
  have htwo := H.two_le
  have hr1 : 2 ^ S.p % anc.toNat < anc.toNat := mod_lt _ hanc
  have hr2 : 2 ^ S.p % ad.toNat < ad.toNat := mod_lt _ (by omega)
  have hq : S.q1.toNat = 2 ^ S.p / anc.toNat := by
    rw [hS.q1, BitVec.toNat_ofNat, mod_eq_of_lt hfits]
  have hr : S.r1.toNat = 2 ^ S.p % anc.toNat := by
    rw [hS.r1, BitVec.toNat_ofNat, mod_eq_of_lt (by have := anc.isLt; omega)]
  have hr2' : S.r2.toNat = 2 ^ S.p % ad.toNat := by
    rw [hS.r2, BitVec.toNat_ofNat, mod_eq_of_lt (by have := ad.isLt; omega)]
  have hdelta : (ad - S.r2).toNat = delta ad.toNat S.p := by
    rw [BitVec.toNat_sub_of_le (by rw [BitVec.le_def]; omega), hr2', delta]
  rw [le_mul_iff hanc, BitVec.lt_def, ← BitVec.toNat_inj, ← BitVec.toNat_inj, hq, hr, hdelta]
  simp

/-- What is found by a search. -/
structure Found (ad anc : BitVec w) (S : MagicState w) : Prop where
  q2 : S.q2 = BitVec.ofNat w (2 ^ S.p / ad.toNat)
  le : w ≤ S.p
  lt : S.p < 2 * w
  crit : anc.toNat * delta ad.toNat S.p < 2 ^ S.p
  fits : 2 ^ S.p / ad.toNat + 1 < 2 ^ w

theorem magicLoop_found {S : MagicState w} {fuel : Nat} (hw : 3 ≤ w)
    (H : Critical (2 ^ (w - 1)) t ad.toNat anc.toNat) (hanc : 0 < anc.toNat)
    (hS : Exact ad anc S) (hlow : w - 1 ≤ S.p) (hhigh : S.p ≤ 2 * (w - 1))
    (hfuel : 2 * w - 1 ≤ S.p + fuel) (hfits : 2 ^ (S.p + 1) / anc.toNat < 2 ^ w)
    (hfits2 : 2 ^ (S.p + 1) / ad.toNat + 1 < 2 ^ w) :
    ∃ S', magicLoop ad anc fuel S = some S' ∧ Found ad anc S' := by
  have hpow : 2 ^ w = 2 * 2 ^ (w - 1) := WrapAround.two_pow_eq_two_mul (by omega)
  induction fuel generalizing S with
  | zero => omega
  | succ fuel ih =>
    have hS' := hS.step (by omega) H hanc
    have hiff := hS'.continues_iff H hanc hfits
    unfold magicLoop
    simp only [hiff]
    split
    · rename_i hcont
      refine ih hS' (by show w - 1 ≤ S.p + 1; omega) (H.le_of_continues rfl hcont)
        (by show 2 * w - 1 ≤ S.p + 1 + fuel; omega) ?_ ?_
      · rw [hpow]
        exact H.quotient_fits rfl (by omega) hcont
      · rw [hpow]
        exact H.multiplier_fits rfl (by omega) hcont
    · rename_i hstop
      exact ⟨_, rfl, hS'.q2, by show w ≤ S.p + 1; omega, by show S.p + 1 < 2 * w; omega,
        Nat.lt_of_not_le hstop, hfits2⟩

end Search

/-! ## The magic number -/

theorem sub_div_mul (x a : BitVec w) :
    x - x / a * a = BitVec.ofNat w (x.toNat % a.toNat) := by
  have hle : x.toNat / a.toNat * a.toNat ≤ x.toNat := div_mul_le_self _ _
  have hlt := x.isLt
  have hmul : (x / a * a).toNat = x.toNat / a.toNat * a.toNat := by
    rw [BitVec.toNat_mul, BitVec.toNat_udiv, mod_eq_of_lt (by omega)]
  apply BitVec.eq_of_toNat_eq
  have hsplit := div_add_mod' x.toNat a.toNat
  rw [BitVec.toNat_sub_of_le (by rw [BitVec.le_def]; omega), hmul, BitVec.toNat_ofNat,
      mod_eq_of_lt (lt_of_le_of_lt (mod_le _ _) hlt)]
  omega

/-- The magic number of a divisor: the multiplier `M` at the scale `2 ^ p` finds the quotients by
its absolute value. -/
structure IsMagic (d : BitVec w) (r : Ms w) (M p δ : Nat) : Prop where
  m : r.m = if d.msb then -BitVec.ofNat w M else BitVec.ofNat w M
  s : p = w + r.s
  s_lt : r.s < w
  pos : 0 < M
  fits : M < 2 ^ w
  mul : M * d.abs.toNat = 2 ^ p + δ
  error_pos : 0 < δ
  error : ∀ n, n < 2 ^ (w - 1) + d.msb.toNat → n * δ < 2 ^ p * (d.abs.toNat - n % d.abs.toNat)
  error_bound : d.msb = false → 2 ^ (w - 1) * δ ≤ 2 ^ p * (d.abs.toNat - 2 ^ (w - 1) % d.abs.toNat)

theorem toNat_one (hw : 0 < w) : (1 : BitVec w).toNat = 1 :=
  (BitVec.toNat_ofNat 1 w).trans (mod_eq_of_lt (Nat.one_lt_two_pow (by omega)))

theorem toNat_intMin (hw : 0 < w) : (BitVec.intMin w).toNat = 2 ^ (w - 1) := by
  have hpos := Nat.two_pow_pos (w - 1)
  have hpow := WrapAround.two_pow_eq_two_mul hw
  rw [BitVec.toNat_intMin, mod_eq_of_lt (by omega)]

theorem toNat_bound (hw : 2 ≤ w) (d : BitVec w) :
    (BitVec.intMin w + d >>> (w - 1)).toNat = 2 ^ (w - 1) + d.msb.toNat := by
  have hpow : 2 ^ w = 2 * 2 ^ (w - 1) := WrapAround.two_pow_eq_two_mul (by omega)
  have htwo : 2 ≤ 2 ^ (w - 1) := by
    calc 2 = 2 ^ 1 := rfl
      _ ≤ 2 ^ (w - 1) := Nat.pow_le_pow_right (by omega) (by omega)
  have hbit : d.msb.toNat ≤ 1 := toNat_le _
  have hsign : (d >>> (w - 1)).toNat = d.msb.toNat := by
    rw [BitVec.toNat_ushiftRight, shiftRight_eq_div_pow, BitVec.msb_eq_decide]
    by_cases hge : 2 ^ (w - 1) ≤ d.toNat
    · rw [decide_eq_true hge, toNat_true]
      exact Nat.div_eq_of_lt_le (by omega) (by omega)
    · rw [decide_eq_false hge, toNat_false]
      exact div_eq_of_lt (by omega)
  rw [BitVec.toNat_add, toNat_intMin (by omega), hsign, mod_eq_of_lt (by omega)]

theorem abs_range (hw : 2 ≤ w) {d : BitVec w} (h0 : d ≠ 0) (h1 : d ≠ 1) (hm1 : d ≠ -1) :
    2 ≤ d.abs.toNat ∧ d.abs.toNat ≤ 2 ^ (w - 1) ∧ d.abs.toNat < 2 ^ (w - 1) + d.msb.toNat := by
  have hpow : 2 ^ w = 2 * 2 ^ (w - 1) := WrapAround.two_pow_eq_two_mul (by omega)
  have hone := toNat_one (w := w) (by omega)
  have hd0 : d.toNat ≠ 0 := fun h => h0 (BitVec.eq_of_toNat_eq (by simpa using h))
  have hd1 : d.toNat ≠ 1 := fun h => h1 (BitVec.eq_of_toNat_eq (h.trans hone.symm))
  have hdm1 : d.toNat ≠ 2 ^ w - 1 := fun h => hm1 (BitVec.eq_of_toNat_eq (by
    rw [h, BitVec.toNat_neg, hone, mod_eq_of_lt (by omega)]))
  rw [BitVec.toNat_abs, BitVec.msb_eq_decide]
  by_cases hge : 2 ^ (w - 1) ≤ d.toNat
  · simp only [hge, decide_true, if_true, toNat_true]
    omega
  · simp only [hge, decide_false, false_eq_true, if_false, toNat_false]
    omega

theorem critical_magic (hw : 2 ≤ w) {d : BitVec w} (h0 : d ≠ 0) (h1 : d ≠ 1) (hm1 : d ≠ -1) :
    let t := BitVec.intMin w + d >>> (w - 1)
    Critical (2 ^ (w - 1)) (2 ^ (w - 1) + d.msb.toNat) d.abs.toNat
      (t - 1 - t % d.abs).toNat := by
  intro t
  obtain ⟨htwo, hhalf, hbelow⟩ := abs_range hw h0 h1 hm1
  have hbit : d.msb.toNat ≤ 1 := toNat_le _
  have ht : t.toNat = 2 ^ (w - 1) + d.msb.toNat := toNat_bound hw d
  have hone := toNat_one (w := w) (by omega)
  have hmodlt : t.toNat % d.abs.toNat < d.abs.toNat := mod_lt _ (by omega)
  have hsub : (t - 1).toNat = t.toNat - 1 := by
    rw [BitVec.toNat_sub_of_le (by rw [BitVec.le_def, hone]; omega), hone]
  refine ⟨htwo, hhalf, hbelow, by omega, ?_⟩
  rw [BitVec.toNat_sub_of_le (by rw [BitVec.le_def, hsub, BitVec.toNat_umod]; omega), hsub,
      BitVec.toNat_umod, ht]

theorem magic_spec {d : BitVec w} (hw : 3 ≤ w) (h0 : d ≠ 0) (h1 : d ≠ 1) (hm1 : d ≠ -1)
    {fuel : Nat} (hfuel : w ≤ fuel) :
    ∃ r M p δ, magic d fuel = some r ∧ IsMagic d r M p δ := by
  have hpow : 2 ^ w = 2 * 2 ^ (w - 1) := WrapAround.two_pow_eq_two_mul (by omega)
  have hfour : 4 ≤ 2 ^ (w - 1) := by
    calc 4 = 2 ^ 2 := rfl
      _ ≤ 2 ^ (w - 1) := Nat.pow_le_pow_right (by omega) (by omega)
  have hmin := toNat_intMin (w := w) (by omega)
  let t := BitVec.intMin w + d >>> (w - 1)
  have H : Critical (2 ^ (w - 1)) (2 ^ (w - 1) + d.msb.toNat) d.abs.toNat
      (t - 1 - t % d.abs).toNat := critical_magic (by omega) h0 h1 hm1
  have htwo := H.two_le
  have htwoanc := H.le_two_mul
  -- the search from the power below the width
  let S : MagicState w := ⟨w - 1, BitVec.intMin w / (t - 1 - t % d.abs),
    BitVec.intMin w - BitVec.intMin w / (t - 1 - t % d.abs) * (t - 1 - t % d.abs),
    BitVec.intMin w / d.abs, BitVec.intMin w - BitVec.intMin w / d.abs * d.abs⟩
  have hquot : ∀ a : BitVec w, BitVec.intMin w / a = BitVec.ofNat w (2 ^ (w - 1) / a.toNat) := by
    intro a
    apply BitVec.eq_of_toNat_eq
    rw [BitVec.toNat_udiv, hmin, BitVec.toNat_ofNat,
        mod_eq_of_lt (lt_of_le_of_lt (Nat.div_le_self _ _) (by omega))]
  have hS : Exact d.abs (t - 1 - t % d.abs) S := by
    refine ⟨hquot _, ?_, hquot _, ?_⟩
    · exact (sub_div_mul _ _).trans (by rw [hmin])
    · exact (sub_div_mul _ _).trans (by rw [hmin])
  have hp : S.p + 1 = w := by show w - 1 + 1 = w; omega
  have hsteps : 2 * w - 1 ≤ S.p + fuel := by show 2 * w - 1 ≤ w - 1 + fuel; omega
  obtain ⟨S', hloop, hq2, hle, hlt, hcrit, hfits⟩ := magicLoop_found hw H
    (by omega) hS (Nat.le_refl _) (by show w - 1 ≤ 2 * (w - 1); omega) hsteps
    (by rw [hp]; exact Nat.div_lt_self (by omega) (by omega))
    (by
      have hle : 2 * 2 ^ (w - 1) / d.abs.toNat ≤ 2 * 2 ^ (w - 1) / 2 :=
        div_le_div_left htwo (by omega)
      rw [hp, hpow]
      omega)
  refine ⟨⟨if d.msb then -(S'.q2 + 1) else S'.q2 + 1, S'.p - w⟩,
    2 ^ S'.p / d.abs.toNat + 1, S'.p, delta d.abs.toNat S'.p, ?_, ?_⟩
  · show (magicLoop d.abs (t - 1 - t % d.abs) fuel S).map _ = _
    rw [hloop]
    rfl
  · refine ⟨?_, by show S'.p = w + (S'.p - w); omega, by show S'.p - w < w; omega,
      succ_pos _, hfits, mul_delta (by omega) _, delta_pos (by omega) _,
      fun n hn => H.error hcrit hn, fun hpos => ?_⟩
    · rw [BitVec.ofNat_add, ← hq2]
      rfl
    · rw [hpos, toNat_false, Nat.add_zero] at H
      exact H.error_bound rfl (by omega) (by omega) hcrit

end Zapcc.Magic
