import Zapcc.Support.SignedMagic

/-!
# The magic number of an unsigned division

`magicu` searches as `magic` does, where the divisor may have all bits of the width. The multiplier
can then need one bit more than the width has, which the search notes in the "add" indicator. It
ends at twice the width at the latest (`magicu_spec`), and the multiplier of an odd divisor fits if
the dividends are known to have leading zeros (`add_eq_false`).
-/

namespace Zapcc.Magic

open MagicDivision BitVec Nat

variable {w : Nat}

/-- The magic number, the "add" indicator and the shift amount of an unsigned division. -/
structure Mu (w : Nat) where
  m : BitVec w
  a : Bool
  s : Nat

/-- The variables of the search: the quotients and remainders of the power `p` by `nc`, and of
the number below it by the divisor. -/
structure MagicuState (w : Nat) where
  p : Nat
  q1 : BitVec w
  r1 : BitVec w
  q2 : BitVec w
  r2 : BitVec w
  a : Bool

/-- Double the quotient and the remainder of a number by `nc`. -/
def doubledNc (nc q r : BitVec w) : BitVec w × BitVec w :=
  if nc - r ≤ r then (q + q + 1, r + r - nc) else (q + q, r + r)

/-- Double the quotient and the remainder of a number by `d`, with a bit behind it, and note
whether the successor of the quotient has one bit more than the width. -/
def doubledPred (d q r : BitVec w) (a : Bool) : BitVec w × BitVec w × Bool :=
  if d - r ≤ r + 1 then
    (q + q + 1, r + r + 1 - d, a || decide (intMax w ≤ q))
  else
    (q + q, r + r + 1, a || decide (intMin w ≤ q))

def magicuStep (d nc : BitVec w) (S : MagicuState w) : MagicuState w :=
  { p := S.p + 1
    q1 := (doubledNc nc S.q1 S.r1).1
    r1 := (doubledNc nc S.q1 S.r1).2
    q2 := (doubledPred d S.q2 S.r2 S.a).1
    r2 := (doubledPred d S.q2 S.r2 S.a).2.1
    a := (doubledPred d S.q2 S.r2 S.a).2.2 }

def magicuLoop (d nc : BitVec w) (S : MagicuState w) : MagicuState w :=
  let S' := magicuStep d nc S
  let delta := d - 1 - S'.r2
  if S'.p < w * 2 ∧ (S'.q1 < delta ∨ S'.q1 = delta ∧ S'.r1 = 0) then magicuLoop d nc S' else S'
termination_by w * 2 - S.p
decreasing_by
  have hp : S'.p = S.p + 1 := rfl
  show w * 2 - S'.p < w * 2 - S.p
  omega

/-- The magic number of a divisor, of dividends with leading zeros. -/
def magicu (d : BitVec w) (LeadingZeros : Nat) : Mu w :=
  let allOnes := allOnes w >>> LeadingZeros
  let signedMin := intMin w
  let signedMax := intMax w
  let nc := allOnes - (allOnes - d) % d
  let q1 := signedMin / nc
  let q2 := signedMax / d
  let S := magicuLoop d nc
    ⟨w - 1, q1, signedMin - q1 * nc, q2, signedMax - q2 * d, false⟩
  ⟨S.q2 + 1, S.a, S.p - w⟩

/-! ## The critical dividend -/

/-- The numbers of a search: the dividends have `k` bits, and `nc` is the greatest multiple of
the divisor among them. -/
structure Multiple (k d nc : Nat) : Prop where
  two_le : 2 ≤ d
  lt : d < 2 ^ k
  nc_eq : nc + (2 ^ k - 1) % d = 2 ^ k - 1

/-- The error of the multiplier `(2 ^ p - 1) / d + 1`. -/
def deltau (d p : Nat) : Nat := d - 1 - (2 ^ p - 1) % d

theorem deltau_lt {d : Nat} (hd : 0 < d) (p : Nat) : deltau d p < d := by
  unfold deltau
  omega

theorem mul_deltau {d : Nat} (hd : 0 < d) (p : Nat) :
    ((2 ^ p - 1) / d + 1) * d = 2 ^ p + deltau d p := by
  have hdiv : d * ((2 ^ p - 1) / d) + (2 ^ p - 1) % d = 2 ^ p - 1 := div_add_mod _ _
  have hr : (2 ^ p - 1) % d < d := mod_lt _ hd
  have hpos := Nat.two_pow_pos p
  unfold deltau
  rw [Nat.add_mul, Nat.one_mul, Nat.mul_comm]
  omega

theorem deltau_eq_zero {d p : Nat} (hd : 0 < d) (hdvd : d ∣ 2 ^ p) : deltau d p = 0 := by
  obtain ⟨j, hj⟩ : d ∣ deltau d p := by
    refine (Nat.dvd_add_right hdvd).mp ?_
    rw [← mul_deltau hd]
    exact Nat.dvd_mul_left _ _
  have hlt := deltau_lt hd p
  cases j with
  | zero => exact hj
  | succ j =>
    rw [Nat.mul_add, Nat.mul_one] at hj
    omega

section Multiple

variable {k d nc : Nat}

theorem Multiple.nc_spec (H : Multiple k d nc) : d ∣ nc ∧ d ≤ nc ∧ nc < 2 ^ k := by
  have hpos := H.two_le
  have hlt := H.lt
  have hr : (2 ^ k - 1) % d < d := mod_lt _ (by omega)
  have hnc := H.nc_eq
  have hdvd : d ∣ nc := by
    have heq : nc = 2 ^ k - 1 - (2 ^ k - 1) % d := by omega
    rw [heq]
    exact dvd_sub_mod _
  refine ⟨hdvd, ?_, by omega⟩
  -- one multiple at least is among the dividends
  refine le_of_dvd ?_ hdvd
  omega

theorem Multiple.error (H : Multiple k d nc) {p n : Nat} (hkp : k ≤ p)
    (hcrit : nc * deltau d p < 2 ^ p) (hn : n < 2 ^ k) :
    n * deltau d p < 2 ^ p * (d - n % d) := by
  have htwo := H.two_le
  have hnc := H.nc_eq
  obtain ⟨⟨j, hj⟩, hle, -⟩ := H.nc_spec
  have hr : (2 ^ k - 1) % d < d := mod_lt _ (by omega)
  by_cases hlow : n ≤ nc
  · exact error_of_le (by omega) hcrit hlow
  · have hmod : n % d = n - nc := by
      have hsplit : n = n - nc + d * j := by omega
      rw [hsplit, add_mul_mod_self_left, ← hsplit]
      exact mod_eq_of_lt (by omega)
    by_cases hroom : n % d + 2 ≤ d
    · exact error_of_le_two_mul hcrit (by omega) hroom
    · have hdvd : d ∣ 2 ^ k := by
        refine ⟨j + 1, ?_⟩
        rw [Nat.mul_add, Nat.mul_one]
        omega
      rw [deltau_eq_zero (by omega) (hdvd.trans (Nat.pow_dvd_pow 2 hkp)), Nat.mul_zero]
      exact Nat.mul_pos (Nat.two_pow_pos p) (by omega)

theorem Multiple.fits_of_continues (H : Multiple k d nc) {p : Nat}
    (hcont : 2 ^ p ≤ nc * deltau d p) : (2 ^ p - 1) / d + 1 < 2 ^ k := by
  have htwo := H.two_le
  have hmul := mul_deltau (show 0 < d by omega) p
  have hlt := deltau_lt (show 0 < d by omega) p
  obtain ⟨-, -, hnc⟩ := H.nc_spec
  refine Nat.lt_of_mul_lt_mul_right (a := d) ?_
  rw [hmul]
  calc 2 ^ p + deltau d p ≤ (nc + 1) * deltau d p := by
        rw [Nat.add_mul, Nat.one_mul]
        omega
    _ ≤ 2 ^ k * deltau d p := Nat.mul_le_mul_right _ hnc
    _ < 2 ^ k * d := Nat.mul_lt_mul_of_pos_left hlt (Nat.two_pow_pos k)

theorem Multiple.fits_succ (H : Multiple k d nc) {p : Nat} (hcont : 2 ^ p ≤ nc * deltau d p) :
    (2 ^ (p + 1) - 1) / d + 1 < 2 ^ (k + 1) := by
  have htwo := H.two_le
  have hmul := mul_deltau (show 0 < d by omega) (p + 1)
  have hlt := deltau_lt (show 0 < d by omega) p
  have hlt' := deltau_lt (show 0 < d by omega) (p + 1)
  obtain ⟨-, -, hnc⟩ := H.nc_spec
  have hbound : nc * deltau d p + nc ≤ nc * d := by
    exact Nat.mul_le_mul_left nc hlt
  refine Nat.lt_of_mul_lt_mul_right (a := d) ?_
  rw [hmul]
  calc 2 ^ (p + 1) + deltau d (p + 1) < 2 * (nc * deltau d p) + d := by
        omega
    _ ≤ 2 * (nc * d) + d := by omega
    _ ≤ 2 * (2 ^ k * d) := by
        have hmul : (nc + 1) * d ≤ 2 ^ k * d := Nat.mul_le_mul_right d hnc
        rw [Nat.add_mul, Nat.one_mul] at hmul
        omega
    _ = 2 ^ (k + 1) * d := by rw [Nat.pow_succ]; ring

theorem Multiple.quotient_fits (H : Multiple k d nc) (hk : k ≤ w) {p : Nat} (hlow : w ≤ p)
    (hp : p + 1 < 2 * w) (hcont : 2 ^ p ≤ nc * deltau d p) : 2 ^ (p + 1) / nc < 2 ^ w := by
  have htwo := H.two_le
  have hlt := deltau_lt (show 0 < d by omega) p
  obtain ⟨hdvd, hle, hnc⟩ := H.nc_spec
  rw [Nat.div_lt_iff_lt_mul (by omega)]
  rcases Nat.lt_or_ge k w with hkw | hkw
  · have hpow : 2 * 2 ^ k ≤ 2 ^ w := by
      rw [← Nat.pow_succ']
      exact Nat.pow_le_pow_right (by omega) hkw
    calc 2 ^ (p + 1) = 2 * 2 ^ p := Nat.pow_succ'
      _ ≤ 2 * (nc * deltau d p) := Nat.mul_le_mul_left 2 hcont
      _ < 2 * (nc * 2 ^ k) :=
          Nat.mul_lt_mul_of_pos_left (Nat.mul_lt_mul_of_pos_left (by omega) (by omega)) (by omega)
      _ = 2 * 2 ^ k * nc := by ring
      _ ≤ 2 ^ w * nc := Nat.mul_le_mul_right nc hpow
  · obtain rfl : k = w := by omega
    have hw : 0 < k := by omega
    have hpow := WrapAround.two_pow_eq_two_mul hw
    have hnc' := H.nc_eq
    have hr : (2 ^ k - 1) % d < d := mod_lt _ (by omega)
    have hne : nc ≠ 2 ^ (k - 1) := by
      -- such a divisor has no error, and the search ends at once
      intro heq
      have hkp : k - 1 ≤ p := by omega
      have hzero := deltau_eq_zero (show 0 < d by omega)
        ((heq ▸ hdvd).trans (Nat.pow_dvd_pow 2 hkp))
      rw [hzero, Nat.mul_zero] at hcont
      have := Nat.two_pow_pos p
      omega
    calc 2 ^ (p + 1) ≤ 2 ^ (k + (k - 1)) := Nat.pow_le_pow_right (by omega) (by omega)
      _ = 2 ^ k * 2 ^ (k - 1) := Nat.pow_add ..
      _ < 2 ^ k * nc := Nat.mul_lt_mul_of_pos_left (by omega) (by omega)

theorem Multiple.quotient_fits_step (H : Multiple k d nc) (hk : k ≤ w) {p : Nat}
    (hlow : w - 1 ≤ p) (hp : p + 1 < 2 * w)
    (hprev : p + 1 = w ∨ 2 ^ p ≤ nc * deltau d p) : 2 ^ (p + 1) / nc < 2 ^ w := by
  have htwo := H.two_le
  obtain ⟨-, hle, -⟩ := H.nc_spec
  by_cases hfirst : p + 1 = w
  · rw [hfirst]
    exact Nat.div_lt_self (Nat.two_pow_pos w) (by omega)
  · exact H.quotient_fits hk (by omega) hp (hprev.resolve_left hfirst)

end Multiple

/-! ## The search -/

theorem ofNat_sub_of_le {a : BitVec w} {y : Nat} (h : a.toNat ≤ y) :
    BitVec.ofNat w y - a = BitVec.ofNat w (y - a.toNat) := by
  have ha : BitVec.ofNat w a.toNat = a := by
    apply eq_of_toNat_eq
    rw [toNat_ofNat, mod_eq_of_lt a.isLt]
  rw [BitVec.sub_eq_iff_eq_add]
  calc BitVec.ofNat w y = BitVec.ofNat w (y - a.toNat + a.toNat) := by
        rw [Nat.sub_add_cancel h]
    _ = BitVec.ofNat w (y - a.toNat) + a := by rw [ofNat_add, ha]

theorem doubledNc_eq {nc : BitVec w} (hnc : 0 < nc.toNat) (x : Nat) :
    doubledNc nc (BitVec.ofNat w (x / nc.toNat)) (BitVec.ofNat w (x % nc.toNat)) =
      (BitVec.ofNat w (2 * x / nc.toNat), BitVec.ofNat w (2 * x % nc.toNat)) := by
  have hr : x % nc.toNat < nc.toNat := mod_lt x hnc
  have hrw : x % nc.toNat < 2 ^ w := by omega
  obtain ⟨hdiv, hmod⟩ := double_div_mod hnc x 0 (by omega)
  simp only [Nat.add_zero] at hdiv hmod
  have hcmp : nc - BitVec.ofNat w (x % nc.toNat) ≤ BitVec.ofNat w (x % nc.toNat) ↔
      nc.toNat ≤ 2 * (x % nc.toNat) := by
    have hle : BitVec.ofNat w (x % nc.toNat) ≤ nc := by
      rw [le_def, toNat_ofNat, mod_eq_of_lt hrw]
      exact hr.le
    rw [le_def, toNat_sub_of_le hle, toNat_ofNat, mod_eq_of_lt hrw]
    omega
  unfold doubledNc
  simp only [hcmp, hdiv, hmod, ← ofNat_add, ← Nat.two_mul]
  split
  · rename_i hge
    refine Prod.ext ?_ (ofNat_sub_of_le hge)
    show BitVec.ofNat w (2 * (x / nc.toNat)) + BitVec.ofNat w 1 = _
    rw [← ofNat_add]
  · rfl

theorem doubledPred_eq {d : BitVec w} (hw : 0 < w) (hd : 0 < d.toNat) {x : Nat}
    (hfits : x / d.toNat < 2 ^ w) (a : Bool) :
    doubledPred d (BitVec.ofNat w (x / d.toNat)) (BitVec.ofNat w (x % d.toNat)) a =
      (BitVec.ofNat w ((2 * x + 1) / d.toNat), BitVec.ofNat w ((2 * x + 1) % d.toNat),
        a || decide (2 ^ w ≤ (2 * x + 1) / d.toNat + 1)) := by
  have hr : x % d.toNat < d.toNat := mod_lt x hd
  have hrw : x % d.toNat < 2 ^ w := by omega
  have hpow := WrapAround.two_pow_eq_two_mul hw
  obtain ⟨hdiv, hmod⟩ := double_div_mod hd x 1 (Nat.le_refl _)
  have hone : (1 : BitVec w) = BitVec.ofNat w 1 := rfl
  have hcmp : d - BitVec.ofNat w (x % d.toNat) ≤ BitVec.ofNat w (x % d.toNat) + 1 ↔
      d.toNat ≤ 2 * (x % d.toNat) + 1 := by
    have hle : BitVec.ofNat w (x % d.toNat) ≤ d := by
      rw [le_def, toNat_ofNat, mod_eq_of_lt hrw]
      exact hr.le
    rw [le_def, toNat_sub_of_le hle, hone, ← ofNat_add, toNat_ofNat, toNat_ofNat, mod_eq_of_lt hrw,
        mod_eq_of_lt (show x % d.toNat + 1 < 2 ^ w by omega)]
    omega
  have hmax : intMax w ≤ BitVec.ofNat w (x / d.toNat) ↔ 2 ^ w ≤ 2 * (x / d.toNat) + 1 + 1 := by
    rw [le_def, toNat_intMax, toNat_ofNat, mod_eq_of_lt hfits]
    omega
  have hmin : intMin w ≤ BitVec.ofNat w (x / d.toNat) ↔ 2 ^ w ≤ 2 * (x / d.toNat) + 1 := by
    rw [le_def, toNat_intMin hw, toNat_ofNat, mod_eq_of_lt hfits]
    omega
  unfold doubledPred
  simp only [hcmp, hdiv, hmod]
  simp only [hmax, hmin, hone, ← ofNat_add, ← Nat.two_mul]
  split
  · rename_i hge
    exact Prod.ext rfl (Prod.ext (ofNat_sub_of_le hge) rfl)
  · rfl

/-- The variables are the quotients and the remainders of the power and of the number below
it. -/
structure Exactu (d nc : BitVec w) (S : MagicuState w) : Prop where
  q1 : S.q1 = BitVec.ofNat w (2 ^ S.p / nc.toNat)
  r1 : S.r1 = BitVec.ofNat w (2 ^ S.p % nc.toNat)
  q2 : S.q2 = BitVec.ofNat w ((2 ^ S.p - 1) / d.toNat)
  r2 : S.r2 = BitVec.ofNat w ((2 ^ S.p - 1) % d.toNat)
  a : S.a = decide (2 ^ w ≤ (2 ^ S.p - 1) / d.toNat + 1)

section Search

variable {k : Nat} {d nc : BitVec w}

theorem Exactu.step {S : MagicuState w} (hS : Exactu d nc S) (hw : 0 < w)
    (H : Multiple k d.toNat nc.toNat) (hfits : (2 ^ S.p - 1) / d.toNat + 1 < 2 ^ w) :
    Exactu d nc (magicuStep d nc S) := by
  have htwo := H.two_le
  obtain ⟨-, hle, -⟩ := H.nc_spec
  have hpow : 2 ^ (S.p + 1) = 2 * 2 ^ S.p := Nat.pow_succ'
  have hpred : 2 ^ (S.p + 1) - 1 = 2 * (2 ^ S.p - 1) + 1 := by
    have := Nat.two_pow_pos S.p
    omega
  have ha : S.a = false := by
    rw [hS.a]
    exact decide_eq_false (by omega)
  have h1 := doubledNc_eq (show 0 < nc.toNat by omega) (2 ^ S.p)
  have h2 := doubledPred_eq (d := d) hw (by omega) (x := 2 ^ S.p - 1) (by omega) S.a
  rw [← hS.q1, ← hS.r1, ← hpow] at h1
  rw [← hS.q2, ← hS.r2, ← hpred] at h2
  refine ⟨congrArg Prod.fst h1, congrArg Prod.snd h1, congrArg Prod.fst h2,
    congrArg (fun r => r.2.1) h2, (congrArg (fun r => r.2.2) h2).trans ?_⟩
  rw [ha, Bool.false_or]
  rfl

theorem Exactu.continues_iff {S : MagicuState w} (hS : Exactu d nc S) (hw : 0 < w)
    (H : Multiple k d.toNat nc.toNat) (hfits : 2 ^ S.p / nc.toNat < 2 ^ w) :
    (S.q1 < d - 1 - S.r2 ∨ S.q1 = d - 1 - S.r2 ∧ S.r1 = 0) ↔
      2 ^ S.p ≤ nc.toNat * deltau d.toNat S.p := by
  have htwo := H.two_le
  obtain ⟨-, hle, -⟩ := H.nc_spec
  have hr1 : 2 ^ S.p % nc.toNat < nc.toNat := mod_lt _ (by omega)
  have hr2 : (2 ^ S.p - 1) % d.toNat < d.toNat := mod_lt _ (by omega)
  have hone := toNat_one hw
  have hq : S.q1.toNat = 2 ^ S.p / nc.toNat := by
    rw [hS.q1, toNat_ofNat, mod_eq_of_lt hfits]
  have hr : S.r1.toNat = 2 ^ S.p % nc.toNat := by
    rw [hS.r1, toNat_ofNat, mod_eq_of_lt (by have := nc.isLt; omega)]
  have hr2' : S.r2.toNat = (2 ^ S.p - 1) % d.toNat := by
    rw [hS.r2, toNat_ofNat, mod_eq_of_lt (by have := d.isLt; omega)]
  have hsub : (d - 1).toNat = d.toNat - 1 := by
    rw [toNat_sub_of_le (by rw [le_def, hone]; omega), hone]
  have hdelta : (d - 1 - S.r2).toNat = deltau d.toNat S.p := by
    rw [toNat_sub_of_le (by rw [le_def, hsub]; omega), hsub, hr2', deltau]
  rw [le_mul_iff (by omega), lt_def, ← toNat_inj, ← toNat_inj, hq, hr, hdelta]
  simp

/-- What is found by a search: the multiplier is exact enough, and it was not at the power
before. -/
structure Foundu (d nc : BitVec w) (S : MagicuState w) : Prop where
  q2 : S.q2 = BitVec.ofNat w ((2 ^ S.p - 1) / d.toNat)
  a : S.a = decide (2 ^ w ≤ (2 ^ S.p - 1) / d.toNat + 1)
  le : w ≤ S.p
  le_two_mul : S.p ≤ 2 * w
  crit : nc.toNat * deltau d.toNat S.p < 2 ^ S.p
  prev : S.p = w ∨ 2 ^ (S.p - 1) ≤ nc.toNat * deltau d.toNat (S.p - 1)

theorem magicuLoop_found {S : MagicuState w} (hw : 2 ≤ w) (hk : k ≤ w)
    (H : Multiple k d.toNat nc.toNat) (hS : Exactu d nc S) (hlow : w - 1 ≤ S.p)
    (hhigh : S.p < 2 * w) (hfits : (2 ^ S.p - 1) / d.toNat + 1 < 2 ^ w)
    (hprev : S.p + 1 = w ∨ 2 ^ S.p ≤ nc.toNat * deltau d.toNat S.p) :
    Foundu d nc (magicuLoop d nc S) := by
  have htwo := H.two_le
  fun_induction magicuLoop d nc S with
  | case1 S S' delta hcont ih =>
    have hp : S'.p = S.p + 1 := rfl
    have hS' : Exactu d nc S' := hS.step (by omega) H hfits
    have hquot : 2 ^ S'.p / nc.toNat < 2 ^ w :=
      H.quotient_fits_step hk hlow (by omega) hprev
    have hcont' := (hS'.continues_iff (by omega) H hquot).mp hcont.2
    refine ih hS' (by omega) (by omega) ?_ (.inr hcont')
    exact lt_of_lt_of_le (H.fits_of_continues hcont') (Nat.pow_le_pow_right (by omega) hk)
  | case2 S S' delta hstop =>
    have hp : S'.p = S.p + 1 := rfl
    have hS' : Exactu d nc S' := hS.step (by omega) H hfits
    refine ⟨hS'.q2, hS'.a, by omega, by omega, ?_, ?_⟩
    · by_cases hend : S'.p < w * 2
      · have hquot : 2 ^ S'.p / nc.toNat < 2 ^ w :=
          H.quotient_fits_step hk hlow (by omega) hprev
        have hiff := hS'.continues_iff (by omega) H hquot
        exact Nat.lt_of_not_le fun hle => hstop ⟨hend, hiff.mpr hle⟩
      · rw [show S'.p = w + w by omega, Nat.pow_add]
        have hlt := deltau_lt (show 0 < d.toNat by omega) (w + w)
        have hn := nc.isLt
        exact Nat.mul_lt_mul_of_lt_of_le hn (by omega) (Nat.two_pow_pos w)
    · rcases hprev with hfirst | hprev
      · exact .inl (by omega)
      · exact .inr hprev

end Search

/-! ## The magic number -/

/-- The magic number of a divisor: the multiplier `M` at the scale `2 ^ p` finds the quotients of
the dividends of `k` bits. -/
structure IsMagicu (k : Nat) (d : BitVec w) (r : Mu w) (M p δ : Nat) : Prop where
  m : r.m = BitVec.ofNat w M
  a : r.a = decide (2 ^ w ≤ M)
  s : p = w + r.s
  s_le : r.s ≤ w
  fits : M < 2 ^ w ∨ w < p ∧ M < 2 ^ (k + 1)
  fits_pow : d.toNat ∣ 2 ^ w → M < 2 ^ w
  mul : M * d.toNat = 2 ^ p + δ
  error : ∀ n, n < 2 ^ k → n * δ < 2 ^ p * (d.toNat - n % d.toNat)

theorem toNat_allOnes_shift {lz : Nat} (h : lz ≤ w) :
    (allOnes w >>> lz).toNat = 2 ^ (w - lz) - 1 := by
  rw [toNat_ushiftRight, toNat_allOnes, shiftRight_eq_div_pow]
  have hsplit : 2 ^ w = 2 ^ lz * 2 ^ (w - lz) := by
    rw [← Nat.pow_add, add_sub_of_le h]
  have hpos := Nat.two_pow_pos lz
  have hpos' := Nat.two_pow_pos (w - lz)
  apply Nat.div_eq_of_lt_le
  · rw [Nat.sub_mul, hsplit, Nat.one_mul, Nat.mul_comm]
    omega
  · rw [Nat.sub_add_cancel hpos', Nat.mul_comm, ← hsplit]
    have := Nat.two_pow_pos w
    omega

theorem magicu_spec {d : BitVec w} {lz : Nat} (hw : 2 ≤ w) (hlz : lz ≤ w) (hd : 2 ≤ d.toNat)
    (hlt : d.toNat < 2 ^ (w - lz)) :
    ∃ M p δ, IsMagicu (w - lz) d (magicu d lz) M p δ := by
  have hmin := toNat_intMin (w := w) (by omega)
  have hmax : (intMax w).toNat = 2 ^ (w - 1) - 1 := toNat_intMax
  have hones := toNat_allOnes_shift hlz
  let ones := allOnes w >>> lz
  -- the critical dividend
  have hsub : (ones - d).toNat = 2 ^ (w - lz) - 1 - d.toNat := by
    rw [toNat_sub_of_le (by rw [le_def, hones]; omega), hones]
  have hmod : ((ones - d) % d).toNat = (2 ^ (w - lz) - 1) % d.toNat := by
    rw [toNat_umod, hsub, ← mod_eq_sub_mod (by omega)]
  have hmodle : (2 ^ (w - lz) - 1) % d.toNat ≤ 2 ^ (w - lz) - 1 := mod_le _ _
  have hnc : (ones - (ones - d) % d).toNat + (2 ^ (w - lz) - 1) % d.toNat = 2 ^ (w - lz) - 1 := by
    rw [toNat_sub_of_le (by rw [le_def, hmod, hones]; exact hmodle), hmod, hones]
    omega
  have H : Multiple (w - lz) d.toNat (ones - (ones - d) % d).toNat := ⟨hd, hlt, hnc⟩
  -- the search from the power below the width
  let S : MagicuState w := ⟨w - 1, intMin w / (ones - (ones - d) % d),
    intMin w - intMin w / (ones - (ones - d) % d) * (ones - (ones - d) % d),
    intMax w / d, intMax w - intMax w / d * d, false⟩
  have hquot : ∀ x a : BitVec w, x / a = BitVec.ofNat w (x.toNat / a.toNat) := by
    intro x a
    apply eq_of_toNat_eq
    rw [toNat_udiv, toNat_ofNat, mod_eq_of_lt (lt_of_le_of_lt (Nat.div_le_self _ _) x.isLt)]
  have hle : (2 ^ (w - 1) - 1) / d.toNat ≤ 2 ^ (w - 1) - 1 := Nat.div_le_self _ _
  have hS : Exactu d (ones - (ones - d) % d) S := by
    refine ⟨(hquot _ _).trans (by rw [hmin]), (sub_div_mul _ _).trans (by rw [hmin]),
      (hquot _ _).trans (by rw [hmax]), (sub_div_mul _ _).trans (by rw [hmax]), ?_⟩
    exact (decide_eq_false (by show ¬2 ^ w ≤ (2 ^ (w - 1) - 1) / d.toNat + 1; omega)).symm
  have hfound := magicuLoop_found (k := w - lz) hw (by omega) H hS (Nat.le_refl _)
    (by show w - 1 < 2 * w; omega)
    (by show (2 ^ (w - 1) - 1) / d.toNat + 1 < 2 ^ w; omega)
    (.inl (by show w - 1 + 1 = w; omega))
  obtain ⟨hq2, ha, hlow, hhigh, hcrit, hprev⟩ := hfound
  generalize hS' : magicuLoop d (ones - (ones - d) % d) S = S' at *
  have hmagic : magicu d lz = ⟨S'.q2 + 1, S'.a, S'.p - w⟩ := by
    rw [← hS']
    rfl
  have hfirst : S'.p = w → (2 ^ S'.p - 1) / d.toNat + 1 < 2 ^ w := by
    intro hp
    have hmul := mul_deltau (show 0 < d.toNat by omega) S'.p
    have hdelta := deltau_lt (show 0 < d.toNat by omega) S'.p
    refine Nat.lt_of_mul_lt_mul_right (a := d.toNat) ?_
    rw [hmul, hp]
    rw [hp] at hdelta
    calc 2 ^ w + deltau d.toNat w < 2 ^ w * 2 := by omega
      _ ≤ 2 ^ w * d.toNat := Nat.mul_le_mul_left _ hd
  rw [hmagic]
  refine ⟨(2 ^ S'.p - 1) / d.toNat + 1, S'.p, deltau d.toNat S'.p, ?_, ha,
    by show S'.p = w + (S'.p - w); omega, by show S'.p - w ≤ w; omega, ?_, fun hdvd => ?_,
    mul_deltau (by omega) _, fun n hn => H.error (by omega) hcrit hn⟩
  · rw [ofNat_add, ← hq2]
    rfl
  · by_cases hp : S'.p = w
    · exact .inl (hfirst hp)
    · right
      have hprev' := H.fits_succ (hprev.resolve_left hp)
      rw [Nat.sub_add_cancel (by omega)] at hprev'
      exact ⟨by omega, hprev'⟩
  · by_contra hbig
    have hp : S'.p ≠ w := fun hp => hbig (hfirst hp)
    have hcont := hprev.resolve_left hp
    have hzero : deltau d.toNat (S'.p - 1) = 0 :=
      deltau_eq_zero (by omega) (hdvd.trans (Nat.pow_dvd_pow 2 (by omega)))
    rw [hzero, Nat.mul_zero] at hcont
    have := Nat.two_pow_pos (S'.p - 1)
    omega

end Zapcc.Magic
