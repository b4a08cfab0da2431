import Mathlib.Data.Nat.ModEq
import Zapcc.Support.APIntGCD
import Zapcc.Support.MathExtras

/-!
# Immediates of MIPS

`Analyze` builds the sequences of instructions that load an immediate, from the last instruction to
the first, and takes the shortest one. A sequence that is built for some bits of the immediate is
right in these bits.
-/

namespace Zapcc.MipsAnalyzeImmediate

open APInt MathExtras OddParts Nat

/-- The instructions that load an immediate. -/
inductive Opcode
  | ADDiu | ORi | SLL | LUi | DADDiu | ORi64 | DSLL | LUi64
  deriving DecidableEq

structure Inst where
  Opc : Opcode
  ImmOpnd : Nat

abbrev InstSeq := List Inst

abbrev InstSeqLs := List InstSeq

/-! The members of the class that `Analyze` sets from the size. -/

def ADDiu (Size : Nat) : Opcode := if Size = 32 then .ADDiu else .DADDiu

def ORi (Size : Nat) : Opcode := if Size = 32 then .ORi else .ORi64

def SLL (Size : Nat) : Opcode := if Size = 32 then .SLL else .DSLL

def LUi (Size : Nat) : Opcode := if Size = 32 then .LUi else .LUi64

def AddInstr (SeqLs : InstSeqLs) (I : Inst) : InstSeqLs :=
  if SeqLs = [] then [[I]] else SeqLs.map (· ++ [I])

/-- The bits above the lowest sixteen. -/
def highBits (Imm : BitVec 64) : BitVec 64 := Imm &&& 0xffffffffffff0000#64

theorem toNat_highBits (Imm : BitVec 64) : (highBits Imm).toNat = Imm.toNat / 2 ^ 16 * 2 ^ 16 := by
  have hsplit : highBits Imm = (Imm >>> 16) <<< 16 := by
    refine BitVec.eq_of_getLsbD_eq fun i hi => ?_
    have hmask : (0xffffffffffff0000#64).getLsbD i = decide (16 ≤ i) := by
      revert i
      decide
    rw [highBits, BitVec.getLsbD_and, hmask, BitVec.getLsbD_shiftLeft, BitVec.getLsbD_ushiftRight]
    by_cases hlt : i < 16
    · simp [hlt]
    · simp [hlt, hi, Nat.not_lt.mp hlt]
  rw [hsplit, BitVec.toNat_shiftLeft, BitVec.toNat_ushiftRight, shiftRight_eq_div_pow,
    Nat.shiftLeft_eq]
  omega

theorem toNat_add_const (Imm : BitVec 64) :
    (Imm + 0x8000#64).toNat = (Imm.toNat + 2 ^ 15) % 2 ^ 64 := by
  rw [BitVec.toNat_add]
  rfl

theorem toNat_lowBits (Imm : BitVec 64) : (Imm &&& 0xffff#64).toNat = Imm.toNat % 2 ^ 16 := by
  exact and_two_pow_sub_one_eq_mod Imm.toNat 16

theorem lowBits_eq_zero_iff {Imm : BitVec 64} :
    Imm &&& 0xffff#64 = 0#64 ↔ Imm.toNat % 2 ^ 16 = 0 := by
  rw [← toNat_lowBits, ← BitVec.toNat_inj]
  rfl

/-- The shifts and the carries that an immediate still needs, for the termination. -/
def weight (Imm : BitVec 64) : Nat :=
  4 * ((Imm.toNat + 2 ^ 15) / 2 ^ 16) + if Imm.toNat % 2 ^ 16 = 0 then 0 else 2

theorem weight_highBits_add (Imm : BitVec 64) :
    weight (highBits (Imm + 0x8000#64)) ≤ 4 * ((Imm.toNat + 2 ^ 15) / 2 ^ 16) := by
  unfold weight
  rw [toNat_highBits, toNat_add_const, if_pos (by omega)]
  omega

theorem weight_highBits (Imm : BitVec 64) :
    weight (highBits Imm) ≤ 4 * ((Imm.toNat + 2 ^ 15) / 2 ^ 16) := by
  unfold weight
  rw [toNat_highBits, if_pos (by omega)]
  omega

theorem shift_spec {Imm : BitVec 64} (hImm : Imm ≠ 0#64) (hlow : Imm.toNat % 2 ^ 16 = 0) :
    16 ≤ countTrailingZeros Imm ∧
      (Imm >>> countTrailingZeros Imm).toNat * 2 ^ countTrailingZeros Imm = Imm.toNat := by
  have hodd := oddMultiple_countTrailingZeros hImm
  refine ⟨hodd.le_of_dvd (dvd_of_mod_eq_zero hlow), ?_⟩
  obtain ⟨m, hm⟩ := hodd
  rw [BitVec.toNat_ushiftRight, shiftRight_eq_div_pow]
  exact Nat.div_mul_cancel ⟨_, hm⟩

theorem weight_shift {Imm : BitVec 64} (hImm : Imm ≠ 0#64) (hlow : Imm.toNat % 2 ^ 16 = 0) :
    weight (Imm >>> countTrailingZeros Imm) + 1 < weight Imm := by
  obtain ⟨hle, hmul⟩ := shift_spec hImm hlow
  have hpow := Nat.mul_le_mul_left (Imm >>> countTrailingZeros Imm).toNat
    (Nat.pow_le_pow_right (show 0 < 2 by decide) hle)
  have hne : Imm.toNat ≠ 0 := fun h => hImm (BitVec.eq_of_toNat_eq h)
  unfold weight
  split <;> omega

/-- The bits of an immediate that the size keeps. -/
def maskedImm (Size : Nat) (Imm : BitVec 64) : BitVec 64 :=
  Imm &&& (0xffffffffffffffff#64 >>> (64 - Size))

mutual

def GetInstSeqLsADDiu (Size : Nat) (Imm : BitVec 64) (RemSize : Nat) (SeqLs : InstSeqLs) :
    InstSeqLs :=
  AddInstr (GetInstSeqLs Size (highBits (Imm + 0x8000#64)) RemSize SeqLs)
    ⟨ADDiu Size, (Imm &&& 0xffff#64).toNat⟩
  termination_by 4 * ((Imm.toNat + 2 ^ 15) / 2 ^ 16) + 1
  decreasing_by exact lt_succ_of_le (weight_highBits_add Imm)

def GetInstSeqLsORi (Size : Nat) (Imm : BitVec 64) (RemSize : Nat) (SeqLs : InstSeqLs) :
    InstSeqLs :=
  AddInstr (GetInstSeqLs Size (highBits Imm) RemSize SeqLs) ⟨ORi Size, (Imm &&& 0xffff#64).toNat⟩
  termination_by 4 * ((Imm.toNat + 2 ^ 15) / 2 ^ 16) + 1
  decreasing_by exact lt_succ_of_le (weight_highBits Imm)

def GetInstSeqLsSLL (Size : Nat) (Imm : BitVec 64) (RemSize : Nat) (SeqLs : InstSeqLs) :
    InstSeqLs :=
  let Shamt := countTrailingZeros Imm
  AddInstr (GetInstSeqLs Size (Imm >>> Shamt) (subUnsigned RemSize Shamt) SeqLs) ⟨SLL Size, Shamt⟩
  termination_by weight (Imm >>> countTrailingZeros Imm) + 1
  decreasing_by exact lt_succ_self _

def GetInstSeqLs (Size : Nat) (Imm : BitVec 64) (RemSize : Nat) (SeqLs : InstSeqLs) : InstSeqLs :=
  if hmasked : maskedImm Size Imm = 0#64 then SeqLs
  else if RemSize ≤ 16 then
    AddInstr SeqLs ⟨ADDiu Size, toUnsigned (maskedImm Size Imm).toNat⟩
  else if hlow : Imm &&& 0xffff#64 = 0#64 then GetInstSeqLsSLL Size Imm RemSize SeqLs
  else
    let SeqLs := GetInstSeqLsADDiu Size Imm RemSize SeqLs
    if Imm &&& 0x8000#64 ≠ 0#64 then SeqLs ++ GetInstSeqLsORi Size Imm RemSize [] else SeqLs
  termination_by weight Imm
  decreasing_by
  · refine weight_shift ?_ (lowBits_eq_zero_iff.mp hlow)
    rintro rfl
    exact hmasked BitVec.zero_and
  · rw [lowBits_eq_zero_iff] at hlow
    simp only [weight, if_neg hlow]
    omega
  · rw [lowBits_eq_zero_iff] at hlow
    simp only [weight, if_neg hlow]
    omega

end

def signExtend16 (Opnd : Nat) : BitVec 64 := (BitVec.ofNat 16 Opnd).signExtend 64

def isInt16 (Imm : BitVec 64) : Bool := decide (-2 ^ 15 ≤ Imm.toInt) && decide (Imm.toInt < 2 ^ 15)

def ReplaceADDiuSLLWithLUi (Size : Nat) : InstSeq → InstSeq
  | I₀ :: I₁ :: Seq =>
    if I₀.Opc ≠ ADDiu Size ∨ I₁.Opc ≠ SLL Size ∨ I₁.ImmOpnd < 16 then I₀ :: I₁ :: Seq
    else
      let ShiftedImm := signExtend16 I₀.ImmOpnd <<< (I₁.ImmOpnd - 16)
      if isInt16 ShiftedImm = false then I₀ :: I₁ :: Seq
      else ⟨LUi Size, (ShiftedImm &&& 0xffff#64).toNat⟩ :: Seq
  | Seq => Seq

/-- The loop of `GetShortestSeq`. There is no result when its assertion fails. -/
def shortestLoop (Size : Nat) : InstSeqLs → Option InstSeq → Nat → Option InstSeq
  | [], ShortestSeq, _ => ShortestSeq
  | S :: SeqLs, ShortestSeq, ShortestLength =>
    let S := ReplaceADDiuSLLWithLUi Size S
    if 7 < S.length then none
    else if S.length < ShortestLength then shortestLoop Size SeqLs (some S) S.length
    else shortestLoop Size SeqLs ShortestSeq ShortestLength

/-- There is no result when the end of the list would be read. -/
def GetShortestSeq (Size : Nat) (SeqLs : InstSeqLs) : Option InstSeq :=
  shortestLoop Size SeqLs none 8

def Analyze (Imm : BitVec 64) (Size : Nat) (LastInstrIsADDiu : Bool) : Option InstSeq :=
  GetShortestSeq Size
    (if LastInstrIsADDiu = true ∨ Imm = 0#64 then GetInstSeqLsADDiu Size Imm Size []
    else GetInstSeqLs Size Imm Size [])

/-! ## The meaning of the instructions -/

/-- An instruction on a register of `w` bits. -/
def exec (w : Nat) (x : Nat) (I : Inst) : Nat :=
  match I.Opc with
  | .ADDiu | .DADDiu => (x + (signExtend16 I.ImmOpnd).toNat) % 2 ^ w
  | .ORi | .ORi64 => x ||| I.ImmOpnd % 2 ^ 16
  | .SLL | .DSLL => x * 2 ^ I.ImmOpnd % 2 ^ w
  | .LUi | .LUi64 => (signExtend16 I.ImmOpnd).toNat * 2 ^ 16 % 2 ^ w

/-- A sequence, from the zero register. -/
def execute (w : Nat) (Seq : InstSeq) : Nat := Seq.foldl (exec w) 0

@[simp] theorem execute_append (w : Nat) (Seq : InstSeq) (I : Inst) :
    execute w (Seq ++ [I]) = exec w (execute w Seq) I := by
  simp [execute]

theorem exec_ADDiu (w Size x n : Nat) :
    exec w x ⟨ADDiu Size, n⟩ = (x + (signExtend16 n).toNat) % 2 ^ w := by
  unfold ADDiu
  split <;> rfl

theorem exec_ORi (w Size x n : Nat) : exec w x ⟨ORi Size, n⟩ = x ||| n % 2 ^ 16 := by
  unfold ORi
  split <;> rfl

theorem exec_SLL (w Size x n : Nat) : exec w x ⟨SLL Size, n⟩ = x * 2 ^ n % 2 ^ w := by
  unfold SLL
  split <;> rfl

theorem exec_LUi (w Size x n : Nat) :
    exec w x ⟨LUi Size, n⟩ = (signExtend16 n).toNat * 2 ^ 16 % 2 ^ w := by
  unfold LUi
  split <;> rfl

theorem execute_lt {w : Nat} (hw : 16 ≤ w) (Seq : InstSeq) : execute w Seq < 2 ^ w := by
  have hexec (x : Nat) (I : Inst) (hx : x < 2 ^ w) : exec w x I < 2 ^ w := by
    have hlow : I.ImmOpnd % 2 ^ 16 < 2 ^ w :=
      (mod_lt _ (Nat.two_pow_pos 16)).trans_le (Nat.pow_le_pow_right two_pos hw)
    unfold exec
    split
    all_goals first
      | exact mod_lt _ (Nat.two_pow_pos w)
      | exact or_lt_two_pow hx hlow
  induction Seq using List.reverseRecOn with
  | nil => exact Nat.two_pow_pos w
  | append_singleton Seq I ih =>
    rw [execute_append]
    exact hexec _ I ih

theorem mod_register {w r : Nat} (hr : r ≤ w) (x : Nat) : x % 2 ^ w ≡ x [MOD 2 ^ r] :=
  (mod_modEq x (2 ^ w)).of_dvd (Nat.pow_dvd_pow 2 hr)

theorem toNat_signExtend16 (n : Nat) :
    (signExtend16 n).toNat = n % 2 ^ 16 + if n % 2 ^ 16 < 2 ^ 15 then 0 else 2 ^ 64 - 2 ^ 16 := by
  unfold signExtend16
  rw [BitVec.toNat_signExtend, BitVec.toNat_setWidth, BitVec.toNat_ofNat, BitVec.msb_eq_decide,
    BitVec.toNat_ofNat]
  simp only [decide_eq_true_eq]
  split <;> split <;> omega

theorem exec_ADDiu_carry {w r Size x : Nat} {Imm : BitVec 64} (hw : w ≤ 64) (hr : r ≤ w)
    (hx : x ≡ (highBits (Imm + 0x8000#64)).toNat [MOD 2 ^ r]) :
    exec w x ⟨ADDiu Size, (Imm &&& 0xffff#64).toNat⟩ ≡ Imm.toNat [MOD 2 ^ r] := by
  have hsum : (highBits (Imm + 0x8000#64)).toNat + (signExtend16 (Imm &&& 0xffff#64).toNat).toNat ≡
      Imm.toNat [MOD 2 ^ 64] := by
    rw [toNat_highBits, toNat_add_const, toNat_signExtend16, toNat_lowBits]
    unfold ModEq
    split <;> omega
  rw [exec_ADDiu]
  calc (x + (signExtend16 (Imm &&& 0xffff#64).toNat).toNat) % 2 ^ w
      ≡ x + (signExtend16 (Imm &&& 0xffff#64).toNat).toNat [MOD 2 ^ r] := mod_register hr _
    _ ≡ (highBits (Imm + 0x8000#64)).toNat + (signExtend16 (Imm &&& 0xffff#64).toNat).toNat
        [MOD 2 ^ r] := hx.add_right _
    _ ≡ Imm.toNat [MOD 2 ^ r] := hsum.of_dvd (Nat.pow_dvd_pow 2 (hr.trans hw))

theorem exec_ORi_low {w r Size x : Nat} {Imm : BitVec 64} (hr : 16 ≤ r)
    (hx : x ≡ (highBits Imm).toNat [MOD 2 ^ r]) :
    exec w x ⟨ORi Size, (Imm &&& 0xffff#64).toNat⟩ ≡ Imm.toNat [MOD 2 ^ r] := by
  have hlow : x % 2 ^ 16 = 0 := by
    have hmod := hx.of_dvd (Nat.pow_dvd_pow 2 hr)
    rw [toNat_highBits] at hmod
    unfold ModEq at hmod
    omega
  have hor := two_pow_add_eq_or_of_lt (mod_lt Imm.toNat (Nat.two_pow_pos 16)) (x / 2 ^ 16)
  rw [Nat.mul_div_cancel' (dvd_of_mod_eq_zero hlow)] at hor
  rw [exec_ORi, toNat_lowBits, mod_mod, ← hor]
  calc x + Imm.toNat % 2 ^ 16 ≡ (highBits Imm).toNat + Imm.toNat % 2 ^ 16 [MOD 2 ^ r] :=
        hx.add_right _
    _ = Imm.toNat := by
        rw [toNat_highBits]
        omega

theorem exec_SLL_shift {w r Size x Shamt : Nat} {Imm : BitVec 64} (hr : r ≤ w) (hShamt : Shamt ≤ r)
    (hmul : (Imm >>> Shamt).toNat * 2 ^ Shamt = Imm.toNat)
    (hx : x ≡ (Imm >>> Shamt).toNat [MOD 2 ^ (r - Shamt)]) :
    exec w x ⟨SLL Size, Shamt⟩ ≡ Imm.toNat [MOD 2 ^ r] := by
  have hshift := hx.mul_right' (2 ^ Shamt)
  rw [← pow_add, Nat.sub_add_cancel hShamt, hmul] at hshift
  rw [exec_SLL]
  exact (mod_register hr _).trans hshift

/-! ## The sequences for some bits -/

/-- No sequence stands for the empty one. -/
def alternatives (SeqLs : InstSeqLs) : InstSeqLs := if SeqLs = [] then [[]] else SeqLs

theorem AddInstr_eq (SeqLs : InstSeqLs) (I : Inst) :
    AddInstr SeqLs I = (alternatives SeqLs).map (· ++ [I]) := by
  unfold AddInstr alternatives
  split <;> rfl

theorem AddInstr_ne_nil (SeqLs : InstSeqLs) (I : Inst) : AddInstr SeqLs I ≠ [] := by
  unfold AddInstr
  split
  · exact List.cons_ne_nil _ _
  · simpa using ‹_›

/-- Every sequence is right in the lowest `r` bits, and has `n` instructions at most. -/
def Loads (w r n : Nat) (Imm : BitVec 64) (SeqLs : InstSeqLs) : Prop :=
  ∀ Seq ∈ alternatives SeqLs, execute w Seq ≡ Imm.toNat [MOD 2 ^ r] ∧ Seq.length ≤ n

theorem Loads.AddInstr {w r r' n : Nat} {Imm Imm' : BitVec 64} {SeqLs : InstSeqLs} {I : Inst}
    (h : Loads w r' n Imm' SeqLs)
    (hI : ∀ x, x ≡ Imm'.toNat [MOD 2 ^ r'] → exec w x I ≡ Imm.toNat [MOD 2 ^ r]) :
    Loads w r (n + 1) Imm (AddInstr SeqLs I) := by
  intro Seq hSeq
  rw [alternatives, if_neg (AddInstr_ne_nil _ _), AddInstr_eq, List.mem_map] at hSeq
  obtain ⟨Seq', hmem, rfl⟩ := hSeq
  obtain ⟨hload, hlength⟩ := h Seq' hmem
  refine ⟨by rw [execute_append]; exact hI _ hload, ?_⟩
  rw [List.length_append]
  exact succ_le_succ hlength

/-- The most instructions for some bits of an immediate: one for each sixteen bits and a shift after
each of them, of which the last is left out when the lower half is not zero. -/
def maxLength (RemSize : Nat) (Imm : BitVec 64) : Nat :=
  if RemSize ≤ 16 then 1
  else 2 * ((RemSize - 1) / 16) + if Imm.toNat % 2 ^ 16 = 0 then 0 else 1

theorem Loads.nil {w r : Nat} {Imm : BitVec 64} (h : 0 ≡ Imm.toNat [MOD 2 ^ r]) :
    Loads w r 0 Imm [] := by
  intro Seq hSeq
  obtain rfl : Seq = [] := by simpa [alternatives] using hSeq
  exact ⟨h, le_rfl⟩

theorem Loads.mono {w r n n' : Nat} {Imm : BitVec 64} {SeqLs : InstSeqLs}
    (h : Loads w r n Imm SeqLs) (hn : n ≤ n') : Loads w r n' Imm SeqLs :=
  fun Seq hSeq => ⟨(h Seq hSeq).1, (h Seq hSeq).2.trans hn⟩

theorem Loads.append {w r n : Nat} {Imm : BitVec 64} {SeqLs SeqLs' : InstSeqLs}
    (h : Loads w r n Imm SeqLs) (h' : Loads w r n Imm SeqLs') (hne : SeqLs ≠ [])
    (hne' : SeqLs' ≠ []) : Loads w r n Imm (SeqLs ++ SeqLs') := by
  unfold Loads alternatives at *
  rw [if_neg hne] at h
  rw [if_neg hne'] at h'
  rw [if_neg (List.append_ne_nil_of_left_ne_nil hne _)]
  exact fun Seq hSeq => (List.mem_append.mp hSeq).elim (h Seq) (h' Seq)

theorem toNat_maskedImm {Size : Nat} (hSize : Size = 32 ∨ Size = 64) (Imm : BitVec 64) :
    (maskedImm Size Imm).toNat = Imm.toNat % 2 ^ Size := by
  unfold maskedImm
  rw [BitVec.toNat_and, ← and_two_pow_sub_one_eq_mod]
  rcases hSize with rfl | rfl <;> rfl

/-- What is left of an immediate is not beyond the bits that remain, unless all of them remain or
one instruction is enough. -/
def Remains (Size RemSize : Nat) (Imm : BitVec 64) : Prop :=
  RemSize ≤ Size ∧ (RemSize = Size ∨ RemSize ≤ 16 ∨ Imm.toNat ≤ 2 ^ RemSize)

theorem Remains.carry {Size RemSize : Nat} {Imm : BitVec 64} (h : Remains Size RemSize Imm) :
    Remains Size RemSize (highBits (Imm + 0x8000#64)) := by
  obtain ⟨hle, hall | hone | hImm⟩ := h
  · exact ⟨hle, .inl hall⟩
  · exact ⟨hle, .inr (.inl hone)⟩
  · by_cases hone : RemSize ≤ 16
    · exact ⟨hle, .inr (.inl hone)⟩
    have hpow : 2 ^ RemSize = 2 ^ (RemSize - 16) * 2 ^ 16 := by
      rw [← pow_add, Nat.sub_add_cancel (by omega)]
    refine ⟨hle, .inr (.inr ?_)⟩
    rw [toNat_highBits, toNat_add_const]
    omega

theorem Remains.highBits {Size RemSize : Nat} {Imm : BitVec 64} (h : Remains Size RemSize Imm) :
    Remains Size RemSize (highBits Imm) := by
  refine ⟨h.1, h.2.imp_right (Or.imp_right fun hImm => ?_)⟩
  rw [toNat_highBits]
  exact (Nat.div_mul_le_self _ _).trans hImm

theorem Remains.shift {Size RemSize : Nat} {Imm : BitVec 64} (hSize : Size = 32 ∨ Size = 64)
    (h : Remains Size RemSize Imm) (hone : ¬ RemSize ≤ 16) (hImm : Imm.toNat % 2 ^ Size ≠ 0)
    (hlow : Imm.toNat % 2 ^ 16 = 0) :
    countTrailingZeros Imm ≤ RemSize ∧
      Remains Size (RemSize - countTrailingZeros Imm) (Imm >>> countTrailingZeros Imm) := by
  have hne : Imm ≠ 0#64 := by
    rintro rfl
    exact hImm (zero_mod _)
  obtain ⟨hs, hmul⟩ := shift_spec hne hlow
  have hpos : 0 < Imm.toNat := Nat.pos_of_ne_zero fun h => hne (BitVec.eq_of_toNat_eq h)
  obtain ⟨hle, hRem⟩ := h
  have hshift : countTrailingZeros Imm ≤ RemSize := by
    rcases hRem with rfl | hone' | hbound
    · by_contra hlt
      exact hImm (mod_eq_zero_of_dvd
        ((Nat.pow_dvd_pow 2 (not_le.mp hlt).le).trans ⟨_, by rw [mul_comm, hmul]⟩))
    · exact absurd hone' hone
    · refine (Nat.pow_le_pow_iff_right one_lt_two).mp (le_trans ?_ hbound)
      exact le_of_dvd hpos ⟨_, by rw [mul_comm, hmul]⟩
  have hsplit :
      2 ^ RemSize = 2 ^ (RemSize - countTrailingZeros Imm) * 2 ^ countTrailingZeros Imm := by
    rw [← pow_add, Nat.sub_add_cancel hshift]
  have hcancel (hbound : Imm.toNat ≤ 2 ^ RemSize) : (Imm >>> countTrailingZeros Imm).toNat ≤
      2 ^ (RemSize - countTrailingZeros Imm) := by
    rw [← hmul, hsplit] at hbound
    exact le_of_mul_le_mul_right hbound (Nat.two_pow_pos _)
  refine ⟨hshift, by omega, ?_⟩
  rcases hRem with rfl | hone' | hbound
  · rcases hSize with rfl | rfl
    · exact .inr (.inl (by omega))
    · exact .inr (.inr (hcancel Imm.isLt.le))
  · exact absurd hone' hone
  · exact .inr (.inr (hcancel hbound))

theorem GetInstSeqLsADDiu_loads {Size RemSize n : Nat} {Imm : BitVec 64} (hSize : Size ≤ 64)
    (hRem : RemSize ≤ Size)
    (h : Loads Size RemSize n (highBits (Imm + 0x8000#64))
      (GetInstSeqLs Size (highBits (Imm + 0x8000#64)) RemSize [])) :
    Loads Size RemSize (n + 1) Imm (GetInstSeqLsADDiu Size Imm RemSize []) := by
  rw [GetInstSeqLsADDiu]
  exact h.AddInstr fun x hx => exec_ADDiu_carry hSize hRem hx

theorem GetInstSeqLs_loads {Size : Nat} (hSize : Size = 32 ∨ Size = 64) {Imm : BitVec 64}
    {RemSize : Nat} (h : Remains Size RemSize Imm) :
    Loads Size RemSize (maxLength RemSize Imm) Imm (GetInstSeqLs Size Imm RemSize []) := by
  have hSize64 : Size ≤ 64 := by omega
  induction hweight : weight Imm using Nat.strong_induction_on generalizing Imm RemSize with
  | _ n ih =>
  subst hweight
  rw [GetInstSeqLs]
  split
  · rename_i hmasked
    have hzero := toNat_maskedImm hSize Imm
    rw [hmasked] at hzero
    exact (Loads.nil (.symm (modEq_zero_iff_dvd.mpr
      ((Nat.pow_dvd_pow 2 h.1).trans (dvd_of_mod_eq_zero hzero.symm))))).mono (Nat.zero_le _)
  rename_i hmasked
  have hmasked' : Imm.toNat % 2 ^ Size ≠ 0 := by
    rw [← toNat_maskedImm hSize]
    exact fun h => hmasked (BitVec.eq_of_toNat_eq h)
  split
  · rename_i hone
    rw [maxLength, if_pos hone]
    have hnil : Loads Size RemSize 0 0#64 [] := Loads.nil rfl
    refine hnil.AddInstr fun x hx => ?_
    have hsext : (signExtend16 (toUnsigned (maskedImm Size Imm).toNat)).toNat ≡ Imm.toNat
        [MOD 2 ^ 16] := by
      have hmod : Imm.toNat % 2 ^ Size % 2 ^ 16 = Imm.toNat % 2 ^ 16 :=
        mod_mod_of_dvd _ (Nat.pow_dvd_pow 2 (by omega))
      rw [toNat_signExtend16, toNat_maskedImm hSize]
      unfold toUnsigned ModEq
      split <;> omega
    rw [exec_ADDiu]
    calc _ ≡ x + (signExtend16 (toUnsigned (maskedImm Size Imm).toNat)).toNat [MOD 2 ^ RemSize] :=
          mod_register h.1 _
      _ ≡ 0 + Imm.toNat [MOD 2 ^ RemSize] := hx.add (hsext.of_dvd (Nat.pow_dvd_pow 2 hone))
      _ = Imm.toNat := Nat.zero_add _
  rename_i hone
  split
  · rename_i hlow
    rw [lowBits_eq_zero_iff] at hlow
    have hne : Imm ≠ 0#64 := by
      rintro rfl
      exact hmasked BitVec.zero_and
    obtain ⟨hs, hmul⟩ := shift_spec hne hlow
    obtain ⟨hle, hremains⟩ := h.shift hSize hone hmasked' hlow
    have hterm := (lt_succ_self _).trans (weight_shift hne hlow)
    rw [GetInstSeqLsSLL, subUnsigned_of_le hle (by have := h.1; omega)]
    refine ((ih _ hterm hremains rfl).AddInstr fun x hx =>
      exec_SLL_shift h.1 hle hmul hx).mono ?_
    unfold maxLength
    split
    · omega
    · split <;> omega
  · rename_i hlow
    rw [lowBits_eq_zero_iff] at hlow
    have hweight : 4 * ((Imm.toNat + 2 ^ 15) / 2 ^ 16) < weight Imm := by
      rw [weight, if_neg hlow]
      omega
    have hlength (Imm' : BitVec 64) (hlow' : Imm'.toNat % 2 ^ 16 = 0) :
        maxLength RemSize Imm' + 1 = maxLength RemSize Imm := by
      unfold maxLength
      rw [if_neg hone, if_neg hone, if_pos hlow', if_neg hlow]
    have hterm := (weight_highBits_add Imm).trans_lt hweight
    have hterm' := (weight_highBits Imm).trans_lt hweight
    have hADDiu := GetInstSeqLsADDiu_loads hSize64 h.1 (ih _ hterm h.carry rfl)
    rw [hlength _ (by rw [toNat_highBits]; omega)] at hADDiu
    split
    · have hORi : Loads Size RemSize (maxLength RemSize Imm) Imm
          (GetInstSeqLsORi Size Imm RemSize []) := by
        rw [GetInstSeqLsORi, ← hlength (highBits Imm) (by rw [toNat_highBits]; omega)]
        exact (ih _ hterm' h.highBits rfl).AddInstr fun x hx =>
          exec_ORi_low (by omega) hx
      refine hADDiu.append hORi ?_ ?_
      · rw [GetInstSeqLsADDiu]
        exact AddInstr_ne_nil _ _
      · rw [GetInstSeqLsORi]
        exact AddInstr_ne_nil _ _
    · exact hADDiu

/-! ## The shortest sequence -/

theorem signExtend16_lowBits {Imm : BitVec 64} (h : isInt16 Imm = true) :
    signExtend16 (Imm &&& 0xffff#64).toNat = Imm := by
  simp only [isInt16, Bool.and_eq_true, decide_eq_true_eq, BitVec.toInt_eq_toNat_cond] at h
  refine BitVec.eq_of_toNat_eq ?_
  rw [toNat_signExtend16, toNat_lowBits]
  split <;> split at h <;> omega

theorem exec_LUi_pair {Size n Shamt : Nat} (hSize : Size ≤ 64) (hShamt : 16 ≤ Shamt)
    (hint : isInt16 (signExtend16 n <<< (Shamt - 16)) = true) :
    exec Size 0 ⟨LUi Size, (signExtend16 n <<< (Shamt - 16) &&& 0xffff#64).toNat⟩ =
      exec Size (exec Size 0 ⟨ADDiu Size, n⟩) ⟨SLL Size, Shamt⟩ := by
  rw [exec_LUi, signExtend16_lowBits hint, exec_ADDiu, exec_SLL, BitVec.toNat_shiftLeft,
    Nat.shiftLeft_eq, Nat.zero_add]
  have hsplit : 2 ^ Shamt = 2 ^ (Shamt - 16) * 2 ^ 16 := by
    rw [← pow_add, Nat.sub_add_cancel hShamt]
  rw [hsplit, ← Nat.mul_assoc]
  exact ((mod_register hSize _).trans ((mod_register le_rfl _).symm.mul_right _)).mul_right _

theorem ReplaceADDiuSLLWithLUi_spec {Size : Nat} (hSize : Size ≤ 64) {Seq : InstSeq}
    (hne : Seq ≠ []) :
    execute Size (ReplaceADDiuSLLWithLUi Size Seq) = execute Size Seq ∧
      (ReplaceADDiuSLLWithLUi Size Seq).length ≤ Seq.length ∧
      ReplaceADDiuSLLWithLUi Size Seq ≠ [] ∧
      ∀ n, Seq.getLast? = some ⟨ADDiu Size, n⟩ →
        (ReplaceADDiuSLLWithLUi Size Seq).getLast? = some ⟨ADDiu Size, n⟩ := by
  match Seq with
  | [] => exact absurd rfl hne
  | [I] => exact ⟨rfl, le_rfl, hne, fun _ h => h⟩
  | I₀ :: I₁ :: Seq =>
    rw [ReplaceADDiuSLLWithLUi]
    split
    · exact ⟨rfl, le_rfl, hne, fun _ h => h⟩
    · rename_i hpair
      simp only [not_or, not_not, not_lt] at hpair
      obtain ⟨hI₀, hI₁, hShamt⟩ := hpair
      dsimp only
      split
      · exact ⟨rfl, le_rfl, hne, fun _ h => h⟩
      · rename_i hint
        obtain ⟨Opc₀, n₀⟩ := I₀
        obtain ⟨Opc₁, n₁⟩ := I₁
        subst hI₀ hI₁
        refine ⟨?_, by simp, List.cons_ne_nil _ _, fun n hlast => ?_⟩
        · unfold execute
          rw [List.foldl_cons, exec_LUi_pair hSize hShamt (by simpa using hint)]
          rfl
        · cases Seq with
          | nil =>
            have hopc : SLL Size = ADDiu Size := congrArg Inst.Opc (Option.some.inj hlast)
            unfold SLL ADDiu at hopc
            split at hopc <;> exact absurd hopc (by decide)
          | cons I Seq => simpa using hlast

theorem shortestLoop_mem {Size : Nat} (SeqLs : InstSeqLs) (ShortestSeq : Option InstSeq)
    (ShortestLength : Nat)
    (hlength : ∀ S ∈ SeqLs, (ReplaceADDiuSLLWithLUi Size S).length ≤ 7)
    (hnone : ShortestSeq = none → ShortestLength = 8) :
    (∃ S ∈ SeqLs, shortestLoop Size SeqLs ShortestSeq ShortestLength =
        some (ReplaceADDiuSLLWithLUi Size S)) ∨
      shortestLoop Size SeqLs ShortestSeq ShortestLength = ShortestSeq ∧
        (ShortestSeq = none → SeqLs = []) := by
  induction SeqLs generalizing ShortestSeq ShortestLength with
  | nil => exact .inr ⟨rfl, fun _ => rfl⟩
  | cons S SeqLs ih =>
    have hS := hlength S List.mem_cons_self
    have hrest := fun S' h => hlength S' (List.mem_cons_of_mem S h)
    rw [shortestLoop, if_neg (not_lt.mpr hS)]
    split
    · rcases ih (some _) _ hrest (by simp) with ⟨S', hmem, hS'⟩ | ⟨hsame, -⟩
      · exact .inl ⟨S', List.mem_cons_of_mem S hmem, hS'⟩
      · exact .inl ⟨S, List.mem_cons_self, hsame⟩
    · rcases ih ShortestSeq ShortestLength hrest hnone with ⟨S', hmem, hS'⟩ | ⟨hsame, -⟩
      · exact .inl ⟨S', List.mem_cons_of_mem S hmem, hS'⟩
      · exact .inr ⟨hsame, fun h => absurd (hnone h) (by omega)⟩

/-! ## The immediate -/

/-- What `Analyze` is for. -/
def Synthesizes (Imm : BitVec 64) (Size : Nat) (LastInstrIsADDiu : Bool) : Prop :=
  ∃ Insts, Analyze Imm Size LastInstrIsADDiu = some Insts ∧ 1 ≤ Insts.length ∧ Insts.length ≤ 7 ∧
    (LastInstrIsADDiu = true → ∃ n, Insts.getLast? = some ⟨ADDiu Size, n⟩) ∧
    execute Size Insts = Imm.toNat % 2 ^ Size

theorem GetInstSeqLs_ne_nil {Size RemSize : Nat} {Imm : BitVec 64}
    (hmasked : maskedImm Size Imm ≠ 0#64) : GetInstSeqLs Size Imm RemSize [] ≠ [] := by
  have hADDiu : GetInstSeqLsADDiu Size Imm RemSize [] ≠ [] := by
    rw [GetInstSeqLsADDiu]
    exact AddInstr_ne_nil _ _
  rw [GetInstSeqLs, dif_neg hmasked]
  split
  · exact AddInstr_ne_nil _ _
  split
  · rw [GetInstSeqLsSLL]
    exact AddInstr_ne_nil _ _
  split
  · exact List.append_ne_nil_of_left_ne_nil hADDiu _
  · exact hADDiu

theorem mem_GetInstSeqLsADDiu {Size : Nat} (hSize : Size = 32 ∨ Size = 64) {Imm : BitVec 64}
    {Seq : InstSeq} (hSeq : Seq ∈ GetInstSeqLsADDiu Size Imm Size []) :
    execute Size Seq ≡ Imm.toNat [MOD 2 ^ Size] ∧ Seq.length ≤ 7 ∧
      ∃ n, Seq.getLast? = some ⟨ADDiu Size, n⟩ := by
  have hlow : (highBits (Imm + 0x8000#64)).toNat % 2 ^ 16 = 0 := by
    rw [toNat_highBits]
    omega
  have hloads : Loads Size Size _ Imm (GetInstSeqLsADDiu Size Imm Size []) :=
    GetInstSeqLsADDiu_loads (by omega) le_rfl (GetInstSeqLs_loads hSize ⟨le_rfl, .inl rfl⟩)
  rw [GetInstSeqLsADDiu] at hloads hSeq
  have hmem := hloads Seq (by rwa [alternatives, if_neg (AddInstr_ne_nil _ _)])
  rw [AddInstr_eq, List.mem_map] at hSeq
  obtain ⟨Seq', -, rfl⟩ := hSeq
  refine ⟨hmem.1, hmem.2.trans ?_, _, List.getLast?_concat⟩
  rw [maxLength, if_neg (by omega), if_pos hlow]
  omega

theorem mem_GetInstSeqLs {Size : Nat} (hSize : Size = 32 ∨ Size = 64) {Imm : BitVec 64}
    (hmasked : maskedImm Size Imm ≠ 0#64) {Seq : InstSeq}
    (hSeq : Seq ∈ GetInstSeqLs Size Imm Size []) :
    execute Size Seq ≡ Imm.toNat [MOD 2 ^ Size] ∧ Seq.length ≤ 7 ∧ Seq ≠ [] := by
  have hmem := GetInstSeqLs_loads hSize ⟨le_rfl, .inl rfl⟩ Seq
    (by rwa [alternatives, if_neg (GetInstSeqLs_ne_nil hmasked)])
  refine ⟨hmem.1, hmem.2.trans ?_, ?_⟩
  · unfold maxLength
    split
    · decide
    · split <;> omega
  · rintro rfl
    refine hmasked (BitVec.eq_of_toNat_eq ?_)
    rw [toNat_maskedImm hSize]
    exact Eq.trans hmem.1.symm (zero_mod _)

theorem GetShortestSeq_spec {Size : Nat} (hSize : Size ≤ 64) {SeqLs : InstSeqLs} (hne : SeqLs ≠ [])
    {Imm : BitVec 64} (h : ∀ Seq ∈ SeqLs,
      execute Size Seq ≡ Imm.toNat [MOD 2 ^ Size] ∧ Seq.length ≤ 7 ∧ Seq ≠ []) :
    ∃ Seq ∈ SeqLs, GetShortestSeq Size SeqLs = some (ReplaceADDiuSLLWithLUi Size Seq) ∧
      1 ≤ (ReplaceADDiuSLLWithLUi Size Seq).length ∧
      (ReplaceADDiuSLLWithLUi Size Seq).length ≤ 7 ∧
      execute Size (ReplaceADDiuSLLWithLUi Size Seq) ≡ Imm.toNat [MOD 2 ^ Size] := by
  have hreplace (S) (hS : S ∈ SeqLs) := ReplaceADDiuSLLWithLUi_spec hSize (h S hS).2.2
  have hlength (S) (hS : S ∈ SeqLs) : (ReplaceADDiuSLLWithLUi Size S).length ≤ 7 :=
    (hreplace S hS).2.1.trans (h S hS).2.1
  rcases shortestLoop_mem SeqLs none 8 hlength (fun _ => rfl) with ⟨S, hmem, hS⟩ | ⟨-, hnil⟩
  · obtain ⟨hexec, -, hpos, -⟩ := hreplace S hmem
    exact ⟨S, hmem, hS, List.length_pos_iff.mpr hpos, hlength S hmem, hexec ▸ (h S hmem).1⟩
  · exact absurd (hnil rfl) hne

/-- An addition is the last instruction or the size does not mask the immediate to zero, unless the
immediate is zero itself. -/
theorem Analyze_synthesizes_iff (Imm : BitVec 64) {Size : Nat} (hSize : Size = 32 ∨ Size = 64)
    (LastInstrIsADDiu : Bool) :
    Synthesizes Imm Size LastInstrIsADDiu ↔
      LastInstrIsADDiu = true ∨ Imm = 0#64 ∨ Imm.toNat % 2 ^ Size ≠ 0 := by
  constructor
  · rintro ⟨Insts, h, -⟩
    by_contra hnot
    simp only [not_or, not_not] at hnot
    obtain ⟨hlast, hne, hzero⟩ := hnot
    have hmasked : maskedImm Size Imm = 0#64 := by
      refine BitVec.eq_of_toNat_eq ?_
      rw [toNat_maskedImm hSize, hzero]
      rfl
    rw [Analyze, if_neg (by simp [hlast, hne]), GetInstSeqLs, dif_pos hmasked] at h
    exact absurd h (by simp [GetShortestSeq, shortestLoop])
  · intro hcond
    have hSize64 : Size ≤ 64 := by omega
    have hvalue {Seq : InstSeq} (h : execute Size Seq ≡ Imm.toNat [MOD 2 ^ Size]) :
        execute Size Seq = Imm.toNat % 2 ^ Size :=
      (mod_eq_of_lt (execute_lt (by omega) Seq)).symm.trans h
    by_cases hADDiu : LastInstrIsADDiu = true ∨ Imm = 0#64
    · have hmem (Seq) (hSeq : Seq ∈ GetInstSeqLsADDiu Size Imm Size []) :=
        mem_GetInstSeqLsADDiu hSize hSeq
      have hne : GetInstSeqLsADDiu Size Imm Size [] ≠ [] := by
        rw [GetInstSeqLsADDiu]
        exact AddInstr_ne_nil _ _
      have hSeqne (Seq) (hSeq : Seq ∈ GetInstSeqLsADDiu Size Imm Size []) : Seq ≠ [] := by
        rintro rfl
        obtain ⟨-, -, n, hlast⟩ := hmem [] hSeq
        exact absurd hlast (by simp)
      obtain ⟨Seq, hSeq, heq, hpos, hle, hexec⟩ := GetShortestSeq_spec hSize64 hne
        fun Seq hSeq => ⟨(hmem Seq hSeq).1, (hmem Seq hSeq).2.1, hSeqne Seq hSeq⟩
      obtain ⟨-, -, n, hlast⟩ := hmem Seq hSeq
      refine ⟨_, by rw [Analyze, if_pos hADDiu, heq], hpos, hle, fun _ => ⟨n, ?_⟩, hvalue hexec⟩
      exact (ReplaceADDiuSLLWithLUi_spec hSize64 (hSeqne Seq hSeq)).2.2.2 n hlast
    · have hmasked : maskedImm Size Imm ≠ 0#64 := by
        intro hzero
        have hnat := toNat_maskedImm hSize Imm
        rw [hzero] at hnat
        exact (not_or.mp hADDiu).2 ((hcond.resolve_left (not_or.mp hADDiu).1).resolve_right
          (not_not.mpr hnat.symm))
      obtain ⟨Seq, -, heq, hpos, hle, hexec⟩ := GetShortestSeq_spec hSize64
        (GetInstSeqLs_ne_nil hmasked) fun Seq hSeq => mem_GetInstSeqLs hSize hmasked hSeq
      exact ⟨_, by rw [Analyze, if_neg hADDiu, heq], hpos, hle,
        fun h => absurd h (not_or.mp hADDiu).1, hvalue hexec⟩

theorem Analyze_synthesizes_iff_three : Synthesizes 3#64 64 false ↔
    false = true ∨ 3#64 = 0#64 ∨ (3#64).toNat % 2 ^ 64 ≠ 0 :=
  Analyze_synthesizes_iff 3#64 (.inr rfl) false

/-- An immediate whose upper half alone is not zero has no sequence of 32 bits. -/
theorem not_synthesizes_upper : ¬ Synthesizes 0x100000000#64 32 false := by
  rintro ⟨Insts, h, -⟩
  rw [Analyze, if_neg (by decide), GetInstSeqLs, dif_pos (by decide)] at h
  exact absurd h (by simp [GetShortestSeq, shortestLoop])

end Zapcc.MipsAnalyzeImmediate
