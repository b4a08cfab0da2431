import Zapcc.ADT.SparseBitVector

/-!
# Runs of sparse bit vectors

An iterator visits a set in ascending order (`iterate_spec`). The main result is `run_behaves`: in
every run of calls on any vectors, each of them behaves as a set.
-/

namespace Zapcc.SparseBits

open Nat Function

open APInt (countTrailingZeros)
open SparseBitVector (Split)

variable {ElementSize : Nat} {es : List Element} {e : Element} {i j k n x : Nat} {w : Walk}
  {g : Bool → Bool → Bool} {c d : Bool} {v : SparseBitVector}

/-! ## Iteration -/

variable (ElementSize)

/-- `SparseBitVectorIterator`. Its element is the first of the list. -/
structure Iterator where
  AtEnd : Bool
  Iter : List Element
  BitNumber : Nat
  Bits : BitWord

namespace Iterator

/-- `AdvanceToFirstNonZero`, for the elements from some on. -/
def first : List Element → Option Iterator
  | [] => some ⟨true, [], 0, 0#64⟩
  | e :: Iter =>
    e.find_first.bind fun BitPos =>
      let BitNumber := (e.ElementIndex * ElementSize + BitPos) % 2 ^ 32
      e.Bits[BitNumber % ElementSize / 64]?.map fun w : BitWord =>
        ⟨false, e :: Iter, BitNumber, w >>> (BitPos % 64)⟩

/-- The loop over the zeros below the next bit of a word. -/
def skipZeros : Nat → Nat → BitWord → Nat × BitWord
  | 0, BitNumber, Bits => (BitNumber, Bits)
  | fuel + 1, BitNumber, Bits =>
    if Bits ≠ 0#64 ∧ Bits.getLsbD 0 = false then
      skipZeros fuel ((BitNumber + 1) % 2 ^ 32) (Bits >>> 1)
    else (BitNumber, Bits)

/-- `++`, with `AdvanceToNextNonZero`. -/
def next (it : Iterator) : Option Iterator :=
  match it.Iter with
  | [] => none
  | e :: Iter =>
    let s := skipZeros 64 ((it.BitNumber + 1) % 2 ^ 32) (it.Bits >>> 1)
    if s.2 ≠ 0#64 then some ⟨false, e :: Iter, s.1, s.2⟩
    else
      match e.find_next ElementSize (s.1 % ElementSize) with
      | none => first ElementSize Iter
      | some NextSetBitNumber =>
        if s.1 % ElementSize = 0 then first ElementSize Iter
        else
          e.Bits[NextSetBitNumber % ElementSize / 64]?.map fun w : BitWord =>
            ⟨false, e :: Iter, (e.ElementIndex * ElementSize + NextSetBitNumber) % 2 ^ 32,
              w >>> (NextSetBitNumber % 64)⟩

/-- The numbers from an iterator to the end. -/
def collect : Nat → Iterator → Option (List Nat)
  | 0, _ => none
  | fuel + 1, it =>
    if it.AtEnd then some []
    else (it.next ElementSize).bind fun it' =>
      (collect fuel it').map fun Numbers => it.BitNumber :: Numbers

end Iterator

/-- A loop from `begin` to `end`. -/
def SparseBitVector.iterate (v : SparseBitVector) : Option (List Nat) :=
  (Iterator.first ElementSize v.Elements).bind
    (Iterator.collect ElementSize (v.Elements.length * ElementSize + 1))

/-! ### The next bit -/

/-- The least number from `k` on that has a property, if there is one. -/
def IsFirst (P : Nat → Bool) (k : Nat) : Option Nat → Prop
  | none => ∀ j, k ≤ j → P j = false
  | some n => k ≤ n ∧ P n = true ∧ ∀ j, k ≤ j → j < n → P j = false

variable {ElementSize} {P : Nat → Bool} {o : Option Nat} {b m : Nat}

theorem IsFirst.extend (h : IsFirst P m o) (hle : k ≤ m)
    (hnone : ∀ j, k ≤ j → j < m → P j = false) :
    IsFirst P k o := by
  cases o with
  | none =>
    intro j hj
    by_cases hjm : j < m
    · exact hnone j hj hjm
    · exact h j (by omega)
  | some n =>
    refine ⟨hle.trans h.1, h.2.1, fun j hj hjn => ?_⟩
    by_cases hjm : j < m
    · exact hnone j hj hjm
    · exact h.2.2 j (by omega) hjn

theorem getLsbD_countTrailingZeros {w : BitWord} (hw : w ≠ 0#64) :
    w.getLsbD (countTrailingZeros w) = true := by
  have hlt := APInt.countTrailingZeros_lt hw
  have hbit := @List.findIdx_getElem _ (fun i => w.getLsbD i) (List.range 64)
    (by rw [List.length_range]; exact hlt)
  rwa [List.getElem_range] at hbit

theorem Element.bit_word (e : Element) (hj : j < 64) :
    e.bit (i * 64 + j) = (e.Bits.getD i 0#64).getLsbD j := by
  rw [Element.bit, show (i * 64 + j) / 64 = i by omega, show (i * 64 + j) % 64 = j by omega]

theorem Element.firstWord_spec (e : Element) (i : Nat) :
    IsFirst e.bit (i * 64) (Element.firstWord i (e.Bits.drop i)) := by
  induction hn : e.Bits.length - i generalizing i with
  | zero =>
    rw [List.drop_eq_nil_of_le (by omega), Element.firstWord]
    intro j hj
    rw [Element.bit, List.getD_eq_getElem?_getD, List.getElem?_eq_none (by omega),
      Option.getD_none, BitVec.getLsbD_zero]
  | succ n ih =>
    have hi : i < e.Bits.length := by omega
    have hget : e.Bits.getD i 0#64 = e.Bits[i] := by
      rw [List.getD_eq_getElem?_getD, List.getElem?_eq_getElem hi, Option.getD_some]
    have hsplit (j : Nat) (hj : i * 64 ≤ j) (hlt : j < (i + 1) * 64) :
        e.bit j = e.Bits[i].getLsbD (j - i * 64) := by
      obtain ⟨d, rfl⟩ := Nat.exists_eq_add_of_le hj
      rw [e.bit_word (by omega), hget, Nat.add_sub_cancel_left]
    rw [List.drop_eq_getElem_cons hi, Element.firstWord]
    split_ifs with hw
    · have hlt := APInt.countTrailingZeros_lt hw
      refine ⟨by omega, ?_, fun j hj hjn => ?_⟩
      · rw [hsplit _ (by omega) (by omega), Nat.add_sub_cancel_left, getLsbD_countTrailingZeros hw]
      · rw [hsplit j hj (by omega)]
        exact APInt.getLsbD_of_lt_countTrailingZeros (by omega)
    · refine (ih (i + 1) (by omega)).extend (by omega) fun j hj hlt => ?_
      rw [hsplit j hj hlt, not_not.mp hw, BitVec.getLsbD_zero]

theorem Element.find_next_spec (e : Element) (hk : k < ElementSize) :
    IsFirst e.bit k (e.find_next ElementSize k) := by
  rw [Element.find_next, if_neg (by omega)]
  have hcopy (j : Nat) (hj : k % 64 ≤ j) (hlt : j < 64) :
      (e.Bits.getD (k / 64) 0#64 &&& (BitVec.allOnes 64 <<< (k % 64))).getLsbD j =
        e.bit (k / 64 * 64 + j) := by
    rw [BitVec.getLsbD_and, BitVec.getLsbD_shiftLeft, BitVec.getLsbD_allOnes, e.bit_word hlt]
    simp [hlt, hj]
    omega
  have hbelow (j : Nat) (hj : j < k % 64) :
      (e.Bits.getD (k / 64) 0#64 &&& (BitVec.allOnes 64 <<< (k % 64))).getLsbD j = false := by
    simp [hj]
  generalize e.Bits.getD (k / 64) 0#64 &&& (BitVec.allOnes 64 <<< (k % 64)) = Copy at hcopy hbelow
  have hat (j : Nat) (hj : k ≤ j) (hlt : j < (k / 64 + 1) * 64) :
      e.bit j = Copy.getLsbD (j - k / 64 * 64) := by
    rw [hcopy _ (by omega) (by omega), Nat.add_sub_cancel' (by omega)]
  dsimp only
  split_ifs with hne
  · have hlt := APInt.countTrailingZeros_lt hne
    have hbit := getLsbD_countTrailingZeros hne
    have hge : k % 64 ≤ countTrailingZeros Copy := by
      by_contra hlt'
      rw [hbelow _ (by omega)] at hbit
      exact Bool.false_ne_true hbit
    refine ⟨by omega, by rwa [← hcopy _ hge hlt], fun j hj hjn => ?_⟩
    rw [hat j hj (by omega)]
    exact APInt.getLsbD_of_lt_countTrailingZeros (by omega)
  · refine (e.firstWord_spec (k / 64 + 1)).extend (by omega) fun j hj hlt => ?_
    rw [hat j hj hlt, not_not.mp hne, BitVec.getLsbD_zero]

theorem Iterator.skipZeros_zero (fuel n : Nat) :
    Iterator.skipZeros fuel n 0#64 = (n, 0#64) := by
  cases fuel <;> simp [Iterator.skipZeros]

theorem Iterator.skipZeros_eq {w : BitWord} {fuel c : Nat} (hbit : w.getLsbD c = true)
    (hbelow : ∀ j < c, w.getLsbD j = false) (hc : c ≤ fuel) (hn : n + c < 2 ^ 32) :
    Iterator.skipZeros fuel n w = (n + c, w >>> c) := by
  induction fuel generalizing w n c with
  | zero =>
    obtain rfl := Nat.le_zero.mp hc
    simp [Iterator.skipZeros]
  | succ fuel ih =>
    cases c with
    | zero => simp [Iterator.skipZeros, hbit]
    | succ c =>
      have hne : w ≠ 0#64 := by
        rintro rfl
        rw [BitVec.getLsbD_zero] at hbit
        exact Bool.false_ne_true hbit
      rw [Iterator.skipZeros, if_pos ⟨hne, hbelow 0 (by omega)⟩, mod_eq_of_lt (by omega),
        ih (c := c) (by rwa [BitVec.getLsbD_ushiftRight, Nat.add_comm])
          (fun j hj => by rw [BitVec.getLsbD_ushiftRight]; exact hbelow _ (by omega)) (by omega)
          (by omega), ← BitVec.shiftRight_add, Nat.add_comm 1 c, Nat.add_right_comm,
        Nat.add_assoc]

/-- An iterator at a bit of the first of some elements. -/
structure Iterator.At (ElementSize : Nat) (it : Iterator) (e : Element) (rest : List Element)
    (b : Nat) : Prop where
  eq : it = ⟨false, e :: rest, e.ElementIndex * ElementSize + b,
    e.Bits.getD (b / 64) 0#64 >>> (b % 64)⟩
  bit : e.bit b = true

variable {rest : List Element} {it : Iterator}

theorem Element.WellFormed.getElem?_word (h : e.WellFormed ElementSize) (hb : b < ElementSize) :
    e.Bits[b / 64]? = some (e.Bits.getD (b / 64) 0#64) := by
  have hlt := SparseBitVector.word_lt h.length hb
  rw [List.getD_eq_getElem?_getD, List.getElem?_eq_getElem hlt, Option.getD_some]

theorem mul_add_mod (hb : b < ElementSize) : (i * ElementSize + b) % ElementSize = b := by
  rw [mul_add_mod_self_right, mod_eq_of_lt hb]

theorem Iterator.first_spec (rest : List Element) (h : e.WellFormed ElementSize) :
    ∃ b it, Iterator.first ElementSize (e :: rest) = some it ∧ it.At ElementSize e rest b ∧
      ∀ j < b, e.bit j = false := by
  have hfirst := e.firstWord_spec 0
  rw [List.drop_zero, Nat.zero_mul] at hfirst
  rw [Iterator.first, Element.find_first]
  cases hword : Element.firstWord 0 e.Bits with
  | none =>
    rw [hword] at hfirst
    obtain ⟨k, hk⟩ := h.nonzero
    exact absurd ((hfirst k (Nat.zero_le _)).symm.trans hk) Bool.false_ne_true
  | some b =>
    rw [hword] at hfirst
    obtain ⟨hlt, hbound⟩ := h.bounded b hfirst.2.1
    refine ⟨b, _, ?_, ⟨rfl, hfirst.2.1⟩, fun j hj => hfirst.2.2 j (Nat.zero_le _) hj⟩
    simp only [Option.bind_some, mod_eq_of_lt hbound, mul_add_mod hlt, h.getElem?_word hlt,
      Option.map_some]

theorem Iterator.next_spec (h : e.WellFormed ElementSize) (hat : it.At ElementSize e rest b) :
    (∃ b' it', it.next ElementSize = some it' ∧ it'.At ElementSize e rest b' ∧ b < b' ∧
        ∀ j, b < j → j < b' → e.bit j = false) ∨
      it.next ElementSize = Iterator.first ElementSize rest ∧ ∀ j, b < j → e.bit j = false := by
  obtain ⟨hlt, hbound⟩ := h.bounded b hat.bit
  rw [hat.eq, Iterator.next]
  dsimp only
  rw [← BitVec.shiftRight_add]
  have hword (j : Nat) (hj : b % 64 + 1 + j < 64) :
      (e.Bits.getD (b / 64) 0#64 >>> (b % 64 + 1)).getLsbD j = e.bit (b + 1 + j) := by
    rw [BitVec.getLsbD_ushiftRight, ← e.bit_word hj]
    exact congrArg _ (by omega)
  by_cases hzero : e.Bits.getD (b / 64) 0#64 >>> (b % 64 + 1) = 0#64
  · rw [hzero, Iterator.skipZeros_zero, if_neg (not_not.mpr rfl)]
    by_cases hwrap : b + 1 < ElementSize ∧ e.ElementIndex * ElementSize + b + 1 < 2 ^ 32
    · have hs : (e.ElementIndex * ElementSize + b + 1) % 2 ^ 32 % ElementSize = b + 1 := by
        rw [mod_eq_of_lt hwrap.2, Nat.add_assoc, mul_add_mod hwrap.1]
      have hfind := e.find_next_spec hwrap.1
      rw [hs]
      cases hn : e.find_next ElementSize (b + 1) with
      | none =>
        rw [hn] at hfind
        exact .inr ⟨rfl, fun j hj => hfind j hj⟩
      | some n =>
        rw [hn] at hfind
        obtain ⟨hnlt, hnbound⟩ := h.bounded n hfind.2.1
        refine .inl ⟨n, _, ?_, ⟨rfl, hfind.2.1⟩, hfind.1, fun j hj hjn => hfind.2.2 j hj hjn⟩
        simp only [add_one_ne_zero, ↓reduceIte, mod_eq_of_lt hnlt,
          mod_eq_of_lt hnbound, h.getElem?_word hnlt, Option.map_some]
    · have hnone (j : Nat) (hj : b < j) : e.bit j = false := by
        refine Bool.eq_false_iff.mpr fun hk => hwrap ?_
        have hj' := h.bounded j hk
        omega
      have hs : (e.ElementIndex * ElementSize + b + 1) % 2 ^ 32 % ElementSize = 0 := by
        by_cases hfull : e.ElementIndex * ElementSize + b + 1 < 2 ^ 32
        · have hend : b + 1 = ElementSize := by omega
          rw [mod_eq_of_lt hfull, Nat.add_assoc, hend, add_mod_right, mul_mod_left]
        · rw [show e.ElementIndex * ElementSize + b + 1 = 2 ^ 32 by omega, mod_self, zero_mod]
      rw [hs]
      refine .inr ⟨?_, hnone⟩
      cases e.find_next ElementSize 0 <;> rfl
  · have hctz := APInt.countTrailingZeros_lt hzero
    have hbit := getLsbD_countTrailingZeros hzero
    generalize hc : countTrailingZeros (e.Bits.getD (b / 64) 0#64 >>> (b % 64 + 1)) = c at hctz hbit
    have hsmall : b % 64 + 1 + c < 64 := by
      by_contra hge
      rw [BitVec.getLsbD_ushiftRight, BitVec.getLsbD_of_ge _ _ (by omega)] at hbit
      exact Bool.false_ne_true hbit
    have hnext : e.bit (b + 1 + c) = true := by rwa [← hword c hsmall]
    obtain ⟨-, hbound'⟩ := h.bounded _ hnext
    have hbelow : ∀ j < c, (e.Bits.getD (b / 64) 0#64 >>> (b % 64 + 1)).getLsbD j = false :=
      fun j hj => APInt.getLsbD_of_lt_countTrailingZeros (hc ▸ hj)
    have hne : e.Bits.getD (b / 64) 0#64 >>> (b % 64 + 1) >>> c ≠ 0#64 := by
      intro heq
      have hbit' := congrArg (fun x => x.getLsbD 0) heq
      simp only [BitVec.getLsbD_ushiftRight, BitVec.getLsbD_zero] at hbit'
      rw [BitVec.getLsbD_ushiftRight] at hbit
      exact absurd (hbit'.symm.trans hbit) Bool.false_ne_true
    refine .inl ⟨b + 1 + c, _, ?_, ⟨rfl, hnext⟩, by omega, fun j hj hjc => ?_⟩
    · rw [mod_eq_of_lt (by omega), Iterator.skipZeros_eq hbit hbelow (by omega) (by omega),
        if_pos hne, ← BitVec.shiftRight_add, show (b + 1 + c) / 64 = b / 64 by omega,
        show (b + 1 + c) % 64 = b % 64 + 1 + c by omega]
      simp only [Option.some.injEq, Iterator.mk.injEq, true_and, and_true]
      omega
    · obtain ⟨d, rfl⟩ := Nat.exists_eq_add_of_le (show b + 1 ≤ j from hj)
      rw [← hword d (by omega)]
      exact hbelow d (by omega)

theorem mem_cons (h : e.WellFormed ElementSize) :
    mem ElementSize (e :: es) x = true ↔
      (∃ j, e.bit j = true ∧ x = e.ElementIndex * ElementSize + j) ∨
        mem ElementSize es x = true := by
  rw [mem, look_cons, Bool.or_eq_true, Bool.and_eq_true, beq_iff_eq]
  refine or_congr_left ⟨fun hboth => ⟨_, hboth.2, ?_⟩, ?_⟩
  · rw [hboth.1, div_add_mod']
  · rintro ⟨j, hj, rfl⟩
    have hlt := (h.bounded j hj).1
    rw [mul_add_mod hlt, Nat.add_comm, add_mul_div_right _ _ (by omega), div_eq_of_lt hlt]
    exact ⟨(Nat.zero_add _).symm, hj⟩

theorem Valid.lt_of_mem_tail (h : Valid ElementSize (e :: es)) (hb : b < ElementSize)
    (hx : mem ElementSize es x = true) : e.ElementIndex * ElementSize + b < x := by
  obtain ⟨e', he', hindex, -⟩ := exists_of_look hx
  have hlt := h.lt_of_mem he'
  have hmul := Nat.mul_le_mul_right ElementSize (succ_le_of_lt hlt)
  have hdiv := div_mul_le_self x ElementSize
  rw [← hindex] at hdiv
  rw [succ_mul] at hmul
  omega

theorem Iterator.collect_spec (fuel : Nat) (hvalid : Valid ElementSize (e :: rest))
    (hat : it.At ElementSize e rest b) (hfuel : (rest.length + 1) * ElementSize - b < fuel) :
    ∃ L, Iterator.collect ElementSize fuel it = some L ∧ L.Pairwise (· < ·) ∧
      ∀ x, x ∈ L ↔ (∃ j, b ≤ j ∧ e.bit j = true ∧ x = e.ElementIndex * ElementSize + j) ∨
        mem ElementSize rest x = true := by
  induction fuel generalizing it e rest b with
  | zero => omega
  | succ fuel ih =>
    have hlt := (hvalid.head.bounded b hat.bit).1
    have hhead : it.AtEnd = false ∧ it.BitNumber = e.ElementIndex * ElementSize + b := by
      rw [hat.eq]
      exact ⟨rfl, rfl⟩
    rw [Iterator.collect, if_neg (by simp [hhead.1]), hhead.2]
    rcases Iterator.next_spec hvalid.head hat with
      ⟨b', it', hnext, hat', hbb', hnone⟩ | ⟨hnext, hnone⟩
    · have hle : ElementSize ≤ (rest.length + 1) * ElementSize :=
        Nat.le_mul_of_pos_left _ (succ_pos _)
      obtain ⟨L, hL, hsorted, hmem⟩ := ih hvalid hat' (by omega)
      refine ⟨_, by rw [hnext, Option.bind_some, hL, Option.map_some],
        .cons (fun x hx => ?_) hsorted, fun x => ?_⟩
      · rcases (hmem x).mp hx with ⟨j, hj, -, rfl⟩ | hx
        · omega
        · exact hvalid.lt_of_mem_tail hlt hx
      · rw [List.mem_cons, hmem, ← or_assoc]
        refine or_congr_left ⟨?_, ?_⟩
        · rintro (rfl | ⟨j, hj, hbit, rfl⟩)
          · exact ⟨b, Nat.le_refl _, hat.bit, rfl⟩
          · exact ⟨j, by omega, hbit, rfl⟩
        · rintro ⟨j, hj, hbit, rfl⟩
          rcases Nat.eq_or_lt_of_le hj with rfl | hj
          · exact .inl rfl
          · refine .inr ⟨j, ?_, hbit, rfl⟩
            by_contra hlt'
            rw [hnone j hj (by omega)] at hbit
            exact Bool.false_ne_true hbit
    · have hrest :
        ∃ L, (Iterator.first ElementSize rest).bind (Iterator.collect ElementSize fuel) = some L ∧
          L.Pairwise (· < ·) ∧ ∀ x, x ∈ L ↔ mem ElementSize rest x = true := by
        cases rest with
        | nil =>
          obtain ⟨n, rfl⟩ := Nat.exists_eq_add_of_lt
            (show 0 < fuel by rw [List.length_nil] at hfuel; omega)
          refine ⟨[], ?_, .nil, fun x => by simp [mem, look]⟩
          rfl
        | cons e' rest =>
          obtain ⟨b', it', hfirst, hat', hbelow⟩ :=
            Iterator.first_spec rest hvalid.tail.head
          rw [List.length_cons, succ_mul] at hfuel
          obtain ⟨L, hL, hsorted, hmem⟩ := ih hvalid.tail hat' (by omega)
          refine ⟨L, by rw [hfirst, Option.bind_some, hL], hsorted, fun x => ?_⟩
          rw [hmem, mem_cons hvalid.tail.head]
          refine or_congr_left ⟨?_, ?_⟩
          · rintro ⟨j, -, hbit, rfl⟩
            exact ⟨j, hbit, rfl⟩
          · rintro ⟨j, hbit, rfl⟩
            refine ⟨j, ?_, hbit, rfl⟩
            by_contra hlt'
            rw [hbelow j (by omega)] at hbit
            exact Bool.false_ne_true hbit
      obtain ⟨L, hL, hsorted, hmem⟩ := hrest
      rw [hnext]
      obtain ⟨it', hfirst, hcollect⟩ := Option.bind_eq_some_iff.mp hL
      refine ⟨_, by rw [hfirst, Option.bind_some, hcollect, Option.map_some],
        .cons (fun x hx => hvalid.lt_of_mem_tail hlt ((hmem x).mp hx)) hsorted, fun x => ?_⟩
      rw [List.mem_cons, hmem]
      refine or_congr_left ⟨?_, ?_⟩
      · rintro rfl
        exact ⟨b, Nat.le_refl _, hat.bit, rfl⟩
      · rintro ⟨j, hj, hbit, rfl⟩
        rcases Nat.eq_or_lt_of_le hj with rfl | hj
        · rfl
        · exact absurd ((hnone j hj).symm.trans hbit) Bool.false_ne_true

theorem iterate_spec (hvalid : Valid ElementSize v.Elements) :
    ∃ L, v.iterate ElementSize = some L ∧ L.Pairwise (· < ·) ∧
      ∀ x, x ∈ L ↔ mem ElementSize v.Elements x = true := by
  rw [SparseBitVector.iterate]
  cases hv : v.Elements with
  | nil => exact ⟨[], rfl, .nil, fun x => by simp [mem, look]⟩
  | cons e rest =>
    rw [hv] at hvalid
    obtain ⟨b, it, hfirst, hat, hbelow⟩ := Iterator.first_spec rest hvalid.head
    obtain ⟨L, hL, hsorted, hmem⟩ :=
      Iterator.collect_spec ((rest.length + 1) * ElementSize + 1) hvalid hat (by omega)
    refine ⟨L, by rw [hfirst, Option.bind_some]; exact hL, hsorted, fun x => ?_⟩
    rw [hmem, mem_cons hvalid.head]
    refine or_congr_left ⟨?_, ?_⟩
    · rintro ⟨j, -, hbit, rfl⟩
      exact ⟨j, hbit, rfl⟩
    · rintro ⟨j, hbit, rfl⟩
      refine ⟨j, ?_, hbit, rfl⟩
      by_contra hlt
      rw [hbelow j (by omega)] at hbit
      exact Bool.false_ne_true hbit

/-! ## Runs -/

namespace SparseBitVector

/-- The loop of `operator|=`. -/
def orWalk : Walk := ⟨fun w r => w ||| r, true, true, false⟩

/-- The loop of `operator&=`. -/
def andWalk : Walk := ⟨fun w r => w &&& r, false, false, true⟩

/-- The loops of `intersectWithComplement`. -/
def complementWalk : Walk := ⟨fun w r => w &&& ~~~r, true, false, true⟩

/-- `operator|=` with another vector. -/
def orAssign (v RHS : SparseBitVector) : SparseBitVector × Bool :=
  if RHS.Elements = [] then (v, false)
  else
    let r := walk orWalk v.Elements RHS.Elements
    (⟨r.1, some 0⟩, r.2)

/-- `operator&=` with another vector. -/
def andAssign (v RHS : SparseBitVector) : SparseBitVector × Bool :=
  if v.Elements = [] ∧ RHS.Elements = [] then (v, false)
  else
    let r := walk andWalk v.Elements RHS.Elements
    (⟨r.1, some 0⟩, r.2)

def intersectWithComplement (v RHS : SparseBitVector) : SparseBitVector × Bool :=
  if v.Elements = [] ∨ RHS.Elements = [] then (v, false)
  else
    let r := walk complementWalk v.Elements RHS.Elements
    (⟨r.1, some 0⟩, r.2)

/-- `intersectWithComplement` of two other vectors. The cached iterator stays at the end of the list
that is built. -/
def difference (RHS1 RHS2 : SparseBitVector) : SparseBitVector :=
  let Elements :=
    if RHS1.Elements = [] then [] else (walk complementWalk RHS1.Elements RHS2.Elements).1
  ⟨Elements, some Elements.length⟩

end SparseBitVector

variable (ElementSize)

/-- The vectors of a client. -/
abbrev Session := Nat → SparseBitVector

inductive Answer
  | none
  | flag (b : Bool)
  | visited (Numbers : List Nat)

inductive Call
  | set (this : Nat) (Idx : BitVec 32)
  | reset (this : Nat) (Idx : BitVec 32)
  | test (this : Nat) (Idx : BitVec 32)
  | test_and_set (this : Nat) (Idx : BitVec 32)
  | or (this RHS : Nat)
  | and (this RHS : Nat)
  | intersectWithComplement (this RHS : Nat)
  | difference (this RHS1 RHS2 : Nat)
  | clear (this : Nat)
  /-- The copy constructor. -/
  | copy (this RHS : Nat)
  | assign (this RHS : Nat)
  | iterate (this : Nat)

/-- `operator|=`. -/
def orCall (s : Session) (this RHS : Nat) : SparseBitVector × Bool :=
  if this = RHS then (s this, false) else (s this).orAssign (s RHS)

/-- `operator&=`. -/
def andCall (s : Session) (this RHS : Nat) : SparseBitVector × Bool :=
  if this = RHS then (s this, false) else (s this).andAssign (s RHS)

/-- `intersectWithComplement`. -/
def complementCall (s : Session) (this RHS : Nat) : SparseBitVector × Bool :=
  if this = RHS then
    if (s this).Elements ≠ [] then ((s this).clear, true) else (s this, false)
  else (s this).intersectWithComplement (s RHS)

/-- `intersectWithComplement` with three vectors. -/
def differenceCall (s : Session) (this RHS1 RHS2 : Nat) : SparseBitVector :=
  if this = RHS1 then (complementCall s this RHS2).1
  else if this = RHS2 then (s RHS1).difference (s RHS2).copy
  else (s RHS1).difference (s RHS2)

/-- The vector that a call is made on, and what it returns. -/
def Call.apply (s : Session) : Call → Option (SparseBitVector × Answer)
  | .set this Idx => ((s this).set ElementSize Idx.toNat).map fun v => (v, .none)
  | .reset this Idx => ((s this).reset ElementSize Idx.toNat).map fun v => (v, .none)
  | .test this Idx => ((s this).test ElementSize Idx.toNat).map fun r => (r.1, .flag r.2)
  | .test_and_set this Idx =>
    ((s this).test_and_set ElementSize Idx.toNat).map fun r => (r.1, .flag r.2)
  | .or this RHS => some ((orCall s this RHS).1, .flag (orCall s this RHS).2)
  | .and this RHS => some ((andCall s this RHS).1, .flag (andCall s this RHS).2)
  | .intersectWithComplement this RHS =>
    some ((complementCall s this RHS).1, .flag (complementCall s this RHS).2)
  | .difference this RHS1 RHS2 => some (differenceCall s this RHS1 RHS2, .none)
  | .clear this => some ((s this).clear, .none)
  | .copy _ RHS => some ((s RHS).copy, .none)
  | .assign this RHS => some (if this = RHS then s this else (s RHS).copy, .none)
  | .iterate this => ((s this).iterate ElementSize).map fun xs => (s this, .visited xs)

/-- The vector that a call is made on. -/
def Call.this : Call → Nat
  | .set this _ | .reset this _ | .test this _ | .test_and_set this _ | .or this _ | .and this _
  | .intersectWithComplement this _ | .difference this _ _ | .clear this | .copy this _
  | .assign this _ | .iterate this => this

def run : List Call → Session → Option (Session × List Answer)
  | [], s => some (s, [])
  | c :: calls, s =>
    (c.apply ElementSize s).bind fun r =>
      (run calls (Function.update s c.this r.1)).map fun final => (final.1, r.2 :: final.2)

def start : Session := fun _ => .new

/-! ### Sets -/

def SparseBitVector.toSet (v : SparseBitVector) : Set Nat :=
  {x | mem ElementSize v.Elements x = true}

/-- The set that a call makes of its vector. -/
def Call.target (S : Nat → Set Nat) : Call → Set Nat
  | .set this Idx | .test_and_set this Idx => insert Idx.toNat (S this)
  | .reset this Idx => S this \ {Idx.toNat}
  | .test this _ | .iterate this => S this
  | .or this RHS => S this ∪ S RHS
  | .and this RHS => S this ∩ S RHS
  | .intersectWithComplement this RHS => S this \ S RHS
  | .difference _ RHS1 RHS2 => S RHS1 \ S RHS2
  | .clear _ => ∅
  | .copy _ RHS | .assign _ RHS => S RHS

/-- What a call returns: a membership, whether its set changes, or the set in ascending order. -/
def Call.Answers (S : Nat → Set Nat) (c : Call) (a : Answer) : Prop :=
  match c with
  | .test this Idx => ∃ b, a = .flag b ∧ (b = true ↔ Idx.toNat ∈ S this)
  | .test_and_set this _ | .or this _ | .and this _ | .intersectWithComplement this _ =>
    ∃ b, a = .flag b ∧ (b = true ↔ c.target S ≠ S this)
  | .iterate this =>
    ∃ xs, a = .visited xs ∧ xs.Pairwise (· < ·) ∧ ∀ x, x ∈ xs ↔ x ∈ S this
  | _ => a = .none

inductive Behaves : List Call → (Nat → Set Nat) → List Answer → (Nat → Set Nat) → Prop
  | nil (S : Nat → Set Nat) : Behaves [] S [] S
  | cons {c : Call} {calls : List Call} {S S' : Nat → Set Nat} {a : Answer} {answers : List Answer}
      (h : c.Answers S a)
      (hrest : Behaves calls (Function.update S c.this (c.target S)) answers S') :
      Behaves (c :: calls) S (a :: answers) S'

variable {ElementSize} {s : Session} {v' RHS : SparseBitVector}

theorem orWalk_does : SparseBitVector.orWalk.Does fun a b => a || b where
  word _ _ _ _ := BitVec.getLsbD_or
  zero := rfl
  keeps := rfl
  inserts := rfl
  erases _ _ := rfl

theorem andWalk_does : SparseBitVector.andWalk.Does fun a b => a && b where
  word _ _ _ _ := BitVec.getLsbD_and
  zero := rfl
  keeps := rfl
  inserts := rfl
  erases h := absurd h.symm Bool.false_ne_true

theorem complementWalk_does : SparseBitVector.complementWalk.Does fun a b => a && !b where
  word a b j hj := by simp [SparseBitVector.complementWalk, hj]
  zero := rfl
  keeps := rfl
  inserts := rfl
  erases h := absurd h.symm Bool.false_ne_true

/-- A vector that an operation makes of two. -/
structure Makes (ElementSize : Nat) (g : Bool → Bool → Bool) (v RHS v' : SparseBitVector)
    (b : Bool) : Prop where
  inv : Inv ElementSize v'
  mem : ∀ x, mem ElementSize v'.Elements x =
    g (mem ElementSize v.Elements x) (mem ElementSize RHS.Elements x)
  changed : b = true ↔ v'.Elements ≠ v.Elements

theorem mem_nil (x : Nat) : mem ElementSize [] x = false := rfl

theorem walk_makes (hw : w.Does g) (hv : Valid ElementSize v.Elements)
    (hRHS : Valid ElementSize RHS.Elements) {c : Nat}
    (hc : c ≤ (walk w v.Elements RHS.Elements).1.length) :
    Makes ElementSize g v RHS ⟨(walk w v.Elements RHS.Elements).1, some c⟩
      (walk w v.Elements RHS.Elements).2 := by
  have hwalk := walk_spec hw hv hRHS
  exact ⟨⟨hwalk.valid, fun _ => ⟨c, rfl, hc⟩⟩, fun x => hwalk.bits _ _, hwalk.changed⟩

theorem makes_same (hv : Inv ElementSize v)
    (hmem : ∀ x, g (mem ElementSize v.Elements x) (mem ElementSize RHS.Elements x) =
      mem ElementSize v.Elements x) : Makes ElementSize g v RHS v false :=
  ⟨hv, fun x => (hmem x).symm, by simp⟩

theorem orAssign_makes (hv : Inv ElementSize v) (hRHS : Inv ElementSize RHS) :
    Makes ElementSize (fun a b => a || b) v RHS (v.orAssign RHS).1 (v.orAssign RHS).2 := by
  rw [SparseBitVector.orAssign]
  split_ifs with hnil
  · exact makes_same hv fun x => by rw [hnil, mem_nil, Bool.or_false]
  · exact walk_makes orWalk_does hv.valid hRHS.valid (Nat.zero_le _)

theorem andAssign_makes (hv : Inv ElementSize v) (hRHS : Inv ElementSize RHS) :
    Makes ElementSize (fun a b => a && b) v RHS (v.andAssign RHS).1 (v.andAssign RHS).2 := by
  rw [SparseBitVector.andAssign]
  split_ifs with hnil
  · exact makes_same hv fun x => by rw [hnil.1, mem_nil, Bool.false_and]
  · exact walk_makes andWalk_does hv.valid hRHS.valid (Nat.zero_le _)

theorem intersectWithComplement_makes (hv : Inv ElementSize v) (hRHS : Inv ElementSize RHS) :
    Makes ElementSize (fun a b => a && !b) v RHS (v.intersectWithComplement RHS).1
      (v.intersectWithComplement RHS).2 := by
  rw [SparseBitVector.intersectWithComplement]
  split_ifs with hnil
  · refine makes_same hv fun x => ?_
    rcases hnil with hnil | hnil
    · rw [hnil, mem_nil, Bool.false_and]
    · rw [hnil, mem_nil, Bool.not_false, Bool.and_true]
  · exact walk_makes complementWalk_does hv.valid hRHS.valid (Nat.zero_le _)

theorem difference_spec (hv : Inv ElementSize v) (hRHS : Inv ElementSize RHS) :
    Inv ElementSize (v.difference RHS) ∧ ∀ x, mem ElementSize (v.difference RHS).Elements x =
      (mem ElementSize v.Elements x && !mem ElementSize RHS.Elements x) := by
  rw [SparseBitVector.difference]
  split_ifs with hnil
  · exact ⟨⟨.nil, fun h => absurd rfl h⟩, fun x => by rw [hnil, mem_nil, Bool.false_and]⟩
  · have hmakes := walk_makes complementWalk_does hv.valid hRHS.valid (Nat.le_refl _)
    exact ⟨hmakes.inv, hmakes.mem⟩

theorem clear_inv (v : SparseBitVector) : Inv ElementSize v.clear :=
  ⟨.nil, fun h => absurd rfl h⟩

theorem copy_inv (hv : Inv ElementSize v) : Inv ElementSize v.copy :=
  ⟨hv.valid, fun _ => ⟨0, rfl, Nat.zero_le _⟩⟩

theorem orCall_makes (h : ∀ i, Inv ElementSize (s i)) (this RHS : Nat) :
    Makes ElementSize (fun a b => a || b) (s this) (s RHS) (orCall s this RHS).1
      (orCall s this RHS).2 := by
  rw [orCall]
  split_ifs with hsame
  · subst hsame
    exact makes_same (h this) fun x => Bool.or_self _
  · exact orAssign_makes (h this) (h RHS)

theorem andCall_makes (h : ∀ i, Inv ElementSize (s i)) (this RHS : Nat) :
    Makes ElementSize (fun a b => a && b) (s this) (s RHS) (andCall s this RHS).1
      (andCall s this RHS).2 := by
  rw [andCall]
  split_ifs with hsame
  · subst hsame
    exact makes_same (h this) fun x => Bool.and_self _
  · exact andAssign_makes (h this) (h RHS)

theorem complementCall_makes (h : ∀ i, Inv ElementSize (s i)) (this RHS : Nat) :
    Makes ElementSize (fun a b => a && !b) (s this) (s RHS) (complementCall s this RHS).1
      (complementCall s this RHS).2 := by
  rw [complementCall]
  split_ifs with hsame hne
  · subst hsame
    exact ⟨clear_inv _, fun x => by rw [Bool.and_not_self]; rfl, iff_of_true rfl (Ne.symm hne)⟩
  · exact makes_same (h this) fun x => by rw [not_not.mp hne, mem_nil, Bool.false_and]
  · exact intersectWithComplement_makes (h this) (h RHS)

theorem differenceCall_spec (h : ∀ i, Inv ElementSize (s i)) (this RHS1 RHS2 : Nat) :
    Inv ElementSize (differenceCall s this RHS1 RHS2) ∧
      ∀ x, mem ElementSize (differenceCall s this RHS1 RHS2).Elements x =
        (mem ElementSize (s RHS1).Elements x && !mem ElementSize (s RHS2).Elements x) := by
  rw [differenceCall]
  split_ifs with hsame
  · subst hsame
    have hmakes := complementCall_makes h this RHS2
    exact ⟨hmakes.inv, hmakes.mem⟩
  · exact difference_spec (h RHS1) (copy_inv (h RHS2))
  · exact difference_spec (h RHS1) (h RHS2)

def Session.sets (ElementSize : Nat) (s : Session) : Nat → Set Nat :=
  fun i => (s i).toSet ElementSize

theorem Makes.toSet_ne_iff (hmakes : Makes ElementSize g v RHS v' d) (hv : Inv ElementSize v) :
    d = true ↔ v'.toSet ElementSize ≠ v.toSet ElementSize := by
  rw [hmakes.changed, hmakes.inv.valid.ne_iff hv.valid, ne_eq, Set.ext_iff, not_forall]
  refine exists_congr fun x => ?_
  rw [SparseBitVector.toSet, SparseBitVector.toSet, Set.mem_ofPred_eq, Set.mem_ofPred_eq, ne_eq,
    Bool.eq_iff_iff]

theorem apply_spec (hES : 0 < ElementSize) (h : ∀ i, Inv ElementSize (s i)) (c : Call) :
    ∃ v a, c.apply ElementSize s = some (v, a) ∧ Inv ElementSize v ∧
      v.toSet ElementSize = c.target (s.sets ElementSize) ∧ c.Answers (s.sets ElementSize) a := by
  cases c with
  | set this Idx =>
    obtain ⟨v, hset, hinv, hmem⟩ := SparseBitVector.set_spec (h this) hES Idx.isLt
    refine ⟨v, .none, by rw [Call.apply, hset]; rfl, hinv, Set.ext fun x => ?_, rfl⟩
    simp [SparseBitVector.toSet, Call.target, Session.sets, hmem, or_comm]
  | reset this Idx =>
    obtain ⟨v, hreset, hinv, hmem⟩ := SparseBitVector.reset_spec (h this) hES Idx.toNat
    refine ⟨v, .none, by rw [Call.apply, hreset]; rfl, hinv, Set.ext fun x => ?_, rfl⟩
    simp [SparseBitVector.toSet, Call.target, Session.sets, hmem]
  | test this Idx =>
    obtain ⟨v, htest, hsame, hinv⟩ := SparseBitVector.test_spec (h this) Idx.toNat
    refine ⟨v, _, by rw [Call.apply, htest]; rfl, hinv, ?_, _, rfl, Iff.rfl⟩
    rw [SparseBitVector.toSet, hsame]
    rfl
  | test_and_set this Idx =>
    obtain ⟨v, b, htest, hinv, hmem, hb⟩ :=
      SparseBitVector.test_and_set_spec (h this) hES Idx.isLt
    refine ⟨v, _, by rw [Call.apply, htest]; rfl, hinv, Set.ext fun x => ?_, _, rfl, ?_⟩
    · simp [SparseBitVector.toSet, Call.target, Session.sets, hmem, or_comm]
    · rw [hb, Call.target, ne_eq, Set.insert_eq_self, Session.sets, SparseBitVector.toSet,
        Set.mem_ofPred_eq, Bool.not_eq_true]
  | or this RHS =>
    have hmakes := orCall_makes h this RHS
    have hset : (orCall s this RHS).1.toSet ElementSize =
        (Call.or this RHS).target (s.sets ElementSize) := by
      ext x
      simp [SparseBitVector.toSet, Call.target, Session.sets, hmakes.mem]
    exact ⟨_, _, rfl, hmakes.inv, hset, _, rfl, hset ▸ hmakes.toSet_ne_iff (h this)⟩
  | and this RHS =>
    have hmakes := andCall_makes h this RHS
    have hset : (andCall s this RHS).1.toSet ElementSize =
        (Call.and this RHS).target (s.sets ElementSize) := by
      ext x
      simp [SparseBitVector.toSet, Call.target, Session.sets, hmakes.mem]
    exact ⟨_, _, rfl, hmakes.inv, hset, _, rfl, hset ▸ hmakes.toSet_ne_iff (h this)⟩
  | intersectWithComplement this RHS =>
    have hmakes := complementCall_makes h this RHS
    have hset : (complementCall s this RHS).1.toSet ElementSize =
        (Call.intersectWithComplement this RHS).target (s.sets ElementSize) := by
      ext x
      simp [SparseBitVector.toSet, Call.target, Session.sets, hmakes.mem]
    exact ⟨_, _, rfl, hmakes.inv, hset, _, rfl, hset ▸ hmakes.toSet_ne_iff (h this)⟩
  | difference this RHS1 RHS2 =>
    obtain ⟨hinv, hmem⟩ := differenceCall_spec h this RHS1 RHS2
    refine ⟨_, _, rfl, hinv, Set.ext fun x => ?_, rfl⟩
    simp [SparseBitVector.toSet, Call.target, Session.sets, hmem]
  | clear this =>
    exact ⟨_, _, rfl, clear_inv _, Set.ext fun x => iff_of_false Bool.false_ne_true id, rfl⟩
  | copy this RHS => exact ⟨_, _, rfl, copy_inv (h RHS), rfl, rfl⟩
  | assign this RHS =>
    refine ⟨_, _, rfl, ?_⟩
    split_ifs with hsame
    · exact ⟨h this, hsame ▸ rfl, rfl⟩
    · exact ⟨copy_inv (h RHS), rfl, rfl⟩
  | iterate this =>
    obtain ⟨L, hL, hsorted, hmem⟩ := iterate_spec (h this).valid
    exact ⟨s this, _, by rw [Call.apply, hL]; rfl, h this, rfl, L, rfl, hsorted, hmem⟩

theorem run_spec (hES : 0 < ElementSize) (h : ∀ i, Inv ElementSize (s i)) (calls : List Call) :
    ∃ s' answers, run ElementSize calls s = some (s', answers) ∧
      Behaves calls (s.sets ElementSize) answers (s'.sets ElementSize) ∧
        ∀ i, Inv ElementSize (s' i) := by
  induction calls generalizing s with
  | nil => exact ⟨s, [], rfl, .nil _, h⟩
  | cons c calls ih =>
    obtain ⟨v, a, happly, hinv, hset, hanswers⟩ := apply_spec hES h c
    have hstep : ∀ i, Inv ElementSize (Function.update s c.this v i) := by
      intro i
      by_cases hi : i = c.this
      · rw [hi, update_self]
        exact hinv
      · rw [update_of_ne hi]
        exact h i
    obtain ⟨s', answers, hrun, hbehaves, hinv'⟩ := ih hstep
    have hsets : Session.sets ElementSize (Function.update s c.this v) =
        Function.update (s.sets ElementSize) c.this (c.target (s.sets ElementSize)) := by
      funext i
      by_cases hi : i = c.this
      · subst hi
        rw [Session.sets, update_self, update_self, hset]
      · rw [Session.sets, update_of_ne hi, update_of_ne hi, Session.sets]
    exact ⟨s', a :: answers, by rw [run, happly, Option.bind_some, hrun]; rfl,
      .cons hanswers (hsets ▸ hbehaves), hinv'⟩

theorem start_inv (i : Nat) : Inv ElementSize (start i) := ⟨.nil, fun h => absurd rfl h⟩

/-- Calls on any vectors succeed, and the vectors behave as sets. In every state, the elements are
sorted and none is zero, and the cached position of a vector that is not empty refers into its list
or to its end. -/
theorem run_behaves (hES : 0 < ElementSize) (calls : List Call) :
    ∃ s answers, run ElementSize calls start = some (s, answers) ∧
      Behaves calls (fun _ => ∅) answers (s.sets ElementSize) ∧ ∀ i, Inv ElementSize (s i) := by
  have hsets : Session.sets ElementSize start = fun _ => ∅ := by
    funext i
    exact Set.ext fun x => iff_of_false Bool.false_ne_true id
  exact hsets ▸ run_spec hES start_inv calls

theorem run_behaves_or : ∃ s answers,
    run 128 [.set 0 5, .or 1 0, .iterate 1] start = some (s, answers) ∧
      Behaves [.set 0 5, .or 1 0, .iterate 1] (fun _ => ∅) answers (s.sets 128) ∧
        ∀ i, Inv 128 (s i) :=
  run_behaves (by decide) _

/-- `clear` leaves the cached position at an element that it removes. -/
theorem not_refers_clear :
    ¬ ∀ ElementSize, 0 < ElementSize → ∀ calls,
      ∃ s answers, run ElementSize calls start = some (s, answers) ∧
        Behaves calls (fun _ => ∅) answers (s.sets ElementSize) ∧
          ∀ i, Valid ElementSize (s i).Elements ∧ (s i).Refers := by
  intro h
  obtain ⟨s, answers, hrun, -, hrefers⟩ := h 128 (by decide) [.set 0 5, .clear 0]
  obtain ⟨c, hc, -⟩ := (hrefers 0).2
  have hcleared : (run 128 [.set 0 5, .clear 0] start).map (fun r => (r.1 0).CurrElementIter) =
      some none := rfl
  rw [hrun, Option.map_some, hc] at hcleared
  exact absurd (Option.some_inj.mp hcleared) (Option.some_ne_none c)

end Zapcc.SparseBits
