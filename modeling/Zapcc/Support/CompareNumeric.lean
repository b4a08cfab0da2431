import Mathlib.Data.List.TakeWhile
import Zapcc.Support.StringFind

/-!
# Comparing strings with numbers

`compare_numeric` compares runs of digits first by their lengths. It orders strings as the sequences
of their tokens, where a token is a run of digits or another byte. The main result is
`compare_numeric_totalOrder`.
-/

namespace Zapcc.StringRef

open List

/-! ## The code -/

def isDigit (C : UInt8) : Bool := 48 ≤ C.toNat && C.toNat ≤ 57

/-- Whether there is a digit at an index, which may be past the end. -/
def digitAt (Data : Bytes) (J : Nat) : Bool :=
  match Data[J]? with
  | some C => isDigit C
  | none => false

/-- The order that `memcmp` finds, which reads no byte past an end. -/
def compareMemory (Data RHS : Bytes) (I Length : Nat) : Option Ordering :=
  if I + Length ≤ Data.length ∧ I + Length ≤ RHS.length then
    some (List.compareLex (fun a b => compare a.toNat b.toNat)
      ((Data.drop I).take Length) ((RHS.drop I).take Length))
  else none

/-- The result for strings that differ. -/
def less (h : Bool) : Int := if h then -1 else 1

/-- The scan of two runs of digits: the result of the comparison, or the end of both. -/
def scanRuns (Data RHS : Bytes) (E J : Nat) : Int ⊕ Nat :=
  if J < E + 1 then
    let ld := digitAt Data J
    let rd := digitAt RHS J
    if ld != rd then .inl (less rd)
    else if !rd then .inr J
    else scanRuns Data RHS E (J + 1)
  else .inr J
termination_by E + 1 - J

/-- The loop of `compare_numeric`. The first number bounds the steps. -/
def compareLoop (Data RHS : Bytes) (E : Nat) : Nat → Nat → Option Int
  | 0, _ => none
  | fuel + 1, I =>
    if I ≠ E then do
      let L ← Data[I]?
      let R ← RHS[I]?
      if isDigit L && isDigit R then
        match scanRuns Data RHS E (I + 1) with
        | .inl Res => some Res
        | .inr J => do
            let Res ← compareMemory Data RHS I (J - I)
            if Res ≠ .eq then some (less (Res = .lt)) else compareLoop Data RHS E fuel J
      else if L ≠ R then some (less (L.toNat < R.toNat))
      else compareLoop Data RHS E fuel (I + 1)
    else if Data.length = RHS.length then some 0
    else some (less (Data.length < RHS.length))

def compare_numeric (Data RHS : Bytes) : Option Int :=
  let E := min Data.length RHS.length
  compareLoop Data RHS E (E + 1) 0

/-! ## The order of tokens -/

/-- A run of digits or another byte. -/
inductive Token where
  | byte (C : UInt8)
  | run (Ds : Bytes)

/-- One more digit in front. -/
def pushDigit (C : UInt8) : List Token → List Token
  | .run Ds :: ts => .run (C :: Ds) :: ts
  | ts => .run [C] :: ts

def tokens : Bytes → List Token
  | [] => []
  | C :: Data => if isDigit C then pushDigit C (tokens Data) else .byte C :: tokens Data

/-- The numbers by which tokens are ordered. A run comes where the digits do. -/
def Token.key : Token → List Nat
  | .byte C => [C.toNat, 0]
  | .run Ds => 48 :: (Ds.length + 1) :: Ds.map UInt8.toNat

def Token.bytes : Token → Bytes
  | .byte C => [C]
  | .run Ds => Ds

def keys (Data : Bytes) : List (List Nat) := (tokens Data).map Token.key

variable {C : UInt8} {Data : Bytes}

/-- The order of strings by their tokens. -/
def tokenOrder (a b : Bytes) : Ordering :=
  List.compareLex (List.compareLex compare) (keys a) (keys b)

theorem bytes_pushDigit (C : UInt8) (ts : List Token) :
    (pushDigit C ts).flatMap Token.bytes = C :: ts.flatMap Token.bytes := by
  cases ts with
  | nil => rfl
  | cons t ts => cases t <;> rfl

theorem bytes_tokens (Data : Bytes) : (tokens Data).flatMap Token.bytes = Data := by
  induction Data with
  | nil => rfl
  | cons C Data ih =>
    rw [tokens]
    split_ifs
    · rw [bytes_pushDigit, ih]
    · rw [flatMap_cons, ih]
      rfl

theorem key_injective : Function.Injective Token.key := by
  have htoNat : Function.Injective UInt8.toNat := fun _ _ h => UInt8.toNat_inj.mp h
  intro s t h
  cases s <;> cases t
  · simp only [Token.key, List.cons.injEq, and_true] at h
    rw [htoNat h]
  · simp [Token.key] at h
  · simp [Token.key] at h
  · simp only [Token.key, List.cons.injEq, true_and] at h
    rw [htoNat.list_map h.2]

theorem keys_injective : Function.Injective keys := by
  intro a b h
  have htokens := (key_injective.list_map) h
  rw [← bytes_tokens a, htokens, bytes_tokens]

variable {a b : Bytes}

theorem tokenOrder_eq_iff : tokenOrder a b = .eq ↔ a = b := by
  unfold tokenOrder
  rw [Std.LawfulEqCmp.compare_eq_iff_eq]
  exact keys_injective.eq_iff

theorem tokenOrder_swap (a b : Bytes) : (tokenOrder a b).swap = tokenOrder b a := by
  have hswap : tokenOrder b a = (tokenOrder a b).swap := by
    unfold tokenOrder
    exact Std.OrientedCmp.eq_swap
  exact hswap.symm

theorem tokenOrder_trans {a b c : Bytes} (hab : (tokenOrder a b).isLE)
    (hbc : (tokenOrder b c).isLE) : (tokenOrder a c).isLE := by
  unfold tokenOrder at *
  exact Std.TransCmp.isLE_trans hab hbc

/-! ## The first tokens -/

theorem tokens_digit (hC : isDigit C) :
    tokens (C :: Data) = .run (C :: Data.takeWhile isDigit) :: tokens (Data.dropWhile isDigit) := by
  induction Data generalizing C with
  | nil =>
    rw [tokens, if_pos hC]
    rfl
  | cons D Data ih =>
    rw [tokens, if_pos hC]
    by_cases hD : isDigit D
    · rw [ih hD, takeWhile_cons_of_pos hD, dropWhile_cons_of_pos hD]
      rfl
    · rw [takeWhile_cons_of_neg hD, dropWhile_cons_of_neg hD, tokens, if_neg hD]
      rfl

theorem tokenOrder_nil_cons {b : Bytes} : tokenOrder [] (C :: b) = .lt := by
  have hne : ∃ k ks, keys (C :: b) = k :: ks := by
    unfold keys
    rw [tokens]
    split_ifs
    · cases tokens b with
      | nil => exact ⟨_, _, rfl⟩
      | cons t ts => cases t <;> exact ⟨_, _, rfl⟩
    · exact ⟨_, _, rfl⟩
  obtain ⟨k, ks, hks⟩ := hne
  unfold tokenOrder
  rw [hks]
  exact List.compareLex_nil_cons

theorem tokenOrder_byte (hC : ¬isDigit C) :
    tokenOrder (C :: a) (C :: b) = tokenOrder a b := by
  unfold tokenOrder keys
  rw [tokens, tokens, if_neg hC, if_neg hC, map_cons, map_cons, List.compareLex_cons_cons]
  have hself : List.compareLex compare (Token.byte C).key (Token.byte C).key = .eq :=
    Std.ReflCmp.compare_self
  rw [hself]
  rfl

theorem tokenOrder_bytes {D : UInt8} (hne : C ≠ D)
    (hdigit : ¬(isDigit C ∧ isDigit D)) :
    tokenOrder (C :: a) (D :: b) = compare C.toNat D.toNat := by
  have hne' : C.toNat ≠ D.toNat := fun h => hne (UInt8.toNat_inj.mp h)
  have hhead : ∀ {x y : Nat} {xs ys : List Nat} {ks ls : List (List Nat)}, x ≠ y →
      List.compareLex (List.compareLex compare) ((x :: xs) :: ks) ((y :: ys) :: ls) =
        compare x y := by
    intro x y xs ys ks ls hxy
    rw [List.compareLex_cons_cons, List.compareLex_cons_cons]
    rcases Nat.lt_or_gt_of_ne hxy with h | h
    · rw [Nat.compare_eq_lt.mpr h]
      rfl
    · rw [Nat.compare_eq_gt.mpr h]
      rfl
  have hrange : ∀ {B : UInt8}, isDigit B ↔ 48 ≤ B.toNat ∧ B.toNat ≤ 57 := by
    simp [isDigit]
  -- a run is ordered like each of its digits, against another byte
  have hrun : ∀ {B : UInt8} {x : Nat}, isDigit B → ¬(48 ≤ x ∧ x ≤ 57) →
      compare 48 x = compare B.toNat x ∧ compare x 48 = compare x B.toNat ∧ 48 ≠ x := by
    intro B x hB hx
    have hB' := hrange.mp hB
    rcases Nat.lt_or_ge x 48 with h | h
    · rw [Nat.compare_eq_gt.mpr h, Nat.compare_eq_gt.mpr (by omega), Nat.compare_eq_lt.mpr h,
        Nat.compare_eq_lt.mpr (by omega)]
      exact ⟨rfl, rfl, by omega⟩
    · rw [Nat.compare_eq_lt.mpr (by omega), Nat.compare_eq_lt.mpr (by omega),
        Nat.compare_eq_gt.mpr (by omega), Nat.compare_eq_gt.mpr (by omega)]
      exact ⟨rfl, rfl, by omega⟩
  unfold tokenOrder keys
  by_cases hC : isDigit C
  · have hD : ¬isDigit D := fun h => hdigit ⟨hC, h⟩
    obtain ⟨heq, -, hne48⟩ := hrun hC fun h => hD (hrange.mpr h)
    rw [tokens_digit hC, tokens, if_neg hD]
    exact (hhead hne48).trans heq
  · by_cases hD : isDigit D
    · obtain ⟨-, heq, hne48⟩ := hrun hD fun h => hC (hrange.mpr h)
      rw [tokens_digit hD, tokens, if_neg hC]
      exact (hhead hne48.symm).trans heq
    · rw [tokens, tokens, if_neg hC, if_neg hD]
      exact hhead hne'

theorem compare_succ (m n : Nat) : compare (m + 1) (n + 1) = compare m n := by
  rcases Nat.lt_trichotomy m n with h | h | h
  · rw [Nat.compare_eq_lt.mpr h, Nat.compare_eq_lt.mpr (by omega)]
  · rw [h, Nat.compare_eq_eq.mpr rfl, Nat.compare_eq_eq.mpr rfl]
  · rw [Nat.compare_eq_gt.mpr h, Nat.compare_eq_gt.mpr (by omega)]

theorem tokenOrder_runs {D : UInt8} (hC : isDigit C) (hD : isDigit D) :
    tokenOrder (C :: a) (D :: b) =
      (compare ((C :: a).takeWhile isDigit).length ((D :: b).takeWhile isDigit).length).then
        ((List.compareLex (fun a b => compare a.toNat b.toNat) ((C :: a).takeWhile isDigit)
          ((D :: b).takeWhile isDigit)).then
            (tokenOrder ((C :: a).dropWhile isDigit) ((D :: b).dropWhile isDigit))) := by
  have hmap : ∀ xs ys : Bytes, List.compareLex compare (xs.map UInt8.toNat) (ys.map UInt8.toNat) =
      List.compareLex (fun a b => compare a.toNat b.toNat) xs ys := by
    intro xs
    induction xs with
    | nil =>
      intro ys
      cases ys with
      | nil | cons y ys => rfl
    | cons x xs ih =>
      intro ys
      cases ys with
      | nil => rfl
      | cons y ys =>
        rw [map_cons, map_cons, List.compareLex_cons_cons, ih, List.compareLex_cons_cons]
  unfold tokenOrder keys
  rw [tokens_digit hC, tokens_digit hD, takeWhile_cons_of_pos hC,
    takeWhile_cons_of_pos hD, dropWhile_cons_of_pos hC, dropWhile_cons_of_pos hD,
    map_cons, map_cons, List.compareLex_cons_cons]
  simp only [Token.key]
  rw [List.compareLex_cons_cons, List.compareLex_cons_cons, hmap,
    Nat.compare_eq_eq.mpr (rfl : 48 = 48), compare_succ, Ordering.then_assoc, Ordering.then_assoc]
  rfl

/-! ## The loop -/

/-- The result for an order. -/
def toInt : Ordering → Int
  | .lt => -1
  | .eq => 0
  | .gt => 1

theorem less_compare {m n : Nat} (h : m ≠ n) : less (m < n) = toInt (compare m n) := by
  rcases Nat.lt_or_gt_of_ne h with h | h
  · rw [Nat.compare_eq_lt.mpr h, decide_eq_true h]
    rfl
  · rw [Nat.compare_eq_gt.mpr h, decide_eq_false (by omega)]
    rfl

theorem digitAt_iff {J : Nat} :
    digitAt Data J = true ↔ 0 < ((Data.drop J).takeWhile isDigit).length := by
  unfold digitAt
  rw [← head?_drop]
  cases Data.drop J with
  | nil => simp
  | cons C Data =>
    by_cases hC : isDigit C <;> simp [hC]

theorem length_takeWhile_succ {J : Nat} (h : digitAt Data J = true) :
    ((Data.drop J).takeWhile isDigit).length =
      ((Data.drop (J + 1)).takeWhile isDigit).length + 1 := by
  unfold digitAt at h
  rw [← head?_drop] at h
  rw [← tail_drop]
  cases hd : Data.drop J with
  | nil =>
    rw [hd] at h
    cases h
  | cons C rest =>
    rw [hd] at h
    have hC : isDigit C = true := h
    rw [takeWhile_cons_of_pos hC]
    rfl

theorem digitAt_of_le {J : Nat} (h : Data.length ≤ J) : digitAt Data J = false := by
  unfold digitAt
  rw [getElem?_eq_none h]

theorem scanRuns_spec {J : Nat} (hJ : J ≤ min a.length b.length) :
    let u := ((a.drop J).takeWhile isDigit).length
    let v := ((b.drop J).takeWhile isDigit).length
    scanRuns a b (min a.length b.length) J =
      if u = v then .inr (J + u) else .inl (toInt (compare u v)) := by
  dsimp only
  induction hn : min a.length b.length - J using Nat.strong_induction_on generalizing J with
  | _ n ih =>
    have hzero : ∀ {Data : Bytes}, digitAt Data J = false →
        ((Data.drop J).takeWhile isDigit).length = 0 := by
      intro Data h
      refine Nat.eq_zero_of_not_pos fun hpos => ?_
      rw [digitAt_iff.mpr hpos] at h
      cases h
    rw [scanRuns, if_pos (by omega)]
    cases ha : digitAt a J with
    | false =>
      rw [hzero ha]
      cases hb : digitAt b J with
      | false =>
        rw [hzero hb]
        rfl
      | true =>
        have hv := digitAt_iff.mp hb
        rw [if_pos (by decide), if_neg (by omega), Nat.compare_eq_lt.mpr hv]
        rfl
    | true =>
      have hu := digitAt_iff.mp ha
      cases hb : digitAt b J with
      | false =>
        rw [hzero hb, if_pos (by decide), if_neg (by omega), Nat.compare_eq_gt.mpr hu]
        rfl
      | true =>
        have hlt : J < min a.length b.length := by
          by_contra hge
          rcases Nat.le_total a.length b.length with h | h
          · rw [digitAt_of_le (by omega)] at ha
            cases ha
          · rw [digitAt_of_le (by omega)] at hb
            cases hb
        have hrest := ih _ (by omega) (Nat.succ_le_of_lt hlt) rfl
        rw [length_takeWhile_succ ha, length_takeWhile_succ hb]
        simp only [bne_self_eq_false, Bool.false_eq_true, if_false, Bool.not_true]
        rw [hrest]
        generalize ((a.drop (J + 1)).takeWhile isDigit).length = u
        generalize ((b.drop (J + 1)).takeWhile isDigit).length = v
        rw [compare_succ]
        by_cases huv : u = v
        · rw [if_pos huv, if_pos (by omega)]
          exact congrArg Sum.inr (by omega)
        · rw [if_neg huv, if_neg (by omega)]

theorem run_split (xs : Bytes) {I : Nat} (hI : I ≤ xs.length) :
    I + ((xs.drop I).takeWhile isDigit).length ≤ xs.length ∧
      (xs.drop I).take ((xs.drop I).takeWhile isDigit).length = (xs.drop I).takeWhile isDigit ∧
        xs.drop (I + ((xs.drop I).takeWhile isDigit).length) = (xs.drop I).dropWhile isDigit := by
  have hle : ((xs.drop I).takeWhile isDigit).length ≤ (xs.drop I).length :=
    ( takeWhile_prefix _).length_le
  have hall : (xs.drop I).takeWhile isDigit ++ (xs.drop I).dropWhile isDigit = xs.drop I :=
    takeWhile_append_dropWhile
  rw [length_drop] at hle
  refine ⟨by omega, ?_, ?_⟩
  · have h : ((xs.drop I).takeWhile isDigit ++ (xs.drop I).dropWhile isDigit).take
        ((xs.drop I).takeWhile isDigit).length = (xs.drop I).takeWhile isDigit :=
      take_left' rfl
    rwa [hall] at h
  · have h : ((xs.drop I).takeWhile isDigit ++ (xs.drop I).dropWhile isDigit).drop
        ((xs.drop I).takeWhile isDigit).length = (xs.drop I).dropWhile isDigit :=
      drop_left' rfl
    rwa [hall, drop_drop] at h

theorem compareLoop_spec {fuel I : Nat} (hI : I ≤ min a.length b.length)
    (hfuel : min a.length b.length < I + fuel) :
    compareLoop a b (min a.length b.length) fuel I =
      some (toInt (tokenOrder (a.drop I) (b.drop I))) := by
  induction fuel generalizing I with
  | zero => omega
  | succ fuel ih =>
    rw [compareLoop]
    by_cases hend : I = min a.length b.length
    · rw [if_neg (not_not.mpr hend)]
      rcases Nat.lt_trichotomy a.length b.length with hlt | heq | hgt
      · have hdrop : b.drop I = b[I] :: b.drop (I + 1) := drop_eq_getElem_cons (by omega)
        rw [if_neg (by omega), drop_eq_nil_of_le (by omega : a.length ≤ I), hdrop,
          tokenOrder_nil_cons, decide_eq_true hlt]
        rfl
      · rw [if_pos heq, drop_eq_nil_of_le (by omega : a.length ≤ I),
          drop_eq_nil_of_le (by omega : b.length ≤ I), tokenOrder_eq_iff.mpr rfl]
        rfl
      · have hdrop : a.drop I = a[I] :: a.drop (I + 1) := drop_eq_getElem_cons (by omega)
        rw [if_neg (by omega), drop_eq_nil_of_le (by omega : b.length ≤ I), hdrop,
          ← tokenOrder_swap, tokenOrder_nil_cons, decide_eq_false (by omega)]
        rfl
    · have hda : a.drop I = a[I] :: a.drop (I + 1) := drop_eq_getElem_cons (by omega)
      have hdb : b.drop I = b[I] :: b.drop (I + 1) := drop_eq_getElem_cons (by omega)
      rw [if_pos hend, getElem?_eq_getElem (by omega : I < a.length),
        getElem?_eq_getElem (by omega : I < b.length)]
      simp only [Option.bind_eq_bind, Option.bind_some]
      generalize a[I] = L at hda ⊢
      generalize b[I] = R at hdb ⊢
      have hnext := ih (I := I + 1) (by omega) (by omega)
      by_cases hdigits : isDigit L = true ∧ isDigit R = true
      · rw [if_pos (by simpa using hdigits)]
        have hscan := scanRuns_spec (a := a) (b := b) (J := I + 1) (by omega)
        have horder := tokenOrder_runs (a := a.drop (I + 1)) (b := b.drop (I + 1)) hdigits.1
          hdigits.2
        rw [hscan, hda, hdb, horder]
        have hu : ((L :: a.drop (I + 1)).takeWhile isDigit).length =
            ((a.drop (I + 1)).takeWhile isDigit).length + 1 := by
          rw [takeWhile_cons_of_pos hdigits.1]
          rfl
        have hv : ((R :: b.drop (I + 1)).takeWhile isDigit).length =
            ((b.drop (I + 1)).takeWhile isDigit).length + 1 := by
          rw [takeWhile_cons_of_pos hdigits.2]
          rfl
        by_cases huv : ((a.drop (I + 1)).takeWhile isDigit).length =
            ((b.drop (I + 1)).takeWhile isDigit).length
        · rw [if_pos huv]
          dsimp only
          have hrun : I + 1 + ((a.drop (I + 1)).takeWhile isDigit).length - I =
              ((L :: a.drop (I + 1)).takeWhile isDigit).length := by omega
          have hruns : ((L :: a.drop (I + 1)).takeWhile isDigit).length =
              ((R :: b.drop (I + 1)).takeWhile isDigit).length := by omega
          obtain ⟨hla, hta, hra⟩ := run_split a (I := I) (by omega)
          obtain ⟨hlb, htb, hrb⟩ := run_split b (I := I) (by omega)
          rw [hda] at hla hta hra
          rw [hdb, ← hruns] at hlb htb hrb
          have hmem : compareMemory a b I (((L :: a.drop (I + 1)).takeWhile isDigit).length) =
              some (List.compareLex (fun a b => compare a.toNat b.toNat)
                ((L :: a.drop (I + 1)).takeWhile isDigit)
                ((R :: b.drop (I + 1)).takeWhile isDigit)) := by
            unfold compareMemory
            rw [if_pos ⟨hla, hlb⟩, hda, hdb, hta, htb]
          rw [hrun, hmem, hruns, Nat.compare_eq_eq.mpr rfl, ← hra, ← hrb]
          simp only [Option.bind_some]
          generalize List.compareLex (fun a b => compare a.toNat b.toNat)
            ((L :: a.drop (I + 1)).takeWhile isDigit)
            ((R :: b.drop (I + 1)).takeWhile isDigit) = Res
          cases Res with
          | lt | gt => rfl
          | eq =>
            have hJ : I + 1 + ((a.drop (I + 1)).takeWhile isDigit).length =
                I + ((L :: a.drop (I + 1)).takeWhile isDigit).length := by omega
            rw [if_neg (by decide), hJ]
            exact ih (by omega) (by omega)
        · rw [if_neg huv, hu, hv, compare_succ]
          rcases Nat.lt_or_gt_of_ne huv with h | h
          · rw [Nat.compare_eq_lt.mpr h]
            rfl
          · rw [Nat.compare_eq_gt.mpr h]
            rfl
      · rw [if_neg (by simpa using hdigits)]
        by_cases hLR : L = R
        · subst hLR
          rw [if_neg (not_not.mpr rfl), hnext, hda, hdb, tokenOrder_byte]
          exact fun h => hdigits ⟨h, h⟩
        · rw [if_pos hLR, hda, hdb, tokenOrder_bytes hLR hdigits, less_compare]
          exact fun h => hLR (UInt8.toNat_inj.mp h)

/-- The results are the ones of a total order, and no byte past an end is read. -/
theorem compare_numeric_totalOrder :
    ∃ cmp : Bytes → Bytes → Int, (∀ a b, compare_numeric a b = some (cmp a b)) ∧
      (∀ a b, cmp a b = -cmp b a) ∧ (∀ a b, cmp a b = 0 ↔ a = b) ∧
      (∀ a b c, cmp a b ≤ 0 → cmp b c ≤ 0 → cmp a c ≤ 0) ∧
      ∀ a b c, cmp a b < 0 → cmp b c < 0 → cmp a c < 0 := by
  have hzero : ∀ {o : Ordering}, toInt o = 0 ↔ o = .eq := by
    intro o
    cases o <;> decide
  have hle : ∀ {o : Ordering}, toInt o ≤ 0 ↔ o.isLE := by
    intro o
    cases o <;> decide
  have htrans : ∀ a b c, toInt (tokenOrder a b) ≤ 0 → toInt (tokenOrder b c) ≤ 0 →
      toInt (tokenOrder a c) ≤ 0 := fun a b c hab hbc =>
    hle.mpr (tokenOrder_trans (hle.mp hab) (hle.mp hbc))
  have hswap : ∀ a b, toInt (tokenOrder a b) = -toInt (tokenOrder b a) := by
    intro a b
    rw [← tokenOrder_swap b a]
    cases tokenOrder b a <;> rfl
  have heq : ∀ a b, toInt (tokenOrder a b) = 0 ↔ a = b := fun a b =>
    hzero.trans tokenOrder_eq_iff
  refine ⟨fun a b => toInt (tokenOrder a b), fun a b => ?_, hswap, heq, htrans,
    fun a b c hab hbc => ?_⟩
  · have hfuel : min a.length b.length < 0 + (min a.length b.length + 1) := by omega
    have h := compareLoop_spec (Nat.zero_le (min a.length b.length)) hfuel
    rwa [drop_zero, drop_zero] at h
  · have hac := htrans a b c (Int.le_of_lt hab) (Int.le_of_lt hbc)
    refine Int.lt_iff_le_and_ne.mpr ⟨hac, fun h0 => ?_⟩
    obtain rfl := (heq a c).mp h0
    have hba := hswap a b
    dsimp only at hab hbc
    omega

end Zapcc.StringRef
