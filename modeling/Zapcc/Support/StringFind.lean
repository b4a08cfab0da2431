import Mathlib.Data.List.Infix

/-!
# Searching in a string

`find` is a search for a byte, a comparison at each position, or a search with a table of bad
characters. The main result is `find_firstFrom`: each of them gives the first occurrence, and none
reads past the end of a string.
-/

namespace Zapcc.StringRef

open List Function Option

abbrev Bytes := List UInt8

/-! ## The code -/

/-- Whether `memcmp` of some bytes is zero. There is no result past the end of a string. -/
def memcmpEq (Data : Bytes) (Start : Nat) (Needle : Bytes) (N : Nat) : Option Bool :=
  if Start + N ≤ Data.length ∧ N ≤ Needle.length then
    some (decide ((Data.drop Start).take N = Needle.take N))
  else none

/-- `memchr`, as the distance to the byte. -/
def memchr (C : UInt8) : Bytes → Option Nat
  | [] => none
  | D :: Data => if D = C then some 0 else (memchr C Data).map (· + 1)

/-- The naive search. A result without an index is `npos`. -/
def naiveLoop (Data Needle : Bytes) (N Stop Start : Nat) : Option (Option Nat) :=
  match memcmpEq Data Start Needle N with
  | none => none
  | some true => some (some Start)
  | some false =>
    if Start + 1 < Stop then naiveLoop Data Needle N Stop (Start + 1) else some none
termination_by Stop - Start

/-- The distances of bytes from the last one, in 8 bits. -/
abbrev SkipTable := UInt8 → Nat

/-- The loop that fills the table, from an index on. -/
def fillBadCharSkip (N : Nat) : Bytes → Nat → SkipTable → SkipTable
  | [], _, BadCharSkip => BadCharSkip
  | C :: Str, i, BadCharSkip =>
    fillBadCharSkip N Str (i + 1) (update BadCharSkip C ((N - 1 - i) % 256))

/-- The search with the table. The first number bounds the steps. -/
def skipLoop (Data Needle : Bytes) (N Stop : Nat) (BadCharSkip : SkipTable) :
    Nat → Nat → Option (Option Nat)
  | 0, _ => none
  | fuel + 1, Start => do
      let Last ← Data[Start + (N - 1)]?
      let NeedleLast ← Needle[N - 1]?
      let found ← if Last = NeedleLast then memcmpEq Data Start Needle (N - 1) else some false
      if found then some (some Start)
      else if Start + BadCharSkip Last < Stop then
        skipLoop Data Needle N Stop BadCharSkip fuel (Start + BadCharSkip Last)
      else some none

def find (Data Str : Bytes) (From : Nat) : Option (Option Nat) :=
  if From > Data.length then some none
  else
    let Size := Data.length - From
    let N := Str.length
    match Str with
    | [] => some (some From)
    | C :: Rest =>
      if Size < N then some none
      else if Rest = [] then some ((memchr C (Data.drop From)).map (From + ·))
      else
        let Stop := From + (Size - N + 1)
        if Size < 16 ∨ N > 255 then naiveLoop Data Str N Stop From
        else
          skipLoop Data Str N Stop (fillBadCharSkip N Str.dropLast 0 fun _ => N % 256) Stop From

/-! ## Occurrences -/

/-- The string is found at the index. -/
def Occurs (Data Str : Bytes) (i : Nat) : Prop := i ≤ Data.length ∧ Str <+: Data.drop i

/-- The first index from some one on at which the string is found, or none. -/
def FirstFrom (Data Str : Bytes) (From : Nat) : Option Nat → Prop
  | none => ∀ j, From ≤ j → ¬Occurs Data Str j
  | some i => From ≤ i ∧ Occurs Data Str i ∧ ∀ j, From ≤ j → j < i → ¬Occurs Data Str j

variable {Data Str : Bytes} {From : Nat}

theorem Occurs.length_le {i : Nat} (h : Occurs Data Str i) : i + Str.length ≤ Data.length := by
  have hle := h.2.length_le
  have hi := h.1
  rw [length_drop] at hle
  omega

theorem Occurs.getElem? {i k : Nat} (h : Occurs Data Str i) (hk : k < Str.length) :
    Data[i + k]? = Str[k]? := by
  obtain ⟨rest, hrest⟩ := h.2
  rw [← getElem?_drop, ← hrest, getElem?_append_left hk]

theorem occurs_iff {i : Nat} (h : i + Str.length ≤ Data.length) :
    Occurs Data Str i ↔ (Data.drop i).take Str.length = Str := by
  unfold Occurs
  rw [prefix_iff_eq_take]
  exact ⟨fun hi => hi.2.symm, fun hi => ⟨by omega, hi.symm⟩⟩

theorem memcmpEq_occurs {i : Nat} (h : i + Str.length ≤ Data.length) :
    memcmpEq Data i Str Str.length = some (decide ((Data.drop i).take Str.length = Str)) := by
  unfold memcmpEq
  rw [if_pos ⟨h, le_rfl⟩, take_length]

theorem FirstFrom.later {From' : Nat} {r : Option Nat} (h : FirstFrom Data Str From' r)
    (hle : From ≤ From') (hnot : ∀ j, From ≤ j → j < From' → ¬Occurs Data Str j) :
    FirstFrom Data Str From r := by
  cases r with
  | none =>
    intro j hj
    by_cases hlt : j < From'
    · exact hnot j hj hlt
    · exact h j (Nat.not_lt.mp hlt)
  | some i =>
    obtain ⟨hi, hocc, hall⟩ := h
    refine ⟨hle.trans hi, hocc, fun j hj hji => ?_⟩
    by_cases hlt : j < From'
    · exact hnot j hj hlt
    · exact hall j (Nat.not_lt.mp hlt) hji

/-! ## The searches -/

theorem memchr_spec (C : UInt8) (Data : Bytes) :
    (∀ i, memchr C Data = some i → Data[i]? = some C ∧ ∀ j < i, Data[j]? ≠ some C) ∧
      (memchr C Data = none → C ∉ Data) := by
  induction Data with
  | nil => exact ⟨fun i hi => by simp [memchr] at hi, fun _ => not_mem_nil⟩
  | cons D Data ih =>
    rw [memchr]
    by_cases hD : D = C
    · subst hD
      rw [if_pos rfl]
      refine ⟨fun i hi => ?_, fun hnone => by simp at hnone⟩
      obtain rfl := some.inj hi
      exact ⟨rfl, fun j hj => absurd hj (Nat.not_lt_zero j)⟩
    · rw [if_neg hD]
      refine ⟨fun i hi => ?_, fun hnone => ?_⟩
      · obtain ⟨k, hk, rfl⟩ := map_eq_some_iff.mp hi
        obtain ⟨hget, hbefore⟩ := ih.1 k hk
        refine ⟨hget, fun j hj => ?_⟩
        cases j with
        | zero => simpa using hD
        | succ j => exact hbefore j (by omega)
      · have hrest := ih.2 (map_eq_none_iff.mp hnone)
        simp [hrest, Ne.symm hD]

theorem occurs_singleton {C : UInt8} {i : Nat} : Occurs Data [C] i ↔ Data[i]? = some C := by
  constructor
  · exact fun h => by simpa using h.getElem? (k := 0) (by simp)
  · intro h
    obtain ⟨hi, hget⟩ := List.getElem?_eq_some_iff.mp h
    refine ⟨hi.le, Data.drop (i + 1), ?_⟩
    rw [← hget]
    exact (drop_eq_getElem_cons hi).symm

theorem naiveLoop_spec {Start : Nat} (hlength : Start + Str.length ≤ Data.length) :
    ∃ r, naiveLoop Data Str Str.length (Data.length - Str.length + 1) Start = some r ∧
      FirstFrom Data Str Start r := by
  induction hn : Data.length - Start using Nat.strong_induction_on generalizing Start with
  | _ n ih =>
    rw [naiveLoop, memcmpEq_occurs hlength]
    by_cases hocc : (Data.drop Start).take Str.length = Str
    · rw [decide_eq_true hocc]
      exact ⟨some Start, rfl, le_rfl, (occurs_iff hlength).mpr hocc, fun j hj hlt => by omega⟩
    · rw [decide_eq_false hocc]
      have hnot : ¬Occurs Data Str Start := fun h => hocc ((occurs_iff hlength).mp h)
      have hnext : ∀ j, Start ≤ j → j < Start + 1 → ¬Occurs Data Str j := fun j hj hlt => by
        rwa [show j = Start by omega]
      split_ifs with hstop
      · obtain ⟨r, hr, hfirst⟩ := @ih (Data.length - (Start + 1)) (by omega) (Start + 1)
          (by omega) rfl
        exact ⟨r, hr, hfirst.later (by omega) hnext⟩
      · refine ⟨none, rfl, fun j hj hj' => ?_⟩
        have := hj'.length_le
        exact hnext j hj (by omega) hj'

theorem fillBadCharSkip_notMem {N : Nat} {C : UInt8} (Bs : Bytes) (i : Nat) (T : SkipTable)
    (h : C ∉ Bs) : fillBadCharSkip N Bs i T C = T C := by
  induction Bs generalizing i T with
  | nil => rfl
  | cons B Bs ih =>
    rw [mem_cons, not_or] at h
    rw [fillBadCharSkip, ih _ _ h.2, update_of_ne h.1]

theorem fillBadCharSkip_pos {N : Nat} (C : UInt8) (Bs : Bytes) (i : Nat) (T : SkipTable)
    (hN : N ≤ 255) (hi : i + Bs.length ≤ N - 1) (hT : 0 < T C) :
    0 < fillBadCharSkip N Bs i T C := by
  induction Bs generalizing i T with
  | nil => exact hT
  | cons B Bs ih =>
    rw [length_cons] at hi
    refine ih _ _ (by omega) ?_
    by_cases hB : C = B
    · subst hB
      rw [update_self, Nat.mod_eq_of_lt (by omega)]
      omega
    · rwa [update_of_ne hB]

theorem fillBadCharSkip_le {N k : Nat} {C : UInt8} (Bs : Bytes) (i : Nat) (T : SkipTable)
    (hk : Bs[k]? = some C) :
    fillBadCharSkip N Bs i T C ≤ N - 1 - (i + k) := by
  induction Bs generalizing i k T with
  | nil => simp at hk
  | cons B Bs ih =>
    rw [fillBadCharSkip]
    cases k with
    | succ k =>
      have := ih (i + 1) (update T B ((N - 1 - i) % 256)) hk
      omega
    | zero =>
      obtain rfl : B = C := by simpa using hk
      by_cases hmem : B ∈ Bs
      · obtain ⟨k, hk'⟩ := getElem?_of_mem hmem
        have := ih (i + 1) (update T B ((N - 1 - i) % 256)) hk'
        omega
      · rw [fillBadCharSkip_notMem _ _ _ hmem, update_self]
        exact Nat.mod_le _ _

theorem fillBadCharSkip_le_length {N : Nat} (C : UInt8) (Bs : Bytes) (i : Nat) (T : SkipTable)
    (hT : T C ≤ N) : fillBadCharSkip N Bs i T C ≤ N := by
  induction Bs generalizing i T with
  | nil => exact hT
  | cons B Bs ih =>
    refine ih _ _ ?_
    by_cases hB : C = B
    · subst hB
      rw [update_self]
      omega
    · rwa [update_of_ne hB]

theorem take_eq_iff {xs ys : Bytes} {x y : UInt8} {n : Nat} (hn : 0 < n)
    (hx : xs[n - 1]? = some x) (hy : ys[n - 1]? = some y) :
    xs.take n = ys.take n ↔ x = y ∧ xs.take (n - 1) = ys.take (n - 1) := by
  have hsplit : ∀ {zs : Bytes} {z : UInt8}, zs[n - 1]? = some z →
      zs.take n = zs.take (n - 1) ++ [z] := by
    intro zs z hz
    obtain ⟨hi, hz'⟩ := List.getElem?_eq_some_iff.mp hz
    have hsucc : n = n - 1 + 1 := by omega
    conv_lhs => rw [hsucc]
    rw [take_succ_eq_append_getElem hi, hz']
  rw [hsplit hx, hsplit hy]
  constructor
  · intro heq
    obtain ⟨h₁, h₂⟩ := append_inj' heq rfl
    exact ⟨by simpa using h₂, h₁⟩
  · rintro ⟨rfl, heq⟩
    rw [heq]

theorem skipLoop_spec {T : SkipTable} {fuel Start : Nat} (hStr : 0 < Str.length)
    (hpos : ∀ C, 0 < T C) (hall : ∀ C, T C ≤ Str.length)
    (hle : ∀ C k, k + 1 < Str.length → Str[k]? = some C → T C ≤ Str.length - 1 - k)
    (hlength : Start + Str.length ≤ Data.length)
    (hfuel : Data.length - Str.length + 1 ≤ Start + fuel) :
    ∃ r, skipLoop Data Str Str.length (Data.length - Str.length + 1) T fuel Start = some r ∧
      FirstFrom Data Str Start r := by
  induction fuel generalizing Start with
  | zero => omega
  | succ fuel ih =>
    have hlast : Start + (Str.length - 1) < Data.length := by omega
    have hget : Data[Start + (Str.length - 1)]? = some Data[Start + (Str.length - 1)] :=
      getElem?_eq_getElem hlast
    have hneedle : Str[Str.length - 1]? = some Str[Str.length - 1] :=
      getElem?_eq_getElem (by omega)
    have hcmp : memcmpEq Data Start Str (Str.length - 1) =
        some (decide ((Data.drop Start).take (Str.length - 1) = Str.take (Str.length - 1))) := by
      exact if_pos ⟨by omega, by omega⟩
    generalize hLast : Data[Start + (Str.length - 1)] = Last at hget
    generalize hEnd : Str[Str.length - 1] = NeedleLast at hneedle
    have hdrop : (Data.drop Start)[Str.length - 1]? = some Last := by
      rw [getElem?_drop, hget]
    have hocc : Occurs Data Str Start ↔ Last = NeedleLast ∧
        (Data.drop Start).take (Str.length - 1) = Str.take (Str.length - 1) := by
      have htake := take_eq_iff hStr hdrop hneedle
      rwa [take_length, ← occurs_iff hlength] at htake
    -- an occurrence nearer than the table says has the last byte at a position before its end
    have hskip : ∀ j, Start < j → j < Start + T Last → ¬Occurs Data Str j := by
      intro j hlo hhi hj
      by_cases hnear : j ≤ Start + (Str.length - 1)
      · have hk : Str.length - 1 - (j - Start) < Str.length := by omega
        have hbyte := hj.getElem? hk
        have hidx : j + (Str.length - 1 - (j - Start)) = Start + (Str.length - 1) := by omega
        rw [hidx, hget] at hbyte
        have := hle Last _ (by omega) hbyte.symm
        omega
      · have hbound := hall Last
        omega
    have hnext : ¬Occurs Data Str Start →
        ∀ j, Start ≤ j → j < Start + T Last → ¬Occurs Data Str j := by
      intro hnot j hlo hhi
      rcases Nat.eq_or_lt_of_le hlo with rfl | hlt
      · exact hnot
      · exact hskip j hlt hhi
    have hrest : ¬Occurs Data Str Start → ∃ r,
        (if Start + T Last < Data.length - Str.length + 1 then
          skipLoop Data Str Str.length (Data.length - Str.length + 1) T fuel (Start + T Last)
        else some none) = some r ∧ FirstFrom Data Str Start r := by
      intro hnot
      have hpos' := hpos Last
      split_ifs with hstop
      · obtain ⟨r, hr, hfirst⟩ := @ih (Start + T Last) (by omega) (by omega)
        exact ⟨r, hr, hfirst.later (by omega) (hnext hnot)⟩
      · refine ⟨none, rfl, fun j hj hj' => ?_⟩
        have := hj'.length_le
        exact hnext hnot j hj (by omega) hj'
    rw [skipLoop, hget, hneedle, hcmp]
    simp only [bind_eq_bind, bind_some]
    by_cases hlasts : Last = NeedleLast
    · rw [if_pos hlasts]
      by_cases hfirst : (Data.drop Start).take (Str.length - 1) = Str.take (Str.length - 1)
      · simp only [hfirst, decide_true, if_true]
        exact ⟨some Start, rfl, le_rfl, hocc.mpr ⟨hlasts, hfirst⟩, fun j hj hlt => by omega⟩
      · simp only [hfirst, decide_false, Bool.false_eq_true, if_false]
        exact hrest fun h => hfirst (hocc.mp h).2
    · rw [if_neg hlasts]
      exact hrest fun h => hlasts (hocc.mp h).1

/-- The result is the first occurrence, or `npos` where there is none. -/
theorem find_firstFrom (Data Str : Bytes) (From : Nat) :
    ∃ r, find Data Str From = some r ∧ FirstFrom Data Str From r := by
  unfold find
  by_cases hFrom : From > Data.length
  · rw [if_pos hFrom]
    exact ⟨none, rfl, fun j hj hocc => absurd hocc.1 (by omega)⟩
  rw [if_neg hFrom]
  cases Str with
  | nil =>
    refine ⟨some From, rfl, le_rfl, ⟨by omega, nil_prefix⟩, fun j hj hlt => ?_⟩
    omega
  | cons C Rest =>
    dsimp only
    by_cases hsize : Data.length - From < (C :: Rest).length
    · rw [if_pos hsize]
      refine ⟨none, rfl, fun j hj hocc => ?_⟩
      have := hocc.length_le
      omega
    rw [if_neg hsize]
    by_cases hone : Rest = []
    · subst hone
      obtain ⟨hsome, hnone⟩ := memchr_spec C (Data.drop From)
      refine ⟨_, rfl, ?_⟩
      cases hchr : memchr C (Data.drop From) with
      | none =>
        intro j hj hocc
        rw [occurs_singleton] at hocc
        refine hnone hchr (mem_of_getElem? (i := j - From) ?_)
        rwa [getElem?_drop, Nat.add_sub_cancel' hj]
      | some i =>
        obtain ⟨hget, hbefore⟩ := hsome i hchr
        rw [getElem?_drop] at hget
        refine ⟨Nat.le_add_right From i, occurs_singleton.mpr hget, fun j hj hlt hocc => ?_⟩
        rw [occurs_singleton] at hocc
        have hlt' : j < From + i := hlt
        refine hbefore (j - From) (by omega) ?_
        rwa [getElem?_drop, Nat.add_sub_cancel' hj]
    rw [if_neg hone]
    generalize hStr : C :: Rest = Str at *
    have hlength : From + Str.length ≤ Data.length := by omega
    have hStop : From + (Data.length - From - Str.length + 1) =
        Data.length - Str.length + 1 := by omega
    have hpos : 0 < Str.length := by
      rw [← hStr]
      exact Nat.succ_pos _
    rw [hStop]
    by_cases hnaive : Data.length - From < 16 ∨ Str.length > 255
    · rw [if_pos hnaive]
      exact naiveLoop_spec hlength
    rw [if_neg hnaive]
    have hN : Str.length ≤ 255 := by omega
    have hlen : 0 + Str.dropLast.length ≤ Str.length - 1 := by simp
    refine skipLoop_spec hpos (fun B => ?_) (fun B => ?_) (fun B k hk hget => ?_) hlength
      (by omega)
    · exact fillBadCharSkip_pos B _ _ _ hN hlen (by omega)
    · exact fillBadCharSkip_le_length B _ _ _ (by omega)
    · have hget' : Str.dropLast[k]? = some B := by
        rw [getElem?_dropLast, if_pos (by omega), hget]
      have := fillBadCharSkip_le (N := Str.length) Str.dropLast 0
        (fun _ => Str.length % 256) hget'
      rwa [Nat.zero_add] at this

end Zapcc.StringRef
