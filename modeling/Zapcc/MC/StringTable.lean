import Zapcc.MC.StringTableBuilder

/-!
# What a string table holds

Every string that was added lies at its offset of the table, also when it shares the tail of
another one. The proof follows the bytes that the table is meant to have: the layout only
appends to them (`placeStrings_holds`), and the copies of all strings into a blank buffer are
pieces of one buffer, so that none undoes another. The main result is `resolves`.
-/

namespace Zapcc.MC

open Layout MathExtras List

variable {K : Kind} {A : Nat}

/-- An entry is in its place in the bytes of a table: the string and its terminator lie at the
offset, which is aligned and behind the header. -/
structure Held (K : Kind) (A : Nat) (Z : Str) (P : StringPair) : Prop where
  lies : LiesAt Z P.2 (P.1 ++ K.terminator)
  aligned : A ∣ P.2
  header : K = .WinCOFF → 4 ≤ P.2

variable {Z Previous : Str}

theorem Held.append {P : StringPair} (h : Held K A Z P) (B : Str) :
    Held K A (Z ++ B) P :=
  ⟨h.lies.append B, h.aligned, h.header⟩

/-- The bytes after a string was placed at the next aligned offset. -/
def placed (K : Kind) (A : Nat) (Z S : Str) : Str :=
  Z ++ replicate (alignTo Z.length A - Z.length) 0 ++ (S ++ K.terminator)

theorem length_padded (hA : 0 < A) (Z : Str) :
    (Z ++ replicate (alignTo Z.length A - Z.length) 0).length = alignTo Z.length A := by
  have hle := le_alignTo hA Z.length
  simp only [length_append, length_replicate]
  omega

theorem length_placed (hA : 0 < A) (Z S : Str) :
    (placed K A Z S).length = alignTo Z.length A + S.length + K.terminator.length := by
  unfold placed
  rw [length_append, length_padded hA, length_append, Nat.add_assoc]

theorem Held.placed {P : StringPair} (h : Held K A Z P) (S : Str) :
    Held K A (MC.placed K A Z S) P := by
  unfold MC.placed
  rw [append_assoc]
  exact h.append _

theorem held_placed (hA : 0 < A) (hcoff : K = .WinCOFF → 4 ≤ Z.length) (S : Str) :
    Held K A (placed K A Z S) (S, alignTo Z.length A) := by
  refine ⟨?_, dvd_alignTo _ _, fun hK => (hcoff hK).trans (le_alignTo hA _)⟩
  have hat := liesAt_append (Z ++ replicate (alignTo Z.length A - Z.length) 0)
    (S ++ K.terminator) []
  rwa [length_padded hA, append_nil] at hat

theorem held_tail {S : Str} (hprev : Previous ++ K.terminator <:+ Z)
    (htail : S <:+ Previous) (haligned : A ∣ Z.length - S.length - K.terminator.length)
    (hcoff : K = .WinCOFF → 4 ≤ Z.length - S.length - K.terminator.length) :
    Held K A Z (S, Z.length - S.length - K.terminator.length) := by
  have hsuffix : S ++ K.terminator <:+ Z := by
    obtain ⟨R, rfl⟩ := htail
    exact List.IsSuffix.trans ⟨R, (append_assoc ..).symm⟩ hprev
  refine ⟨?_, haligned, hcoff⟩
  have hat := liesAt_of_suffix hsuffix
  rwa [length_append, ← Nat.sub_sub] at hat

/-! ## The string before -/

/-- The string placed last is at the end of the table, and behind the header unless it is
empty. -/
structure AtEnd (K : Kind) (Z Previous : Str) : Prop where
  suffix : Previous ++ K.terminator <:+ Z
  header : K = .WinCOFF → 4 ≤ Z.length ∧
    (Previous ≠ [] → 4 + Previous.length + K.terminator.length ≤ Z.length)

theorem atEnd_initSize (hK : K ≠ .DWARF) :
    AtEnd K (replicate (StringTableBuilder.initSize K) 0) [] := by
  cases K with
  | ELF => exact ⟨⟨[], rfl⟩, by simp⟩
  | WinCOFF => exact ⟨⟨[0, 0, 0], rfl⟩, by simp [StringTableBuilder.initSize]⟩
  | MachO | RAW => exact ⟨⟨[], rfl⟩, by simp⟩
  | DWARF => exact absurd rfl hK

theorem AtEnd.placed (hA : 0 < A) (h : AtEnd K Z Previous) (S : Str) :
    AtEnd K (MC.placed K A Z S) S := by
  refine ⟨⟨_, rfl⟩, fun hK => ?_⟩
  have hle := le_alignTo hA Z.length
  have hlen := (h.header hK).1
  rw [length_placed hA]
  omega

theorem AtEnd.tail {S : Str} (h : AtEnd K Z Previous) (htail : S <:+ Previous)
    (hS : K = .WinCOFF → S ≠ []) (hK : K = .WinCOFF) :
    4 ≤ Z.length - S.length - K.terminator.length := by
  have hlen := htail.length_le
  have hprev : Previous ≠ [] := by
    rintro rfl
    exact hS hK (suffix_nil.mp htail)
  have := (h.header hK).2 hprev
  omega

theorem and_alignment_eq_zero {a Pos : Nat} : Pos &&& (2 ^ a - 1) = 0 ↔ 2 ^ a ∣ Pos := by
  rw [Nat.and_two_pow_sub_one_eq_mod, Nat.dvd_iff_mod_eq_zero]

namespace StringTableBuilder

/-! ## The layout -/

/-- Every entry whose string is done is in its place. -/
def Holds (T : StringTableBuilder) (Z : Str) (done : Str → Prop) : Prop :=
  Z.length = T.Size ∧ ∀ P ∈ T.StringIndexMap, done P.1 → Held T.K T.Alignment Z P

variable {T : StringTableBuilder} {Ss : List Str}

theorem Holds.setOffset {Z' S : Str} {Pos : Nat} {done : Str → Prop}
    (h : Holds T Z done) (hkeep : ∀ P, Held T.K T.Alignment Z P → Held T.K T.Alignment Z' P)
    (hnew : Held T.K T.Alignment Z' (S, Pos)) :
    ∀ P ∈ (T.setOffset S Pos).StringIndexMap, done P.1 ∨ P.1 = S → Held T.K T.Alignment Z' P := by
  intro P hP hdone
  obtain ⟨Q, hQ, rfl⟩ := mem_map.mp hP
  by_cases hQS : Q.1 = S
  · rw [if_pos hQS]
    exact hnew
  · rw [if_neg hQS] at hdone ⊢
    exact hkeep Q (h.2 Q hQ (hdone.resolve_right hQS))

def strings (T : StringTableBuilder) : List Str := T.StringIndexMap.map Prod.fst

@[simp] theorem strings_setOffset (T : StringTableBuilder) (S : Str) (Pos : Nat) :
    (T.setOffset S Pos).strings = T.strings := by
  unfold strings setOffset
  rw [map_map]
  apply map_congr_left
  intro P _
  simp only [Function.comp_apply]
  split <;> simp_all

/-- What the layout of strings keeps, and that it puts them in their places. -/
structure Placed (T T' : StringTableBuilder) (done : Str → Prop) : Prop where
  kind : T'.K = T.K
  alignment : T'.Alignment = T.Alignment
  finalized : T'.Finalized = T.Finalized
  strings : T'.strings = T.strings
  size : T.Size ≤ T'.Size
  holds : ∃ Z, Holds T' Z done

theorem placeStrings_holds {a : Nat}
    {done : Str → Prop} (Strings : List StringPair) (hA : T.Alignment = 2 ^ a)
    (hholds : Holds T Z done) (hend : AtEnd T.K Z Previous)
    (hS : ∀ P ∈ Strings, T.K = .WinCOFF → P.1 ≠ []) :
    Placed T (T.placeStrings Previous Strings) fun S => done S ∨ S ∈ Strings.map Prod.fst := by
  have hpos : 0 < T.Alignment := hA ▸ Nat.two_pow_pos a
  induction Strings generalizing T Z Previous done with
  | nil =>
    refine ⟨rfl, rfl, rfl, rfl, Nat.le_refl _, Z, hholds.1, fun P hP h => ?_⟩
    exact hholds.2 P hP (by simpa using h)
  | cons P Strings ih =>
    have hrest : ∀ Q ∈ Strings, T.K = .WinCOFF → Q.1 ≠ [] := fun Q hQ => hS Q (by simp [hQ])
    have hdone : ∀ S, (done S ∨ S = P.1) ∨ S ∈ Strings.map Prod.fst ↔
        done S ∨ S ∈ (P :: Strings).map Prod.fst := fun S => by
      rw [map_cons, mem_cons, or_assoc]
    simp only [placeStrings]
    split
    · rename_i htail
      obtain ⟨hsuffix, haligned⟩ := htail
      rw [hA, and_alignment_eq_zero, ← hA, ← hholds.1] at haligned
      have hnew := held_tail hend.suffix hsuffix haligned
        (hend.tail hsuffix (hS P (by simp)))
      rw [hholds.1] at hnew
      have hmoved : Holds (T.setOffset P.1 (T.Size - P.1.length - T.K.terminator.length)) Z
          fun S => done S ∨ S = P.1 :=
        ⟨hholds.1, hholds.setOffset (fun _ h => h) hnew⟩
      obtain ⟨hk, ha, hf, hs, hsize, Z', hZ'⟩ := ih (by exact hA) hmoved hend hrest hpos
      refine ⟨hk, ha, hf, hs.trans (strings_setOffset ..), hsize, Z', hZ'.1, fun Q hQ h => ?_⟩
      exact hZ'.2 Q hQ ((hdone Q.1).mpr h)
    · have hcoff : T.K = .WinCOFF → 4 ≤ Z.length := fun hK => (hend.header hK).1
      have hnew := held_placed hpos hcoff P.1
      rw [hholds.1] at hnew
      have hmoved : Holds
          { T.setOffset P.1 (alignTo T.Size T.Alignment) with
            Size := alignTo T.Size T.Alignment + P.1.length + T.K.terminator.length }
          (placed T.K T.Alignment Z P.1) fun S => done S ∨ S = P.1 :=
        ⟨by rw [length_placed hpos, hholds.1], hholds.setOffset (fun _ h => h.placed P.1) hnew⟩
      obtain ⟨hk, ha, hf, hs, hsize, Z', hZ'⟩ :=
        ih (by exact hA) hmoved (hend.placed hpos P.1) hrest hpos
      have hgrow : T.Size ≤ alignTo T.Size T.Alignment + P.1.length + T.K.terminator.length :=
        (le_alignTo hpos T.Size).trans (by omega)
      refine ⟨hk, ha, hf, hs.trans (strings_setOffset ..), hgrow.trans hsize, Z', hZ'.1,
        fun Q hQ h => ?_⟩
      exact hZ'.2 Q hQ ((hdone Q.1).mpr h)

/-! ## Adding and finalizing -/

/-- A table whose strings all lie where the map says. -/
structure InPlace (K : Kind) (A : Nat) (Ss : List Str) (T : StringTableBuilder) : Prop where
  kind : T.K = K
  alignment : T.Alignment = A
  strings : ∀ S, S ∈ T.strings ↔ S ∈ Ss
  header : K = .WinCOFF → 4 ≤ T.Size
  holds : ∃ Z, Holds T Z fun _ => True

theorem inPlace_create (K : Kind) (A : Nat) : InPlace K A [] (create K A) := by
  refine ⟨rfl, rfl, by simp [StringTableBuilder.strings, create], ?_, ?_⟩
  · rintro rfl
    simp [create, initSize]
  · exact ⟨replicate (initSize K) 0, by simp [create], by simp [create]⟩

theorem lookup_eq_some {l : List StringPair} {S : Str} :
    S ∈ l.map Prod.fst ↔ ∃ off, l.lookup S = some off ∧ (S, off) ∈ l := by
  induction l with
  | nil => simp
  | cons P l ih =>
    obtain ⟨S', off'⟩ := P
    by_cases hS : S = S'
    · subst hS
      simp
    · have hbeq : (S == S') = false := by simpa using hS
      simp [lookup_cons, hbeq, hS, ih]

theorem InPlace.add (h : InPlace K A Ss T) (hA : 0 < A)
    (hT : T.Finalized = false) {S : Str} (hS : K = .WinCOFF → 8 < S.length) :
    ∃ T' off, T.add S = some (T', off) ∧ T'.Finalized = false ∧ InPlace K A (S :: Ss) T' := by
  obtain ⟨rfl, rfl, hstrings, hheader, Z, hlen, hheld⟩ := h
  have hassert : ¬(T.K = .WinCOFF ∧ S.length ≤ 8 ∨ T.Finalized) := by
    rintro (⟨hK, hle⟩ | hfin)
    · exact absurd (hS hK) (by omega)
    · simp [hT] at hfin
  unfold StringTableBuilder.add
  rw [if_neg hassert]
  cases hlook : T.StringIndexMap.lookup S with
  | some off =>
    have hmem : S ∈ Ss := by
      rw [← hstrings]
      by_contra hnot
      have hne := lookup_eq_none_iff.mpr fun P hP => by
        have : P.1 ≠ S := fun he => hnot (he ▸ mem_map_of_mem hP)
        simpa using this.symm
      simp [hne] at hlook
    refine ⟨T, off, rfl, hT, rfl, rfl, fun S' => ?_, hheader, Z, hlen, hheld⟩
    rw [hstrings, mem_cons]
    exact ⟨.inr, fun h => h.elim (· ▸ hmem) id⟩
  | none =>
    refine ⟨_, _, rfl, hT, rfl, rfl, fun S' => ?_, fun hK => ?_, placed T.K T.Alignment Z S,
      ?_, fun P hP _ => ?_⟩
    · simp only [StringTableBuilder.strings, map_cons, mem_cons] at hstrings ⊢
      rw [hstrings]
    · have hle := le_alignTo hA T.Size
      have hsize := hheader hK
      show 4 ≤ alignTo T.Size T.Alignment + S.length + T.K.terminator.length
      omega
    · rw [length_placed hA, hlen]
    · rcases mem_cons.mp hP with rfl | hP
      · rw [← hlen]
        exact held_placed hA (fun hK => hlen ▸ hheader hK) S
      · exact (hheld P hP trivial).placed S

theorem InPlace.addAll (h : InPlace K A Ss T)
    (hA : 0 < A) (hT : T.Finalized = false) {Ss' : List Str}
    (hlong : K = .WinCOFF → ∀ S ∈ Ss', 8 < S.length) :
    ∃ T', T.addAll Ss' = some T' ∧ T'.Finalized = false ∧ InPlace K A (Ss'.reverse ++ Ss) T' := by
  induction Ss' generalizing Ss T with
  | nil => exact ⟨T, rfl, hT, h⟩
  | cons S Ss' ih =>
    obtain ⟨T₁, off, hadd, hT₁, h₁⟩ := h.add hA hT fun hK => hlong hK S (by simp)
    obtain ⟨T', hall, hT', h'⟩ := ih h₁ hT₁ fun hK S' hS' => hlong hK S' (by simp [hS'])
    refine ⟨T', by rw [StringTableBuilder.addAll, hadd, Option.bind_some, hall], hT', ?_⟩
    rwa [reverse_cons, append_assoc, singleton_append]

theorem InPlace.pad (h : InPlace K A Ss T) {n : Nat}
    (hn : T.Size ≤ n) : InPlace K A Ss { T with Size := n } := by
  obtain ⟨rfl, rfl, hstrings, hheader, Z, hlen, hheld⟩ := h
  refine ⟨rfl, rfl, hstrings, fun hK => (hheader hK).trans hn,
    Z ++ replicate (n - T.Size) 0, ?_, fun P hP hd => (hheld P hP hd).append _⟩
  show (Z ++ replicate (n - T.Size) 0).length = n
  rw [length_append, length_replicate, hlen]
  omega

theorem InPlace.placeStrings {a : Nat}
    (h : InPlace K (2 ^ a) Ss T) {Strings : List StringPair}
    (hperm : Strings.Perm T.StringIndexMap) (hlong : K = .WinCOFF → ∀ S ∈ Ss, 8 < S.length)
    (hK : K ≠ .DWARF) :
    let T' := StringTableBuilder.placeStrings
      { T with Size := initSize T.K, Finalized := true } [] Strings
    InPlace K (2 ^ a) Ss T' ∧ T'.Finalized = true := by
  obtain ⟨rfl, hA, hstrings, -, -⟩ := h
  have hblank : Holds { T with Size := initSize T.K, Finalized := true }
      (replicate (initSize T.K) 0) fun _ => False :=
    ⟨by simp, fun _ _ h => h.elim⟩
  have hne : ∀ P ∈ Strings, T.K = .WinCOFF → P.1 ≠ [] := by
    intro P hP hcoff hnil
    have hmem : P.1 ∈ T.strings := mem_map_of_mem (hperm.mem_iff.mp hP)
    have hlen := hlong hcoff P.1 ((hstrings P.1).mp hmem)
    simp [hnil] at hlen
  obtain ⟨hk, ha, hf, hs, hsize, Z', hlen', hheld'⟩ :=
    placeStrings_holds Strings (by exact hA) hblank (atEnd_initSize hK) hne
  refine ⟨⟨hk, ha.trans hA, fun S => ?_, fun hcoff => ?_, Z', hlen', fun P hP _ => ?_⟩, hf⟩
  · rw [hs]
    exact hstrings S
  · refine le_trans (le_of_eq ?_) hsize
    rw [hcoff, initSize]
  · have hmem : P.1 ∈ StringTableBuilder.strings _ := mem_map_of_mem hP
    rw [hs] at hmem
    exact hheld' P hP (.inr ((hperm.map Prod.fst).mem_iff.mpr hmem))

theorem InPlace.finalizeStringTable {a : Nat}
    (h : InPlace K (2 ^ a) Ss T) (V : Visit) {Optimize : Bool}
    (hlong : K = .WinCOFF → ∀ S ∈ Ss, 8 < S.length) (hopt : Optimize = true → K ≠ .DWARF) :
    InPlace K (2 ^ a) Ss (finalizeStringTable V Optimize T) ∧
      (finalizeStringTable V Optimize T).Finalized = true := by
  -- a table is padded after its strings have their places
  have hpadded : ∀ T', InPlace K (2 ^ a) Ss T' → T'.Finalized = true → InPlace K (2 ^ a) Ss
          (if T.K = .MachO then { T' with Size := alignTo T'.Size 4 } else T') ∧
        (if T.K = .MachO then { T' with Size := alignTo T'.Size 4 } else T').Finalized = true := by
    intro T' hin hfin
    split
    · exact ⟨hin.pad (le_alignTo (by omega) _), hfin⟩
    · exact ⟨hin, hfin⟩
  cases Optimize with
  | false =>
    obtain ⟨hk, hA, hstrings, hheader, Z, hholds⟩ := h
    exact hpadded { T with Finalized := true } ⟨hk, hA, hstrings, hheader, Z, hholds⟩ rfl
  | true =>
    have hperm : (multikeySort (V.entries T.StringIndexMap) 0).Perm T.StringIndexMap :=
      (multikeySort_perm _ 0).trans (V.perm _)
    obtain ⟨hin, hfin⟩ := h.placeStrings hperm hlong (hopt rfl)
    exact hpadded _ hin hfin

/-! ## Writing -/

theorem getElem?_terminator {i : Nat} (hi : i < K.terminator.length) :
    K.terminator[i]? = some 0 := by
  unfold Kind.terminator at hi ⊢
  split at hi
  · rw [if_pos ‹_›]
    obtain rfl : i = 0 := by simpa using hi
    rfl
  · simp at hi

theorem copyAll_holds (h : Holds T Z fun _ => True)
    (V : Visit) :
    ∃ B, copyAll (replicate T.Size 0)
        ((V.entries T.StringIndexMap).filter fun P => P.1 ≠ []) = some B ∧
      B.length = T.Size ∧
      ∀ P ∈ T.StringIndexMap, LiesAt B P.2 (P.1 ++ T.K.terminator) := by
  obtain ⟨hlen, hheld⟩ := h
  obtain ⟨B, hB, hlenB, hstep, hlies⟩ :=
    copyAll_settles (Z := Z) (B := replicate T.Size 0)
      (fun P hP => (hheld P ((V.perm _).mem_iff.mp (mem_of_mem_filter hP)) trivial).lies.left)
      (by simp [hlen])
  refine ⟨B, hB, hlenB.trans hlen, fun P hP => ?_⟩
  have hZ := (hheld P hP trivial).lies
  refine hZ.congr hlenB fun i hi => ?_
  rw [length_append] at hi
  by_cases hin : i < P.1.length
  · have hmem : P ∈ (V.entries T.StringIndexMap).filter fun P => P.1 ≠ [] := by
      have hne : P.1 ≠ [] := ne_nil_of_length_pos (by omega)
      simpa [hne] using (V.perm _).mem_iff.mpr hP
    rw [(hlies P hmem).2 i hin, hZ.left.2 i hin]
  · have hnul : Z[P.2 + i]? = some 0 := by
      rw [hZ.2 i (by rwa [length_append]), getElem?_append_right (by omega)]
      exact getElem?_terminator (by omega)
    rcases hstep (P.2 + i) with hblank | hsame
    · have hle := hZ.1
      rw [length_append] at hle
      rw [hblank, hnul, getElem?_replicate_of_lt (by omega)]
    · exact hsame

theorem InPlace.write (h : InPlace K A Ss T)
    (hfin : T.Finalized = true) (V : Visit) :
    ∃ B, T.write V = some B ∧ B.length = T.Size ∧
      ∀ P ∈ T.StringIndexMap, LiesAt B P.2 (P.1 ++ K.terminator) ∧ A ∣ P.2 := by
  obtain ⟨rfl, rfl, -, hheader, Z, hholds⟩ := h
  obtain ⟨B, hB, hlenB, hlies⟩ := copyAll_holds hholds V
  unfold StringTableBuilder.write writeTo
  rw [if_pos hfin, hB, Option.bind_some]
  split
  · exact ⟨B, rfl, hlenB, fun P hP => ⟨hlies P hP, (hholds.2 P hP trivial).aligned⟩⟩
  · rename_i hK
    have hK : T.K = .WinCOFF := by simpa using hK
    have hfit : 0 + (write32le T.Size).length ≤ B.length := by
      simpa [write32le, hlenB] using hheader hK
    obtain ⟨B', hB', hlenB', -, hother⟩ := copy_spec hfit
    refine ⟨B', hB', hlenB'.trans hlenB, fun P hP => ?_⟩
    have hheld := hholds.2 P hP trivial
    refine ⟨(hlies P hP).congr hlenB' fun i _ => hother _ (.inr ?_), hheld.aligned⟩
    have := hheld.header hK
    simp only [write32le, length_map, length_range]
    omega

/-! ## Strings resolve -/

/-- In the bytes of a table every string is found at its offset, which is aligned, followed by
a NUL byte unless the kind is raw. -/
def Resolves (V : Visit) (K : Kind) (A : Nat) (Ss : List Str) (T : StringTableBuilder) : Prop :=
  ∃ B, T.write V = some B ∧ B.length = T.Size ∧
    ∀ S ∈ Ss, ∃ off, T.getOffset S = some off ∧ A ∣ off ∧
      off + S.length + (if K ≠ .RAW then 1 else 0) ≤ T.Size ∧
      (B.drop off).take S.length = S ∧ (K ≠ .RAW → B[off + S.length]? = some 0)

theorem InPlace.written (h : InPlace K A Ss T)
    (hfin : T.Finalized = true) (V : Visit) : Resolves V K A Ss T := by
  obtain ⟨B, hB, hlenB, hlies⟩ := h.write hfin V
  refine ⟨B, hB, hlenB, fun S hS => ?_⟩
  obtain ⟨off, hoff, hmem⟩ := lookup_eq_some.mp ((h.strings S).mpr hS)
  obtain ⟨hat, haligned⟩ := hlies _ hmem
  refine ⟨off, by rw [getOffset, if_pos hfin, hoff], haligned, ?_, hat.left.take_drop, fun hK => ?_⟩
  · have hle : off + (S ++ K.terminator).length ≤ B.length := hat.1
    rw [length_append, hlenB] at hle
    have hterm : K.terminator.length = if K ≠ .RAW then 1 else 0 := by
      unfold Kind.terminator
      split <;> rfl
    omega
  · have hnul := hat.right.2 0 (by simp [Kind.terminator, hK])
    simpa [Kind.terminator, hK] using hnul

/-- String tables resolve: the strings that were added are found at their offsets once the table
is finalized, in a new layout or in order, whatever order its hash table is visited in. -/
theorem resolves (V : Visit) (K : Kind) (a : Nat) (Ss : List Str)
    (hlong : K = .WinCOFF → ∀ S ∈ Ss, 8 < S.length) :
    ∃ T, (create K (2 ^ a)).addAll Ss = some T ∧ Resolves V K (2 ^ a) Ss (T.finalizeInOrder V) ∧
      (K ≠ .DWARF → ∃ T', T.finalize V = some T' ∧ Resolves V K (2 ^ a) Ss T') := by
  obtain ⟨T, hT, hfin, hin⟩ :=
    (inPlace_create K (2 ^ a)).addAll (Nat.two_pow_pos a) rfl hlong
  have hin : InPlace K (2 ^ a) Ss T :=
    ⟨hin.kind, hin.alignment, by simpa using hin.strings, hin.header, hin.holds⟩
  refine ⟨T, hT, ?_, fun hK => ?_⟩
  · obtain ⟨hdone, hfin⟩ :=
      hin.finalizeStringTable V hlong fun h : false = true => absurd h (by simp)
    exact hdone.written hfin V
  · obtain ⟨hdone, hfin⟩ := hin.finalizeStringTable V hlong fun _ : true = true => hK
    refine ⟨_, ?_, hdone.written hfin V⟩
    rw [finalize, if_neg (by rwa [hin.kind])]

/-- Two long names, of which one is a tail of the other. -/
theorem resolves_tail :
    ∃ T, (create .WinCOFF (2 ^ 2)).addAll [replicate 9 97, replicate 13 97] = some T ∧
      Resolves ⟨id, fun _ => .refl _⟩ .WinCOFF (2 ^ 2)
        [replicate 9 97, replicate 13 97] (T.finalizeInOrder ⟨id, fun _ => .refl _⟩) ∧
      (Kind.WinCOFF ≠ .DWARF → ∃ T', T.finalize ⟨id, fun _ => .refl _⟩ = some T' ∧
        Resolves ⟨id, fun _ => .refl _⟩ .WinCOFF (2 ^ 2)
          [replicate 9 97, replicate 13 97] T') :=
  resolves ⟨id, fun _ => .refl _⟩ .WinCOFF 2 [replicate 9 97, replicate 13 97]
    (by simp)

end StringTableBuilder

end Zapcc.MC
