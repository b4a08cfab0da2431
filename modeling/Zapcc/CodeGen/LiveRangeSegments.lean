import Zapcc.CodeGen.LiveInterval

/-!
# What the updates of the segments do

Each update is described by the values that the new list covers. `extendSegmentEndTo_spec` and
`extendSegmentStartTo_eq` are about the two merges, and `addSegment_spec` puts them together.
-/

namespace Zapcc.LiveInterval

open Intervals SlotIndex List

variable {S : Segment} {after : List Segment} {NewEnd : Nat}

theorem skipMerged_spec {ValNo : Nat} (hne : ∀ I ∈ after, I.start < I.end_)
    (hcompat : ∀ I ∈ after, I.start < NewEnd → I.value = ValNo) (last : Nat) :
    ∃ last' skipped rest, skipMerged ValNo NewEnd last after = some (last', rest) ∧
      after = skipped ++ rest ∧ (∀ I ∈ skipped, I.end_ ≤ NewEnd ∧ I.value = ValNo) ∧
      (∀ I ∈ rest.head?, NewEnd < I.end_) ∧
      (last' = last ∨ last' ≤ NewEnd ∧ skipped ≠ []) := by
  induction after generalizing last with
  | nil => exact ⟨last, [], [], rfl, rfl, by simp, by simp, .inl rfl⟩
  | cons I after ih =>
    rw [skipMerged]
    by_cases hend : I.end_ ≤ NewEnd
    · have hI := hne I mem_cons_self
      have hvalue := hcompat I mem_cons_self (by omega)
      obtain ⟨last', skipped, rest, hskip, hsplit, hskipped, hrest, hlast⟩ :=
        ih (fun J hJ => hne J (mem_cons_of_mem _ hJ))
          (fun J hJ => hcompat J (mem_cons_of_mem _ hJ)) I.end_
      rw [if_pos hend, if_pos hvalue]
      refine ⟨last', I :: skipped, rest, hskip, by rw [hsplit]; rfl, fun J hJ => ?_, hrest, ?_⟩
      · rcases mem_cons.mp hJ with rfl | hJ
        · exact ⟨hend, hvalue⟩
        · exact hskipped J hJ
      · rcases hlast with rfl | hlast
        · exact .inr ⟨hend, cons_ne_nil _ _⟩
        · exact .inr ⟨hlast.1, cons_ne_nil _ _⟩
    · rw [if_neg hend]
      refine ⟨last, [], I :: after, rfl, rfl, by simp, fun J hJ => ?_, .inl rfl⟩
      obtain rfl : I = J := by simpa using hJ
      omega

structure ExtendedEnd (S : Segment) (after : List Segment) (NewEnd : Nat) (S' : Segment)
    (after' : List Segment) : Prop where
  start : S'.start = S.start
  value : S'.value = S.value
  reaches : NewEnd ≤ S'.end_
  coalesced : Coalesced (S' :: after')
  subset : ∀ I ∈ after', I ∈ after
  covers : ∀ x w, Covers (S' :: after') x w ↔
    Covers (S :: after) x w ∨ (S.start ≤ x ∧ x < NewEnd ∧ w = S.value)

theorem extendSegmentEndTo_spec (NewEnd : Nat) (h : Coalesced (S :: after))
    (hcompat : ∀ I ∈ after, I.start < NewEnd → I.value = S.value) :
    ∃ S' after', extendSegmentEndTo S after NewEnd = some (S', after') ∧
      ExtendedEnd S after NewEnd S' after' := by
  obtain ⟨hS, hapart, hafter⟩ := coalesced_cons.mp h
  obtain ⟨last, skipped, rest, hskip, rfl, hskipped, hrest, hlast⟩ :=
    skipMerged_spec hafter.nonempty hcompat S.end_
  obtain ⟨-, hrestc, hskiprest⟩ := coalesced_append.mp hafter
  have hmax : max NewEnd last = max NewEnd S.end_ := by
    rcases hlast with rfl | ⟨hlast, hne⟩
    · rfl
    · obtain ⟨I, hI⟩ := exists_mem_of_ne_nil _ hne
      have hle := (hapart I (mem_append_left _ hI)).1
      have hlt := hafter.nonempty I (mem_append_left _ hI)
      have hend := (hskipped I hI).1
      omega
  have hskip_cover : ∀ x w, Covers skipped x w → S.start ≤ x ∧ x < NewEnd ∧ w = S.value := by
    rintro x w ⟨I, hI, hstart, hend, rfl⟩
    have hle := (hapart I (mem_append_left _ hI)).1
    obtain ⟨hlt, hvalue⟩ := hskipped I hI
    exact ⟨by omega, by omega, hvalue⟩
  unfold extendSegmentEndTo
  rw [hskip, Option.map_some, hmax]
  cases rest with
  | nil =>
    refine ⟨_, _, rfl, rfl, rfl, le_max_left _ _, coalesced_cons.mpr ⟨?_, by simp, coalesced_nil⟩,
      by simp, fun x w => ?_⟩
    · exact Nat.lt_of_lt_of_le hS (le_max_right _ _)
    · rw [append_nil, covers_cons, covers_cons]
      constructor
      · rintro (⟨hstart, hlt, hw⟩ | hw)
        · replace hlt : x < max NewEnd S.end_ := hlt
          rcases (show x < NewEnd ∨ x < S.end_ by omega) with hlt | hlt
          · exact .inr ⟨hstart, hlt, hw.symm⟩
          · exact .inl (.inl ⟨hstart, hlt, hw⟩)
        · exact absurd hw (covers_nil x w)
      · rintro ((⟨hstart, hlt, hw⟩ | hw) | ⟨hstart, hlt, rfl⟩)
        · exact .inl ⟨hstart, show x < max NewEnd S.end_ by omega, hw⟩
        · obtain ⟨hstart, hlt, rfl⟩ := hskip_cover x w hw
          exact .inl ⟨hstart, show x < max NewEnd S.end_ by omega, rfl⟩
        · exact .inl ⟨hstart, show x < max NewEnd S.end_ by omega, rfl⟩
  | cons M rest =>
    have hMmem : M ∈ skipped ++ M :: rest := mem_append_right _ mem_cons_self
    have hNewEnd : NewEnd < M.end_ := hrest M rfl
    have hSM := hapart M hMmem
    have hcompatM := hcompat M hMmem
    obtain ⟨hM, hMrest, hrestc⟩ := coalesced_cons.mp hrestc
    have hle := hSM.1
    simp only []
    split
    · rename_i hmerge
      refine ⟨_, _, rfl, rfl, rfl, hNewEnd.le, coalesced_cons.mpr ⟨?_, fun J hJ => ?_, hrestc⟩,
        fun J hJ => mem_append_right _ (mem_cons_of_mem _ hJ), fun x w => ?_⟩
      · show S.start < M.end_
        omega
      · exact ⟨(hMrest J hJ).1, fun heq => hmerge.2 ▸ (hMrest J hJ).2 heq⟩
      · rw [covers_cons, covers_cons, covers_append, covers_cons]
        constructor
        · rintro (⟨hstart, hlt, hw⟩ | hw)
          · by_cases hM' : M.start ≤ x
            · exact .inl (.inr (.inr (.inl ⟨hM', hlt, hmerge.2.trans hw⟩)))
            · rcases (show x < NewEnd ∨ x < S.end_ by omega) with hlt | hlt
              · exact .inr ⟨hstart, hlt, hw.symm⟩
              · exact .inl (.inl ⟨hstart, hlt, hw⟩)
          · exact .inl (.inr (.inr (.inr hw)))
        · rintro ((⟨hstart, hlt, hw⟩ | hw | ⟨hstart, hlt, hw⟩ | hw) | ⟨hstart, hlt, rfl⟩)
          · exact .inl ⟨hstart, show x < M.end_ by omega, hw⟩
          · obtain ⟨hstart, hlt, rfl⟩ := hskip_cover x w hw
            exact .inl ⟨hstart, show x < M.end_ by omega, rfl⟩
          · exact .inl ⟨show S.start ≤ x by omega, hlt, hmerge.2 ▸ hw⟩
          · exact .inr hw
          · exact .inl ⟨hstart, show x < M.end_ by omega, rfl⟩
    · rename_i hmerge
      have hapartM : Apart { S with end_ := max NewEnd S.end_ } M := by
        by_cases hvalue : M.value = S.value
        · have hgt : max NewEnd S.end_ < M.start :=
            not_le.mp fun hle => hmerge ⟨hle, hvalue⟩
          exact ⟨hgt.le, fun heq => absurd heq hgt.ne⟩
        · have hge : NewEnd ≤ M.start := not_lt.mp fun hlt => hvalue (hcompatM hlt)
          exact ⟨max_le hge hle, fun _ => Ne.symm hvalue⟩
      refine ⟨_, _, rfl, rfl, rfl, le_max_left _ _, coalesced_cons.mpr ⟨?_, fun J hJ => ?_,
        coalesced_cons.mpr ⟨hM, hMrest, hrestc⟩⟩, fun J hJ => mem_append_right _ hJ,
        fun x w => ?_⟩
      · exact Nat.lt_of_lt_of_le hS (le_max_right _ _)
      · rcases mem_cons.mp hJ with rfl | hJ
        · exact hapartM
        · exact hapartM.trans hM (hMrest J hJ).1
      · rw [covers_cons, covers_cons S, covers_append]
        constructor
        · rintro (⟨hstart, hlt, hw⟩ | hw)
          · replace hlt : x < max NewEnd S.end_ := hlt
            rcases (show x < NewEnd ∨ x < S.end_ by omega) with hlt | hlt
            · exact .inr ⟨hstart, hlt, hw.symm⟩
            · exact .inl (.inl ⟨hstart, hlt, hw⟩)
          · exact .inl (.inr (.inr hw))
        · rintro ((⟨hstart, hlt, hw⟩ | hw | hw) | ⟨hstart, hlt, rfl⟩)
          · exact .inl ⟨hstart, show x < max NewEnd S.end_ by omega, hw⟩
          · obtain ⟨hstart, hlt, rfl⟩ := hskip_cover x w hw
            exact .inl ⟨hstart, show x < max NewEnd S.end_ by omega, rfl⟩
          · exact .inr hw
          · exact .inl ⟨hstart, show x < max NewEnd S.end_ by omega, rfl⟩

variable {before coll : List Segment}

theorem ExtendedEnd.within {S' : Segment} {after' : List Segment}
    (h : ExtendedEnd S after NewEnd S' after') (hcoll : Coalesced (before ++ S :: after)) :
    Coalesced (before ++ S' :: after') ∧ ∀ x w, Covers (before ++ S' :: after') x w ↔
      Covers (before ++ S :: after) x w ∨ (S.start ≤ x ∧ x < NewEnd ∧ w = S.value) := by
  obtain ⟨hbefore, -, hapart⟩ := coalesced_append.mp hcoll
  refine ⟨coalesced_append.mpr ⟨hbefore, h.coalesced, fun I hI J hJ => ?_⟩, fun x w => ?_⟩
  · rcases mem_cons.mp hJ with rfl | hJ
    · have hS := hapart I hI S mem_cons_self
      unfold Apart
      rw [h.start, h.value]
      exact hS
    · exact hapart I hI J (mem_cons_of_mem _ (h.subset J hJ))
  · rw [covers_append, covers_append, h.covers, or_assoc]

/-- The loop backwards stops at once when the previous segment starts before, and does not touch
the new start with the same value. -/
theorem extendSegmentStartTo_eq {NewStart : Nat}
    (hbefore : ∀ I ∈ before.head?, I.start < NewStart ∧ ¬ (NewStart ≤ I.end_ ∧ I.value = S.value)) :
    extendSegmentStartTo before S NewStart = some (before, { S with start := NewStart }) := by
  unfold extendSegmentStartTo
  cases before with
  | nil => rfl
  | cons I before =>
    obtain ⟨hstart, htouch⟩ := hbefore I rfl
    rw [extendStartFrom, if_pos rfl, if_neg (by omega), if_neg htouch]

/-- The positions that the algorithms use in a collection. -/
structure Impl.Positions (M : Impl) (coll : List Segment) : Prop where
  find : ∀ Pos, M.find coll Pos = coll.findIdx fun T => Pos < T.end_
  findInsertPos : ∀ S, M.findInsertPos coll S = coll.findIdx fun T => S.start < T.start
  insert : ∀ before after S, coll = before ++ after → (∀ T ∈ before, T.start < S.start) →
    (∀ T ∈ after, S.start < T.start) → M.insert coll before.length S = before ++ S :: after
  insertAtEnd : ∀ S, (∀ T ∈ coll, T.start < S.start) → M.insertAtEnd coll S = coll ++ [S]

theorem starts_mono {I : Segment} (h : Coalesced coll)
    (hsplit : coll = before ++ I :: after) : ∀ J ∈ after, I.end_ ≤ J.start ∧ J.start < J.end_ := by
  intro J hJ
  rw [hsplit] at h
  obtain ⟨-, hI, -⟩ := coalesced_append.mp h
  obtain ⟨-, hapart, hafter⟩ := coalesced_cons.mp hI
  exact ⟨(hapart J hJ).1, hafter.nonempty J hJ⟩

theorem split_at (coll : List Segment) (p : Segment → Bool)
    (hmono : ∀ before I after, coll = before ++ I :: after → p I = true → ∀ J ∈ after, p J = true) :
    ∃ before after, coll = before ++ after ∧ coll.findIdx p = before.length ∧
      (∀ I ∈ before, p I = false) ∧ ∀ I ∈ after, p I = true := by
  induction coll with
  | nil => exact ⟨[], [], rfl, rfl, by simp, by simp⟩
  | cons I coll ih =>
    by_cases hI : p I = true
    · refine ⟨[], I :: coll, rfl, by rw [findIdx_cons, hI]; rfl, by simp, fun J hJ => ?_⟩
      rcases mem_cons.mp hJ with rfl | hJ
      · exact hI
      · exact hmono [] I coll rfl hI J hJ
    · obtain ⟨before, after, hsplit, hidx, hbefore, hafter⟩ :=
        ih fun before J after hsplit => hmono (I :: before) J after (by rw [hsplit]; rfl)
      have hfalse : p I = false := by simpa using hI
      refine ⟨I :: before, after, by rw [hsplit]; rfl, ?_, fun J hJ => ?_, hafter⟩
      · rw [findIdx_cons, hfalse, hidx]
        rfl
      · rcases mem_cons.mp hJ with rfl | hJ
        · exact hfalse
        · exact hbefore J hJ

theorem split_start (h : Coalesced coll) (Start : Nat) :
    ∃ before after, coll = before ++ after ∧
      (coll.findIdx fun T => Start < T.start) = before.length ∧
      (∀ I ∈ before, I.start ≤ Start) ∧ ∀ I ∈ after, Start < I.start := by
  obtain ⟨before, after, hsplit, hidx, hbefore, hafter⟩ :=
    split_at coll (fun T => decide (Start < T.start)) fun before I after hsplit hI J hJ => by
      have hle := (starts_mono h hsplit J hJ).1
      have hne := h.nonempty I (by rw [hsplit]; simp)
      have hlt : Start < I.start := by simpa using hI
      simpa using (show Start < J.start by omega)
  exact ⟨before, after, hsplit, hidx, fun I hI => by simpa using hbefore I hI,
    fun I hI => by simpa using hafter I hI⟩

theorem split_end (h : Coalesced coll) (Pos : Nat) :
    ∃ before after, coll = before ++ after ∧ (coll.findIdx fun T => Pos < T.end_) = before.length ∧
      (∀ I ∈ before, I.end_ ≤ Pos) ∧ ∀ I ∈ after, Pos < I.end_ := by
  obtain ⟨before, after, hsplit, hidx, hbefore, hafter⟩ :=
    split_at coll (fun T => decide (Pos < T.end_)) fun before I after hsplit hI J hJ => by
      have hle := starts_mono h hsplit J hJ
      have hlt : Pos < I.end_ := by simpa using hI
      simpa using (show Pos < J.end_ by omega)
  exact ⟨before, after, hsplit, hidx, fun I hI => by simpa using hbefore I hI,
    fun I hI => by simpa using hafter I hI⟩

theorem insert_between {after : List Segment} (h : Coalesced (before ++ after))
    (hS : S.start < S.end_) (hbefore : ∀ I ∈ before, Apart I S) (hafter : ∀ I ∈ after, Apart S I) :
    Coalesced (before ++ S :: after) ∧ ∀ x w, Covers (before ++ S :: after) x w ↔
      Covers (before ++ after) x w ∨ (S.start ≤ x ∧ x < S.end_ ∧ w = S.value) := by
  obtain ⟨hb, ha, hba⟩ := coalesced_append.mp h
  refine ⟨coalesced_append.mpr ⟨hb, coalesced_cons.mpr ⟨hS, hafter, ha⟩, fun I hI J hJ => ?_⟩,
    fun x w => ?_⟩
  · rcases mem_cons.mp hJ with rfl | hJ
    · exact hbefore I hI
    · exact hba I hI J hJ
  · rw [covers_append, covers_cons, covers_append]
    constructor
    · rintro (hw | ⟨hstart, hlt, hw⟩ | hw)
      · exact .inl (.inl hw)
      · exact .inr ⟨hstart, hlt, hw.symm⟩
      · exact .inl (.inr hw)
    · rintro ((hw | hw) | ⟨hstart, hlt, hw⟩)
      · exact .inl hw
      · exact .inr (.inr hw)
      · exact .inr (.inl ⟨hstart, hlt, hw.symm⟩)

theorem Apart.before_all {S I : Segment} {rest : List Segment} (h : Apart S I)
    (hI : Coalesced (I :: rest)) : ∀ J ∈ I :: rest, Apart S J := by
  obtain ⟨hIne, hIrest, -⟩ := coalesced_cons.mp hI
  intro J hJ
  rcases mem_cons.mp hJ with rfl | hJ
  · exact h
  · exact h.trans hIne (hIrest J hJ).1

theorem grow_start {rest : List Segment} {I : Segment} (h : Coalesced (before ++ I :: rest))
    {start : Nat} (hle : start ≤ I.start)
    (hapart : ∀ B ∈ before, Apart B { I with start := start }) :
    Coalesced (before ++ { I with start := start } :: rest) ∧
      ∀ x w, Covers (before ++ { I with start := start } :: rest) x w ↔
        Covers (before ++ I :: rest) x w ∨ (start ≤ x ∧ x < I.start ∧ w = I.value) := by
  obtain ⟨hb, hI, hbI⟩ := coalesced_append.mp h
  obtain ⟨hIne, hIrest, hrest⟩ := coalesced_cons.mp hI
  have hwithout : Coalesced (before ++ rest) := coalesced_append.mpr ⟨hb, hrest, fun B hB J hJ =>
    hbI B hB J (mem_cons_of_mem _ hJ)⟩
  refine ⟨(insert_between (S := { I with start := start }) hwithout (lt_of_le_of_lt hle hIne)
    hapart hIrest).1, fun x w => ?_⟩
  rw [covers_append, covers_cons, covers_append, covers_cons]
  constructor
  · rintro (hw | ⟨hstart, hlt, hw⟩ | hw)
    · exact .inl (.inl hw)
    · by_cases hx : I.start ≤ x
      · exact .inl (.inr (.inl ⟨hx, hlt, hw⟩))
      · exact .inr ⟨hstart, not_le.mp hx, hw.symm⟩
    · exact .inl (.inr (.inr hw))
  · rintro ((hw | ⟨hstart, hlt, hw⟩ | hw) | ⟨hstart, hlt, hw⟩)
    · exact .inl hw
    · exact .inr (.inl ⟨hle.trans hstart, hlt, hw⟩)
    · exact .inr (.inr hw)
    · exact .inr (.inl ⟨hstart, lt_trans hlt hIne, hw.symm⟩)

/-- What adding a value to a collection leaves. -/
structure Added (coll : List Segment) (a b V : Nat) (coll' : List Segment) : Prop where
  coalesced : Coalesced coll'
  covers : ∀ x w, Covers coll' x w ↔ Covers coll x w ∨ (a ≤ x ∧ x < b ∧ w = V)

/-- Adding a segment that only overlaps segments of its value, when the segment before the position
does not reach it with that value. -/
theorem addToNext_spec {after : List Segment} (h : Coalesced (before ++ after))
    (hS : S.start < S.end_) (hbefore : ∀ I ∈ before, I.start < S.start)
    (hafter : ∀ I ∈ after, S.start < I.start) (hapart : ∀ I ∈ before, Apart I S)
    (hcompat : ∀ I ∈ after, I.start < S.end_ → I.value = S.value) :
    ∃ coll', (∀ M : Impl, M.Positions (before ++ after) →
        M.findInsertPos (before ++ after) S = before.length →
        addToNext M (before ++ after) S before.reverse after = some coll') ∧
      Added (before ++ after) S.start S.end_ S.value coll' := by
  have hinsert : (∀ I ∈ after, Apart S I) → ∀ M : Impl, M.Positions (before ++ after) →
      M.findInsertPos (before ++ after) S = before.length →
      insertSegment M (before ++ after) S = before ++ S :: after := by
    intro _ M hM hpos
    rw [insertSegment, hpos]
    exact hM.insert before after S rfl hbefore hafter
  cases after with
  | nil =>
    have hnew := insert_between h hS hapart (by simp)
    refine ⟨before ++ [S], fun M hM hpos => ?_, hnew.1, hnew.2⟩
    rw [addToNext, hinsert (by simp) M hM hpos]
  | cons I rest =>
    obtain ⟨-, hI, -⟩ := coalesced_append.mp h
    obtain ⟨hIne, -, -⟩ := coalesced_cons.mp hI
    have hSI := hafter I mem_cons_self
    by_cases hvalue : S.value = I.value
    · by_cases hreach : I.start ≤ S.end_
      · have hstart : extendSegmentStartTo before.reverse I S.start =
            some (before.reverse, { I with start := S.start }) := by
          refine extendSegmentStartTo_eq fun B hB => ?_
          have hmem : B ∈ before := mem_reverse.mp (mem_of_mem_head? hB)
          refine ⟨hbefore B hmem, fun ⟨hle, hsame⟩ => ?_⟩
          have hBS := hapart B hmem
          exact hBS.2 (Nat.le_antisymm hBS.1 hle) (hsame.trans hvalue.symm)
        obtain ⟨hgrown, hcover'⟩ := grow_start h hSI.le fun B hB =>
          (⟨(hapart B hB).1, fun heq => hvalue ▸ (hapart B hB).2 heq⟩ :
            Apart B { I with start := S.start })
        have hcover : ∀ x w, Covers (before ++ { I with start := S.start } :: rest) x w ↔
            Covers (before ++ I :: rest) x w ∨ (S.start ≤ x ∧ x < I.start ∧ w = S.value) := by
          rw [hvalue]
          exact hcover'
        by_cases hbeyond : I.end_ < S.end_
        · obtain ⟨I', rest', hextend, hI'⟩ := extendSegmentEndTo_spec S.end_
            (coalesced_append.mp hgrown).2.1 fun J hJ hlt =>
              (hcompat J (mem_cons_of_mem _ hJ) hlt).trans hvalue
          obtain ⟨hcoalesced, hcovers⟩ := hI'.within hgrown
          refine ⟨before ++ I' :: rest', fun M hM hpos => ?_, hcoalesced, fun x w => ?_⟩
          · rw [addToNext, if_pos hvalue, if_pos hreach, hstart, Option.bind_some,
              if_pos hbeyond, hextend, Option.map_some, reverse_reverse]
          · rw [hcovers, hcover, or_assoc]
            constructor
            · rintro (hw | ⟨hx, hlt, hw⟩ | ⟨hx, hlt, hw⟩)
              · exact .inl hw
              · exact .inr ⟨hx, by omega, hw⟩
              · exact .inr ⟨hx, hlt, hw.trans hvalue.symm⟩
            · rintro (hw | ⟨hx, hlt, hw⟩)
              · exact .inl hw
              · exact .inr (.inr ⟨hx, hlt, hw.trans hvalue⟩)
        · refine ⟨before ++ { I with start := S.start } :: rest, fun M hM hpos => ?_, hgrown,
            fun x w => ?_⟩
          · rw [addToNext, if_pos hvalue, if_pos hreach, hstart, Option.bind_some,
              if_neg hbeyond, reverse_reverse]
          · rw [hcover]
            constructor
            · rintro (hw | ⟨hx, hlt, hw⟩)
              · exact .inl hw
              · exact .inr ⟨hx, by omega, hw⟩
            · rintro (hw | ⟨hx, hlt, hw⟩)
              · exact .inl hw
              · by_cases hxI : I.start ≤ x
                · refine .inl ((covers_append _ _ _ _).mpr (.inr ((covers_cons _ _ _ _).mpr
                    (.inl ⟨hxI, by omega, hvalue.symm.trans hw.symm⟩))))
                · exact .inr ⟨hx, not_le.mp hxI, hw⟩
      · have hSI' : Apart S I := ⟨by omega, fun heq => by omega⟩
        have hSafter := Apart.before_all hSI' hI
        have hnew := insert_between h hS hapart hSafter
        refine ⟨_, fun M hM hpos => ?_, hnew.1, hnew.2⟩
        rw [addToNext, if_pos hvalue, if_neg hreach, hinsert hSafter M hM hpos]
    · have hend : S.end_ ≤ I.start := not_lt.mp fun hlt =>
        hvalue (hcompat I mem_cons_self hlt).symm
      have hSI' : Apart S I := ⟨hend, fun _ => hvalue⟩
      have hSafter := Apart.before_all hSI' hI
      have hnew := insert_between h hS hapart hSafter
      refine ⟨_, fun M hM hpos => ?_, hnew.1, hnew.2⟩
      rw [addToNext, if_neg hvalue, if_pos hend, hinsert hSafter M hM hpos]

theorem parts_at {after : List Segment} (hsplit : coll = before ++ after) :
    coll.take before.length = before ∧ coll.drop before.length = after := by
  rw [hsplit]
  exact ⟨take_left, drop_left⟩

theorem addSegment_spec (h : Coalesced coll) (hS : S.start < S.end_)
    (hcompat : ∀ I ∈ coll, I.start < S.end_ → S.start < I.end_ → I.value = S.value) :
    ∃ coll', (∀ M : Impl, M.Positions coll → addSegment M coll S = some coll') ∧
      Added coll S.start S.end_ S.value coll' := by
  obtain ⟨before, after, rfl, hidx, hbefore, hafter⟩ := split_start h S.start
  obtain ⟨htake, hdrop⟩ := parts_at (rfl : before ++ after = before ++ after)
  obtain ⟨hb, ha, hba⟩ := coalesced_append.mp h
  have hpos : ∀ M : Impl, M.Positions (before ++ after) →
      M.findInsertPos (before ++ after) S = before.length := fun M hM =>
    (hM.findInsertPos S).trans hidx
  have hcompat' : ∀ I ∈ after, I.start < S.end_ → I.value = S.value := by
    intro I hI hlt
    have hne := ha.nonempty I hI
    have hgt := hafter I hI
    exact hcompat I (mem_append_right _ hI) hlt (by omega)
  rcases eq_nil_or_concat' before with rfl | ⟨P, B, rfl⟩
  · obtain ⟨coll', hadd, hadded⟩ := addToNext_spec h hS (by simp) hafter (by simp) hcompat'
    refine ⟨coll', fun M hM => ?_, hadded⟩
    unfold addSegment
    rw [hpos M hM]
    exact hadd M hM (hpos M hM)
  · have hB : B ∈ P ++ [B] := by simp
    have hBne := hb.nonempty B hB
    have hBS := hbefore B hB
    have hreverse : (P ++ [B]).reverse = B :: P.reverse := by simp
    by_cases htouch : S.value = B.value ∧ S.start ≤ B.end_
    · have hcoll : Coalesced (P ++ B :: after) := by simpa using h
      obtain ⟨B', after', hextend, hB'⟩ := extendSegmentEndTo_spec S.end_
        (coalesced_append.mp hcoll).2.1 fun I hI hlt => (hcompat' I hI hlt).trans htouch.1
      obtain ⟨hcoalesced, hcovers⟩ := hB'.within hcoll
      refine ⟨P ++ B' :: after', fun M hM => ?_, hcoalesced, fun x w => ?_⟩
      · unfold addSegment
        rw [hpos M hM, htake, hdrop, hreverse]
        simp only []
        rw [if_pos htouch.1, if_pos ⟨hBS, htouch.2⟩, hextend, Option.map_some, reverse_reverse]
      · rw [hcovers, append_assoc, singleton_append]
        constructor
        · rintro (hw | ⟨hx, hlt, hw⟩)
          · exact .inl hw
          · by_cases hxS : S.start ≤ x
            · exact .inr ⟨hxS, hlt, hw.trans htouch.1.symm⟩
            · exact .inl ((covers_append _ _ _ _).mpr (.inr ((covers_cons _ _ _ _).mpr
                (.inl ⟨hx, by omega, hw.symm⟩))))
        · rintro (hw | ⟨hx, hlt, hw⟩)
          · exact .inl hw
          · exact .inr ⟨by omega, hlt, hw.trans htouch.1⟩
    · have hend : B.end_ ≤ S.start := by
        by_contra hgt
        have hvalue := hcompat B (mem_append_left _ hB) (by omega) (by omega)
        exact htouch ⟨hvalue.symm, by omega⟩
      have hBapart : Apart B S :=
        ⟨hend, fun heq hvalue => htouch ⟨hvalue.symm, heq.symm.le⟩⟩
      have hP : ∀ I ∈ P, Apart I B := fun I hI =>
        (coalesced_append.mp hb).2.2 I hI B mem_cons_self
      have hapart : ∀ I ∈ P ++ [B], Apart I S := by
        intro I hI
        rcases mem_append.mp hI with hI | hI
        · exact (hP I hI).trans hBne hend
        · obtain rfl : I = B := by simpa using hI
          exact hBapart
      have hstrict : ∀ I ∈ P ++ [B], I.start < S.start := by
        intro I hI
        have hne := hb.nonempty I hI
        have hle := (hapart I hI).1
        omega
      obtain ⟨coll', hadd, hadded⟩ := addToNext_spec h hS hstrict hafter hapart hcompat'
      refine ⟨coll', fun M hM => ?_, hadded⟩
      have hnext := hadd M hM (hpos M hM)
      unfold addSegment
      rw [hpos M hM, htake, hdrop]
      rw [hreverse] at hnext ⊢
      simp only []
      by_cases hvalue : S.value = B.value
      · rw [if_pos hvalue, if_neg fun hin => htouch ⟨hvalue, hin.2⟩]
        exact hnext
      · rw [if_neg hvalue, if_pos hend]
        exact hnext

end Zapcc.LiveInterval
