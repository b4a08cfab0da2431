import Zapcc.CodeGen.LiveRangeCollections

/-!
# Removing and merging values

`removeSegment_spec` cuts a piece out of one segment, `removeValNo_spec` removes all the segments
of a value, and `mergeSegments_spec` follows the loop that replaces one value by another.
-/

namespace Zapcc.LiveInterval

open Intervals SlotIndex List

variable {LR : LiveRange}

variable {I S : Segment}

theorem find_segment {coll : List Segment} (h : Coalesced coll) (hI : I ∈ coll)
    {Pos : Nat} (hstart : I.start ≤ Pos) (hend : Pos < I.end_) :
    ∃ before after, coll = before ++ I :: after ∧ find coll Pos = before.length := by
  obtain ⟨before, after, rfl⟩ := append_of_mem hI
  refine ⟨before, after, rfl, (find_eq h Pos).trans (findIdx_eq_of_split (fun J hJ => ?_) ?_)⟩
  · have hle := ((coalesced_append.mp h).2.2 J hJ I mem_cons_self).1
    simp only [decide_eq_false_iff_not]
    omega
  · intro J hJ
    obtain rfl : I = J := by simpa using hJ
    simpa using hend

variable {before after : List Segment}

theorem cut_spec (pieces : List Segment) {a b : Nat}
    (h : Coalesced (before ++ I :: after)) (hpieces : Coalesced pieces)
    (hin : ∀ J ∈ pieces, I.start ≤ J.start ∧ J.end_ ≤ I.end_ ∧ J.value = I.value)
    (ha : I.start ≤ a) (hb : b ≤ I.end_)
    (hcovers : ∀ x w, Covers pieces x w ↔
      (I.start ≤ x ∧ x < I.end_ ∧ I.value = w) ∧ ¬ (a ≤ x ∧ x < b)) :
    Coalesced (before ++ (pieces ++ after)) ∧ ∀ x w, Covers (before ++ (pieces ++ after)) x w ↔
      Covers (before ++ I :: after) x w ∧ ¬ (a ≤ x ∧ x < b) := by
  obtain ⟨hbefore, hI, hapart⟩ := coalesced_append.mp h
  obtain ⟨-, hIafter, hafter⟩ := coalesced_cons.mp hI
  constructor
  · refine coalesced_append.mpr ⟨hbefore,
      coalesced_append.mpr ⟨hpieces, hafter, fun J hJ K hK => ?_⟩, fun K hK J hJ => ?_⟩
    · obtain ⟨-, hle, hvalue⟩ := hin J hJ
      obtain ⟨hIK, hne⟩ := hIafter K hK
      exact ⟨by omega, fun heq => hvalue ▸ hne (by omega)⟩
    · obtain ⟨hKI, hne⟩ := hapart K hK I mem_cons_self
      rcases mem_append.mp hJ with hJ | hJ
      · obtain ⟨hle, -, hvalue⟩ := hin J hJ
        exact ⟨by omega, fun heq => hvalue ▸ hne (by omega)⟩
      · exact hapart K hK J (mem_cons_of_mem _ hJ)
  · intro x w
    have hbefore_out : Covers before x w → ¬ (a ≤ x ∧ x < b) := by
      rintro ⟨K, hK, -, hend, -⟩
      have hle := (hapart K hK I mem_cons_self).1
      omega
    have hafter_out : Covers after x w → ¬ (a ≤ x ∧ x < b) := by
      rintro ⟨K, hK, hstart, -, -⟩
      have hle := (hIafter K hK).1
      omega
    rw [covers_append, covers_append, covers_append, covers_cons, hcovers]
    constructor
    · rintro (hw | hw | hw)
      · exact ⟨.inl hw, hbefore_out hw⟩
      · exact ⟨.inr (.inl hw.1), hw.2⟩
      · exact ⟨.inr (.inr hw), hafter_out hw⟩
    · rintro ⟨hw | hw | hw, hout⟩
      · exact .inl hw
      · exact .inr (.inl ⟨hw, hout⟩)
      · exact .inr (.inr hw)

@[simp] theorem markValNoForDeletion_segments (V : Nat) :
    (LR.markValNoForDeletion V).segments = LR.segments := by
  unfold LiveRange.markValNoForDeletion
  split <;> rfl

@[simp] theorem markValNoForDeletion_segmentSet (V : Nat) :
    (LR.markValNoForDeletion V).segmentSet = LR.segmentSet := by
  unfold LiveRange.markValNoForDeletion
  split <;> rfl

@[simp] theorem markValNoForDeletion_next (V : Nat) :
    (LR.markValNoForDeletion V).next = LR.next := by
  unfold LiveRange.markValNoForDeletion
  split <;> rfl

theorem markValNoForDeletion_info {V W : Nat} (hne : W ≠ V) :
    (LR.markValNoForDeletion V).info W = LR.info W := by
  unfold LiveRange.markValNoForDeletion
  split
  · rfl
  · exact if_neg hne

/-- What an update that removes segments of the vector keeps. -/
structure Trimmed (LR LR' : LiveRange) (keeps : Nat → Nat → Prop) : Prop where
  coalesced : Coalesced LR'.segments
  covers : ∀ x w, Covers LR'.segments x w ↔ Covers LR.segments x w ∧ keeps x w
  segmentSet : LR'.segmentSet = LR.segmentSet
  next : LR'.next = LR.next

theorem removeSegment_spec (h : Coalesced LR.segments) (hI : I ∈ LR.segments)
    {Start End : Nat} (hstart : I.start ≤ Start) (hlt : Start < End) (hend : End ≤ I.end_)
    (RemoveDeadValNo : Bool) :
    ∃ LR', LR.removeSegment Start End RemoveDeadValNo = some LR' ∧
      Trimmed LR LR' fun x _ => ¬ (Start ≤ x ∧ x < End) := by
  obtain ⟨before, after, hsplit, hfind⟩ := find_segment h hI hstart (by omega)
  obtain ⟨htake, hdrop⟩ := parts_at hsplit
  rw [hsplit] at h
  unfold LiveRange.removeSegment
  simp only [hfind, htake, hdrop]
  rw [if_pos ⟨hstart, hlt, hend⟩]
  by_cases hfirst : I.start = Start
  · rw [if_pos hfirst]
    by_cases hlast : I.end_ = End
    · obtain ⟨hcoalesced, hcovers⟩ := cut_spec [] h coalesced_nil (by simp) hstart hend
        fun x w => by simp; omega
      rw [if_pos hlast]
      refine ⟨_, rfl, hcoalesced, by rw [hsplit]; exact hcovers, ?_, ?_⟩
      · split <;> simp
      · split <;> simp
    · obtain ⟨hcoalesced, hcovers⟩ := cut_spec [{ I with start := End }] h
        (coalesced_cons.mpr ⟨show End < I.end_ by omega, by simp, coalesced_nil⟩)
        (by simp; omega) hstart hend fun x w => by simp; omega
      rw [if_neg hlast]
      exact ⟨_, rfl, hcoalesced, by rw [hsplit]; exact hcovers, rfl, rfl⟩
  · rw [if_neg hfirst]
    by_cases hlast : I.end_ = End
    · obtain ⟨hcoalesced, hcovers⟩ := cut_spec [{ I with end_ := Start }] h
        (coalesced_cons.mpr ⟨show I.start < Start by omega, by simp, coalesced_nil⟩)
        (by simp; omega) hstart hend fun x w => by simp; omega
      rw [if_pos hlast]
      exact ⟨_, rfl, hcoalesced, by rw [hsplit]; exact hcovers, rfl, rfl⟩
    · obtain ⟨hcoalesced, hcovers⟩ := cut_spec
        [{ I with end_ := Start }, ⟨End, I.end_, I.value⟩] h
        (coalesced_cons.mpr ⟨show I.start < Start by omega, by simp [Apart]; omega,
          coalesced_cons.mpr ⟨show End < I.end_ by omega, by simp, coalesced_nil⟩⟩)
        (by simp; omega) hstart hend fun x w => by simp; omega
      rw [if_neg hlast]
      exact ⟨_, rfl, hcoalesced, by rw [hsplit]; exact hcovers, rfl, rfl⟩

theorem removeValNo_spec (h : Coalesced LR.segments) (V : Nat) :
    Trimmed LR (LR.removeValNo V) fun _ w => w ≠ V := by
  unfold LiveRange.removeValNo
  by_cases hnil : LR.segments = []
  · rw [if_pos hnil]
    exact ⟨h, fun x w => by simp [hnil], rfl, rfl⟩
  · rw [if_neg hnil]
    refine ⟨?_, fun x w => ?_, by simp, by simp⟩
    · simp only [markValNoForDeletion_segments]
      exact ⟨fun I hI => h.nonempty I (mem_filter.mp hI).1, h.apart.filter _⟩
    · simp only [markValNoForDeletion_segments]
      constructor
      · rintro ⟨I, hI, hstart, hend, rfl⟩
        obtain ⟨hI, hvalue⟩ := mem_filter.mp hI
        exact ⟨⟨I, hI, hstart, hend, rfl⟩, by simpa using hvalue⟩
      · rintro ⟨⟨I, hI, hstart, hend, rfl⟩, hvalue⟩
        exact ⟨I, mem_filter.mpr ⟨hI, by simpa using hvalue⟩, hstart, hend, rfl⟩

/-- The value `V1` is replaced by `V2`. -/
def relabel (V1 V2 v : Nat) : Nat := if v = V1 then V2 else v

/-- The value that is at a slot after the replacement. -/
def Relabelled (V1 V2 : Nat) (l : List Segment) (x w : Nat) : Prop :=
  ∃ v, Covers l x v ∧ relabel V1 V2 v = w

variable {V1 V2 : Nat}

@[simp] theorem relabelled_nil (x w : Nat) : ¬ Relabelled V1 V2 [] x w := by
  rintro ⟨v, hv, -⟩
  exact covers_nil x v hv

@[simp] theorem relabelled_cons (I : Segment) (l : List Segment) (x w : Nat) :
    Relabelled V1 V2 (I :: l) x w ↔
      (I.start ≤ x ∧ x < I.end_ ∧ relabel V1 V2 I.value = w) ∨ Relabelled V1 V2 l x w := by
  unfold Relabelled
  simp only [covers_cons, or_and_right, exists_or]
  refine or_congr ⟨?_, fun h => ⟨I.value, ⟨h.1, h.2.1, rfl⟩, h.2.2⟩⟩ Iff.rfl
  rintro ⟨v, ⟨hstart, hend, rfl⟩, hw⟩
  exact ⟨hstart, hend, hw⟩

@[simp] theorem relabelled_append (l l' : List Segment) (x w : Nat) :
    Relabelled V1 V2 (l ++ l') x w ↔ Relabelled V1 V2 l x w ∨ Relabelled V1 V2 l' x w := by
  unfold Relabelled
  simp only [covers_append, or_and_right, exists_or]

theorem relabelled_of_ne {l : List Segment} (h : ∀ I ∈ l, I.value ≠ V1) (x w : Nat) :
    Relabelled V1 V2 l x w ↔ Covers l x w := by
  constructor
  · rintro ⟨-, ⟨I, hI, hstart, hend, rfl⟩, rfl⟩
    rw [relabel, if_neg (h I hI)]
    exact ⟨I, hI, hstart, hend, rfl⟩
  · rintro ⟨I, hI, hstart, hend, rfl⟩
    exact ⟨I.value, ⟨I, hI, hstart, hend, rfl⟩, if_neg (h I hI)⟩

theorem coalesced_init
    (h : Coalesced (before ++ S :: after)) : Coalesced (before ++ [S]) := by
  rw [← singleton_append, ← append_assoc] at h
  exact (coalesced_append.mp h).1

structure MergedBackward (V1 V2 : Nat) (before : List Segment) (S : Segment)
    (merged : List Segment × Segment) : Prop where
  coalesced : Coalesced (merged.1.reverse ++ [merged.2])
  value : merged.2.value = V2
  end_ : merged.2.end_ = S.end_
  other : ∀ I ∈ merged.1, I.value ≠ V1
  covers : ∀ x w, Relabelled V1 V2 (merged.1.reverse ++ [merged.2]) x w ↔
    Relabelled V1 V2 (before.reverse ++ [S]) x w

theorem mergeBackward_spec (hne : V1 ≠ V2) {before : List Segment}
    (h : Coalesced (before.reverse ++ [S])) (hother : ∀ I ∈ before, I.value ≠ V1)
    (hS : S.value = V1) : MergedBackward V1 V2 before S (LiveRange.mergeBackward V2 before S) := by
  have hV2 : relabel V1 V2 V2 = V2 := if_neg hne.symm
  have hV1 : relabel V1 V2 S.value = V2 := if_pos hS
  obtain ⟨hbefore, hSc, hapart⟩ := coalesced_append.mp h
  obtain ⟨hSne, -, -⟩ := coalesced_cons.mp hSc
  cases before with
  | nil =>
    refine ⟨coalesced_cons.mpr ⟨hSne, by simp, coalesced_nil⟩, rfl, rfl,
      by simp [LiveRange.mergeBackward], fun x w => ?_⟩
    simp [LiveRange.mergeBackward, hV1, hV2]
  | cons Prev rest =>
    have hPrev := hapart Prev (by simp) S mem_cons_self
    have hrest : ∀ I ∈ rest, Apart I Prev := by
      rw [reverse_cons] at hbefore
      exact fun I hI => (coalesced_append.mp hbefore).2.2 I (by simpa using hI) Prev
        mem_cons_self
    have hPrevne := hbefore.nonempty Prev (by simp)
    unfold LiveRange.mergeBackward
    by_cases hmerge : Prev.value = V2 ∧ Prev.end_ = S.start
    · simp only [if_pos hmerge]
      refine ⟨coalesced_append.mpr ⟨?_, coalesced_cons.mpr ⟨?_, by simp, coalesced_nil⟩,
        fun I hI J hJ => ?_⟩, hmerge.1, rfl, fun I hI => hother I (mem_cons_of_mem _ hI),
        fun x w => ?_⟩
      · rw [reverse_cons] at hbefore
        exact (coalesced_append.mp hbefore).1
      · show Prev.start < S.end_
        omega
      · obtain rfl := mem_singleton.mp hJ
        exact hrest I (by simpa using hI)
      · simp only [reverse_cons, relabelled_append, relabelled_cons, relabelled_nil,
          or_false, or_assoc, hmerge.1, hV1, hV2]
        refine or_congr Iff.rfl ?_
        constructor
        · rintro ⟨hstart, hend, hw⟩
          by_cases hx : x < Prev.end_
          · exact .inl ⟨hstart, hx, hw⟩
          · exact .inr ⟨by omega, hend, hw⟩
        · rintro (⟨hstart, hend, hw⟩ | ⟨hstart, hend, hw⟩)
          · exact ⟨hstart, by omega, hw⟩
          · exact ⟨by omega, hend, hw⟩
    · simp only [if_neg hmerge]
      refine ⟨coalesced_append.mpr ⟨hbefore, coalesced_cons.mpr ⟨hSne, by simp, coalesced_nil⟩,
        fun I hI J hJ => ?_⟩, rfl, rfl, hother, fun x w => ?_⟩
      · obtain rfl := mem_singleton.mp hJ
        have hPrevS : Apart Prev { S with value := V2 } :=
          ⟨hPrev.1, fun heq hvalue => hmerge ⟨hvalue, heq⟩⟩
        rcases mem_cons.mp (mem_reverse.mp hI) with rfl | hI
        · exact hPrevS
        · exact (hrest I hI).trans hPrevne hPrevS.1
      · simp [hV1, hV2]

/-- A segment that became one of `V2` stays apart from what follows it, unless a segment of `V2`
starts where it ends. -/
theorem MergedBackward.apart_after
    {merged : List Segment × Segment} (h : MergedBackward V1 V2 before S merged)
    (hcoll : Coalesced (before.reverse ++ S :: after))
    (hnext : ∀ I ∈ after.head?, ¬ (I.start = merged.2.end_ ∧ I.value = V2)) :
    Coalesced (merged.1.reverse ++ merged.2 :: after) := by
  obtain ⟨hSapart, -, hafter⟩ := (coalesced_cons.mp (coalesced_append.mp hcoll).2.1).2.imp_right
    fun h => (⟨h.nonempty, h⟩ : _ ∧ _)
  obtain ⟨hbefore, hmerged, hapart⟩ := coalesced_append.mp h.coalesced
  obtain ⟨hne, -, -⟩ := coalesced_cons.mp hmerged
  have hlater : ∀ J ∈ after, merged.2.end_ ≤ J.start := by
    intro J hJ
    rw [h.end_]
    exact (hSapart J hJ).1
  refine coalesced_append.mpr ⟨hbefore, coalesced_cons.mpr ⟨hne, ?_, hafter⟩, fun K hK J hJ => ?_⟩
  · cases after with
    | nil => simp
    | cons I rest =>
      obtain ⟨hI, hIrest, -⟩ := coalesced_cons.mp hafter
      have hmergedI : Apart merged.2 I :=
        ⟨hlater I mem_cons_self, fun heq hvalue =>
          hnext I rfl ⟨heq.symm, hvalue.symm.trans h.value⟩⟩
      intro J hJ
      rcases mem_cons.mp hJ with rfl | hJ
      · exact hmergedI
      · exact hmergedI.trans hI (hIrest J hJ).1
  · have hK := hapart K hK merged.2 mem_cons_self
    rcases mem_cons.mp hJ with rfl | hJ
    · exact hK
    · exact hK.trans hne (hlater J hJ)

theorem MergedBackward.join
    {merged : List Segment × Segment} (h : MergedBackward V1 V2 before S merged)
    (hcoll : Coalesced (before.reverse ++ S :: I :: after)) (hne : V1 ≠ V2)
    (hI : I.start = merged.2.end_ ∧ I.value = V2) :
    Coalesced (merged.1.reverse ++ { merged.2 with end_ := I.end_ } :: after) ∧ ∀ x w,
      Relabelled V1 V2 (merged.1.reverse ++ { merged.2 with end_ := I.end_ } :: after) x w ↔
        Relabelled V1 V2 (before.reverse ++ S :: I :: after) x w := by
  obtain ⟨-, -, hIafter⟩ := coalesced_cons.mp (coalesced_append.mp hcoll).2.1
  obtain ⟨hIne, hIapart, hafter⟩ := coalesced_cons.mp hIafter
  obtain ⟨hbefore, hmerged, hapart⟩ := coalesced_append.mp h.coalesced
  obtain ⟨hmne, -, -⟩ := coalesced_cons.mp hmerged
  have hlt : merged.2.start < I.end_ := by omega
  constructor
  · refine coalesced_append.mpr ⟨hbefore, coalesced_cons.mpr ⟨hlt, fun J hJ => ?_, hafter⟩,
      fun K hK J hJ => ?_⟩
    · obtain ⟨hle, hdiff⟩ := hIapart J hJ
      refine ⟨hle, fun heq hvalue => hdiff heq ?_⟩
      rw [hI.2, ← h.value]
      exact hvalue
    · have hK := hapart K hK merged.2 mem_cons_self
      rcases mem_cons.mp hJ with rfl | hJ
      · exact hK
      · have hle := (hIapart J hJ).1
        exact hK.trans hmne (by omega)
  · intro x w
    have hV2 : relabel V1 V2 V2 = V2 := if_neg hne.symm
    have hcovers := h.covers x w
    simp only [relabelled_append, relabelled_cons, relabelled_nil, or_false, h.value, hI.2, hV2]
      at hcovers ⊢
    rw [← or_assoc (b := _ ∧ _ ∧ relabel V1 V2 S.value = w), ← hcovers, or_assoc, ← or_assoc
      (b := I.start ≤ x ∧ _)]
    refine or_congr Iff.rfl (or_congr ?_ Iff.rfl)
    constructor
    · rintro ⟨hstart, hend, hw⟩
      by_cases hx : x < merged.2.end_
      · exact .inl ⟨hstart, hx, hw⟩
      · exact .inr ⟨by omega, hend, hw⟩
    · rintro (⟨hstart, hend, hw⟩ | ⟨hstart, hend, hw⟩)
      · exact ⟨hstart, by omega, hw⟩
      · exact ⟨by omega, hend, hw⟩

theorem mergeSegments_spec (hne : V1 ≠ V2) {before rest : List Segment}
    (h : Coalesced (before.reverse ++ rest)) (hother : ∀ I ∈ before, I.value ≠ V1) :
    Coalesced (LiveRange.mergeSegments V1 V2 before rest) ∧ ∀ x w,
      Covers (LiveRange.mergeSegments V1 V2 before rest) x w ↔
        Relabelled V1 V2 (before.reverse ++ rest) x w := by
  fun_induction LiveRange.mergeSegments V1 V2 before rest with
  | case1 before =>
    rw [append_nil] at h ⊢
    have hall : ∀ I ∈ before.reverse, I.value ≠ V1 := fun I hI =>
      hother I (mem_reverse.mp hI)
    exact ⟨h, fun x w => (relabelled_of_ne hall x w).symm⟩
  | case2 before S rest hS ih =>
    have hsplit : (S :: before).reverse ++ rest = before.reverse ++ S :: rest := by simp
    rw [hsplit] at ih
    refine ih h fun I hI => ?_
    rcases mem_cons.mp hI with rfl | hI
    · exact hS
    · exact hother I hI
  | case3 before S hS merged =>
    have hmerged := mergeBackward_spec hne h hother (not_not.mp hS)
    have hall : ∀ I ∈ merged.1.reverse ++ [merged.2], I.value ≠ V1 := by
      intro I hI
      rcases mem_append.mp hI with hI | hI
      · exact hmerged.other I (mem_reverse.mp hI)
      · obtain rfl := mem_singleton.mp hI
        exact fun heq => hne (heq.symm.trans hmerged.value)
    rw [reverse_cons]
    exact ⟨hmerged.coalesced, fun x w =>
      (relabelled_of_ne hall x w).symm.trans (hmerged.covers x w)⟩
  | case4 before S hS merged I rest hI ih =>
    have hmerged := mergeBackward_spec hne (coalesced_init h) hother (not_not.mp hS)
    obtain ⟨hjoined, hcovers⟩ := hmerged.join h hne hI
    have hsplit : ({ merged.2 with end_ := I.end_ } :: merged.1).reverse ++ rest =
        merged.1.reverse ++ { merged.2 with end_ := I.end_ } :: rest := by simp
    obtain ⟨hresult, hresult_covers⟩ := ih (by rw [hsplit]; exact hjoined) fun J hJ => by
      rcases mem_cons.mp hJ with rfl | hJ
      · exact fun heq => hne (heq.symm.trans hmerged.value)
      · exact hmerged.other J hJ
    refine ⟨hresult, fun x w => ?_⟩
    rw [← hcovers x w, ← hsplit]
    exact hresult_covers x w
  | case5 before S hS merged I rest hI ih =>
    have hmerged := mergeBackward_spec hne (coalesced_init h) hother (not_not.mp hS)
    have hnext : ∀ J ∈ (I :: rest).head?, ¬ (J.start = merged.2.end_ ∧ J.value = V2) := by
      intro J hJ
      obtain rfl : I = J := by simpa using hJ
      exact hI
    have hapart := hmerged.apart_after h hnext
    have hsplit : (merged.2 :: merged.1).reverse ++ I :: rest =
        merged.1.reverse ++ merged.2 :: I :: rest := by simp
    obtain ⟨hresult, hresult_covers⟩ := ih (by rw [hsplit]; exact hapart) fun J hJ => by
      rcases mem_cons.mp hJ with rfl | hJ
      · exact fun heq => hne (heq.symm.trans hmerged.value)
      · exact hmerged.other J hJ
    refine ⟨hresult, fun x w => (hresult_covers x w).trans ?_⟩
    have hcovers := hmerged.covers x w
    simp only [relabelled_append] at hcovers
    rw [hsplit, relabelled_append, ← singleton_append, relabelled_append, ← or_assoc,
      hcovers, or_assoc, ← relabelled_append, ← relabelled_append]
    rfl

theorem mergeSegments_nil_spec (hne : V1 ≠ V2) {segments : List Segment} (h : Coalesced segments) :
    Coalesced (LiveRange.mergeSegments V1 V2 [] segments) ∧ ∀ x w,
      Covers (LiveRange.mergeSegments V1 V2 [] segments) x w ↔ Relabelled V1 V2 segments x w := by
  have hcoll : Coalesced (([] : List Segment).reverse ++ segments) := h
  exact mergeSegments_spec hne hcoll (forall_mem_nil _)

/-- The value that a merge removes, and the one that it keeps. -/
def LiveRange.mergedPair (LR : LiveRange) (V1 V2 : Nat) : Nat × Nat :=
  if (LR.info V1).id < (LR.info V2).id then (V2, V1) else (V1, V2)

/-- What a merge of `dead` into `kept` does to the range. -/
structure Merged (LR LR' : LiveRange) (dead kept : Nat) (Def : Option Nat) : Prop where
  coalesced : Coalesced LR'.segments
  covers : ∀ x w, Covers LR'.segments x w ↔ Relabelled dead kept LR.segments x w
  segmentSet : LR'.segmentSet = LR.segmentSet
  next : LR'.next = LR.next
  defn : (LR'.info kept).defn = Def

/-- The value with the larger number is replaced by the other one, and the def of `V2` is kept. -/
theorem MergeValueNumberInto_spec (h : Coalesced LR.segments) (hne : V1 ≠ V2) :
    ∃ LR', LR.MergeValueNumberInto V1 V2 = some (LR', (LR.mergedPair V1 V2).2) ∧
      Merged LR LR' (LR.mergedPair V1 V2).1 (LR.mergedPair V1 V2).2 (LR.info V2).defn := by
  unfold LiveRange.MergeValueNumberInto LiveRange.mergedPair
  rw [if_neg hne]
  by_cases hid : (LR.info V1).id < (LR.info V2).id
  · simp only [if_pos hid]
    obtain ⟨hcoalesced, hcovers⟩ := mergeSegments_nil_spec hne.symm h
    refine ⟨_, rfl, ?_, fun x w => ?_, ?_, ?_, ?_⟩
    · simpa [LiveRange.setInfo] using hcoalesced
    · simpa [LiveRange.setInfo] using hcovers x w
    · simp [LiveRange.setInfo]
    · simp [LiveRange.setInfo]
    · rw [markValNoForDeletion_info hne]
      simp [LiveRange.setInfo]
  · simp only [if_neg hid]
    obtain ⟨hcoalesced, hcovers⟩ := mergeSegments_nil_spec hne h
    refine ⟨_, rfl, ?_, fun x w => ?_, ?_, ?_, ?_⟩
    · simpa using hcoalesced
    · simpa using hcovers x w
    · simp
    · simp
    · rw [markValNoForDeletion_info hne.symm]

end Zapcc.LiveInterval
