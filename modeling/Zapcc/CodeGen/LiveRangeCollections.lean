import Zapcc.CodeGen.LiveRangeSegments

/-!
# Positions in the vector and in the set

The vector is searched with a binary search and with `std::upper_bound`, the set with its own
order, in which segments with one start are told apart by their ends. In a coalesced list both find
the same positions (`positions_vector`, `positions_set`).
-/

namespace Zapcc.LiveInterval

open Intervals SlotIndex List Bool

variable {coll : List Segment}

theorem findIdx_eq_of_split {before after : List Segment} {p : Segment → Bool}
    (hbefore : ∀ I ∈ before, p I = false) (hafter : ∀ I ∈ after.head?, p I = true) :
    (before ++ after).findIdx p = before.length := by
  induction before with
  | nil =>
    cases after with
    | nil => rfl
    | cons A after =>
      rw [nil_append, findIdx_cons, hafter A rfl]
      rfl
  | cons I before ih =>
    rw [cons_append, findIdx_cons, hbefore I mem_cons_self,
      ih fun J hJ => hbefore J (mem_cons_of_mem _ hJ)]
    rfl

theorem findLoop_spec {before after : List Segment} {Pos : Nat}
    (hbefore : ∀ I ∈ before, I.end_ ≤ Pos) (hafter : ∀ I ∈ after, Pos < I.end_) {fuel I Len : Nat}
    (hfuel : Len ≤ fuel) (hlow : I ≤ before.length) (hhigh : before.length ≤ I + Len)
    (hlen : I + Len ≤ (before ++ after).length) :
    findLoop (before ++ after) Pos fuel I Len = before.length := by
  induction fuel generalizing I Len with
  | zero =>
    rw [findLoop]
    omega
  | succ fuel ih =>
    rw [findLoop]
    by_cases hzero : Len = 0
    · rw [if_pos hzero]
      omega
    · have hlt : I + Len / 2 < (before ++ after).length := by omega
      rw [if_neg hzero, getElem?_eq_getElem hlt, Option.any_some]
      by_cases hmid : I + Len / 2 < before.length
      · have hend := hbefore _ (getElem_mem hmid)
        rw [getElem_append_left hmid, if_neg (by simpa using hend)]
        exact ih (by omega) (by omega) (by omega) (by omega)
      · rw [length_append] at hlt
        have hmem := getElem_mem (l := after) (n := I + Len / 2 - before.length) (by omega)
        have hend := hafter _ hmem
        rw [getElem_append_right (not_lt.mp hmid), if_pos (by simpa using hend)]
        exact ih (by omega) hlow (by omega) (by omega)

theorem find_eq (h : Coalesced coll) (Pos : Nat) :
    find coll Pos = coll.findIdx fun T => Pos < T.end_ := by
  obtain ⟨before, after, rfl, hidx, hbefore, hafter⟩ := split_end h Pos
  rw [hidx]
  unfold find
  cases hlast : (before ++ after).getLast? with
  | none =>
    have hnil := getLast?_eq_none_iff.mp hlast
    simp only [hnil]
    rw [append_eq_nil_iff] at hnil
    simp [hnil.1]
  | some last =>
    simp only []
    by_cases hend : last.end_ ≤ Pos
    · have hafter_nil : after = [] := by
        rcases eq_nil_or_concat' after with rfl | ⟨P, A, rfl⟩
        · rfl
        · obtain rfl : A = last := by simpa using hlast
          have hlt := hafter A (by simp)
          omega
      rw [if_pos hend, hafter_nil, append_nil]
    · rw [if_neg hend]
      exact findLoop_spec hbefore hafter le_rfl (Nat.zero_le _) (by simp) (by simp)

theorem positions_vector (h : Coalesced coll) : CalcLiveRangeUtilVector.Positions coll where
  find := find_eq h
  findInsertPos := fun _ => rfl
  insert := by
    rintro before after S rfl - -
    show (before ++ after).take before.length ++ S :: (before ++ after).drop before.length = _
    rw [take_left, drop_left]
  insertAtEnd := fun _ _ => rfl

theorem setInsert_eq {before after : List Segment} {S : Segment}
    (hbefore : ∀ T ∈ before, T.start < S.start) (hafter : ∀ T ∈ after, S.start < T.start) :
    setInsert (before ++ after) S = before ++ S :: after := by
  have hlt : ∀ T ∈ before, Segment.lt T S = true := by
    intro T hT
    simp [Segment.lt, hbefore T hT]
  have hge : ∀ T ∈ after.head?, Segment.lt T S = false := by
    intro T hT
    have hgt := hafter T (mem_of_mem_head? hT)
    simp only [Segment.lt, or_eq_false_iff, and_eq_false_iff, decide_eq_false_iff_not,
      beq_eq_false_iff_ne]
    exact ⟨by omega, .inl (by omega)⟩
  have hdrop : (before ++ after).dropWhile (fun T => Segment.lt T S) = after := by
    rw [dropWhile_append_of_pos hlt]
    cases after with
    | nil => rfl
    | cons A after => rw [dropWhile_cons_of_neg (by rw [hge A rfl]; simp)]
  have htake : (before ++ after).takeWhile (fun T => Segment.lt T S) = before := by
    rw [takeWhile_append_of_pos hlt]
    cases after with
    | nil => simp
    | cons A after => rw [takeWhile_cons_of_neg (by rw [hge A rfl]; simp), append_nil]
  have hnew : ¬ (after.head?.any fun T => !Segment.lt S T) = true := by
    cases after with
    | nil => simp
    | cons A after => simp [Segment.lt, hafter A mem_cons_self]
  unfold setInsert
  simp only [hdrop, htake]
  rw [if_neg hnew]

theorem setFind_eq (h : Coalesced coll) (Pos : Nat) :
    CalcLiveRangeUtilSet.find coll Pos = coll.findIdx fun T => Pos < T.end_ := by
  obtain ⟨before, after, rfl, hidx, hbefore, hafter⟩ := split_end h Pos
  rw [hidx]
  have hlow : ∀ T ∈ before, Segment.lt ⟨Pos, getNextSlot Pos, 0⟩ T = false := by
    intro T hT
    have hne := h.nonempty T (mem_append_left _ hT)
    have hle := hbefore T hT
    simp only [Segment.lt, or_eq_false_iff, and_eq_false_iff, decide_eq_false_iff_not,
      beq_eq_false_iff_ne]
    exact ⟨by omega, .inl (by omega)⟩
  by_cases hfirst : ∀ A ∈ after.head?, Segment.lt ⟨Pos, getNextSlot Pos, 0⟩ A = true
  · have hbound : upper_bound (before ++ after) ⟨Pos, getNextSlot Pos, 0⟩ = before.length :=
      findIdx_eq_of_split hlow hfirst
    unfold CalcLiveRangeUtilSet
    simp only [hbound, take_left]
    cases hlast : before.getLast? with
    | none => rfl
    | some PrevI =>
      have hle := hbefore PrevI (mem_of_getLast? hlast)
      simp only []
      rw [if_neg (by omega)]
  · cases after with
    | nil => exact absurd (by simp) hfirst
    | cons A rest =>
      have hA : Segment.lt ⟨Pos, getNextSlot Pos, 0⟩ A = false := by simpa using hfirst
      have hAend := hafter A mem_cons_self
      have hrest : ∀ T ∈ rest.head?, Segment.lt ⟨Pos, getNextSlot Pos, 0⟩ T = true := by
        intro T hT
        have hle := (starts_mono h rfl T (mem_of_mem_head? hT)).1
        have hgt : Pos < T.start := by omega
        simp [Segment.lt, hgt]
      have hsplit : before ++ A :: rest = (before ++ [A]) ++ rest := by simp
      have hbound : upper_bound (before ++ A :: rest) ⟨Pos, getNextSlot Pos, 0⟩ =
          (before ++ [A]).length := by
        rw [hsplit]
        refine findIdx_eq_of_split (fun T hT => ?_) hrest
        rcases mem_append.mp hT with hT | hT
        · exact hlow T hT
        · obtain rfl : T = A := by simpa using hT
          exact hA
      have htake : (before ++ A :: rest).take (before ++ [A]).length = before ++ [A] := by
        rw [hsplit, take_left]
      unfold CalcLiveRangeUtilSet
      simp only [hbound, htake, getLast?_append, getLast?_singleton, Option.some_or]
      rw [if_pos hAend, length_append, length_singleton, Nat.add_sub_cancel]

theorem setFindInsertPos_eq (h : Coalesced coll) (S : Segment) :
    CalcLiveRangeUtilSet.findInsertPos coll S = coll.findIdx fun T => S.start < T.start := by
  obtain ⟨before, after, rfl, hidx, hbefore, hafter⟩ := split_start h S.start
  rw [hidx]
  have hhigh : ∀ T ∈ after.head?, Segment.lt S T = true := by
    intro T hT
    simp [Segment.lt, hafter T (mem_of_mem_head? hT)]
  by_cases hlow : ∀ T ∈ before, Segment.lt S T = false
  · have hbound : upper_bound (before ++ after) S = before.length :=
      findIdx_eq_of_split hlow hhigh
    unfold CalcLiveRangeUtilSet
    simp only [hbound]
    cases after with
    | nil => simp
    | cons A rest => simp [hafter A mem_cons_self]
  · rcases eq_nil_or_concat' before with rfl | ⟨P, B, rfl⟩
    · exact absurd (by simp) hlow
    · have hP : ∀ T ∈ P, Segment.lt S T = false := by
        intro T hT
        have hcoll : Coalesced (P ++ B :: after) := by simpa using h
        have hTB := (coalesced_append.mp hcoll).2.2 T hT B mem_cons_self
        have hne := hcoll.nonempty T (mem_append_left _ hT)
        have hB := hbefore B (by simp)
        have hle := hTB.1
        simp only [Segment.lt, or_eq_false_iff, and_eq_false_iff,
          decide_eq_false_iff_not, beq_eq_false_iff_ne]
        exact ⟨by omega, .inl (by omega)⟩
      have hB : Segment.lt S B = true := by
        by_contra hfalse
        refine hlow fun T hT => ?_
        rcases mem_append.mp hT with hT | hT
        · exact hP T hT
        · obtain rfl : T = B := by simpa using hT
          simpa using hfalse
      have hsplit : P ++ [B] ++ after = P ++ B :: after := by simp
      have hbound : upper_bound (P ++ B :: after) S = P.length :=
        findIdx_eq_of_split hP fun T hT => by
          obtain rfl : B = T := by simpa using hT
          exact hB
      have hBstart := hbefore B (by simp)
      unfold CalcLiveRangeUtilSet
      simp only [hsplit, hbound]
      simp [Nat.not_lt.mpr hBstart]

theorem positions_set (h : Coalesced coll) : CalcLiveRangeUtilSet.Positions coll where
  find := setFind_eq h
  findInsertPos := setFindInsertPos_eq h
  insert := by
    rintro before after S rfl hbefore hafter
    exact setInsert_eq hbefore hafter
  insertAtEnd := by
    intro S hS
    have hinsert : setInsert (coll ++ []) S = coll ++ [S] := setInsert_eq hS (by simp)
    rwa [append_nil] at hinsert

/-! ## Two live ranges -/

variable {segments other : List Segment} {I J : Segment} {x : Nat}

theorem liveAt_iff (h : Coalesced segments) : liveAt segments x = true ↔ Inside segments x := by
  rw [liveAt, find_eq h]
  obtain ⟨before, after, rfl, hidx, hbefore, hafter⟩ := split_end h x
  rw [hidx, getElem?_append_right le_rfl, Nat.sub_self, inside_append_of_le hbefore]
  cases after with
  | nil => simp [not_inside_nil]
  | cons S after =>
    have hS := hafter S mem_cons_self
    rw [getElem?_cons_zero, Option.any_some, decide_eq_true_iff]
    exact ⟨fun hle => inside_cons.mpr (.inl ⟨hle, hS⟩), fun hx =>
      (coalesced_append.mp h).2.1.start_le_of_inside hx⟩

theorem inside_skip {i j : List Segment} (h : Coalesced (J :: j)) (hend : I.end_ ≤ J.start)
    (hx : Inside (J :: j) x) : Inside (I :: i) x ↔ Inside i x := by
  have hstart := h.start_le_of_inside hx
  refine inside_append_of_le (l := [I]) fun P hP => ?_
  obtain rfl := mem_singleton.mp hP
  omega

theorem overlapsLoop_spec {i j : List Segment} (hi : Coalesced i) (hj : Coalesced j)
    (hne : j ≠ []) :
    ∃ r, overlapsLoop i j = some r ∧ (r = true ↔ ∃ x, Inside i x ∧ Inside j x) := by
  induction i, j using overlapsLoop.induct with
  | case1 j => exact ⟨false, by rw [overlapsLoop], by simp [not_inside_nil]⟩
  | case2 I i => exact absurd rfl hne
  | case3 I i J j hlt hover =>
    refine ⟨true, by rw [overlapsLoop, if_pos hlt, if_pos hover], by simp only [true_iff]; exact
      ⟨I.start, inside_cons.mpr (.inl ⟨le_rfl, (coalesced_cons.mp hi).1⟩),
        inside_cons.mpr (.inl ⟨hlt.le, hover⟩)⟩⟩
  | case4 I i J j hlt hover ih =>
    obtain ⟨r, hrun, hr⟩ := ih (coalesced_cons.mp hj).2.2 hi (cons_ne_nil _ _)
    refine ⟨r, by rw [overlapsLoop, if_pos hlt, if_neg hover, hrun], hr.trans ?_⟩
    refine exists_congr fun x => and_comm.trans (and_congr_right fun hx => ?_)
    exact (inside_skip hi (not_lt.mp hover) hx).symm
  | case5 I i J j hle hover =>
    refine ⟨true, by rw [overlapsLoop, if_neg hle, if_pos hover], by simp only [true_iff]; exact
      ⟨J.start, inside_cons.mpr (.inl ⟨not_lt.mp hle, hover⟩),
        inside_cons.mpr (.inl ⟨le_rfl, (coalesced_cons.mp hj).1⟩)⟩⟩
  | case6 I i J j hle hover ih =>
    obtain ⟨r, hrun, hr⟩ := ih (coalesced_cons.mp hi).2.2 hj (cons_ne_nil _ _)
    refine ⟨r, by rw [overlapsLoop, if_neg hle, if_neg hover, hrun], hr.trans ?_⟩
    refine exists_congr fun x => and_congr_left fun hx => ?_
    exact (inside_skip hj (not_lt.mp hover) hx).symm

theorem overlapsLoop_dropped (h : Coalesced segments) (h' : Coalesced other) {i j : Nat}
    (hi : ∀ P ∈ segments.take i, ∀ x, Inside other x → P.end_ ≤ x)
    (hj : ∀ P ∈ other.take j, ∀ x, Inside segments x → P.end_ ≤ x) :
    ∃ r, (if other.drop j = [] then some false
        else overlapsLoop (segments.drop i) (other.drop j)) = some r ∧
      (r = true ↔ ∃ x, Inside segments x ∧ Inside other x) := by
  have hsplit := take_append_drop i segments
  have hsplit' := take_append_drop j other
  have hkept : ∀ x, Inside segments x ∧ Inside other x ↔
      Inside (segments.drop i) x ∧ Inside (other.drop j) x := by
    intro x
    constructor
    · rintro ⟨hx, hx'⟩
      rw [← hsplit] at hx
      rw [← hsplit'] at hx'
      exact ⟨(inside_append_of_le fun P hP => hi P hP x (hsplit' ▸ hx')).mp hx,
        (inside_append_of_le fun P hP => hj P hP x (hsplit ▸ hx)).mp hx'⟩
    · rintro ⟨hx, hx'⟩
      rw [← hsplit, ← hsplit']
      exact ⟨inside_append.mpr (.inr hx), inside_append.mpr (.inr hx')⟩
  simp only [hkept]
  by_cases hnil : other.drop j = []
  · exact ⟨false, if_pos hnil, by simp [hnil, not_inside_nil]⟩
  · rw [if_neg hnil]
    exact overlapsLoop_spec (coalesced_append.mp (hsplit.symm ▸ h)).2.1
      (coalesced_append.mp (hsplit'.symm ▸ h')).2.1 hnil

theorem take_end_le (h : Coalesced other) {k : Nat} (hJ : other[k]? = some J) :
    ∀ P ∈ other.take k, P.end_ ≤ J.start := by
  intro P hP
  obtain ⟨hk, rfl⟩ := List.getElem?_eq_some_iff.mp hJ
  obtain ⟨m, hm, rfl⟩ := mem_take_iff_getElem.mp hP
  exact (pairwise_iff_getElem.mp h.apart m k _ hk (by omega)).1

theorem take_upperBound_end_le (h : Coalesced other) {first Start : Nat}
    (hfirst : ∀ P ∈ other.take first, P.end_ ≤ Start) :
    ∀ P ∈ other.take (upperBoundStart other first Start - 1), P.end_ ≤ Start := by
  intro P hP
  obtain ⟨m, hm, rfl⟩ := mem_take_iff_getElem.mp hP
  have hle : ((other.drop first).findIdx fun T => decide (Start < T.start)) ≤ _ := findIdx_le_length
  rw [length_drop] at hle
  rw [upperBoundStart] at hm
  by_cases hlt : m < first
  · exact hfirst _ (mem_take_iff_getElem.mpr ⟨m, by omega, rfl⟩)
  · have hnot := not_of_lt_findIdx (show m + 1 - first <
      (other.drop first).findIdx fun T => Start < T.start by omega)
    have hapart := pairwise_iff_getElem.mp h.apart m (m + 1) (by omega) (by omega) (by omega)
    rw [getElem_drop] at hnot
    refine hapart.1.trans ?_
    simpa [show first + (m + 1 - first) = m + 1 by omega] using hnot

/-- The scan with a hint finds exactly whether some slot is in both ranges. -/
theorem overlapsFrom_spec {is : List Segment} (h : Coalesced (I :: is)) (h' : Coalesced other)
    {StartPos : Nat} (hJ : other[StartPos]? = some J) (hhint : StartPos = 0 ∨ J.start ≤ I.start) :
    ∃ r, overlapsFrom (I :: is) other StartPos = some r ∧
      (r = true ↔ ∃ x, Inside (I :: is) x ∧ Inside other x) := by
  have hJmem := mem_of_getElem? hJ
  have hassert : ¬(I.start < J.start ∧ StartPos ≠ 0) := by omega
  have hnone : ∀ P ∈ (I :: is).take 0, ∀ x, Inside other x → P.end_ ≤ x := by simp
  have hleft {Start : Nat} (hle : Start ≤ I.start) {P : Segment} (hP : P.end_ ≤ Start) :
      ∀ x, Inside (I :: is) x → P.end_ ≤ x := fun x hx =>
    (hP.trans hle).trans (h.start_le_of_inside hx)
  unfold overlapsFrom
  simp only [head?_cons, hJ, bind, Option.bind, if_neg hassert]
  rcases lt_trichotomy I.start J.start with hlt | heq | hgt
  · obtain rfl : StartPos = 0 := by omega
    rw [if_pos hlt]
    refine overlapsLoop_dropped h h' (fun P hP x hx => ?_) (by simp)
    have hend := take_upperBound_end_le h (by simp) P hP
    obtain ⟨js, rfl⟩ : ∃ js, other = J :: js := head?_eq_some_iff.mp (head?_eq_getElem? ▸ hJ)
    exact hend.trans (h'.start_le_of_inside hx)
  · rw [if_neg heq.not_lt, if_neg heq.not_gt]
    have hshared : ∃ x, Inside (I :: is) x ∧ Inside other x :=
      ⟨I.start, inside_cons.mpr (.inl ⟨le_rfl, (coalesced_cons.mp h).1⟩), J, hJmem, heq.ge,
        heq ▸ h'.nonempty J hJmem⟩
    exact ⟨true, rfl, iff_of_true rfl hshared⟩
  · rw [if_neg hgt.not_gt, if_pos hgt]
    have hbefore := fun P hP => (take_end_le h' hJ P hP).trans hgt.le
    split
    · exact overlapsLoop_dropped h h' hnone fun P hP =>
        hleft le_rfl (take_upperBound_end_le h' hbefore P hP)
    · exact overlapsLoop_dropped h h' hnone fun P hP => hleft le_rfl (hbefore P hP)

theorem adjacentTo_spec {l : List Segment} (h : Coalesced l) {a End : Nat} (ha : a < End)
    (hl : ∃ S ∈ l.head?, S.start ≤ a ∧ a < S.end_) :
    (adjacentTo End l = none ∧ ∃ x, a ≤ x ∧ x < End ∧ ¬Inside l x) ∨
      ∃ D R, adjacentTo End l = some R ∧ l = D ++ R ∧ R ≠ [] ∧ (∀ P ∈ D, P.end_ ≤ End) ∧
        ∀ x, a ≤ x → x < End → Inside l x := by
  induction l generalizing a with
  | nil => simp at hl
  | cons I l ih =>
    obtain ⟨_, ⟨⟩, hlow, hhigh⟩ := hl
    unfold adjacentTo
    by_cases hend : I.end_ < End
    · rw [if_pos hend]
      cases l with
      | nil =>
        refine .inl ⟨by simp, I.end_, hhigh.le, hend, fun hx => ?_⟩
        rcases inside_cons.mp hx with hI | hx
        · omega
        · exact not_inside_nil _ hx
      | cons J l =>
        have hl := (coalesced_cons.mp h).2.2
        by_cases hgap : I.end_ = J.start
        · have hJ := (coalesced_cons.mp hl).1
          rw [if_neg (by simp [hgap])]
          have hstep := ih hl (hgap ▸ hend : J.start < End) ⟨J, rfl, le_rfl, hJ⟩
          rcases hstep with ⟨hrun, x, hx, hxEnd, hout⟩ | ⟨D, R, hrun, hsplit, hR, hD, hall⟩
          · refine .inl ⟨hrun, x, by omega, hxEnd, fun hin => ?_⟩
            rcases inside_cons.mp hin with hI | hin
            · omega
            · exact hout hin
          · refine .inr ⟨I :: D, R, hrun, by rw [hsplit, cons_append], hR, ?_, fun x hx hxEnd => ?_⟩
            · rintro P (_ | ⟨_, hP⟩)
              · exact hend.le
              · exact hD P hP
            · by_cases hxI : x < I.end_
              · exact inside_cons.mpr (.inl ⟨by omega, hxI⟩)
              · exact inside_cons.mpr (.inr (hall x (by omega) hxEnd))
        · rw [if_pos (by simp [hgap])]
          refine .inl ⟨rfl, I.end_, hhigh.le, hend, fun hx => ?_⟩
          have hle := ((coalesced_cons.mp h).2.1 J mem_cons_self).1
          rcases inside_cons.mp hx with hI | hx
          · omega
          · have hstart := hl.start_le_of_inside hx
            omega
    · rw [if_neg hend]
      exact .inr ⟨[], I :: l, rfl, rfl, cons_ne_nil _ _, by simp, fun x hx hxEnd =>
        inside_cons.mpr (.inl ⟨by omega, by omega⟩)⟩

theorem end_le_last (h : Coalesced segments) (hlast : segments.getLast? = some J) :
    ∀ P ∈ segments, P.end_ ≤ J.end_ := by
  obtain ⟨before, rfl⟩ := getLast?_eq_some_iff.mp hlast
  obtain ⟨-, hJ, hapart⟩ := coalesced_append.mp h
  intro P hP
  rcases mem_append.mp hP with hP | hP
  · have hle := (hapart P hP J mem_cons_self).1
    have hne := hJ.nonempty J mem_cons_self
    omega
  · rw [mem_singleton.mp hP]

/-- `advanceTo` leaves out segments that end before the position, and ends at one that does not if
there is one. -/
theorem advanceTo_spec (h : Coalesced segments) {before l : List Segment}
    (hsplit : segments = before ++ l) (hl : l ≠ []) (Pos : Nat) :
    (advanceTo segments l Pos = some [] ∧ ¬Inside segments Pos) ∨
      ∃ D S R, advanceTo segments l Pos = some (S :: R) ∧ l = D ++ S :: R ∧
        (∀ P ∈ D, P.end_ ≤ Pos) ∧ Pos < S.end_ := by
  obtain ⟨before', L, rfl⟩ := (eq_nil_or_concat' l).resolve_left hl
  have hlast : segments.getLast? = some L := by simp [hsplit]
  unfold advanceTo
  rw [if_neg hl, hlast, Option.any_some]
  by_cases hend : L.end_ ≤ Pos
  · refine .inl ⟨if_pos (by simpa using hend), ?_⟩
    rintro ⟨P, hP, -, hlt⟩
    have hle := end_le_last h hlast P hP
    omega
  · rw [if_neg (by simpa using hend)]
    obtain ⟨D, A, hdropped, -, hD, hA⟩ := split_end (coalesced_append.mp (hsplit ▸ h)).2.1 Pos
    rw [hdropped, dropWhile_append_of_pos fun P hP => by simpa using hD P hP]
    cases A with
    | nil =>
      rw [append_nil] at hdropped
      exact absurd (hD L (hdropped ▸ by simp)) hend
    | cons S R =>
      have hS := hA S mem_cons_self
      exact .inr ⟨D, S, R, by rw [dropWhile_cons_of_neg (by simpa using hS)], rfl, hD, hS⟩

theorem coversLoop_spec (h : Coalesced segments) {before l Os : List Segment} (hOs : Coalesced Os)
    (hsplit : segments = before ++ l) (hl : l ≠ [])
    (hbefore : ∀ P ∈ before, ∀ x, Inside Os x → P.end_ ≤ x) :
    ∃ r, coversLoop segments l Os = some r ∧
      (r = true ↔ ∀ x, Inside Os x → Inside segments x) := by
  induction Os generalizing before l with
  | nil => exact ⟨true, rfl, by simp [not_inside_nil]⟩
  | cons O Os ih =>
    obtain ⟨hO, -, hOs'⟩ := coalesced_cons.mp hOs
    have hstart : Inside (O :: Os) O.start := inside_cons.mpr (.inl ⟨le_rfl, hO⟩)
    have hbefore' := fun P hP => hbefore P hP O.start hstart
    unfold coversLoop
    rcases advanceTo_spec h hsplit hl O.start with
      ⟨hrun, hout⟩ | ⟨D, S, R, hrun, rfl, hD, hS⟩
    · exact ⟨false, by simp [hrun], by simpa using ⟨_, hstart, hout⟩⟩
    rw [← append_assoc] at hsplit
    have hleft : ∀ P ∈ before ++ D, P.end_ ≤ O.start := fun P hP =>
      (mem_append.mp hP).elim (hbefore' P) (hD P)
    have hrest := (coalesced_append.mp (hsplit ▸ h)).2.1
    have hkept {x : Nat} (hx : O.start ≤ x) : Inside segments x ↔ Inside (S :: R) x := by
      rw [hsplit]
      exact inside_append_of_le fun P hP => (hleft P hP).trans hx
    by_cases hgap : O.start < S.start
    · have hout : ¬Inside segments O.start := fun hin =>
        hgap.not_ge (hrest.start_le_of_inside ((hkept le_rfl).mp hin))
      exact ⟨false, by simp [hrun, hgap], by simpa using ⟨_, hstart, hout⟩⟩
    rcases adjacentTo_spec hrest hO ⟨S, rfl, not_lt.mp hgap, hS⟩ with
      ⟨hadjacent, x, hx, hxEnd, hout⟩ | ⟨D', R', hadjacent, hsplit', hR', hD', hall⟩
    · refine ⟨false, by simp [hrun, hgap, hadjacent], by
        simpa using ⟨x, inside_cons.mpr (.inl ⟨hx, hxEnd⟩), fun hin => hout ((hkept hx).mp hin)⟩⟩
    · rw [hsplit', ← append_assoc] at hsplit
      obtain ⟨r, hloop, hr⟩ := ih hOs' hsplit hR' fun P hP x hx => by
        have hOend := hOs.end_le_of_inside hx
        rcases mem_append.mp hP with hP | hP
        · have hPend := hleft P hP
          omega
        · exact (hD' P hP).trans hOend
      refine ⟨r, by simp [hrun, hgap, hadjacent, hloop], hr.trans ⟨fun hcovers x hx => ?_,
        fun hcovers x hx => hcovers x (inside_cons.mpr (.inr hx))⟩⟩
      rcases inside_cons.mp hx with ⟨hlow, hhigh⟩ | hx
      · exact (hkept hlow).mpr (hall x hlow hhigh)
      · exact hcovers x hx

theorem LiveRange.verify.coalesced {LR : LiveRange} (h : LR.verify) : Coalesced LR.segments :=
  coalesced_of_isChain h.nonempty h.next

variable {LR Other : LiveRange}

/-- With a hint that does not start behind the first segment, the ranges are found to overlap
exactly if both are live at some slot. -/
theorem overlapsFrom_exact (h : LR.verify) (h' : Other.verify) {StartPos : Nat}
    (hI : LR.segments.head? = some I) (hJ : Other.segments[StartPos]? = some J)
    (hhint : StartPos = 0 ∨ J.start ≤ I.start) :
    ∃ r, overlapsFrom LR.segments Other.segments StartPos = some r ∧
      (r = true ↔ ∃ index, liveAt LR.segments index ∧ liveAt Other.segments index) := by
  obtain ⟨is, hsegments⟩ := head?_eq_some_iff.mp hI
  simp only [liveAt_iff h.coalesced, liveAt_iff h'.coalesced]
  have hLR := h.coalesced
  rw [hsegments] at hLR ⊢
  exact overlapsFrom_spec hLR h'.coalesced hJ hhint

theorem verify_oneValue {l : List Segment} (h : ∀ S ∈ l, S.start < S.end_ ∧ S.value = 0)
    (hl : l.IsChain fun S T => S.end_ < T.start) :
    LiveRange.verify ⟨l, [0], none, fun _ => ⟨0, some 0⟩, 1⟩ where
  nonempty := fun S hS => (h S hS).1
  valno := fun S hS => by rw [(h S hS).2]; rfl
  next := hl.imp fun S T hST => ⟨hST.le, fun heq => absurd heq hST.ne⟩

theorem overlapsFrom_exact_second :
    ∃ r, overlapsFrom [⟨6, 9, 0⟩] [⟨1, 3, 0⟩, ⟨5, 7, 0⟩] 1 = some r ∧ (r = true ↔
      ∃ index, liveAt [⟨6, 9, 0⟩] index ∧ liveAt [⟨1, 3, 0⟩, ⟨5, 7, 0⟩] index) :=
  overlapsFrom_exact (verify_oneValue (by simp) (by simp)) (verify_oneValue (by simp) (by simp))
    rfl rfl (.inr (by decide))

/-- A range is found to cover another one exactly if it is live wherever the other one is. -/
theorem covers_exact (h : LR.verify) (h' : Other.verify) :
    ∃ r, covers LR.segments Other.segments = some r ∧
      (r = true ↔ ∀ index, liveAt Other.segments index → liveAt LR.segments index) := by
  simp only [liveAt_iff h.coalesced, liveAt_iff h'.coalesced]
  unfold covers
  by_cases hempty : LR.segments = []
  · refine ⟨Other.segments.isEmpty, if_pos hempty, ?_⟩
    rw [hempty, List.isEmpty_iff]
    cases hother : Other.segments with
    | nil => simp [not_inside_nil]
    | cons O Os =>
      have hO := h'.nonempty O (by simp [hother])
      simpa [not_inside_nil] using ⟨O.start, inside_cons.mpr (.inl ⟨le_rfl, hO⟩)⟩
  · rw [if_neg hempty]
    exact coversLoop_spec h.coalesced h'.coalesced (nil_append _).symm hempty (by simp)

theorem covers_exact_two :
    ∃ r, covers [⟨1, 9, 0⟩] [⟨1, 3, 0⟩, ⟨5, 7, 0⟩] = some r ∧ (r = true ↔
      ∀ index, liveAt [⟨1, 3, 0⟩, ⟨5, 7, 0⟩] index → liveAt [⟨1, 9, 0⟩] index) :=
  covers_exact (verify_oneValue (by simp) (by simp)) (verify_oneValue (by simp) (by simp))

end Zapcc.LiveInterval
