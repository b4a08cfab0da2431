import Zapcc.ADT.SmallPtrSetTable

/-!
# Inserting, erasing and finding pointers

The operations on one small pointer set, in both representations. The main results are
`WellFormed.insertImp`, `WellFormed.eraseImp`, `WellFormed.findImp` and `WellFormed.clear`.
-/

namespace Zapcc.ADT.SmallPtrSet

open MathExtras OpenAddressing TriangularProbe Option List

variable {S : SmallPtrSet} {SmallSize : Nat} {array : List Ptr}

/-! ## Readings of the inline array -/

theorem Probed.distinct_of (h : Probed ptrInfo id array) : Distinct array :=
  fun i i' p hi hi' hp => h.distinct i i' p p hi hi' hp rfl

variable {l : List Ptr} {p : Ptr}

theorem liveIn_add_tombstonesIn (h : ∀ p ∈ l, p ≠ emptyMarker) :
    liveIn l + tombstonesIn l = l.length := by
  have hcounts : liveIn l + tombstonesIn l + emptyCount ptrInfo id l = l.length :=
    counts_add ptrInfo id l
  have hzero : emptyCount ptrInfo id l = 0 := countP_eq_zero.mpr fun p hp => by
    simpa using h p hp
  omega

theorem Small.length_slots (h : Small SmallSize S) (hlen : S.smallArray.length = SmallSize) :
    (S.smallArray.take S.numNonEmpty).length = S.numNonEmpty := by
  rw [length_take, hlen]
  exact Nat.min_eq_left h.nonEmpty

theorem Small.size_eq (h : Small SmallSize S) (hlen : S.smallArray.length = SmallSize)
    (hmax : SmallSize ≤ 32) : S.size = liveIn S.slots := by
  have hsum := liveIn_add_tombstonesIn h.filled
  rw [h.length_slots hlen] at hsum
  have hle := h.nonEmpty
  rw [h.slots]
  unfold size
  rw [h.tombstones, subUnsigned_of_le (by omega) (by omega)]
  omega

theorem WellFormed.distinct (h : WellFormed SmallSize S) : Distinct S.slots := by
  rcases h.array with hs | ⟨array, hb⟩
  · rw [hs.slots]
    exact hs.distinct
  · rw [hb.slots]
    exact Probed.distinct_of hb.probed

theorem WellFormed.size_eq (h : WellFormed SmallSize S) (hmax : SmallSize ≤ 32) :
    S.size = liveIn S.slots := by
  rcases h.array with hs | ⟨array, hb⟩
  · exact hs.size_eq h.length hmax
  · rw [hb.slots]
    exact hb.size_eq

/-! ## Inserting into the hash table -/

/-- The state in which a pointer can be inserted: an insertion does not double `2 ^ 31`
buckets. -/
def Room (S : SmallPtrSet) : Prop := S.curArraySize < 2 ^ 31 ∨ S.size < 2 ^ 29

instance (S : SmallPtrSet) : Decidable (Room S) := inferInstanceAs (Decidable (_ ∨ _))

/-- What `makeRoom` leaves. -/
structure Ready (S S' : SmallPtrSet) (array' : List Ptr) : Prop where
  big : Big S' array'
  smallArray : S'.smallArray = S.smallArray
  live : liveIn array' = liveIn S.slots
  mem : ∀ q, Live q → (q ∈ array' ↔ q ∈ S.slots)
  room : liveIn array' + tombstonesIn array' + 1 < array'.length
  load : (liveIn array' + 1) * 4 ≤ S'.curArraySize * 3
  few : liveIn array' + 1 ≤ 3 * 2 ^ 28 + 1

theorem ready_of_grow {m NewSize : Nat} (hm5 : 5 ≤ m) (hm : m ≤ 31) (hsize : NewSize = 2 ^ m)
    (hdistinct : Distinct S.slots) (hcount : S.size = liveIn S.slots)
    (hload : (liveIn S.slots + 1) * 4 ≤ NewSize * 3) (hfew : liveIn S.slots ≤ 3 * 2 ^ 28) :
    ∃ S' array', grow S NewSize = some S' ∧ Ready S S' array' := by
  obtain ⟨S', array', hgrow, hbig, hsize', hsmall, htomb, hlive, hmem⟩ :=
    grow_eq hm5 hm hsize hdistinct hcount (by omega) (by omega)
  have hlen := hbig.length
  exact ⟨S', array', hgrow, hbig, hsmall, hlive, hmem, by omega, by omega, by omega⟩

theorem Big.makeRoom (h : Big S array) (hroom : Room S) :
    ∃ S' array', SmallPtrSet.makeRoom S = some S' ∧ Ready S S' array' := by
  obtain ⟨m, hm5, hm, hsize⟩ := h.arraySize
  have hload := h.load
  have hfew := h.few
  have hcounts := h.counts
  have hnonEmpty := h.nonEmpty
  have hslots := h.slots
  have hcount := h.size_eq
  have h32 : 2 ^ 5 ≤ 2 ^ m := Nat.pow_le_pow_right (by decide) hm5
  have hle : 2 ^ m ≤ 2 ^ 31 := Nat.pow_le_pow_right (by decide) hm
  have hdistinct : Distinct S.slots := by
    rw [hslots]
    exact Probed.distinct_of h.probed
  have hcount' : S.size = liveIn S.slots := by rw [hslots, hcount]
  -- The product by three is out of range for `2 ^ 31` buckets, and `Room` bounds the size there.
  have hproduct : toUnsigned (S.curArraySize * 3) = S.curArraySize * 3 ∧ m ≤ 30 ∨
      toUnsigned (S.curArraySize * 3) = 2 ^ 31 ∧ liveIn array < 2 ^ 29 ∧ 2 ^ m = 2 ^ 31 := by
    by_cases htop : m = 31
    · refine .inr ⟨by rw [hsize, htop]; decide, ?_, by rw [htop]⟩
      rcases hroom with hlt | hlt
      · rw [hsize, htop] at hlt
        omega
      · omega
    · have hle30 : 2 ^ m ≤ 2 ^ 30 := Nat.pow_le_pow_right (by decide) (by omega)
      exact .inl ⟨toUnsigned_of_lt (by omega), by omega⟩
  have hfour : toUnsigned (S.size * 4) = S.size * 4 := toUnsigned_of_lt (by omega)
  have hdiv : 4 ∣ 2 ^ m := Nat.pow_dvd_pow 2 (show 2 ≤ m by omega)
  unfold SmallPtrSet.makeRoom
  rw [hfour]
  split_ifs with hfull hsmall hcrowded
  · have h128 : S.curArraySize = 2 ^ 5 := by
      rw [hsize] at hsmall ⊢
      have hm6 : m < 6 := (Nat.pow_lt_pow_iff_right (show 1 < 2 by decide)).mp hsmall
      rw [show m = 5 by omega]
    refine ready_of_grow (show 5 ≤ 7 by decide) (by decide) rfl hdistinct hcount' ?_ ?_
    · omega
    · omega
  · have hdouble : toUnsigned (S.curArraySize * 2) = 2 ^ (m + 1) := by
      rw [toUnsigned_of_lt (by omega), hsize, Nat.pow_succ]
    refine ready_of_grow (m := m + 1) (by omega) (by omega) hdouble hdistinct hcount' ?_ ?_
    · omega
    · omega
  · refine ready_of_grow hm5 hm hsize hdistinct hcount' ?_ ?_
    · omega
    · rcases hproduct with ⟨heq, hm30⟩ | ⟨heq, hlt, htop⟩
      · have hle30 : 2 ^ m ≤ 2 ^ 30 := Nat.pow_le_pow_right (by decide) hm30
        omega
      · omega
  · have hlen := h.length
    rw [subUnsigned_of_le (by omega) (by omega)] at hcrowded
    refine ⟨S, array, rfl, h, rfl, by rw [hslots], fun q _ => by rw [hslots], by omega, by omega,
      ?_⟩
    rcases hproduct with ⟨heq, hm30⟩ | ⟨heq, hlt, htop⟩
    · have hle30 : 2 ^ m ≤ 2 ^ 30 := Nat.pow_le_pow_right (by decide) hm30
      omega
    · omega

theorem Small.makeRoom (h : Small SmallSize S) (hlen : S.smallArray.length = SmallSize)
    (hmax : SmallSize ≤ 32) (hfull : S.numNonEmpty = SmallSize)
    (hnone : tombstoneMarker ∉ S.slots) :
    ∃ S' array', SmallPtrSet.makeRoom S = some S' ∧ Ready S S' array' := by
  have hcount := h.size_eq hlen hmax
  have hsum := liveIn_add_tombstonesIn h.filled
  rw [h.length_slots hlen, ← h.slots] at hsum
  have hzero : tombstonesIn S.slots = 0 := by
    have := mt tombstonesIn_pos.mp hnone
    omega
  have hsize := h.arraySize
  have hdistinct : Distinct S.slots := by
    rw [h.slots]
    exact h.distinct
  have hthree : toUnsigned (S.curArraySize * 3) = S.curArraySize * 3 :=
    toUnsigned_of_lt (by omega)
  have hfour : toUnsigned (S.size * 4) = S.size * 4 := toUnsigned_of_lt (by omega)
  unfold SmallPtrSet.makeRoom
  rw [hthree, hfour, if_pos (by omega), if_pos (by omega)]
  exact ready_of_grow (show 5 ≤ 7 by decide) (by decide) rfl hdistinct hcount (by omega)
    (by omega)

/-- What an insertion into a set does. -/
structure Inserted (SmallSize : Nat) (S S' : SmallPtrSet) (p : Ptr) (b : Nat) : Prop where
  wellFormed : WellFormed SmallSize S'
  bucket : S'.curArray[b]? = some p
  mem : ∀ q, Live q → (q ∈ S'.slots ↔ q = p ∨ q ∈ S.slots)

theorem Ready.insert {S' : SmallPtrSet} {array' : List Ptr} (h : Ready S S' array')
    (hlen : S.smallArray.length = SmallSize) (hp : Live p)
    (hroom : SmallPtrSet.makeRoom S = some S') :
    ∃ S'' b, insertImpBig S p = some (S'', b, decide (p ∉ S.slots)) ∧
      Inserted SmallSize S S'' p b := by
  have hbig := h.big
  have hheap := hbig.heap
  unfold insertImpBig
  rw [hroom, bind_some]
  rcases hbig.find hp with ⟨i, heq, hi⟩ | ⟨j, hj, old, heq, hold, hdead, hocc, hnew⟩
  · have hmem : p ∈ S.slots := (h.mem p hp).mp (List.mem_of_getElem? hi)
    refine ⟨S', i, ?_, ⟨by rw [h.smallArray, hlen], .inr ⟨array', hbig⟩⟩, ?_, fun q hq => ?_⟩
    · rw [heq, bind_some, curArray_of_heap hheap, hi, map_some, if_pos rfl]
      simp [hmem]
    · rw [curArray_of_heap hheap]
      exact hi
    · rw [hbig.slots, h.mem q hq]
      constructor
      · exact .inr
      · rintro (rfl | hq)
        · exact hmem
        · exact hq
  · have hmem : p ∉ S.slots := fun hmem => hnew ((h.mem p hp).mpr hmem)
    have hplaced := placed hbig.probed hp hj hold hdead hocc hnew h.room
    have hne : old ≠ p := fun heq => hdead (heq ▸ hp)
    have hlive := hplaced.live
    have htomb := hplaced.tombstones
    have hload := h.load
    have hfew := h.few
    have hnonEmpty := hbig.nonEmpty
    have hcounts := hbig.counts
    have htombs := hbig.tombstones
    obtain ⟨m, hm5, hm, hsize⟩ := hbig.arraySize
    have hle : 2 ^ m ≤ 2 ^ 31 := Nat.pow_le_pow_right (by decide) hm
    have hlen' := hplaced.length.trans hbig.length
    rw [heq, bind_some, curArray_of_heap hheap, hold, map_some, if_neg hne,
      setCurArray_of_heap hheap]
    have hdecide : decide (p ∉ S.slots) = true := decide_eq_true hmem
    rw [hdecide]
    -- What the two branches have in common: the array, and the counters of the new table.
    have hinserted : ∀ numNonEmpty numTombstones,
        numNonEmpty = liveIn array' + 1 + tombstonesIn (array'.set
          (probe array'.length (ptrInfo.hash p) j) p) →
        numTombstones = tombstonesIn (array'.set (probe array'.length (ptrInfo.hash p) j) p) →
        Inserted SmallSize S { S' with
          heapArray := some (array'.set (probe array'.length (ptrInfo.hash p) j) p)
          numNonEmpty := numNonEmpty
          numTombstones := numTombstones } p (probe array'.length (ptrInfo.hash p) j) := by
      intro numNonEmpty numTombstones hn ht
      have hbig' : Big { S' with
          heapArray := some (array'.set (probe array'.length (ptrInfo.hash p) j) p)
          numNonEmpty := numNonEmpty
          numTombstones := numTombstones }
            (array'.set (probe array'.length (ptrInfo.hash p) j) p) :=
        ⟨rfl, hlen', hbig.arraySize, hplaced.probed, by rw [hlive]; exact hn, ht,
          by rw [hlive]; exact hload, by rw [hlive]; exact hfew⟩
      refine ⟨⟨h.smallArray.symm ▸ hlen, .inr ⟨_, hbig'⟩⟩, ?_, fun q hq => ?_⟩
      · exact getElem?_set_self_of_some p hold
      · rw [hbig'.slots, hplaced.mem q hq, h.mem q hq]
    by_cases ht : old = tombstoneMarker
    · rw [if_pos ht] at htomb ⊢
      refine ⟨_, _, rfl, hinserted S'.numNonEmpty (subUnsigned S'.numTombstones 1) (by omega) ?_⟩
      rw [subUnsigned_of_le (by omega) (by omega)]
      omega
    · rw [if_neg ht] at htomb ⊢
      refine ⟨_, _, rfl, hinserted (toUnsigned (S'.numNonEmpty + 1)) S'.numTombstones ?_ (by omega)⟩
      rw [toUnsigned_of_lt (by omega)]
      omega

/-! ## Writing the inline array -/

theorem Distinct.set (h : Distinct l) {i : Nat} {old : Ptr}
    (hold : l[i]? = some old) (hp : Live p → p ∉ l) : Distinct (l.set i p) := by
  intro j j' q hj hj' hq
  rcases getElem?_set_some hold hj with ⟨rfl, rfl⟩ | ⟨_, hj₁⟩
  · rcases getElem?_set_some hold hj' with ⟨rfl, _⟩ | ⟨_, hj₂⟩
    · rfl
    · exact absurd (List.mem_of_getElem? hj₂) (hp hq)
  · rcases getElem?_set_some hold hj' with ⟨_, rfl⟩ | ⟨_, hj₂⟩
    · exact absurd (List.mem_of_getElem? hj₁) (hp hq)
    · exact h j j' q hj₁ hj₂ hq

theorem Distinct.append (h : Distinct l) (hp : p ∉ l) :
    Distinct (l ++ [p]) := by
  have hcases : ∀ {i : Nat} {q : Ptr}, (l ++ [p])[i]? = some q →
      l[i]? = some q ∨ i = l.length ∧ q = p := by
    intro i q hi
    rcases Nat.lt_or_ge i l.length with hlt | hge
    · rw [getElem?_append_left hlt] at hi
      exact .inl hi
    · rw [getElem?_append_right hge, getElem?_singleton] at hi
      split_ifs at hi with hzero
      exact .inr ⟨by omega, (Option.some.inj hi).symm⟩
  intro i i' q hi hi' hq
  rcases hcases hi with hi₁ | ⟨rfl, rfl⟩
  · rcases hcases hi' with hi₂ | ⟨_, rfl⟩
    · exact h i i' q hi₁ hi₂ hq
    · exact absurd (List.mem_of_getElem? hi₁) hp
  · rcases hcases hi' with hi₂ | ⟨rfl, _⟩
    · exact absurd (List.mem_of_getElem? hi₂) hp
    · rfl

theorem getElem?_of_take {n i : Nat} (h : (l.take n)[i]? = some p) :
    l[i]? = some p := by
  rw [getElem?_take] at h
  split_ifs at h
  exact h

theorem take_succ_set {n : Nat} (hn : n < l.length) (p : Ptr) :
    (l.set n p).take (n + 1) = l.take n ++ [p] := by
  rw [take_add_one, getElem?_set_self hn, take_set_of_le (Nat.le_refl n)]
  rfl

theorem insertScan_eq (p : Ptr) (l : List Ptr) :
    ∀ (i : Nat) (last : Option Nat), (∃ j, insertScan p l i last = .inl (i + j) ∧ l[j]? = some p) ∨
      (p ∉ l ∧ ∃ t, insertScan p l i last = .inr t ∧ (t = last ∧ tombstoneMarker ∉ l ∨
          ∃ j, t = some (i + j) ∧ l[j]? = some tombstoneMarker)) := by
  induction l with
  | nil => exact fun i last => .inr ⟨not_mem_nil, last, rfl, .inl ⟨rfl, not_mem_nil⟩⟩
  | cons q l ih =>
    intro i last
    unfold insertScan
    by_cases hq : q = p
    · rw [if_pos hq]
      exact .inl ⟨0, rfl, by simp [hq]⟩
    · rw [if_neg hq]
      rcases ih (i + 1) (if q = tombstoneMarker then some i else last) with
        ⟨j, heq, hj⟩ | ⟨hp, t, heq, ht⟩
      · exact .inl ⟨j + 1, by rw [heq]; congr 1; omega, by simpa using hj⟩
      · refine .inr ⟨by simp [Ne.symm hq, hp], t, heq, ?_⟩
        rcases ht with ⟨rfl, hnone⟩ | ⟨j, rfl, hj⟩
        · by_cases htomb : q = tombstoneMarker
          · rw [if_pos htomb]
            exact .inr ⟨0, rfl, by simp [htomb]⟩
          · rw [if_neg htomb]
            exact .inl ⟨rfl, by simp [Ne.symm htomb, hnone]⟩
        · exact .inr ⟨j + 1, by congr 1; omega, by simpa using hj⟩

/-! ## Inserting into the inline array -/

theorem Small.curArray (h : Small SmallSize S) : S.curArray = S.smallArray := by
  unfold SmallPtrSet.curArray
  rw [h.heap]
  rfl

theorem Small.set (h : Small SmallSize S) {i : Nat} {old : Ptr} {numTombstones : Nat}
    (hold : (S.smallArray.take S.numNonEmpty)[i]? = some old) (hne : p ≠ emptyMarker)
    (hp : Live p → p ∉ S.smallArray.take S.numNonEmpty)
    (htomb : numTombstones = tombstonesIn ((S.smallArray.take S.numNonEmpty).set i p)) :
    Small SmallSize { S with
      smallArray := S.smallArray.set i p
      numTombstones := numTombstones } := by
  have htake : (S.smallArray.set i p).take S.numNonEmpty =
      (S.smallArray.take S.numNonEmpty).set i p := take_set
  refine ⟨h.heap, h.arraySize, h.nonEmpty, ?_, ?_, ?_⟩
  · intro q hq
    rw [htake] at hq
    rcases mem_or_eq_of_mem_set hq with hq | rfl
    · exact h.filled q hq
    · exact hne
  · rw [htake]
    exact htomb
  · rw [htake]
    exact h.distinct.set hold hp

theorem Small.insertImp (h : Small SmallSize S) (hlen : S.smallArray.length = SmallSize)
    (hmax : SmallSize ≤ 32) (hp : Live p) :
    ∃ S' b, SmallPtrSet.insertImp S p = some (S', b, decide (p ∉ S.slots)) ∧
      Inserted SmallSize S S' p b := by
  have hslots := h.slots
  have hcount := liveIn_add_tombstonesIn h.filled
  rw [h.length_slots hlen] at hcount
  have hle := h.nonEmpty
  have htombs := h.tombstones
  unfold SmallPtrSet.insertImp
  rw [if_pos h.isSmall]
  rcases insertScan_eq p (S.smallArray.take S.numNonEmpty) 0 none with
    ⟨j, heq, hj⟩ | ⟨hnew, t, heq, ht⟩
  · have hmem : p ∈ S.slots := hslots ▸ List.mem_of_getElem? hj
    have hdecide : decide (p ∉ S.slots) = false := decide_eq_false (not_not.mpr hmem)
    rw [heq, hdecide]
    refine ⟨S, 0 + j, rfl, ⟨hlen, .inl h⟩, ?_, fun q hq => ?_⟩
    · rw [h.curArray, Nat.zero_add]
      exact getElem?_of_take hj
    · exact ⟨.inr, fun hor => hor.elim (fun heq => heq ▸ hmem) id⟩
  · have hdecide : decide (p ∉ S.slots) = true := decide_eq_true (hslots ▸ hnew)
    rw [heq, hdecide]
    rcases ht with ⟨rfl, hnone⟩ | ⟨j, rfl, hj⟩
    · by_cases hroom : S.numNonEmpty < S.curArraySize
      · have hsize := h.arraySize
        have htake := take_succ_set (show S.numNonEmpty < S.smallArray.length by omega) p
        have hone : toUnsigned (S.numNonEmpty + 1) = S.numNonEmpty + 1 :=
          toUnsigned_of_lt (by omega)
        simp only [if_pos hroom, hone]
        have hsmall : Small SmallSize { S with
            smallArray := S.smallArray.set S.numNonEmpty p
            numNonEmpty := S.numNonEmpty + 1 } := by
          refine ⟨h.heap, h.arraySize, show S.numNonEmpty + 1 ≤ SmallSize by omega, ?_, ?_, ?_⟩
          · intro q hq
            rw [htake] at hq
            rcases mem_append.mp hq with hq | hq
            · exact h.filled q hq
            · rw [mem_singleton.mp hq]
              exact hp.1
          · rw [htake]
            show S.numTombstones = List.countP (fun c => decide (c = tombstoneMarker)) _
            rw [countP_append, htombs]
            have : ¬ p = tombstoneMarker := hp.2
            simp [tombstonesIn, tombstoneCount, this]
          · rw [htake]
            exact h.distinct.append hnew
        refine ⟨_, _, rfl, ⟨by simpa using hlen, .inl hsmall⟩, ?_, fun q hq => ?_⟩
        · rw [hsmall.curArray]
          exact getElem?_set_self (by omega)
        · rw [hsmall.slots, hslots, htake, mem_append, mem_singleton]
          tauto
      · have hsize := h.arraySize
        simp only [if_neg hroom]
        obtain ⟨S', array', hmake, hready⟩ := h.makeRoom hlen hmax (by omega) (hslots ▸ hnone)
        obtain ⟨S'', b, hinsert, hinserted⟩ := hready.insert hlen hp hmake
        rw [hdecide] at hinsert
        exact ⟨S'', b, hinsert, hinserted⟩
    · have htomb := countP_set_add (fun c => decide (c = tombstoneMarker)) p hj
      simp only [decide_eq_true_eq, if_true, if_neg hp.2] at htomb
      change tombstonesIn _ + 1 = tombstonesIn (S.smallArray.take S.numNonEmpty) + 0 at htomb
      have hsmall := h.set hj hp.1 (fun _ => hnew)
        (show subUnsigned S.numTombstones 1 = _ from by
          rw [subUnsigned_of_le (by omega) (by omega)]
          omega)
      have hj' : S.smallArray[j]? = some tombstoneMarker := getElem?_of_take hj
      rw [Nat.zero_add]
      refine ⟨_, _, rfl, ⟨by simpa using hlen, .inl hsmall⟩, ?_, fun q hq => ?_⟩
      · rw [hsmall.curArray]
        exact getElem?_set_self_of_some p hj'
      · rw [hsmall.slots, hslots]
        rw [take_set]
        exact @mem_set_of_not_live _ _ ptrInfo id _ tombstoneMarker p _ q hj
          ptrInfo.not_live_tombstone hq

theorem WellFormed.insertImp (h : WellFormed SmallSize S) (hmax : SmallSize ≤ 32)
    (hroom : S.isSmall = true ∨ Room S) (hp : Live p) :
    ∃ S' b, SmallPtrSet.insertImp S p = some (S', b, decide (p ∉ S.slots)) ∧
      Inserted SmallSize S S' p b := by
  rcases h.array with hs | ⟨array, hb⟩
  · exact hs.insertImp h.length hmax hp
  · have hbig := isSmall_of_heap hb.heap
    have hroom' : Room S := hroom.resolve_left (by rw [hbig]; exact Bool.false_ne_true)
    obtain ⟨S', array', hmake, hready⟩ := hb.makeRoom hroom'
    obtain ⟨S'', b, hinsert, hinserted⟩ := hready.insert h.length hp hmake
    unfold SmallPtrSet.insertImp
    rw [hbig, if_neg Bool.false_ne_true]
    exact ⟨S'', b, hinsert, hinserted⟩

end Zapcc.ADT.SmallPtrSet
