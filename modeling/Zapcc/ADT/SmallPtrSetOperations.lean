import Zapcc.ADT.SmallPtrSetElements

/-!
# Clearing, copying, moving and swapping small pointer sets

The operations that change the representation of a set. The main results are
`WellFormed.copyFrom`, which leaves out the copy of a hash table over an inline array of the same
size (`Fills`), `WellFormed.moveFrom` and `WellFormed.swap`.
-/

namespace Zapcc.ADT.SmallPtrSet

open MathExtras OpenAddressing TriangularProbe Option List

variable {S RHS : SmallPtrSet} {SmallSize : Nat} {array : List Ptr}

/-! ## Finding and erasing -/

theorem WellFormed.findImp (h : WellFormed SmallSize S) {p : Ptr} (hp : Live p) :
    (∃ i, SmallPtrSet.findImp S p = some (some i) ∧ S.slots[i]? = some p) ∨
      SmallPtrSet.findImp S p = some none ∧ p ∉ S.slots := by
  unfold SmallPtrSet.findImp
  rcases h.array with hs | ⟨array, hb⟩
  · rw [if_pos hs.isSmall, hs.slots]
    cases hfind : (S.smallArray.take S.numNonEmpty).findIdx? (fun Value => decide (Value = p)) with
    | none =>
      refine .inr ⟨rfl, fun hmem => ?_⟩
      simpa using findIdx?_eq_none_iff.mp hfind p hmem
    | some i =>
      obtain ⟨hi, heq, _⟩ := findIdx?_eq_some_iff_getElem.mp hfind
      refine .inl ⟨i, rfl, ?_⟩
      rw [getElem?_eq_getElem hi, of_decide_eq_true heq]
  · rw [isSmall_of_heap hb.heap, if_neg Bool.false_ne_true, curArray_of_heap hb.heap, hb.slots]
    rcases hb.find hp with ⟨i, heq, hi⟩ | ⟨j, _, old, heq, hold, hdead, _, hnew⟩
    · rw [heq, bind_some, hi, map_some, if_pos rfl]
      exact .inl ⟨i, rfl, hi⟩
    · have hne : old ≠ p := fun heq => hdead (heq ▸ hp)
      rw [heq, bind_some, hold, map_some, if_neg hne]
      exact .inr ⟨rfl, hnew⟩

theorem Distinct.mem_set {l : List Ptr} (h : Distinct l) {i : Nat} {p q : Ptr} (hp : Live p)
    (hi : l[i]? = some p) (hq : Live q) :
    q ∈ l.set i tombstoneMarker ↔ q ∈ l ∧ q ≠ p := by
  constructor
  · intro hmem
    obtain ⟨i', hi'⟩ := List.mem_iff_getElem?.mp hmem
    rcases getElem?_set_some hi hi' with ⟨_, rfl⟩ | ⟨hne, hi'⟩
    · exact absurd hq ptrInfo.not_live_tombstone
    · exact ⟨List.mem_of_getElem? hi', fun heq => hne (h i i' p hi (heq ▸ hi') hp)⟩
  · rintro ⟨hmem, hne⟩
    obtain ⟨i', hi'⟩ := List.mem_iff_getElem?.mp hmem
    have hne' : i ≠ i' := by
      rintro rfl
      exact hne (Option.some.inj (hi'.symm.trans hi))
    exact List.mem_of_getElem? (by rw [getElem?_set_of_ne _ hne']; exact hi')

theorem counts_set_tombstone {l : List Ptr} {i : Nat} {p : Ptr} (hp : Live p)
    (hi : l[i]? = some p) :
    liveIn (l.set i tombstoneMarker) + 1 = liveIn l ∧
      tombstonesIn (l.set i tombstoneMarker) = tombstonesIn l + 1 := by
  have hlive := countP_set_add (fun c => decide (Live c)) tombstoneMarker hi
  have htomb := countP_set_add (fun c => decide (c = tombstoneMarker)) tombstoneMarker hi
  simp only [decide_eq_true_eq, if_pos hp, if_neg ptrInfo.not_live_tombstone] at hlive
  simp only [decide_eq_true_eq, if_true, if_neg hp.2] at htomb
  exact ⟨hlive, htomb⟩

theorem WellFormed.eraseImp (h : WellFormed SmallSize S) (hmax : SmallSize ≤ 32) {p : Ptr}
    (hp : Live p) :
    ∃ S', SmallPtrSet.eraseImp S p = some (S', decide (p ∈ S.slots)) ∧ WellFormed SmallSize S' ∧
      ∀ q, Live q → (q ∈ S'.slots ↔ q ∈ S.slots ∧ q ≠ p) := by
  unfold SmallPtrSet.eraseImp
  rcases h.findImp hp with ⟨i, heq, hi⟩ | ⟨heq, hmem⟩
  · have hmem : p ∈ S.slots := List.mem_of_getElem? hi
    rw [heq, bind_some, decide_eq_true hmem]
    have hmemSet := fun q (hq : Live q) => h.distinct.mem_set hp hi hq
    rcases h.array with hs | ⟨array, hb⟩
    · have hslots := hs.slots
      rw [hslots] at hi
      have hi' : S.smallArray[i]? = some p := getElem?_of_take hi
      have hcount := liveIn_add_tombstonesIn hs.filled
      rw [hs.length_slots h.length] at hcount
      have hle := hs.nonEmpty
      have htombs := hs.tombstones
      have htomb := (counts_set_tombstone hp hi).2
      have hset : S.setCurArray (S.smallArray.set i tombstoneMarker) =
          { S with smallArray := S.smallArray.set i tombstoneMarker } := by
        unfold setCurArray
        rw [if_pos hs.isSmall]
      have hsmall := hs.set (p := tombstoneMarker) hi ptrInfo.empty_ne_tombstone.symm
        (fun hl => absurd hl ptrInfo.not_live_tombstone)
        (show toUnsigned (S.numTombstones + 1) = _ from by
          rw [toUnsigned_of_lt (by omega)]
          omega)
      simp only [hs.curArray, hi', if_true, hset]
      refine ⟨_, rfl, ⟨by simpa using h.length, .inl hsmall⟩, fun q hq => ?_⟩
      rw [hsmall.slots, ← hmemSet q hq, hslots]
      rw [take_set]
    · have hslots := hb.slots
      rw [hslots] at hi
      obtain ⟨hlive, htomb⟩ := counts_set_tombstone hp hi
      obtain ⟨m, hm5, hm, hsize⟩ := hb.arraySize
      have hle : 2 ^ m ≤ 2 ^ 31 := Nat.pow_le_pow_right (by decide) hm
      have hcounts := hb.counts
      have hnonEmpty := hb.nonEmpty
      have htombs := hb.tombstones
      have hload := hb.load
      have hfew := hb.few
      have hbig : Big { S with
          heapArray := some (array.set i tombstoneMarker)
          numTombstones := toUnsigned (S.numTombstones + 1) } (array.set i tombstoneMarker) := by
        refine ⟨rfl, by simpa using hb.length, hb.arraySize, ?_, ?_, ?_, ?_, by omega⟩
        · exact @Probed.bury _ _ ptrInfo id i p tombstoneMarker _ hb.probed hi hp rfl
        · show S.numNonEmpty = _
          omega
        · show toUnsigned (S.numTombstones + 1) = _
          rw [toUnsigned_of_lt (by omega)]
          omega
        · show _ ≤ S.curArraySize * 3
          omega
      simp only [curArray_of_heap hb.heap, hi, if_true, setCurArray_of_heap hb.heap]
      refine ⟨_, rfl, ⟨h.length, .inr ⟨_, hbig⟩⟩, fun q hq => ?_⟩
      rw [hbig.slots, ← hmemSet q hq, hslots]
  · rw [heq, bind_some, decide_eq_false hmem]
    refine ⟨S, rfl, h, fun q _ => ⟨fun hq => ⟨hq, fun heq => hmem (heq ▸ hq)⟩, And.left⟩⟩

/-! ## Clearing -/

theorem big_replicate (S : SmallPtrSet) {m : Nat} (hm5 : 5 ≤ m) (hm : m ≤ 31) :
    Big { S with
      heapArray := some (replicate (2 ^ m) emptyMarker)
      curArraySize := 2 ^ m
      numNonEmpty := 0
      numTombstones := 0 } (replicate (2 ^ m) emptyMarker) := by
  have hall : ∀ q ∈ replicate (2 ^ m) emptyMarker, q = emptyMarker := fun q hq =>
    (mem_replicate.mp hq).2
  have hlive : liveIn (replicate (2 ^ m) emptyMarker) = 0 :=
    countP_eq_zero.mpr fun q hq => by
      simpa using fun hl : ptrInfo.Live q => hl.1 (hall q hq)
  have htomb : tombstonesIn (replicate (2 ^ m) emptyMarker) = 0 :=
    countP_eq_zero.mpr fun q hq => by
      simpa using fun ht : q = ptrInfo.tombstoneKey =>
        ptrInfo.empty_ne_tombstone ((hall q hq).symm.trans ht)
  refine ⟨rfl, length_replicate, ⟨m, hm5, hm, rfl⟩,
    probed_of_empty length_replicate hall, ?_, htomb.symm, ?_, ?_⟩
  · rw [hlive, htomb]
  · omega
  · omega

theorem not_mem_slots_of_replicate {n : Nat}
    (h : Big S (replicate n emptyMarker)) {q : Ptr} (hq : Live q) : q ∉ S.slots := by
  rw [h.slots]
  exact fun hmem => hq.1 (mem_replicate.mp hmem).2

theorem small_empty {S : SmallPtrSet} (hheap : S.heapArray = none)
    (hsize : S.curArraySize = SmallSize) (hn : S.numNonEmpty = 0) (ht : S.numTombstones = 0) :
    Small SmallSize S := by
  refine ⟨hheap, hsize, by omega, ?_, ?_, ?_⟩
  · rw [hn]
    exact fun p hp => absurd hp not_mem_nil
  · rw [hn, ht]
    rfl
  · rw [hn]
    exact fun i i' p hi => by simp at hi

theorem Small.not_mem_slots (h : Small SmallSize S) (hn : S.numNonEmpty = 0) (q : Ptr) :
    q ∉ S.slots := by
  rw [h.slots, hn]
  exact not_mem_nil

theorem WellFormed.clear (h : WellFormed SmallSize S) :
    WellFormed SmallSize (clear S) ∧ ∀ q, Live q → q ∉ (clear S).slots := by
  unfold SmallPtrSet.clear
  rcases h.array with hs | ⟨array, hb⟩
  · rw [if_pos hs.isSmall]
    have hsmall : Small SmallSize { S with numNonEmpty := 0, numTombstones := 0 } :=
      small_empty hs.heap hs.arraySize rfl rfl
    exact ⟨⟨h.length, .inl hsmall⟩, fun q _ => hsmall.not_mem_slots rfl q⟩
  · obtain ⟨m, hm5, hm, hsize⟩ := hb.arraySize
    have hle : 2 ^ m ≤ 2 ^ 31 := Nat.pow_le_pow_right (by decide) hm
    have hcount := hb.size_eq
    have hfew := hb.few
    have hfour : toUnsigned (S.size * 4) = S.size * 4 := toUnsigned_of_lt (by omega)
    rw [isSmall_of_heap hb.heap, if_neg Bool.false_ne_true, hfour]
    split_ifs with hshrink
    · obtain ⟨a, ha5, ha, hnew⟩ : ∃ a, 5 ≤ a ∧ a ≤ 31 ∧
          (if 16 < S.size then toUnsigned (2 ^ (log2_32_Ceil S.size + 1)) else 32) = 2 ^ a := by
        by_cases h16 : 16 < S.size
        · have hlog : log2_32_Ceil S.size ≤ 29 :=
            log2_32_Ceil_le (by omega) (show S.size ≤ 2 ^ 29 by omega) (by decide)
          have hlarge : 4 ≤ log2_32_Ceil S.size := by
            have hn := le_two_pow_log2_32_Ceil (show 0 < S.size by omega) (by omega)
            by_contra hcon
            have : 2 ^ log2_32_Ceil S.size ≤ 2 ^ 3 := Nat.pow_le_pow_right (by decide) (by omega)
            omega
          have hle30 : 2 ^ (log2_32_Ceil S.size + 1) ≤ 2 ^ 30 :=
            Nat.pow_le_pow_right (by decide) (by omega)
          exact ⟨log2_32_Ceil S.size + 1, by omega, by omega,
            by rw [if_pos h16, toUnsigned_of_lt (by omega)]⟩
        · exact ⟨5, by decide, by decide, if_neg h16⟩
      unfold shrinkAndClear
      simp only [hnew]
      have hbig := big_replicate S ha5 ha
      exact ⟨⟨h.length, .inr ⟨_, hbig⟩⟩, fun q hq => not_mem_slots_of_replicate hbig hq⟩
    · have hbig := big_replicate S hm5 hm
      rw [← hsize] at hbig
      exact ⟨⟨h.length, .inr ⟨_, hbig⟩⟩, fun q hq => not_mem_slots_of_replicate hbig hq⟩

/-! ## Copying and moving -/

theorem Small.copy (h : Small SmallSize RHS) (hlen : RHS.smallArray.length = SmallSize)
    (hlenS : S.smallArray.length = SmallSize) :
    Small SmallSize ⟨stdCopy (RHS.smallArray.take RHS.numNonEmpty) S.smallArray, none,
        RHS.curArraySize, RHS.numNonEmpty, RHS.numTombstones⟩ ∧
      (stdCopy (RHS.smallArray.take RHS.numNonEmpty) S.smallArray).length = SmallSize ∧
      (stdCopy (RHS.smallArray.take RHS.numNonEmpty) S.smallArray).take RHS.numNonEmpty =
        RHS.smallArray.take RHS.numNonEmpty := by
  have hslots := h.length_slots hlen
  have hle := h.nonEmpty
  have htake : (stdCopy (RHS.smallArray.take RHS.numNonEmpty) S.smallArray).take RHS.numNonEmpty =
      RHS.smallArray.take RHS.numNonEmpty := by
    unfold stdCopy
    rw [take_append_of_le_length (by omega), take_take, Nat.min_self]
  refine ⟨⟨rfl, h.arraySize, h.nonEmpty, ?_, ?_, ?_⟩, ?_, htake⟩
  · rw [htake]
    exact h.filled
  · show RHS.numTombstones = tombstonesIn (List.take RHS.numNonEmpty _)
    rw [htake]
    exact h.tombstones
  · rw [htake]
    exact h.distinct
  · unfold stdCopy
    rw [length_append, length_drop, hslots, hlenS]
    omega

theorem stdCopy_of_length {source target : List Ptr} (h : target.length ≤ source.length) :
    stdCopy source target = source := by
  unfold stdCopy
  rw [drop_eq_nil_of_le h, append_nil]

theorem Big.copy (h : Big RHS array) (smallArray : List Ptr) :
    Big { RHS with smallArray := smallArray } array :=
  ⟨h.heap, h.length, h.arraySize, h.probed, h.nonEmpty, h.tombstones, h.load, h.few⟩

/-- The copy gives a well-formed array: unless a hash table is copied over an inline array of the
same size, or its buckets that are not empty come first. -/
def Fills (S RHS : SmallPtrSet) : Prop :=
  ¬ (S.isSmall = true ∧ RHS.isSmall = false ∧ S.curArraySize = RHS.curArraySize) ∨
    ∀ p ∈ RHS.curArray.drop RHS.numNonEmpty, p = emptyMarker

instance (S RHS : SmallPtrSet) : Decidable (Fills S RHS) := inferInstanceAs (Decidable (_ ∨ _))

/-- The copy of a hash table over an inline array, when its buckets that are not empty come
first. -/
theorem Big.compact (h : Big RHS array) (hsize : RHS.curArraySize = SmallSize)
    (hrest : ∀ p ∈ array.drop RHS.numNonEmpty, p = emptyMarker) :
    Small SmallSize { RHS with smallArray := array, heapArray := none } ∧
      ∀ q, Live q → (q ∈ array.take RHS.numNonEmpty ↔ q ∈ array) := by
  have hcounts := h.counts
  have hlen := h.length
  have hsplit : ∀ f : Ptr → Bool, array.countP f =
      (array.take RHS.numNonEmpty).countP f + (array.drop RHS.numNonEmpty).countP f := fun f => by
    rw [← countP_append, take_append_drop]
  have hlive : (array.drop RHS.numNonEmpty).countP (fun p => decide (Live p)) = 0 :=
    countP_eq_zero.mpr fun q hq => by
      simpa using fun hl : ptrInfo.Live q => hl.1 (hrest q hq)
  have htomb : (array.drop RHS.numNonEmpty).countP (fun p => decide (p = tombstoneMarker)) = 0 :=
    countP_eq_zero.mpr fun q hq => by
      simpa using fun ht : q = ptrInfo.tombstoneKey =>
        ptrInfo.empty_ne_tombstone ((hrest q hq).symm.trans ht)
  have hliveTake : liveIn (array.take RHS.numNonEmpty) = liveIn array := by
    have := hsplit fun p => decide (Live p)
    rw [hlive] at this
    exact this.symm
  have htombTake : tombstonesIn (array.take RHS.numNonEmpty) = tombstonesIn array := by
    have := hsplit fun p => decide (p = tombstoneMarker)
    rw [htomb] at this
    exact this.symm
  refine ⟨⟨rfl, hsize, ?_, ?_, ?_, ?_⟩, fun q hq => ⟨mem_of_mem_take, fun hmem => ?_⟩⟩
  · show RHS.numNonEmpty ≤ SmallSize
    omega
  · have htake := counts_add ptrInfo id (array.take RHS.numNonEmpty)
    have hlenTake : (array.take RHS.numNonEmpty).length = RHS.numNonEmpty := by
      rw [length_take]
      omega
    have hnonEmpty := h.nonEmpty
    have hzero : emptyCount ptrInfo id (array.take RHS.numNonEmpty) = 0 := by
      change liveIn _ + tombstonesIn _ + emptyCount ptrInfo id _ = _ at htake
      omega
    intro p hp
    simpa using countP_eq_zero.mp hzero p hp
  · rw [htombTake]
    exact h.tombstones
  · intro i i' p hi hi' hp
    exact Probed.distinct_of h.probed i i' p (getElem?_of_take hi) (getElem?_of_take hi') hp
  · rw [← take_append_drop RHS.numNonEmpty array] at hmem
    rcases mem_append.mp hmem with hmem | hmem
    · exact hmem
    · exact absurd (hrest q hmem) hq.1

theorem WellFormed.copyFrom (h : WellFormed SmallSize S) (hRHS : WellFormed SmallSize RHS)
    (hfills : Fills S RHS) :
    WellFormed SmallSize (copyFrom S RHS) ∧
      ∀ q, Live q → (q ∈ (copyFrom S RHS).slots ↔ q ∈ RHS.slots) := by
  unfold SmallPtrSet.copyFrom
  rcases hRHS.array with hs | ⟨array, hb⟩
  · obtain ⟨hsmall, hlen, htake⟩ := hs.copy hRHS.length h.length
    have hcopy : copyHelper { S with heapArray := none } RHS =
        ⟨stdCopy (RHS.smallArray.take RHS.numNonEmpty) S.smallArray, none,
          RHS.curArraySize, RHS.numNonEmpty, RHS.numTombstones⟩ := by
      unfold copyHelper
      rw [hs.slots]
      rfl
    rw [if_pos hs.isSmall, hcopy]
    refine ⟨⟨hlen, .inl hsmall⟩, fun q _ => ?_⟩
    rw [hsmall.slots, hs.slots]
    rw [htake]
  · have hbig := hb.copy S.smallArray
    -- The array on the heap has the size of the other one, so that the copy covers it.
    have hheap : ∀ target : List Ptr, target.length = RHS.curArraySize →
        copyHelper { S with heapArray := some target } RHS =
          { RHS with smallArray := S.smallArray } := by
      intro target htarget
      have hlen := hb.length
      unfold copyHelper
      rw [hb.slots, setCurArray_of_heap rfl, curArray_of_heap rfl,
        stdCopy_of_length (by omega), ← hb.heap]
    have hdone : WellFormed SmallSize { RHS with smallArray := S.smallArray } ∧
        ∀ q, Live q → (q ∈ SmallPtrSet.slots { RHS with smallArray := S.smallArray } ↔
          q ∈ RHS.slots) := by
      refine ⟨⟨h.length, .inr ⟨array, hbig⟩⟩, fun q _ => ?_⟩
      rw [hbig.slots, hb.slots]
    rw [isSmall_of_heap hb.heap, if_neg Bool.false_ne_true]
    by_cases hsize : S.curArraySize = RHS.curArraySize
    · rw [if_neg (not_not.mpr hsize)]
      rcases h.array with hs | ⟨arrayS, hbS⟩
      · have hrest : ∀ p ∈ array.drop RHS.numNonEmpty, p = emptyMarker := by
          rcases hfills with hnot | hrest
          · exact absurd ⟨hs.isSmall, isSmall_of_heap hb.heap, hsize⟩ hnot
          · rwa [curArray_of_heap hb.heap] at hrest
        have hlen := hb.length
        have hlenS := h.length
        have harray := hs.arraySize
        obtain ⟨hsmall, hmem⟩ := hb.compact (hsize.symm.trans harray) hrest
        have hcopy : copyHelper S RHS = { RHS with smallArray := array, heapArray := none } := by
          unfold copyHelper setCurArray
          rw [if_pos hs.isSmall, hb.slots, hs.curArray, stdCopy_of_length (by omega), ← hs.heap]
        rw [hcopy]
        refine ⟨⟨show array.length = SmallSize by omega, .inl hsmall⟩, fun q hq => ?_⟩
        rw [hsmall.slots, hb.slots]
        exact hmem q hq
      · have hlenS := hbS.length
        have hcopy := hheap arrayS (by omega)
        rw [← hbS.heap] at hcopy
        rw [show copyHelper S RHS = _ from hcopy]
        exact hdone
    · rw [if_pos hsize]
      split_ifs
      · rw [hheap _ (by simp [malloc])]
        exact hdone
      · rw [hheap _ (by simp only [realloc, length_append, length_take, length_replicate]; omega)]
        exact hdone

theorem WellFormed.moveFrom (h : WellFormed SmallSize S) (hRHS : WellFormed SmallSize RHS) :
    WellFormed SmallSize (moveFrom SmallSize S RHS).1 ∧
      (moveFrom SmallSize S RHS).1.slots = RHS.slots ∧
      WellFormed SmallSize (moveFrom SmallSize S RHS).2 ∧
      ∀ q, q ∉ (moveFrom SmallSize S RHS).2.slots := by
  have hsource : Small SmallSize (SmallPtrSet.moveFrom SmallSize S RHS).2 :=
    small_empty rfl rfl rfl rfl
  have hleft : WellFormed SmallSize (SmallPtrSet.moveFrom SmallSize S RHS).1 ∧
      (SmallPtrSet.moveFrom SmallSize S RHS).1.slots = RHS.slots := by
    unfold SmallPtrSet.moveFrom
    rcases hRHS.array with hs | ⟨array, hb⟩
    · obtain ⟨hsmall, hlen, htake⟩ := hs.copy hRHS.length h.length
      simp only [hs.isSmall, if_true]
      refine ⟨⟨hlen, .inl hsmall⟩, ?_⟩
      rw [hsmall.slots, hs.slots]
      exact htake
    · have hbig := hb.copy S.smallArray
      simp only [isSmall_of_heap hb.heap, Bool.false_eq_true, if_false]
      refine ⟨⟨h.length, .inr ⟨array, hbig⟩⟩, ?_⟩
      exact hbig.slots.trans hb.slots.symm
  exact ⟨hleft.1, hleft.2, ⟨hRHS.length, .inl hsource⟩, fun q => hsource.not_mem_slots rfl q⟩

/-! ## Swapping -/

theorem swap_tail {L R : List Ptr} {n k : Nat} (hn : n ≤ L.length) (hk : k ≤ R.length)
    (hkn : k ≤ n) (hlen : L.length = R.length) :
    (stdCopy (L.take k) R).take k ++
        stdCopy (((stdCopy (R.take k) L).take n).drop k) ((stdCopy (L.take k) R).drop k) =
      stdCopy (L.take n) R := by
  have hLk : (L.take k).length = k := by rw [length_take]; omega
  have hRk : (R.take k).length = k := by rw [length_take]; omega
  have hLn : (L.take n).length = n := by rw [length_take]; omega
  have htail : ((stdCopy (R.take k) L).take n).drop k = (L.take n).drop k := by
    unfold stdCopy
    rw [hRk, drop_take, drop_take, drop_left' hRk]
  have hright : stdCopy (L.take k) R = L.take k ++ R.drop k := by
    unfold stdCopy
    rw [hLk]
  rw [htail, hright, take_left' hLk, drop_left' hLk]
  unfold stdCopy
  rw [drop_drop, length_drop, hLn, show k + (n - k) = n by omega, ← append_assoc]
  congr 1
  rw [show L.take k = (L.take n).take k by rw [take_take, Nat.min_eq_left hkn]]
  exact take_append_drop k _

theorem WellFormed.swap (h : WellFormed SmallSize S) (hRHS : WellFormed SmallSize RHS) :
    WellFormed SmallSize (swap S RHS).1 ∧ (swap S RHS).1.slots = RHS.slots ∧
      WellFormed SmallSize (swap S RHS).2 ∧ (swap S RHS).2.slots = S.slots := by
  unfold SmallPtrSet.swap
  rcases h.array with hs | ⟨array, hb⟩
  · obtain ⟨hsmall, hlen, htake⟩ := hs.copy h.length hRHS.length
    rcases hRHS.array with hsR | ⟨arrayR, hbR⟩
    · obtain ⟨hsmallR, hlenR, htakeR⟩ := hsR.copy hRHS.length h.length
      have hsize := hs.arraySize.trans hsR.arraySize.symm
      have hleft : ∀ result, result = stdCopy (RHS.smallArray.take RHS.numNonEmpty) S.smallArray →
          WellFormed SmallSize { S with
            smallArray := result
            numNonEmpty := RHS.numNonEmpty
            numTombstones := RHS.numTombstones } ∧
          SmallPtrSet.slots { S with
            smallArray := result
            numNonEmpty := RHS.numNonEmpty
            numTombstones := RHS.numTombstones } = RHS.slots := by
        rintro result rfl
        rw [← hs.heap, ← hsize] at hsmallR
        refine ⟨⟨hlenR, .inl hsmallR⟩, ?_⟩
        rw [hsmallR.slots, hsR.slots]
        exact htakeR
      have hright : ∀ result, result = stdCopy (S.smallArray.take S.numNonEmpty) RHS.smallArray →
          WellFormed SmallSize { RHS with
            smallArray := result
            numNonEmpty := S.numNonEmpty
            numTombstones := S.numTombstones } ∧
          SmallPtrSet.slots { RHS with
            smallArray := result
            numNonEmpty := S.numNonEmpty
            numTombstones := S.numTombstones } = S.slots := by
        rintro result rfl
        rw [← hsR.heap, hsize] at hsmall
        refine ⟨⟨hlen, .inl hsmall⟩, ?_⟩
        rw [hsmall.slots, hs.slots]
        exact htake
      have hn := hs.nonEmpty
      have hk := hsR.nonEmpty
      have hl := h.length
      have hr := hRHS.length
      simp only [hs.isSmall, hsR.isSmall, not_true_eq_false, false_and, and_false, if_false]
      split_ifs with hmin
      · have hk' : min S.numNonEmpty RHS.numNonEmpty = RHS.numNonEmpty := by omega
        rw [hk']
        have hL := hleft _ rfl
        have hR := hright _ (swap_tail (show S.numNonEmpty ≤ S.smallArray.length by omega)
          (show RHS.numNonEmpty ≤ RHS.smallArray.length by omega) (by omega) (by omega))
        exact ⟨hL.1, hL.2, hR.1, hR.2⟩
      · have hn' : min S.numNonEmpty RHS.numNonEmpty = S.numNonEmpty := by omega
        rw [hn']
        have hR := hright _ rfl
        have hL := hleft _ (swap_tail (show RHS.numNonEmpty ≤ RHS.smallArray.length by omega)
          (show S.numNonEmpty ≤ S.smallArray.length by omega) (by omega) (by omega))
        exact ⟨hL.1, hL.2, hR.1, hR.2⟩
    · have hbigR := hbR.copy S.smallArray
      have hsmall' := hsmall
      simp only [hs.isSmall, isSmall_of_heap hbR.heap, not_true_eq_false, false_and,
        Bool.false_eq_true, not_false_eq_true, and_self, if_true, if_false]
      refine ⟨⟨h.length, .inr ⟨arrayR, hbigR⟩⟩, hbigR.slots.trans hbR.slots.symm,
        ⟨hlen, .inl hsmall'⟩, ?_⟩
      rw [hsmall'.slots, hs.slots]
      exact htake
  · have hbig := hb.copy RHS.smallArray
    rcases hRHS.array with hsR | ⟨arrayR, hbR⟩
    · obtain ⟨hsmallR, hlenR, htakeR⟩ := hsR.copy hRHS.length h.length
      simp only [isSmall_of_heap hb.heap, hsR.isSmall, not_true_eq_false, Bool.false_eq_true,
        not_false_eq_true, true_and, and_true, if_true, if_false]
      refine ⟨⟨hlenR, .inl hsmallR⟩, ?_, ⟨hRHS.length, .inr ⟨array, hbig⟩⟩,
        hbig.slots.trans hb.slots.symm⟩
      rw [hsmallR.slots, hsR.slots]
      exact htakeR
    · have hbigR := hbR.copy S.smallArray
      simp only [isSmall_of_heap hb.heap, isSmall_of_heap hbR.heap, Bool.false_eq_true,
        not_false_eq_true, and_self, if_true]
      exact ⟨⟨h.length, .inr ⟨arrayR, hbigR⟩⟩, hbigR.slots.trans hbR.slots.symm,
        ⟨hRHS.length, .inr ⟨array, hbig⟩⟩, hbig.slots.trans hb.slots.symm⟩

end Zapcc.ADT.SmallPtrSet
