import Zapcc.ADT.DenseMapGrowth

/-!
# Erasing, clearing and reserving

Each operation that does not insert keeps the invariant of a dense map: `WellFormed.bury`,
`WellFormed.clear` and `WellFormed.reserve`. The last also tells which load the reserved table
can take.
-/

namespace Zapcc.ADT.DenseMap

open MathExtras OpenAddressing TriangularProbe List

variable {KeyT ValueT : Type} {info : KeyInfo KeyT} {M : DenseMap KeyT ValueT}

/-- A table that grew or was never small: no constructor asked for one between 2 and 64. -/
def Roomy (M : DenseMap KeyT ValueT) : Prop := M.numBuckets ≤ 2 ∨ 64 ≤ M.numBuckets

theorem sparse_of_zero (h : M.numEntries = 0) : Sparse M :=
  ⟨fun hne => by omega, by omega⟩

variable [DecidableEq KeyT]

/-! ## Erasing -/

theorem WellFormed.bury (h : WellFormed info M) {i : Nat} {b old : Bucket KeyT ValueT}
    (hold : M.buckets[i]? = some old) (hlive : info.Live old.first)
    (hb : b.first = info.tombstoneKey) :
    WellFormed info { M with
      buckets := M.buckets.set i b
      numEntries := subUnsigned M.numEntries 1
      numTombstones := toUnsigned (M.numTombstones + 1) } ∧
    1 ≤ M.numEntries := by
  have hne : M.numBuckets ≠ 0 := by
    have := (List.getElem?_eq_some_iff.mp hold).1
    have := h.length
    omega
  have hbound := h.bound
  have hlt := h.numEntries_lt hne
  have hdead : ¬ info.Live b.first := fun hl => hl.2 hb
  have hlivecount := countP_set_add (fun c => decide (info.Live c.first)) b hold
  have htombcount := countP_set_add (fun c => decide (c.first = info.tombstoneKey)) b hold
  simp only [decide_eq_true_eq, hlive, if_true, if_neg hdead] at hlivecount
  simp only [decide_eq_true_eq, if_neg hlive.2, if_pos hb] at htombcount
  have hentries := h.entries
  have htombstones := h.tombstones
  unfold liveCount at hentries
  unfold tombstoneCount at htombstones
  have hpos : 1 ≤ M.numEntries := by omega
  refine ⟨⟨by simpa using h.length, h.bound, ?_, ?_, .inr ?_, ?_⟩, hpos⟩
  · show subUnsigned M.numEntries 1 = liveCount info Bucket.first (M.buckets.set i b)
    rw [subUnsigned_of_le hpos (by omega)]
    unfold liveCount
    omega
  · show toUnsigned (M.numTombstones + 1) = tombstoneCount info Bucket.first (M.buckets.set i b)
    rw [toUnsigned_of_lt (by omega)]
    unfold tombstoneCount
    omega
  · exact (h.probed_of_ne hne).bury hold hlive hb
  · intro c hc hl
    rcases ((h.probed_of_ne hne).mem_set_of_live hold hlive).mp hc with rfl | ⟨hc, _⟩
    · exact absurd hl hdead
    · exact h.built c hc hl

/-! ## New allocations -/

theorem getMinBucketToReserveForEntries_eq {N : Nat} (hN : N ≠ 0) :
    ∃ a, a ≤ 31 ∧ getMinBucketToReserveForEntries N = 2 ^ a ∧
      toUnsigned (N * 4) / 3 + 1 < 2 ^ a := by
  have hlt := toUnsigned_lt (N * 4)
  have hinner : toUnsigned (toUnsigned (N * 4) / 3 + 1) = toUnsigned (N * 4) / 3 + 1 :=
    toUnsigned_of_lt (by omega)
  have hsize : (toUnsigned (N * 4) / 3 + 1).size ≤ 31 := Nat.size_le.mpr (by omega)
  have hle : 2 ^ (toUnsigned (N * 4) / 3 + 1).size ≤ 2 ^ 31 :=
    Nat.pow_le_pow_right (by decide) hsize
  refine ⟨_, hsize, ?_, Nat.lt_size_self _⟩
  unfold getMinBucketToReserveForEntries
  rw [if_neg hN, hinner, nextPowerOf2_eq (by omega), toUnsigned_of_lt (by omega)]

theorem lt_getMinBucketToReserveForEntries {N : Nat} (hpos : N ≠ 0) (hN : N < 3 * 2 ^ 28) :
    N * 4 < getMinBucketToReserveForEntries N * 3 ∧ 2 < getMinBucketToReserveForEntries N := by
  obtain ⟨a, _, heq, hlt⟩ := getMinBucketToReserveForEntries_eq hpos
  rw [toUnsigned_of_lt (by omega)] at hlt
  omega

/-- What the allocation of an empty map gives. -/
structure Emptied (info : KeyInfo KeyT) (M' : DenseMap KeyT ValueT) : Prop where
  wellFormed : WellFormed info M'
  sparse : Sparse M'
  empty : ∀ c ∈ M'.buckets, ¬ info.Live c.first

theorem init_eq (M : DenseMap KeyT ValueT) (N : Nat) :
    ∃ M', init info M N = some M' ∧ Emptied info M' ∧ M'.numEntries = 0 ∧
      M'.numBuckets = getMinBucketToReserveForEntries N := by
  by_cases hzero : N = 0
  · subst hzero
    refine ⟨_, rfl, ⟨⟨rfl, Nat.zero_le _, rfl, rfl, .inl rfl, fun b hb => ?_⟩,
      sparse_of_zero rfl, fun c hc => ?_⟩, rfl, rfl⟩
    · exact absurd hb not_mem_nil
    · exact absurd hc not_mem_nil
  · obtain ⟨a, ha, heq, _⟩ := getMinBucketToReserveForEntries_eq hzero
    obtain ⟨M', hinit, h', hfresh, hempty⟩ :=
      @initEmpty_eq _ _ info (M.allocateBuckets (2 ^ a)) _ a ha rfl
    have hpos := Nat.two_pow_pos a
    unfold init
    simp only [heq, if_neg hpos.ne']
    exact ⟨M', hinit, ⟨h', sparse_of_zero hfresh.numEntries, fun c hc hl => hl.1 (hempty c hc)⟩,
      hfresh.numEntries, hfresh.numBuckets⟩

/-! ## Clearing -/

theorem clearLoop_eq (buckets : List (Bucket KeyT ValueT)) :
    ∀ n, liveCount info Bucket.first buckets ≤ n → n < 2 ^ 32 →
      (clearLoop info buckets n).1.length = buckets.length ∧
      (∀ c ∈ (clearLoop info buckets n).1, c.first = info.emptyKey) ∧
      (clearLoop info buckets n).2 = n - liveCount info Bucket.first buckets := by
  induction buckets with
  | nil => exact fun n _ _ => ⟨rfl, fun c hc => absurd hc not_mem_nil, rfl⟩
  | cons P rest ih =>
    intro n hle hlt
    unfold clearLoop
    by_cases he : P.first = info.emptyKey
    · have hcount : liveCount info Bucket.first (P :: rest) = liveCount info Bucket.first rest := by
        simp [liveCount, KeyInfo.Live, he]
      obtain ⟨hlen, hall, hn⟩ := ih n (by omega) hlt
      rw [if_pos he, hcount]
      exact ⟨by simp [hlen], by simpa [he] using hall, hn⟩
    · by_cases ht : P.first = info.tombstoneKey
      · have hcount : liveCount info Bucket.first (P :: rest) =
            liveCount info Bucket.first rest := by
          simp [liveCount, KeyInfo.Live, ht]
        obtain ⟨hlen, hall, hn⟩ := ih n (by omega) hlt
        rw [if_neg he, if_pos ht, hcount]
        exact ⟨by simp [hlen], by simpa using hall, hn⟩
      · have hcount : liveCount info Bucket.first (P :: rest) =
            liveCount info Bucket.first rest + 1 := by
          simp [liveCount, KeyInfo.Live, he, ht]
        have hsub : subUnsigned n 1 = n - 1 := subUnsigned_of_le (by omega) hlt
        obtain ⟨hlen, hall, hn⟩ := ih (n - 1) (by omega) (by omega)
        rw [if_neg he, if_neg ht, hsub]
        refine ⟨by simp [hlen], by simpa using hall, ?_⟩
        rw [hn]
        omega

theorem WellFormed.shrinkAndClear (h : WellFormed info M)
    (hfew : M.numEntries * 4 < M.numBuckets) (hmany : 64 < M.numBuckets) :
    ∃ M', DenseMap.shrinkAndClear info M = some M' ∧ Emptied info M' ∧ M'.numEntries = 0 ∧
      Roomy M' := by
  obtain ⟨m, hm, hsize⟩ := h.numBuckets_eq (by omega)
  have hm6 : 6 < m := by
    rw [hsize] at hmany
    exact (Nat.pow_lt_pow_iff_right (show 1 < 2 by decide)).mp hmany
  unfold DenseMap.shrinkAndClear
  by_cases hzero : M.numEntries = 0
  · obtain ⟨M', hinit, hempty, hentries, hbuckets⟩ := @init_eq _ _ info _ (M.destroyAll info) 0
    simp only [if_pos hzero]
    rw [if_neg (show ¬ 0 = (M.destroyAll info).numBuckets from fun heq => by
      have : M.numBuckets = 0 := heq.symm
      omega)]
    exact ⟨M', hinit, hempty, hentries, .inl (by rw [hbuckets]; decide)⟩
  · have hquarter : M.numEntries ≤ 2 ^ (m - 2) := by
      have hfour : 2 ^ m = 2 ^ (m - 2) * 4 := by
        rw [show (4 : Nat) = 2 ^ 2 from rfl, ← Nat.pow_add]
        congr 1
        omega
      omega
    have hlog := log2_32_Ceil_le (Nat.pos_of_ne_zero hzero) hquarter (by omega)
    obtain ⟨a, ha6, ham, hnew⟩ : ∃ a, 6 ≤ a ∧ a < m ∧
        max 64 (toUnsigned (2 ^ (log2_32_Ceil M.numEntries + 1))) = 2 ^ a := by
      have hle : 2 ^ (log2_32_Ceil M.numEntries + 1) ≤ 2 ^ 31 :=
        Nat.pow_le_pow_right (by decide) (by omega)
      rw [toUnsigned_of_lt (by omega)]
      refine ⟨max 6 (log2_32_Ceil M.numEntries + 1), by omega, by omega, ?_⟩
      rcases Nat.le_total 6 (log2_32_Ceil M.numEntries + 1) with hle6 | hle6
      · rw [max_eq_right hle6]
        exact max_eq_right (Nat.pow_le_pow_right (show 0 < 2 by decide) hle6 : 2 ^ 6 ≤ _)
      · rw [max_eq_left hle6]
        exact max_eq_left (Nat.pow_le_pow_right (show 0 < 2 by decide) hle6 : _ ≤ 2 ^ 6)
    have hne : ¬ 2 ^ a = (M.destroyAll info).numBuckets := by
      have hlt : 2 ^ a < 2 ^ m := Nat.pow_lt_pow_right (by decide) ham
      show ¬ 2 ^ a = M.numBuckets
      omega
    obtain ⟨M', hinit, hempty, hentries, hbuckets⟩ :=
      @init_eq _ _ info _ (M.destroyAll info) (2 ^ a)
    simp only [if_neg hzero, hnew]
    rw [if_neg hne]
    refine ⟨M', hinit, hempty, hentries, ?_⟩
    -- The constructor rounds up once more; the product of `2 ^ 30` wraps to two buckets.
    unfold Roomy
    rw [hbuckets]
    have h30 : 2 ^ a ≤ 2 ^ 30 := Nat.pow_le_pow_right (by decide) (by omega)
    by_cases htop : 2 ^ a = 2 ^ 30
    · rw [htop]
      exact .inl (by decide)
    · obtain ⟨c, _, hmin, hlt⟩ := getMinBucketToReserveForEntries_eq (N := 2 ^ a) (by omega)
      have hlt30 : 2 ^ a * 4 < 2 ^ 32 := by omega
      rw [toUnsigned_of_lt hlt30] at hlt
      exact .inr (by omega)

theorem WellFormed.clear (h : WellFormed info M) (hs : Sparse M) (isPodLike : Bool) :
    ∃ M', DenseMap.clear info isPodLike M = some M' ∧ Emptied info M' ∧ M'.numEntries = 0 ∧
      (Roomy M → Roomy M') := by
  have hfew := hs.few
  have hfour : toUnsigned (M.numEntries * 4) = M.numEntries * 4 := toUnsigned_of_lt (by omega)
  unfold DenseMap.clear
  rw [hfour]
  by_cases hnone : M.numEntries = 0 ∧ M.numTombstones = 0
  · rw [if_pos hnone]
    refine ⟨M, rfl, ⟨h, hs, fun c hc => ?_⟩, hnone.1, id⟩
    have hcount := h.entries
    rw [hnone.1] at hcount
    simpa using countP_eq_zero.mp hcount.symm c hc
  · rw [if_neg hnone]
    by_cases hshrink : M.numEntries * 4 < M.numBuckets ∧ 64 < M.numBuckets
    · rw [if_pos hshrink]
      obtain ⟨M', hclear, hempty, hentries, hroomy⟩ := h.shrinkAndClear hshrink.1 hshrink.2
      exact ⟨M', hclear, hempty, hentries, fun _ => hroomy⟩
    · have hne : M.numBuckets ≠ 0 := by
        intro hzero
        have := h.counts
        exact hnone (by omega)
      obtain ⟨m, hm, hsize⟩ := h.numBuckets_eq hne
      have hentries := h.entries
      have hempty : ∀ buckets : List (Bucket KeyT ValueT), buckets.length = M.numBuckets →
          (∀ c ∈ buckets, c.first = info.emptyKey) →
          Emptied info { M with buckets := buckets, numEntries := 0, numTombstones := 0 } :=
        fun buckets hlen hall => ⟨wellFormed_of_empty hm hsize hlen hall rfl rfl,
          sparse_of_zero rfl, fun c hc hl => hl.1 (hall c hc)⟩
      rw [if_neg hshrink]
      cases isPodLike with
      | true =>
        refine ⟨_, rfl, hempty _ (by simpa using h.length) fun c hc => ?_, rfl, id⟩
        obtain ⟨P, _, rfl⟩ := mem_map.mp hc
        rfl
      | false =>
        obtain ⟨hlen, hall, hn⟩ := @clearLoop_eq _ _ info _ M.buckets M.numEntries
          (by omega) (by omega)
        have hzero : (clearLoop info M.buckets M.numEntries).2 = 0 := by omega
        simp only [hzero, if_true, Bool.false_eq_true, if_false]
        exact ⟨_, rfl, hempty _ (hlen.trans h.length) hall, rfl, id⟩

/-! ## Reserving -/

theorem WellFormed.reserve (h : WellFormed info M) (hs : Sparse M) (N : Nat) :
    ∃ M', DenseMap.reserve info M N = some M' ∧ WellFormed info M' ∧ Sparse M' ∧
      SameEntries info M M' ∧ M'.numEntries = M.numEntries ∧
      getMinBucketToReserveForEntries N ≤ M'.numBuckets ∧ (Roomy M → Roomy M') := by
  unfold DenseMap.reserve
  by_cases hgrow : M.numBuckets < getMinBucketToReserveForEntries N
  · have hN : N ≠ 0 := by
      rintro rfl
      exact absurd hgrow (Nat.not_lt_zero _)
    obtain ⟨a, ha, hmin, _⟩ := getMinBucketToReserveForEntries_eq hN
    have hcounts := h.counts
    have hle : 2 ^ a ≤ 2 ^ max 6 a := Nat.pow_le_pow_right (by decide) (by omega)
    have h64 : 2 ^ 6 ≤ 2 ^ max 6 a := Nat.pow_le_pow_right (by decide) (by omega)
    rw [if_pos hgrow]
    rw [hmin] at hgrow ⊢
    obtain ⟨M', heq, h', hsame, hsize, hentries, _⟩ :=
      h.grow (show max 6 a ≤ 31 by omega) (growSize_eq ha) (by omega)
    refine ⟨M', heq, h', ⟨fun _ => ?_, ?_⟩, hsame, hentries, by omega, fun _ => .inr (by omega)⟩
    · by_cases hzero : M.numBuckets = 0
      · omega
      · have := hs.load hzero
        omega
    · have := hs.few
      omega
  · rw [if_neg hgrow]
    exact ⟨M, rfl, h, hs, fun c _ => Iff.rfl, rfl, by omega, id⟩

end Zapcc.ADT.DenseMap
