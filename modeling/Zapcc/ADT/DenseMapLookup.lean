import Zapcc.ADT.DenseMap

/-!
# Lookups in a dense map

The invariant of a dense map, `WellFormed`, and the map that it represents. The main results are
`WellFormed.lookup`, by which every lookup ends at the key or at a bucket to insert it into, and
`WellFormed.place`, by which writing there keeps the invariant.
-/

namespace Zapcc.ADT.DenseMap

open MathExtras OpenAddressing TriangularProbe

variable {KeyT ValueT : Type} [DecidableEq KeyT] {info : KeyInfo KeyT}

variable (info) in
/-- The invariant of a dense map. -/
structure WellFormed (M : DenseMap KeyT ValueT) : Prop where
  length : M.buckets.length = M.numBuckets
  bound : M.numBuckets ≤ 2 ^ 31
  entries : M.numEntries = liveCount info Bucket.first M.buckets
  tombstones : M.numTombstones = tombstoneCount info Bucket.first M.buckets
  probed : M.numBuckets = 0 ∨ Probed info Bucket.first M.buckets
  built : ∀ b ∈ M.buckets, info.Live b.first → ∃ v, b.second = some v

variable (info) in
def Represents (M : DenseMap KeyT ValueT) (f : KeyT → Option ValueT) : Prop :=
  ∀ k v, f k = some v ↔ info.Live k ∧ ⟨k, some v⟩ ∈ M.buckets

variable {M : DenseMap KeyT ValueT} {f : KeyT → Option ValueT}

theorem WellFormed.counts (h : WellFormed info M) :
    M.numEntries + M.numTombstones + emptyCount info Bucket.first M.buckets = M.numBuckets := by
  rw [h.entries, h.tombstones, counts_add, h.length]

theorem WellFormed.probed_of_ne (h : WellFormed info M) (hne : M.numBuckets ≠ 0) :
    Probed info Bucket.first M.buckets := h.probed.resolve_left hne

theorem WellFormed.numBuckets_eq (h : WellFormed info M) (hne : M.numBuckets ≠ 0) :
    ∃ m, m ≤ 31 ∧ M.numBuckets = 2 ^ m := by
  obtain ⟨m, hm⟩ := (h.probed_of_ne hne).size
  rw [h.length] at hm
  refine ⟨m, ?_, hm⟩
  exact (Nat.pow_le_pow_iff_right (by decide)).mp (hm ▸ h.bound)

theorem WellFormed.numEntries_lt (h : WellFormed info M) (hne : M.numBuckets ≠ 0) :
    M.numEntries + M.numTombstones < M.numBuckets := by
  have hpos := (emptyCount_pos info Bucket.first).mpr (h.probed_of_ne hne).vacant
  have := h.counts
  omega

theorem WellFormed.buckets_eq_nil (h : WellFormed info M) (hzero : M.numBuckets = 0) :
    M.buckets = [] := List.eq_nil_of_length_eq_zero (h.length.trans hzero)

/-! ## The search -/

theorem lookupLoop_eq {m stop : Nat} {k : KeyT} {b : Bucket KeyT ValueT}
    (hm : m ≤ 31) (hsize : M.numBuckets = 2 ^ m) (hlen : M.buckets.length = M.numBuckets)
    (hstop : stop < 2 ^ m) (hb : M.buckets[probe M.buckets.length (info.hash k) stop]? = some b)
    (hkey : b.first = k ∨ b.first = info.emptyKey)
    (hbefore : ∀ j < stop, ∀ b', M.buckets[probe M.buckets.length (info.hash k) j]? = some b' →
      b'.first ≠ k ∧ b'.first ≠ info.emptyKey) :
    ∀ (d j : Nat) (FoundTombstone : Option Nat) (probes : Nat), j + d = stop → d < probes →
      (∀ t, FoundTombstone = some t → ∃ j₀ < stop, t = probe M.buckets.length (info.hash k) j₀ ∧
        ∃ old, M.buckets[t]? = some old ∧ old.first = info.tombstoneKey) →
      (b.first = k ∧ lookupLoop info M k probes (probe M.buckets.length (info.hash k) j) (j + 1)
          FoundTombstone = some (true, some (probe M.buckets.length (info.hash k) stop))) ∨
      (b.first ≠ k ∧ b.first = info.emptyKey ∧ ∃ j₀ ≤ stop,
        lookupLoop info M k probes (probe M.buckets.length (info.hash k) j) (j + 1)
          FoundTombstone = some (false, some (probe M.buckets.length (info.hash k) j₀)) ∧
        ∃ old, M.buckets[probe M.buckets.length (info.hash k) j₀]? = some old ∧
          ¬ info.Live old.first) := by
  intro d
  induction d with
  | zero =>
    intro j FoundTombstone probes hj hprobes hfound
    obtain rfl : j = stop := by omega
    obtain ⟨probes, rfl⟩ := Nat.exists_eq_add_of_le' (show 1 ≤ probes by omega)
    unfold lookupLoop
    simp only [hb]
    by_cases hk : k = b.first
    · exact .inl ⟨hk.symm, if_pos hk⟩
    · have he : b.first = info.emptyKey := hkey.resolve_left (Ne.symm hk)
      rw [if_neg hk, if_pos he]
      refine .inr ⟨Ne.symm hk, he, ?_⟩
      cases FoundTombstone with
      | none => exact ⟨j, Nat.le_refl j, rfl, b, hb, fun hl => hl.1 he⟩
      | some t =>
        obtain ⟨j₀, hj₀, rfl, old, hold, htomb⟩ := hfound t rfl
        exact ⟨j₀, hj₀.le, rfl, old, hold, fun hl => hl.2 htomb⟩
  | succ d ih =>
    intro j FoundTombstone probes hj hprobes hfound
    obtain ⟨probes, rfl⟩ := Nat.exists_eq_add_of_le' (show 1 ≤ probes by omega)
    have hpos : 0 < M.buckets.length := by
      rw [hlen, hsize]
      exact Nat.two_pow_pos m
    obtain ⟨c, hc⟩ : ∃ c, M.buckets[probe M.buckets.length (info.hash k) j]? = some c :=
      ⟨_, List.getElem?_eq_getElem (probe_lt hpos _ _)⟩
    obtain ⟨hck, hce⟩ := hbefore j (by omega) c hc
    unfold lookupLoop
    simp only [hc]
    rw [if_neg (Ne.symm hck), if_neg hce]
    have hnext : toUnsigned (probe M.buckets.length (info.hash k) j + (j + 1)) &&&
        (M.numBuckets - 1) = probe M.buckets.length (info.hash k) (j + 1) := by
      rw [probe_succ, hlen, hsize, toUnsigned_and_mask (by omega)]
    have hle : 2 ^ m ≤ 2 ^ 31 := Nat.pow_le_pow_right (by decide) hm
    have hamt : toUnsigned (j + 1 + 1) = j + 1 + 1 := toUnsigned_of_lt (by omega)
    rw [hnext, hamt]
    refine ih (j + 1) _ probes (by omega) (by omega) fun t ht => ?_
    split_ifs at ht with htomb
    · obtain rfl := Option.some.inj ht
      exact ⟨j, by omega, rfl, c, hc, htomb.1⟩
    · exact hfound t ht

theorem WellFormed.lookup (h : WellFormed info M) (hne : M.numBuckets ≠ 0) {k : KeyT}
    (hk : info.Live k) :
    (∃ i b, lookupBucketFor info M k = some (true, some i) ∧ M.buckets[i]? = some b ∧ b.first = k) ∨
    (∃ j < M.buckets.length, ∃ old, lookupBucketFor info M k =
        some (false, some (probe M.buckets.length (info.hash k) j)) ∧
      M.buckets[probe M.buckets.length (info.hash k) j]? = some old ∧ ¬ info.Live old.first ∧
      Occupied info Bucket.first M.buckets k j ∧ ∀ b ∈ M.buckets, b.first ≠ k) := by
  obtain ⟨m, hm, hsize⟩ := h.numBuckets_eq hne
  have hprobed := h.probed_of_ne hne
  obtain ⟨stop, hstop, b, hb, hkey, hbefore⟩ := exists_stop hprobed k
  have hlt : stop < 2 ^ m := by rwa [h.length, hsize] at hstop
  have hhome : info.hash k &&& (M.numBuckets - 1) = probe M.buckets.length (info.hash k) 0 := by
    rw [probe_zero, h.length, hsize, Nat.and_two_pow_sub_one_eq_mod]
  have hloop := lookupLoop_eq hm hsize h.length hlt hb hkey hbefore stop 0 none M.numBuckets
    (by omega) (by rwa [h.length] at hstop) (fun t ht => by cases ht)
  unfold lookupBucketFor
  rw [if_neg hne, if_neg (not_not.mpr hk), hhome]
  rcases hloop with ⟨hfirst, heq⟩ | ⟨_, hempty, j₀, hj₀, heq, old, hold, hdead⟩
  · exact .inl ⟨_, b, heq, hb, hfirst⟩
  · refine .inr ⟨j₀, by omega, old, heq, hold, hdead, ?_, ?_⟩
    · intro j hj b' hb'
      exact (hbefore j (by omega) b' hb').2
    · exact not_mem_of_stop hprobed hk hb hempty hbefore

theorem WellFormed.exists_lookup (h : WellFormed info M) {k : KeyT} (hk : info.Live k) :
    ∃ found, lookupBucketFor info M k = some found := by
  by_cases hne : M.numBuckets = 0
  · exact ⟨_, if_pos hne⟩
  · rcases h.lookup hne hk with ⟨i, b, heq, _⟩ | ⟨j, _, old, heq, _⟩
    · exact ⟨_, heq⟩
    · exact ⟨_, heq⟩

/-! ## The write -/

theorem WellFormed.place (h : WellFormed info M) {j : Nat} {b old : Bucket KeyT ValueT} {v : ValueT}
    (hv : b.second = some v) (hlive : info.Live b.first) (hj : j < M.buckets.length)
    (hold : M.buckets[probe M.buckets.length (info.hash b.first) j]? = some old)
    (hdead : ¬ info.Live old.first) (hocc : Occupied info Bucket.first M.buckets b.first j)
    (hnew : ∀ c ∈ M.buckets, c.first ≠ b.first)
    (hroom : M.numEntries + 1 + M.numTombstones < M.numBuckets) :
    WellFormed info { M with
      buckets := M.buckets.set (probe M.buckets.length (info.hash b.first) j) b
      numEntries := toUnsigned (M.numEntries + 1)
      numTombstones :=
        if old.first = info.emptyKey then M.numTombstones
        else subUnsigned M.numTombstones 1 } := by
  have hne : M.numBuckets ≠ 0 := by omega
  have hbound := h.bound
  have hcounts := h.counts
  have htomb : ¬ old.first = info.emptyKey → old.first = info.tombstoneKey := fun he =>
    not_not.mp fun ht => hdead ⟨he, ht⟩
  have hlivecount := countP_set_add (fun c => decide (info.Live c.first)) b hold
  have htombcount := countP_set_add (fun c => decide (c.first = info.tombstoneKey)) b hold
  have hemptycount := countP_set_add (fun c => decide (c.first = info.emptyKey)) b hold
  simp only [decide_eq_true_eq, hdead, hlive, if_true, if_false] at hlivecount
  simp only [decide_eq_true_eq, if_neg hlive.2] at htombcount
  refine ⟨by simpa using h.length, h.bound, ?_, ?_, .inr ?_, ?_⟩
  · have hentries := h.entries
    show toUnsigned (M.numEntries + 1) = liveCount info Bucket.first (M.buckets.set _ b)
    unfold liveCount at hentries ⊢
    rw [toUnsigned_of_lt (by omega)]
    omega
  · have htombstones := h.tombstones
    show (if old.first = info.emptyKey then M.numTombstones
      else subUnsigned M.numTombstones 1) = tombstoneCount info Bucket.first (M.buckets.set _ b)
    unfold tombstoneCount at htombstones ⊢
    by_cases he : old.first = info.emptyKey
    · have hnt : old.first ≠ info.tombstoneKey := fun ht =>
        info.empty_ne_tombstone (he.symm.trans ht)
      rw [if_neg hnt] at htombcount
      rw [if_pos he]
      omega
    · rw [if_pos (htomb he)] at htombcount
      have hpos : 1 ≤ M.numTombstones := by omega
      rw [if_neg he, subUnsigned_of_le hpos (by omega)]
      omega
  · refine (h.probed_of_ne hne).fill hj hold hlive hocc hnew ?_
    refine (emptyCount_pos info Bucket.first).mp ?_
    unfold emptyCount at hcounts ⊢
    split_ifs at hemptycount <;> omega
  · intro c hc hlivec
    rcases (mem_set_of_not_live hold hdead hlivec).mp hc with rfl | hc
    · exact ⟨v, hv⟩
    · exact h.built c hc hlivec

end Zapcc.ADT.DenseMap
