import Zapcc.ADT.DenseMapLookup

/-!
# Growth of a dense map

Rehashing keeps the entries of a dense map, and an insertion leaves one bucket empty. The main
results are `WellFormed.grow` and `WellFormed.insertIntoBucket`. The arithmetic of `unsigned` is
that of the numbers as long as no key is added to `2 ^ 31` buckets with `2 ^ 29 - 1` entries.
-/

namespace Zapcc.ADT.DenseMap

open MathExtras OpenAddressing TriangularProbe List

variable {KeyT ValueT : Type} {info : KeyInfo KeyT} {M : DenseMap KeyT ValueT}

variable (info) in
/-- Two maps with the same live buckets. -/
def SameEntries (M M' : DenseMap KeyT ValueT) : Prop :=
  ∀ c : Bucket KeyT ValueT, info.Live c.first → (c ∈ M'.buckets ↔ c ∈ M.buckets)

theorem SameEntries.represents {M M' : DenseMap KeyT ValueT} {f : KeyT → Option ValueT}
    (h : SameEntries info M M') (hrep : Represents info M f) : Represents info M' f := by
  intro k v
  rw [hrep k v]
  exact and_congr_right fun hk => (h ⟨k, some v⟩ hk).symm

variable [DecidableEq KeyT]

/-! ## New tables -/

/-- What the construction of empty buckets gives. -/
structure Fresh (M M' : DenseMap KeyT ValueT) : Prop where
  numBuckets : M'.numBuckets = M.numBuckets
  numEntries : M'.numEntries = 0
  numTombstones : M'.numTombstones = 0

theorem wellFormed_of_empty {m : Nat} (hm : m ≤ 31) (hsize : M.numBuckets = 2 ^ m)
    (hlen : M.buckets.length = M.numBuckets) (hall : ∀ c ∈ M.buckets, c.first = info.emptyKey)
    (hentries : M.numEntries = 0) (htombs : M.numTombstones = 0) : WellFormed info M := by
  refine ⟨hlen, ?_, ?_, ?_, .inr (probed_of_empty (hlen.trans hsize) hall), ?_⟩
  · rw [hsize]
    exact Nat.pow_le_pow_right (by decide) hm
  · rw [hentries]
    refine (countP_eq_zero.mpr fun c hc => ?_).symm
    simpa using fun hl : info.Live c.first => hl.1 (hall c hc)
  · rw [htombs]
    refine (countP_eq_zero.mpr fun c hc => ?_).symm
    simpa using fun ht : c.first = info.tombstoneKey =>
      info.empty_ne_tombstone ((hall c hc).symm.trans ht)
  · intro c hc hl
    exact absurd (hall c hc) hl.1

theorem initEmpty_eq {m : Nat} (hm : m ≤ 31) (hsize : M.numBuckets = 2 ^ m) :
    ∃ M', initEmpty info M = some M' ∧ WellFormed info M' ∧ Fresh M M' ∧
      ∀ c ∈ M'.buckets, c.first = info.emptyKey := by
  have hmask : M.numBuckets &&& (M.numBuckets - 1) = 0 := by
    rw [hsize, Nat.and_two_pow_sub_one_eq_mod, Nat.mod_self]
  have hall : ∀ c ∈ replicate M.numBuckets (⟨info.emptyKey, none⟩ : Bucket KeyT ValueT),
      c.first = info.emptyKey := fun c hc => by rw [(mem_replicate.mp hc).2]
  unfold initEmpty
  rw [if_pos hmask]
  exact ⟨_, rfl, wellFormed_of_empty hm hsize (by simp) hall rfl rfl, ⟨rfl, rfl, rfl⟩, hall⟩

/-! ## Moving the entries -/

theorem WellFormed.not_tombstone (h : WellFormed info M) (hzero : M.numTombstones = 0)
    {b : Bucket KeyT ValueT} (hb : b ∈ M.buckets) : b.first ≠ info.tombstoneKey := by
  have hcount := h.tombstones
  rw [hzero] at hcount
  simpa using countP_eq_zero.mp hcount.symm b hb

theorem WellFormed.pairwise (h : WellFormed info M) :
    M.buckets.Pairwise fun b c => info.Live b.first → b.first ≠ c.first := by
  rw [pairwise_iff_getElem]
  intro i j hi hj hij hlive heq
  have hne : M.numBuckets ≠ 0 := by
    have := h.length
    omega
  have hsame := (h.probed_of_ne hne).distinct i j _ _ (getElem?_eq_getElem hi)
    (getElem?_eq_getElem hj) hlive heq
  omega

theorem moveLoop_eq :
    ∀ (rest : List (Bucket KeyT ValueT)) (M : DenseMap KeyT ValueT), WellFormed info M →
      M.numTombstones = 0 → M.numBuckets ≠ 0 →
      M.numEntries + liveCount info Bucket.first rest < M.numBuckets →
      (rest.Pairwise fun b c => info.Live b.first → b.first ≠ c.first) →
      (∀ b ∈ rest, info.Live b.first → ∀ c ∈ M.buckets, c.first ≠ b.first) →
      (∀ b ∈ rest, info.Live b.first → ∃ v, b.second = some v) →
      ∃ M', moveLoop info M rest = some M' ∧ WellFormed info M' ∧
        M'.numBuckets = M.numBuckets ∧ M'.numTombstones = 0 ∧
        M'.numEntries = M.numEntries + liveCount info Bucket.first rest ∧
        ∀ c : Bucket KeyT ValueT, info.Live c.first →
          (c ∈ M'.buckets ↔ c ∈ M.buckets ∨ c ∈ rest) := by
  intro rest
  induction rest with
  | nil =>
    intro M h htomb _ _ _ _ _
    exact ⟨M, rfl, h, rfl, htomb, rfl, fun c _ => by simp⟩
  | cons b rest ih =>
    intro M h htomb hne hroom hpair hnew hbuilt
    obtain ⟨hhead, hpair⟩ := pairwise_cons.mp hpair
    have hbuilt' : ∀ c ∈ rest, info.Live c.first → ∃ v, c.second = some v := fun c hc =>
      hbuilt c (mem_cons_of_mem b hc)
    unfold moveLoop
    by_cases hlive : info.Live b.first
    · have hcount : liveCount info Bucket.first (b :: rest) =
          liveCount info Bucket.first rest + 1 := by
        simp [liveCount, hlive]
      have hnewb := hnew b List.mem_cons_self hlive
      rw [if_pos hlive]
      rcases h.lookup hne hlive with ⟨i, c, _, hc, hkey⟩ | ⟨j, hj, old, heq, hold, hdead, hocc, _⟩
      · exact absurd hkey (hnewb c (List.mem_of_getElem? hc))
      · obtain ⟨v, hv⟩ := hbuilt b List.mem_cons_self hlive
        have hempty : old.first = info.emptyKey := not_not.mp fun he =>
          hdead ⟨he, h.not_tombstone htomb (List.mem_of_getElem? hold)⟩
        have hplace := h.place hv hlive hj hold hdead hocc hnewb (by omega)
        rw [if_pos hempty] at hplace
        have hbound := h.bound
        have hentries : toUnsigned (M.numEntries + 1) = M.numEntries + 1 :=
          toUnsigned_of_lt (by omega)
        simp only [heq]
        have hrest := ih _ hplace htomb hne
        simp only [hentries] at hrest ⊢
        obtain ⟨M', hmove, h', hsize, htomb', hentries', hmem⟩ := hrest (by omega) hpair (by
          intro c hc hlivec d hd hkey
          rcases (mem_set_of_not_live hold hdead (hkey ▸ hlivec)).mp hd with rfl | hd
          · exact hhead c hc hlive hkey
          · exact hnew c (mem_cons_of_mem b hc) hlivec d hd hkey) hbuilt'
        refine ⟨M', hmove, h', hsize, htomb', by omega, fun c hlivec => ?_⟩
        rw [hmem c hlivec, mem_set_of_not_live hold hdead hlivec, mem_cons]
        tauto
    · have hcount : liveCount info Bucket.first (b :: rest) = liveCount info Bucket.first rest := by
        simp [liveCount, hlive]
      rw [hcount] at hroom ⊢
      rw [if_neg hlive]
      obtain ⟨M', hmove, h', hsize, htomb', hentries', hmem⟩ := ih M h htomb hne hroom hpair
        (fun c hc => hnew c (mem_cons_of_mem b hc)) hbuilt'
      refine ⟨M', hmove, h', hsize, htomb', hentries', fun c hlivec => ?_⟩
      rw [hmem c hlivec, mem_cons]
      have hcb : c ≠ b := fun heq => hlive (heq ▸ hlivec)
      tauto

theorem growSize_eq {m : Nat} (hm : m ≤ 31) :
    max 64 (toUnsigned (nextPowerOf2 (subUnsigned (2 ^ m) 1))) = 2 ^ max 6 m := by
  have hpos := Nat.two_pow_pos m
  have hle : 2 ^ m ≤ 2 ^ 31 := Nat.pow_le_pow_right (by decide) hm
  rw [subUnsigned_of_le hpos (by omega), nextPowerOf2_two_pow_sub_one (by omega),
    toUnsigned_of_lt (by omega)]
  rcases Nat.le_total 6 m with h6 | h6
  · rw [max_eq_right h6]
    exact max_eq_right (Nat.pow_le_pow_right (show 0 < 2 by decide) h6 : 2 ^ 6 ≤ 2 ^ m)
  · rw [max_eq_left h6]
    exact max_eq_left (Nat.pow_le_pow_right (show 0 < 2 by decide) h6 : 2 ^ m ≤ 2 ^ 6)

theorem WellFormed.grow (h : WellFormed info M) {AtLeast m : Nat} (hm : m ≤ 31)
    (hsize : max 64 (toUnsigned (nextPowerOf2 (subUnsigned AtLeast 1))) = 2 ^ m)
    (hroom : M.numEntries < 2 ^ m) :
    ∃ M', DenseMap.grow info M AtLeast = some M' ∧ WellFormed info M' ∧ SameEntries info M M' ∧
      M'.numBuckets = 2 ^ m ∧ M'.numEntries = M.numEntries ∧ M'.numTombstones = 0 := by
  obtain ⟨M₀, hinit, h₀, hfresh, hempty⟩ :=
    @initEmpty_eq _ _ info (M.allocateBuckets (2 ^ m)) _ m hm rfl
  have hsize₀ : M₀.numBuckets = 2 ^ m := hfresh.numBuckets
  have hlive₀ : ∀ c : Bucket KeyT ValueT, info.Live c.first → c ∉ M₀.buckets := fun c hl hc =>
    hl.1 (hempty c hc)
  unfold DenseMap.grow
  simp only [hsize]
  by_cases hnil : M.buckets = []
  · have hzero : M.numEntries = 0 := by rw [h.entries, hnil]; rfl
    rw [hnil]
    refine ⟨M₀, hinit, h₀, fun c hl => ?_, hsize₀, hfresh.numEntries.trans hzero.symm,
      hfresh.numTombstones⟩
    rw [hnil]
    exact iff_of_false (hlive₀ c hl) not_mem_nil
  · have hfalse : M.buckets.isEmpty = false := by simpa using hnil
    rw [hfalse]
    have hcount := h.entries
    obtain ⟨M', hmove, h', hsize', htomb, hentries, hmem⟩ := moveLoop_eq M.buckets M₀ h₀
      hfresh.numTombstones (by omega) (by rw [hfresh.numEntries]; omega) h.pairwise
      (fun b _ hl c hc heq => hl.1 (heq ▸ hempty c hc)) h.built
    refine ⟨M', ?_, h', fun c hl => ?_, hsize'.trans hsize₀, ?_, htomb⟩
    · show (initEmpty info (M.allocateBuckets (2 ^ m))).bind _ = some M'
      rw [hinit]
      exact hmove
    · rw [hmem c hl]
      exact or_iff_right (hlive₀ c hl)
    · rw [hentries, hfresh.numEntries, hcount]
      exact Nat.zero_add _

/-! ## Insertion -/

/-- The load of a table: less than 3/4 of its buckets, and never so many entries that four times
their number is out of range. -/
structure Sparse (M : DenseMap KeyT ValueT) : Prop where
  load : M.numBuckets ≠ 0 → M.numEntries * 4 < M.numBuckets * 3
  few : M.numEntries ≤ 3 * 2 ^ 28

/-- What `makeRoom` leaves to the write. -/
structure Room (M M₁ : DenseMap KeyT ValueT) : Prop where
  numEntries : M₁.numEntries = M.numEntries
  vacant : M₁.numEntries + 1 + M₁.numTombstones < M₁.numBuckets
  load : (M₁.numEntries + 1) * 4 < M₁.numBuckets * 3
  few : M₁.numEntries + 1 ≤ 3 * 2 ^ 28
  sized : M₁.numBuckets = M.numBuckets ∨ 64 ≤ M₁.numBuckets
  kept : M₁.numBuckets = M.numBuckets ∨ M.numBuckets * 3 ≤ (M.numEntries + 1) * 4 ∨
    M.numBuckets < 64

theorem WellFormed.growAndLookup (h : WellFormed info M) {k : KeyT} (hk : info.Live k)
    (hnew : ∀ c ∈ M.buckets, c.first ≠ k) {AtLeast m : Nat} (hm : m ≤ 31)
    (hsize : max 64 (toUnsigned (nextPowerOf2 (subUnsigned AtLeast 1))) = 2 ^ m)
    (hroom : M.numEntries < 2 ^ m) :
    ∃ M₁ b, DenseMap.growAndLookup info M AtLeast k = some (M₁, b) ∧ WellFormed info M₁ ∧
      SameEntries info M M₁ ∧ M₁.numBuckets = 2 ^ m ∧ M₁.numEntries = M.numEntries ∧
      M₁.numTombstones = 0 ∧ lookupBucketFor info M₁ k = some (false, b) := by
  obtain ⟨M₁, hgrow, h₁, hsame, hsize₁, hentries, htomb⟩ := h.grow hm hsize hroom
  have hne : M₁.numBuckets ≠ 0 := by
    omega
  unfold DenseMap.growAndLookup
  rw [hgrow, Option.bind_some]
  rcases h₁.lookup hne hk with ⟨i, b, _, hb, hkey⟩ | ⟨j, _, old, heq, _⟩
  · have hmem := (hsame b (hkey ▸ hk)).mp (List.mem_of_getElem? hb)
    exact absurd hkey (hnew b hmem)
  · rw [heq]
    exact ⟨M₁, _, rfl, h₁, hsame, hsize₁, hentries, htomb, heq⟩

theorem WellFormed.makeRoom (h : WellFormed info M) (hs : Sparse M) {k : KeyT}
    (hk : info.Live k) (hnew : ∀ c ∈ M.buckets, c.first ≠ k) {b : Option Nat}
    (hlookup : lookupBucketFor info M k = some (false, b))
    (hfits : M.numBuckets < 2 ^ 31 ∨ M.numEntries + 1 < 2 ^ 29) :
    ∃ M₁ b₁, DenseMap.makeRoom info M k b = some (M₁, b₁) ∧ WellFormed info M₁ ∧
      SameEntries info M M₁ ∧ Room M M₁ ∧ lookupBucketFor info M₁ k = some (false, b₁) := by
  have hfew := hs.few
  have hbound := h.bound
  have hnewEntries : toUnsigned (M.numEntries + 1) = M.numEntries + 1 :=
    toUnsigned_of_lt (by omega)
  have hfour : toUnsigned ((M.numEntries + 1) * 4) = (M.numEntries + 1) * 4 :=
    toUnsigned_of_lt (by omega)
  have hlarge : M.numBuckets = 0 ∨ ∃ m, m ≤ 31 ∧ M.numBuckets = 2 ^ m := by
    by_cases hne : M.numBuckets = 0
    · exact .inl hne
    · exact .inr (h.numBuckets_eq hne)
  unfold DenseMap.makeRoom
  simp only [hnewEntries, hfour]
  split_ifs with hload htombs
  · -- Only a table below `2 ^ 31` buckets can be here, as the product of a larger one wraps.
    have hsmall : M.numBuckets < 2 ^ 31 := by
      rcases hfits with hfits | hfits
      · exact hfits
      · by_contra hcon
        have heq : M.numBuckets = 2 ^ 31 := by omega
        rw [heq] at hload
        unfold toUnsigned at hload
        omega
    have hload' : M.numBuckets * 3 ≤ (M.numEntries + 1) * 4 := by
      rcases hlarge with hzero | ⟨m, hm, hsize⟩
      · omega
      · have hle : M.numBuckets ≤ 2 ^ 30 := by
          rw [hsize] at hsmall ⊢
          exact Nat.pow_le_pow_right (by decide)
            (Nat.lt_succ_iff.mp ((Nat.pow_lt_pow_iff_right (by decide)).mp hsmall))
        rwa [toUnsigned_of_lt (by omega)] at hload
    obtain ⟨m, hm, hsize, hdouble, h64⟩ : ∃ m, m ≤ 31 ∧ max 64 (toUnsigned (nextPowerOf2
        (subUnsigned (toUnsigned (M.numBuckets * 2)) 1))) = 2 ^ m ∧
        M.numBuckets * 2 ≤ 2 ^ m ∧ 2 ^ 6 ≤ 2 ^ m := by
      rcases hlarge with hzero | ⟨m, hm, hsize⟩
      · refine ⟨6, by decide, ?_, by omega, Nat.le_refl _⟩
        rw [hzero]
        decide
      · have hm30 : m + 1 ≤ 31 := by
          rw [hsize] at hsmall
          exact (Nat.pow_lt_pow_iff_right (by decide)).mp hsmall
        have hsucc : M.numBuckets * 2 = 2 ^ (m + 1) := by rw [hsize, Nat.pow_succ]
        have hle : 2 ^ (m + 1) ≤ 2 ^ 31 := Nat.pow_le_pow_right (by decide) hm30
        refine ⟨max 6 (m + 1), by omega, ?_, ?_, Nat.pow_le_pow_right (by decide) (by omega)⟩
        · rw [hsucc, toUnsigned_of_lt (show 2 ^ (m + 1) < 2 ^ 32 by omega), growSize_eq hm30]
        · rw [hsucc]
          exact Nat.pow_le_pow_right (by decide) (by omega)
    have hlt : M.numEntries ≤ M.numBuckets := by
      have := h.counts
      omega
    obtain ⟨M₁, b₁, hgrow, h₁, hsame, hsize₁, hentries, htomb, hlook⟩ :=
      h.growAndLookup hk hnew hm hsize (by omega)
    refine ⟨M₁, b₁, hgrow, h₁, hsame, ⟨hentries, by omega, ?_, ?_, .inr (by omega),
      .inr (.inl hload')⟩, hlook⟩
    · by_cases hzero : M.numBuckets = 0
      · omega
      · have := h.numEntries_lt hzero
        omega
    · by_cases hzero : M.numBuckets = 0
      · omega
      · have := hs.load hzero
        rcases hlarge with hzero' | ⟨m', hm', hsize'⟩
        · exact absurd hzero' hzero
        · have hle : M.numBuckets ≤ 2 ^ 30 := by
            rw [hsize'] at hsmall ⊢
            exact Nat.pow_le_pow_right (by decide)
              (Nat.lt_succ_iff.mp ((Nat.pow_lt_pow_iff_right (by decide)).mp hsmall))
          omega
  all_goals
    have hne : M.numBuckets ≠ 0 := by
      intro hzero
      rw [hzero] at hload
      exact hload (Nat.zero_le _)
    have hload' : (M.numEntries + 1) * 4 < M.numBuckets * 3 := by
      have hle : toUnsigned (M.numBuckets * 3) ≤ M.numBuckets * 3 := Nat.mod_le _ _
      omega
    have hfew' : M.numEntries + 1 ≤ 3 * 2 ^ 28 := by
      obtain ⟨m, hm, hsize⟩ := h.numBuckets_eq hne
      rcases hfits with hfits | hfits
      · have hle : M.numBuckets ≤ 2 ^ 30 := by
          rw [hsize] at hfits ⊢
          exact Nat.pow_le_pow_right (by decide)
            (Nat.lt_succ_iff.mp ((Nat.pow_lt_pow_iff_right (by decide)).mp hfits))
        omega
      · omega
    have hlt := h.numEntries_lt hne
    have hsum : toUnsigned (M.numEntries + 1 + M.numTombstones) =
        M.numEntries + 1 + M.numTombstones := toUnsigned_of_lt (by omega)
    rw [hsum, subUnsigned_of_le (by omega) (by omega)] at htombs
  · obtain ⟨m, hm, hsize⟩ := h.numBuckets_eq hne
    have hle : 2 ^ m ≤ 2 ^ max 6 m := Nat.pow_le_pow_right (by decide) (by omega)
    have h64 : 2 ^ 6 ≤ 2 ^ max 6 m := Nat.pow_le_pow_right (by decide) (by omega)
    obtain ⟨M₁, b₁, hgrow, h₁, hsame, hsize₁, hentries, htomb, hlook⟩ :=
      h.growAndLookup hk hnew (m := max 6 m) (by omega)
        (show max 64 (toUnsigned (nextPowerOf2 (subUnsigned M.numBuckets 1))) = _ by
          rw [hsize]; exact growSize_eq hm) (by omega)
    refine ⟨M₁, b₁, hgrow, h₁, hsame, ⟨hentries, by omega, by omega, by omega, .inr (by omega),
      ?_⟩, hlook⟩
    rcases Nat.lt_or_ge m 6 with h6 | h6
    · have : 2 ^ m < 2 ^ 6 := Nat.pow_lt_pow_right (by decide) h6
      exact .inr (.inr (by omega))
    · rw [max_eq_right h6] at hsize₁
      exact .inl (hsize₁.trans hsize.symm)
  · exact ⟨M, b, rfl, h, fun c _ => Iff.rfl,
      ⟨rfl, by omega, hload', hfew', .inl rfl, .inl rfl⟩, hlookup⟩

structure Inserted (info : KeyInfo KeyT) (M M' : DenseMap KeyT ValueT) (k : KeyT) (v : ValueT)
    (b : Nat) : Prop where
  wellFormed : WellFormed info M'
  sparse : Sparse M'
  bucket : M'.buckets[b]? = some ⟨k, some v⟩
  mem : ∀ c : Bucket KeyT ValueT, info.Live c.first →
    (c ∈ M'.buckets ↔ c = ⟨k, some v⟩ ∨ c ∈ M.buckets)
  numEntries : M'.numEntries = M.numEntries + 1
  sized : M'.numBuckets = M.numBuckets ∨ 64 ≤ M'.numBuckets
  kept : M'.numBuckets = M.numBuckets ∨ M.numBuckets * 3 ≤ (M.numEntries + 1) * 4 ∨
    M.numBuckets < 64

theorem WellFormed.insertIntoBucket (h : WellFormed info M) (hs : Sparse M) {k : KeyT}
    (hk : info.Live k) (hnew : ∀ c ∈ M.buckets, c.first ≠ k) (v : ValueT) {b : Option Nat}
    (hlookup : lookupBucketFor info M k = some (false, b))
    (hfits : M.numBuckets < 2 ^ 31 ∨ M.numEntries + 1 < 2 ^ 29) :
    ∃ M' b', DenseMap.insertIntoBucket info M b k v = some (M', b') ∧
      Inserted info M M' k v b' := by
  obtain ⟨M₁, b₁, hroom, h₁, hsame, hroom', hlook⟩ := h.makeRoom hs hk hnew hlookup hfits
  have hentries := hroom'.numEntries
  have hvacant := hroom'.vacant
  have hbound := h₁.bound
  have hnew₁ : ∀ c ∈ M₁.buckets, c.first ≠ k := fun c hc heq =>
    hnew c ((hsame c (heq ▸ hk)).mp hc) heq
  rcases h₁.lookup (by omega) hk with ⟨i, c, _, hc, hkey⟩ | ⟨j, hj, old, heq, hold, hdead, hocc, _⟩
  · exact absurd hkey (hnew₁ c (List.mem_of_getElem? hc))
  · obtain rfl : b₁ = _ := congrArg Prod.snd (Option.some.inj (hlook.symm.trans heq))
    have hplace := h₁.place (b := ⟨k, some v⟩) rfl hk hj hold hdead hocc hnew₁ hvacant
    unfold DenseMap.insertIntoBucket insertIntoBucketImpl
    rw [hroom]
    simp only [hold, Option.map_some]
    have hone : toUnsigned (M₁.numEntries + 1) = M₁.numEntries + 1 := toUnsigned_of_lt (by omega)
    refine ⟨_, _, rfl, hplace, ⟨fun _ => ?_, ?_⟩, ?_, fun c hl => ?_, ?_, hroom'.sized, hroom'.kept⟩
    · rw [hone]
      exact hroom'.load
    · rw [hone]
      exact hroom'.few
    · exact getElem?_set_self_of_some _ hold
    · rw [mem_set_of_not_live hold hdead hl, hsame c hl]
    · rw [hone, hentries]

end Zapcc.ADT.DenseMap
