import Zapcc.Basic.SourceManager

/-!
# Looking file IDs up

`Contains` is the plain reading of the tables: an entry contains the offsets from its own to that
of the next one. The main result is `getFileID_eq`: in every run, and for every cache, the lookup
of an offset that some entry contains ends and returns the only such entry. The invariant `Tables`
says how the two tables are sorted, and each search keeps the range in which the entry is.
-/

namespace Zapcc.Basic.SourceManager

open MathExtras List Option Nat

variable {M : SourceManager} {x : Nat}

/-- The first offset after a local entry. -/
def localEnd (M : SourceManager) (i : Nat) : Nat :=
  (M.getLocalSLocEntry (i + 1)).elim M.nextLocalOffset SLocEntry.offset

/-- The first offset after a loaded entry, which the entry before it in the table has. -/
def loadedEnd (M : SourceManager) : Nat → Nat
  | 0 => maxLoadedOffset
  | i + 1 => (M.getLoadedSLocEntry i).elim 0 SLocEntry.offset

/-- A local entry contains an offset. -/
def LocalContains (M : SourceManager) (i x : Nat) : Prop :=
  ∃ E, M.getLocalSLocEntry i = some E ∧ E.offset ≤ x ∧ x < M.localEnd i

/-- A loaded entry contains an offset. -/
def LoadedContains (M : SourceManager) (i x : Nat) : Prop :=
  ∃ E, M.getLoadedSLocEntry i = some E ∧ E.offset ≤ x ∧ x < M.loadedEnd i

/-- The entry of a file ID contains an offset. -/
def Contains (M : SourceManager) (FID : Int) (x : Nat) : Prop :=
  (∃ i : Nat, FID = i ∧ M.LocalContains i x) ∨
    ∃ i : Nat, FID = -(i : Int) - 2 ∧ M.LoadedContains i x

/-- The file ID of an entry. -/
def ValidID (M : SourceManager) (FID : Int) : Prop :=
  (∃ i : Nat, FID = i ∧ i < M.localSLocEntryTable.length) ∨
    ∃ i : Nat, FID = -(i : Int) - 2 ∧ i < M.loadedSLocEntryTable.length

/-- A loaded table is full: it is sorted downwards from the highest offset, and its last entry
starts where the loaded offsets do. -/
structure FullyLoaded (loaded : List SLocEntry) (currentLoadedOffset : Nat) : Prop where
  sorted : loaded.Pairwise fun E E' => E'.offset < E.offset
  bound : ∀ E ∈ loaded, currentLoadedOffset ≤ E.offset ∧ E.offset < maxLoadedOffset
  start : currentLoadedOffset < maxLoadedOffset → ∃ E ∈ loaded, E.offset = currentLoadedOffset
  range : currentLoadedOffset ≤ maxLoadedOffset

/-- The invariant of the tables. -/
structure Tables (M : SourceManager) : Prop where
  first : ∃ E, M.getLocalSLocEntry 0 = some E ∧ E.offset = 0
  sorted : M.localSLocEntryTable.Pairwise fun E E' => E.offset < E'.offset
  bound : ∀ E ∈ M.localSLocEntryTable, E.offset < M.nextLocalOffset
  next : M.nextLocalOffset ≤ M.currentLoadedOffset
  loaded : FullyLoaded M.loadedSLocEntryTable M.currentLoadedOffset

/-! ## The order of the entries -/

theorem Tables.local_lt (h : Tables M) {i j : Nat} {E E' : SLocEntry} (hij : i < j)
    (hi : M.getLocalSLocEntry i = some E) (hj : M.getLocalSLocEntry j = some E') :
    E.offset < E'.offset := by
  obtain ⟨hi', rfl⟩ := List.getElem?_eq_some_iff.mp hi
  obtain ⟨hj', rfl⟩ := List.getElem?_eq_some_iff.mp hj
  exact pairwise_iff_getElem.mp h.sorted i j hi' hj' hij

theorem Tables.loaded_lt (h : Tables M) {i j : Nat} {E E' : SLocEntry} (hij : i < j)
    (hi : M.getLoadedSLocEntry i = some E) (hj : M.getLoadedSLocEntry j = some E') :
    E'.offset < E.offset := by
  obtain ⟨hi', rfl⟩ := List.getElem?_eq_some_iff.mp hi
  obtain ⟨hj', rfl⟩ := List.getElem?_eq_some_iff.mp hj
  exact pairwise_iff_getElem.mp h.loaded.sorted i j hi' hj' hij

variable {i : Nat} {E : SLocEntry}

theorem Tables.local_bound (h : Tables M)
    (hi : M.getLocalSLocEntry i = some E) : E.offset < M.nextLocalOffset :=
  h.bound E (mem_of_getElem? hi)

theorem Tables.loaded_bound (h : Tables M)
    (hi : M.getLoadedSLocEntry i = some E) :
    M.currentLoadedOffset ≤ E.offset ∧ E.offset < maxLoadedOffset :=
  h.loaded.bound E (mem_of_getElem? hi)

theorem exists_getLocal (hi : i < M.localSLocEntryTable.length) :
    ∃ E, M.getLocalSLocEntry i = some E := ⟨_, getElem?_eq_getElem hi⟩

theorem exists_getLoaded (hi : i < M.loadedSLocEntryTable.length) :
    ∃ E, M.getLoadedSLocEntry i = some E := ⟨_, getElem?_eq_getElem hi⟩

theorem localEnd_of_some (h : M.getLocalSLocEntry (i + 1) = some E) :
    M.localEnd i = E.offset := by
  unfold localEnd
  rw [h]
  rfl

theorem localEnd_of_last (h : M.localSLocEntryTable.length ≤ i + 1) :
    M.localEnd i = M.nextLocalOffset := by
  unfold localEnd getLocalSLocEntry
  rw [getElem?_eq_none h]
  rfl

theorem loadedEnd_of_some (h : M.getLoadedSLocEntry i = some E) :
    M.loadedEnd (i + 1) = E.offset := by
  show (M.getLoadedSLocEntry i).elim 0 SLocEntry.offset = E.offset
  rw [h]
  rfl

theorem Tables.localEnd_le (h : Tables M) (i : Nat) : M.localEnd i ≤ M.nextLocalOffset := by
  unfold localEnd
  cases hE : M.getLocalSLocEntry (i + 1) with
  | none => exact Nat.le_refl _
  | some E => exact (h.local_bound hE).le

theorem Tables.localEnd_le_offset (h : Tables M) {i j : Nat} (hij : i < j)
    (hj : M.getLocalSLocEntry j = some E) : M.localEnd i ≤ E.offset := by
  have hlen : j < M.localSLocEntryTable.length := (List.getElem?_eq_some_iff.mp hj).1
  obtain ⟨E', hE'⟩ := exists_getLocal (M := M) (i := i + 1) (by omega)
  rw [localEnd_of_some hE']
  rcases Nat.eq_or_lt_of_le (succ_le_of_lt hij) with rfl | hlt
  · exact (congrArg SLocEntry.offset (some.inj (hE'.symm.trans hj))).le
  · exact (h.local_lt hlt hE' hj).le

theorem Tables.loadedEnd_le_offset (h : Tables M) {i j : Nat} (hij : i < j)
    (hi : M.getLoadedSLocEntry i = some E) {E' : SLocEntry}
    (hj : M.getLoadedSLocEntry j = some E') : M.loadedEnd j ≤ E.offset := by
  have hlen : j < M.loadedSLocEntryTable.length := (List.getElem?_eq_some_iff.mp hj).1
  obtain ⟨j, rfl⟩ := Nat.exists_eq_add_of_le' (show 1 ≤ j by omega)
  obtain ⟨F, hF⟩ := exists_getLoaded (M := M) (i := j) (by omega)
  rw [loadedEnd_of_some hF]
  rcases Nat.eq_or_lt_of_le (le_of_lt_succ hij) with rfl | hlt
  · exact (congrArg SLocEntry.offset (some.inj (hF.symm.trans hi))).le
  · exact (h.loaded_lt hlt hi hF).le

/-! ## One entry contains an offset -/

theorem Tables.localContains_unique (h : Tables M) {i j : Nat} (hi : M.LocalContains i x)
    (hj : M.LocalContains j x) : i = j := by
  obtain ⟨E, hE, hle, hlt⟩ := hi
  obtain ⟨E', hE', hle', hlt'⟩ := hj
  rcases Nat.lt_trichotomy i j with hij | hij | hij
  · have := h.localEnd_le_offset hij hE'
    omega
  · exact hij
  · have := h.localEnd_le_offset hij hE
    omega

theorem Tables.loadedContains_unique (h : Tables M) {i j : Nat} (hi : M.LoadedContains i x)
    (hj : M.LoadedContains j x) : i = j := by
  obtain ⟨E, hE, hle, hlt⟩ := hi
  obtain ⟨E', hE', hle', hlt'⟩ := hj
  rcases Nat.lt_trichotomy i j with hij | hij | hij
  · have := h.loadedEnd_le_offset hij hE hE'
    omega
  · exact hij
  · have := h.loadedEnd_le_offset hij hE' hE
    omega

theorem Tables.contains_unique (h : Tables M) {FID FID' : Int} (hi : M.Contains FID x)
    (hj : M.Contains FID' x) : FID = FID' := by
  have hsplit : ∀ {i j}, M.LocalContains i x → M.LoadedContains j x → False := by
    rintro i j ⟨_, _, _, hlt⟩ ⟨E', hE', hle', _⟩
    have := h.localEnd_le i
    have := (h.loaded_bound hE').1
    have := h.next
    omega
  rcases hi with ⟨i, rfl, hi⟩ | ⟨i, rfl, hi⟩
  · rcases hj with ⟨j, rfl, hj⟩ | ⟨j, rfl, hj⟩
    · rw [h.localContains_unique hi hj]
    · exact (hsplit hi hj).elim
  · rcases hj with ⟨j, rfl, hj⟩ | ⟨j, rfl, hj⟩
    · exact (hsplit hj hi).elim
    · rw [h.loadedContains_unique hi hj]

/-! ## The test of one entry -/

theorem isOffset_local (hi : i < M.localSLocEntryTable.length) :
    ∃ b, M.isOffsetInFileID i x = some b ∧ (b = true ↔ M.LocalContains i x) := by
  obtain ⟨E, hE⟩ := exists_getLocal hi
  have hget : M.getSLocEntry i = some E := by
    cases i with
    | zero => exact hE
    | succ i =>
      exact hE
  have hiff : ∀ {b : Prop}, (b ↔ x < M.localEnd i) → ¬ x < E.offset →
      (b ↔ M.LocalContains i x) := by
    intro b hb hle
    rw [hb]
    exact ⟨fun hlt => ⟨E, hE, by omega, hlt⟩, fun ⟨_, _, _, hlt⟩ => hlt⟩
  unfold isOffsetInFileID
  rw [hget, bind_some, if_neg (show ¬ (i : Int) = -2 by omega)]
  split_ifs with hbefore hlast
  · refine ⟨false, rfl, by simp, fun ⟨E', hE', hle, _⟩ => ?_⟩
    rw [hE] at hE'
    have := congrArg SLocEntry.offset (some.inj hE')
    omega
  · refine ⟨_, rfl, ?_⟩
    rw [decide_eq_true_eq]
    exact hiff (by rw [localEnd_of_last (by omega)]) hbefore
  · obtain ⟨E', hE'⟩ := exists_getLocal (M := M) (i := i + 1) (by omega)
    have hnext : M.getSLocEntryByID ((i : Int) + 1) = some E' := by
      exact hE'
    rw [hnext, map_some]
    refine ⟨_, rfl, ?_⟩
    rw [decide_eq_true_eq]
    exact hiff (by rw [localEnd_of_some hE']) hbefore

theorem isOffset_loaded (hx : x < maxLoadedOffset)
    (hi : i < M.loadedSLocEntryTable.length) :
    ∃ b, M.isOffsetInFileID (-(i : Int) - 2) x = some b ∧ (b = true ↔ M.LoadedContains i x) := by
  obtain ⟨E, hE⟩ := exists_getLoaded hi
  have hbyID : ∀ j : Nat, M.getSLocEntryByID (-(j : Int) - 2) = M.getLoadedSLocEntry j := by
    intro j
    unfold getSLocEntryByID
    rw [if_neg (by omega), if_pos (by omega)]
    congr 1
    omega
  have hget : M.getSLocEntry (-(i : Int) - 2) = some E := by
    unfold getSLocEntry
    rw [if_neg (by omega), hbyID i, hE]
  have hiff : ∀ {b : Prop}, (b ↔ x < M.loadedEnd i) → ¬ x < E.offset →
      (b ↔ M.LoadedContains i x) := by
    intro b hb hle
    rw [hb]
    exact ⟨fun hlt => ⟨E, hE, by omega, hlt⟩, fun ⟨_, _, _, hlt⟩ => hlt⟩
  unfold isOffsetInFileID
  rw [hget, bind_some]
  split_ifs with hbefore hfirst hlast
  · refine ⟨false, rfl, by simp, fun ⟨E', hE', hle, _⟩ => ?_⟩
    rw [hE] at hE'
    have := congrArg SLocEntry.offset (some.inj hE')
    omega
  · obtain rfl : i = 0 := by omega
    exact ⟨true, rfl, hiff (by simpa [loadedEnd] using hx) hbefore⟩
  · omega
  · obtain ⟨i, rfl⟩ := Nat.exists_eq_add_of_le' (show 1 ≤ i by omega)
    obtain ⟨E', hE'⟩ := exists_getLoaded (M := M) (i := i) (by omega)
    have hnext : M.getSLocEntryByID (-((i + 1 : Nat) : Int) - 2 + 1) = some E' := by
      rw [show -((i + 1 : Nat) : Int) - 2 + 1 = -(i : Int) - 2 by omega, hbyID i, hE']
    rw [hnext, map_some]
    refine ⟨_, rfl, ?_⟩
    rw [decide_eq_true_eq]
    exact hiff (by rw [loadedEnd_of_some hE']) hbefore

/-! ## The local search -/

/-- Every local entry from an index on is after the offset. -/
def AfterFrom (M : SourceManager) (x i : Nat) : Prop :=
  ∀ j E, i ≤ j → M.getLocalSLocEntry j = some E → x < E.offset

theorem localContains_of_after (hx : x < M.nextLocalOffset)
    (hE : M.getLocalSLocEntry i = some E) (hle : E.offset ≤ x) (hafter : M.AfterFrom x (i + 1)) :
    M.LocalContains i x := by
  refine ⟨E, hE, hle, ?_⟩
  unfold localEnd
  cases hE' : M.getLocalSLocEntry (i + 1) with
  | none => exact hx
  | some E' => exact hafter (i + 1) E' (Nat.le_refl _) hE'

theorem Tables.scanLocal_eq (h : Tables M) (hx : x < M.nextLocalOffset) (probes : Nat) :
    ∀ I, I ≤ M.localSLocEntryTable.length → M.AfterFrom x I →
      (∃ i, M.scanLocal x probes I = some (.inl i) ∧ M.LocalContains i x) ∨
      ∃ G, M.scanLocal x probes I = some (.inr G) ∧ G ≤ M.localSLocEntryTable.length ∧
        M.AfterFrom x G := by
  induction probes with
  | zero => exact fun I hI hafter => .inr ⟨I, rfl, hI, hafter⟩
  | succ probes ih =>
    intro I hI hafter
    obtain ⟨E₀, hE₀, hzero⟩ := h.first
    cases I with
    | zero =>
      have := hafter 0 E₀ (Nat.le_refl _) hE₀
      omega
    | succ I =>
      obtain ⟨E, hE⟩ := exists_getLocal (M := M) (i := I) (by omega)
      unfold scanLocal
      rw [hE, bind_some]
      split_ifs with hle
      · exact .inl ⟨I, rfl, localContains_of_after hx hE hle hafter⟩
      · refine ih I (by omega) fun j E' hj hE' => ?_
        rcases Nat.eq_or_lt_of_le hj with rfl | hlt
        · rw [hE] at hE'
          have := congrArg SLocEntry.offset (some.inj hE')
          omega
        · exact hafter j E' hlt hE'

theorem Tables.searchLocal_eq (h : Tables M) (hx : x < M.nextLocalOffset) (rounds : Nat) :
    ∀ G L, G - L ≤ rounds → L < G → G ≤ M.localSLocEntryTable.length →
      (∃ E, M.getLocalSLocEntry L = some E ∧ E.offset ≤ x) → M.AfterFrom x G →
      ∃ i, M.searchLocal x rounds G L = some i ∧ M.LocalContains i x := by
  induction rounds with
  | zero => exact fun G L hrounds hlt => by omega
  | succ rounds ih =>
    intro G L hrounds hlt hlen ⟨EL, hEL, hle⟩ hafter
    obtain ⟨E, hE⟩ := exists_getLocal (M := M) (i := (G - L) / 2 + L) (by omega)
    unfold searchLocal
    simp only [hE, bind_some]
    split_ifs with habove
    · have hne : (G - L) / 2 + L ≠ L := by
        intro heq
        rw [heq, hEL] at hE
        have := congrArg SLocEntry.offset (some.inj hE)
        omega
      refine ih _ L (by omega) (by omega) (by omega) ⟨EL, hEL, hle⟩ fun j E' hj hE' => ?_
      rcases Nat.eq_or_lt_of_le hj with rfl | hj
      · rw [hE] at hE'
        have := congrArg SLocEntry.offset (some.inj hE')
        omega
      · have := h.local_lt hj hE hE'
        omega
    · obtain ⟨b, hb, hiff⟩ := isOffset_local (x := x)
        (show (G - L) / 2 + L < M.localSLocEntryTable.length by omega)
      rw [hb, bind_some]
      split_ifs with htrue
      · exact ⟨_, rfl, hiff.mp htrue⟩
      · have hne : (G - L) / 2 + L ≠ L := by
          intro heq
          refine htrue (hiff.mpr ?_)
          refine localContains_of_after hx hE (by omega) ?_
          rwa [show (G - L) / 2 + L + 1 = G by omega]
        exact ih G _ (by omega) (by omega) hlen ⟨E, hE, by omega⟩ hafter

theorem remember_tables {Res : Int} (h : Tables M) :
    Tables (M.remember Res E) := by
  unfold remember
  split_ifs
  · exact h
  · exact ⟨h.first, h.sorted, h.bound, h.next, h.loaded⟩

/-- What a lookup leaves: the same tables, and a valid cache. -/
structure Looked (M M' : SourceManager) : Prop where
  tables : Tables M'
  locals : M'.localSLocEntryTable = M.localSLocEntryTable
  loaded : M'.loadedSLocEntryTable = M.loadedSLocEntryTable
  next : M'.nextLocalOffset = M.nextLocalOffset
  current : M'.currentLoadedOffset = M.currentLoadedOffset
  cache : M'.ValidID M'.lastFileIDLookup

theorem Tables.looked (h : Tables M) (hcache : M.ValidID M.lastFileIDLookup) : Looked M M :=
  ⟨h, rfl, rfl, rfl, rfl, hcache⟩

theorem Tables.looked_remember (h : Tables M) (hcache : M.ValidID M.lastFileIDLookup)
    {Res : Int} (E : SLocEntry) (hvalid : M.ValidID Res) : Looked M (M.remember Res E) := by
  refine ⟨remember_tables h, ?_, ?_, ?_, ?_, ?_⟩ <;> unfold remember <;> split_ifs
  · rfl
  · rfl
  · rfl
  · rfl
  · rfl
  · rfl
  · rfl
  · rfl
  · exact hcache
  · exact hvalid

theorem Tables.getFileIDLocal_eq (h : Tables M) (hcache : M.ValidID M.lastFileIDLookup)
    (hx : x < M.nextLocalOffset) (hmiss : ¬ M.Contains M.lastFileIDLookup x) :
    ∃ (M' : SourceManager) (i : Nat), M.getFileIDLocal x = some (M', (i : Int)) ∧
      M.LocalContains i x ∧ Looked M M' := by
  obtain ⟨start, hstart, hlen, hafter⟩ : ∃ start, M.startLocal x = some start ∧
      start ≤ M.localSLocEntryTable.length ∧ M.AfterFrom x start := by
    have hend : M.AfterFrom x M.localSLocEntryTable.length := by
      intro j E hj hE
      have := (List.getElem?_eq_some_iff.mp hE).1
      omega
    unfold startLocal
    rcases hcache with ⟨i, hi, hlt⟩ | ⟨i, hi, hlt⟩
    · obtain ⟨E, hE⟩ := exists_getLocal hlt
      rw [hi, if_neg (by omega), Int.toNat_natCast, hE, map_some]
      split_ifs with hbelow
      · exact ⟨_, rfl, Nat.le_refl _, hend⟩
      · refine ⟨i, rfl, hlt.le, fun j E' hj hE' => ?_⟩
        -- The cached entry does not contain the offset, so that it does not start there.
        have hne : E.offset ≠ x := by
          intro heq
          refine hmiss (.inl ⟨i, hi, E, hE, heq.le, ?_⟩)
          unfold localEnd
          cases hE'' : M.getLocalSLocEntry (i + 1) with
          | none => exact hx
          | some E'' => exact heq ▸ h.local_lt (lt_succ_self i) hE hE''
        rcases Nat.eq_or_lt_of_le hj with rfl | hj
        · rw [hE] at hE'
          have := congrArg SLocEntry.offset (some.inj hE')
          omega
        · have := h.local_lt hj hE hE'
          omega
    · rw [hi, if_pos (by omega)]
      exact ⟨_, rfl, Nat.le_refl _, hend⟩
  have hfinish : ∀ i, M.LocalContains i x → ∃ E, M.getLocalSLocEntry i = some E ∧
      Looked M (M.remember i E) := by
    intro i hi
    obtain ⟨E, hE, _⟩ := hi
    exact ⟨E, hE, h.looked_remember hcache E (.inl ⟨i, rfl, (List.getElem?_eq_some_iff.mp hE).1⟩)⟩
  unfold getFileIDLocal
  rw [if_pos hx, hstart, bind_some]
  rcases h.scanLocal_eq hx 8 start hlen hafter with ⟨i, hscan, hi⟩ | ⟨G, hscan, hG, hafterG⟩
  · obtain ⟨E, hE, hlooked⟩ := hfinish i hi
    rw [hscan, bind_some, bind_some, hE, map_some]
    exact ⟨_, i, rfl, hi, hlooked⟩
  · obtain ⟨E₀, hE₀, hzero⟩ := h.first
    have hpos : 0 < G := by
      by_contra hcon
      have := hafterG 0 E₀ (by omega) hE₀
      omega
    obtain ⟨i, hsearch, hi⟩ := h.searchLocal_eq hx M.localSLocEntryTable.length G 0 (by omega)
      hpos hG ⟨E₀, hE₀, by omega⟩ hafterG
    obtain ⟨E, hE, hlooked⟩ := hfinish i hi
    rw [hscan, bind_some]
    simp only [hsearch, bind_some, hE, map_some]
    exact ⟨_, i, rfl, hi, hlooked⟩

/-! ## The loaded search -/

/-- Every loaded entry before an index is after the offset. -/
def AfterBefore (M : SourceManager) (x i : Nat) : Prop :=
  ∀ j E, j < i → M.getLoadedSLocEntry j = some E → x < E.offset

theorem loadedContains_of_after (hx : x < maxLoadedOffset)
    (hE : M.getLoadedSLocEntry i = some E) (hle : E.offset ≤ x) (hafter : M.AfterBefore x i) :
    M.LoadedContains i x := by
  refine ⟨E, hE, hle, ?_⟩
  cases i with
  | zero => exact hx
  | succ i =>
    have hlen := (List.getElem?_eq_some_iff.mp hE).1
    obtain ⟨E', hE'⟩ := exists_getLoaded (M := M) (i := i) (by omega)
    rw [loadedEnd_of_some hE']
    exact hafter i E' (lt_succ_self i) hE'

theorem Tables.exists_loadedContains (h : Tables M) (hx : x < maxLoadedOffset)
    (hhigh : M.currentLoadedOffset ≤ x) : ∃ a, M.LoadedContains a x := by
  obtain ⟨E, hmem, hstart⟩ := h.loaded.start (by omega)
  obtain ⟨i, hi⟩ := mem_iff_getElem?.mp hmem
  have hexists : ∃ i, ∃ E, M.getLoadedSLocEntry i = some E ∧ E.offset ≤ x :=
    ⟨i, E, hi, by omega⟩
  obtain ⟨E', hE', hle⟩ := Nat.find_spec hexists
  refine ⟨_, loadedContains_of_after hx hE' hle fun j E'' hj hE'' => ?_⟩
  have hmin := Nat.find_min hexists hj
  by_contra hcon
  exact hmin ⟨E'', hE'', by omega⟩

theorem AfterBefore.le {i a : Nat} (h : M.AfterBefore x i) (ha : M.LoadedContains a x) :
    i ≤ a := by
  obtain ⟨E, hE, hle, _⟩ := ha
  by_contra hcon
  have := h a E (by omega) hE
  omega

theorem scanLoaded_eq (hx : x < maxLoadedOffset) {a : Nat} (ha : M.LoadedContains a x)
    (probes : Nat) :
    ∀ I, M.AfterBefore x I → (∃ i, M.scanLoaded x probes I = some (.inl i) ∧ M.LoadedContains i x) ∨
      ∃ G, M.scanLoaded x probes I = some (.inr G) ∧ M.AfterBefore x G := by
  induction probes with
  | zero => exact fun I hafter => .inr ⟨I, rfl, hafter⟩
  | succ probes ih =>
    intro I hafter
    have hle := hafter.le ha
    obtain ⟨Ea, hEa, _⟩ := ha
    have hlen := (List.getElem?_eq_some_iff.mp hEa).1
    obtain ⟨E, hE⟩ := exists_getLoaded (M := M) (i := I) (by omega)
    unfold scanLoaded
    rw [hE, bind_some]
    split_ifs with hbelow
    · exact .inl ⟨I, rfl, loadedContains_of_after hx hE hbelow hafter⟩
    · refine ih (I + 1) fun j E' hj hE' => ?_
      rcases Nat.eq_or_lt_of_le (le_of_lt_succ hj) with rfl | hj
      · rw [hE] at hE'
        have := congrArg SLocEntry.offset (some.inj hE')
        omega
      · exact hafter j E' hj hE'

theorem Tables.searchLoaded_eq (h : Tables M) (hx : x < maxLoadedOffset)
    (hpos : 0 < M.currentLoadedOffset) {a : Nat} (ha : M.LoadedContains a x) (rounds : Nat) :
    ∀ G L, L - G ≤ rounds → G ≤ a → a < L → L ≤ M.loadedSLocEntryTable.length →
      M.searchLoaded x rounds G L = some (some a) := by
  induction rounds with
  | zero => exact fun G L hrounds hle hlt => by omega
  | succ rounds ih =>
    intro G L hrounds hle hlt hlen
    obtain ⟨Ea, hEa, haoff, haend⟩ := id ha
    obtain ⟨E, hE⟩ := exists_getLoaded (M := M) (i := (L - G) / 2 + G) (by omega)
    have hbound := (h.loaded_bound hE).1
    have hsame : (L - G) / 2 + G = a → E.offset = Ea.offset := by
      rintro hmid
      rw [hmid, hEa] at hE
      exact congrArg SLocEntry.offset (some.inj hE).symm
    unfold searchLoaded
    simp only [hE, bind_some]
    rw [if_neg (by omega)]
    by_cases habove : x < E.offset
    · have hne : ¬ G = (L - G) / 2 + G := by
        omega
      have hafter : (L - G) / 2 + G < a := by
        rcases Nat.lt_trichotomy ((L - G) / 2 + G) a with hmid | hmid | hmid
        · exact hmid
        · have := hsame hmid
          omega
        · have := h.loaded_lt hmid hEa hE
          omega
      rw [if_pos habove, if_neg hne]
      exact ih _ L (by omega) (by omega) hlt hlen
    · obtain ⟨b, hb, hiff⟩ := isOffset_loaded hx
        (show (L - G) / 2 + G < M.loadedSLocEntryTable.length by omega)
      rw [if_neg habove, hb, bind_some]
      by_cases htrue : b = true
      · rw [if_pos htrue, h.loadedContains_unique (hiff.mp htrue) ha]
      · have hbefore : a < (L - G) / 2 + G := by
          rcases Nat.lt_trichotomy ((L - G) / 2 + G) a with hmid | hmid | hmid
          · have := h.loadedEnd_le_offset hmid hE hEa
            omega
          · exact absurd (hiff.mpr (hmid ▸ ha)) htrue
          · exact hmid
        rw [if_neg htrue, if_neg (by omega)]
        exact ih G _ (by omega) hle hbefore (by omega)

theorem Tables.getFileIDLoaded_eq (h : Tables M) (hcache : M.ValidID M.lastFileIDLookup)
    (hx : x < maxLoadedOffset) (hhigh : M.currentLoadedOffset ≤ x)
    (hpos : 0 < M.currentLoadedOffset) (hmiss : ¬ M.Contains M.lastFileIDLookup x) :
    ∃ (M' : SourceManager) (i : Nat), M.getFileIDLoaded x = some (M', -(i : Int) - 2) ∧
      M.LoadedContains i x ∧ Looked M M' := by
  obtain ⟨a, ha⟩ := h.exists_loadedContains hx hhigh
  obtain ⟨start, hstart, hafter⟩ : ∃ start, M.startLoaded x = some start ∧
      M.AfterBefore x start := by
    have hzero : M.AfterBefore x 0 := fun j E hj => absurd hj (Nat.not_lt_zero j)
    unfold startLoaded
    rcases hcache with ⟨i, hi, hlt⟩ | ⟨i, hi, hlt⟩
    · rw [if_pos (by omega)]
      exact ⟨0, rfl, hzero⟩
    · obtain ⟨E, hE⟩ := exists_getLoaded hlt
      have hindex : (-M.lastFileIDLookup - 2).toNat = i := by omega
      have hget : M.getSLocEntryByID M.lastFileIDLookup = some E := by
        unfold getSLocEntryByID
        rw [if_neg (by omega), if_pos (by omega), hindex, hE]
      rw [if_neg (by omega), hget, map_some, hindex]
      split_ifs with hbelow
      · exact ⟨0, rfl, hzero⟩
      · refine ⟨i + 1, rfl, fun j E' hj hE' => ?_⟩
        -- The cached entry does not contain the offset, so that it does not start there.
        have hne : E.offset ≠ x := by
          intro heq
          refine hmiss (.inr ⟨i, hi, E, hE, heq.le, ?_⟩)
          cases i with
          | zero => exact hx
          | succ i =>
            obtain ⟨E'', hE''⟩ := exists_getLoaded (M := M) (i := i) (by omega)
            rw [loadedEnd_of_some hE'']
            exact heq ▸ h.loaded_lt (lt_succ_self i) hE'' hE
        rcases Nat.eq_or_lt_of_le (le_of_lt_succ hj) with rfl | hj
        · rw [hE] at hE'
          have := congrArg SLocEntry.offset (some.inj hE')
          omega
        · have := h.loaded_lt hj hE' hE
          omega
  have hfinish : ∀ i, M.LoadedContains i x → ∃ E, M.getLoadedSLocEntry i = some E ∧
      Looked M (M.remember (-(i : Int) - 2) E) := by
    intro i hi
    obtain ⟨E, hE, _⟩ := hi
    exact ⟨E, hE, h.looked_remember hcache E (.inr ⟨i, rfl, (List.getElem?_eq_some_iff.mp hE).1⟩)⟩
  unfold getFileIDLoaded
  rw [if_neg (by omega), hstart, bind_some]
  rcases scanLoaded_eq hx ha 8 start hafter with ⟨i, hscan, hi⟩ | ⟨G, hscan, hafterG⟩
  · obtain ⟨E, hE, hlooked⟩ := hfinish i hi
    simp only [hscan, bind_some, hE, map_some]
    exact ⟨_, i, rfl, hi, hlooked⟩
  · obtain ⟨E, hE, hlooked⟩ := hfinish a ha
    have hlen := (List.getElem?_eq_some_iff.mp hE).1
    have hsearch := h.searchLoaded_eq hx hpos ha M.loadedSLocEntryTable.length G
      M.loadedSLocEntryTable.length (by omega) (hafterG.le ha) hlen (Nat.le_refl _)
    simp only [hscan, bind_some, hsearch, hE, map_some]
    exact ⟨_, a, rfl, ha, hlooked⟩

/-! ## Lookups -/

/-- The tables with their cache. -/
structure Good (M : SourceManager) : Prop where
  tables : Tables M
  cache : M.ValidID M.lastFileIDLookup

theorem Good.isOffset_cache (h : Good M) (hx : x < maxLoadedOffset) :
    ∃ b, M.isOffsetInFileID M.lastFileIDLookup x = some b ∧
      (b = true ↔ M.Contains M.lastFileIDLookup x) := by
  rcases h.cache with ⟨i, hi, hlt⟩ | ⟨i, hi, hlt⟩
  · obtain ⟨b, hb, hiff⟩ := isOffset_local (x := x) hlt
    refine ⟨b, by rw [hi]; exact hb, hiff.trans ⟨fun hc => .inl ⟨i, hi, hc⟩, ?_⟩⟩
    rintro (⟨j, hj, hc⟩ | ⟨j, hj, _⟩)
    · obtain rfl : j = i := by omega
      exact hc
    · omega
  · obtain ⟨b, hb, hiff⟩ := isOffset_loaded hx hlt
    refine ⟨b, by rw [hi]; exact hb, hiff.trans ⟨fun hc => .inr ⟨i, hi, hc⟩, ?_⟩⟩
    rintro (⟨j, hj, _⟩ | ⟨j, hj, hc⟩)
    · omega
    · obtain rfl : j = i := by omega
      exact hc

theorem Tables.first_contains (h : Tables M) : M.LocalContains 0 0 := by
  obtain ⟨E, hE, hzero⟩ := h.first
  refine ⟨E, hE, hzero.le, ?_⟩
  unfold localEnd
  cases hE' : M.getLocalSLocEntry (0 + 1) with
  | none => exact hzero ▸ h.local_bound hE
  | some E' => exact hzero ▸ h.local_lt Nat.zero_lt_one hE hE'

theorem Good.getFileID (h : Good M) (hx : x < maxLoadedOffset) :
    ∃ (M' : SourceManager) (FID : Int), M.getFileID x = some (M', FID) ∧ Looked M M' ∧
      (x < M.nextLocalOffset ∨ M.currentLoadedOffset ≤ x → M.Contains FID x) := by
  have ht := h.tables
  have hpos : 0 < M.currentLoadedOffset := by
    obtain ⟨E, hE, _⟩ := ht.first
    have := ht.local_bound hE
    have := ht.next
    omega
  obtain ⟨b, hb, hiff⟩ := h.isOffset_cache hx
  unfold SourceManager.getFileID
  rw [hb, bind_some]
  by_cases htrue : b = true
  · rw [if_pos htrue]
    exact ⟨M, _, rfl, ht.looked h.cache, fun _ => hiff.mp htrue⟩
  · have hmiss := fun hc => htrue (hiff.mpr hc)
    rw [if_neg htrue]
    unfold getFileIDSlow
    by_cases hzero : x = 0
    · rw [if_pos hzero]
      refine ⟨M, 0, rfl, ht.looked h.cache, fun _ => .inl ⟨0, rfl, ?_⟩⟩
      rw [hzero]
      exact ht.first_contains
    · rw [if_neg hzero]
      by_cases hlocal : x < M.nextLocalOffset
      · obtain ⟨M', i, heq, hi, hlooked⟩ := ht.getFileIDLocal_eq h.cache hlocal hmiss
        rw [if_pos hlocal]
        exact ⟨M', i, heq, hlooked, fun _ => .inl ⟨i, rfl, hi⟩⟩
      · rw [if_neg hlocal]
        by_cases hhigh : M.currentLoadedOffset ≤ x
        · obtain ⟨M', i, heq, hi, hlooked⟩ :=
            ht.getFileIDLoaded_eq h.cache hx hhigh hpos hmiss
          exact ⟨M', _, heq, hlooked, fun _ => .inr ⟨i, rfl, hi⟩⟩
        · unfold getFileIDLoaded
          rw [if_pos (by omega)]
          exact ⟨M, 0, rfl, ht.looked h.cache, fun hor => by omega⟩

/-! ## Runs -/

theorem advance_some {Length next : Nat} (h : M.advance Length = some next) :
    M.nextLocalOffset < next ∧ next ≤ M.currentLoadedOffset := by
  unfold advance at h
  simp only at h
  split_ifs at h with hcond
  rw [← some.inj h]
  exact hcond

theorem Good.push (h : Good M) {next : Nat} {last : Int}
    (hE : E.offset = M.nextLocalOffset) (hnext : M.nextLocalOffset < next)
    (hle : next ≤ M.currentLoadedOffset)
    (hlast : last = M.lastFileIDLookup ∨ last = M.localSLocEntryTable.length) :
    Good { M with
      localSLocEntryTable := M.localSLocEntryTable ++ [E]
      nextLocalOffset := next
      lastFileIDLookup := last } := by
  have ht := h.tables
  obtain ⟨E₀, hE₀, hzero⟩ := ht.first
  refine ⟨⟨⟨E₀, ?_, hzero⟩, ?_, ?_, hle, ht.loaded⟩, ?_⟩
  · show (M.localSLocEntryTable ++ [E])[0]? = some E₀
    rw [getElem?_append_left (List.getElem?_eq_some_iff.mp hE₀).1]
    exact hE₀
  · refine pairwise_append.mpr ⟨ht.sorted, pairwise_singleton _ _, fun F hF F' hF' => ?_⟩
    rw [mem_singleton.mp hF', hE]
    exact ht.bound F hF
  · intro F hF
    rcases mem_append.mp hF with hF | hF
    · exact (ht.bound F hF).trans hnext
    · rw [mem_singleton.mp hF, hE]
      exact hnext
  · unfold ValidID
    simp only [length_append, length_singleton]
    rcases hlast with rfl | rfl
    · rcases h.cache with ⟨i, hi, hlt⟩ | hloaded
      · exact .inl ⟨i, hi, by omega⟩
      · exact .inr hloaded
    · exact .inl ⟨_, rfl, by omega⟩

theorem SLocEntry.get_some {Offset : Nat} {b : Bool}
    (h : SLocEntry.get Offset b = some E) : E.offset = Offset := by
  unfold SLocEntry.get at h
  split_ifs at h
  rw [← some.inj h]

variable {M' : SourceManager}

theorem Good.createFileID (h : Good M) {size : Nat} {FID : Int}
    (heq : M.createFileID size = some (M', FID)) : Good M' := by
  obtain ⟨E, hE, heq⟩ := bind_eq_some_iff.mp heq
  obtain ⟨next, hnext, heq⟩ := map_eq_some_iff.mp heq
  obtain ⟨rfl, _⟩ := Prod.mk.inj heq
  obtain ⟨hlt, hle⟩ := advance_some hnext
  exact h.push (SLocEntry.get_some hE) hlt hle (.inr rfl)

theorem Good.createExpansionLocImpl (h : Good M) {TokLength : Nat}
    {Loc : Nat} (heq : M.createExpansionLocImpl TokLength = some (M', Loc)) : Good M' := by
  obtain ⟨E, hE, heq⟩ := bind_eq_some_iff.mp heq
  obtain ⟨next, hnext, heq⟩ := map_eq_some_iff.mp heq
  obtain ⟨rfl, _⟩ := Prod.mk.inj heq
  obtain ⟨hlt, hle⟩ := advance_some hnext
  exact h.push (SLocEntry.get_some hE) hlt hle (.inl rfl)

theorem Looked.good (h : Looked M M') : Good M' := ⟨h.tables, h.cache⟩

theorem Good.step (h : Good M) {op : Op} (heq : M.step op = some M') :
    Good M' := by
  cases op with
  | createFileID size =>
    obtain ⟨⟨M₁, FID⟩, hcreate, rfl⟩ := map_eq_some_iff.mp heq
    exact h.createFileID hcreate
  | createExpansionLoc TokLength | createMacroArgExpansionLoc TokLength =>
    obtain ⟨⟨M₁, Loc⟩, hcreate, rfl⟩ := map_eq_some_iff.mp heq
    exact h.createExpansionLocImpl hcreate
  | getFileID SLocOffset =>
    obtain ⟨⟨M₁, FID⟩, hget, rfl⟩ := map_eq_some_iff.mp heq
    obtain ⟨M₂, FID₂, hget₂, hlooked, _⟩ := h.getFileID SLocOffset.isLt
    rw [hget] at hget₂
    obtain ⟨rfl, _⟩ := Prod.mk.inj (some.inj hget₂)
    exact hlooked.good

theorem Good.run (ops : List Op) : ∀ {M M' : SourceManager}, Good M → M.run ops = some M' →
    Good M' := by
  induction ops with
  | nil =>
    intro M M' h heq
    exact some.inj heq ▸ h
  | cons op ops ih =>
    intro M M' h heq
    obtain ⟨M₁, hstep, hrun⟩ := bind_eq_some_iff.mp heq
    exact ih (h.step hstep) hrun

theorem good_clear {loaded : List SLocEntry} {current : Nat} (h : FullyLoaded loaded current)
    (hclear : clearIDTables loaded current = some M) : Good M := by
  unfold clearIDTables createExpansionLoc at hclear
  obtain ⟨⟨M₁, Loc⟩, hcreate, rfl⟩ := map_eq_some_iff.mp hclear
  obtain ⟨E, hE, hpush⟩ := bind_eq_some_iff.mp hcreate
  obtain ⟨next, hnext, hpair⟩ := map_eq_some_iff.mp hpush
  obtain ⟨rfl, _⟩ := Prod.mk.inj hpair
  obtain ⟨hlt, hle⟩ := advance_some hnext
  have hzero : E.offset = 0 := SLocEntry.get_some hE
  refine ⟨⟨⟨E, rfl, hzero⟩, pairwise_singleton _ _, fun F hF => ?_, hle, h⟩,
    .inl ⟨0, rfl, Nat.zero_lt_one⟩⟩
  rw [mem_singleton.mp hF, hzero]
  exact hlt

/-- In every state that calls reach from cleared tables with any full loaded table, and for every
cache, the lookup of any offset ends inside the tables and changes only the cache. For an offset
of a local or of a loaded entry the result is the only entry that contains it. -/
theorem getFileID_eq {loaded : List SLocEntry} {currentLoadedOffset : Nat}
    (hloaded : FullyLoaded loaded currentLoadedOffset) {M₀ : SourceManager}
    (hclear : clearIDTables loaded currentLoadedOffset = some M₀) (ops : List Op)
    {M : SourceManager} (hrun : M₀.run ops = some M) (cache : Int)
    (hcache : cache = M.lastFileIDLookup ∨ M.ValidID cache) (x : Fin (2 ^ 31)) :
    ∃ (M' : SourceManager) (FID : Int),
      ({ M with lastFileIDLookup := cache } : SourceManager).getFileID x = some (M', FID) ∧
      { M' with lastFileIDLookup := M.lastFileIDLookup } = M ∧
      (x < M.nextLocalOffset ∨ M.currentLoadedOffset ≤ x →
        M.Contains FID x ∧ ∀ FID', M.Contains FID' x → FID' = FID) := by
  have hgood := Good.run ops (good_clear hloaded hclear) hrun
  have ht := hgood.tables
  have hvalid : M.ValidID cache := hcache.elim (fun heq => heq ▸ hgood.cache) id
  have hgood' : Good { M with lastFileIDLookup := cache } :=
    ⟨⟨ht.first, ht.sorted, ht.bound, ht.next, ht.loaded⟩, hvalid⟩
  obtain ⟨M', FID, heq, hlooked, hcontains⟩ := hgood'.getFileID x.isLt
  refine ⟨M', FID, heq, ?_, fun hx => ⟨hcontains hx, fun FID' hFID' =>
    ht.contains_unique hFID' (hcontains hx)⟩⟩
  obtain ⟨_, hlocals, hloaded', hnext, hcurrent, _⟩ := hlooked
  rw [hlocals, hloaded', hnext, hcurrent]

/-- Two loaded entries, of a file and of an expansion. -/
def twoLoaded : List SLocEntry := [⟨2 ^ 31 - 10, false⟩, ⟨2 ^ 31 - 20, true⟩]

/-- The tables after a file of 5 bytes and an expansion of a token of 3. -/
def twoLocal : SourceManager :=
  ⟨[⟨0, true⟩, ⟨2, false⟩, ⟨8, true⟩], twoLoaded, 12, 2 ^ 31 - 20, 1⟩

theorem getFileID_eq_twoLocal :
    ∃ (M' : SourceManager) (FID : Int),
      ({ twoLocal with lastFileIDLookup := -3 } : SourceManager).getFileID (2 ^ 31 - 5) =
        some (M', FID) ∧
      { M' with lastFileIDLookup := twoLocal.lastFileIDLookup } = twoLocal ∧
      (2 ^ 31 - 5 < twoLocal.nextLocalOffset ∨ twoLocal.currentLoadedOffset ≤ 2 ^ 31 - 5 →
        twoLocal.Contains FID (2 ^ 31 - 5) ∧
          ∀ FID', twoLocal.Contains FID' (2 ^ 31 - 5) → FID' = FID) :=
  getFileID_eq (⟨by decide, by decide, by decide, by decide⟩ : FullyLoaded twoLoaded (2 ^ 31 - 20))
    (show clearIDTables twoLoaded (2 ^ 31 - 20) =
      some ⟨[⟨0, true⟩], twoLoaded, 2, 2 ^ 31 - 20, 0⟩ by decide)
    [.createFileID 5, .createExpansionLoc 3, .getFileID ⟨4, by decide⟩]
    (show SourceManager.run _ _ = some twoLocal by decide) (-3) (.inr (.inr ⟨1, rfl, by decide⟩))
    ⟨2 ^ 31 - 5, by decide⟩

end Zapcc.Basic.SourceManager
