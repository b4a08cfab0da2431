import Zapcc.Support.OnDiskHashTable

/-!
# The buckets of the generator

`Placed` says that every item is in the bucket of its hash and that the buckets know how long
they are. `insertItem`, and `resize` which re-threads every list, keep it and keep the items up to
their order. `contains_eq` is the answer of `contains`: the hash of a key that it finds fits an
`unsigned`.
-/

namespace Zapcc.OnDiskHashTable

open MathExtras List Nat

variable {Key External Data : Type} {I : Info Key External Data}

def Item.entry (E : Item I) : Key × Data := (E.Key, E.Data)

def items (Buckets : List (Bucket I)) : List (Item I) := Buckets.flatMap Bucket.Head

/-- The bucket of a hash in a table of some size. -/
def home (Size : Nat) (E : Item I) : Nat := E.Hash.toNat &&& (Size - 1)

/-- Every item is in the bucket of its hash. -/
structure Placed (Buckets : List (Bucket I)) : Prop where
  off : ∀ B ∈ Buckets, B.Off = 0
  length : ∀ B ∈ Buckets, B.Length = toUnsigned B.Head.length
  home : ∀ i B, Buckets[i]? = some B → ∀ E ∈ B.Head, home Buckets.length E = i

theorem home_lt {Size : Nat} (hpos : 0 < Size) (E : Item I) : home Size E < Size := by
  have hle : E.Hash.toNat &&& (Size - 1) ≤ Size - 1 := and_le_right
  unfold home
  omega

theorem placed_zero (Size : Nat) : Placed (replicate Size (Bucket.zero (I := I))) := by
  refine ⟨fun B hB => ?_, fun B hB => ?_, fun i B hB E hE => ?_⟩
  · rw [eq_of_mem_replicate hB]
    rfl
  · rw [eq_of_mem_replicate hB]
    rfl
  · rw [eq_of_mem_replicate (mem_of_getElem? hB)] at hE
    simp [Bucket.zero] at hE

theorem items_zero (Size : Nat) : items (replicate Size (Bucket.zero (I := I))) = [] := by
  unfold items
  rw [flatMap_eq_nil_iff]
  intro B hB
  rw [eq_of_mem_replicate hB]
  rfl

variable {Buckets : List (Bucket I)}

theorem items_set {i : Nat} {B B' : Bucket I} {E : Item I}
    (hB : Buckets[i]? = some B) (hB' : B'.Head = E :: B.Head) :
    (items (Buckets.set i B')).Perm (E :: items Buckets) := by
  induction Buckets generalizing i with
  | nil => simp at hB
  | cons C Buckets ih =>
    cases i with
    | zero =>
      obtain rfl : C = B := by simpa using hB
      simp [items, hB']
    | succ i =>
      have hrest := ih (i := i) (by simpa using hB)
      exact (hrest.append_left _).trans perm_middle

namespace Generator

theorem insertItem_spec (hpos : 0 < Buckets.length)
    (hplaced : Placed Buckets) (E : Item I) :
    ∃ Buckets', insertItem Buckets Buckets.length E = some Buckets' ∧
      Buckets'.length = Buckets.length ∧ Placed Buckets' ∧
      (items Buckets').Perm (E :: items Buckets) := by
  have hlt := home_lt hpos E
  have hB : Buckets[home Buckets.length E]? = some Buckets[home Buckets.length E] :=
    getElem?_eq_getElem hlt
  have hmem := getElem_mem hlt
  generalize Buckets[home Buckets.length E] = B at hB hmem
  refine ⟨_, by rw [insertItem]; unfold home at hB; rw [hB]; rfl, by simp, ?_, ?_⟩
  · refine ⟨fun C hC => ?_, fun C hC => ?_, fun i C hC F hF => ?_⟩
    · rcases mem_or_eq_of_mem_set hC with hC | rfl
      · exact hplaced.off C hC
      · exact hplaced.off B hmem
    · rcases mem_or_eq_of_mem_set hC with hC | rfl
      · exact hplaced.length C hC
      · show toUnsigned (B.Length + 1) = toUnsigned (B.Head.length + 1)
        rw [hplaced.length B hmem]
        unfold toUnsigned
        omega
    · rw [length_set]
      rw [getElem?_set] at hC
      split at hC
      · rename_i hi
        rw [if_pos (by unfold home at hlt; omega), Option.some.injEq] at hC
        subst hC
        rcases mem_cons.mp hF with rfl | hF
        · exact hi
        · rw [hplaced.home _ B hB F hF]
          exact hi
      · exact hplaced.home i C hC F hF
  · exact items_set hB rfl

theorem insertItems_spec (hpos : 0 < Buckets.length)
    (hplaced : Placed Buckets) (Es : List (Item I)) :
    ∃ Buckets', Es.foldlM (fun NewBuckets E => insertItem NewBuckets Buckets.length E) Buckets =
        some Buckets' ∧
      Buckets'.length = Buckets.length ∧ Placed Buckets' ∧
      (items Buckets').Perm (Es ++ items Buckets) := by
  induction Es generalizing Buckets with
  | nil => exact ⟨Buckets, rfl, rfl, hplaced, Perm.refl _⟩
  | cons E Es ih =>
    obtain ⟨Buckets₁, hinsert, hlength, hplaced₁, hitems⟩ := insertItem_spec hpos hplaced E
    obtain ⟨Buckets', hall, hlength', hplaced', hitems'⟩ := ih (hlength ▸ hpos) hplaced₁
    refine ⟨Buckets', ?_, hlength'.trans hlength, hplaced', ?_⟩
    · rw [foldlM_cons, hinsert]
      rw [hlength] at hall
      exact hall
    · exact hitems'.trans ((hitems.append_left Es).trans perm_middle)

theorem rethread_spec {NewBuckets : List (Bucket I)} (hpos : 0 < NewBuckets.length)
    (hplaced : Placed NewBuckets) (Old : List (Bucket I)) :
    ∃ Buckets', Old.foldlM (fun NewBuckets' (B : Bucket I) => B.Head.foldlM
        (fun NewBuckets' E => insertItem NewBuckets' NewBuckets.length E) NewBuckets')
        NewBuckets = some Buckets' ∧
      Buckets'.length = NewBuckets.length ∧ Placed Buckets' ∧
      (items Buckets').Perm (items Old ++ items NewBuckets) := by
  induction Old generalizing NewBuckets with
  | nil => exact ⟨NewBuckets, rfl, rfl, hplaced, Perm.refl _⟩
  | cons B Old ih =>
    obtain ⟨Buckets₁, hinsert, hlength, hplaced₁, hitems⟩ :=
      insertItems_spec hpos hplaced B.Head
    obtain ⟨Buckets', hall, hlength', hplaced', hitems'⟩ := ih (hlength ▸ hpos) hplaced₁
    refine ⟨Buckets', ?_, hlength'.trans hlength, hplaced', ?_⟩
    · rw [foldlM_cons, hinsert]
      rw [hlength] at hall
      exact hall
    · have hperm : (items Old ++ (B.Head ++ items NewBuckets)).Perm
          (B.Head ++ (items Old ++ items NewBuckets)) := by
        rw [← append_assoc, ← append_assoc]
        exact perm_append_comm.append_right _
      have hcons : items (B :: Old) = B.Head ++ items Old := rfl
      rw [hcons, append_assoc]
      exact hitems'.trans ((hitems.append_left _).trans hperm)

theorem resize_spec (g : Generator I) {NewSize : Nat} (hpos : 0 < NewSize) :
    ∃ g', g.resize NewSize = some g' ∧ g'.NumEntries = g.NumEntries ∧
      g'.NumBuckets = NewSize ∧ Placed g'.Buckets ∧
      (items g'.Buckets).Perm (items g.Buckets) := by
  have hlen : (replicate NewSize (Bucket.zero (I := I))).length = NewSize := by simp
  obtain ⟨Buckets', hall, hlength, hplaced, hitems⟩ :=
    rethread_spec (hlen.symm ▸ hpos) (placed_zero (I := I) NewSize) g.Buckets
  rw [hlen] at hall hlength
  rw [items_zero, append_nil] at hitems
  refine ⟨{ g with Buckets := Buckets' }, ?_, rfl, hlength, hplaced, hitems⟩
  unfold resize
  rw [hall]
  rfl

variable {g : Generator I} {entries : List (Key × Data)}

theorem resize_zero (hitems : items g.Buckets ≠ []) : g.resize 0 = none := by
  have hmove : ∀ Old : List (Bucket I), items Old ≠ [] →
      Old.foldlM (fun NewBuckets (B : Bucket I) =>
        B.Head.foldlM (fun NewBuckets E => insertItem NewBuckets 0 E) NewBuckets) [] = none := by
    intro Old hne
    induction Old with
    | nil => exact absurd rfl hne
    | cons B Old ih =>
      rw [foldlM_cons]
      cases hB : B.Head with
      | nil =>
        refine ih fun hnil => hne ?_
        show B.Head ++ items Old = []
        rw [hB, hnil, nil_append]
      | cons E rest => simp [insertItem]
  unfold resize
  rw [replicate_zero, hmove g.Buckets hitems]
  rfl

/-- The generator holds exactly some entries. The number of buckets is at most 64, or there is
an entry for at most eight thirds of a bucket. -/
structure Holds (g : Generator I) (entries : List (Key × Data)) : Prop where
  placed : Placed g.Buckets
  inserted : ((items g.Buckets).map Item.entry).Perm entries
  numEntries : g.NumEntries = entries.length
  numBuckets : ∃ k, g.NumBuckets = 2 ^ k
  few : g.NumBuckets ≤ 64 ∨ 3 * g.NumBuckets ≤ 8 * entries.length

theorem holds_empty : Holds (empty (I := I)) [] :=
  ⟨placed_zero 64, by simp only [empty, items_zero]; exact Perm.refl _, rfl,
    ⟨6, by simp [NumBuckets, empty]⟩, .inl (by simp [NumBuckets, empty])⟩

/-- So many entries that every one of them takes its hash and, but for a few, two more bytes. -/
def Few (I : Info Key External Data) (n : Nat) : Prop := 6 * n < 2 ^ (8 * I.offsetBytes) + 514

theorem Few.mono {n m : Nat} (h : Few I n) (hle : m ≤ n) : Few I m := by
  unfold Few at *
  omega

theorem Few.four_mul_lt {n : Nat} (h : Few I n) : 4 * n < 2 ^ (8 * I.offsetBytes) := by
  unfold Few at h
  rcases I.offsetBytes_eq with hw | hw
  · rw [hw] at h ⊢
    omega
  · rw [hw] at h ⊢
    omega

theorem Few.numBuckets_le {n k : Nat} (h : Few I n) (hfew : 2 ^ k ≤ 64 ∨ 3 * 2 ^ k ≤ 8 * n) :
    4 * 2 ^ k ≤ 2 ^ (8 * I.offsetBytes) := by
  unfold Few at h
  have hk : k + 2 ≤ 8 * I.offsetBytes := by
    by_contra hlt
    have hpow : 2 ^ (8 * I.offsetBytes - 1) ≤ 2 ^ k := Nat.pow_le_pow_right (by omega) (by omega)
    rcases I.offsetBytes_eq with hw | hw
    · rw [hw] at h hpow
      omega
    · rw [hw] at h hpow
      omega
  calc 4 * 2 ^ k = 2 ^ (k + 2) := by rw [Nat.pow_add]; omega
    _ ≤ 2 ^ (8 * I.offsetBytes) := Nat.pow_le_pow_right (by omega) hk

theorem grow_spec (h : Holds g entries)
    (hfew : Few I (entries.length + 1)) :
    ∃ g', g.grow = some g' ∧ Placed g'.Buckets ∧ ((items g'.Buckets).map Item.entry).Perm entries ∧
      g'.NumEntries = entries.length + 1 ∧ (∃ k, g'.NumBuckets = 2 ^ k) ∧
      (g'.NumBuckets ≤ 64 ∨ 3 * g'.NumBuckets ≤ 8 * (entries.length + 1)) := by
  obtain ⟨k, hk⟩ := h.numBuckets
  have hroom := hfew.numBuckets_le (k := k) (by
    rw [← hk]
    rcases h.few with hle | hle
    · exact .inl hle
    · exact .inr (by omega))
  have hpos := Nat.two_pow_pos k
  have hlt := hfew.four_mul_lt
  have hfour : I.toOffset (4 * (entries.length + 1)) = 4 * (entries.length + 1) :=
    mod_eq_of_lt hlt
  have hcount : I.toOffset (g.NumEntries + 1) = entries.length + 1 := by
    unfold Info.toOffset
    rw [h.numEntries]
    exact mod_eq_of_lt (by omega)
  have hthree : I.toOffset (3 * g.NumBuckets) = 3 * g.NumBuckets := by
    exact mod_eq_of_lt (by rw [hk]; omega)
  have htwo : I.toOffset (g.NumBuckets * 2) = g.NumBuckets * 2 := by
    exact mod_eq_of_lt (by rw [hk]; omega)
  unfold grow
  simp only [hcount]
  show ∃ g', (if I.toOffset (3 * g.NumBuckets) ≤ I.toOffset (4 * (entries.length + 1)) then
    resize ⟨entries.length + 1, g.Buckets⟩ (I.toOffset (g.NumBuckets * 2))
    else some ⟨entries.length + 1, g.Buckets⟩) = some g' ∧ _
  rw [hthree, hfour, htwo]
  by_cases hfull : 3 * g.NumBuckets ≤ 4 * (entries.length + 1)
  · obtain ⟨g', hresize, hentries, hbuckets, hplaced, hitems⟩ :=
      resize_spec ⟨entries.length + 1, g.Buckets⟩ (show 0 < g.NumBuckets * 2 by omega)
    rw [if_pos hfull]
    refine ⟨g', hresize, hplaced, (hitems.map _).trans h.inserted, hentries, ⟨k + 1, ?_⟩,
      .inr (by omega)⟩
    rw [hbuckets, hk, Nat.pow_succ]
  · rw [if_neg hfull]
    refine ⟨_, rfl, h.placed, h.inserted, rfl, ⟨k, hk⟩, ?_⟩
    rcases h.few with hle | hle
    · exact .inl hle
    · exact .inr (show 3 * g.NumBuckets ≤ 8 * (entries.length + 1) by omega)

theorem insert_spec (h : Holds g entries)
    (hfew : Few I (entries.length + 1)) (K : Key) (D : Data) :
    ∃ g', g.insert K D = some g' ∧ Holds g' (entries ++ [(K, D)]) := by
  obtain ⟨g₁, hgrow, hplaced, hentries, hnum, ⟨k, hk⟩, hle⟩ := grow_spec h hfew
  have hpos : 0 < g₁.Buckets.length := by
    have hpow := Nat.two_pow_pos k
    rw [← hk] at hpow
    exact hpow
  obtain ⟨Buckets', hinsert, hlength, hplaced', hitems⟩ :=
    insertItem_spec hpos hplaced (Item.create I K D)
  refine ⟨{ g₁ with Buckets := Buckets' }, ?_, hplaced', ?_, ?_, ⟨k, hlength.trans hk⟩, ?_⟩
  · unfold Generator.insert
    rw [hgrow, Option.bind_some, NumBuckets, hinsert]
    rfl
  · have hcons : ((items Buckets').map Item.entry).Perm ((K, D) :: entries) :=
      (hitems.map _).trans (hentries.cons _)
    exact hcons.trans (perm_append_singleton _ _).symm
  · rw [length_append]
    exact hnum
  · rw [length_append]
    show Buckets'.length ≤ 64 ∨ 3 * Buckets'.length ≤ 8 * (entries.length + 1)
    rw [hlength]
    exact hle

theorem insertAll_spec (entries : List (Key × Data)) (hfew : Few I entries.length) :
    ∃ g, insertAll I entries = some g ∧ Holds g entries := by
  have hrun : ∀ (done todo : List (Key × Data)) (g : Generator I), Holds g done →
      Few I (done.length + todo.length) →
      ∃ g', todo.foldlM (fun g e => g.insert e.1 e.2) g = some g' ∧ Holds g' (done ++ todo) := by
    intro done todo
    induction todo generalizing done with
    | nil =>
      intro g h _
      exact ⟨g, rfl, by rwa [append_nil]⟩
    | cons e todo ih =>
      intro g h hfew
      rw [length_cons] at hfew
      obtain ⟨g₁, hinsert, h₁⟩ := insert_spec h (hfew.mono (by omega)) e.1 e.2
      obtain ⟨g', hall, h'⟩ := ih (done ++ [e]) g₁ h₁ (by
        rw [length_append, length_singleton]
        exact hfew.mono (by omega))
      refine ⟨g', ?_, by rwa [append_assoc] at h'⟩
      rw [foldlM_cons, hinsert]
      exact hall
  obtain ⟨g, hall, h⟩ := hrun [] entries empty holds_empty (by simpa using hfew)
  exact ⟨g, hall, h⟩

theorem mem_bucket_iff (hplaced : Placed Buckets) {i : Nat}
    {B : Bucket I} (hB : Buckets[i]? = some B) (E : Item I) :
    E ∈ B.Head ↔ E ∈ items Buckets ∧ home Buckets.length E = i := by
  constructor
  · intro hE
    exact ⟨mem_flatMap.mpr ⟨B, mem_of_getElem? hB, hE⟩, hplaced.home i B hB E hE⟩
  · rintro ⟨hE, hhome⟩
    obtain ⟨C, hC, hmem⟩ := mem_flatMap.mp hE
    obtain ⟨j, hj⟩ := getElem?_of_mem hC
    obtain rfl : j = i := (hplaced.home j C hj E hmem).symm.trans hhome
    rw [hj, Option.some.injEq] at hB
    exact hB ▸ hmem

theorem contains_eq (h : Holds g entries)
    (hequal : ∀ a b, I.EqualKey a b = true ↔ a = b) (K : Key) :
    ∃ b, g.contains K = some b ∧
      (b = true ↔ K ∈ entries.map Prod.fst ∧ (I.ComputeHash K).toNat < 2 ^ 32) := by
  obtain ⟨k, hk⟩ := h.numBuckets
  have hpos := Nat.two_pow_pos k
  have hlt : toUnsigned (I.ComputeHash K).toNat &&& (g.NumBuckets - 1) < g.Buckets.length := by
    have hle : toUnsigned (I.ComputeHash K).toNat &&& (g.NumBuckets - 1) ≤ g.NumBuckets - 1 :=
      and_le_right
    unfold NumBuckets at *
    omega
  have hB := getElem?_eq_getElem hlt
  refine ⟨_, by rw [contains, hB]; rfl, ?_⟩
  simp only [any_eq_true, Bool.and_eq_true, beq_iff_eq, hequal]
  constructor
  · rintro ⟨E, hE, hhash, rfl⟩
    obtain ⟨hmem, -⟩ := (mem_bucket_iff h.placed hB E).mp hE
    refine ⟨?_, ?_⟩
    · exact mem_map.mpr ⟨E.entry, h.inserted.subset (mem_map_of_mem hmem), rfl⟩
    · rw [← E.hash_eq] at hhash ⊢
      rw [hhash]
      exact toUnsigned_lt _
  · rintro ⟨hmem, hsmall⟩
    obtain ⟨e, he, rfl⟩ := mem_map.mp hmem
    obtain ⟨E, hE, rfl⟩ := mem_map.mp (h.inserted.symm.subset he)
    have hhash : E.Hash.toNat = toUnsigned (I.ComputeHash E.entry.1).toNat := by
      rw [toUnsigned_of_lt hsmall, E.hash_eq]
      rfl
    refine ⟨E, (mem_bucket_iff h.placed hB E).mpr ⟨hE, ?_⟩, hhash, rfl⟩
    rw [← hhash]
    rfl

end Generator

end Zapcc.OnDiskHashTable
