import Zapcc.Support.OnDiskHashEmission

/-!
# The round trip through a hash table on disk

The file keeps the number of items of a bucket in 16 bits, the generator computes the final number
of buckets in an `unsigned` and `contains` compares with a hash in an `unsigned`. `RoundTrips` says
that the entries come back, by lookup and by iteration. `entries_roundTrip_iff` says that they do
exactly when these fields are wide enough.
-/

namespace Zapcc.OnDiskHashTable

open Digits MathExtras Layout Generator List

variable {Key External Data : Type} {I : Info Key External Data}

/-- The fields of fixed width can hold what they are meant to hold: `contains` keeps the hash in
an `unsigned`, `Emit` the number of buckets, and the file the length of a bucket in 16 bits. -/
structure FieldsFit (I : Info Key External Data) (entries : List (Key × Data)) : Prop where
  hash : ∀ e ∈ entries, (I.ComputeHash e.1).toNat < 2 ^ 32
  numBuckets : numBuckets entries.length < 2 ^ 32
  bucket : ∀ i, entries.countP (fun e => emittedHome I entries.length e == i) < 2 ^ 16

/-- The entries are found in the generator, and in the table that is emitted behind `start` bytes,
by lookup and by iteration. -/
structure ComesBack (entries : List (Key × Data)) (g : Generator I) (start : Nat) (T : Table I) :
    Prop where
  contains : ∀ K, ∃ b, g.contains K = some b ∧ (b = true ↔ K ∈ entries.map Prod.fst)
  find : ∀ EKey D, (I.GetInternalKey EKey, D) ∈ entries →
    ∃ it, T.find EKey = some (some it) ∧ T.deref it = D
  find_end : ∀ EKey, I.GetInternalKey EKey ∉ entries.map Prod.fst → T.find EKey = some none
  iterate : ∀ fuel, entries.length < fuel → ∃ visited,
    T.iterate fuel (T.begin start) = some visited ∧
      visited.Perm (entries.map fun e => (I.GetExternalKey e.1, e.2))

/-- The entries are inserted, the table is emitted behind `Out`, and all entries come back. -/
def RoundTrips (I : Info Key External Data) (Out : List (BitVec 8))
    (entries : List (Key × Data)) : Prop :=
  ∃ g bytes TableOff T, insertAll I entries = some g ∧ g.Emit Out = some (bytes, TableOff) ∧
    Table.Create I TableOff bytes = some T ∧ ComesBack entries g Out.length T

theorem exists_heads {Bs : List (Bucket I)}
    (hlength : ∀ B ∈ Bs, B.Length = toUnsigned B.Head.length)
    (hcount : ∀ B ∈ Bs, B.Head.length < 2 ^ 16) :
    ∃ Heads : List (List (Item I)),
      (∀ Head ∈ Heads, Head ≠ [] ∧ Head.length < 2 ^ 16) ∧ Heads.flatten = items Bs ∧
      (Heads.flatMap fun Head => ofValue 8 2 Head.length ++ Head.flatMap itemBytes) =
        Bs.flatMap bucketBytes := by
  induction Bs with
  | nil => exact ⟨[], by simp, rfl, rfl⟩
  | cons B Bs ih =>
    obtain ⟨Heads, hne, hflat, hbytes⟩ := ih
      (fun B' hB' => hlength B' (mem_cons_of_mem _ hB'))
      (fun B' hB' => hcount B' (mem_cons_of_mem _ hB'))
    have hcons : items (B :: Bs) = B.Head ++ items Bs := rfl
    rw [flatMap_cons, hcons, ← hflat, ← hbytes]
    by_cases hhead : B.Head = []
    · refine ⟨Heads, hne, by rw [hhead]; rfl, ?_⟩
      rw [bucketBytes, if_pos hhead]
      rfl
    · have hB := hcount B mem_cons_self
      refine ⟨B.Head :: Heads, fun Head hmem => ?_, rfl, ?_⟩
      · rcases List.mem_cons.mp hmem with rfl | hmem
        · exact ⟨hhead, hB⟩
        · exact hne Head hmem
      · rw [flatMap_cons, bucketBytes, if_neg hhead, hlength B mem_cons_self,
          toUnsigned_of_lt (by omega)]

namespace Emitted

variable {entries : List (Key × Data)} {start : Nat} {Bs : List (Bucket I)} {T : Table I}

theorem bucket_of_key (h : Emitted entries start Bs T) (K : Key) :
    ∃ B, Bs[(I.ComputeHash K).toNat &&& (T.NumBuckets - 1)]? = some B := by
  have hpos : 0 < Bs.length := by
    rw [h.length, OnDiskHashTable.numBuckets]
    split
    · omega
    · exact Nat.two_pow_pos _
  have hle : (I.ComputeHash K).toNat &&& (T.NumBuckets - 1) ≤ T.NumBuckets - 1 :=
    Nat.and_le_right
  have hlt : (I.ComputeHash K).toNat &&& (T.NumBuckets - 1) < Bs.length := by
    rw [h.numBuckets] at hle ⊢
    omega
  exact ⟨_, getElem?_eq_getElem hlt⟩

theorem find_spec (hI : I.DecodesBack) (h : Emitted entries start Bs T) {EKey : External}
    {B : Bucket I}
    (hB : Bs[(I.ComputeHash (I.GetInternalKey EKey)).toNat &&& (T.NumBuckets - 1)]? = some B) :
    ∃ r, T.find EKey = some r ∧ r.map T.deref =
      ((B.Head.take (B.Head.length % 2 ^ 16)).find? fun E =>
        I.EqualKey E.Key (I.GetInternalKey EKey)).map Item.Data := by
  obtain ⟨Ptr, hread, hplace⟩ := h.bucket _ B hB
  unfold Table.find Table.find_hashed
  rw [hread, Option.bind_some]
  by_cases hhead : B.Head = []
  · refine ⟨none, by simp [hhead], ?_⟩
    rw [hhead]
    rfl
  · obtain ⟨hpos, hat, hlt⟩ := hplace hhead
    rw [bucketBytes, if_neg hhead] at hat hlt
    have hcount := readNext_of_liesAt hat.left
    have hlength : B.Length % (2 ^ 8) ^ 2 = B.Head.length % 2 ^ 16 := by
      rw [h.placed.length B (mem_of_getElem? hB)]
      unfold toUnsigned
      omega
    rw [hlength] at hcount
    simp only [if_neg hhead]
    rw [if_neg (by omega), hcount, Option.bind_some]
    have hitems := hat.right
    rw [length_append, length_ofValue] at hlt
    -- the items that are seen come first
    have hsplit : B.Head.flatMap itemBytes =
        (B.Head.take (B.Head.length % 2 ^ 16)).flatMap itemBytes ++
          (B.Head.drop (B.Head.length % 2 ^ 16)).flatMap itemBytes := by
      rw [← flatMap_append, take_append_drop]
    rw [hsplit] at hitems hlt
    rw [length_append] at hlt
    obtain ⟨r, hscan, hfound⟩ : ∃ r, T.findItem (I.GetInternalKey EKey)
        (I.ComputeHash (I.GetInternalKey EKey)).toNat
        (B.Head.take (B.Head.length % 2 ^ 16)).length (Ptr + 2) = some r ∧ r.map T.deref = _ :=
      Table.findItem_spec hI hitems.left (by omega)
    rw [length_take, Nat.min_eq_left (Nat.mod_le _ _)] at hscan
    exact ⟨r, hscan, hfound⟩

theorem entry_eq (h : Emitted entries start Bs T) (hdistinct : (entries.map Prod.fst).Nodup)
    {E E' : Item I} (hE : E ∈ items Bs) (hE' : E' ∈ items Bs) (hkey : E.Key = E'.Key) :
    E.entry = E'.entry :=
  inj_on_of_nodup_map hdistinct (h.inserted.subset (mem_map_of_mem hE))
    (h.inserted.subset (mem_map_of_mem hE')) hkey

theorem nodup_bucket (h : Emitted entries start Bs T) (hdistinct : (entries.map Prod.fst).Nodup)
    {i : Nat} {B : Bucket I} (hB : Bs[i]? = some B) : (B.Head.map Item.Key).Nodup := by
  have hkeys : ((items Bs).map Item.Key).Nodup := by
    have hmap := (h.inserted.map Prod.fst).nodup_iff.mpr hdistinct
    rwa [map_map] at hmap
  refine hkeys.sublist (List.Sublist.map _ ?_)
  exact sublist_flatten_of_mem (mem_map_of_mem (mem_of_getElem? hB))

theorem find_entry (hI : I.DecodesBack) (h : Emitted entries start Bs T)
    (hdistinct : (entries.map Prod.fst).Nodup) (hcount : ∀ B ∈ Bs, B.Head.length < 2 ^ 16)
    {EKey : External} {D : Data} (he : (I.GetInternalKey EKey, D) ∈ entries) :
    ∃ it, T.find EKey = some (some it) ∧ T.deref it = D := by
  obtain ⟨B, hB⟩ := h.bucket_of_key (I.GetInternalKey EKey)
  obtain ⟨r, hfind, hfound⟩ := h.find_spec hI hB
  rw [Nat.mod_eq_of_lt (hcount B (mem_of_getElem? hB)), take_length] at hfound
  obtain ⟨E, hE, hentry⟩ := List.mem_map.mp (h.inserted.symm.subset he)
  have hkey : E.Key = I.GetInternalKey EKey := congrArg Prod.fst hentry
  have hhead : E ∈ B.Head := by
    refine (mem_bucket_iff h.placed hB E).mpr ⟨hE, ?_⟩
    rw [home, E.hash_eq, hkey, h.numBuckets]
  have hsome : (B.Head.find? fun E => I.EqualKey E.Key (I.GetInternalKey EKey)).isSome = true :=
    List.find?_isSome.mpr ⟨E, hhead, (hI.equal _ _).mpr hkey⟩
  obtain ⟨E', hE'⟩ := Option.isSome_iff_exists.mp hsome
  have hequal : I.EqualKey E'.Key (I.GetInternalKey EKey) = true := by
    simpa using find?_some hE'
  have hkey' : E'.Key = I.GetInternalKey EKey := (hI.equal _ _).mp hequal
  have hmem' : E' ∈ items Bs :=
    ((mem_bucket_iff h.placed hB E').mp (mem_of_find?_eq_some hE')).1
  have hsame := h.entry_eq hdistinct hmem' hE (hkey'.trans hkey.symm)
  rw [hE', Option.map_some, Option.map_eq_some_iff] at hfound
  obtain ⟨it, rfl, hit⟩ := hfound
  refine ⟨it, hfind, hit.trans ?_⟩
  exact congrArg Prod.snd (hsame.trans hentry)

theorem find_end (hI : I.DecodesBack) (h : Emitted entries start Bs T) {EKey : External}
    (hnot : I.GetInternalKey EKey ∉ entries.map Prod.fst) : T.find EKey = some none := by
  obtain ⟨B, hB⟩ := h.bucket_of_key (I.GetInternalKey EKey)
  obtain ⟨r, hfind, hfound⟩ := h.find_spec hI hB
  have hnone : (B.Head.take (B.Head.length % 2 ^ 16)).find? (fun E =>
      I.EqualKey E.Key (I.GetInternalKey EKey)) = none := by
    rw [find?_eq_none]
    intro E hE hequal
    have hmem := (mem_bucket_iff h.placed hB E).mp (mem_of_mem_take hE)
    rw [hI.equal] at hequal
    rw [← hequal] at hnot
    exact hnot (List.mem_map.mpr ⟨E.entry, h.inserted.subset (mem_map_of_mem hmem.1), rfl⟩)
  rw [hnone, Option.map_none, Option.map_eq_none_iff] at hfound
  rw [← hfound]
  exact hfind

theorem iterate_entries (hI : I.DecodesBack) (h : Emitted entries start Bs T)
    (hcount : ∀ B ∈ Bs, B.Head.length < 2 ^ 16) (hfew : Few I entries.length) {fuel : Nat}
    (hfuel : entries.length < fuel) :
    ∃ visited, T.iterate fuel (T.begin start) = some visited ∧
      visited.Perm (entries.map fun e => (I.GetExternalKey e.1, e.2)) := by
  obtain ⟨Heads, hne, hflat, hbytes⟩ := exists_heads h.placed.length hcount
  have hnum : entries.length = (items Bs).length := by
    rw [← h.inserted.length_eq, length_map]
  have hlt := hfew.four_mul_lt
  have hpayload := h.payload
  have hpayload_lt := h.payload_lt
  rw [← hbytes] at hpayload hpayload_lt
  have hleft : (T.begin start).NumEntriesLeft = entries.length := h.numEntries
  have hvisit : T.iterate fuel (T.begin start) = _ :=
    Table.iterate_spec hI [] Heads (P := T.begin start) hne hpayload hpayload_lt rfl (by simp)
      (by rw [hleft, nil_append, hflat, hnum]) (by rw [hleft]; omega)
      (by rw [hleft]; exact hfuel)
  rw [nil_append, hflat] at hvisit
  refine ⟨_, hvisit, ?_⟩
  have hperm := h.inserted.map fun e => (I.GetExternalKey e.1, e.2)
  rwa [map_map] at hperm

theorem find_misses (hI : I.DecodesBack) (h : Emitted entries start Bs T)
    (hdistinct : (entries.map Prod.fst).Nodup) {i : Nat} {B : Bucket I} (hB : Bs[i]? = some B)
    (hcount : 2 ^ 16 ≤ B.Head.length) :
    ∃ e ∈ entries, T.find (I.GetExternalKey e.1) = some none := by
  have hlt : B.Head.length % 2 ^ 16 < B.Head.length := by omega
  have hE : B.Head[B.Head.length % 2 ^ 16] ∈ B.Head := getElem_mem hlt
  have hnodup := h.nodup_bucket hdistinct hB
  obtain ⟨hmem, hhome⟩ := (mem_bucket_iff h.placed hB _).mp hE
  have hB' : Bs[(I.ComputeHash (I.GetInternalKey (I.GetExternalKey
      B.Head[B.Head.length % 2 ^ 16].Key))).toNat &&& (T.NumBuckets - 1)]? = some B := by
    rw [hI.external, ← Item.hash_eq, h.numBuckets]
    unfold home at hhome
    rw [hhome]
    exact hB
  obtain ⟨r, hfind, hfound⟩ := h.find_spec hI hB'
  refine ⟨B.Head[B.Head.length % 2 ^ 16].entry, h.inserted.subset (mem_map_of_mem hmem), ?_⟩
  have hnone : (B.Head.take (B.Head.length % 2 ^ 16)).find? (fun E => I.EqualKey E.Key
      (I.GetInternalKey (I.GetExternalKey B.Head[B.Head.length % 2 ^ 16].Key))) = none := by
    rw [find?_eq_none]
    intro E hE hequal
    rw [hI.equal, hI.external] at hequal
    obtain ⟨j, hj, hjE⟩ := getElem_of_mem hE
    rw [length_take] at hj
    rw [getElem_take] at hjE
    have hj' : j < (B.Head.map Item.Key).length := by rw [length_map]; omega
    have hlast : B.Head.length % 2 ^ 16 < (B.Head.map Item.Key).length := by
      rw [length_map]
      exact hlt
    have hsame : (B.Head.map Item.Key)[j] = (B.Head.map Item.Key)[B.Head.length % 2 ^ 16] := by
      rw [getElem_map, getElem_map, hjE, hequal]
    have hindex := hnodup.getElem_inj_iff.mp hsame
    omega
  rw [hnone, Option.map_none, Option.map_eq_none_iff] at hfound
  rw [← hfound]
  exact hfind

end Emitted

variable {Out : List (BitVec 8)} {entries : List (Key × Data)}

theorem RoundTrips.fieldsFit
    (hround : RoundTrips I Out entries) (hI : I.DecodesBack)
    (hdistinct : (entries.map Prod.fst).Nodup) (hOut : Out ≠ [])
    (hfit : OffsetsFit I Out entries) : FieldsFit I entries := by
  have hfew := few_of_offsetsFit hI hdistinct hfit
  obtain ⟨g, hinsert, h⟩ := insertAll_spec entries hfew
  obtain ⟨g', bytes, TableOff, T, hinsert', hemit, hcreate, hback⟩ := hround
  obtain rfl : g = g' := Option.some.inj (hinsert.symm.trans hinsert')
  have hwidth : numBuckets entries.length < 2 ^ 32 := by
    by_contra hwide
    rw [Emit, shrink_none h hfew (not_lt.mp hwide)] at hemit
    simp at hemit
  refine ⟨fun e he => ?_, hwidth, fun i => ?_⟩
  · obtain ⟨b, hb, hiff⟩ := hback.contains e.1
    obtain ⟨b', hb', hiff'⟩ := contains_eq h hI.equal e.1
    obtain rfl : b = b' := Option.some.inj (hb.symm.trans hb')
    exact (hiff'.mp (hiff.mpr (mem_map_of_mem he))).2
  · obtain ⟨bytes', TableOff', T', Bs, hemit', hcreate', hemitted⟩ :=
      emit_spec h hfew hwidth hOut hdistinct hfit
    rw [hemit, Option.some.injEq, Prod.mk.injEq] at hemit'
    obtain ⟨rfl, rfl⟩ := hemit'
    obtain rfl : T = T' := Option.some.inj (hcreate.symm.trans hcreate')
    by_contra hcount
    rw [not_lt] at hcount
    -- the bucket `i` exists, since some entry belongs to it
    obtain ⟨e, -, he⟩ := List.countP_pos_iff.mp
      (show 0 < entries.countP fun e => emittedHome I entries.length e == i by omega)
    obtain ⟨B, hB⟩ := hemitted.bucket_of_key e.1
    rw [hemitted.numBuckets, hemitted.length] at hB
    obtain rfl : emittedHome I entries.length e = i := by simpa using he
    have hlength : B.Head.length = entries.countP (fun e' =>
        emittedHome I entries.length e' == emittedHome I entries.length e) :=
      length_bucket hemitted.placed hemitted.length hemitted.inserted hdistinct hB
    rw [← hlength] at hcount
    obtain ⟨e', he', hmiss⟩ := hemitted.find_misses hI hdistinct hB hcount
    obtain ⟨it, hfound, -⟩ := hback.find (I.GetExternalKey e'.1) e'.2
      (by rw [hI.external]; exact he')
    rw [hmiss] at hfound
    simp at hfound

theorem FieldsFit.roundTrips
    (hfields : FieldsFit I entries) (hI : I.DecodesBack)
    (hdistinct : (entries.map Prod.fst).Nodup) (hOut : Out ≠ [])
    (hfit : OffsetsFit I Out entries) : RoundTrips I Out entries := by
  have hfew := few_of_offsetsFit hI hdistinct hfit
  obtain ⟨g, hinsert, h⟩ := insertAll_spec entries hfew
  obtain ⟨bytes, TableOff, T, Bs, hemit, hcreate, hemitted⟩ :=
    emit_spec h hfew hfields.numBuckets hOut hdistinct hfit
  have hcount : ∀ B ∈ Bs, B.Head.length < 2 ^ 16 := by
    intro B hB
    obtain ⟨i, hi⟩ := getElem?_of_mem hB
    rw [length_bucket hemitted.placed hemitted.length hemitted.inserted hdistinct hi]
    exact hfields.bucket i
  refine ⟨g, bytes, TableOff, T, hinsert, hemit, hcreate, fun K => ?_, fun EKey D he => ?_,
    fun EKey hnot => ?_, fun fuel hfuel => ?_⟩
  · obtain ⟨b, hb, hiff⟩ := contains_eq h hI.equal K
    refine ⟨b, hb, hiff.trans ⟨And.left, fun hK => ⟨hK, ?_⟩⟩⟩
    obtain ⟨e, he, rfl⟩ := List.mem_map.mp hK
    exact hfields.hash e he
  · exact hemitted.find_entry hI hdistinct hcount he
  · exact hemitted.find_end hI hnot
  · exact hemitted.iterate_entries hI hcount hfew hfuel

/-- The entries round trip exactly when the fields of fixed width can hold them. -/
theorem entries_roundTrip_iff (hI : I.DecodesBack)
    (hdistinct : (entries.map Prod.fst).Nodup) (hOut : Out ≠ [])
    (hfit : OffsetsFit I Out entries) : RoundTrips I Out entries ↔ FieldsFit I entries :=
  ⟨fun hround => hround.fieldsFit hI hdistinct hOut hfit,
    fun hfields => hfields.roundTrips hI hdistinct hOut hfit⟩

/-- Keys of 32 bits that all have the hash zero, with data of one byte. -/
def collidingInfo : Info (BitVec 32) (BitVec 32) (BitVec 8) where
  hashBytes := 4
  offsetBytes := 4
  hashBytes_eq := .inl rfl
  offsetBytes_eq := .inl rfl
  ComputeHash := fun _ => 0
  EqualKey := fun K K' => K == K'
  GetInternalKey := id
  GetExternalKey := id
  EmitKeyDataLength := fun _ _ => ([], (4, 1))
  EmitKey := fun K _ => ofValue 8 4 K.toNat
  EmitData := fun _ D _ => [D]
  ReadKeyDataLength := fun _ => ((4, 1), 0)
  ReadKey := fun bytes _ => BitVec.ofNat 32 (value (bytes.take 4))
  ReadData := fun _ bytes _ => bytes.headD 0

theorem collidingInfo_decodesBack : collidingInfo.DecodesBack where
  equal := fun a b => beq_iff_eq
  external := fun _ => rfl
  lengths := fun _ _ _ => rfl
  keyLength := fun K _ => length_ofValue 4 K.toNat
  dataLength := fun _ _ => rfl
  key := fun K _ rest => by
    show BitVec.ofNat 32 (value ((ofValue 8 4 K.toNat ++ rest).take 4)) = K
    have htake : (ofValue 8 4 K.toNat ++ rest).take 4 = ofValue 8 4 K.toNat :=
      take_left' (length_ofValue 4 K.toNat)
    have hlt : K.toNat < (2 ^ 8) ^ 4 := K.isLt
    rw [htake, value_ofValue, Nat.mod_eq_of_lt hlt, BitVec.ofNat_toNat, BitVec.setWidth_eq]
  data := fun _ _ _ => rfl

/-- Two keys in one bucket come back. -/
theorem entries_roundTrip_iff_two : RoundTrips collidingInfo [0] [(7, 5), (9, 1)] := by
  refine (entries_roundTrip_iff collidingInfo_decodesBack (by decide) (by decide) ?_).mpr
    ⟨?_, ?_, ?_⟩
  · unfold OffsetsFit
    decide
  · intro e _
    exact Nat.two_pow_pos 32
  · decide
  · intro i
    exact Nat.lt_of_le_of_lt countP_le_length (by decide)

theorem emittedHome_colliding (n : Nat) (e : BitVec 32 × BitVec 8) :
    emittedHome collidingInfo n e = 0 := by
  have hzero : (collidingInfo.ComputeHash e.1).toNat = 0 := rfl
  rw [emittedHome, hzero, Nat.zero_and]

theorem payloadLength_colliding (entries : List (BitVec 32 × BitVec 8)) :
    payloadLength collidingInfo entries ≤ 9 * entries.length + 2 * numBuckets entries.length := by
  have hsum : (entries.map (entryLength collidingInfo)).sum = 9 * entries.length := by
    induction entries with
    | nil => rfl
    | cons e l ih =>
      have hentry : entryLength collidingInfo e = 9 := rfl
      rw [map_cons, sum_cons, ih, hentry, length_cons]
      omega
  have hcount : (List.range (numBuckets entries.length)).countP (fun i =>
      entries.any fun e => emittedHome collidingInfo entries.length e == i) ≤
        numBuckets entries.length := by
    refine List.countP_le_length.trans ?_
    rw [length_range]
  unfold payloadLength
  omega

theorem length_lt_of_fieldsFit {entries : List (BitVec 32 × BitVec 8)}
    (h : FieldsFit collidingInfo entries) : entries.length < 2 ^ 16 := by
  have hbucket := h.bucket 0
  have hall : entries.countP (fun e => emittedHome collidingInfo entries.length e == 0) =
      entries.length := by
    refine List.countP_eq_length.mpr fun e _ => ?_
    rw [emittedHome_colliding, beq_self_eq_true]
  rwa [hall] at hbucket

/-- As many keys of one hash as the count of a bucket cannot hold. -/
def collidingEntries : List (BitVec 32 × BitVec 8) :=
  (List.range 65536).map fun i => (BitVec.ofNat 32 i, 0)

theorem length_collidingEntries : collidingEntries.length = 65536 := by
  unfold collidingEntries
  rw [length_map, length_range]

theorem nodup_collidingEntries : (collidingEntries.map Prod.fst).Nodup := by
  unfold collidingEntries
  rw [map_map]
  refine List.nodup_range.map_on fun i hi j hj hsame => ?_
  rw [mem_range] at hi hj
  have hnat := congrArg BitVec.toNat hsame
  simp only [Function.comp_apply, BitVec.toNat_ofNat] at hnat
  omega

theorem numBuckets_le {n k : Nat} (h : n * 4 / 3 < 2 ^ k) : numBuckets n ≤ 2 ^ k := by
  unfold numBuckets
  split
  · exact Nat.one_le_two_pow
  · exact Nat.pow_le_pow_right (by omega) (Nat.size_le.mpr h)

theorem offsetsFit_of_le
    (h : Out.length + payloadLength I entries + I.offsetBytes ≤ 2 ^ (8 * I.offsetBytes)) :
    OffsetsFit I Out entries := by
  have hpos : 0 < I.offsetBytes := by
    rcases I.offsetBytes_eq with hw | hw
    · omega
    · omega
  have hle := Nat.div_mul_le_self (Out.length + payloadLength I entries + I.offsetBytes - 1)
    I.offsetBytes
  unfold OffsetsFit alignTo
  omega

theorem offsetsFit_collidingEntries : OffsetsFit collidingInfo [0] collidingEntries := by
  have hpayload := payloadLength_colliding collidingEntries
  have hfour : collidingInfo.offsetBytes = 4 := rfl
  have hbuckets := numBuckets_le (n := collidingEntries.length) (k := 17)
  rw [length_collidingEntries] at hpayload hbuckets
  refine offsetsFit_of_le ?_
  rw [length_singleton, hfour]
  omega

/-- The keys are different, all offsets fit, and yet the entries do not come back. -/
theorem not_roundTrips_colliding :
    collidingInfo.DecodesBack ∧ (collidingEntries.map Prod.fst).Nodup ∧
      OffsetsFit collidingInfo [0] collidingEntries ∧
      ¬ RoundTrips collidingInfo [0] collidingEntries := by
  refine ⟨collidingInfo_decodesBack, nodup_collidingEntries, offsetsFit_collidingEntries,
    fun hround => ?_⟩
  have hfields := hround.fieldsFit collidingInfo_decodesBack nodup_collidingEntries
    (cons_ne_nil _ _) offsetsFit_collidingEntries
  have hlength := length_lt_of_fieldsFit hfields
  rw [length_collidingEntries] at hlength
  omega

end Zapcc.OnDiskHashTable
