import Mathlib.Data.Set.Card
import Zapcc.ADT.DenseMapClear

/-!
# Dense maps are finite maps

`mapStep` is what a call means for a finite map. Every call of a client does this to the map that
the buckets represent (`step_refines`), and so does every run from a new map (`behaves_as_map`).
`Fits` leaves out the insertion into `2 ^ 31` buckets that would double them, and `not_noGrowth` is
a reservation whose size is out of range.
-/

namespace Zapcc.ADT.DenseMap

open MathExtras OpenAddressing TriangularProbe Option Function List

variable {KeyT ValueT : Type} [DecidableEq KeyT] {info : KeyInfo KeyT}
variable {M : DenseMap KeyT ValueT} {f : KeyT → Option ValueT}

/-! ## The abstract map -/

/-- What a call does to a finite map, and what the client sees. -/
def mapStep [Inhabited ValueT] (f : KeyT → Option ValueT) :
    Op KeyT ValueT → (KeyT → Option ValueT) × Seen KeyT ValueT
  | .insert k v | .tryEmplace k v =>
    match f k with
    | some w => (f, .emplaced (k, w) false)
    | none => (update f k (some v), .emplaced (k, v) true)
  | .subscript k =>
    match f k with
    | some w => (f, .value w)
    | none => (update f k (some default), .value default)
  | .assign k v => (update f k (some v), .nothing)
  | .find k => (f, .found ((f k).map fun v => (k, v)))
  | .erase k => (update f k none, .erased (f k).isSome)
  | .clear => (fun _ => none, .nothing)
  | .reserve _ => (f, .nothing)

/-- What calls do to a finite map one after the other. -/
def mapRun [Inhabited ValueT] (f : KeyT → Option ValueT) :
    List (Op KeyT ValueT) → (KeyT → Option ValueT) × List (Seen KeyT ValueT)
  | [] => (f, [])
  | op :: ops =>
    let next := mapStep f op
    let rest := mapRun next.1 ops
    (rest.1, next.2 :: rest.2)

/-- The key that a call inserts if it is new. -/
def Op.inserts : Op KeyT ValueT → Option KeyT
  | .insert k _ | .tryEmplace k _ | .subscript k | .assign k _ => some k
  | _ => none

/-- The key of a call is neither the empty key nor the tombstone key. -/
def Op.Valid (info : KeyInfo KeyT) : Op KeyT ValueT → Prop
  | .insert k _ | .tryEmplace k _ | .subscript k | .assign k _ | .find k | .erase k => info.Live k
  | _ => True

/-- A call that does not give the reserved room away, and does not reserve more. -/
def Op.KeepsRoom : Op KeyT ValueT → Prop
  | .clear | .reserve _ => False
  | _ => True

instance : (op : Op KeyT ValueT) → Decidable (op.Valid info)
  | .insert k _ | .tryEmplace k _ | .subscript k | .assign k _ | .find k | .erase k =>
    inferInstanceAs (Decidable (info.Live k))
  | .clear | .reserve _ => isTrue trivial

omit [DecidableEq KeyT] in
instance : (op : Op KeyT ValueT) → Decidable op.KeepsRoom
  | .clear | .reserve _ => isFalse id
  | .insert _ _ | .tryEmplace _ _ | .subscript _ | .assign _ _ | .find _ | .erase _ =>
    isTrue trivial

/-- The counters can take the call: a new key is not added to `2 ^ 31` buckets with `2 ^ 29 - 1`
entries or more. -/
def Fits (M : DenseMap KeyT ValueT) (op : Op KeyT ValueT) : Prop :=
  ∀ k, op.inserts = some k →
    (∃ b ∈ M.buckets, b.first = k) ∨ M.numBuckets < 2 ^ 31 ∨ M.numEntries + 1 < 2 ^ 29

instance (M : DenseMap KeyT ValueT) (op : Op KeyT ValueT) : Decidable (Fits M op) :=
  match h : op.inserts with
  | none => isTrue fun k hk => by rw [h] at hk; cases hk
  | some k =>
    decidable_of_iff ((∃ b ∈ M.buckets, b.first = k) ∨ M.numBuckets < 2 ^ 31 ∨
        M.numEntries + 1 < 2 ^ 29)
      ⟨fun hfits k' hk' => some.inj (h.symm.trans hk') ▸ hfits, fun hfits => hfits k h⟩

variable (info) in
/-- Every call of a run fits, and every state that a call leaves holds at most `N` entries. -/
def FitsWithin [Inhabited ValueT] (isPodLike : Bool) (N : Nat) :
    DenseMap KeyT ValueT → List (Op KeyT ValueT) → Prop
  | _, [] => True
  | M, op :: ops =>
    Fits M op ∧
      match step info isPodLike M op with
      | none => True
      | some (M', _) => M'.numEntries ≤ N ∧ FitsWithin isPodLike N M' ops

def decideFitsWithin [Inhabited ValueT] (isPodLike : Bool) (N : Nat) :
    (M : DenseMap KeyT ValueT) → (ops : List (Op KeyT ValueT)) →
      Decidable (FitsWithin info isPodLike N M ops)
  | _, [] => isTrue trivial
  | M, op :: ops =>
    match h : step info isPodLike M op with
    | none => decidable_of_iff (Fits M op) (by simp [FitsWithin, h])
    | some (M', _) =>
      have := decideFitsWithin isPodLike N M' ops
      decidable_of_iff (Fits M op ∧ M'.numEntries ≤ N ∧ FitsWithin info isPodLike N M' ops)
        (by simp [FitsWithin, h])

instance [Inhabited ValueT] (isPodLike : Bool) (N : Nat) (M : DenseMap KeyT ValueT)
    (ops : List (Op KeyT ValueT)) : Decidable (FitsWithin info isPodLike N M ops) :=
  decideFitsWithin isPodLike N M ops

variable (info) in
/-- Every call of a run fits. -/
def AllFit [Inhabited ValueT] (isPodLike : Bool) :
    DenseMap KeyT ValueT → List (Op KeyT ValueT) → Prop
  | _, [] => True
  | M, op :: ops =>
    Fits M op ∧
      match step info isPodLike M op with
      | none => True
      | some (M', _) => AllFit isPodLike M' ops

/-! ## The map that the buckets represent -/

variable {k : KeyT}

theorem WellFormed.lookup_some (h : WellFormed info M) (hrep : Represents info M f)
    {w : ValueT} (hf : f k = some w) :
    ∃ b, lookupBucketFor info M k = some (true, some b) ∧ M.buckets[b]? = some ⟨k, some w⟩ := by
  obtain ⟨hk, hmem⟩ := (hrep k w).mp hf
  have hne : M.numBuckets ≠ 0 := by
    intro hzero
    rw [h.buckets_eq_nil hzero] at hmem
    exact not_mem_nil hmem
  rcases h.lookup hne hk with ⟨b, c, heq, hc, hkey⟩ | ⟨_, _, _, _, _, _, _, hnew⟩
  · have hsame := (h.probed_of_ne hne).eq_of_mem hmem (List.mem_of_getElem? hc) hk hkey.symm
    exact ⟨b, heq, hsame ▸ hc⟩
  · exact absurd rfl (hnew _ hmem)

theorem WellFormed.ne_of_none (h : WellFormed info M) (hrep : Represents info M f)
    (hk : info.Live k) (hf : f k = none) : ∀ c ∈ M.buckets, c.first ≠ k := by
  rintro ⟨first, second⟩ hc rfl
  obtain ⟨v, hv⟩ := h.built _ hc hk
  have hsome := (hrep first v).mpr ⟨hk, hv ▸ hc⟩
  rw [hf] at hsome
  cases hsome

theorem WellFormed.lookup_none (h : WellFormed info M) (hrep : Represents info M f)
    (hk : info.Live k) (hf : f k = none) :
    ∃ b, lookupBucketFor info M k = some (false, b) := by
  by_cases hzero : M.numBuckets = 0
  · exact ⟨none, if_pos hzero⟩
  · rcases h.lookup hzero hk with ⟨b, c, _, hc, hkey⟩ | ⟨j, _, _, heq, _⟩
    · exact absurd hkey (h.ne_of_none hrep hk hf c (List.mem_of_getElem? hc))
    · exact ⟨_, heq⟩

omit [DecidableEq KeyT] in
theorem entryAt_eq {b : Nat} {v : ValueT} (hb : M.buckets[b]? = some ⟨k, some v⟩) :
    M.entryAt b = some (k, v) := by
  unfold entryAt
  rw [hb]
  rfl

theorem Inserted.represents {M' : DenseMap KeyT ValueT} {v : ValueT} {b : Nat}
    (h : Inserted info M M' k v b) (hrep : Represents info M f) (hk : info.Live k)
    (hf : f k = none) : Represents info M' (update f k (some v)) := by
  intro k' v'
  by_cases heq : k' = k
  · subst heq
    have hnot : (⟨k', some v'⟩ : Bucket KeyT ValueT) ∉ M.buckets := fun hmem => by
      have hsome := (hrep k' v').mpr ⟨hk, hmem⟩
      rw [hf] at hsome
      cases hsome
    rw [update_self, and_iff_right hk, h.mem _ hk]
    simp [hnot, eq_comm]
  · rw [update_of_ne heq, hrep k' v']
    refine and_congr_right fun hk' => ?_
    rw [h.mem _ hk']
    simp [heq]

theorem WellFormed.writeAt (h : WellFormed info M) (hrep : Represents info M f)
    {w : ValueT} (hk : info.Live k) (v : ValueT) {b : Nat}
    (hb : M.buckets[b]? = some ⟨k, some w⟩) :
    WellFormed info (M.writeAt b v) ∧ Represents info (M.writeAt b v) (update f k (some v)) := by
  have hne : M.numBuckets ≠ 0 := by
    have := (List.getElem?_eq_some_iff.mp hb).1
    have := h.length
    omega
  have hset : M.writeAt b v = { M with buckets := M.buckets.set b ⟨k, some v⟩ } := by
    unfold DenseMap.writeAt
    rw [modify_eq_set_getElem?, hb]
    rfl
  have hcount : ∀ p : KeyT → Bool, (M.buckets.set b ⟨k, some v⟩).countP (fun c => p c.first) =
      M.buckets.countP fun c => p c.first := fun p =>
    Nat.add_right_cancel (countP_set_add (fun c => p c.first) ⟨k, some v⟩ hb)
  have hprobed := h.probed_of_ne hne
  rw [hset]
  refine ⟨⟨by simpa using h.length, h.bound, ?_, ?_, .inr (hprobed.update hb rfl), ?_⟩, ?_⟩
  · rw [h.entries]
    exact (hcount fun k => decide (info.Live k)).symm
  · rw [h.tombstones]
    exact (hcount fun k => decide (k = info.tombstoneKey)).symm
  · intro c hc hl
    rcases (hprobed.mem_set_of_live hb hk).mp hc with rfl | ⟨hc, _⟩
    · exact ⟨v, rfl⟩
    · exact h.built c hc hl
  · intro k' v'
    have hmem := @Probed.mem_set_of_live _ _ info _ b _ ⟨k, some v⟩ _ hprobed ⟨k', some v'⟩ hb hk
    rw [hmem]
    by_cases heq : k' = k
    · subst heq
      rw [update_self, and_iff_right hk]
      simp [eq_comm]
    · rw [update_of_ne heq, hrep k' v']
      simp [heq]

/-! ## One call -/

/-- What a call that keeps the room does to the size of the table. -/
def Kept (M M' : DenseMap KeyT ValueT) : Prop :=
  M'.numBuckets = M.numBuckets ∨ M'.numEntries = M.numEntries + 1 ∧
      (M.numBuckets * 3 ≤ M'.numEntries * 4 ∨ M.numBuckets < 64)

/-- The state between two calls. -/
structure Good (info : KeyInfo KeyT) (M : DenseMap KeyT ValueT) (f : KeyT → Option ValueT) :
    Prop where
  wellFormed : WellFormed info M
  sparse : Sparse M
  represents : Represents info M f

structure Next (info : KeyInfo KeyT) (M M' : DenseMap KeyT ValueT)
    (f' : KeyT → Option ValueT) : Prop where
  good : Good info M' f'
  roomy : Roomy M → Roomy M'
  kept : Kept M M'

theorem Inserted.next {M' : DenseMap KeyT ValueT} {v : ValueT} {b : Nat}
    (h : Inserted info M M' k v b) (hg : Good info M f) (hk : info.Live k) (hf : f k = none) :
    Next info M M' (update f k (some v)) := by
  refine ⟨⟨h.wellFormed, h.sparse, h.represents hg.represents hk hf⟩, fun hr => ?_, ?_⟩
  · rcases h.sized with heq | hge
    · unfold Roomy
      rwa [heq]
    · exact .inr hge
  · rcases h.kept with heq | hload
    · exact .inl heq
    · exact .inr ⟨h.numEntries, by rw [h.numEntries]; exact hload⟩

theorem Good.same (hg : Good info M f) : Next info M M f := ⟨hg, id, .inl rfl⟩

theorem Good.insertNew (hg : Good info M f) (hk : info.Live k) (hf : f k = none)
    (v : ValueT)
    (hfits : (∃ b ∈ M.buckets, b.first = k) ∨ M.numBuckets < 2 ^ 31 ∨ M.numEntries + 1 < 2 ^ 29) :
    ∃ b M' b', lookupBucketFor info M k = some (false, b) ∧
      DenseMap.insertIntoBucket info M b k v = some (M', b') ∧ Inserted info M M' k v b' := by
  have h := hg.wellFormed
  have hnew := h.ne_of_none hg.represents hk hf
  have hroom : M.numBuckets < 2 ^ 31 ∨ M.numEntries + 1 < 2 ^ 29 := by
    rcases hfits with ⟨b, hb, hkey⟩ | hroom
    · exact absurd hkey (hnew b hb)
    · exact hroom
  obtain ⟨b, hlookup⟩ := h.lookup_none hg.represents hk hf
  obtain ⟨M', b', hinsert, hinserted⟩ := h.insertIntoBucket hg.sparse hk hnew v hlookup hroom
  exact ⟨b, M', b', hlookup, hinsert, hinserted⟩

theorem Good.tryEmplace (hg : Good info M f) (hk : info.Live k) (v : ValueT)
    (hfits : (∃ b ∈ M.buckets, b.first = k) ∨ M.numBuckets < 2 ^ 31 ∨ M.numEntries + 1 < 2 ^ 29) :
    (∃ w b, f k = some w ∧ DenseMap.tryEmplace info M k v = some (M, b, false) ∧
      M.entryAt b = some (k, w)) ∨
    (∃ M' b, f k = none ∧ DenseMap.tryEmplace info M k v = some (M', b, true) ∧
      M'.entryAt b = some (k, v) ∧ Next info M M' (update f k (some v))) := by
  unfold DenseMap.tryEmplace
  cases hf : f k with
  | some w =>
    obtain ⟨b, hlookup, hb⟩ := hg.wellFormed.lookup_some hg.represents hf
    rw [hlookup]
    exact .inl ⟨w, b, rfl, rfl, entryAt_eq hb⟩
  | none =>
    obtain ⟨b, M', b', hlookup, hinsert, hinserted⟩ := hg.insertNew hk hf v hfits
    rw [hlookup]
    refine .inr ⟨M', b', rfl, ?_, entryAt_eq hinserted.bucket, hinserted.next hg hk hf⟩
    simp only [hinsert, map_some]

theorem Good.findAndConstruct [Inhabited ValueT] (hg : Good info M f)
    (hk : info.Live k)
    (hfits : (∃ b ∈ M.buckets, b.first = k) ∨ M.numBuckets < 2 ^ 31 ∨ M.numEntries + 1 < 2 ^ 29) :
    (∃ w b, f k = some w ∧ DenseMap.findAndConstruct info M k = some (M, b) ∧
      M.buckets[b]? = some ⟨k, some w⟩) ∨
    (∃ M' b, f k = none ∧ DenseMap.findAndConstruct info M k = some (M', b) ∧
      M'.buckets[b]? = some ⟨k, some default⟩ ∧
      Next info M M' (update f k (some default))) := by
  unfold DenseMap.findAndConstruct
  cases hf : f k with
  | some w =>
    obtain ⟨b, hlookup, hb⟩ := hg.wellFormed.lookup_some hg.represents hf
    rw [hlookup]
    exact .inl ⟨w, b, rfl, rfl, hb⟩
  | none =>
    obtain ⟨b, M', b', hlookup, hinsert, hinserted⟩ := hg.insertNew hk hf default hfits
    rw [hlookup]
    exact .inr ⟨M', b', rfl, hinsert, hinserted.bucket, hinserted.next hg hk hf⟩

theorem Good.assign (hg : Good info M f) (hk : info.Live k) {w : ValueT} (v : ValueT)
    {b : Nat} (hb : M.buckets[b]? = some ⟨k, some w⟩) :
    Next info M (M.writeAt b v) (update f k (some v)) := by
  obtain ⟨h', hrep'⟩ := hg.wellFormed.writeAt hg.represents hk v hb
  exact ⟨⟨h', ⟨hg.sparse.load, hg.sparse.few⟩, hrep'⟩, id, .inl rfl⟩

theorem Good.erase (hg : Good info M f) (hk : info.Live k) :
    ∃ M', DenseMap.erase info M k = some (M', (f k).isSome) ∧ Next info M M' (update f k none) := by
  have h := hg.wellFormed
  have hrep := hg.represents
  unfold DenseMap.erase
  cases hf : f k with
  | none =>
    obtain ⟨b, hlookup⟩ := h.lookup_none hrep hk hf
    rw [hlookup, show update f k none = f by rw [← hf, update_eq_self]]
    exact ⟨M, rfl, hg.same⟩
  | some w =>
    obtain ⟨b, hlookup, hb⟩ := h.lookup_some hrep hf
    have hne : M.numBuckets ≠ 0 := by
      have := (List.getElem?_eq_some_iff.mp hb).1
      have := h.length
      omega
    have hload := hg.sparse.load hne
    have hfew := hg.sparse.few
    obtain ⟨h', hpos⟩ := @WellFormed.bury _ _ info M _ h b ⟨info.tombstoneKey, none⟩ _ hb hk rfl
    have hsub : subUnsigned M.numEntries 1 = M.numEntries - 1 :=
      subUnsigned_of_le hpos (by omega)
    rw [hlookup]
    refine ⟨_, rfl, ⟨h', ⟨fun _ => ?_, ?_⟩, ?_⟩, id, .inl rfl⟩
    · show subUnsigned M.numEntries 1 * 4 < M.numBuckets * 3
      omega
    · show subUnsigned M.numEntries 1 ≤ 3 * 2 ^ 28
      omega
    · intro k' v'
      have hmem := @Probed.mem_set_of_live _ _ info _ b _ ⟨info.tombstoneKey, none⟩ _
        (h.probed_of_ne hne) ⟨k', some v'⟩ hb hk
      rw [hmem]
      by_cases heq : k' = k
      · subst heq
        simp
      · rw [update_of_ne heq, hrep k' v']
        simp [heq]

theorem Emptied.good {M' : DenseMap KeyT ValueT} (h : Emptied info M') :
    Good info M' fun _ => none :=
  ⟨h.wellFormed, h.sparse, fun k v =>
    ⟨fun hn => (by cases hn), fun ⟨hk, hmem⟩ => absurd hk (h.empty _ hmem)⟩⟩

theorem step_refines [Inhabited ValueT] (hg : Good info M f) (isPodLike : Bool)
    (op : Op KeyT ValueT) (hvalid : op.Valid info) (hfits : Fits M op) :
    ∃ M', step info isPodLike M op = some (M', (mapStep f op).2) ∧
      Good info M' (mapStep f op).1 ∧ (Roomy M → Roomy M') ∧ (op.KeepsRoom → Kept M M') := by
  have hnext : ∀ {M' f'}, Next info M M' f' →
      Good info M' f' ∧ (Roomy M → Roomy M') ∧ (op.KeepsRoom → Kept M M') := fun h =>
    ⟨h.good, h.roomy, fun _ => h.kept⟩
  cases op with
  | insert k v | tryEmplace k v =>
    simp only [step, mapStep, DenseMap.insert]
    rcases hg.tryEmplace hvalid v (hfits k rfl) with
      ⟨w, b, hf, heq, hentry⟩ | ⟨M', b, hf, heq, hentry, hn⟩
    · simp only [hf, heq, bind_some, hentry, map_some]
      exact ⟨M, rfl, hnext hg.same⟩
    · simp only [hf, heq, bind_some, hentry, map_some]
      exact ⟨M', rfl, hnext hn⟩
  | subscript k =>
    simp only [step, mapStep]
    rcases hg.findAndConstruct hvalid (hfits k rfl) with
      ⟨w, b, hf, heq, hb⟩ | ⟨M', b, hf, heq, hb, hn⟩
    · simp only [hf, heq, bind_some, entryAt_eq hb, map_some]
      exact ⟨M, rfl, hnext hg.same⟩
    · simp only [hf, heq, bind_some, entryAt_eq hb, map_some]
      exact ⟨M', rfl, hnext hn⟩
  | assign k v =>
    simp only [step, mapStep]
    rcases hg.findAndConstruct hvalid (hfits k rfl) with
      ⟨w, b, hf, heq, hb⟩ | ⟨M', b, hf, heq, hb, hn⟩
    · simp only [heq, map_some]
      exact ⟨_, rfl, hnext (hg.assign hvalid v hb)⟩
    · have hn' := hn.good.assign hvalid v hb
      rw [update_idem] at hn'
      simp only [heq, map_some]
      refine ⟨_, rfl, hn'.good, fun hr => hn'.roomy (hn.roomy hr), fun _ => ?_⟩
      exact hn.kept
  | find k =>
    simp only [step, mapStep, DenseMap.find]
    cases hf : f k with
    | none =>
      obtain ⟨b, hlookup⟩ := hg.wellFormed.lookup_none hg.represents hvalid hf
      simp only [hlookup, bind_some]
      exact ⟨M, rfl, hnext hg.same⟩
    | some w =>
      obtain ⟨b, hlookup, hb⟩ := hg.wellFormed.lookup_some hg.represents hf
      simp only [hlookup, bind_some, entryAt_eq hb, map_some]
      exact ⟨M, rfl, hnext hg.same⟩
  | erase k =>
    obtain ⟨M', heq, hn⟩ := hg.erase hvalid
    simp only [step, mapStep, heq, map_some]
    exact ⟨M', rfl, hnext hn⟩
  | clear =>
    obtain ⟨M', heq, hempty, _, hroomy⟩ := hg.wellFormed.clear hg.sparse isPodLike
    simp only [step, mapStep, heq, map_some]
    exact ⟨M', rfl, hempty.good, hroomy, fun hk => hk.elim⟩
  | reserve N =>
    obtain ⟨M', heq, h', hs', hsame, _, _, hroomy⟩ := hg.wellFormed.reserve hg.sparse N
    simp only [step, mapStep, heq, map_some]
    exact ⟨M', rfl, ⟨h', hs', hsame.represents hg.represents⟩, hroomy, fun hk => hk.elim⟩

/-! ## Runs -/

theorem run_cons [Inhabited ValueT] {isPodLike : Bool} {M₁ : DenseMap KeyT ValueT}
    {op : Op KeyT ValueT} {seen : Seen KeyT ValueT}
    (hstep : step info isPodLike M op = some (M₁, seen)) (ops : List (Op KeyT ValueT)) :
    run info isPodLike M (op :: ops) =
      (run info isPodLike M₁ ops).map fun rest => (rest.1, seen :: rest.2) := by
  show (step info isPodLike M op).bind _ = _
  rw [hstep]
  rfl

theorem run_refines [Inhabited ValueT] (isPodLike : Bool) (ops : List (Op KeyT ValueT)) :
    ∀ {M : DenseMap KeyT ValueT} {f : KeyT → Option ValueT}, Good info M f →
      (∀ op ∈ ops, op.Valid info) → AllFit info isPodLike M ops →
      ∃ M', run info isPodLike M ops = some (M', (mapRun f ops).2) ∧
        Good info M' (mapRun f ops).1 ∧ (Roomy M → Roomy M') := by
  induction ops with
  | nil => exact fun hg _ _ => ⟨_, rfl, hg, id⟩
  | cons op ops ih =>
    intro M f hg hvalid hfit
    obtain ⟨M₁, hstep, hg₁, hroomy, _⟩ :=
      step_refines hg isPodLike op (hvalid op mem_cons_self) hfit.1
    have hfit₁ := hfit.2
    rw [hstep] at hfit₁
    obtain ⟨M', hrun, hg', hroomy'⟩ :=
      ih hg₁ (fun o ho => hvalid o (mem_cons_of_mem op ho)) hfit₁
    refine ⟨M', ?_, hg', fun hr => hroomy' (hroomy hr)⟩
    rw [run_cons hstep, hrun]
    rfl

variable (info) in
/-- After a reservation the table keeps its size in every run that does not give the room away,
as long as the map does not hold more entries than were reserved. -/
def NoGrowth [Inhabited ValueT] (isPodLike : Bool) (M : DenseMap KeyT ValueT) (N : Nat) : Prop :=
  ∃ M', reserve info M N = some M' ∧ ∀ ops : List (Op KeyT ValueT),
    (∀ op ∈ ops, op.Valid info ∧ op.KeepsRoom) → FitsWithin info isPodLike N M' ops →
    ∀ M'' seen, run info isPodLike M' ops = some (M'', seen) → M''.numBuckets = M'.numBuckets

theorem run_keeps [Inhabited ValueT] (isPodLike : Bool) {N : Nat} (ops : List (Op KeyT ValueT)) :
    ∀ {M : DenseMap KeyT ValueT} {f : KeyT → Option ValueT}, Good info M f →
      (N = 0 ∨ N * 4 < M.numBuckets * 3 ∧ 64 ≤ M.numBuckets) →
      (∀ op ∈ ops, op.Valid info ∧ op.KeepsRoom) → FitsWithin info isPodLike N M ops →
      ∀ M'' seen, run info isPodLike M ops = some (M'', seen) → M''.numBuckets = M.numBuckets := by
  induction ops with
  | nil =>
    intro M f _ _ _ _ M'' seen hrun
    obtain ⟨rfl, rfl⟩ := Prod.mk.inj (some.inj hrun)
    rfl
  | cons op ops ih =>
    intro M f hg hload hops hfit M'' seen hrun
    obtain ⟨hvalid, hkeeps⟩ := hops op mem_cons_self
    obtain ⟨M₁, hstep, hg₁, _, hkept⟩ := step_refines hg isPodLike op hvalid hfit.1
    have hfit₁ := hfit.2
    rw [hstep] at hfit₁
    obtain ⟨hle, hfit₁⟩ := hfit₁
    have hsize : M₁.numBuckets = M.numBuckets := by
      rcases hkept hkeeps with heq | ⟨hentries, hmany⟩
      · exact heq
      · rcases hload with hzero | ⟨hload, hge⟩ <;> omega
    rw [run_cons hstep] at hrun
    obtain ⟨⟨M₂, rest⟩, hrun₁, hpair⟩ := map_eq_some_iff.mp hrun
    obtain ⟨rfl, rfl⟩ := Prod.mk.inj hpair
    rw [← hsize]
    exact ih hg₁ (by rwa [hsize]) (fun o ho => hops o (mem_cons_of_mem op ho)) hfit₁
      M₂ rest hrun₁

theorem Good.noGrowth [Inhabited ValueT] (hg : Good info M f) (hroomy : Roomy M)
    (isPodLike : Bool) {N : Nat} (hN : N < 3 * 2 ^ 28) : NoGrowth info isPodLike M N := by
  obtain ⟨M', hreserve, h', hs', hsame, _, hmin, hroomy'⟩ := hg.wellFormed.reserve hg.sparse N
  have hg' : Good info M' f := ⟨h', hs', hsame.represents hg.represents⟩
  refine ⟨M', hreserve, fun ops hops hfit => run_keeps isPodLike ops hg' ?_ hops hfit⟩
  by_cases hzero : N = 0
  · exact .inl hzero
  · obtain ⟨hlt, htwo⟩ := lt_getMinBucketToReserveForEntries hzero hN
    refine .inr ⟨by omega, ?_⟩
    rcases hroomy' hroomy with hle | hge
    · omega
    · exact hge

theorem Good.ncard_eq (hg : Good info M f) : {k | f k ≠ none}.ncard = M.numEntries := by
  have h := hg.wellFormed
  let keys := (M.buckets.filter fun b => decide (info.Live b.first)).map Bucket.first
  have hnodup : keys.Nodup := by
    refine pairwise_map.mpr (pairwise_filter.mpr (h.pairwise.imp ?_))
    intro b c hne hb _
    exact hne (of_decide_eq_true hb)
  have hmem : {k | f k ≠ none} = (keys.toFinset : Set KeyT) := by
    ext k
    simp only [Set.mem_ofPred_eq, coe_toFinset, keys, List.mem_map, mem_filter, decide_eq_true_eq]
    constructor
    · intro hne
      obtain ⟨v, hv⟩ := ne_none_iff_exists'.mp hne
      obtain ⟨hk, hb⟩ := (hg.represents k v).mp hv
      exact ⟨_, ⟨hb, hk⟩, rfl⟩
    · rintro ⟨b, ⟨hb, hk⟩, rfl⟩ hnone
      exact h.ne_of_none hg.represents hk hnone b hb rfl
  rw [hmem, Set.ncard_coe_finset, toFinset_card_of_nodup hnodup, h.entries, length_map,
    ← countP_eq_length_filter]
  rfl

variable (info) in
/-- What the client of a dense map relies on in every state: the counters are those of the
buckets, some bucket of a table is empty and every probe sequence visits it, every lookup ends,
and the map holds as many entries as it has keys. -/
structure Sound (M : DenseMap KeyT ValueT) (f : KeyT → Option ValueT) : Prop where
  represents : Represents info M f
  size : {k | f k ≠ none}.ncard = M.numEntries
  entries : M.numEntries = liveCount info Bucket.first M.buckets
  tombstones : M.numTombstones = tombstoneCount info Bucket.first M.buckets
  length : M.buckets.length = M.numBuckets
  vacant : M.numBuckets ≠ 0 → ∃ b ∈ M.buckets, b.first = info.emptyKey
  visits : ∀ k, ∀ i < M.numBuckets, ∃ j < M.numBuckets, probe M.numBuckets (info.hash k) j = i
  lookup : ∀ k, info.Live k → ∃ found, lookupBucketFor info M k = some found

theorem Good.sound (hg : Good info M f) : Sound info M f := by
  have h := hg.wellFormed
  refine ⟨hg.represents, hg.ncard_eq, h.entries, h.tombstones, h.length,
    fun hne => (h.probed_of_ne hne).vacant, fun k i hi => ?_, fun k hk => h.exists_lookup hk⟩
  obtain ⟨m, _, hsize⟩ := h.numBuckets_eq (by omega)
  rw [hsize] at hi ⊢
  exact exists_probe (info.hash k) hi

/-- In every run from a new map whose calls fit, the dense map is the finite map, and a
reservation of fewer than `3 * 2 ^ 28` entries in an empty map holds. -/
theorem behaves_as_map [Inhabited ValueT] (info : KeyInfo KeyT) (isPodLike : Bool)
    (InitialReserve : Nat) (ops : List (Op KeyT ValueT)) (hvalid : ∀ op ∈ ops, op.Valid info) :
    ∃ M₀, construct info InitialReserve = some M₀ ∧ (AllFit info isPodLike M₀ ops →
        ∃ M, run info isPodLike M₀ ops = some (M, (mapRun (fun _ => none) ops).2) ∧
          Sound info M (mapRun (fun _ => none) ops).1 ∧
          (InitialReserve = 0 → M.numEntries = 0 → ∀ N < 3 * 2 ^ 28,
            NoGrowth info isPodLike M N)) := by
  obtain ⟨M₀, hinit, hempty, _, hbuckets⟩ :=
    @init_eq _ _ info _ (⟨[], 0, 0, 0⟩ : DenseMap KeyT ValueT) InitialReserve
  refine ⟨M₀, hinit, fun hfit => ?_⟩
  obtain ⟨M, hrun, hg, hroomy⟩ := run_refines isPodLike ops hempty.good hvalid hfit
  refine ⟨M, hrun, hg.sound, fun hzero _ N hN => hg.noGrowth (hroomy ?_) isPodLike hN⟩
  rw [hzero] at hbuckets
  exact .inl (by rw [hbuckets]; decide)

/-- The keys of type `unsigned`. -/
def unsignedInfo : KeyInfo Nat where
  emptyKey := 2 ^ 32 - 1
  tombstoneKey := 2 ^ 32 - 2
  hash Val := toUnsigned (Val * 37)
  empty_ne_tombstone := by decide

theorem behaves_as_map_unsigned :
    ∃ M₀, construct unsignedInfo 0 = some M₀ ∧
      (AllFit unsignedInfo true M₀ [.insert 1 10, .erase 1, .assign 2 20, .reserve 100] →
        ∃ M, run unsignedInfo true M₀ [.insert 1 10, .erase 1, .assign 2 20, .reserve 100] =
            some (M, (mapRun (fun _ => none)
              [.insert 1 10, .erase 1, .assign 2 20, .reserve 100]).2) ∧
          Sound unsignedInfo M (mapRun (fun _ => none)
            [.insert 1 (10 : Nat), .erase 1, .assign 2 20, .reserve 100]).1 ∧
          ((0 : Nat) = 0 → M.numEntries = 0 → ∀ N < 3 * 2 ^ 28, NoGrowth unsignedInfo true M N)) :=
  behaves_as_map unsignedInfo true 0 _ (by decide)

/-- What the reservation of `2 ^ 30` entries gives: the product of four wraps to zero, and the
table has the least size. -/
def reservedTable : DenseMap Nat Nat :=
  ⟨replicate 64 ⟨unsignedInfo.emptyKey, none⟩, 0, 0, 64⟩

/-- As many insertions as a table of 64 buckets can take, and one more. -/
def insertions : List (Op Nat Nat) := (List.range 48).map fun k => .insert k k

/-- A reservation of `2 ^ 30` entries in an empty map does not hold: the table grows when the map
holds 48. -/
theorem not_noGrowth :
    ¬ ∀ M : DenseMap Nat Nat, construct unsignedInfo 0 = some M →
      ∀ N : Nat, NoGrowth unsignedInfo true M N := by
  intro hclaim
  obtain ⟨M', hreserve, hkeep⟩ := hclaim ⟨[], 0, 0, 0⟩ rfl (2 ^ 30)
  have htable : reserve unsignedInfo ⟨[], 0, 0, 0⟩ (2 ^ 30) = some reservedTable := by
    decide +kernel
  obtain rfl := some.inj (hreserve.symm.trans htable)
  have hsize : (run unsignedInfo true reservedTable insertions).map (fun r => r.1.numBuckets) =
      some 128 := by
    decide +kernel
  obtain ⟨⟨M'', seen⟩, hrun, h128⟩ := map_eq_some_iff.mp hsize
  have hsame := hkeep insertions (by decide +kernel) (by decide +kernel) M'' seen hrun
  have h64 : M''.numBuckets = 64 := hsame
  exact absurd (h64.symm.trans h128) (by decide)

end Zapcc.ADT.DenseMap
