import Mathlib.Data.FinEnum
import Zapcc.Support.OnDiskHashLayout

/-!
# The emitted hash table

How many buckets and how many bytes a table takes, when all offsets fit `offset_type`. Entries
that fit are few (`few_of_offsetsFit`), since different keys take room. `emit_spec` says what the
emitted bytes hold: the payload, and for every bucket the offset where its items lie.
-/

namespace Zapcc.OnDiskHashTable

open Digits MathExtras Layout Generator List

variable {Key External Data : Type} {I : Info Key External Data}

/-- The number of buckets of the emitted table, in unbounded arithmetic. -/
def numBuckets (n : Nat) : Nat := if n ≤ 2 then 1 else 2 ^ (n * 4 / 3).size

/-- The bucket of an entry in the emitted table of `n` entries. -/
def emittedHome (I : Info Key External Data) (n : Nat) (e : Key × Data) : Nat :=
  (I.ComputeHash e.1).toNat &&& (numBuckets n - 1)

/-- The number of bytes of an item. -/
def entryLength (I : Info Key External Data) (e : Key × Data) : Nat :=
  I.hashBytes + (payloadBytes I e).length

/-- The number of bytes that the buckets take: their items, and a count for every bucket that is
not empty. -/
def payloadLength (I : Info Key External Data) (entries : List (Key × Data)) : Nat :=
  (entries.map (entryLength I)).sum + 2 * (List.range (numBuckets entries.length)).countP
    fun i => entries.any fun e => emittedHome I entries.length e == i

/-- All offsets up to the one of the hash table fit `offset_type`. -/
def OffsetsFit (I : Info Key External Data) (Out : List (BitVec 8))
    (entries : List (Key × Data)) : Prop :=
  alignTo (Out.length + payloadLength I entries) I.offsetBytes < 2 ^ (8 * I.offsetBytes)

theorem Info.DecodesBack.key_inj (hI : I.DecodesBack) {e e' : Key × Data}
    (h : (I.EmitKeyDataLength e.1 e.2).1 ++ I.EmitKey e.1 (I.EmitKeyDataLength e.1 e.2).2.1 =
      (I.EmitKeyDataLength e'.1 e'.2).1 ++ I.EmitKey e'.1 (I.EmitKeyDataLength e'.1 e'.2).2.1) :
    e.1 = e'.1 := by
  have hread := hI.lengths e.1 e.2 (I.EmitKey e.1 (I.EmitKeyDataLength e.1 e.2).2.1)
  rw [h, hI.lengths, Prod.mk.injEq] at hread
  obtain ⟨hlens, hlength⟩ := hread
  have hkeys := (append_inj h hlength.symm).2
  have hkey := hI.key e.1 e.2 []
  rw [hkeys, ← hlens, hI.key] at hkey
  exact hkey.symm

variable {entries : List (Key × Data)}

theorem few_of_offsetsFit (hI : I.DecodesBack) {Out : List (BitVec 8)}
    (hdistinct : (entries.map Prod.fst).Nodup)
    (hfit : OffsetsFit I Out entries) : Few I entries.length := by
  have hpos : 0 < I.offsetBytes := by
    rcases I.offsetBytes_eq with h | h
    · omega
    · omega
  have htags : (entries.map fun e => (I.EmitKeyDataLength e.1 e.2).1 ++
      I.EmitKey e.1 (I.EmitKeyDataLength e.1 e.2).2.1).Nodup := by
    have hentries : entries.Nodup := hdistinct.of_map
    refine hentries.map_on fun e he e' he' hsame => ?_
    exact inj_on_of_nodup_map hdistinct he he' (hI.key_inj hsame)
  have htwo := two_mul_length_le htags
  have hcard : Fintype.card (BitVec 8) = 256 := by
    rw [← FinEnum.card_eq_fintypeCard, FinEnum.card_bitVec]
    rfl
  rw [hcard, length_map, map_map] at htwo
  have hsum : ∀ l : List (Key × Data),
      4 * l.length + (l.map (List.length ∘ fun e => (I.EmitKeyDataLength e.1 e.2).1 ++
        I.EmitKey e.1 (I.EmitKeyDataLength e.1 e.2).2.1)).sum ≤
      (l.map (entryLength I)).sum := by
    intro l
    induction l with
    | nil => simp
    | cons e l ih =>
      have hfour : 4 ≤ I.hashBytes := by
        rcases I.hashBytes_eq with h | h
        · omega
        · omega
      simp only [map_cons, sum_cons, length_cons, Function.comp_apply,
        entryLength, payloadBytes, length_append] at ih ⊢
      omega
  have hle := le_alignTo hpos (Out.length + payloadLength I entries)
  have hentries := hsum entries
  unfold OffsetsFit payloadLength at *
  unfold Few
  omega

theorem countP_range {α : Type} {p : α → Bool} {q : Nat → Bool} {l : List α}
    (h : ∀ (i : Nat) (a : α), l[i]? = some a → p a = q i) :
    (List.range l.length).countP q = l.countP p := by
  have hmap : (List.range l.length).map q = l.map p := by
    apply ext_getElem
    · simp
    · intro i hi _
      have hlt : i < l.length := by simpa using hi
      rw [getElem_map, getElem_map, getElem_range, h i l[i] (getElem?_eq_getElem hlt)]
  calc (List.range l.length).countP q = ((List.range l.length).map q).countP id :=
        (countP_map (p := id) (f := q)).symm
    _ = (l.map p).countP id := by rw [hmap]
    _ = l.countP p := countP_map (p := id) (f := p)

theorem length_bucket {Bs : List (Bucket I)} (hplaced : Placed Bs)
    (hlength : Bs.length = numBuckets entries.length)
    (hinserted : ((items Bs).map Item.entry).Perm entries)
    (hdistinct : (entries.map Prod.fst).Nodup) {i : Nat} {B : Bucket I} (hB : Bs[i]? = some B) :
    B.Head.length = entries.countP (fun e => emittedHome I entries.length e == i) := by
  have hkeys : ((items Bs).map Item.entry).Nodup :=
    hinserted.nodup_iff.mpr hdistinct.of_map
  have hitems : (items Bs).Nodup := hkeys.of_map
  have hsub : B.Head.Sublist (items Bs) := by
    exact sublist_flatten_of_mem (mem_map_of_mem (mem_of_getElem? hB))
  have hperm : B.Head.Perm ((items Bs).filter fun E => home Bs.length E == i) := by
    refine (perm_ext_iff_of_nodup (hitems.sublist hsub) (hitems.filter _)).mpr fun E => ?_
    rw [mem_bucket_iff hplaced hB, mem_filter, beq_iff_eq]
  calc B.Head.length = (items Bs).countP fun E => home Bs.length E == i := by
        rw [hperm.length_eq, countP_eq_length_filter]
    _ = ((items Bs).map Item.entry).countP
          (fun e => emittedHome I entries.length e == i) := by
        rw [countP_map]
        refine countP_congr fun E _ => ?_
        have hhash : home Bs.length E = emittedHome I entries.length E.entry := by
          rw [home, E.hash_eq, hlength]
          rfl
        rw [Function.comp_apply, hhash]
    _ = entries.countP (fun e => emittedHome I entries.length e == i) := hinserted.countP_eq _

theorem length_payload {Bs : List (Bucket I)} (hplaced : Placed Bs)
    (hlength : Bs.length = numBuckets entries.length)
    (hinserted : ((items Bs).map Item.entry).Perm entries)
    (hdistinct : (entries.map Prod.fst).Nodup) :
    (Bs.flatMap bucketBytes).length = payloadLength I entries := by
  have hbytes : ∀ l : List (Item I),
      (l.flatMap itemBytes).length = (l.map (entryLength I ∘ Item.entry)).sum := by
    intro l
    induction l with
    | nil => rfl
    | cons E l ih =>
      rw [flatMap_cons, length_append, ih, length_itemBytes]
      rfl
  have hsum : ∀ Bs : List (Bucket I), (Bs.flatMap bucketBytes).length =
      ((items Bs).map (entryLength I ∘ Item.entry)).sum + 2 * Bs.countP (fun B => B.Head ≠ []) := by
    intro Bs
    induction Bs with
    | nil => rfl
    | cons B Bs ih =>
      have hcons : items (B :: Bs) = B.Head ++ items Bs := rfl
      rw [flatMap_cons, length_append, ih, hcons, map_append, sum_append, countP_cons, bucketBytes]
      by_cases hB : B.Head = []
      · simp [hB]
      · rw [if_neg hB, length_append, length_ofValue, hbytes]
        simp only [ne_eq, hB, not_false_eq_true, decide_true, if_true]
        omega
  rw [hsum, payloadLength, ← hlength, ← (hinserted.map (entryLength I)).sum_nat, map_map]
  congr 2
  refine (countP_range fun i B hB => ?_).symm
  have hcount := length_bucket hplaced hlength hinserted hdistinct hB
  rw [Bool.eq_iff_iff, decide_eq_true_iff, any_eq_true]
  constructor
  · intro hne
    have hpos := length_pos_of_ne_nil hne
    rw [hcount, countP_pos_iff] at hpos
    exact hpos
  · intro hex
    rw [← countP_pos_iff, ← hcount] at hex
    exact ne_nil_of_length_pos hex

theorem targetNumBuckets_eq {g : Generator I}
    (h : Holds g entries) (hfew : Few I entries.length) :
    g.TargetNumBuckets = toUnsigned (numBuckets entries.length) := by
  have hlt := hfew.four_mul_lt
  have hwide : 2 ^ (8 * I.offsetBytes) ≤ 2 ^ 64 := by
    refine Nat.pow_le_pow_right (by omega) ?_
    rcases I.offsetBytes_eq with hw | hw
    · omega
    · omega
  have hmul : I.toOffset (entries.length * 4) = entries.length * 4 :=
    Nat.mod_eq_of_lt (by omega)
  unfold TargetNumBuckets numBuckets
  rw [h.numEntries, hmul]
  by_cases hn : entries.length ≤ 2
  · rw [if_pos hn, if_pos hn]
    rfl
  · rw [if_neg hn, if_neg hn, nextPowerOf2_eq (by omega)]

theorem shrink_spec {g : Generator I} (h : Holds g entries)
    (hfew : Few I entries.length) (hfit : numBuckets entries.length < 2 ^ 32) :
    ∃ g', g.shrink = some g' ∧ g'.NumEntries = entries.length ∧
      g'.Buckets.length = numBuckets entries.length ∧ Placed g'.Buckets ∧
      ((items g'.Buckets).map Item.entry).Perm entries := by
  have htarget := targetNumBuckets_eq h hfew
  rw [toUnsigned_of_lt hfit] at htarget
  have hpos : 0 < g.TargetNumBuckets := by
    rw [htarget, numBuckets]
    split
    · omega
    · exact Nat.two_pow_pos _
  unfold shrink
  by_cases hsame : g.TargetNumBuckets ≠ g.NumBuckets
  · obtain ⟨g', hresize, hentries, hbuckets, hplaced, hitems⟩ := resize_spec g hpos
    rw [if_pos hsame]
    exact ⟨g', hresize, hentries.trans h.numEntries, hbuckets.trans htarget, hplaced,
      (hitems.map _).trans h.inserted⟩
  · rw [if_neg hsame]
    refine ⟨g, rfl, h.numEntries, ?_, h.placed, h.inserted⟩
    rw [← htarget]
    exact (not_not.mp hsame).symm

theorem shrink_none {g : Generator I} (h : Holds g entries)
    (hfew : Few I entries.length) (hwide : 2 ^ 32 ≤ numBuckets entries.length) :
    g.shrink = none := by
  have hmany : ¬ entries.length ≤ 2 := by
    intro hle
    rw [numBuckets, if_pos hle] at hwide
    omega
  have htarget : g.TargetNumBuckets = 0 := by
    rw [targetNumBuckets_eq h hfew]
    rw [numBuckets, if_neg hmany] at hwide ⊢
    have hle : 32 ≤ (entries.length * 4 / 3).size := (Nat.pow_le_pow_iff_right (by omega)).mp hwide
    exact Nat.mod_eq_zero_of_dvd (Nat.pow_dvd_pow 2 hle)
  have hne : g.TargetNumBuckets ≠ g.NumBuckets := by
    obtain ⟨k, hk⟩ := h.numBuckets
    have hpos := Nat.two_pow_pos k
    omega
  have hitems : items g.Buckets ≠ [] := by
    intro hnil
    have hlength := h.inserted.length_eq
    rw [hnil] at hlength
    exact hmany (by rw [← hlength]; simp)
  rw [shrink, if_pos hne, htarget, resize_zero hitems]

/-- What the emitted bytes hold. -/
structure Emitted (entries : List (Key × Data)) (start : Nat) (Bs : List (Bucket I))
    (T : Table I) : Prop where
  placed : Placed Bs
  inserted : ((items Bs).map Item.entry).Perm entries
  numBuckets : T.NumBuckets = Bs.length
  length : Bs.length = OnDiskHashTable.numBuckets entries.length
  numEntries : T.NumEntries = entries.length
  payload : LiesAt T.Base start (Bs.flatMap bucketBytes)
  payload_lt : start + (Bs.flatMap bucketBytes).length < 2 ^ (8 * I.offsetBytes)
  bucket : ∀ (i : Nat) (B : Bucket I), Bs[i]? = some B → ∃ Ptr,
    readNext I.offsetBytes T.Base (T.Buckets + I.offsetBytes * i) =
      some (if B.Head = [] then 0 else Ptr, T.Buckets + I.offsetBytes * i + I.offsetBytes) ∧
    (B.Head ≠ [] → 0 < Ptr ∧ LiesAt T.Base Ptr (bucketBytes B) ∧
      Ptr + (bucketBytes B).length < 2 ^ (8 * I.offsetBytes))

theorem readNext_offset {Base : List (BitVec 8)} {Ptr x : Nat}
    (h : LiesAt Base Ptr (ofValue 8 I.offsetBytes x)) (hx : x < 2 ^ (8 * I.offsetBytes)) :
    readNext I.offsetBytes Base Ptr = some (x, Ptr + I.offsetBytes) := by
  rw [Nat.pow_mul] at hx
  rw [readNext_of_liesAt h, Nat.mod_eq_of_lt hx]

theorem emit_spec {Out : List (BitVec 8)}
    {g : Generator I} (h : Holds g entries) (hfew : Few I entries.length)
    (hwidth : numBuckets entries.length < 2 ^ 32) (hOut : Out ≠ [])
    (hdistinct : (entries.map Prod.fst).Nodup) (hfit : OffsetsFit I Out entries) :
    ∃ bytes TableOff T Bs, g.Emit Out = some (bytes, TableOff) ∧
      Table.Create I TableOff bytes = some T ∧ Emitted entries Out.length Bs T := by
  obtain ⟨g', hshrink, hentries, hlength, hplaced, hinserted⟩ := shrink_spec h hfew hwidth
  obtain ⟨hbytes, hcount, hplace⟩ := emitPayload_spec Out g'.Buckets
  have hpayload := length_payload hplaced hlength hinserted hdistinct
  have hlen : (emitPayload Out g'.Buckets).1.length = Out.length + payloadLength I entries := by
    rw [hbytes, length_append, hpayload]
  have hpos : 0 < I.offsetBytes := by
    rcases I.offsetBytes_eq with hw | hw
    · omega
    · omega
  have hwide : 2 ^ 32 ≤ 2 ^ (8 * I.offsetBytes) := by
    refine Nat.pow_le_pow_right (by omega) ?_
    rcases I.offsetBytes_eq with hw | hw
    · omega
    · omega
  have hend := le_alignTo hpos (Out.length + payloadLength I entries)
  unfold OffsetsFit at hfit
  rw [← hlen] at hfit hend
  have htable := emitTable_spec (n := g'.NumEntries) hfit
  obtain ⟨hoff, hkeep, hnum, hnument, hoffs⟩ := htable (emitPayload Out g'.Buckets).2
  have hemit : g.Emit Out = some (emitTable (emitPayload Out g'.Buckets).1 g'.NumEntries
      (emitPayload Out g'.Buckets).2) := by
    rw [Emit, hshrink]
    rfl
  generalize emitTable (emitPayload Out g'.Buckets).1 g'.NumEntries
    (emitPayload Out g'.Buckets).2 = table at *
  obtain ⟨bytes, TableOff⟩ := table
  obtain rfl : TableOff = alignTo (emitPayload Out g'.Buckets).1.length I.offsetBytes := hoff
  refine ⟨bytes, _, ⟨g'.Buckets.length, g'.NumEntries,
    alignTo (emitPayload Out g'.Buckets).1.length I.offsetBytes + I.offsetBytes + I.offsetBytes,
    bytes⟩, g'.Buckets, hemit, ?_, hplaced, hinserted, rfl, hlength, hentries, ?_, ?_, ?_⟩
  · rw [Table.Create, readNext_offset hnum (by rw [hcount, hlength]; omega), Option.bind_some,
      readNext_offset hnument (by have hlt := hfew.four_mul_lt; rw [hentries]; omega), hcount]
    rfl
  · refine hkeep _ _ ?_
    have hat := liesAt_append Out (g'.Buckets.flatMap bucketBytes) []
    rwa [append_nil, ← hbytes] at hat
  · omega
  · intro i B hB
    obtain ⟨B', hB', hnil, hstart⟩ := hplace i B hB
    have hread := hoffs i B' hB'
    by_cases hhead : B.Head = []
    · refine ⟨0, ?_, fun hne => absurd hhead hne⟩
      rw [hnil hhead, hplaced.off B (mem_of_getElem? hB)] at hread
      rw [readNext_offset hread (Nat.two_pow_pos _), if_pos hhead]
    · obtain ⟨off, hoff', hle, hat⟩ := hstart hhead
      have hlast := hat.1
      have hsmall : B'.Off = off := by
        rw [hoff']
        exact Nat.mod_eq_of_lt (by omega)
      rw [hsmall] at hread
      refine ⟨off, ?_, fun _ => ⟨?_, hkeep _ _ hat, by omega⟩⟩
      · rw [readNext_offset hread (by omega), if_neg hhead]
      · have hstart_pos := length_pos_of_ne_nil hOut
        omega

end Zapcc.OnDiskHashTable
