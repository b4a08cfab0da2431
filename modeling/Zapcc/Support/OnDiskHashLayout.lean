import Zapcc.Library.Layout
import Zapcc.Support.OnDiskHashBuckets

/-!
# The bytes of a hash table on disk

What the generator writes (`emitPayload_spec`, `emitTable_spec`) is what the reader parses: a scan
of a bucket finds the first items with its key (`findItem_spec`), and an iteration visits the
items of all buckets in turn (`iterate_spec`). The count of a bucket is written as 16 bits, so
that the reader sees only as many items of it.
-/

namespace Zapcc.OnDiskHashTable

open Digits MathExtras Layout List Nat Option

variable {Key External Data : Type} {I : Info Key External Data}

/-- The encodings of keys, data and lengths decode back, whatever follows them. -/
structure Info.DecodesBack (I : Info Key External Data) : Prop where
  equal : ∀ a b, I.EqualKey a b = true ↔ a = b
  external : ∀ K, I.GetInternalKey (I.GetExternalKey K) = K
  lengths : ∀ K D rest, I.ReadKeyDataLength ((I.EmitKeyDataLength K D).1 ++ rest) =
    ((I.EmitKeyDataLength K D).2, (I.EmitKeyDataLength K D).1.length)
  keyLength : ∀ K D, (I.EmitKey K (I.EmitKeyDataLength K D).2.1).length =
    (I.EmitKeyDataLength K D).2.1
  dataLength : ∀ K D, (I.EmitData K D (I.EmitKeyDataLength K D).2.2).length =
    (I.EmitKeyDataLength K D).2.2
  key : ∀ K D rest, I.ReadKey (I.EmitKey K (I.EmitKeyDataLength K D).2.1 ++ rest)
    (I.EmitKeyDataLength K D).2.1 = K
  data : ∀ K D rest, I.ReadData K (I.EmitData K D (I.EmitKeyDataLength K D).2.2 ++ rest)
    (I.EmitKeyDataLength K D).2.2 = D

/-- The bytes of an entry behind its hash. -/
def payloadBytes (I : Info Key External Data) (e : Key × Data) : List (BitVec 8) :=
  (I.EmitKeyDataLength e.1 e.2).1 ++ I.EmitKey e.1 (I.EmitKeyDataLength e.1 e.2).2.1 ++
    I.EmitData e.1 e.2 (I.EmitKeyDataLength e.1 e.2).2.2

def itemBytes (E : Item I) : List (BitVec 8) :=
  ofValue 8 I.hashBytes E.Hash.toNat ++ payloadBytes I E.entry

def bucketBytes (B : Bucket I) : List (BitVec 8) :=
  if B.Head = [] then [] else ofValue 8 2 B.Length ++ B.Head.flatMap itemBytes

theorem length_itemBytes (E : Item I) :
    (itemBytes E).length = I.hashBytes + (payloadBytes I E.entry).length := by
  rw [itemBytes, length_append, length_ofValue]

theorem readNext_of_liesAt {Base : List (BitVec 8)} {Ptr n x : Nat}
    (h : LiesAt Base Ptr (ofValue 8 n x)) :
    readNext n Base Ptr = some (x % (2 ^ 8) ^ n, Ptr + n) := by
  have hle := h.1
  have htake := h.take_drop
  rw [length_ofValue] at hle htake
  rw [readNext, if_pos hle, htake, value_ofValue]

theorem hash_mod (E : Item I) : E.Hash.toNat % (2 ^ 8) ^ I.hashBytes = E.Hash.toNat := by
  have hlt := E.Hash.isLt
  rw [Nat.pow_mul] at hlt
  exact mod_eq_of_lt hlt

namespace Generator

theorem emitItems_eq (Out : List (BitVec 8)) (Es : List (Item I)) :
    emitItems Out Es = Out ++ Es.flatMap itemBytes := by
  induction Es generalizing Out with
  | nil => simp [emitItems]
  | cons E Es ih =>
    rw [emitItems, ih, flatMap_cons]
    simp [itemBytes, payloadBytes, Item.entry, append_assoc]

theorem emitPayload_spec (Out : List (BitVec 8)) (Bs : List (Bucket I)) :
    (emitPayload Out Bs).1 = Out ++ Bs.flatMap bucketBytes ∧
    (emitPayload Out Bs).2.length = Bs.length ∧
    ∀ (i : Nat) (B : Bucket I), Bs[i]? = some B → ∃ B', (emitPayload Out Bs).2[i]? = some B' ∧
      (B.Head = [] → B' = B) ∧
      (B.Head ≠ [] → ∃ off, B'.Off = I.toOffset off ∧ Out.length ≤ off ∧
        LiesAt (emitPayload Out Bs).1 off (bucketBytes B)) := by
  induction Bs generalizing Out with
  | nil => simp [emitPayload]
  | cons C Bs ih =>
    by_cases hC : C.Head = []
    · obtain ⟨hbytes, hlength, hplace⟩ := ih Out
      rw [emitPayload, if_pos hC]
      refine ⟨by simp [hbytes, bucketBytes, hC], by simp [hlength], fun i B hB => ?_⟩
      cases i with
      | zero =>
        obtain rfl : C = B := by simpa using hB
        exact ⟨C, rfl, fun _ => rfl, fun hne => absurd hC hne⟩
      | succ i => exact hplace i B (by simpa using hB)
    · have hitems : emitItems (Out ++ ofValue 8 2 C.Length) C.Head = Out ++ bucketBytes C := by
        rw [emitItems_eq, bucketBytes, if_neg hC, append_assoc]
      obtain ⟨hbytes, hlength, hplace⟩ := ih (Out ++ bucketBytes C)
      rw [emitPayload, if_neg hC, hitems]
      refine ⟨?_, by simp [hlength], fun i B hB => ?_⟩
      · rw [hbytes, flatMap_cons, append_assoc]
      · cases i with
        | zero =>
          obtain rfl : C = B := by simpa using hB
          refine ⟨_, rfl, fun hnil => absurd hnil hC, fun _ => ⟨Out.length, rfl, le_rfl, ?_⟩⟩
          rw [hbytes]
          exact liesAt_append Out (bucketBytes C) _
        | succ i =>
          obtain ⟨B', hB', hnil, hoff⟩ := hplace i B (by simpa using hB)
          refine ⟨B', hB', hnil, fun hne => ?_⟩
          obtain ⟨off, hoff', hle, hat⟩ := hoff hne
          exact ⟨off, hoff', by rw [length_append] at hle; omega, hat⟩

theorem emitTable_spec {Out : List (BitVec 8)} {n : Nat}
    (hfit : alignTo Out.length I.offsetBytes < 2 ^ (8 * I.offsetBytes)) (Bs : List (Bucket I)) :
    (emitTable Out n Bs).2 = alignTo Out.length I.offsetBytes ∧
    (∀ off S, LiesAt Out off S → LiesAt (emitTable Out n Bs).1 off S) ∧
    LiesAt (emitTable Out n Bs).1 (alignTo Out.length I.offsetBytes)
      (ofValue 8 I.offsetBytes Bs.length) ∧
    LiesAt (emitTable Out n Bs).1 (alignTo Out.length I.offsetBytes + I.offsetBytes)
      (ofValue 8 I.offsetBytes n) ∧
    ∀ (i : Nat) (B : Bucket I), Bs[i]? = some B → LiesAt (emitTable Out n Bs).1
      (alignTo Out.length I.offsetBytes + I.offsetBytes + I.offsetBytes + I.offsetBytes * i)
      (ofValue 8 I.offsetBytes B.Off) := by
  have hpos : 0 < I.offsetBytes := by
    rcases I.offsetBytes_eq with h | h
    · omega
    · omega
  have hle := le_alignTo hpos Out.length
  have hlen : I.toOffset Out.length = Out.length := mod_eq_of_lt (by omega)
  have hpadded : (Out ++ replicate (alignTo Out.length I.offsetBytes - Out.length)
      0#8).length = alignTo Out.length I.offsetBytes := by
    rw [length_append, length_replicate]
    omega
  have hOut : ∀ off S, LiesAt Out off S → LiesAt (Out ++ replicate
      (alignTo Out.length I.offsetBytes - Out.length) 0#8) off S := fun off S h => h.append _
  unfold emitTable
  simp only [hlen]
  generalize Out ++ replicate (alignTo Out.length I.offsetBytes - Out.length) 0#8 = Padded
    at *
  rw [← hpadded]
  have hBs := liesAt_append Padded (ofValue 8 I.offsetBytes Bs.length)
    (ofValue 8 I.offsetBytes n ++ Bs.flatMap fun B => ofValue 8 I.offsetBytes B.Off)
  have hn := liesAt_append (Padded ++ ofValue 8 I.offsetBytes Bs.length)
    (ofValue 8 I.offsetBytes n) (Bs.flatMap fun B => ofValue 8 I.offsetBytes B.Off)
  have hOffs := liesAt_append (Padded ++ ofValue 8 I.offsetBytes Bs.length ++
    ofValue 8 I.offsetBytes n) (Bs.flatMap fun B => ofValue 8 I.offsetBytes B.Off) []
  simp only [← append_assoc, append_nil, length_append, length_ofValue]
    at hBs hn hOffs
  refine ⟨?_, fun off S h => (((hOut off S h).append _).append _).append _, hBs, hn,
    fun i B hB => ?_⟩
  · have hsum : Out.length + (Padded.length - Out.length) = Padded.length := by omega
    rw [hsum]
    exact mod_eq_of_lt (by omega)
  · exact hOffs.trans (liesAt_flatMap (fun B => length_ofValue _ _) hB)

end Generator

variable {Base : List (BitVec 8)}

theorem read_payload (hI : I.DecodesBack) {e : Key × Data} {Ptr : Nat}
    (h : LiesAt Base Ptr (payloadBytes I e)) :
    ∃ lengths KeyLen DataLen, I.ReadKeyDataLength (Base.drop Ptr) = ((KeyLen, DataLen), lengths) ∧
      (payloadBytes I e).length = lengths + KeyLen + DataLen ∧
      I.ReadKey (Base.drop (Ptr + lengths)) KeyLen = e.1 ∧
      I.ReadData e.1 (Base.drop (Ptr + lengths + KeyLen)) DataLen = e.2 := by
  refine ⟨(I.EmitKeyDataLength e.1 e.2).1.length, (I.EmitKeyDataLength e.1 e.2).2.1,
    (I.EmitKeyDataLength e.1 e.2).2.2, ?_, ?_, ?_, ?_⟩
  · rw [h.left.left.drop, hI.lengths]
  · rw [payloadBytes, length_append, length_append, hI.keyLength, hI.dataLength]
  · rw [h.left.right.drop, hI.key]
  · have hdata := h.right
    rw [length_append, hI.keyLength, ← Nat.add_assoc] at hdata
    rw [hdata.drop, hI.data]

namespace Table

theorem findItem_spec (hI : I.DecodesBack) {T : Table I} {IKey : Key} {Es : List (Item I)}
    {Ptr : Nat} (h : LiesAt T.Base Ptr (Es.flatMap itemBytes))
    (hfit : Ptr + (Es.flatMap itemBytes).length < 2 ^ (8 * I.offsetBytes)) :
    ∃ r, T.findItem IKey (I.ComputeHash IKey).toNat Es.length Ptr = some r ∧
      r.map T.deref = (Es.find? fun E => I.EqualKey E.Key IKey).map Item.Data := by
  induction Es generalizing Ptr with
  | nil => exact ⟨none, rfl, rfl⟩
  | cons E Es ih =>
    rw [flatMap_cons] at h hfit
    rw [length_append, length_itemBytes] at hfit
    have hhash := readNext_of_liesAt h.left.left
    rw [hash_mod] at hhash
    have hpayload := h.left.right
    rw [length_ofValue] at hpayload
    obtain ⟨lengths, KeyLen, DataLen, hlengths, hlength, hkey, hdata⟩ :=
      read_payload hI hpayload
    have hlen : I.toOffset (KeyLen + DataLen) = KeyLen + DataLen :=
      mod_eq_of_lt (by omega)
    have hrest := h.right
    rw [length_itemBytes, hlength] at hrest
    have hnext : Ptr + I.hashBytes + lengths + (KeyLen + DataLen) =
        Ptr + (I.hashBytes + (lengths + KeyLen + DataLen)) := by omega
    rw [← hnext] at hrest
    obtain ⟨r, hr, hfound⟩ := ih hrest (by omega)
    rw [length_cons, findItem, hhash, bind_some]
    simp only [hlengths, hlen, hkey]
    rw [find?_cons]
    by_cases hequal : I.EqualKey E.Key IKey = true
    · have hsame : E.Hash.toNat = (I.ComputeHash IKey).toNat := by
        rw [E.hash_eq, (hI.equal _ _).mp hequal]
      rw [if_neg (fun hne => hne hsame),
        if_pos (show I.EqualKey E.entry.1 IKey = true from hequal), hequal]
      refine ⟨_, rfl, ?_⟩
      exact congrArg some hdata
    · have hentry : I.EqualKey E.entry.1 IKey = false := by
        show I.EqualKey E.Key IKey = false
        simpa using hequal
      refine ⟨r, ?_, ?_⟩
      · split
        · exact hr
        · rw [if_neg (by simp [hentry])]
          exact hr
      · rw [hfound]
        simp [hequal]

theorem advance_item (hI : I.DecodesBack) {T : Table I} {E : Item I} {P : Position} {Ptr n : Nat}
    (hstart : (if P.NumItemsInBucketLeft = 0 then readNext 2 T.Base P.Ptr
      else some (P.NumItemsInBucketLeft, P.Ptr)) = some (n + 1, Ptr))
    (hitem : T.getItem P = Ptr + I.hashBytes) (h : LiesAt T.Base Ptr (itemBytes E))
    (hfit : Ptr + (itemBytes E).length < 2 ^ (8 * I.offsetBytes))
    (hn : n + 1 < 2 ^ (8 * I.offsetBytes)) (hpos : 0 < P.NumEntriesLeft)
    (hleft : P.NumEntriesLeft < 2 ^ (8 * I.offsetBytes)) :
    T.advance P = some ⟨Ptr + (itemBytes E).length, n, P.NumEntriesLeft - 1⟩ ∧
      T.derefKey P = I.GetExternalKey E.Key ∧ T.derefData P = E.Data := by
  have hdecrement : ∀ m, 0 < m → m < 2 ^ (8 * I.offsetBytes) → I.decrement m = m - 1 := by
    intro m hm hlt
    unfold Info.decrement Info.toOffset
    rw [show m + 2 ^ (8 * I.offsetBytes) - 1 = m - 1 + 2 ^ (8 * I.offsetBytes) by omega,
      add_mod_right]
    exact mod_eq_of_lt (by omega)
  have hpayload := h.right
  rw [length_ofValue] at hpayload
  obtain ⟨lengths, KeyLen, DataLen, hlengths, hlength, hkey, hdata⟩ := read_payload hI hpayload
  rw [length_itemBytes, hlength] at hfit ⊢
  have hlen : I.toOffset (KeyLen + DataLen) = KeyLen + DataLen := mod_eq_of_lt (by omega)
  refine ⟨?_, ?_, ?_⟩
  · rw [advance, hstart, map_some]
    simp only [hlengths, hlen]
    rw [hdecrement (n + 1) (by omega) hn, hdecrement _ hpos hleft]
    congr 2
    omega
  · unfold derefKey getInternalKey
    simp only [hitem, hlengths, hkey]
    rfl
  · unfold derefData
    simp only [hitem, hlengths, hkey, hdata]
    rfl

theorem iterate_spec (hI : I.DecodesBack) {T : Table I} (Es : List (Item I))
    (Heads : List (List (Item I))) {P : Position}
    (hHeads : ∀ Head ∈ Heads, Head ≠ [] ∧ Head.length < 2 ^ 16)
    (h : LiesAt T.Base P.Ptr (Es.flatMap itemBytes ++
      Heads.flatMap fun Head => ofValue 8 2 Head.length ++ Head.flatMap itemBytes))
    (hfit : P.Ptr + (Es.flatMap itemBytes ++ Heads.flatMap fun Head =>
      ofValue 8 2 Head.length ++ Head.flatMap itemBytes).length < 2 ^ (8 * I.offsetBytes))
    (hEs : P.NumItemsInBucketLeft = Es.length) (hEs_lt : Es.length < 2 ^ 16)
    (hleft : P.NumEntriesLeft = (Es ++ Heads.flatten).length)
    (hleft_lt : P.NumEntriesLeft < 2 ^ (8 * I.offsetBytes)) {fuel : Nat}
    (hfuel : P.NumEntriesLeft < fuel) :
    T.iterate fuel P =
      some ((Es ++ Heads.flatten).map fun E => (I.GetExternalKey E.Key, E.Data)) := by
  have hwide : 2 ^ 16 ≤ 2 ^ (8 * I.offsetBytes) := by
    refine Nat.pow_le_pow_right (by omega) ?_
    rcases I.offsetBytes_eq with hw | hw
    · omega
    · omega
  induction fuel generalizing Es Heads P with
  | zero => omega
  | succ fuel ih =>
    rw [iterate]
    cases Es with
    | cons E Es =>
      rw [flatMap_cons, append_assoc] at h hfit
      rw [length_append] at hfit
      rw [length_cons] at hEs hEs_lt
      rw [cons_append, length_cons] at hleft
      obtain ⟨hadvance, hkey, hdata⟩ := advance_item hI (P := P) (n := Es.length)
        (by rw [hEs, if_neg (by omega)]) (by unfold getItem; rw [hEs, if_neg (by omega)]; omega)
        h.left (by omega) (by omega) (by omega) hleft_lt
      rw [if_neg (by omega), hadvance, bind_some,
        ih Es Heads (P := ⟨P.Ptr + (itemBytes E).length, Es.length, P.NumEntriesLeft - 1⟩)
          hHeads h.right (by show P.Ptr + _ + _ < _; omega) rfl (by omega)
          (by show P.NumEntriesLeft - 1 = _; omega)
          (by show P.NumEntriesLeft - 1 < _; omega)
          (by show P.NumEntriesLeft - 1 < _; omega),
        hkey, hdata]
      rfl
    | nil =>
      cases Heads with
      | nil =>
        rw [if_pos (by simpa using hleft)]
        rfl
      | cons Head Heads =>
        obtain ⟨hne, hlt⟩ := hHeads Head mem_cons_self
        obtain ⟨E, Es, rfl⟩ := exists_cons_of_ne_nil hne
        rw [length_nil] at hEs
        rw [nil_append] at hleft ⊢
        rw [flatMap_nil, nil_append, flatMap_cons, flatMap_cons,
          append_assoc, append_assoc] at h hfit
        rw [length_append, length_append, length_ofValue] at hfit
        rw [flatten_cons, cons_append, length_cons] at hleft
        -- the count in front of the bucket
        have hcount := readNext_of_liesAt h.left
        rw [mod_eq_of_lt (by omega)] at hcount
        have hbucket := h.right
        rw [length_ofValue] at hbucket
        obtain ⟨hadvance, hkey, hdata⟩ := advance_item hI (P := P) (n := Es.length)
          (by rw [hEs, if_pos rfl, hcount]; rfl)
          (by unfold getItem; rw [hEs, if_pos rfl]) hbucket.left (by omega)
          (by rw [length_cons] at hlt; omega) (by omega) hleft_lt
        rw [if_neg (by omega), hadvance, bind_some,
          ih Es Heads (P := ⟨P.Ptr + 2 + (itemBytes E).length, Es.length, P.NumEntriesLeft - 1⟩)
            (fun Head hHead => hHeads Head (mem_cons_of_mem _ hHead)) hbucket.right
            (by show P.Ptr + 2 + _ + _ < _; omega) rfl
            (by rw [length_cons] at hlt; omega)
            (by show P.NumEntriesLeft - 1 = _; omega)
            (by show P.NumEntriesLeft - 1 < _; omega)
            (by show P.NumEntriesLeft - 1 < _; omega),
          hkey, hdata]
        rfl

end Table

end Zapcc.OnDiskHashTable
