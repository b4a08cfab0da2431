import Mathlib.Data.BitVec
import Mathlib.Data.Nat.ModEq

/-!
# Header maps

`lookupFilename` probes the hash table of a header map, a file of which only the header is checked.
Its reads are inside of the buffer, but it does not count the buckets it has probed: it returns if
and only if one of them ends the search.
-/

namespace Zapcc.HeaderMap

open List

abbrev Buffer := List (BitVec 8)

/-! ## Reading the buffer

The fields are read in the byte order of the machine, the lowest byte first. There is no result when
a read is outside of the buffer. -/

def loadHalf (File : Buffer) (Offset : Nat) : Option (BitVec 16) :=
  File[Offset]?.bind fun b₀ => File[Offset + 1]?.map fun b₁ => b₁ ++ b₀

def loadWord (File : Buffer) (Offset : Nat) : Option (BitVec 32) :=
  (loadHalf File Offset).bind fun h₀ => (loadHalf File (Offset + 2)).map fun h₁ => h₁ ++ h₀

def ByteSwap_16 (Value : BitVec 16) : BitVec 16 :=
  Value.extractLsb' 0 8 ++ Value.extractLsb' 8 8

def ByteSwap_32 (Value : BitVec 32) : BitVec 32 :=
  ByteSwap_16 (Value.extractLsb' 0 16) ++ ByteSwap_16 (Value.extractLsb' 16 16)

def isPowerOf2_32 (Value : BitVec 32) : Bool :=
  decide (Value ≠ 0#32) && decide (Value &&& (Value - 1#32) = 0#32)

/-- The characters `hmap`. -/
def HMAP_HeaderMagicNumber : BitVec 32 := 0x686d6170#32

def HMAP_HeaderVersion : BitVec 16 := 1#16

def HMAP_EmptyBucketKey : BitVec 32 := 0#32

/-- The sizes of `HMapHeader` and of `HMapBucket`. -/
def headerSize : Nat := 24

def bucketSize : Nat := 12

/-- The fields of `HMapHeader` that are read. -/
structure HMapHeader where
  Magic : BitVec 32
  Version : BitVec 16
  Reserved : BitVec 16
  StringsOffset : BitVec 32
  NumBuckets : BitVec 32

def getHeader (File : Buffer) : Option HMapHeader :=
  (loadWord File 0).bind fun Magic => (loadHalf File 4).bind fun Version =>
    (loadHalf File 6).bind fun Reserved => (loadWord File 8).bind fun StringsOffset =>
      (loadWord File 16).map fun NumBuckets => ⟨Magic, Version, Reserved, StringsOffset, NumBuckets⟩

def getEndianAdjustedWord (NeedsBSwap : Bool) (X : BitVec 32) : BitVec 32 :=
  if NeedsBSwap then ByteSwap_32 X else X

/-- Whether a file that is accepted needs byte swaps. -/
def checkHeader (File : Buffer) : Option Bool :=
  if File.length ≤ headerSize then none
  else
    (getHeader File).bind fun Header =>
      (if Header.Magic = HMAP_HeaderMagicNumber ∧ Header.Version = HMAP_HeaderVersion then
        some false
      else if Header.Magic = ByteSwap_32 HMAP_HeaderMagicNumber ∧
          Header.Version = ByteSwap_16 HMAP_HeaderVersion then some true
      else none).bind fun NeedsByteSwap =>
        let NumBuckets := getEndianAdjustedWord NeedsByteSwap Header.NumBuckets
        if Header.Reserved ≠ 0#16 ∨ isPowerOf2_32 NumBuckets = false ∨
          File.length < headerSize + bucketSize * NumBuckets.toNat then none
        else some NeedsByteSwap

/-- A header map whose header is accepted. -/
structure HeaderMapImpl where
  FileBuffer : Buffer
  NeedsBSwap : Bool
  accepted : checkHeader FileBuffer = some NeedsBSwap

structure HMapBucket where
  Key : BitVec 32
  Prefix : BitVec 32
  Suffix : BitVec 32

namespace HeaderMapImpl

variable (M : HeaderMapImpl)

def getBucket (BucketNo : Nat) : Option HMapBucket :=
  let Offset := headerSize + bucketSize * BucketNo
  (loadWord M.FileBuffer Offset).bind fun Key =>
    (loadWord M.FileBuffer (Offset + 4)).bind fun pre =>
      (loadWord M.FileBuffer (Offset + 8)).map fun suf =>
        ⟨getEndianAdjustedWord M.NeedsBSwap Key, getEndianAdjustedWord M.NeedsBSwap pre,
          getEndianAdjustedWord M.NeedsBSwap suf⟩

def strnlen (File : Buffer) (Data : Nat) : Nat → Option Nat
  | 0 => some 0
  | MaxLen + 1 =>
    File[Data]?.bind fun c =>
      if c = 0#8 then some 0 else (strnlen File (Data + 1) MaxLen).map (· + 1)

/-- `getString`. A string that is not valid is `some none`. -/
def getString (StrTabIdx : BitVec 32) : Option (Option (List (BitVec 8))) :=
  (getHeader M.FileBuffer).bind fun Header =>
    let StrTabIdx := (StrTabIdx + getEndianAdjustedWord M.NeedsBSwap Header.StringsOffset).toNat
    if M.FileBuffer.length ≤ StrTabIdx then some none
    else
      let MaxLen := (M.FileBuffer.length - StrTabIdx) % 2 ^ 32
      (strnlen M.FileBuffer StrTabIdx MaxLen).bind fun Len =>
        let Data := (M.FileBuffer.drop StrTabIdx).take Len
        if Len = MaxLen then
          M.FileBuffer[StrTabIdx + (Len + 2 ^ 32 - 1) % 2 ^ 32]?.map fun c =>
            if c ≠ 0#8 then none else some Data
        else some (some Data)

def toLowercase (c : BitVec 8) : BitVec 8 := if 0x41#8 ≤ c ∧ c ≤ 0x5a#8 then c + 0x20#8 else c

/-- The characters are signed. -/
def HashHMapKey (Str : List (BitVec 8)) : BitVec 32 :=
  Str.foldl (fun Result c => Result + (toLowercase c).signExtend 32 * 13#32) 0#32

def equals_lower (LHS RHS : List (BitVec 8)) : Bool :=
  decide (LHS.map toLowercase = RHS.map toLowercase)

def numBuckets : Option (BitVec 32) :=
  (getHeader M.FileBuffer).map fun Header => getEndianAdjustedWord M.NeedsBSwap Header.NumBuckets

/-- The destination of a bucket. It is empty when one of its parts is not valid. -/
def destPath (B : HMapBucket) : Option (List (BitVec 8)) :=
  (M.getString B.Prefix).bind fun pre => (M.getString B.Suffix).map fun suf =>
    match pre, suf with
    | some pre, some suf => pre ++ suf
    | _, _ => []

/-- The body of the loop of `lookupFilename`, that returns `some none` to probe on. -/
def probe (Filename : List (BitVec 8)) (Bucket : BitVec 32) : Option (Option (List (BitVec 8))) :=
  M.numBuckets.bind fun NumBuckets =>
    (M.getBucket (Bucket &&& (NumBuckets - 1#32)).toNat).bind fun B =>
      if B.Key = HMAP_EmptyBucketKey then some (some [])
      else
        (M.getString B.Key).bind fun Key =>
          match Key with
          | none => some none
          | some Key =>
            if equals_lower Filename Key = false then some none else (M.destPath B).map some

/-- The loop of `lookupFilename`. There is no result when it needs more rounds. -/
def lookupLoop (Filename : List (BitVec 8)) : Nat → BitVec 32 → Option (List (BitVec 8))
  | 0, _ => none
  | rounds + 1, Bucket =>
    (M.probe Filename Bucket).bind fun
      | some DestPath => some DestPath
      | none => lookupLoop Filename rounds (Bucket + 1#32)

def lookupFilename (rounds : Nat) (Filename : List (BitVec 8)) : Option (List (BitVec 8)) :=
  M.lookupLoop Filename rounds (HashHMapKey Filename)

end HeaderMapImpl

/-! ## Reads inside of the buffer -/

theorem loadHalf_some {File : Buffer} {Offset : Nat} (h : Offset + 2 ≤ File.length) :
    ∃ X, loadHalf File Offset = some X := by
  refine ⟨File[Offset + 1] ++ File[Offset], ?_⟩
  rw [loadHalf, getElem?_eq_getElem (by omega), Option.bind_some, getElem?_eq_getElem (by omega)]
  rfl

theorem loadWord_some {File : Buffer} {Offset : Nat} (h : Offset + 4 ≤ File.length) :
    ∃ X, loadWord File Offset = some X := by
  obtain ⟨h₀, hh₀⟩ := loadHalf_some (show Offset + 2 ≤ File.length by omega)
  obtain ⟨h₁, hh₁⟩ := loadHalf_some (show Offset + 2 + 2 ≤ File.length by omega)
  exact ⟨h₁ ++ h₀, by rw [loadWord, hh₀, Option.bind_some, hh₁]; rfl⟩

namespace HeaderMapImpl

variable (M : HeaderMapImpl)

theorem numBuckets_spec : ∃ Header NumBuckets, getHeader M.FileBuffer = some Header ∧
    M.numBuckets = some NumBuckets ∧ isPowerOf2_32 NumBuckets = true ∧
    headerSize + bucketSize * NumBuckets.toNat ≤ M.FileBuffer.length := by
  have h := M.accepted
  rw [checkHeader] at h
  split_ifs at h
  obtain ⟨Header, hHeader, h⟩ := Option.bind_eq_some_iff.mp h
  obtain ⟨NeedsByteSwap, -, h⟩ := Option.bind_eq_some_iff.mp h
  dsimp only at h
  split_ifs at h with hchecked
  obtain rfl := Option.some.inj h
  simp only [not_or, Bool.not_eq_false, not_lt] at hchecked
  exact ⟨Header, _, hHeader, by rw [numBuckets, hHeader]; rfl, hchecked.2.1, hchecked.2.2⟩

theorem getBucket_some {NumBuckets : BitVec 32} (hNum : M.numBuckets = some NumBuckets)
    {BucketNo : Nat} (h : BucketNo < NumBuckets.toNat) : ∃ B, M.getBucket BucketNo = some B := by
  obtain ⟨Header, Num, -, hNum', -, hfits⟩ := M.numBuckets_spec
  obtain rfl := Option.some.inj (hNum'.symm.trans hNum)
  unfold headerSize bucketSize at *
  obtain ⟨Key, hKey⟩ := loadWord_some (show 24 + 12 * BucketNo + 4 ≤ M.FileBuffer.length by omega)
  obtain ⟨pre, hpre⟩ := loadWord_some
    (show 24 + 12 * BucketNo + 4 + 4 ≤ M.FileBuffer.length by omega)
  obtain ⟨suf, hsuf⟩ := loadWord_some
    (show 24 + 12 * BucketNo + 8 + 4 ≤ M.FileBuffer.length by omega)
  rw [getBucket]
  dsimp only [headerSize, bucketSize]
  rw [hKey, Option.bind_some, hpre, Option.bind_some, hsuf]
  exact ⟨_, rfl⟩

theorem strnlen_some {File : Buffer} {Data MaxLen : Nat} (h : Data + MaxLen ≤ File.length) :
    ∃ Len ≤ MaxLen, strnlen File Data MaxLen = some Len := by
  induction MaxLen generalizing Data with
  | zero => exact ⟨0, le_rfl, rfl⟩
  | succ MaxLen ih =>
    obtain ⟨Len, hLen, heq⟩ := ih (show Data + 1 + MaxLen ≤ File.length by omega)
    rw [strnlen, getElem?_eq_getElem (by omega), Option.bind_some]
    split
    · exact ⟨0, Nat.zero_le _, rfl⟩
    · exact ⟨Len + 1, Nat.succ_le_succ hLen, by rw [heq]; rfl⟩

/-- The character before the end of a string is in the buffer, also when the length of the rest of
the buffer does not fit its type. -/
theorem getString_some (StrTabIdx : BitVec 32) : ∃ Str, M.getString StrTabIdx = some Str := by
  obtain ⟨Header, -, hHeader, -⟩ := M.numBuckets_spec
  rw [getString, hHeader, Option.bind_some]
  dsimp only
  generalize (StrTabIdx + _ : BitVec 32).toNat = idx
  split
  · exact ⟨none, rfl⟩
  generalize hMaxLen : (M.FileBuffer.length - idx) % 2 ^ 32 = MaxLen
  obtain ⟨Len, hLen, heq⟩ := strnlen_some (show idx + MaxLen ≤ M.FileBuffer.length by omega)
  rw [heq, Option.bind_some]
  split
  · rw [getElem?_eq_getElem (show idx + (Len + 2 ^ 32 - 1) % 2 ^ 32 < M.FileBuffer.length by omega)]
    exact ⟨_, rfl⟩
  · exact ⟨_, rfl⟩

theorem destPath_some (B : HMapBucket) : ∃ DestPath, M.destPath B = some DestPath := by
  obtain ⟨pre, hpre⟩ := M.getString_some B.Prefix
  obtain ⟨suf, hsuf⟩ := M.getString_some B.Suffix
  exact ⟨_, by rw [destPath, hpre, Option.bind_some, hsuf, Option.map_some]⟩

/-! ## The search -/

/-- The key of a bucket matches the name, without regard to case. -/
def Matches (Filename : List (BitVec 8)) (B : HMapBucket) : Prop :=
  ∃ Key, M.getString B.Key = some (some Key) ∧ equals_lower Filename Key = true

def Ends (Filename : List (BitVec 8)) (B : HMapBucket) : Prop :=
  B.Key = HMAP_EmptyBucketKey ∨ M.Matches Filename B

/-- The bucket that is probed in some round. -/
def slot (Filename : List (BitVec 8)) (round : Nat) : Option HMapBucket :=
  M.numBuckets.bind fun NumBuckets =>
    M.getBucket ((HashHMapKey Filename + BitVec.ofNat 32 round) &&& (NumBuckets - 1#32)).toNat

theorem and_mask_lt {NumBuckets : BitVec 32} (h : isPowerOf2_32 NumBuckets = true)
    (Bucket : BitVec 32) : (Bucket &&& (NumBuckets - 1#32)).toNat < NumBuckets.toNat := by
  have hpos : 0 < NumBuckets.toNat := by
    simp only [isPowerOf2_32, Bool.and_eq_true, decide_eq_true_eq] at h
    exact Nat.pos_of_ne_zero fun hzero => h.1 (BitVec.eq_of_toNat_eq hzero)
  have hle : (Bucket &&& (NumBuckets - 1#32)).toNat ≤ (NumBuckets - 1#32).toNat := by
    exact Nat.and_le_right
  bv_omega

theorem and_mask_of_lt {NumBuckets : BitVec 32} (h : isPowerOf2_32 NumBuckets = true)
    {Bucket : BitVec 32} (hlt : Bucket.toNat < NumBuckets.toNat) :
    Bucket &&& (NumBuckets - 1#32) = Bucket := by
  simp only [isPowerOf2_32, Bool.and_eq_true, decide_eq_true_eq] at h
  have hsub : (NumBuckets - 1#32).toNat = NumBuckets.toNat - 1 := by bv_omega
  have hand := congrArg BitVec.toNat h.2
  rw [BitVec.toNat_and, hsub] at hand
  obtain ⟨k, hk⟩ := Nat.ne_zero_and_sub_one_eq_zero_iff_isPowerOfTwo.mp
    ⟨fun hzero => h.1 (BitVec.eq_of_toNat_eq hzero), hand⟩
  refine BitVec.eq_of_toNat_eq ?_
  rw [BitVec.toNat_and, hsub, hk, Nat.and_two_pow_sub_one_eq_mod]
  exact Nat.mod_eq_of_lt (hk ▸ hlt)

theorem probe_spec (Filename : List (BitVec 8)) (round : Nat) :
    ∃ B, M.slot Filename round = some B ∧
      ((B.Key = HMAP_EmptyBucketKey ∧
          M.probe Filename (HashHMapKey Filename + BitVec.ofNat 32 round) = some (some [])) ∨
        (B.Key ≠ HMAP_EmptyBucketKey ∧ M.Matches Filename B ∧ ∃ DestPath,
          M.destPath B = some DestPath ∧
          M.probe Filename (HashHMapKey Filename + BitVec.ofNat 32 round) = some (some DestPath)) ∨
        (¬ M.Ends Filename B ∧
          M.probe Filename (HashHMapKey Filename + BitVec.ofNat 32 round) = some none)) := by
  obtain ⟨-, NumBuckets, -, hNum, hpower, -⟩ := M.numBuckets_spec
  obtain ⟨B, hB⟩ := M.getBucket_some hNum
    (and_mask_lt hpower (HashHMapKey Filename + BitVec.ofNat 32 round))
  refine ⟨B, by rw [slot, hNum, Option.bind_some, hB], ?_⟩
  rw [probe, hNum, Option.bind_some, hB, Option.bind_some]
  by_cases hempty : B.Key = HMAP_EmptyBucketKey
  · exact .inl ⟨hempty, if_pos hempty⟩
  rw [if_neg hempty]
  obtain ⟨Key, hKey⟩ := M.getString_some B.Key
  rw [hKey, Option.bind_some]
  have hnot (hmismatch : ∀ Key', Key = some Key' → equals_lower Filename Key' = false) :
      ¬ M.Ends Filename B := by
    rintro (h | ⟨Key', hKey', hequals⟩)
    · exact hempty h
    · rw [hmismatch Key' (Option.some.inj (hKey.symm.trans hKey'))] at hequals
      exact Bool.noConfusion hequals
  cases Key with
  | none => exact .inr (.inr ⟨hnot nofun, rfl⟩)
  | some Key =>
    dsimp only
    cases hequals : equals_lower Filename Key with
    | false => exact .inr (.inr ⟨hnot fun _ h => Option.some.inj h ▸ hequals, if_pos rfl⟩)
    | true =>
      obtain ⟨DestPath, hDestPath⟩ := M.destPath_some B
      refine .inr (.inl ⟨hempty, ⟨Key, hKey, hequals⟩, DestPath, hDestPath, ?_⟩)
      rw [if_neg (by decide), hDestPath]
      rfl

theorem lookupLoop_of_first {Filename : List (BitVec 8)} {DestPath : List (BitVec 8)} (j : Nat)
    {Bucket : BitVec 32}
    (hbefore : ∀ i < j, M.probe Filename (Bucket + BitVec.ofNat 32 i) = some none)
    (hend : M.probe Filename (Bucket + BitVec.ofNat 32 j) = some (some DestPath)) :
    M.lookupLoop Filename (j + 1) Bucket = some DestPath := by
  have hnext (b : BitVec 32) (i : Nat) :
      b + 1#32 + BitVec.ofNat 32 i = b + BitVec.ofNat 32 (i + 1) := by
    rw [Nat.add_comm, BitVec.ofNat_add, BitVec.add_assoc]
  induction j generalizing Bucket with
  | zero =>
    rw [BitVec.add_zero] at hend
    rw [lookupLoop, hend, Option.bind_some]
  | succ j ih =>
    have hfirst := hbefore 0 (Nat.succ_pos j)
    rw [BitVec.add_zero] at hfirst
    rw [lookupLoop, hfirst, Option.bind_some]
    refine ih (fun i hi => ?_) (by rwa [hnext])
    rw [hnext]
    exact hbefore (i + 1) (Nat.succ_lt_succ hi)

theorem lookupLoop_of_never {Filename : List (BitVec 8)}
    (hnever : ∀ Bucket, M.probe Filename Bucket = some none) (rounds : Nat) (Bucket : BitVec 32) :
    M.lookupLoop Filename rounds Bucket = none := by
  induction rounds generalizing Bucket with
  | zero => rfl
  | succ rounds ih =>
    rw [lookupLoop, hnever, Option.bind_some]
    exact ih _

/-- What a lookup is to return: the destination of the first bucket whose key matches before an
empty bucket, or nothing. -/
def Found (Filename DestPath : List (BitVec 8)) : Prop :=
  (∃ j B, M.slot Filename j = some B ∧ B.Key ≠ HMAP_EmptyBucketKey ∧ M.Matches Filename B ∧
      (∀ i < j, ∀ B, M.slot Filename i = some B → ¬ M.Ends Filename B) ∧
      M.destPath B = some DestPath) ∨
    (∃ j B, M.slot Filename j = some B ∧ B.Key = HMAP_EmptyBucketKey ∧
      (∀ i < j, ∀ B, M.slot Filename i = some B → ¬ M.Ends Filename B) ∧ DestPath = []) ∨
    ((∀ j B, M.slot Filename j = some B → ¬ M.Ends Filename B) ∧ DestPath = [])

/-- The lookup returns what it is to return, and all its reads are in the buffer. -/
def LooksUp (Filename : List (BitVec 8)) : Prop :=
  ∃ rounds DestPath, M.lookupFilename rounds Filename = some DestPath ∧ M.Found Filename DestPath

theorem exists_slot {NumBuckets : BitVec 32} (hNum : M.numBuckets = some NumBuckets)
    (Filename : List (BitVec 8)) {k : Nat} (hk : k < NumBuckets.toNat) :
    ∃ j, M.slot Filename j = M.getBucket k := by
  obtain ⟨-, Num, -, hNum', hpower, -⟩ := M.numBuckets_spec
  obtain rfl := Option.some.inj (hNum'.symm.trans hNum)
  have hk32 : k < 2 ^ 32 := hk.trans Num.isLt
  have hkNat : (BitVec.ofNat 32 k).toNat = k := by
    rw [BitVec.toNat_ofNat, Nat.mod_eq_of_lt hk32]
  refine ⟨(BitVec.ofNat 32 k - HashHMapKey Filename).toNat, ?_⟩
  rw [slot, hNum, Option.bind_some, BitVec.ofNat_toNat, BitVec.setWidth_eq,
    show HashHMapKey Filename + (BitVec.ofNat 32 k - HashHMapKey Filename) = BitVec.ofNat 32 k by
      bv_omega, and_mask_of_lt hpower (by rwa [hkNat]), hkNat]

/-- A lookup is right if and only if a bucket is empty or matches. -/
theorem looksUp_iff (Filename : List (BitVec 8)) :
    M.LooksUp Filename ↔ ∃ NumBuckets, M.numBuckets = some NumBuckets ∧
      ∃ k < NumBuckets.toNat, ∃ B, M.getBucket k = some B ∧ M.Ends Filename B := by
  obtain ⟨-, NumBuckets, -, hNum, hpower, -⟩ := M.numBuckets_spec
  constructor
  · rintro ⟨rounds, DestPath, hlookup, -⟩
    refine ⟨NumBuckets, hNum, ?_⟩
    by_contra hnone
    push Not at hnone
    have hnever (Bucket : BitVec 32) : M.probe Filename Bucket = some none := by
      obtain ⟨B, hB, hprobe⟩ := M.probe_spec Filename (Bucket - HashHMapKey Filename).toNat
      have hslot := hB
      rw [slot, hNum, Option.bind_some] at hslot
      have hends := hnone _ (and_mask_lt hpower _) B hslot
      rw [BitVec.ofNat_toNat, BitVec.setWidth_eq,
        show HashHMapKey Filename + (Bucket - HashHMapKey Filename) = Bucket by bv_omega] at hprobe
      rcases hprobe with ⟨hempty, -⟩ | ⟨-, hmatches, -⟩ | ⟨-, hprobe⟩
      · exact absurd (.inl hempty) hends
      · exact absurd (.inr hmatches) hends
      · exact hprobe
    rw [lookupFilename, M.lookupLoop_of_never hnever] at hlookup
    exact absurd hlookup (by simp)
  · rintro ⟨Num, hNum', k, hk, B, hB, hends⟩
    obtain ⟨j, hj⟩ := M.exists_slot hNum' Filename hk
    have hexists : ∃ j B, M.slot Filename j = some B ∧ M.Ends Filename B :=
      ⟨j, B, hj.trans hB, hends⟩
    classical
    have hfirst := Nat.find_spec hexists
    have hmin (i) (hi : i < Nat.find hexists) (B) (hB : M.slot Filename i = some B) :
        ¬ M.Ends Filename B := fun h => Nat.find_min hexists hi ⟨B, hB, h⟩
    generalize Nat.find hexists = first at hfirst hmin
    have hbefore (i) (hi : i < first) :
        M.probe Filename (HashHMapKey Filename + BitVec.ofNat 32 i) = some none := by
      obtain ⟨B, hB, hprobe⟩ := M.probe_spec Filename i
      rcases hprobe with ⟨hempty, -⟩ | ⟨-, hmatches, -⟩ | ⟨-, hprobe⟩
      · exact absurd (.inl hempty) (hmin i hi B hB)
      · exact absurd (.inr hmatches) (hmin i hi B hB)
      · exact hprobe
    obtain ⟨B', hB', hprobe⟩ := M.probe_spec Filename first
    obtain ⟨B'', hB'', hends'⟩ := hfirst
    obtain rfl := Option.some.inj (hB'.symm.trans hB'')
    rcases hprobe with ⟨hempty, hprobe⟩ | ⟨hkey, hmatches, DestPath, hdest, hprobe⟩ | ⟨hnot, -⟩
    · exact ⟨first + 1, [], M.lookupLoop_of_first first hbefore hprobe,
        .inr (.inl ⟨first, B', hB', hempty, hmin, rfl⟩)⟩
    · exact ⟨first + 1, DestPath, M.lookupLoop_of_first first hbefore hprobe,
        .inl ⟨first, B', hB', hkey, hmatches, hmin, hdest⟩⟩
    · exact absurd hends' hnot

end HeaderMapImpl

/-- A header map of one bucket, whose key is the string `k`. -/
def oneBucket : HeaderMapImpl where
  FileBuffer := [0x70, 0x61, 0x6d, 0x68, 1, 0, 0, 0, 36, 0, 0, 0, 1, 0, 0, 0, 1, 0, 0, 0,
    0, 0, 0, 0, 1, 0, 0, 0, 1, 0, 0, 0, 1, 0, 0, 0, 0, 0x6b, 0]
  NeedsBSwap := false
  accepted := by decide

/-- A name that is not its key is looked up for ever. -/
theorem not_looksUp_oneBucket : ¬ oneBucket.LooksUp [0x61#8] := by
  rintro ⟨rounds, DestPath, hlookup, -⟩
  have hnever (Bucket : BitVec 32) : oneBucket.probe [0x61#8] Bucket = some none := by
    have hmask : Bucket &&& (1#32 - 1#32) = 0#32 := BitVec.and_zero
    rw [HeaderMapImpl.probe, show oneBucket.numBuckets = some 1#32 by decide, Option.bind_some,
      hmask]
    decide
  rw [HeaderMapImpl.lookupFilename, oneBucket.lookupLoop_of_never hnever] at hlookup
  exact absurd hlookup (by simp)

end Zapcc.HeaderMap
