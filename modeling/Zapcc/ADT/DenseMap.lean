import Zapcc.Library.OpenAddressing
import Zapcc.Support.MathExtras

/-!
# Dense maps

`DenseMap` is one array of buckets that is probed at triangular distances. A function has no
result where the source would probe for ever, fail an assertion or leave the array. `step` is one
call of a client.
-/

namespace Zapcc.ADT

open MathExtras OpenAddressing

structure Bucket (KeyT ValueT : Type) where
  first : KeyT
  second : Option ValueT
  deriving DecidableEq

/-- A dense map. It has no buckets before the first allocation. -/
structure DenseMap (KeyT ValueT : Type) where
  buckets : List (Bucket KeyT ValueT)
  numEntries : Nat
  numTombstones : Nat
  numBuckets : Nat
  deriving DecidableEq

namespace DenseMap

variable {KeyT ValueT : Type} [DecidableEq KeyT] (info : KeyInfo KeyT)

/-- The loop of `lookupBucketFor`. After as many probes as there are buckets it only repeats
itself. -/
def lookupLoop (M : DenseMap KeyT ValueT) (Val : KeyT) :
    Nat → Nat → Nat → Option Nat → Option (Bool × Option Nat)
  | 0, _, _, _ => none
  | probes + 1, BucketNo, ProbeAmt, FoundTombstone =>
    match M.buckets[BucketNo]? with
    | none => none
    | some ThisBucket =>
      if Val = ThisBucket.first then some (true, some BucketNo)
      else if ThisBucket.first = info.emptyKey then
        some (false, some (FoundTombstone.getD BucketNo))
      else
        lookupLoop M Val probes (toUnsigned (BucketNo + ProbeAmt) &&& (M.numBuckets - 1))
          (toUnsigned (ProbeAmt + 1))
          (if ThisBucket.first = info.tombstoneKey ∧ FoundTombstone = none then some BucketNo
           else FoundTombstone)

/-- Whether a key is in the map, and its bucket, or else the bucket to insert it into. -/
def lookupBucketFor (M : DenseMap KeyT ValueT) (Val : KeyT) : Option (Bool × Option Nat) :=
  if M.numBuckets = 0 then some (false, none)
  else if ¬ info.Live Val then none
  else lookupLoop info M Val M.numBuckets (info.hash Val &&& (M.numBuckets - 1)) 1 none

/-- The number of buckets that hold a number of entries. -/
def getMinBucketToReserveForEntries (NumEntries : Nat) : Nat :=
  if NumEntries = 0 then 0
  else toUnsigned (nextPowerOf2 (toUnsigned (toUnsigned (NumEntries * 4) / 3 + 1)))

/-- Memory for buckets, of which none is constructed. -/
def allocateBuckets (M : DenseMap KeyT ValueT) (Num : Nat) : DenseMap KeyT ValueT :=
  { M with buckets := [], numBuckets := Num }

/-- Construct the keys of the buckets. -/
def initEmpty (M : DenseMap KeyT ValueT) : Option (DenseMap KeyT ValueT) :=
  if M.numBuckets &&& (M.numBuckets - 1) = 0 then
    some { M with
      buckets := List.replicate M.numBuckets ⟨info.emptyKey, none⟩
      numEntries := 0
      numTombstones := 0 }
  else none

/-- The allocation of a new map. -/
def init (M : DenseMap KeyT ValueT) (InitNumEntries : Nat) : Option (DenseMap KeyT ValueT) :=
  let InitBuckets := getMinBucketToReserveForEntries InitNumEntries
  if InitBuckets = 0 then
    some { M.allocateBuckets InitBuckets with numEntries := 0, numTombstones := 0 }
  else initEmpty info (M.allocateBuckets InitBuckets)

/-- The constructor, with the number of entries to reserve room for. -/
def construct (InitialReserve : Nat) : Option (DenseMap KeyT ValueT) :=
  init info ⟨[], 0, 0, 0⟩ InitialReserve

def moveLoop : DenseMap KeyT ValueT → List (Bucket KeyT ValueT) → Option (DenseMap KeyT ValueT)
  | M, [] => some M
  | M, B :: rest =>
    if info.Live B.first then
      match lookupBucketFor info M B.first with
      | some (false, some DestBucket) =>
        moveLoop
          { M with
            buckets := M.buckets.set DestBucket B
            numEntries := toUnsigned (M.numEntries + 1) } rest
      | _ => none
    else moveLoop M rest

/-- Insert all the old elements into the new table. -/
def moveFromOldBuckets (M : DenseMap KeyT ValueT) (OldBuckets : List (Bucket KeyT ValueT)) :
    Option (DenseMap KeyT ValueT) :=
  (initEmpty info M).bind fun M => moveLoop info M OldBuckets

/-- Move the entries to a table of at least this many buckets. -/
def grow (M : DenseMap KeyT ValueT) (AtLeast : Nat) : Option (DenseMap KeyT ValueT) :=
  let New := M.allocateBuckets (max 64 (toUnsigned (nextPowerOf2 (subUnsigned AtLeast 1))))
  if M.buckets.isEmpty then initEmpty info New else moveFromOldBuckets info New M.buckets

/-- Grow the table, and look the key up again. -/
def growAndLookup (M : DenseMap KeyT ValueT) (AtLeast : Nat) (Lookup : KeyT) :
    Option (DenseMap KeyT ValueT × Option Nat) :=
  (grow info M AtLeast).bind fun M =>
    (lookupBucketFor info M Lookup).map fun found => (M, found.2)

/-- The part of `insertIntoBucketImpl` that grows the table if the load is more than 3/4, or if
fewer than 1/8 of the buckets are empty. -/
def makeRoom (M : DenseMap KeyT ValueT) (Lookup : KeyT) (TheBucket : Option Nat) :
    Option (DenseMap KeyT ValueT × Option Nat) :=
  let NewNumEntries := toUnsigned (M.numEntries + 1)
  if toUnsigned (M.numBuckets * 3) ≤ toUnsigned (NewNumEntries * 4) then
    growAndLookup info M (toUnsigned (M.numBuckets * 2)) Lookup
  else if subUnsigned M.numBuckets (toUnsigned (NewNumEntries + M.numTombstones)) ≤
      M.numBuckets / 8 then
    growAndLookup info M M.numBuckets Lookup
  else some (M, TheBucket)

/-- Count the entry that is about to be written, and return its bucket. -/
def insertIntoBucketImpl (M : DenseMap KeyT ValueT) (Key : KeyT) (TheBucket : Option Nat) :
    Option (DenseMap KeyT ValueT × Nat) :=
  match makeRoom info M Key TheBucket with
  | some (M, some TheBucket) =>
    match M.buckets[TheBucket]? with
    | some B =>
      some ({ M with
        numEntries := toUnsigned (M.numEntries + 1)
        numTombstones :=
          if B.first = info.emptyKey then M.numTombstones else subUnsigned M.numTombstones 1 },
        TheBucket)
    | none => none
  | _ => none

/-- Write an entry into the bucket that its lookup found. -/
def insertIntoBucket (M : DenseMap KeyT ValueT) (TheBucket : Option Nat) (Key : KeyT)
    (Value : ValueT) : Option (DenseMap KeyT ValueT × Nat) :=
  (insertIntoBucketImpl info M Key TheBucket).map fun (M, b) =>
    ({ M with buckets := M.buckets.set b ⟨Key, some Value⟩ }, b)

/-- Insert an entry if its key is not in the map, and return its bucket and whether it was
inserted. -/
def tryEmplace (M : DenseMap KeyT ValueT) (Key : KeyT) (Value : ValueT) :
    Option (DenseMap KeyT ValueT × Nat × Bool) :=
  match lookupBucketFor info M Key with
  | some (true, some TheBucket) => some (M, TheBucket, false)
  | some (false, TheBucket) =>
    (insertIntoBucket info M TheBucket Key Value).map fun (M, b) => (M, b, true)
  | _ => none

def insert (M : DenseMap KeyT ValueT) (KV : KeyT × ValueT) :
    Option (DenseMap KeyT ValueT × Nat × Bool) :=
  tryEmplace info M KV.1 KV.2

/-- The bucket of a key, with a value from the default constructor if it is new. -/
def findAndConstruct [Inhabited ValueT] (M : DenseMap KeyT ValueT) (Key : KeyT) :
    Option (DenseMap KeyT ValueT × Nat) :=
  match lookupBucketFor info M Key with
  | some (true, some TheBucket) => some (M, TheBucket)
  | some (false, TheBucket) => insertIntoBucket info M TheBucket Key default
  | _ => none

def find (M : DenseMap KeyT ValueT) (Val : KeyT) : Option (Option Nat) :=
  match lookupBucketFor info M Val with
  | some (true, some TheBucket) => some (some TheBucket)
  | some (false, _) => some none
  | _ => none

/-- Erase a key, and return whether it was in the map. -/
def erase (M : DenseMap KeyT ValueT) (Val : KeyT) : Option (DenseMap KeyT ValueT × Bool) :=
  match lookupBucketFor info M Val with
  | some (true, some TheBucket) =>
    some ({ M with
      buckets := M.buckets.set TheBucket ⟨info.tombstoneKey, none⟩
      numEntries := subUnsigned M.numEntries 1
      numTombstones := toUnsigned (M.numTombstones + 1) }, true)
  | some (false, _) => some (M, false)
  | _ => none

def destroyAll (M : DenseMap KeyT ValueT) : DenseMap KeyT ValueT :=
  { M with
    buckets := M.buckets.map fun P =>
      if info.Live P.first then { P with second := none } else P }

/-- Free the table and allocate a smaller one. -/
def shrinkAndClear (M : DenseMap KeyT ValueT) : Option (DenseMap KeyT ValueT) :=
  let OldNumEntries := M.numEntries
  let M := M.destroyAll info
  let NewNumBuckets :=
    if OldNumEntries = 0 then 0 else max 64 (toUnsigned (2 ^ (log2_32_Ceil OldNumEntries + 1)))
  if NewNumBuckets = M.numBuckets then initEmpty info M else init info M NewNumBuckets

/-- The loop of `clear` for types that are not trivial: it destroys the values, and counts down
the entries. -/
def clearLoop : List (Bucket KeyT ValueT) → Nat → List (Bucket KeyT ValueT) × Nat
  | [], NumEntries => ([], NumEntries)
  | P :: rest, NumEntries =>
    if P.first = info.emptyKey then
      let (rest, NumEntries) := clearLoop rest NumEntries
      (P :: rest, NumEntries)
    else if P.first = info.tombstoneKey then
      let (rest, NumEntries) := clearLoop rest NumEntries
      (⟨info.emptyKey, P.second⟩ :: rest, NumEntries)
    else
      let (rest, NumEntries) := clearLoop rest (subUnsigned NumEntries 1)
      (⟨info.emptyKey, none⟩ :: rest, NumEntries)

/-- Remove all entries. Trivial types have a simpler loop. -/
def clear (isPodLike : Bool) (M : DenseMap KeyT ValueT) : Option (DenseMap KeyT ValueT) :=
  if M.numEntries = 0 ∧ M.numTombstones = 0 then some M
  else if toUnsigned (M.numEntries * 4) < M.numBuckets ∧ 64 < M.numBuckets then
    shrinkAndClear info M
  else if isPodLike then
    some { M with
      buckets := M.buckets.map fun P => { P with first := info.emptyKey }
      numEntries := 0
      numTombstones := 0 }
  else
    let cleared := clearLoop info M.buckets M.numEntries
    if cleared.2 = 0 then
      some { M with buckets := cleared.1, numEntries := 0, numTombstones := 0 }
    else none

/-- Grow the map so that it can contain a number of entries before it is resized again. -/
def reserve (M : DenseMap KeyT ValueT) (NumEntries : Nat) : Option (DenseMap KeyT ValueT) :=
  let NumBuckets := getMinBucketToReserveForEntries NumEntries
  if M.numBuckets < NumBuckets then grow info M NumBuckets else some M

/-! ## A client of the map -/

/-- A call of a client. The client of `operator[]` may write through the reference. -/
inductive Op (KeyT ValueT : Type) where
  | insert (Key : KeyT) (Value : ValueT)
  | tryEmplace (Key : KeyT) (Value : ValueT)
  | subscript (Key : KeyT)
  | assign (Key : KeyT) (Value : ValueT)
  | find (Key : KeyT)
  | erase (Key : KeyT)
  | clear
  | reserve (NumEntries : Nat)

/-- What a client sees: an entry that an iterator points to, whether the map was changed, and the
value of a reference. -/
inductive Seen (KeyT ValueT : Type) where
  | emplaced (entry : KeyT × ValueT) (inserted : Bool)
  | value (v : ValueT)
  | found (entry : Option (KeyT × ValueT))
  | erased (b : Bool)
  | nothing

/-- The entry that an iterator or a reference points to. -/
def entryAt (M : DenseMap KeyT ValueT) (TheBucket : Nat) : Option (KeyT × ValueT) :=
  (M.buckets[TheBucket]?).bind fun B => B.second.map fun v => (B.first, v)

/-- A write through a reference. -/
def writeAt (M : DenseMap KeyT ValueT) (TheBucket : Nat) (v : ValueT) : DenseMap KeyT ValueT :=
  { M with buckets := M.buckets.modify TheBucket fun B => { B with second := some v } }

def step [Inhabited ValueT] (isPodLike : Bool) (M : DenseMap KeyT ValueT) :
    Op KeyT ValueT → Option (DenseMap KeyT ValueT × Seen KeyT ValueT)
  | .insert Key Value =>
    (insert info M (Key, Value)).bind fun (M, b, inserted) =>
      (M.entryAt b).map fun entry => (M, .emplaced entry inserted)
  | .tryEmplace Key Value =>
    (tryEmplace info M Key Value).bind fun (M, b, inserted) =>
      (M.entryAt b).map fun entry => (M, .emplaced entry inserted)
  | .subscript Key =>
    (findAndConstruct info M Key).bind fun (M, b) =>
      (M.entryAt b).map fun entry => (M, .value entry.2)
  | .assign Key Value =>
    (findAndConstruct info M Key).map fun (M, b) => (M.writeAt b Value, .nothing)
  | .find Key =>
    (find info M Key).bind fun found =>
      match found with
      | some b => (M.entryAt b).map fun entry => (M, .found (some entry))
      | none => some (M, .found none)
  | .erase Key => (erase info M Key).map fun (M, b) => (M, .erased b)
  | .clear => (clear info isPodLike M).map fun M => (M, .nothing)
  | .reserve NumEntries => (reserve info M NumEntries).map fun M => (M, .nothing)

/-- The calls of a client one after the other. -/
def run [Inhabited ValueT] (isPodLike : Bool) (M : DenseMap KeyT ValueT) :
    List (Op KeyT ValueT) → Option (DenseMap KeyT ValueT × List (Seen KeyT ValueT))
  | [] => some (M, [])
  | op :: ops =>
    (step info isPodLike M op).bind fun (M, seen) =>
      (run isPodLike M ops).map fun (M, rest) => (M, seen :: rest)

end DenseMap

end Zapcc.ADT
