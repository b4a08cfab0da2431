import Zapcc.Library.OpenAddressing
import Zapcc.Support.MathExtras

/-!
# Small pointer sets

A `SmallPtrSet` keeps its pointers in an inline array, where they are searched one after the
other, or in a hash table on the heap. A function has no result where the source would probe for
ever, leave an array or erase a wrong pointer. `step` is one call on one or two of any number of
sets.
-/

namespace Zapcc.ADT

open MathExtras OpenAddressing Function List

/-- A pointer, by its address of 64 bits. -/
abbrev Ptr := Nat

/-- The hash function of pointers, and the two addresses that mark a bucket. -/
def ptrInfo : KeyInfo Ptr where
  emptyKey := 2 ^ 64 - 1
  tombstoneKey := 2 ^ 64 - 2
  hash PtrVal := (toUnsigned PtrVal >>> 4) ^^^ (toUnsigned PtrVal >>> 9)
  empty_ne_tombstone := by decide

/-- The address of an empty bucket. -/
abbrev emptyMarker : Ptr := ptrInfo.emptyKey

/-- The address of a tombstone. -/
abbrev tombstoneMarker : Ptr := ptrInfo.tombstoneKey

/-- A set of pointers: its inline array, and its array on the heap when it is not small. -/
structure SmallPtrSet where
  smallArray : List Ptr
  heapArray : Option (List Ptr)
  curArraySize : Nat
  numNonEmpty : Nat
  numTombstones : Nat
  deriving DecidableEq

namespace SmallPtrSet

/-- Whether the current array is the inline one. -/
def isSmall (S : SmallPtrSet) : Bool := S.heapArray.isNone

def curArray (S : SmallPtrSet) : List Ptr := S.heapArray.getD S.smallArray

/-- Write the current array. -/
def setCurArray (S : SmallPtrSet) (array : List Ptr) : SmallPtrSet :=
  if S.isSmall then { S with smallArray := array } else { S with heapArray := some array }

def size (S : SmallPtrSet) : Nat := subUnsigned S.numNonEmpty S.numTombstones

/-- The part of the current array before its end pointer. -/
def slots (S : SmallPtrSet) : List Ptr :=
  S.curArray.take (if S.isSmall then S.numNonEmpty else S.curArraySize)

/-- Copy a range to the beginning of an array. -/
def stdCopy (source target : List Ptr) : List Ptr := source ++ target.drop source.length

/-- A new array whose elements have not been written. -/
def malloc (n : Nat) : List Ptr := replicate n 0

/-- A new array with the elements of another, as many as there are. -/
def realloc (array : List Ptr) (n : Nat) : List Ptr :=
  array.take n ++ replicate (n - array.length) 0

/-- A new set, over the storage that it is given. -/
def construct (SmallStorage : List Ptr) : SmallPtrSet :=
  ⟨SmallStorage, none, SmallStorage.length, 0, 0⟩

/-- The loop of `findBucketFor`. After as many probes as there are buckets it only repeats
itself. -/
def findLoop (Array : List Ptr) (ArraySize : Nat) (Ptr : Ptr) :
    Nat → Nat → Nat → Option Nat → Option Nat
  | 0, _, _, _ => none
  | probes + 1, Bucket, ProbeAmt, Tombstone =>
    match Array[Bucket]? with
    | none => none
    | some Value =>
      if Value = emptyMarker then some (Tombstone.getD Bucket)
      else if Value = Ptr then some Bucket
      else
        findLoop Array ArraySize Ptr probes (toUnsigned (Bucket + ProbeAmt) &&& (ArraySize - 1))
          (toUnsigned (ProbeAmt + 1))
          (if Value = tombstoneMarker ∧ Tombstone = none then some Bucket else Tombstone)

/-- The bucket of a pointer, or else the bucket to insert it into. -/
def findBucketFor (S : SmallPtrSet) (Ptr : Ptr) : Option Nat :=
  findLoop S.curArray S.curArraySize Ptr S.curArraySize
    (ptrInfo.hash Ptr &&& (S.curArraySize - 1)) 1 none

/-- The loop of `grow`: copy over all valid entries. -/
def growLoop : SmallPtrSet → List Ptr → Option SmallPtrSet
  | S, [] => some S
  | S, Elt :: rest =>
    if Elt ≠ tombstoneMarker ∧ Elt ≠ emptyMarker then
      (findBucketFor S Elt).bind fun Bucket =>
        growLoop (S.setCurArray (S.curArray.set Bucket Elt)) rest
    else growLoop S rest

/-- Allocate a larger backing store for the buckets and move it over. -/
def grow (S : SmallPtrSet) (NewSize : Nat) : Option SmallPtrSet :=
  let New := { S with
    heapArray := some (replicate NewSize emptyMarker)
    curArraySize := NewSize }
  (growLoop New S.slots).map fun S =>
    { S with
      numNonEmpty := subUnsigned S.numNonEmpty S.numTombstones
      numTombstones := 0 }

/-- Grow the set if more than 3/4 of it is full, or rehash it if fewer than 1/8 of it is
empty. -/
def makeRoom (S : SmallPtrSet) : Option SmallPtrSet :=
  if toUnsigned (S.curArraySize * 3) ≤ toUnsigned (S.size * 4) then
    grow S (if S.curArraySize < 64 then 128 else toUnsigned (S.curArraySize * 2))
  else if subUnsigned S.curArraySize S.numNonEmpty < S.curArraySize / 8 then
    grow S S.curArraySize
  else some S

/-- Insert a pointer into the hash table. -/
def insertImpBig (S : SmallPtrSet) (Ptr : Ptr) : Option (SmallPtrSet × Nat × Bool) :=
  (makeRoom S).bind fun S =>
    (findBucketFor S Ptr).bind fun Bucket =>
      (S.curArray[Bucket]?).map fun Value =>
        if Value = Ptr then (S, Bucket, false)
        else if Value = tombstoneMarker then
          ({ S.setCurArray (S.curArray.set Bucket Ptr) with
            numTombstones := subUnsigned S.numTombstones 1 }, Bucket, true)
        else
          ({ S.setCurArray (S.curArray.set Bucket Ptr) with
            numNonEmpty := toUnsigned (S.numNonEmpty + 1) }, Bucket, true)

/-- The loop of `insertImp` over the inline array: where the pointer is, or else where the last
tombstone is. -/
def insertScan (Ptr : Ptr) : List Zapcc.ADT.Ptr → Nat → Option Nat → Nat ⊕ Option Nat
  | [], _, LastTombstone => .inr LastTombstone
  | Value :: rest, APtr, LastTombstone =>
    if Value = Ptr then .inl APtr
    else insertScan Ptr rest (APtr + 1)
      (if Value = tombstoneMarker then some APtr else LastTombstone)

/-- Insert a pointer, and return where it is and whether it was new. -/
def insertImp (S : SmallPtrSet) (Ptr : Ptr) : Option (SmallPtrSet × Nat × Bool) :=
  if S.isSmall then
    match insertScan Ptr (S.smallArray.take S.numNonEmpty) 0 none with
    | .inl APtr => some (S, APtr, false)
    | .inr (some LastTombstone) =>
      some ({ S with
        smallArray := S.smallArray.set LastTombstone Ptr
        numTombstones := subUnsigned S.numTombstones 1 }, LastTombstone, true)
    | .inr none =>
      if S.numNonEmpty < S.curArraySize then
        some ({ S with
          smallArray := S.smallArray.set S.numNonEmpty Ptr
          numNonEmpty := toUnsigned (S.numNonEmpty + 1) }, S.numNonEmpty, true)
      else insertImpBig S Ptr
  else insertImpBig S Ptr

/-- Where a pointer is, or else the end pointer. -/
def findImp (S : SmallPtrSet) (Ptr : Ptr) : Option (Option Nat) :=
  if S.isSmall then some ((S.smallArray.take S.numNonEmpty).findIdx? fun Value => Value = Ptr)
  else
    (findBucketFor S Ptr).bind fun Bucket =>
      (S.curArray[Bucket]?).map fun Value => if Value = Ptr then some Bucket else none

/-- Remove a pointer, and return whether it was in the set. -/
def eraseImp (S : SmallPtrSet) (Ptr : Ptr) : Option (SmallPtrSet × Bool) :=
  (findImp S Ptr).bind fun P =>
    match P with
    | none => some (S, false)
    | some Loc =>
      if S.curArray[Loc]? = some Ptr then
        some ({ S.setCurArray (S.curArray.set Loc tombstoneMarker) with
          numTombstones := toUnsigned (S.numTombstones + 1) }, true)
      else none

/-- Free the table and allocate a smaller one. -/
def shrinkAndClear (S : SmallPtrSet) : SmallPtrSet :=
  let CurArraySize := if 16 < S.size then toUnsigned (2 ^ (log2_32_Ceil S.size + 1)) else 32
  { S with
    curArraySize := CurArraySize
    numNonEmpty := 0
    numTombstones := 0
    heapArray := some (replicate CurArraySize emptyMarker) }

def clear (S : SmallPtrSet) : SmallPtrSet :=
  if S.isSmall then { S with numNonEmpty := 0, numTombstones := 0 }
  else if toUnsigned (S.size * 4) < S.curArraySize ∧ 32 < S.curArraySize then shrinkAndClear S
  else
    { S with
      heapArray := some (replicate S.curArraySize emptyMarker)
      numNonEmpty := 0
      numTombstones := 0 }

/-- Copy the contents and the counters of another set into the current array. -/
def copyHelper (S RHS : SmallPtrSet) : SmallPtrSet :=
  { S.setCurArray (stdCopy RHS.slots S.curArray) with
    curArraySize := RHS.curArraySize
    numNonEmpty := RHS.numNonEmpty
    numTombstones := RHS.numTombstones }

/-- Copy another set: choose the array, unless it has the size of the other, and fill it. -/
def copyFrom (S RHS : SmallPtrSet) : SmallPtrSet :=
  if RHS.isSmall then copyHelper { S with heapArray := none } RHS
  else if S.curArraySize ≠ RHS.curArraySize then
    if S.isSmall then copyHelper { S with heapArray := some (malloc RHS.curArraySize) } RHS
    else copyHelper { S with heapArray := some (realloc S.curArray RHS.curArraySize) } RHS
  else copyHelper S RHS

/-- Take the contents of another set, and leave it small and empty. -/
def moveFrom (SmallSize : Nat) (S RHS : SmallPtrSet) : SmallPtrSet × SmallPtrSet :=
  let moved :=
    if RHS.isSmall then
      { S with
        heapArray := none
        smallArray := stdCopy (RHS.smallArray.take RHS.numNonEmpty) S.smallArray }
    else { S with heapArray := RHS.heapArray }
  ({ moved with
      curArraySize := RHS.curArraySize
      numNonEmpty := RHS.numNonEmpty
      numTombstones := RHS.numTombstones },
    { RHS with
      heapArray := none
      curArraySize := SmallSize
      numNonEmpty := 0
      numTombstones := 0 })

/-- Exchange the contents of two sets. -/
def swap (S RHS : SmallPtrSet) : SmallPtrSet × SmallPtrSet :=
  if ¬ S.isSmall ∧ ¬ RHS.isSmall then
    ({ RHS with smallArray := S.smallArray }, { S with smallArray := RHS.smallArray })
  else if ¬ S.isSmall ∧ RHS.isSmall then
    ({ RHS with
        smallArray := stdCopy (RHS.smallArray.take RHS.numNonEmpty) S.smallArray
        heapArray := none },
      { S with smallArray := RHS.smallArray })
  else if S.isSmall ∧ ¬ RHS.isSmall then
    ({ RHS with smallArray := S.smallArray }, { S with
        smallArray := stdCopy (S.smallArray.take S.numNonEmpty) RHS.smallArray
        heapArray := none })
  else
    let MinNonEmpty := min S.numNonEmpty RHS.numNonEmpty
    let left := stdCopy (RHS.smallArray.take MinNonEmpty) S.smallArray
    let right := stdCopy (S.smallArray.take MinNonEmpty) RHS.smallArray
    if MinNonEmpty < S.numNonEmpty then
      let tail := (left.take S.numNonEmpty).drop MinNonEmpty
      ({ S with
          smallArray := left
          numNonEmpty := RHS.numNonEmpty
          numTombstones := RHS.numTombstones },
        { RHS with
          smallArray := right.take MinNonEmpty ++ stdCopy tail (right.drop MinNonEmpty)
          numNonEmpty := S.numNonEmpty
          numTombstones := S.numTombstones })
    else
      let tail := (right.take RHS.numNonEmpty).drop MinNonEmpty
      ({ S with
          smallArray := left.take MinNonEmpty ++ stdCopy tail (left.drop MinNonEmpty)
          numNonEmpty := RHS.numNonEmpty
          numTombstones := RHS.numTombstones },
        { RHS with
          smallArray := right
          numNonEmpty := S.numNonEmpty
          numTombstones := S.numTombstones })

/-! ## Clients of several sets -/

/-- A call on one or two of the sets. -/
inductive Op (ι : Type) where
  | insert (i : ι) (Ptr : Ptr)
  | erase (i : ι) (Ptr : Ptr)
  | count (i : ι) (Ptr : Ptr)
  | clear (i : ι)
  | copyAssign (i j : ι)
  | moveAssign (i j : ι)
  | swap (i j : ι)

/-- What a client sees: the pointer that an iterator points to and whether it was inserted,
whether a pointer was removed, and whether one is in the set. -/
inductive Seen where
  | inserted (Ptr : Option Ptr) (isNew : Bool)
  | erased (b : Bool)
  | counted (n : Nat)
  | nothing
  deriving DecidableEq

variable {ι : Type} [DecidableEq ι]

/-- One call, on sets with an inline array of `SmallSize` pointers. -/
def step (SmallSize : Nat) (sets : ι → SmallPtrSet) :
    Op ι → Option ((ι → SmallPtrSet) × Seen)
  | .insert i Ptr =>
    (insertImp (sets i) Ptr).map fun (S, at_, isNew) =>
      (update sets i S, .inserted (S.curArray[at_]?) isNew)
  | .erase i Ptr =>
    (eraseImp (sets i) Ptr).map fun (S, b) => (update sets i S, .erased b)
  | .count i Ptr =>
    (findImp (sets i) Ptr).map fun P => (sets, .counted (if P.isSome then 1 else 0))
  | .clear i => some (update sets i (clear (sets i)), .nothing)
  | .copyAssign i j =>
    if i = j then some (sets, .nothing)
    else some (update sets i (copyFrom (sets i) (sets j)), .nothing)
  | .moveAssign i j =>
    if i = j then some (sets, .nothing)
    else
      let (S, RHS) := moveFrom SmallSize (sets i) (sets j)
      some (update (update sets i S) j RHS, .nothing)
  | .swap i j =>
    if i = j then some (sets, .nothing)
    else
      let (S, RHS) := swap (sets i) (sets j)
      some (update (update sets i S) j RHS, .nothing)

/-- The calls of a client one after the other. -/
def run (SmallSize : Nat) (sets : ι → SmallPtrSet) :
    List (Op ι) → Option ((ι → SmallPtrSet) × List Seen)
  | [] => some (sets, [])
  | op :: ops =>
    (step SmallSize sets op).bind fun (sets, seen) =>
      (run SmallSize sets ops).map fun (sets, rest) => (sets, seen :: rest)

end SmallPtrSet

end Zapcc.ADT
