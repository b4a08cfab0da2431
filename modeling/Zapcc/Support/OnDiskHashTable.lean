import Zapcc.Library.Digits
import Zapcc.Support.MathExtras

/-!
# Hash tables on disk

The generator collects items in chained buckets and writes them bucket by bucket, then the table
of the buckets' offsets. The reader finds a key through that table, and the iterable table walks
over the items from the first one on. Memory is a list of bytes, a pointer is an index into it.
An access outside of an array or of the memory has no result.
-/

namespace Zapcc.OnDiskHashTable

open Digits MathExtras

/-- The type that a table is instantiated with: its hash function, the encodings that the
generator writes and the ones that the reader reads. The two integer types have 32 or 64 bits. -/
structure Info (Key External Data : Type) where
  /-- `sizeof(hash_value_type)`. -/
  hashBytes : Nat
  /-- `sizeof(offset_type)`. -/
  offsetBytes : Nat
  hashBytes_eq : hashBytes = 4 ∨ hashBytes = 8
  offsetBytes_eq : offsetBytes = 4 ∨ offsetBytes = 8
  ComputeHash : Key → BitVec (8 * hashBytes)
  EqualKey : Key → Key → Bool
  GetInternalKey : External → Key
  GetExternalKey : Key → External
  /-- The bytes that are written, and the two lengths that are returned. -/
  EmitKeyDataLength : Key → Data → List (BitVec 8) × (Nat × Nat)
  EmitKey : Key → Nat → List (BitVec 8)
  EmitData : Key → Data → Nat → List (BitVec 8)
  /-- The two lengths, and how far the pointer is advanced. -/
  ReadKeyDataLength : List (BitVec 8) → (Nat × Nat) × Nat
  ReadKey : List (BitVec 8) → Nat → Key
  ReadData : Key → List (BitVec 8) → Nat → Data

variable {Key External Data : Type} {I : Info Key External Data}

namespace Info

/-- A value converted to `offset_type`. -/
def toOffset (I : Info Key External Data) (n : Nat) : Nat := n % 2 ^ (8 * I.offsetBytes)

/-- `--` on a value of `offset_type`. -/
def decrement (I : Info Key External Data) (n : Nat) : Nat :=
  I.toOffset (n + 2 ^ (8 * I.offsetBytes) - 1)

end Info

/-- An item of the hash table. Its hash is computed when it is made. -/
structure Item (I : Info Key External Data) where
  Key : Key
  Data : Data
  Hash : BitVec (8 * I.hashBytes)
  hash_eq : Hash = I.ComputeHash Key

def Item.create (I : Info Key External Data) (K : Key) (D : Data) : Item I :=
  ⟨K, D, I.ComputeHash K, rfl⟩

/-- A hash bucket with its linked list of items. -/
structure Bucket (I : Info Key External Data) where
  Off : Nat
  Length : Nat
  Head : List (Item I)

def Bucket.zero : Bucket I := ⟨0, 0, []⟩

structure Generator (I : Info Key External Data) where
  NumEntries : Nat
  Buckets : List (Bucket I)

namespace Generator

/-- The number of buckets is the size of their array. -/
def NumBuckets (g : Generator I) : Nat := g.Buckets.length

/-- The generator without entries. -/
def empty : Generator I := ⟨0, List.replicate 64 Bucket.zero⟩

/-- Insert an item into its bucket. A table of size zero has none. -/
def insertItem (Buckets : List (Bucket I)) (Size : Nat) (E : Item I) : Option (List (Bucket I)) :=
  Buckets[E.Hash.toNat &&& (Size - 1)]?.map fun B =>
    Buckets.set (E.Hash.toNat &&& (Size - 1))
      { B with Length := toUnsigned (B.Length + 1), Head := E :: B.Head }

/-- Resize the hash table, moving the old entries into the new buckets. -/
def resize (g : Generator I) (NewSize : Nat) : Option (Generator I) :=
  (g.Buckets.foldlM (fun NewBuckets (B : Bucket I) =>
      B.Head.foldlM (fun NewBuckets E => insertItem NewBuckets NewSize E) NewBuckets)
    (List.replicate NewSize Bucket.zero)).map fun NewBuckets => { g with Buckets := NewBuckets }

/-- The part of `insert` before the item is made: count it, and double the table if it is full. -/
def grow (g : Generator I) : Option (Generator I) :=
  let counted := { g with NumEntries := I.toOffset (g.NumEntries + 1) }
  if I.toOffset (3 * counted.NumBuckets) ≤ I.toOffset (4 * counted.NumEntries) then
    counted.resize (I.toOffset (counted.NumBuckets * 2))
  else
    some counted

/-- Insert an entry into the table. -/
def insert (g : Generator I) (K : Key) (D : Data) : Option (Generator I) :=
  g.grow.bind fun g' =>
    (insertItem g'.Buckets g'.NumBuckets (Item.create I K D)).map fun Buckets =>
      { g' with Buckets := Buckets }

/-- Determine whether an entry has been inserted. The hash is kept in an `unsigned`. -/
def contains (g : Generator I) (K : Key) : Option Bool :=
  let Hash := toUnsigned (I.ComputeHash K).toNat
  g.Buckets[Hash &&& (g.NumBuckets - 1)]?.map fun B =>
    B.Head.any fun E => E.Hash.toNat == Hash && I.EqualKey E.Key K

/-- The number of buckets that a table is emitted with, an `unsigned`. -/
def TargetNumBuckets (g : Generator I) : Nat :=
  if g.NumEntries ≤ 2 then 1
  else toUnsigned (nextPowerOf2 (I.toOffset (g.NumEntries * 4) / 3))

/-- The table that is emitted. -/
def shrink (g : Generator I) : Option (Generator I) :=
  if g.TargetNumBuckets ≠ g.NumBuckets then g.resize g.TargetNumBuckets else some g

/-- Write the items of a bucket. -/
def emitItems (Out : List (BitVec 8)) : List (Item I) → List (BitVec 8)
  | [] => Out
  | E :: rest =>
    let Len := I.EmitKeyDataLength E.Key E.Data
    emitItems (Out ++ ofValue 8 I.hashBytes E.Hash.toNat ++ Len.1 ++ I.EmitKey E.Key Len.2.1 ++
      I.EmitData E.Key E.Data Len.2.2) rest

/-- Write the payload, and keep the offset of every bucket that has items. -/
def emitPayload (Out : List (BitVec 8)) :
    List (Bucket I) → List (BitVec 8) × List (Bucket I)
  | [] => (Out, [])
  | B :: rest =>
    if B.Head = [] then
      let written := emitPayload Out rest
      (written.1, B :: written.2)
    else
      let written := emitPayload (emitItems (Out ++ ofValue 8 2 B.Length) B.Head) rest
      (written.1, { B with Off := I.toOffset Out.length } :: written.2)

/-- Write the number of buckets, the number of entries and the offsets of the buckets, at an
aligned offset that is returned. -/
def emitTable (Out : List (BitVec 8)) (NumEntries : Nat) (Buckets : List (Bucket I)) :
    List (BitVec 8) × Nat :=
  let N := alignTo (I.toOffset Out.length) I.offsetBytes - I.toOffset Out.length
  (Out ++ List.replicate N 0#8 ++ ofValue 8 I.offsetBytes Buckets.length ++
      ofValue 8 I.offsetBytes NumEntries ++
      Buckets.flatMap fun B => ofValue 8 I.offsetBytes B.Off,
    I.toOffset (I.toOffset Out.length + N))

/-- Emit the table behind what was written to `Out`, and return where the hash table starts. -/
def Emit (g : Generator I) (Out : List (BitVec 8)) : Option (List (BitVec 8) × Nat) :=
  g.shrink.map fun g' =>
    let written := emitPayload Out g'.Buckets
    emitTable written.1 g'.NumEntries written.2

/-- The generator after a sequence of calls of `insert`. -/
def insertAll (I : Info Key External Data) (entries : List (Key × Data)) :
    Option (Generator I) :=
  entries.foldlM (fun g e => g.insert e.1 e.2) empty

end Generator

/-- `endian::readNext` of a little-endian integer: its value, and the pointer behind it. -/
def readNext (size : Nat) (Base : List (BitVec 8)) (Ptr : Nat) : Option (Nat × Nat) :=
  if Ptr + size ≤ Base.length then some (value ((Base.drop Ptr).take size), Ptr + size) else none

/-- What `find` returns unless it returns `end()`: a key with a pointer to its data. -/
structure Found (Key : Type) where
  Key : Key
  Data : Nat
  Len : Nat

structure Table (I : Info Key External Data) where
  NumBuckets : Nat
  NumEntries : Nat
  Buckets : Nat
  Base : List (BitVec 8)

namespace Table

/-- Create the table that starts at a pointer. -/
def Create (I : Info Key External Data) (Buckets : Nat) (Base : List (BitVec 8)) :
    Option (Table I) :=
  (readNext I.offsetBytes Base Buckets).bind fun NumBuckets =>
    (readNext I.offsetBytes Base NumBuckets.2).map fun NumEntries =>
      ⟨NumBuckets.1, NumEntries.1, NumEntries.2, Base⟩

/-- Look through the next items of a bucket. -/
def findItem (T : Table I) (IKey : Key) (KeyHash : Nat) :
    Nat → Nat → Option (Option (Found Key))
  | 0, _ => some none
  | i + 1, Items =>
    (readNext I.hashBytes T.Base Items).bind fun ItemHash =>
      let L := I.ReadKeyDataLength (T.Base.drop ItemHash.2)
      let Ptr := ItemHash.2 + L.2
      let ItemLen := I.toOffset (L.1.1 + L.1.2)
      if ItemHash.1 ≠ KeyHash then
        findItem T IKey KeyHash i (Ptr + ItemLen)
      else
        let X := I.ReadKey (T.Base.drop Ptr) L.1.1
        if I.EqualKey X IKey then some (some ⟨X, Ptr + L.1.1, L.1.2⟩)
        else findItem T IKey KeyHash i (Ptr + ItemLen)

/-- Look up the stored data for a key with a known hash. -/
def find_hashed (T : Table I) (IKey : Key) (KeyHash : Nat) : Option (Option (Found Key)) :=
  (readNext I.offsetBytes T.Base
      (T.Buckets + I.offsetBytes * (KeyHash &&& (T.NumBuckets - 1)))).bind fun Offset =>
    if Offset.1 = 0 then some none
    else (readNext 2 T.Base Offset.1).bind fun Len => T.findItem IKey KeyHash Len.1 Len.2

/-- Look up the stored data for a key. -/
def find (T : Table I) (EKey : External) : Option (Option (Found Key)) :=
  T.find_hashed (I.GetInternalKey EKey) (I.ComputeHash (I.GetInternalKey EKey)).toNat

/-- The data that an iterator points to. -/
def deref (T : Table I) (X : Found Key) : Data := I.ReadData X.Key (T.Base.drop X.Data) X.Len

/-- `iterator_base`: the position of an iteration over all entries. -/
structure Position where
  Ptr : Nat
  NumItemsInBucketLeft : Nat
  NumEntriesLeft : Nat

def advance (T : Table I) (P : Position) : Option Position :=
  (if P.NumItemsInBucketLeft = 0 then readNext 2 T.Base P.Ptr
    else some (P.NumItemsInBucketLeft, P.Ptr)).map fun Items =>
    let L := I.ReadKeyDataLength (T.Base.drop (Items.2 + I.hashBytes))
    ⟨Items.2 + I.hashBytes + L.2 + I.toOffset (L.1.1 + L.1.2), I.decrement Items.1,
      I.decrement P.NumEntriesLeft⟩

/-- The start of the item as written by the trait. -/
def getItem (_ : Table I) (P : Position) : Nat :=
  P.Ptr + (if P.NumItemsInBucketLeft = 0 then 2 else 0) + I.hashBytes

def getInternalKey (T : Table I) (P : Position) : Key :=
  let L := I.ReadKeyDataLength (T.Base.drop (T.getItem P))
  I.ReadKey (T.Base.drop (T.getItem P + L.2)) L.1.1

/-- `key_iterator::operator*`. -/
def derefKey (T : Table I) (P : Position) : External := I.GetExternalKey (T.getInternalKey P)

/-- `data_iterator::operator*`. -/
def derefData (T : Table I) (P : Position) : Data :=
  let L := I.ReadKeyDataLength (T.Base.drop (T.getItem P))
  let Ptr := T.getItem P + L.2
  I.ReadData (I.ReadKey (T.Base.drop Ptr) L.1.1) (T.Base.drop (Ptr + L.1.1)) L.1.2

/-- `key_begin()` and `data_begin()` of a table whose payload starts at a pointer. -/
def begin (T : Table I) (Payload : Nat) : Position := ⟨Payload, 0, T.NumEntries⟩

/-- The keys and the data from a position on to the end, which is where no entries are left. -/
def iterate (T : Table I) : Nat → Position → Option (List (External × Data))
  | 0, _ => none
  | fuel + 1, P =>
    if P.NumEntriesLeft = 0 then some []
    else (T.advance P).bind fun next =>
      (iterate T fuel next).map fun visited => (T.derefKey P, T.derefData P) :: visited

end Table

end Zapcc.OnDiskHashTable
