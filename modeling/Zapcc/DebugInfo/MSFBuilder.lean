import Zapcc.ADT.BitVector
import Zapcc.Support.MathExtras

/-!
# The builder of MSF files

An MSF file consists of blocks. Block 0 is the super block, and in every interval of as many blocks
as a block has bytes, two are reserved for the two free page maps. `MSFBuilder` gives blocks to the
block map, the directory and the streams, and `build` computes the layout of the file. A call that
fails has an error and the state that it leaves; an assertion that fails has no result.
-/

namespace Zapcc.MSF

open BitVector MathExtras

/-- The codes of the errors that occur. -/
inductive msf_error_code where
  | unspecified
  | insufficient_buffer
  | invalid_format
  | block_in_use
  deriving DecidableEq

/-- An error, with its text. -/
structure MSFError where
  code : msf_error_code
  context : String
  deriving DecidableEq

def kSuperBlockBlock : Nat := 0
def kFreePageMap0Block : Nat := 1
def kFreePageMap1Block : Nat := 2
def kNumReservedPages : Nat := 3
def kDefaultFreePageMap : Nat := kFreePageMap0Block
def kDefaultBlockMapAddr : Nat := kNumReservedPages

/-- The block sizes that are supported. -/
def isValidBlockSize (Size : Nat) : Prop := Size = 512 ∨ Size = 1024 ∨ Size = 2048 ∨ Size = 4096

instance (Size : Nat) : Decidable (isValidBlockSize Size) :=
  inferInstanceAs (Decidable (_ ∨ _))

def getMinimumBlockCount : Nat := 4

def divideCeil (Numerator Denominator : Nat) : Nat := alignTo Numerator Denominator / Denominator

/-- The number of blocks for so many bytes. -/
def bytesToBlocks (NumBytes BlockSize : Nat) : Nat := divideCeil NumBytes BlockSize

/-- `MSFBuilder`. A free block has its bit set in `FreeBlocks`. -/
structure MSFBuilder where
  IsGrowable : Bool
  FreePageMap : Nat
  Unknown1 : Nat
  BlockSize : Nat
  BlockMapAddr : Nat
  FreeBlocks : List Bool
  DirectoryBlocks : List Nat
  StreamData : List (Nat × List Nat)

/-- `SuperBlock`, but for the magic bytes. -/
structure SuperBlock where
  BlockSize : Nat
  FreeBlockMapBlock : Nat
  NumBlocks : Nat
  NumDirectoryBytes : Nat
  Unknown1 : Nat
  BlockMapAddr : Nat

structure MSFLayout where
  SB : SuperBlock
  FreePageMap : List Bool
  DirectoryBlocks : List Nat
  StreamSizes : List Nat
  StreamMap : List (List Nat)

/-- The length and the blocks of a stream. -/
structure MSFStreamLayout where
  Length : Nat
  Blocks : List Nat

def newBuilder (BlockSize MinBlockCount : Nat) (CanGrow : Bool) : MSFBuilder where
  IsGrowable := CanGrow
  FreePageMap := kDefaultFreePageMap
  Unknown1 := 0
  BlockSize := BlockSize
  BlockMapAddr := kDefaultBlockMapAddr
  FreeBlocks := setBits (List.replicate MinBlockCount true)
    [kSuperBlockBlock, kFreePageMap0Block, kFreePageMap1Block, kDefaultBlockMapAddr] false
  DirectoryBlocks := []
  StreamData := []

/-- A builder, unless the block size is unsupported. -/
def create (BlockSize MinBlockCount : Nat) (CanGrow : Bool) : Except MSFError MSFBuilder :=
  if isValidBlockSize BlockSize then
    .ok (newBuilder BlockSize (max MinBlockCount getMinimumBlockCount) CanGrow)
  else
    .error ⟨.invalid_format, "The requested block size is unsupported"⟩

/-- The loop of `allocateBlocks` that reserves the blocks of the free page maps in the part of the
file that was added. -/
def reserveFpm (BlockSize : Nat) : Nat → Nat → List Bool → List Bool
  | 0, _, FreeBlocks => FreeBlocks
  | fuel + 1, NextFpmBlock, FreeBlocks =>
    if NextFpmBlock < FreeBlocks.length then
      reserveFpm BlockSize fuel (NextFpmBlock + BlockSize)
        (reset (resize FreeBlocks (FreeBlocks.length + 2) true) NextFpmBlock (NextFpmBlock + 2))
    else
      FreeBlocks

/-- The loop of `allocateBlocks` that takes free blocks, from `Block` on. -/
def takeBlocks : Nat → Option Nat → List Bool → Option (List Nat × List Bool)
  | 0, _, FreeBlocks => some ([], FreeBlocks)
  | _ + 1, none, _ => none
  | NumBlocks + 1, some Block, FreeBlocks =>
    (takeBlocks NumBlocks (find_next (FreeBlocks.set Block false) Block)
      (FreeBlocks.set Block false)).map fun r => (Block :: r.1, r.2)

def growFile (BlockSize NumBlocks : Nat) (FreeBlocks : List Bool) : List Bool :=
  let NewBlockCount := NumBlocks - count FreeBlocks + FreeBlocks.length
  reserveFpm BlockSize NewBlockCount (alignTo FreeBlocks.length BlockSize + 1)
    (resize FreeBlocks NewBlockCount true)

namespace MSFBuilder

def getNumFreeBlocks (b : MSFBuilder) : Nat := count b.FreeBlocks

def getTotalBlockCount (b : MSFBuilder) : Nat := b.FreeBlocks.length

/-- Move the block map to a block, perhaps one behind the end. -/
def setBlockMapAddr (b : MSFBuilder) (Addr : Nat) : Option (MSFBuilder × Except MSFError Unit) :=
  if Addr = b.BlockMapAddr then some (b, .ok ())
  else if b.FreeBlocks.length ≤ Addr ∧ b.IsGrowable = false then
    some (b, .error ⟨.insufficient_buffer, "Cannot grow the number of blocks"⟩)
  else
    let FreeBlocks :=
      if b.FreeBlocks.length ≤ Addr then resize b.FreeBlocks (Addr + 1) true else b.FreeBlocks
    if Unset FreeBlocks Addr then
      some ({ b with FreeBlocks := FreeBlocks },
        .error ⟨.block_in_use, "Requested block map address is already in use"⟩)
    else
      some ({ b with
        FreeBlocks := (FreeBlocks.set b.BlockMapAddr true).set Addr false, BlockMapAddr := Addr },
        .ok ())

/-- The loop of `setDirectoryBlocksHint` over the new blocks, and whether all were free. -/
def takeHint : List Bool → List Nat → Option (List Bool × Bool)
  | FreeBlocks, [] => some (FreeBlocks, true)
  | FreeBlocks, B :: DirBlocks =>
    FreeBlocks[B]?.bind fun isBlockFree =>
      if isBlockFree then takeHint (FreeBlocks.set B false) DirBlocks
      else some (FreeBlocks, false)

/-- Give the directory the blocks of the hint, instead of the ones that it has. -/
def setDirectoryBlocksHint (b : MSFBuilder) (DirBlocks : List Nat) :
    Option (MSFBuilder × Except MSFError Unit) :=
  (takeHint (setBits b.FreeBlocks b.DirectoryBlocks true) DirBlocks).map fun r =>
    if r.2 then
      ({ b with FreeBlocks := r.1, DirectoryBlocks := DirBlocks }, .ok ())
    else
      ({ b with FreeBlocks := r.1 }, .error ⟨.unspecified, "Attempt to reuse an allocated block"⟩)

/-- Take free blocks, and let the file grow when there are too few. -/
def allocateBlocks (b : MSFBuilder) (NumBlocks : Nat) :
    Option (MSFBuilder × Except MSFError (List Nat)) :=
  if NumBlocks = 0 then some (b, .ok [])
  else if b.getNumFreeBlocks < NumBlocks ∧ b.IsGrowable = false then
    some (b, .error ⟨.insufficient_buffer, "There are no free Blocks in the file"⟩)
  else
    let FreeBlocks :=
      if b.getNumFreeBlocks < NumBlocks then growFile b.BlockSize NumBlocks b.FreeBlocks
      else b.FreeBlocks
    (takeBlocks NumBlocks (find_first FreeBlocks) FreeBlocks).map fun r =>
      ({ b with FreeBlocks := r.2 }, .ok r.1)

/-- The first loop of `addStream`, and whether all blocks were free. -/
def testBlocks : List Bool → List Nat → Option (List Bool × Bool)
  | FreeBlocks, [] => some (FreeBlocks, true)
  | FreeBlocks, Block :: Blocks =>
    let FreeBlocks' :=
      if FreeBlocks.length ≤ Block then resize FreeBlocks (Block + 1) true else FreeBlocks
    FreeBlocks'[Block]?.bind fun isFree =>
      if isFree then testBlocks FreeBlocks' Blocks else some (FreeBlocks', false)

def addStreamAt (b : MSFBuilder) (Size : Nat) (Blocks : List Nat) :
    Option (MSFBuilder × Except MSFError Nat) :=
  if bytesToBlocks Size b.BlockSize ≠ Blocks.length then
    some (b, .error ⟨.invalid_format, "Incorrect number of blocks for requested stream size"⟩)
  else
    (testBlocks b.FreeBlocks Blocks).map fun r =>
      if r.2 then
        ({ b with
          FreeBlocks := setBits r.1 Blocks false, StreamData := b.StreamData ++ [(Size, Blocks)] },
          .ok b.StreamData.length)
      else
        ({ b with FreeBlocks := r.1 },
          .error ⟨.unspecified, "Attempt to re-use an already allocated block"⟩)

def addStream (b : MSFBuilder) (Size : Nat) : Option (MSFBuilder × Except MSFError Nat) :=
  (b.allocateBlocks (bytesToBlocks Size b.BlockSize)).map fun r =>
    match r.2 with
    | .error EC => (r.1, .error EC)
    | .ok NewBlocks =>
      ({ r.1 with StreamData := r.1.StreamData ++ [(Size, NewBlocks)] }, .ok r.1.StreamData.length)

/-- Give a stream more blocks, or release its last ones. -/
def setStreamSize (b : MSFBuilder) (Idx Size : Nat) : Option (MSFBuilder × Except MSFError Unit) :=
  b.StreamData[Idx]?.bind fun D =>
    if D.1 = Size then some (b, .ok ())
    else
      let NewBlocks := bytesToBlocks Size b.BlockSize
      let OldBlocks := bytesToBlocks D.1 b.BlockSize
      if OldBlocks < NewBlocks then
        (b.allocateBlocks (NewBlocks - OldBlocks)).map fun r =>
          match r.2 with
          | .error EC => (r.1, .error EC)
          | .ok AddedBlockList =>
            ({ r.1 with StreamData := r.1.StreamData.set Idx (Size, D.2 ++ AddedBlockList) },
              .ok ())
      else if NewBlocks < OldBlocks then
        let RemovedBlocks := OldBlocks - NewBlocks
        some ({ b with
          FreeBlocks := setBits b.FreeBlocks (D.2.drop NewBlocks) true
          StreamData := b.StreamData.set Idx (Size, D.2.take (D.2.length - RemovedBlocks)) },
          .ok ())
      else
        some ({ b with StreamData := b.StreamData.set Idx (Size, D.2) }, .ok ())

/-- The number of bytes, unless a stream has a wrong number of blocks. -/
def computeDirectoryByteSize (b : MSFBuilder) : Option Nat :=
  if ∀ D ∈ b.StreamData, bytesToBlocks D.1 b.BlockSize = D.2.length then
    some ((4 + b.StreamData.length * 4 + (b.StreamData.map fun D => D.2.length * 4).sum) % 2 ^ 32)
  else
    none

end MSFBuilder

/-- The number of intervals of a free page map. -/
def getNumFpmIntervals (BlockSize NumBlocks : Nat) (IncludeUnusedFpmData : Bool)
    (FpmNumber : Nat) : Nat :=
  if IncludeUnusedFpmData then divideCeil (NumBlocks - FpmNumber) BlockSize
  else divideCeil NumBlocks (8 * BlockSize)

/-- The blocks of one of the free page maps. -/
def getFpmStreamLayout (SB : SuperBlock) (IncludeUnusedFpmData AltFpm : Bool) : MSFStreamLayout :=
  let FpmBlock := if AltFpm then 3 - SB.FreeBlockMapBlock else SB.FreeBlockMapBlock
  let NumFpmIntervals := getNumFpmIntervals SB.BlockSize SB.NumBlocks IncludeUnusedFpmData FpmBlock
  { Length :=
      if IncludeUnusedFpmData then NumFpmIntervals * SB.BlockSize else divideCeil SB.NumBlocks 8
    Blocks := (List.range NumFpmIntervals).map fun I => FpmBlock + I * SB.BlockSize }

/-- Mark a block of the form of a free page map block as free, unless it is the next one in use. -/
def finalizeFpmBlockStatus (B : Nat) (FpmBlocks : List Nat) (Fpm : List Bool) :
    Option (List Nat × List Bool) :=
  if FpmBlocks.head? ≠ some B then
    if B < Fpm.length then some (FpmBlocks, Fpm.set B true) else none
  else if Unset Fpm B then some (FpmBlocks.tail, Fpm)
  else none

/-- The last loop of `build`. -/
def finalizeFpm (BlockSize NumBlocks : Nat) :
    Nat → Nat → List Nat → List Bool → Option (List Bool)
  | 0, _, _, Fpm => some Fpm
  | fuel + 1, B, FpmBlocks, Fpm =>
    if B < NumBlocks then
      (finalizeFpmBlockStatus B FpmBlocks Fpm).bind fun r =>
        (finalizeFpmBlockStatus (B + 1) r.1 r.2).bind fun r' =>
          finalizeFpm BlockSize NumBlocks fuel (B + BlockSize) r'.1 r'.2
    else
      some Fpm

namespace MSFBuilder

/-- The part of `build` that gives the directory its blocks. -/
def placeDirectory (b : MSFBuilder) (NumDirectoryBlocks : Nat) :
    Option (MSFBuilder × Except MSFError Unit) :=
  if b.DirectoryBlocks.length < NumDirectoryBlocks then
    (b.allocateBlocks (NumDirectoryBlocks - b.DirectoryBlocks.length)).map fun r =>
      match r.2 with
      | .error EC => (r.1, .error EC)
      | .ok ExtraBlocks =>
        ({ r.1 with DirectoryBlocks := r.1.DirectoryBlocks ++ ExtraBlocks }, .ok ())
  else if NumDirectoryBlocks < b.DirectoryBlocks.length then
    let NumUnnecessaryBlocks := b.DirectoryBlocks.length - NumDirectoryBlocks
    some ({ b with
      FreeBlocks := setBits b.FreeBlocks
        (b.DirectoryBlocks.take (b.DirectoryBlocks.length - NumUnnecessaryBlocks)) true
      DirectoryBlocks := b.DirectoryBlocks.take NumDirectoryBlocks }, .ok ())
  else
    some (b, .ok ())

/-- The layout of a file whose directory has its blocks. -/
def layoutOf (b : MSFBuilder) (NumDirectoryBytes : Nat) : Option (MSFBuilder × MSFLayout) :=
  let SB : SuperBlock :=
    { BlockSize := b.BlockSize, FreeBlockMapBlock := b.FreePageMap,
      NumBlocks := b.FreeBlocks.length, NumDirectoryBytes := NumDirectoryBytes,
      Unknown1 := b.Unknown1, BlockMapAddr := b.BlockMapAddr }
  if b.FreePageMap = 1 ∨ b.FreePageMap = 2 then
    (finalizeFpm b.BlockSize SB.NumBlocks SB.NumBlocks kFreePageMap0Block
      (getFpmStreamLayout SB true false).Blocks b.FreeBlocks).map fun FreeBlocks =>
        ({ b with FreeBlocks := FreeBlocks },
          { SB := SB, FreePageMap := FreeBlocks, DirectoryBlocks := b.DirectoryBlocks,
            StreamSizes := b.StreamData.map Prod.fst, StreamMap := b.StreamData.map Prod.snd })
  else
    none

def build (b : MSFBuilder) : Option (MSFBuilder × Except MSFError MSFLayout) :=
  b.computeDirectoryByteSize.bind fun NumDirectoryBytes =>
    (b.placeDirectory (bytesToBlocks NumDirectoryBytes b.BlockSize)).bind fun r =>
      match r.2 with
      | .error EC => some (r.1, .error EC)
      | .ok () => (r.1.layoutOf NumDirectoryBytes).map fun r => (r.1, .ok r.2)

end MSFBuilder

/-- The calls that change a builder. -/
inductive Call where
  | setBlockMapAddr (Addr : Nat)
  | setDirectoryBlocksHint (DirBlocks : List Nat)
  | addStreamAt (Size : Nat) (Blocks : List Nat)
  | addStream (Size : Nat)
  | setStreamSize (Idx Size : Nat)

/-- The error of a call, if it failed. -/
def errorOf {α : Type} : Except MSFError α → Option MSFError
  | .error EC => some EC
  | .ok _ => none

namespace MSFBuilder

def step (b : MSFBuilder) : Call → Option (MSFBuilder × Option MSFError)
  | .setBlockMapAddr Addr => (b.setBlockMapAddr Addr).map fun r => (r.1, errorOf r.2)
  | .setDirectoryBlocksHint DirBlocks =>
    (b.setDirectoryBlocksHint DirBlocks).map fun r => (r.1, errorOf r.2)
  | .addStreamAt Size Blocks => (b.addStreamAt Size Blocks).map fun r => (r.1, errorOf r.2)
  | .addStream Size => (b.addStream Size).map fun r => (r.1, errorOf r.2)
  | .setStreamSize Idx Size => (b.setStreamSize Idx Size).map fun r => (r.1, errorOf r.2)

end MSFBuilder

end Zapcc.MSF
