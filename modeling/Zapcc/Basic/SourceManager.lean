import Zapcc.Support.MathExtras

/-!
# The source manager's tables

A source location is an offset into the address space that the files and the macro expansions
share. Local entries grow from its beginning and loaded ones down from its end, and `getFileID`
finds the entry of an offset. A function has no result where an assertion fails or a table is
indexed outside of it.
-/

namespace Zapcc.Basic

open MathExtras

/-- An entry: its offset of 31 bits, and whether it is an expansion. -/
structure SLocEntry where
  offset : Nat
  isExpansion : Bool
  deriving DecidableEq

/-- The construction of an entry, which asserts that its offset is not too large. -/
def SLocEntry.get (Offset : Nat) (IsExpansion : Bool) : Option SLocEntry :=
  if Offset < 2 ^ 31 then some ⟨Offset, IsExpansion⟩ else none

/-- The tables, of which every loaded entry is loaded, and the one-entry cache. A file ID that is
not negative is an index into the local table, and `-2 - i` is the one of loaded entry `i`. -/
structure SourceManager where
  localSLocEntryTable : List SLocEntry
  loadedSLocEntryTable : List SLocEntry
  nextLocalOffset : Nat
  currentLoadedOffset : Nat
  lastFileIDLookup : Int
  deriving DecidableEq

namespace SourceManager

/-- The highest offset is `2 ^ 31 - 1`. -/
abbrev maxLoadedOffset : Nat := 2 ^ 31

/-! ## Creating entries -/

/-- The new end of the local entries, unless the source locations ran out. -/
def advance (M : SourceManager) (Length : Nat) : Option Nat :=
  let next := toUnsigned (M.nextLocalOffset + Length + 1)
  if M.nextLocalOffset < next ∧ next ≤ M.currentLoadedOffset then some next else none

def createFileID (M : SourceManager) (size : Nat) : Option (SourceManager × Int) :=
  (SLocEntry.get M.nextLocalOffset false).bind fun E =>
    (advance M (toUnsigned size)).map fun next =>
      ({ M with
        localSLocEntryTable := M.localSLocEntryTable ++ [E]
        nextLocalOffset := next
        lastFileIDLookup := M.localSLocEntryTable.length }, M.localSLocEntryTable.length)

/-- Create a local entry for an expansion, and return its location. -/
def createExpansionLocImpl (M : SourceManager) (TokLength : Nat) :
    Option (SourceManager × Nat) :=
  (SLocEntry.get M.nextLocalOffset true).bind fun E =>
    (advance M TokLength).map fun next =>
      ({ M with
        localSLocEntryTable := M.localSLocEntryTable ++ [E]
        nextLocalOffset := next }, subUnsigned next (toUnsigned (TokLength + 1)))

/-- The location of a macro expansion. -/
def createExpansionLoc (M : SourceManager) (TokLength : Nat) : Option (SourceManager × Nat) :=
  createExpansionLocImpl M TokLength

/-- The location of a macro argument's expansion. -/
def createMacroArgExpansionLoc (M : SourceManager) (TokLength : Nat) :
    Option (SourceManager × Nat) :=
  createExpansionLocImpl M TokLength

/-- Tables without entries, and then entry 0, an invalid expansion. -/
def clearIDTables (loaded : List SLocEntry) (currentLoadedOffset : Nat) : Option SourceManager :=
  (createExpansionLoc ⟨[], loaded, 0, currentLoadedOffset, 0⟩ 1).map Prod.fst

/-! ## Reading entries -/

def getLocalSLocEntry (M : SourceManager) (Index : Nat) : Option SLocEntry :=
  M.localSLocEntryTable[Index]?

def getLoadedSLocEntry (M : SourceManager) (Index : Nat) : Option SLocEntry :=
  M.loadedSLocEntryTable[Index]?

/-- The entry with a file ID, which is not the sentinel. -/
def getSLocEntryByID (M : SourceManager) (ID : Int) : Option SLocEntry :=
  if ID = -1 then none
  else if ID < 0 then M.getLoadedSLocEntry (-ID - 2).toNat
  else M.getLocalSLocEntry ID.toNat

/-- The entry with a file ID. An invalid one has the first local entry. -/
def getSLocEntry (M : SourceManager) (FID : Int) : Option SLocEntry :=
  if FID = 0 ∨ FID = -1 then M.getLocalSLocEntry 0 else M.getSLocEntryByID FID

/-- Whether the entry of a file ID contains an offset. -/
def isOffsetInFileID (M : SourceManager) (FID : Int) (SLocOffset : Nat) : Option Bool :=
  (M.getSLocEntry FID).bind fun Entry =>
    if SLocOffset < Entry.offset then some false
    else if FID = -2 then some true
    else if FID + 1 = M.localSLocEntryTable.length then some (SLocOffset < M.nextLocalOffset)
    else (M.getSLocEntryByID (FID + 1)).map fun Next => SLocOffset < Next.offset

/-! ## Finding entries -/

/-- Remember a result, unless it is an expansion. -/
def remember (M : SourceManager) (Res : Int) (E : SLocEntry) : SourceManager :=
  if E.isExpansion then M else { M with lastFileIDLookup := Res }

/-- The linear scan of the local table, which goes down from before an index: the index of an
entry that is not after the offset, or else the index where the scan gave up. -/
def scanLocal (M : SourceManager) (SLocOffset : Nat) : Nat → Nat → Option (Nat ⊕ Nat)
  | 0, I => some (.inr I)
  | _ + 1, 0 => none
  | probes + 1, I + 1 =>
    (M.getLocalSLocEntry I).bind fun E =>
      if E.offset ≤ SLocOffset then some (.inl I) else scanLocal M SLocOffset probes I

/-- The binary search of the local table. Each round narrows the range. -/
def searchLocal (M : SourceManager) (SLocOffset : Nat) : Nat → Nat → Nat → Option Nat
  | 0, _, _ => none
  | rounds + 1, GreaterIndex, LessIndex =>
    let MiddleIndex := (GreaterIndex - LessIndex) / 2 + LessIndex
    (M.getLocalSLocEntry MiddleIndex).bind fun E =>
      if SLocOffset < E.offset then searchLocal M SLocOffset rounds MiddleIndex LessIndex
      else
        (M.isOffsetInFileID MiddleIndex SLocOffset).bind fun contained =>
          if contained then some MiddleIndex
          else searchLocal M SLocOffset rounds GreaterIndex MiddleIndex

/-- Where the linear scan of the local table starts. -/
def startLocal (M : SourceManager) (SLocOffset : Nat) : Option Nat :=
  if M.lastFileIDLookup < 0 then some M.localSLocEntryTable.length
  else
    (M.getLocalSLocEntry M.lastFileIDLookup.toNat).map fun E =>
      if E.offset < SLocOffset then M.localSLocEntryTable.length else M.lastFileIDLookup.toNat

def getFileIDLocal (M : SourceManager) (SLocOffset : Nat) : Option (SourceManager × Int) :=
  if SLocOffset < M.nextLocalOffset then
    (M.startLocal SLocOffset).bind fun start =>
      (M.scanLocal SLocOffset 8 start).bind fun scanned =>
        (match scanned with
          | .inl I => some I
          | .inr GreaterIndex =>
            M.searchLocal SLocOffset M.localSLocEntryTable.length GreaterIndex 0).bind fun I =>
          (M.getLocalSLocEntry I).map fun E => (M.remember I E, (I : Int))
  else none

/-- The linear scan of the loaded table, which goes up from an index. -/
def scanLoaded (M : SourceManager) (SLocOffset : Nat) : Nat → Nat → Option (Nat ⊕ Nat)
  | 0, I => some (.inr I)
  | probes + 1, I =>
    (M.getLoadedSLocEntry I).bind fun E =>
      if E.offset ≤ SLocOffset then some (.inl I) else scanLoaded M SLocOffset probes (I + 1)

/-- The binary search of the loaded table, in which the offsets fall. It finds an index, or an
entry that is invalid, or else an assertion fails. -/
def searchLoaded (M : SourceManager) (SLocOffset : Nat) : Nat → Nat → Nat → Option (Option Nat)
  | 0, _, _ => none
  | rounds + 1, GreaterIndex, LessIndex =>
    let MiddleIndex := (LessIndex - GreaterIndex) / 2 + GreaterIndex
    (M.getLoadedSLocEntry MiddleIndex).bind fun E =>
      if E.offset = 0 then some none
      else if SLocOffset < E.offset then
        if GreaterIndex = MiddleIndex then none
        else searchLoaded M SLocOffset rounds MiddleIndex LessIndex
      else
        (M.isOffsetInFileID (-(MiddleIndex : Int) - 2) SLocOffset).bind fun contained =>
          if contained then some (some MiddleIndex)
          else if LessIndex = MiddleIndex then none
          else searchLoaded M SLocOffset rounds GreaterIndex MiddleIndex

/-- Where the linear scan of the loaded table starts. -/
def startLoaded (M : SourceManager) (SLocOffset : Nat) : Option Nat :=
  if 0 ≤ M.lastFileIDLookup then some 0
  else
    (M.getSLocEntryByID M.lastFileIDLookup).map fun E =>
      if E.offset < SLocOffset then 0 else (-M.lastFileIDLookup - 2).toNat + 1

def getFileIDLoaded (M : SourceManager) (SLocOffset : Nat) : Option (SourceManager × Int) :=
  if SLocOffset < M.currentLoadedOffset then some (M, 0)
  else
    (M.startLoaded SLocOffset).bind fun start =>
      (M.scanLoaded SLocOffset 8 start).bind fun scanned =>
        (match scanned with
          | .inl I => some (some I)
          | .inr GreaterIndex =>
            M.searchLoaded SLocOffset M.loadedSLocEntryTable.length GreaterIndex
              M.loadedSLocEntryTable.length).bind fun found =>
          match found with
          | none => some (M, 0)
          | some I =>
            (M.getLoadedSLocEntry I).map fun E =>
              (M.remember (-(I : Int) - 2) E, -(I : Int) - 2)

/-- The path of `getFileID` when the cache misses. -/
def getFileIDSlow (M : SourceManager) (SLocOffset : Nat) : Option (SourceManager × Int) :=
  if SLocOffset = 0 then some (M, 0)
  else if SLocOffset < M.nextLocalOffset then M.getFileIDLocal SLocOffset
  else M.getFileIDLoaded SLocOffset

def getFileID (M : SourceManager) (SLocOffset : Nat) : Option (SourceManager × Int) :=
  (M.isOffsetInFileID M.lastFileIDLookup SLocOffset).bind fun contained =>
    if contained then some (M, M.lastFileIDLookup) else M.getFileIDSlow SLocOffset

/-! ## Clients -/

/-- A call of a client. A location has 31 bits for its offset. -/
inductive Op where
  | createFileID (size : Nat)
  | createExpansionLoc (TokLength : Nat)
  | createMacroArgExpansionLoc (TokLength : Nat)
  | getFileID (SLocOffset : Fin (2 ^ 31))

def step (M : SourceManager) : Op → Option SourceManager
  | .createFileID size => (M.createFileID size).map Prod.fst
  | .createExpansionLoc TokLength => (M.createExpansionLoc TokLength).map Prod.fst
  | .createMacroArgExpansionLoc TokLength => (M.createMacroArgExpansionLoc TokLength).map Prod.fst
  | .getFileID SLocOffset => (M.getFileID SLocOffset).map Prod.fst

/-- The calls of a client one after the other. -/
def run (M : SourceManager) : List Op → Option SourceManager
  | [] => some M
  | op :: ops => (M.step op).bind fun M => run M ops

end SourceManager

end Zapcc.Basic
