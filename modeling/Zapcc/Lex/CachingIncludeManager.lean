import Mathlib.Data.Finset.Insert
import Zapcc.Support.SetVector

/-!
# The manager of the files that a compilation includes

The files that are included in this compilation are a set. A file that was lexed in an earlier
compilation is not lexed again, so its own includes are found in `IncludeesMap`, which is kept from
one compilation to the next. `includeFile` follows it, and calls back for every file that enters
the set.
-/

namespace Zapcc.Lex

open Function

/-- What the manager calls for a file: it replays the entry and the exit of the file at its
location, checks the macros that the file used, and reports the file as included. -/
inductive IncludeCall (FileEntry Loc : Type) where
  | fileChanged (file : FileEntry) (location : Loc)
  | macroCheckChanged (file : FileEntry)
  | included (file : FileEntry)
  deriving DecidableEq

/-- The manager, with the fields of the preprocessor that it uses and the calls that it made in
this compilation. A file without an entry in `IncludeesMap` has no includees. -/
structure CachingIncludeManager (FileEntry Loc : Type) where
  IncludeesMap : FileEntry → List FileEntry
  LocForStartOfFile : FileEntry → Option Loc
  Includes : Finset FileEntry
  VisibleFEs : List FileEntry
  InsertedVisibleFEs : Bool
  hasCallbacks : Bool
  calls : List (IncludeCall FileEntry Loc)

namespace CachingIncludeManager

variable {FileEntry Loc : Type} [DecidableEq FileEntry]

def new : CachingIncludeManager FileEntry Loc :=
  ⟨fun _ => [], fun _ => none, ∅, [], false, false, []⟩

variable (M : CachingIncludeManager FileEntry Loc)

def call (c : IncludeCall FileEntry Loc) : CachingIncludeManager FileEntry Loc :=
  { M with calls := M.calls ++ [c] }

/-- Replay the entry and the exit of a file. -/
def doCallbacks (Includee : FileEntry) : CachingIncludeManager FileEntry Loc :=
  match M.LocForStartOfFile Includee with
  | none => M
  | some SL => M.call (.fileChanged Includee SL)

/-- The calls for a file that enters the set. -/
def callBack (Includee : FileEntry) : CachingIncludeManager FileEntry Loc :=
  let M :=
    if M.InsertedVisibleFEs then
      (if M.hasCallbacks then M.doCallbacks Includee else M).call (.macroCheckChanged Includee)
    else M
  M.call (.included Includee)

/-- Include a file, and the files that it is known to include. There is no result when the fuel
runs out. -/
def includeFile : Nat → CachingIncludeManager FileEntry Loc → FileEntry →
    Option (CachingIncludeManager FileEntry Loc)
  | 0, _, _ => none
  | fuel + 1, M, Includee =>
    if Includee ∈ M.Includes then some M
    else
      let M := { M with Includes := insert Includee M.Includes }.callBack Includee
      (M.IncludeesMap Includee).foldlM (includeFile fuel) M

/-- Include the visible files, once in a compilation. -/
def insertVisibleFEs (fuel : Nat) : Option (CachingIncludeManager FileEntry Loc) :=
  if M.InsertedVisibleFEs then some M
  else
    (M.VisibleFEs.foldlM (includeFile fuel) M).map fun M => { M with InsertedVisibleFEs := true }

/-- Record that a file includes another one. -/
def includeFrom (fuel : Nat) (Includee Includer : FileEntry) :
    Option (CachingIncludeManager FileEntry Loc) :=
  (M.insertVisibleFEs fuel).map fun M =>
    { M with
      IncludeesMap :=
        update M.IncludeesMap Includer (M.IncludeesMap Includer ++ [Includee]) }

/-- An `#include` of a file, in a file or outside of any. -/
def HandleIncludeDirective (fuel : Nat) (File : FileEntry) (FE : Option FileEntry) :
    Option (CachingIncludeManager FileEntry Loc) := do
  let M ←
    match FE with
    | some FE => M.includeFrom fuel File FE
    | none => some M
  M.includeFile fuel File

/-- Forget an unloaded file. -/
def erase (FE : FileEntry) : CachingIncludeManager FileEntry Loc :=
  { M with
    IncludeesMap := update M.IncludeesMap FE []
    LocForStartOfFile := update M.LocForStartOfFile FE none }

/-- Forget the unloaded files. -/
def eraseFileEntries (FileEntries : List FileEntry) : CachingIncludeManager FileEntry Loc :=
  FileEntries.foldl erase
    { M with VisibleFEs := M.VisibleFEs.filter fun FE => FE ∉ FileEntries }

/-- Prepare for another compilation. -/
def reset : CachingIncludeManager FileEntry Loc :=
  { M with Includes := ∅, InsertedVisibleFEs := false, hasCallbacks := false, calls := [] }

/-- What happens to the manager. -/
inductive Op (FileEntry Loc : Type) where
  /-- Define a macro that makes its file visible. -/
  | macroDefined (FE : FileEntry)
  | setLocForStartOfFile (FE : FileEntry) (SL : Loc)
  | addPPCallbacks
  /-- Enter the main file. -/
  | EnterMainSourceFile (FE : FileEntry)
  | HandleIncludeDirective (File : FileEntry) (FE : Option FileEntry)
  /-- Unload files after a compilation, and start another one. -/
  | newCompilation (FileEntries : List FileEntry)

def step (fuel : Nat) : CachingIncludeManager FileEntry Loc → Op FileEntry Loc →
    Option (CachingIncludeManager FileEntry Loc)
  | M, .macroDefined FE => some { M with VisibleFEs := SetVector.insert M.VisibleFEs FE }
  | M, .setLocForStartOfFile FE SL =>
    some { M with LocForStartOfFile := update M.LocForStartOfFile FE (some SL) }
  | M, .addPPCallbacks => some { M with hasCallbacks := true }
  | M, .EnterMainSourceFile FE => M.includeFile fuel FE
  | M, .HandleIncludeDirective File FE => M.HandleIncludeDirective fuel File FE
  | M, .newCompilation FileEntries => some (M.eraseFileEntries FileEntries).reset

/-- The operations, one after the other. -/
def run (fuel : Nat) (ops : List (Op FileEntry Loc)) :
    Option (CachingIncludeManager FileEntry Loc) :=
  ops.foldlM (step fuel) new

end CachingIncludeManager

end Zapcc.Lex
