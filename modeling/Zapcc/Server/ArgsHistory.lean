import Mathlib.Data.List.TakeWhile
import Zapcc.StringConst

/-!
# Deciding whether the compilation arguments changed

The server keeps the arguments of the previous compilation next to those of the current
one. `changed` walks both vectors with a cursor each and skips what cannot invalidate the
cache: the main file name, the ignored options and the values of those that take one.
`CommandArgs.compared` is the sequence of arguments that such a walk is meant to compare, and
`CommandArgs.seen` the one that it does compare.
-/

namespace Zapcc.ArgsHistory

open StringRef

/-- Options whose value is the next argument and that do not invalidate the cache. -/
def isIgnoredValueArg (arg : String) : Bool :=
  ["-o", "-D", "-main-file-name", "-I", "-include", "-isystem", "-iquote",
    "-coverage-file", "-coverage-notes-file", "-internal-isystem",
    "-internal-externc-isystem", "-dependency-file", "-fdebug-compilation-dir",
    "-fmessage-length", "-include-pch", "-MT", "-MQ", ServerIdSwitch].contains arg

/-- Options of one word that do not invalidate the cache. -/
def isIgnoredArg (arg : String) : Bool :=
  ["-fcolor-diagnostics", "-fconst-strings", "-fcxx-exceptions",
    "-fdiagnostics-show-option", "-fdeprecated-macro", "-fexceptions", "-fno-common",
    "-fwritable-strings", "-MP", "-nostdinc++", "-pedantic", "-pedantic-errors", "-w",
    "-sys-header-deps", "-v", DebugSwitch].contains arg ||
  startswith arg "-emit-llvm" || startswith arg DebugOnlySwitch || startswith arg "-W"

/-- Advance a cursor to the next argument that counts. The cursor is the part of the vector
that is left together with its position `i`; the result is the argument, or the empty string
at the end of the vector, and the cursor behind it. -/
def getNextArg (fileNameIndex : Nat) : List String → Nat → String × List String × Nat
  | [], i => ("", [], i)
  | arg :: rest, i =>
    if i = fileNameIndex then getNextArg fileNameIndex rest (i + 1)
    else if isIgnoredValueArg arg then
      match rest with
      -- the cursor moves past the end when the value is missing
      | [] => ("", [], i + 2)
      | _ :: rest => getNextArg fileNameIndex rest (i + 2)
    else if isIgnoredArg arg then getNextArg fileNameIndex rest (i + 1)
    else (arg, rest, i + 1)

/-- One round of the loop of `getNextArg`, with the missing value of a last option read as the
end of the vector. -/
theorem getNextArg_cons (fileNameIndex : Nat) (arg : String) (rest : List String) (i : Nat) :
    getNextArg fileNameIndex (arg :: rest) i =
      if i = fileNameIndex then getNextArg fileNameIndex rest (i + 1)
      else if isIgnoredValueArg arg then getNextArg fileNameIndex rest.tail (i + 2)
      else if isIgnoredArg arg then getNextArg fileNameIndex rest (i + 1)
      else (arg, rest, i + 1) := by
  cases rest <;> rfl

theorem getNextArg_length (fileNameIndex : Nat) (rest : List String) (i : Nat) :
    (getNextArg fileNameIndex rest i).2.1.length ≤ rest.length ∧
      ((getNextArg fileNameIndex rest i).1 ≠ "" →
        (getNextArg fileNameIndex rest i).2.1.length < rest.length) := by
  induction hn : rest.length using Nat.strongRecOn generalizing rest i with
  | ind n ih =>
    cases rest with
    | nil => simp [getNextArg]
    | cons arg rest =>
      rw [List.length_cons] at hn
      have hrest := ih rest.length (by omega) rest (i + 1) rfl
      have htail := ih rest.tail.length (by simp; omega) rest.tail (i + 2) rfl
      rw [List.length_tail] at htail
      rw [getNextArg_cons]
      split_ifs
      · exact ⟨by omega, fun h => by have := hrest.2 h; omega⟩
      · exact ⟨by omega, fun h => by have := htail.2 h; omega⟩
      · exact ⟨by omega, fun h => by have := hrest.2 h; omega⟩
      · exact ⟨by simp; omega, fun _ => by simp; omega⟩

/-- The loop of `changed`: advance both cursors until they report different arguments or both
report an empty one. -/
def changedFrom (previousIndex currentIndex : Nat)
    (previous : List String) (i : Nat) (current : List String) (j : Nat) : Bool :=
  let previousArg := getNextArg previousIndex previous i
  let currentArg := getNextArg currentIndex current j
  if previousArg.1 = currentArg.1 then
    if _hend : previousArg.1 = "" then false
    else changedFrom previousIndex currentIndex
      previousArg.2.1 previousArg.2.2 currentArg.2.1 currentArg.2.2
  else true
termination_by previous.length
decreasing_by exact (getNextArg_length _ _ _).2 _hend

end Zapcc.ArgsHistory

namespace Zapcc

open ArgsHistory

/-- The arguments of the previous and of the current compilation. An index of zero stands for
a vector without a marked file name. -/
structure ArgsHistory where
  previousArgs : List String := []
  currentArgs : List String := []
  previousFileNameIndex : Nat := 0
  currentFileNameIndex : Nat := 0

namespace ArgsHistory

/-- Append an argument of the current compilation. -/
def push_back (h : ArgsHistory) (arg : String) : ArgsHistory :=
  { h with currentArgs := h.currentArgs ++ [arg] }

/-- Mark the argument that is appended next as the main file name. -/
def markFileName (h : ArgsHistory) : ArgsHistory :=
  { h with currentFileNameIndex := h.currentArgs.length }

/-- The main file name, or `-` when no argument is marked. -/
def getFileName (h : ArgsHistory) : String :=
  if h.currentFileNameIndex = 0 then "-" else h.currentArgs.getD h.currentFileNameIndex ""

/-- Whether the current arguments invalidate the cache built with the previous ones. -/
def changed (h : ArgsHistory) : Bool :=
  if h.previousArgs.isEmpty || h.currentArgs.isEmpty then false
  else changedFrom h.previousFileNameIndex h.currentFileNameIndex
    h.previousArgs 0 h.currentArgs 0

/-- Start a new compilation, keeping the arguments of this one unless the cache was reset. -/
def clear (h : ArgsHistory) (reset : Bool) : ArgsHistory :=
  if reset then { h with
    previousArgs := [], previousFileNameIndex := 0, currentArgs := [], currentFileNameIndex := 0 }
  else { h with
    previousArgs := h.currentArgs, previousFileNameIndex := h.currentFileNameIndex
    currentArgs := [], currentFileNameIndex := 0 }

/-- Whether there is no previous compilation to compare with. -/
def isFirstRun (h : ArgsHistory) : Bool := h.previousArgs.isEmpty

end ArgsHistory

/-- The arguments of one compilation and, when there is one, the position of its main file
name. -/
structure CommandArgs where
  args : List String
  fileName : Option (Fin args.length)

namespace ArgsHistory

/-- Append the arguments `args`, marking the one at position `fileName`. -/
def pushArgs (fileName : Option Nat) : List String → ArgsHistory → ArgsHistory
  | [], h => h
  | arg :: rest, h =>
    let marked := if fileName = some h.currentArgs.length then h.markFileName else h
    pushArgs fileName rest (marked.push_back arg)

/-- The history of a server that ran `previous` and is about to run `current`. -/
def ofCommands (previous current : CommandArgs) : ArgsHistory :=
  pushArgs (current.fileName.map Fin.val) current.args
    ((pushArgs (previous.fileName.map Fin.val) previous.args {}).clear false)

theorem pushArgs_spec (fileName : Option Nat) (args : List String) (h : ArgsHistory) :
    pushArgs fileName args h = { h with
      currentArgs := h.currentArgs ++ args
      currentFileNameIndex :=
        (fileName.filter fun k =>
          h.currentArgs.length ≤ k && k < h.currentArgs.length + args.length).getD
            h.currentFileNameIndex } := by
  induction args generalizing h with
  | nil =>
    have hnone : (fileName.filter fun k =>
        decide (h.currentArgs.length ≤ k) && decide (k < h.currentArgs.length + 0)) = none := by
      simp
    simp only [pushArgs, List.append_nil, List.length_nil, hnone, Option.getD_none]
  | cons arg rest ih =>
    rw [pushArgs, ih]
    cases fileName with
    | none => simp [push_back]
    | some k =>
      by_cases hk : k = h.currentArgs.length
      · simp only [push_back, markFileName, List.length_append, List.length_cons, List.length_nil,
          List.append_assoc, List.singleton_append, Option.filter]
        split_ifs <;> simp_all
      · have hne : ¬ (some k = some h.currentArgs.length) := by simpa using hk
        simp only [hne, if_false, push_back, List.append_assoc, List.singleton_append,
          List.length_append, List.length_cons, List.length_nil]
        congr 2
        simp only [Option.filter]
        congr 1
        simp only [Bool.and_eq_true, decide_eq_true_eq]
        exact propext ⟨by omega, by omega⟩

theorem ofCommands_eq (previous current : CommandArgs) :
    ofCommands previous current =
      { previousArgs := previous.args, currentArgs := current.args
        previousFileNameIndex := (previous.fileName.map Fin.val).getD 0
        currentFileNameIndex := (current.fileName.map Fin.val).getD 0 } := by
  have hvalid : ∀ command : CommandArgs,
      (command.fileName.map Fin.val).filter (fun k => decide (k < command.args.length)) =
        command.fileName.map Fin.val := by
    intro command
    cases command.fileName with
    | none => rfl
    | some k => simp [Option.filter, k.isLt]
  simp [ofCommands, pushArgs_spec, clear, hvalid]

/-- The arguments from position `i` on that are left when the marked file name, the ignored
options with a value, together with that value, and the ignored flags are deleted. -/
def remaining (fileName : Option Nat) : Nat → List String → List String
  | _, [] => []
  | i, arg :: rest =>
    if fileName = some i then remaining fileName (i + 1) rest
    else if isIgnoredValueArg arg then
      match rest with
      | [] => []
      | _ :: rest => remaining fileName (i + 2) rest
    else if isIgnoredArg arg then remaining fileName (i + 1) rest
    else arg :: remaining fileName (i + 1) rest

/-- `remaining` for a nonempty vector, with the missing value of a last option read as the end
of the vector. -/
theorem remaining_cons (fileName : Option Nat) (i : Nat) (arg : String) (rest : List String) :
    remaining fileName i (arg :: rest) =
      if fileName = some i then remaining fileName (i + 1) rest
      else if isIgnoredValueArg arg then remaining fileName (i + 2) rest.tail
      else if isIgnoredArg arg then remaining fileName (i + 1) rest
      else arg :: remaining fileName (i + 1) rest := by
  cases rest <;> rfl

/-- The arguments that a cursor at position `i` reports before it first reports an empty one,
when the argument at `fileNameIndex` is taken for the file name. -/
def walked (fileNameIndex i : Nat) (rest : List String) : List String :=
  (remaining (some fileNameIndex) i rest).takeWhile (fun arg => arg ≠ "")

theorem walked_eq_getNextArg (fileNameIndex i : Nat) (rest : List String) :
    walked fileNameIndex i rest =
      if (getNextArg fileNameIndex rest i).1 = "" then []
      else (getNextArg fileNameIndex rest i).1 ::
        walked fileNameIndex (getNextArg fileNameIndex rest i).2.2
          (getNextArg fileNameIndex rest i).2.1 := by
  induction hn : rest.length using Nat.strongRecOn generalizing rest i with
  | ind n ih =>
    cases rest with
    | nil => rfl
    | cons arg rest =>
      rw [List.length_cons] at hn
      have hrest := ih rest.length (by omega) (i + 1) rest rfl
      have htail := ih rest.tail.length (by simp; omega) (i + 2) rest.tail rfl
      simp only [walked] at hrest htail ⊢
      rw [getNextArg_cons, remaining_cons]
      simp only [Option.some.injEq, eq_comm (a := fileNameIndex)]
      by_cases hi : i = fileNameIndex
      · simpa only [hi, if_true] using hi ▸ hrest
      · by_cases hv : isIgnoredValueArg arg = true
        · simpa only [hi, hv, if_true, if_false] using htail
        · by_cases ha : isIgnoredArg arg = true
          · simpa only [hi, hv, ha, Bool.false_eq_true, if_true, if_false] using hrest
          · simp only [hi, hv, ha, Bool.false_eq_true, if_false, List.takeWhile_cons,
              decide_eq_true_eq, ite_not]

theorem changedFrom_eq_walked (previousIndex currentIndex : Nat)
    (previous : List String) (i : Nat) (current : List String) (j : Nat) :
    changedFrom previousIndex currentIndex previous i current j =
      decide (walked previousIndex i previous ≠ walked currentIndex j current) := by
  induction previous, i, current, j using changedFrom.induct previousIndex currentIndex with
  | case1 previous i current j p c heq hempty =>
    have hcurrent : c.1 = "" := heq ▸ hempty
    rw [changedFrom, walked_eq_getNextArg previousIndex, walked_eq_getNextArg currentIndex]
    rw [dif_pos hempty, if_pos heq, if_pos hempty, if_pos hcurrent]
    rfl
  | case2 previous i current j p c heq hempty ih =>
    have hcurrent : c.1 ≠ "" := heq ▸ hempty
    rw [changedFrom, walked_eq_getNextArg previousIndex, walked_eq_getNextArg currentIndex]
    rw [dif_neg hempty, if_pos heq, if_neg hempty, if_neg hcurrent, ih]
    rw [decide_eq_decide, show p.1 = c.1 from heq, ne_eq, ne_eq, List.cons_inj_right]
  | case3 previous i current j p c hne =>
    rw [changedFrom, walked_eq_getNextArg previousIndex, walked_eq_getNextArg currentIndex]
    rw [if_neg hne, eq_comm, decide_eq_true_eq]
    split_ifs with hp hc hc
    · exact (hne (hp.trans hc.symm)).elim
    · exact (List.cons_ne_nil _ _).symm
    · exact List.cons_ne_nil _ _
    · exact fun h => hne (List.cons.inj h).1

/-- The server compares what is walked, and reports no change when there is no previous or no
current argument. -/
theorem changed_eq_walked (previous current : CommandArgs) :
    (ofCommands previous current).changed = true ↔ previous.args ≠ [] ∧ current.args ≠ [] ∧
        walked ((previous.fileName.map Fin.val).getD 0) 0 previous.args ≠
          walked ((current.fileName.map Fin.val).getD 0) 0 current.args := by
  rw [ofCommands_eq, changed]
  by_cases hp : previous.args = []
  · simp [hp]
  · by_cases hc : current.args = []
    · simp [hc]
    · simp [hp, hc, changedFrom_eq_walked]

end ArgsHistory

/-- The arguments of a compilation that the comparison is meant to see. -/
def CommandArgs.compared (command : CommandArgs) : List String :=
  remaining (command.fileName.map Fin.val) 0 command.args

/-- The arguments of a compilation that the comparison sees: the first argument of a vector
without a marked file name is deleted as well, and an empty argument ends the vector. -/
def CommandArgs.seen (command : CommandArgs) : List String :=
  List.takeWhile (fun arg => arg ≠ "")
    (match command.fileName with
    | some k => remaining (some k) 0 command.args
    | none => remaining none 0 command.args.tail)

namespace ArgsHistory

theorem remaining_of_lt {k i : Nat} (hlt : k < i) (j : Nat) (rest : List String) :
    remaining (some k) i rest = remaining none j rest := by
  induction hn : rest.length using Nat.strongRecOn generalizing rest i j with
  | ind n ih =>
    cases rest with
    | nil => rfl
    | cons arg rest =>
      rw [List.length_cons] at hn
      have hne : ¬ (some k = some i) := by simpa using Nat.ne_of_lt hlt
      rw [remaining_cons, remaining_cons, if_neg hne, if_neg (Option.some_ne_none j).symm,
        ih rest.length (by omega) (by omega) (j + 1) rest rfl,
        ih rest.tail.length (by simp; omega) (by omega) (j + 2) rest.tail rfl]

theorem walked_eq_seen (command : CommandArgs) :
    walked ((command.fileName.map Fin.val).getD 0) 0 command.args = command.seen := by
  obtain ⟨args, fileName⟩ := command
  cases fileName with
  | some k => rfl
  | none =>
    -- the index of a missing mark is the position of the first argument
    show List.takeWhile _ (remaining (some 0) 0 args) = _
    cases args with
    | nil => rfl
    | cons arg rest =>
      rw [remaining_cons, if_pos rfl, remaining_of_lt Nat.zero_lt_one 0]
      rfl

end ArgsHistory

namespace ArgsHistory

/-- Nothing that the comparison overlooks decides whether two vectors differ. -/
structure OverlooksNothing (previous current : CommandArgs) : Prop where
  /-- An empty vector meets one of which nothing is left. -/
  empty : previous.args = [] ∨ current.args = [] → previous.compared = current.compared
  /-- Vectors that differ do so in the arguments that are seen. -/
  difference : previous.args ≠ [] → current.args ≠ [] →
    previous.compared ≠ current.compared → previous.seen ≠ current.seen
  /-- Vectors that agree do so in the arguments that are seen. -/
  agreement : previous.args ≠ [] → current.args ≠ [] →
    previous.compared = current.compared → previous.seen = current.seen

end ArgsHistory

end Zapcc
