import Mathlib.Data.List.TakeWhile
import Mathlib.Algebra.Order.Ring.Int
import Zapcc.StringConst

/-!
# How a command travels from the client to the server

The client writes the current directory and the arguments on a line each, and an empty line after
them. The server reads lines up to the first empty one. `receive_scanCommandLine` says what it
gets: the lines are not escaped, and the server replaces a `$` in front of an argument by the
directory that it was started in.
-/

namespace Zapcc.CommandFraming

open List Option

/-- A string, by its characters. -/
abbrev Text := List Char

/-- A decimal number that fits into an `int`. -/
def getAsInteger (str : Text) : Option Int :=
  let negative := str.head? = some '-'
  let digits := if negative then str.tail else str
  if digits ≠ [] ∧ digits.all Char.isDigit = true then
    let magnitude : Nat := digits.foldl (fun n c => 10 * n + (c.toNat - '0'.toNat)) 0
    let value : Int := if negative then -magnitude else magnitude
    if -2 ^ 31 ≤ value ∧ value < 2 ^ 31 then some value else none
  else none

/-- The number at a position of the arguments, or `-1`. -/
def getIntOption (argv : List Text) (index : Nat) : Int :=
  match argv[index]? with
  | none => -1
  | some stringValue => (getAsInteger stringValue).getD (-1)

/-- What the client does with its arguments, other than failing. -/
inductive ScanCLIResult where
  | success
  | resetRequest
  | commandsRequest
  deriving DecidableEq

/-- What the client finds in its arguments. -/
structure Scan where
  compileCommand : Text
  serverId : Int := 0
  printCommands : Bool := false
  resetFlag : Bool := false

/-- The loop over the arguments. There is no result in case of an error. An empty argument
violates an assertion. Without assertions it is copied like the others. -/
def scanArgs : Scan → List Text → Option Scan
  | scan, [] => some scan
  | scan, arg :: rest =>
    if arg = ServerIdSwitch.toList then
      let serverId := getIntOption rest 0
      if serverId < 0 then none
      else
        match rest with
        | [] => some { scan with serverId := serverId }
        | _ :: rest => scanArgs { scan with serverId := serverId } rest
    else if arg = PrintCommandsSwitch.toList then
      scanArgs { scan with printCommands := true } rest
    else
      let resetFlag := if arg = ResetSwitch.toList then true else scan.resetFlag
      scanArgs
        { scan with
          resetFlag := resetFlag
          compileCommand := scan.compileCommand ++ arg ++ ['\n'] } rest

/-- Build the command for the server, and find the server to use. There is no result in case of
an error. -/
def scanCommandLine (currentDir : Option Text) (argv : List Text) :
    Option (ScanCLIResult × Text × Int) := do
  let currentDir ← currentDir
  let scan ← scanArgs { compileCommand := currentDir ++ ['\n'] } argv
  let result :=
    if scan.printCommands then ScanCLIResult.commandsRequest
    else if scan.resetFlag then .resetRequest
    else .success
  some (result, scan.compileCommand ++ ['\n'], scan.serverId)

/-- Read a line. There is no result at the end of the input. -/
def getline : Text → Option (Text × Text)
  | [] => none
  | input => some (input.takeWhile (fun c => c ≠ '\n'), (input.dropWhile (fun c => c ≠ '\n')).tail)

theorem getline_length {input line rest : Text} (h : getline input = some (line, rest)) :
    rest.length < input.length := by
  cases input with
  | nil => cases h
  | cons c input =>
    have hrest : rest = ((c :: input).dropWhile (fun c => c ≠ '\n')).tail :=
      (congrArg Prod.snd (some.inj h)).symm
    have hdrop : ((c :: input).dropWhile (fun c => c ≠ '\n')).length ≤ (c :: input).length :=
      (dropWhile_suffix _).length_le
    rw [hrest, length_tail]
    simp only [length_cons] at hdrop ⊢
    omega

/-- The directory of the server takes the place of a `$` in front of an argument. -/
def expandCurPath (curPath arg : Text) : Text :=
  if arg.head? = some '$' then curPath ++ arg.tail else arg

/-- Read the arguments of a command, up to an empty line or the end of the input. -/
def readArgs (curPath input : Text) : List Text × Text :=
  match _h : getline input with
  | none => ([], [])
  | some (line, rest) =>
    if line = [] then ([], rest)
    else
      let (args, rest) := readArgs curPath rest
      (expandCurPath curPath line :: args, rest)
termination_by input.length
decreasing_by exact getline_length _h

/-- What the server reads before it compiles. -/
inductive Received where
  | nothing
  | noDirectory (workingDir : Text)
  | command (workingDir : Text) (args : List Text) (rest : Text)
  deriving DecidableEq

/-- The part of `performCompile` that reads a command. `chdir` says which directories exist. -/
def receive (chdir : Text → Bool) (curPath input : Text) : Received :=
  match getline input with
  | none => .nothing
  | some (workingDir, rest) =>
    if chdir workingDir then
      let (args, rest) := readArgs curPath rest
      .command workingDir args rest
    else .noDirectory workingDir

/-- The arguments without the switches that the client removes, and their values. -/
def withoutClientSwitches : List Text → List Text
  | [] => []
  | arg :: rest =>
    if arg = ServerIdSwitch.toList then
      match rest with
      | [] => []
      | _ :: rest => withoutClientSwitches rest
    else if arg = PrintCommandsSwitch.toList then withoutClientSwitches rest
    else arg :: withoutClientSwitches rest

def unlines (lines : List Text) : Text := lines.flatMap fun line => line ++ ['\n']

theorem scanArgs_compileCommand {scan scan' : Scan} {argv : List Text}
    (h : scanArgs scan argv = some scan') :
    scan'.compileCommand = scan.compileCommand ++ unlines (withoutClientSwitches argv) := by
  induction scan, argv using scanArgs.induct with
  | case1 scan =>
    cases h
    simp [withoutClientSwitches, unlines]
  | case2 scan rest serverId hnegative =>
    rw [scanArgs, if_pos rfl, if_pos hnegative] at h
    cases h
  | case3 scan serverId hnegative =>
    rw [scanArgs, if_pos rfl, if_neg hnegative] at h
    cases h
    rw [withoutClientSwitches, if_pos rfl]
    simp [unlines]
  | case4 scan value rest serverId hnegative ih =>
    rw [scanArgs, if_pos rfl, if_neg hnegative] at h
    exact ih h
  | case5 scan rest hserver ih =>
    rw [scanArgs, if_neg hserver, if_pos rfl] at h
    unfold withoutClientSwitches
    exact ih h
  | case6 scan arg rest hserver hprint resetFlag ih =>
    rw [scanArgs, if_neg hserver, if_neg hprint] at h
    unfold withoutClientSwitches
    rw [if_neg hserver, if_neg hprint, ih h]
    simp [unlines]

theorem getline_line {line : Text} (hline : '\n' ∉ line) (rest : Text) :
    getline (line ++ '\n' :: rest) = some (line, rest) := by
  have hkeep : ∀ c ∈ line, decide (c ≠ '\n') = true := by
    intro c hc
    refine decide_eq_true ?_
    intro heq
    subst heq
    exact hline hc
  have htake : (line ++ '\n' :: rest).takeWhile (fun c => c ≠ '\n') = line := by
    rw [takeWhile_append_of_pos hkeep]
    simp
  have hdrop : (line ++ '\n' :: rest).dropWhile (fun c => c ≠ '\n') = '\n' :: rest := by
    rw [dropWhile_append_of_pos hkeep]
    simp
  unfold getline
  split
  · next heq => simp at heq
  · rw [htake, hdrop]
    rfl

theorem readArgs_unlines (curPath : Text) {args : List Text}
    (hargs : ∀ arg ∈ args, arg ≠ [] ∧ '\n' ∉ arg) (rest : Text) :
    readArgs curPath (unlines args ++ '\n' :: rest) = (args.map (expandCurPath curPath), rest) := by
  induction args with
  | nil =>
    rw [readArgs]
    show (match _h : getline ('\n' :: rest) with
      | none => ([], [])
      | some (line, rest) => _) = _
    split
    · next heq =>
        cases heq
    · next line rest' heq =>
        rfl
  | cons arg args ih =>
    obtain ⟨hne, hnewline⟩ := hargs arg mem_cons_self
    have hline : getline (unlines (arg :: args) ++ '\n' :: rest) =
        some (arg, unlines args ++ '\n' :: rest) := by
      rw [← getline_line hnewline (unlines args ++ '\n' :: rest)]
      simp [unlines]
    rw [readArgs]
    split
    · next heq =>
        rw [hline] at heq
        cases heq
    · next line rest' heq =>
        rw [hline] at heq
        cases heq
        rw [if_neg hne, ih fun arg harg => hargs arg (mem_cons_of_mem _ harg)]
        rfl

theorem receive_unlines {chdir : Text → Bool} {workingDir : Text} {args : List Text}
    (hchdir : chdir workingDir = true) (hdir : '\n' ∉ workingDir)
    (hargs : ∀ arg ∈ args, arg ≠ [] ∧ '\n' ∉ arg) (curPath rest : Text) :
    receive chdir curPath (unlines (workingDir :: args) ++ '\n' :: rest) =
      .command workingDir (args.map (expandCurPath curPath)) rest := by
  have hline : getline (unlines (workingDir :: args) ++ '\n' :: rest) =
      some (workingDir, unlines args ++ '\n' :: rest) := by
    rw [← getline_line hdir (unlines args ++ '\n' :: rest)]
    simp [unlines]
  unfold receive
  rw [hline]
  simp only [hchdir, if_true, readArgs_unlines curPath hargs]

/-- A command whose directory and arguments have no line breaks, and whose arguments are not
empty, reaches the server with the directory and the arguments that the client does not remove,
where the directory of the server takes the place of a `$` in front of an argument. -/
theorem receive_scanCommandLine {chdir : Text → Bool} {currentDir : Text} {argv : List Text}
    {result : ScanCLIResult} {compileCommand : Text} {serverId : Int}
    (hscan : scanCommandLine (some currentDir) argv = some (result, compileCommand, serverId))
    (hchdir : chdir currentDir = true) (hdir : '\n' ∉ currentDir)
    (hargs : ∀ arg ∈ withoutClientSwitches argv, arg ≠ [] ∧ '\n' ∉ arg) (curPath rest : Text) :
    receive chdir curPath (compileCommand ++ rest) =
      .command currentDir ((withoutClientSwitches argv).map (expandCurPath curPath)) rest := by
  have hcommand : compileCommand ++ rest =
      unlines (currentDir :: withoutClientSwitches argv) ++ '\n' :: rest := by
    unfold scanCommandLine at hscan
    rw [bind_eq_bind, bind_some] at hscan
    obtain ⟨scan, hscanned, heq⟩ := bind_eq_some_iff.mp hscan
    cases heq
    rw [scanArgs_compileCommand hscanned]
    simp [unlines]
  rw [hcommand]
  exact receive_unlines hchdir hdir hargs curPath rest

/-- A command with a server number and a file name. -/
theorem receive_scanCommandLine_file :
    receive (fun _ => true) "/bin".toList
        ("/src\n-O2\na.cpp\n\n".toList ++ "input".toList) =
      .command "/src".toList (["-O2".toList, "a.cpp".toList].map (expandCurPath "/bin".toList))
        "input".toList :=
  have hscan : scanCommandLine (some "/src".toList)
      ["-serverid".toList, "7".toList, "-O2".toList, "a.cpp".toList] =
        some (.success, "/src\n-O2\na.cpp\n\n".toList, 7) := by
    decide
  receive_scanCommandLine hscan rfl (by decide) (by decide) _ _

/-- The server gets the directory and the arguments that the client does not remove. -/
def RoundTrips (chdir : Text → Bool) (curPath currentDir : Text) (argv : List Text) : Prop :=
  ∀ result compileCommand serverId,
    scanCommandLine (some currentDir) argv = some (result, compileCommand, serverId) →
      receive chdir curPath compileCommand = .command currentDir (withoutClientSwitches argv) []

/-- An argument that starts with a `$`, an empty one and one with a line break arrive as other
arguments, and a directory with a line break as another directory. -/
theorem not_roundTrips :
    ¬ RoundTrips (fun _ => true) "/bin".toList "/src".toList ["$a.cpp".toList] ∧
      ¬ RoundTrips (fun _ => true) "/bin".toList "/src".toList ["".toList, "a.cpp".toList] ∧
      ¬ RoundTrips (fun _ => true) "/bin".toList "/src".toList ["-Da=\nb".toList] ∧
      ¬ RoundTrips (fun _ => true) "/bin".toList "/s\nrc".toList [] := by
  -- what the server gets instead
  have hreceive := fun args => @receive_unlines (fun _ => true) "/src".toList args rfl (by decide)
  refine ⟨fun h => ?_, fun h => ?_, fun h => ?_, fun h => ?_⟩
  · have hexpanded := hreceive ["$a.cpp".toList] (by decide) "/bin".toList []
    have hsame := (h .success "/src\n$a.cpp\n\n".toList 0 (by decide)).symm.trans hexpanded
    revert hsame
    decide
  · have hcut := hreceive [] (by decide) "/bin".toList "a.cpp\n\n".toList
    have hsame := (h .success "/src\n\na.cpp\n\n".toList 0 (by decide)).symm.trans hcut
    revert hsame
    decide
  · have hsplit := hreceive ["-Da=".toList, "b".toList] (by decide) "/bin".toList []
    have hsame := (h .success "/src\n-Da=\nb\n\n".toList 0 (by decide)).symm.trans hsplit
    revert hsame
    decide
  · have hdirectory := @receive_unlines (fun _ => true) "/s".toList ["rc".toList] rfl (by decide)
      (by decide) "/bin".toList []
    have hsame := (h .success "/s\nrc\n\n".toList 0 (by decide)).symm.trans hdirectory
    revert hsame
    decide

end Zapcc.CommandFraming
