import Mathlib.Data.List.Basic

/-!
# Strings of the zapcc client and server

The switches and markers of `StringConst.cpp` that the model refers to, and the two predicates of
`llvm::StringRef` that recognise switches, file names and symbol names.
-/

namespace Zapcc

def ServerIdSwitch : String := "-serverid"

/-- The switch that restricts debug output to some types. -/
def DebugOnlySwitch : String := "-debug-only="

/-- The switch that enables debug output. -/
def DebugSwitch : String := "-debug"

def ResetSwitch : String := "-reset-server"

/-- The switch that makes the client write its commands to a file. -/
def PrintCommandsSwitch : String := "-commands"

/-- The value recorded for a watched macro that is not defined. -/
def macroUndefined : String := "(undefined)"

end Zapcc

namespace Zapcc.StringRef

def startswith (str start : String) : Bool :=
  start.toList.isPrefixOf str.toList

def endswith (str tail : String) : Bool :=
  tail.toList.isSuffixOf str.toList

end Zapcc.StringRef
