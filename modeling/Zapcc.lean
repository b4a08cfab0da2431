import Zapcc.Lex.HeaderReuse
import Zapcc.IR.Resurrect
import Zapcc.Unload.EraseConstants
import Zapcc.Unload.CollectUsers
import Zapcc.Server.ClientOutput
import Zapcc.Server.CommandFraming
import Zapcc.Support.LEB128
import Zapcc.Rewrite.MappedOffsets
import Zapcc.Lex.IncludeGuards
import Zapcc.ADT.DenseMapRuns
import Zapcc.ADT.SmallPtrSetRuns
import Zapcc.ADT.SCCEnumeration
import Zapcc.Basic.FileIDLookup
import Zapcc.MC.StringTable
import Zapcc.CodeGen.UnsignedDivision
import Zapcc.Lex.IncludeClosure
import Zapcc.Unload.NamespaceChains
import Zapcc.Support.OnDiskHashRoundTrip
import Zapcc.CodeGen.SegmentSet
import Zapcc.Transforms.CorrelatedValuePropagation
import Zapcc.IR.RangeCasts
import Zapcc.Unload.EmittedDependents
import Zapcc.Unload.EraseDebugTypes
import Zapcc.Unload.ModifiedFiles
import Zapcc.Unload.UnloadSelector
import Zapcc.Server.FileNameMarking
import Zapcc.DebugInfo.MSFLayout
import Zapcc.Analysis.SIVSoundness
import Zapcc.Analysis.LoopPopulation
import Zapcc.Transforms.SwitchLowering
import Zapcc.Lex.TokenCaching
import Zapcc.Lex.IntegerLiteral
import Zapcc.Support.APIntBits
import Zapcc.Support.APIntOverflow
import Zapcc.Support.APIntSqrt
import Zapcc.Support.APIntInverse
import Zapcc.Support.APIntBitsNeeded
import Zapcc.ADT.EditDistance
import Zapcc.ADT.ImmutableSetRuns
import Zapcc.Support.CompareNumeric
import Zapcc.Support.ConsumeInteger
import Zapcc.Basic.LineTable
import Zapcc.Support.WindowsCommandLine
import Zapcc.Analysis.BlockMass
import Zapcc.Support.ScaledNumber
import Zapcc.Support.GlobPattern
import Zapcc.Support.IntEqClasses
import Zapcc.Support.KnownBits
import Zapcc.Support.Path
import Zapcc.Support.DAGDeltaAlgorithm
import Zapcc.ADT.EquivalenceClasses
import Zapcc.ADT.SparseBitVectorRuns
import Zapcc.Format.WhitespaceManager
import Zapcc.Analysis.Recurrences
import Zapcc.Transforms.IntegerDivision
import Zapcc.Unload.DeclContexts
import Zapcc.Target.MipsAnalyzeImmediate
import Zapcc.Lex.HeaderMap
import Zapcc.ADT.IntervalMap
import Zapcc.Object.Wasm
