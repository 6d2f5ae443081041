import Eel.Compiler.CharLiterals
import Eel.Compiler.Coder
import Eel.Compiler.Constants
import Eel.Compiler.CountingLoop
import Eel.Compiler.ExpressionTrees
import Eel.Compiler.Expressions
import Eel.Compiler.FailedCompile
import Eel.Compiler.Finder
import Eel.Compiler.FinderRun
import Eel.Compiler.FoldCode
import Eel.Compiler.Grammar
import Eel.Compiler.Jumps
import Eel.Compiler.LexReturns
import Eel.Compiler.LexRun
import Eel.Compiler.LineCount
import Eel.Compiler.LiteralParse
import Eel.Compiler.NumberTokens
import Eel.Compiler.OperatorTokens
import Eel.Compiler.Optimizer
import Eel.Compiler.OptimizerRun
import Eel.Compiler.ReachedCode
import Eel.Compiler.ReadCode
import Eel.Compiler.RegisterRun
import Eel.Compiler.Registers
import Eel.Core.CalcResize
import Eel.Core.Defined
import Eel.Core.DeleteByValue
import Eel.Core.DstringRun
import Eel.Core.LinkedLists
import Eel.Core.ModuleRun
import Eel.Core.OperatorResults
import Eel.Core.OwnerOps
import Eel.Core.RealCast
import Eel.Core.Sbuffers
import Eel.Core.StringCache
import Eel.Core.StringIn
import Eel.Core.StringPoolRun
import Eel.Core.TableKeys
import Eel.Core.TableRun
import Eel.Core.TextOrder
import Eel.Core.Vector
import Eel.Core.WeakRefRun
import Eel.Eelium.Clipping
import Eel.Eelium.RectTools
import Eel.Eelium.SfifoInit
import Eel.Eelium.SfifoRun
import Eel.Eelium.Surface
import Eel.Io.Memfile
import Eel.Io.MemfileLaw
import Eel.Io.MemfileOwners
import Eel.Io.TypedReads
import Eel.Lib.BackIndex
import Eel.Lib.Conversions
import Eel.Lib.ForLoops
import Eel.Lib.Json
import Eel.Lib.Linked
import Eel.Lib.Printf
import Eel.Lib.Rect
import Eel.Lib.Regroup
import Eel.Lib.Traces
import Eel.Script.DeepClone
import Eel.Script.DeepCompare
import Eel.Script.Figures
import Eel.Script.ObjectHeap
import Eel.Script.Quote
import Eel.Script.SerializeBin
import Eel.Script.SerializeJson
import Eel.Vm.DebugInfo
import Eel.Vm.HeapCalls
import Eel.Vm.OwnedPerform
import Eel.Vm.ScopeRun
import Eel.Vm.TupleArgs
import Eel.Compiler.CodeBlocks
