import Caffeine.Interpreter.ControlFlow
import Caffeine.Interpreter.PHINodes
import Caffeine.Solver.Z3Solver
import Caffeine.Solver.ModelEvalArrays
import Caffeine.IR.MulOverflow
import Caffeine.Memory.AggregatesSound
import Caffeine.IR.Saturation
import Caffeine.IR.RebuildCompletes
import Caffeine.IR.CanonicalGraph
import Caffeine.IR.GenuineMatches
import Caffeine.Model.CanonicalAssertions
import Caffeine.IR.ConstantArrays
import Caffeine.Interpreter.LongJmp
import Caffeine.Plugin.Memmove
import Caffeine.Memory.CastCalls
import Caffeine.Model.ScopedAssertions
import Caffeine.IR.ExactRewrites
import Caffeine.IR.OptimalExtraction
import Caffeine.Interpreter.Store.ThreadQueueSound
import Caffeine.Interpreter.Store.CountLimitedStore
import Caffeine.Interpreter.Executor
import Caffeine.Memory.BumpAllocatorSound
import Caffeine.Interpreter.Free
import Caffeine.ADT.Partitions
import Caffeine.Util.Slots
import Caffeine.ADT.SlotMapRuns
import Caffeine.ADT.SparseVectorRuns
import Caffeine.Interpreter.Bswap
import Caffeine.Interpreter.StackMemory
import Caffeine.Interpreter.SymbolicAlloca
import Caffeine.Interpreter.Exploration
import Caffeine.Solver.SolverBuilder
