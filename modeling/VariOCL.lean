import VariOCL.BreakPhi.Grouped
import VariOCL.ImplicitCdgBarriers
import VariOCL.ImplicitConditionalBarriers
import VariOCL.ControlDependence
import VariOCL.ControlDep.Closure
import VariOCL.BarrierTailReplication.Correct
import VariOCL.BarrierTailReplication.CleanupPHIs
import VariOCL.LoopInserter.Coverage
import VariOCL.LoopInserter.Contains
import VariOCL.LoopInserter.MovedRun
import VariOCL.LoopInserter.IdReplacement
import VariOCL.LoopInserter.Reloads
import VariOCL.LoopInserter.Unlooped
import VariOCL.LoopInserter.LocalMemory
import VariOCL.LoopInserter.Enumerate
import VariOCL.LoopInserter.Primitives
import VariOCL.LoopInserter.GatherEnds
import VariOCL.TripletInvariance.LoopMarks
import VariOCL.TripletInvariance.Unending
import VariOCL.TripletInvariance.EmptyFolds
import VariOCL.ThreadInvariance.Lattice
import VariOCL.ThreadInvariance.Terminates
import VariOCL.ThreadInvariance.Fixpoint
import VariOCL.KernelInfo.Aligned
import VariOCL.ContextSpill.Serial
import VariOCL.HiveOff.Spillable
import VariOCL.HiveOff.Rerun
import VariOCL.SplitCondBr
import VariOCL.ImplicitLoopBarriers
import VariOCL.LoopInserter.TagCalls
