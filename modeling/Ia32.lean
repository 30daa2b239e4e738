import Ia32.Float.Compare
import Ia32.Fpu.Image
import Ia32.Host.Ram
import Ia32.Host.Traced
import Ia32.Json.Printer
import Ia32.Proofs.BitScans
import Ia32.Proofs.BitStrings
import Ia32.Proofs.CommutingOperations
import Ia32.Proofs.Comparisons
import Ia32.Proofs.ConditionalOrders
import Ia32.Proofs.ControlTransfers
import Ia32.Proofs.FlagFootprints
import Ia32.Proofs.FloatSteps
import Ia32.Proofs.GateReturns
import Ia32.Proofs.GuardedPorts
import Ia32.Proofs.InstructionLengths
import Ia32.Proofs.IntegerArithmetic
import Ia32.Proofs.IntegerStores
import Ia32.Proofs.IteratedShifts
import Ia32.Proofs.LevelReturns
import Ia32.Proofs.LockedInstructions
import Ia32.Proofs.MemoryIsolation
import Ia32.Proofs.NumberCopies
import Ia32.Proofs.NumericalOrder
import Ia32.Proofs.OperandAccesses
import Ia32.Proofs.PairProducts
import Ia32.Proofs.PortAccesses
import Ia32.Proofs.PortPermission
import Ia32.Proofs.QuietNans
import Ia32.Proofs.QuotientBits
import Ia32.Proofs.RegisterBlocks
import Ia32.Proofs.RegisterTags
import Ia32.Proofs.RepeatedStrings
import Ia32.Proofs.RestartableFaults
import Ia32.Proofs.Rings
import Ia32.Proofs.RoundedArithmetic
import Ia32.Proofs.SavedState
import Ia32.Proofs.ScaledNumbers
import Ia32.Proofs.SegmentBounds
import Ia32.Proofs.SnapshotRuns
import Ia32.Proofs.SnapshotStacks
import Ia32.Proofs.SquareRoots
import Ia32.Proofs.StackFaults
import Ia32.Proofs.StepRuns
import Ia32.Snapshot
import Ia32.Step
