import AtomicSlotMap.Implementation.Words
import AtomicSlotMap.Implementation.State
import AtomicSlotMap.Implementation.Vec
import AtomicSlotMap.Implementation.Steps
import AtomicSlotMap.Implementation.Moves
import AtomicSlotMap.Implementation.Runs
import AtomicSlotMap.Implementation.Turns
import AtomicSlotMap.Implementation.Guards
import AtomicSlotMap.Library.HappensBefore
import AtomicSlotMap.Implementation.Orderings
import AtomicSlotMap.Implementation.Owners
import AtomicSlotMap.Library.Simulation
import AtomicSlotMap.Library.Counting
import AtomicSlotMap.Library.LinkedChain
import AtomicSlotMap.Library.Linearizability
import AtomicSlotMap.Library.Eventually
import AtomicSlotMap.Ownership.Lifecycle
import AtomicSlotMap.Ownership.Values
import AtomicSlotMap.Ownership.Protocol
import AtomicSlotMap.Ownership.Invariant
import AtomicSlotMap.Ownership.Preservation
import AtomicSlotMap.Ownership.View
import AtomicSlotMap.Ownership.Refinement
import AtomicSlotMap.Ownership.Simulation
import AtomicSlotMap.Ownership.Chunks
import AtomicSlotMap.Correctness.GuardSafety
import AtomicSlotMap.Correctness.Partition
import AtomicSlotMap.Specification.FiniteMap
import AtomicSlotMap.Specification.Reference
import AtomicSlotMap.History.Calls
import AtomicSlotMap.History.Records
import AtomicSlotMap.History.Locals
import AtomicSlotMap.History.Counter
import AtomicSlotMap.History.Contents
import AtomicSlotMap.History.Closures
import AtomicSlotMap.History.Rest
import AtomicSlotMap.History.Solo
import AtomicSlotMap.History.Sequential
import AtomicSlotMap.Correctness.DropOnce
import AtomicSlotMap.Correctness.Linearization
import AtomicSlotMap.Correctness.KeyReuse
import AtomicSlotMap.Correctness.ElementCounter
import AtomicSlotMap.Correctness.Unwinding
import AtomicSlotMap.Correctness.ReferenceCap
import AtomicSlotMap.Correctness.Insertions
import AtomicSlotMap.Correctness.FullMap
import AtomicSlotMap.Correctness.CounterAtRest
import AtomicSlotMap.Correctness.StorageBound
import AtomicSlotMap.Correctness.LossyIteration
import AtomicSlotMap.Correctness.ChunkOrder
import AtomicSlotMap.Correctness.Reserve
import AtomicSlotMap.Correctness.ThreadOwnership
import AtomicSlotMap.Correctness.AbsentKeys
import AtomicSlotMap.Correctness.FailedInsertion
import AtomicSlotMap.Correctness.CapacityPromise
import AtomicSlotMap.Library.TaggedStack
import AtomicSlotMap.Correctness.FreeListStack
import AtomicSlotMap.Library.Blocks
import AtomicSlotMap.Correctness.Locations
import AtomicSlotMap.Correctness.ExactReserve
import AtomicSlotMap.Library.WriteOnce
import AtomicSlotMap.Correctness.Buffers
import AtomicSlotMap.Correctness.ChunkWaits
import AtomicSlotMap.Correctness.AllocationFailure
import AtomicSlotMap.Correctness.SequentialCalls
import AtomicSlotMap.Correctness.SequentialMap
import AtomicSlotMap.Library.Amortized
import AtomicSlotMap.Correctness.Work
import AtomicSlotMap.Correctness.LockFreedom
import AtomicSlotMap.Correctness.MemorySafety
import AtomicSlotMap.Library.Fairness
import AtomicSlotMap.Correctness.WaitFreedom
import AtomicSlotMap.Correctness.Builds
import AtomicSlotMap.Specification.SharedReference
import AtomicSlotMap.Correctness.SharedCalls
import AtomicSlotMap.Correctness.SharedReserve
import AtomicSlotMap.Correctness.DataRaces
import AtomicSlotMap.Correctness.Teardown
import AtomicSlotMap.Correctness.MapLifetime
import AtomicSlotMap.Correctness.Refinement
import AtomicSlotMap.Correctness.PanicFreedom
import AtomicSlotMap.Correctness.Footprint
