import GraphZeppelin.Boruvka.Correct
import GraphZeppelin.Boruvka.CreateMergeInstr
import GraphZeppelin.Boruvka.CreateMergeInstrSpec
import GraphZeppelin.Boruvka.EmptyPartitions
import GraphZeppelin.Boruvka.Emulation
import GraphZeppelin.Boruvka.EmulationSpec
import GraphZeppelin.Boruvka.FindLastPartition
import GraphZeppelin.Boruvka.Layout
import GraphZeppelin.Boruvka.MergeInstr
import GraphZeppelin.Boruvka.Outcome
import GraphZeppelin.Boruvka.Pieces
import GraphZeppelin.Boruvka.Progress
import GraphZeppelin.Boruvka.RealEdges
import GraphZeppelin.Boruvka.Round
import GraphZeppelin.Boruvka.RoundInv
import GraphZeppelin.Boruvka.RoundRun
import GraphZeppelin.Boruvka.RoundSpec
import GraphZeppelin.Boruvka.RoundStates
import GraphZeppelin.Boruvka.RoundStep
import GraphZeppelin.Boruvka.SampledRounds
import GraphZeppelin.Boruvka.ShortRuns
import GraphZeppelin.Boruvka.Stalled
import GraphZeppelin.Boruvka.Supernode
import GraphZeppelin.Boruvka.UnmodifiedRound
import GraphZeppelin.CC.Alg
import GraphZeppelin.CC.Certificate
import GraphZeppelin.CC.Components
import GraphZeppelin.CC.EagerDsu
import GraphZeppelin.CC.FailedForests
import GraphZeppelin.CC.FailedQuery
import GraphZeppelin.CC.Ingestion
import GraphZeppelin.CC.KForests
import GraphZeppelin.CC.LostEdge
import GraphZeppelin.CC.Query
import GraphZeppelin.CC.Serialize
import GraphZeppelin.CC.StreamThreads
import GraphZeppelin.CC.StreamThreadsSpec
import GraphZeppelin.CC.Toggle
import GraphZeppelin.Driver.Basic
import GraphZeppelin.Driver.SavedState
import GraphZeppelin.Driver.Session
import GraphZeppelin.Driver.Streaming
import GraphZeppelin.Dsu.Basic
import GraphZeppelin.Dsu.Concurrent
import GraphZeppelin.Dsu.ConcurrentSpec
import GraphZeppelin.Dsu.Linearizable
import GraphZeppelin.Dsu.Sequential
import GraphZeppelin.EdgeStore.Balance
import GraphZeppelin.EdgeStore.Basic
import GraphZeppelin.EdgeStore.Concurrent
import GraphZeppelin.EdgeStore.ConcurrentControl
import GraphZeppelin.EdgeStore.ConcurrentRun
import GraphZeppelin.EdgeStore.ConcurrentSpec
import GraphZeppelin.EdgeStore.Contraction
import GraphZeppelin.EdgeStore.InPlace
import GraphZeppelin.EdgeStore.Insert
import GraphZeppelin.EdgeStore.Merge
import GraphZeppelin.EdgeStore.MergeExact
import GraphZeppelin.EdgeStore.Sequential
import GraphZeppelin.EdgeStore.Split
import GraphZeppelin.Gpu.Alg
import GraphZeppelin.Gpu.Allocation
import GraphZeppelin.Gpu.Complete
import GraphZeppelin.Gpu.CudaXxh
import GraphZeppelin.Gpu.DeviceSketch
import GraphZeppelin.Gpu.GutterMemory
import GraphZeppelin.Gpu.Gutters
import GraphZeppelin.Gpu.HostLaunch
import GraphZeppelin.Gpu.Kernel
import GraphZeppelin.Gpu.KernelSpec
import GraphZeppelin.Gpu.MinCut
import GraphZeppelin.Gpu.Pipeline
import GraphZeppelin.Gpu.Stream
import GraphZeppelin.Gpu.StreamFlush
import GraphZeppelin.Gpu.StreamRace
import GraphZeppelin.Gpu.StreamSpec
import GraphZeppelin.Gpu.Tags
import GraphZeppelin.Gpu.UpdateBuffer
import GraphZeppelin.Graph.Pairing
import GraphZeppelin.Lib.AsyncStream
import GraphZeppelin.Lib.BitMixing
import GraphZeppelin.Lib.ByteCodec
import GraphZeppelin.Lib.CutCertificate
import GraphZeppelin.Lib.CutContraction
import GraphZeppelin.Lib.FetchAdd
import GraphZeppelin.Lib.FoldExcept
import GraphZeppelin.Lib.Linking
import GraphZeppelin.Lib.LockedUpdates
import GraphZeppelin.Lib.Partition
import GraphZeppelin.Lib.PointerForest
import GraphZeppelin.Lib.RoundEven
import GraphZeppelin.Lib.SortedRuns
import GraphZeppelin.Lib.SpanningForest
import GraphZeppelin.Lib.StridedLoop
import GraphZeppelin.Lib.SwapMerge
import GraphZeppelin.Lib.Trace
import GraphZeppelin.Lib.XorGroup
import GraphZeppelin.MC.Alg
import GraphZeppelin.MC.FilterCover
import GraphZeppelin.MC.FilterExact
import GraphZeppelin.MC.FilterIff
import GraphZeppelin.MC.FilterProgram
import GraphZeppelin.MC.FilterSfEdges
import GraphZeppelin.MC.FilterThread
import GraphZeppelin.MC.KForests
import GraphZeppelin.MC.MinCut
import GraphZeppelin.Sketch.Basic
import GraphZeppelin.Sketch.Bucket
import GraphZeppelin.Sketch.Dimensions
import GraphZeppelin.Sketch.Linear
import GraphZeppelin.Sketch.Program
import GraphZeppelin.Sketch.RangeMerge
import GraphZeppelin.Sketch.RangeMergeLoop
import GraphZeppelin.Sketch.SampleExact
import GraphZeppelin.Sketch.Sampling
import GraphZeppelin.Verifier.Basic
import GraphZeppelin.Verifier.Cache
import GraphZeppelin.Verifier.Checks
import GraphZeppelin.Verifier.Exact
import GraphZeppelin.Verifier.Forests
import GraphZeppelin.Verifier.Kruskal
import GraphZeppelin.Worker.Barrier
import GraphZeppelin.Worker.LostWakeup
import GraphZeppelin.Worker.Pause
import GraphZeppelin.Worker.ThreadGroup
