import HftProj.Arbitrator.Accounting
import HftProj.Arbitrator.Acts
import HftProj.Arbitrator.Alike
import HftProj.Arbitrator.Apply
import HftProj.Arbitrator.Atomicity
import HftProj.Arbitrator.Batch
import HftProj.Arbitrator.Calls
import HftProj.Arbitrator.Coherence
import HftProj.Arbitrator.Delivery
import HftProj.Arbitrator.Exact
import HftProj.Arbitrator.Generation
import HftProj.Arbitrator.Independence
import HftProj.Arbitrator.Intents
import HftProj.Arbitrator.Invariants
import HftProj.Arbitrator.Offers
import HftProj.Arbitrator.PackedSpans
import HftProj.Arbitrator.Reanchor
import HftProj.Arbitrator.Sequencer
import HftProj.Arbitrator.Tally
import HftProj.Arbitrator.Types
import HftProj.Arbitrator.Visits
import HftProj.Arbitrator.Window
import HftProj.Engine.Histogram
import HftProj.Engine.Replay
import HftProj.Lib.AffineMaps
import HftProj.Lib.Arena
import HftProj.Lib.BitPoly
import HftProj.Lib.Fallible
import HftProj.Lib.Frontiers
import HftProj.Lib.Machine
import HftProj.Lib.MagicDivision
import HftProj.Lib.PrefixScan
import HftProj.Lib.RecordRing
import HftProj.Lib.ReorderBuffer
import HftProj.Lib.RingWindow
import HftProj.Lib.Scatter
import HftProj.Lib.Segments
import HftProj.Lib.Stateful
import HftProj.Lib.Streams
import HftProj.Lib.SwapPool
import HftProj.Lib.Sweep
import HftProj.Lib.Threads
import HftProj.Lib.Tiling
import HftProj.Lib.Transition
import HftProj.Lib.TurnRing
import HftProj.Protocol.Encode
import HftProj.Protocol.Itch5
import HftProj.Protocol.Moldudp64
import HftProj.Protocol.OnePass
import HftProj.Protocol.Packet
import HftProj.Protocol.SpecSlice
import HftProj.Testkit.AffineSpan
import HftProj.Testkit.BakeTotal
import HftProj.Testkit.Boundaries
import HftProj.Testkit.BoundaryRuns
import HftProj.Testkit.CommitFold
import HftProj.Testkit.CrcRing
import HftProj.Testkit.FabricReplay
import HftProj.Testkit.FakeServer
import HftProj.Testkit.FleetGrids
import HftProj.Testkit.FleetReplay
import HftProj.Testkit.FleetTape
import HftProj.Testkit.FoldOrder
import HftProj.Testkit.FoldSpans
import HftProj.Testkit.Fusion
import HftProj.Testkit.JournalPasses
import HftProj.Testkit.LaneGrid
import HftProj.Testkit.LaneMod
import HftProj.Testkit.LedgerDedup
import HftProj.Testkit.LobWindows
import HftProj.Testkit.OrderCache
import HftProj.Testkit.PassReplay
import HftProj.Testkit.PushPull
import HftProj.Testkit.RandomStream
import HftProj.Testkit.Reference
import HftProj.Testkit.Refinement
import HftProj.Testkit.Rerecord
import HftProj.Testkit.ResLog
import HftProj.Testkit.RowScan
import HftProj.Testkit.RxArrays
import HftProj.Testkit.RxGuard
import HftProj.Testkit.RxPublished
import HftProj.Testkit.RxSubmit
import HftProj.Testkit.RxWalk
import HftProj.Testkit.RxWorker
import HftProj.Testkit.RxWorkerRuns
import HftProj.Testkit.RxWorkerSteps
import HftProj.Testkit.ScriptCoverage
import HftProj.Testkit.ScriptRuns
import HftProj.Testkit.SessionSplit
import HftProj.Testkit.SigFabric
import HftProj.Testkit.SpanFold
import HftProj.Testkit.SpanHash
import HftProj.Testkit.SpanLayer
import HftProj.Testkit.SpanTrees
import HftProj.Testkit.SuperFold
import HftProj.Testkit.TapeLifecycle
import HftProj.Testkit.Volume
import HftProj.Transport.Drain
import HftProj.Transport.Fidelity
import HftProj.Transport.Layout
import HftProj.Transport.Master
import HftProj.Transport.PipelineReads
import HftProj.Transport.Prepatch
import HftProj.Transport.Render
import HftProj.Transport.Schedule
