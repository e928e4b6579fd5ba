import Rola.AddressAgreement
import Rola.Admission
import Rola.Arena
import Rola.ArenaContents
import Rola.ArenaInv
import Rola.ArenaJoins
import Rola.ArenaRaces
import Rola.ArenaRun
import Rola.ArenaStreams
import Rola.Arrivals
import Rola.AtomRectangle
import Rola.Backing
import Rola.BatchHead
import Rola.BitFields
import Rola.BitonicSort
import Rola.BlockScan
import Rola.BoxAgreement
import Rola.BoxLiveness
import Rola.BoxWords
import Rola.Burst
import Rola.ByteMemory
import Rola.CandidateOrder
import Rola.Candidates
import Rola.CanonLeaf
import Rola.CarryCall
import Rola.CarryMaps
import Rola.CarveShapes
import Rola.ClaimRun
import Rola.Clone
import Rola.CountingSort
import Rola.CursorRuns
import Rola.DecodeLattice
import Rola.DecodeStep
import Rola.DecodeWalk
import Rola.DigitBits
import Rola.Displacement
import Rola.EndingRuns
import Rola.EntmaxBackward
import Rola.EntmaxForward
import Rola.EntmaxGradient
import Rola.EntmaxLowering
import Rola.EntmaxOutput
import Rola.EntmaxSolve
import Rola.EntmaxThreshold
import Rola.Extent
import Rola.ExtentRuns
import Rola.FactorJacobian
import Rola.FoldFragment
import Rola.FoldOnce
import Rola.FoldRing
import Rola.FoldWindow
import Rola.FragmentExact
import Rola.FragmentSum
import Rola.GainPlane
import Rola.GatedStep
import Rola.Geom
import Rola.GrowthReplay
import Rola.Interleaving
import Rola.IntraBlock
import Rola.IntraExact
import Rola.IntraKernel
import Rola.IntraMasks
import Rola.IntraPair
import Rola.IntraStage
import Rola.Lattice
import Rola.LatticeOrder
import Rola.LatticeSearch
import Rola.Launch
import Rola.LaunchBound
import Rola.LaunchEnd
import Rola.LaunchInv
import Rola.LaunchMemory
import Rola.LaunchRun
import Rola.Machine
import Rola.MapBijections
import Rola.MixedRadix
import Rola.Owned
import Rola.Padding
import Rola.PaddingExact
import Rola.PageAccess
import Rola.PagePlanes
import Rola.PhasedBarrier
import Rola.PlanBatching
import Rola.PlanColumns
import Rola.PlanExact
import Rola.PlanLaunches
import Rola.PlanWalk
import Rola.PoolClaim
import Rola.PoolCursor
import Rola.PoolFill
import Rola.PoolInv
import Rola.PoolProgress
import Rola.PoolProtocol
import Rola.PoolSafety
import Rola.PoolWords
import Rola.Prefill
import Rola.PrefillExact
import Rola.Producer
import Rola.ProjectionExact
import Rola.RadixEmbedding
import Rola.RadixSums
import Rola.RangeSums
import Rola.RankedBits
import Rola.RankedRadix
import Rola.ReadDeal
import Rola.ReadEnd
import Rola.ReadInv
import Rola.ReadOrder
import Rola.ReadSafety
import Rola.ReadStream
import Rola.ReadTables
import Rola.Readout
import Rola.ReadoutExact
import Rola.ReadoutTile
import Rola.ReadoutWindow
import Rola.Refusal
import Rola.RouterProjection
import Rola.RoutingMass
import Rola.RoutingPlan
import Rola.RowSort
import Rola.Runner
import Rola.RunnerSound
import Rola.RunnerSupply
import Rola.Scatter
import Rola.SeamRun
import Rola.Seams
import Rola.SharedBuffer
import Rola.SidePlane
import Rola.Spans
import Rola.SplitPlanes
import Rola.Staging
import Rola.State
import Rola.StateInv
import Rola.StepOracle
import Rola.StepRefines
import Rola.StepSpec
import Rola.Streams
import Rola.Strided
import Rola.SupportWords
import Rola.TokenStep
import Rola.UnionForward
import Rola.UnionGradient
import Rola.UnionJacobian
import Rola.UnionLowering
import Rola.UnionSplit
import Rola.VmmInv
import Rola.VmmOwner
import Rola.VmmRollback
import Rola.VmmRun
import Rola.VmmSteps
import Rola.WalkSplit
import Rola.WalkTerms
import Rola.WalkUnits
import Rola.Warp
import Rola.World
import Rola.SnapshotEdge
