import Kithara.TransitionSystem
import Kithara.CheckedArithmetic
import Kithara.SpanRatio
import Kithara.ArithmeticProgression
import Kithara.SpanAffine
import Kithara.SpanGeometry
import Kithara.SpanInvariant
import Kithara.SpanSlicing
import Kithara.SpanScaling
import Kithara.RangeRuns
import Kithara.StorageMemory
import Kithara.StorageViews
import Kithara.StoragePromises
import Kithara.AbrDecision
import Kithara.AbrTickets
import Kithara.AbrManualPin
import Kithara.BoundedRing
import Kithara.CommandDocket
import Kithara.CommandLevel
import Kithara.CommandChannel
import Kithara.CommandAnswers
import Kithara.DownloadRegistry
import Kithara.HlsPlanQueue
import Kithara.HlsSegmentSlot
import Kithara.HlsDispatch
import Kithara.HlsNoLostWork
import Kithara.BasisReplay
import Kithara.CommandBasis
import Kithara.OrderedExecution
import Kithara.OrderedProjection
import Kithara.CommandSimulation
import Kithara.CommandProjection
import Kithara.CommandPlanning
import Kithara.ScopedChannel
import Kithara.ScopedProjection
import Kithara.ScopedSimulation
import Kithara.ScopedSteps
import Kithara.ScopedDelivery
import Kithara.AssetPins
import Kithara.KeyedSums
import Kithara.LruTable
import Kithara.AssetCache
import Kithara.CacheQuota
import Kithara.PinLeases
import Kithara.PendingResources
import Kithara.PendingSessions
import Kithara.AvailabilityManifest
import Kithara.ManifestDurability
import Kithara.DurableCheckpoint
import Kithara.VariantHandover
import Kithara.HlsKeyCoverage
import Kithara.BlockChaining
import Kithara.DecryptOnCommit
import Kithara.DecryptChunks
import Kithara.UnicodeText
import Kithara.RangeResponses
import Kithara.ResumableBody
import Kithara.ResumedBytes
import Kithara.FragmentTables
import Kithara.FragmentTimes
import Kithara.ByteReaders
import Kithara.AnalysisBlobs
import Kithara.AnalysisRoundTrip
import Kithara.AnalysisArchive
import Kithara.ArchiveHeader
import Kithara.ArchiveFiles
import Kithara.ArchiveChain
import Kithara.AtomicPrograms
import Kithara.PoolOperations
import Kithara.PoolAccounts
import Kithara.PoolRegion
import Kithara.RegionConservation
import Kithara.SpanClock
import Kithara.SpanEndpoints
import Kithara.CoverageBlobs
import Kithara.SpanInverse
import Kithara.SpanWire
import Kithara.HlsOffsets
import Kithara.PlanMirror
import Kithara.SlotClaims
import Kithara.OffsetTiling
import Kithara.SeekTail
import Kithara.CancelPropagation
import Kithara.CancelWakers
import Kithara.CancelSafety
import Kithara.ChunkedCommit
import Kithara.CommitCrashes
import Kithara.BeatRuns
import Kithara.BeatResumes
import Kithara.AbrMonotone
import Kithara.DownloadReschedule
import Kithara.Navigation
import Kithara.ShuffleCycles
import Kithara.BackHistory
import Kithara.LruEviction
import Kithara.ResourceTransactions
import Kithara.CommandBlocks
import Kithara.TransactionWakeups
import Kithara.LiveConfigs
import Kithara.LiveFollows
import Kithara.RecencyCache
import Kithara.HandleCache
import Kithara.HandleDisplacement
import Kithara.HandleWriters
import Kithara.FileDelivery
import Kithara.DrmCipher
import Kithara.PlaylistQuotes
import Kithara.RetryLoop
import Kithara.ResumeDelays
import Kithara.PlacedRuns
import Kithara.SampleWalk
import Kithara.ByteRangeSlots
import Kithara.SegmentFill
import Kithara.GridStamps
import Kithara.SeekGeometry
import Kithara.SeekTrimming
import Kithara.RoundedQuotients
import Kithara.RatioLaws
import Kithara.HeldBlocks
import Kithara.SpanCuts
import Kithara.GaplessChunks
import Kithara.GaplessFade
import Kithara.GaplessTrimmer
import Kithara.GaplessErrors
import Kithara.GaplessWindow
import Kithara.UncoveredStarts
import Kithara.RangeGaps
import Kithara.RunSchedule
import Kithara.ScheduleCoverage
import Kithara.DoubleRounding
import Kithara.RunWindows
import Kithara.RunAsks
import Kithara.RunReassembly
import Kithara.Mp4Boxes
import Kithara.Mp4Scanner
import Kithara.GaplessProbes
import Kithara.GaplessAgreement
import Kithara.QueuePlaces
import Kithara.LoneThread
import Kithara.LoneGrowth
import Kithara.GrowthUnderPressure
import Kithara.PrefixCodes
import Kithara.LayoutPaths
import Kithara.StatefulPrograms
import Kithara.QueueSlots
import Kithara.QueueTracks
import Kithara.DeckQueue
import Kithara.QueueTransitions
import Kithara.QueueLoads
import Kithara.QueueSettlement
import Kithara.QueueCommands
import Kithara.FollowedMoves
import Kithara.MixerBoard
import Kithara.QueueBoard
import Kithara.QueueMoves
import Kithara.QueueTakeovers
import Kithara.QueueSeating
import Kithara.QueueSettling
import Kithara.QueueCalls
import Kithara.QueueRuns
