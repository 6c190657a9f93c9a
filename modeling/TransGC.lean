import TransGC.TransitionRuns
import TransGC.EdenTable
import TransGC.EdenCounters
import TransGC.EdenExclusion
import TransGC.ThreadEvents
import TransGC.EdenAssignment
import TransGC.TransactionIds
import TransGC.TransactionEnd
import TransGC.CompactSpaces
import TransGC.NextFit
import TransGC.ForwardPlan
import TransGC.ForwardScan
import TransGC.ForwardFits
import TransGC.CompactionMoves
import TransGC.CompactionSafety
import TransGC.MarkCompact
import TransGC.EdenScan
import TransGC.ScanSteps
import TransGC.ScanInvariant
import TransGC.ScanClosures
import TransGC.ScanDrain
import TransGC.ScanPhases
import TransGC.EdenIsolation
import TransGC.SlidePlan
import TransGC.TransEdensEmptied
import TransGC.PointerAdjustment
import TransGC.SlidingCompaction
import TransGC.CardScanning
import TransGC.AllocationPolicy
import TransGC.AllocationPlaces
import TransGC.AllocationFailure
import TransGC.ReclaimRace
import TransGC.ReclaimSafety
import TransGC.AllocationBuffers
import TransGC.BufferSafety
import TransGC.ScanReferences
import TransGC.EdenReachability
import TransGC.EdenEvacuation
import TransGC.PromotionFailure
import TransGC.ResidualSafety
import TransGC.EvacuationEnds
import TransGC.TrainingProgress
import TransGC.ClosureWork
import TransGC.CollectionBookkeeping
import TransGC.HeapSizing
import TransGC.GenerationSizes
import TransGC.EdenLayout
import TransGC.YoungSplit
import TransGC.YoungScavenge
import TransGC.ScavengeSteps
import TransGC.ScavengeInvariant
import TransGC.ScavengeClosures
import TransGC.ScavengePhases
import TransGC.ScavengeReferences
import TransGC.ScavengeReachability
import TransGC.ScavengeEvacuation
import TransGC.RetryLoops
import TransGC.SharedCounters
import TransGC.InvariantDivision
import TransGC.MagicConstants
import TransGC.ConstantDivision
import TransGC.MagicDivision
import TransGC.ShiftDivision
import TransGC.VirtualSpaces
import TransGC.EdenAllocation
import TransGC.MemRegions
import TransGC.NonCleanCards
import TransGC.BlockLayouts
import TransGC.DirtyCardWalk
import TransGC.BlockOffsets
import TransGC.ContigOffsets
import TransGC.SplitBlocks
import TransGC.CoveredRegions
import TransGC.CoveredCalls
import TransGC.CompressedStreams
import TransGC.LinkedChains
import TransGC.WatcherLists
import TransGC.ConstantMultiplication
import TransGC.IntegerTypes
import TransGC.MarkerRecords
import TransGC.BitMaps
import TransGC.ScratchLists
