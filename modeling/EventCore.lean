import EventCore.Runs
import EventCore.GraphSearch
import EventCore.Types
import EventCore.Command
import EventCore.ExecutePipeline
import EventCore.MemoryStore
import EventCore.Serializability
import EventCore.SnapshotReplay
import EventCore.SnapshotEquivalence
import EventCore.Projection
import EventCore.ProjectionPipeline
import EventCore.ProjectionProgress
import EventCore.BatchProjection
import EventCore.FileIndex
import EventCore.FileMerge
import EventCore.FileStore
import EventCore.FreshTransaction
import EventCore.PagedScan
import EventCore.Replicas
import EventCore.AppendCancellation
import EventCore.EventReader
import EventCore.ForkVisibility
import EventCore.JsonTree
import EventCore.MergedSnapshots
import EventCore.PayloadFidelity
import EventCore.AppendSerialization
import EventCore.DeliveryFrontier
import EventCore.DrainCycle
import EventCore.ExactlyOnce
import EventCore.IngestionOrder
import EventCore.Linearization
import EventCore.LocalIngestion
import EventCore.BackendRefinement
import EventCore.ForkSoundness
import EventCore.LiveIndex
import EventCore.VersionContract
import EventCore.LostDivergence
import EventCore.ReplicaChains
import EventCore.DeliveryOrder
import EventCore.ProjectionReplay
import EventCore.FailedAppends
import EventCore.RebuildOrder
import EventCore.TopologyGeneration
import EventCore.ReconcileProgress
import EventCore.LockOrder
import EventCore.AppendLocks
import EventCore.Completion
import EventCore.AppendProgress
import EventCore.SqliteRaces
import EventCore.Exploration
import EventCore.StreamDiscovery
import EventCore.ExecuteLoop
import EventCore.DiscoveryOrder
import EventCore.SnapshotStores
import EventCore.SnapshotExecutor
import EventCore.ExecutorEquality
import EventCore.PollThreshold
import EventCore.EventRetries
import EventCore.Exchanges
import EventCore.FailureDecisions
import EventCore.PositionAttempts
import EventCore.TextLines
import EventCore.TransactionFiles
import EventCore.ForkCompleteness
import EventCore.Wildcards
import EventCore.GlobPatterns
import EventCore.AdvancedRegex
import EventCore.GlobPushdown
import EventCore.GlobToRegex
import EventCore.SourcePushdown
import EventCore.SqlPatterns
import EventCore.SqliteGlob
import EventCore.PrefixFilters
import EventCore.ModelChecker
import EventCore.ProvenanceSearch
import EventCore.CheckedModels
import EventCore.CheckerExactness
import EventCore.Derivations
import EventCore.CheckerSoundness
import EventCore.CheckerRenaming
import EventCore.RegistrationOrder
import EventCore.IngestionFile
import EventCore.TornLog
import EventCore.ParentCycles
import EventCore.AttemptCounters
import EventCore.CounterOverflow
import EventCore.SequentialCommands
import EventCore.DeriveCommand
import EventCore.BankAccounts
import EventCore.BankLedger
import EventCore.TransactionHistory
import EventCore.Coordination
import EventCore.ProjectorCoordinators
import EventCore.RunProjection
import EventCore.AdvisoryKeys
import EventCore.AdvisoryLocks
import EventCore.CheckpointFiles
import EventCore.ReplicaIdentity
import EventCore.Migrations
import EventCore.DeterministicConflicts
import EventCore.MappingSyntax
import EventCore.ModelBuilders
import EventCore.LoneExecution
import EventCore.TestScenarios
import EventCore.Replays
import EventCore.CheckedProjections
