import PredicateIndex.Bytes
import PredicateIndex.ChainHeads
import PredicateIndex.ChangeTracker
import PredicateIndex.Checkpoint.Directory
import PredicateIndex.Checkpoint.Format
import PredicateIndex.Checksum
import PredicateIndex.CompositeKey
import PredicateIndex.Config
import PredicateIndex.DeadRecords
import PredicateIndex.Disk
import PredicateIndex.Disk.FileLock
import PredicateIndex.Fault
import PredicateIndex.Group
import PredicateIndex.Hex
import PredicateIndex.Key.Codec
import PredicateIndex.Key.Layout
import PredicateIndex.Key.Type
import PredicateIndex.Log
import PredicateIndex.LogRecord
import PredicateIndex.Manager
import PredicateIndex.Manager.Checkpointing
import PredicateIndex.Manager.Queries
import PredicateIndex.Path
import PredicateIndex.Primary
import PredicateIndex.Proofs.CheckpointCodec
import PredicateIndex.Proofs.DiskChanges
import PredicateIndex.Proofs.Heads
import PredicateIndex.Proofs.LogContents
import PredicateIndex.Proofs.Places
import PredicateIndex.Proofs.RecordCodec
import PredicateIndex.Proofs.Words
import PredicateIndex.Query.Join
import PredicateIndex.Query.Paging
import PredicateIndex.Query.Settings
import PredicateIndex.RecordId
import PredicateIndex.Session
import PredicateIndex.Store
import PredicateIndex.Store.Chain
import PredicateIndex.Store.Checkpointing
import PredicateIndex.Store.Recovery
import PredicateIndex.Token
import PredicateIndex.Proofs.LogRecords
import PredicateIndex.Proofs.StoreState
import PredicateIndex.Proofs.ChainReads
import PredicateIndex.Proofs.StoreRun
import PredicateIndex.Proofs.ChainSemantics
import PredicateIndex.Proofs.GroupIndex
import PredicateIndex.Proofs.KeyCodes
import PredicateIndex.Proofs.ManagerIndex
import PredicateIndex.Proofs.Registration
import PredicateIndex.Proofs.PrimaryIndex
import PredicateIndex.Proofs.PrimaryRun
import PredicateIndex.Proofs.QueryStream
import PredicateIndex.Proofs.QueryResults
import PredicateIndex.Proofs.TokenNames
import PredicateIndex.Proofs.CheckpointParts
import PredicateIndex.Proofs.Reopening
import PredicateIndex.Proofs.CheckpointWriting
import PredicateIndex.Proofs.CheckpointCourse
import PredicateIndex.Proofs.CommitPoints
import PredicateIndex.Proofs.FutureAnswers
import PredicateIndex.Proofs.LeftBehind
import PredicateIndex.Proofs.RecoveryExactness
import PredicateIndex.Proofs.Generations
import PredicateIndex.Proofs.Timelines
import PredicateIndex.Proofs.CoveredTimelines
import PredicateIndex.Proofs.StreamMerge
import PredicateIndex.Proofs.StreamEnds
import PredicateIndex.Proofs.ManagerReads
import PredicateIndex.Proofs.BooleanQueries
import PredicateIndex.Proofs.FailedRecovery
import PredicateIndex.Proofs.StoreFiles
import PredicateIndex.Proofs.ManagerFiles
import PredicateIndex.Proofs.PrimaryRecords
import PredicateIndex.Proofs.PrimaryActions
import PredicateIndex.Proofs.GroupRequests
import PredicateIndex.Proofs.FailedChanges
import PredicateIndex.Proofs.DirectoryWork
import PredicateIndex.Proofs.Neighbours
import PredicateIndex.Proofs.StoreLives
import PredicateIndex.Proofs.GroupRuns
import PredicateIndex.Proofs.QuerySimulation
import PredicateIndex.Proofs.ManagerAnswers
import PredicateIndex.Proofs.Snapshots
import PredicateIndex.Proofs.GroupRecovery
import PredicateIndex.Proofs.TokenOrder
import PredicateIndex.Proofs.Chronicles
import PredicateIndex.Proofs.Rosters
import PredicateIndex.Proofs.ManagerLives
import PredicateIndex.Proofs.ChecksumRegister
import PredicateIndex.Proofs.BurstErrors
import PredicateIndex.Proofs.RegisteredRecords
import PredicateIndex.Proofs.Evictions
import PredicateIndex.Proofs.FailedRegistration
import PredicateIndex.Proofs.PagedQueries
import PredicateIndex.Proofs.LegibleManagers
import PredicateIndex.Proofs.ChangingPages
import PredicateIndex.Proofs.WatchedGroups
import PredicateIndex.Proofs.LateRegistration
import PredicateIndex.Proofs.FileSteps
import PredicateIndex.Proofs.CompletionSteps
import PredicateIndex.Proofs.CrashRecovery
import PredicateIndex.Proofs.SessionPools
import PredicateIndex.Proofs.CheckpointStarts
import PredicateIndex.Proofs.RecoveryFrames
import PredicateIndex.Proofs.PartialRecovery
import PredicateIndex.Proofs.SessionAccounts
import PredicateIndex.Proofs.StoreStages
import PredicateIndex.Proofs.SessionLedgers
import PredicateIndex.Proofs.LockOwnership
import PredicateIndex.Proofs.RecordIds
import PredicateIndex.Proofs.TrackedChanges
import PredicateIndex.Proofs.LiveManagers
import PredicateIndex.Proofs.MutationEffects
import PredicateIndex.Proofs.RepeatedOpenings
import PredicateIndex.Proofs.AwaitingRecovery
import PredicateIndex.Proofs.EndedQueries
import PredicateIndex.Proofs.WholePages
import PredicateIndex.Proofs.QueryShadows
import PredicateIndex.Proofs.CancelledQueries
import PredicateIndex.Proofs.TrackerCalls
import PredicateIndex.Proofs.ReachedManagers
import PredicateIndex.Proofs.MutationPhases
import PredicateIndex.Proofs.AppendedRecords
import PredicateIndex.Proofs.UpdateRecords
import PredicateIndex.Proofs.EqualIndexes
import PredicateIndex.Proofs.Dispatches
import PredicateIndex.Proofs.MutationWrites
import PredicateIndex.Proofs.RepeatedMutations
import PredicateIndex.Proofs.InterleavedMutations
import PredicateIndex.Proofs.LogRuns
import PredicateIndex.Proofs.LogScans
import PredicateIndex.Proofs.FramedCheckpoints
import PredicateIndex.Proofs.DirectoryNames
import PredicateIndex.Proofs.EndlessChains
