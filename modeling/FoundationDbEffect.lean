import FoundationDbEffect.Foundation.Numeral
import FoundationDbEffect.Foundation.Unicode
import FoundationDbEffect.Tuple.Codec
import FoundationDbEffect.Tuple.Encoding
import FoundationDbEffect.Tuple.RoundTrip
import FoundationDbEffect.Tuple.Order
import FoundationDbEffect.Client.RetryProtocol
import FoundationDbEffect.Directory.Allocator
import FoundationDbEffect.Directory.AllocatorUniqueness
import FoundationDbEffect.Foundation.Transition
import FoundationDbEffect.PersistedQueue.Repository
import FoundationDbEffect.PersistedQueue.Invariant
import FoundationDbEffect.PersistedQueue.Changes
import FoundationDbEffect.PersistedQueue.Claims
import FoundationDbEffect.EventLog.Journal
import FoundationDbEffect.EventLog.ExactlyOnce
import FoundationDbEffect.Cluster.MessageOrder
import FoundationDbEffect.Cluster.MessageReadiness
import FoundationDbEffect.Cluster.MessageStorage
import FoundationDbEffect.Cluster.OrderMerge
import FoundationDbEffect.Cluster.PollingRows
import FoundationDbEffect.Cluster.MailboxRows
import FoundationDbEffect.Cluster.Polling
import FoundationDbEffect.Cluster.MailboxInvariant
import FoundationDbEffect.Cluster.OrderMutations
import FoundationDbEffect.Foundation.PageLoop
import FoundationDbEffect.Cluster.OrderVisits
import FoundationDbEffect.Client.Ambiguity
import FoundationDbEffect.EventLog.ChangeFeed
import FoundationDbEffect.Persistence.ChunkedValue
import FoundationDbEffect.Persistence.KeyValueStore
import FoundationDbEffect.Persistence.StoreSize
import FoundationDbEffect.Persistence.StoredValues
import FoundationDbEffect.EventLog.Server
import FoundationDbEffect.EventLog.ServerSequences
import FoundationDbEffect.EventLog.ServerStreams
import FoundationDbEffect.EventLog.Wakeups
import FoundationDbEffect.Persistence.BackingInvariant
import FoundationDbEffect.Persistence.BackingWrites
import FoundationDbEffect.Persistence.BackingLive
import FoundationDbEffect.Persistence.BackingMap
import FoundationDbEffect.Directory.Metadata
import FoundationDbEffect.Directory.Engine
import FoundationDbEffect.Tuple.Subspace
import FoundationDbEffect.Tuple.Canonical
import FoundationDbEffect.Tuple.Numbers
import FoundationDbEffect.Directory.PrefixCheck
import FoundationDbEffect.Foundation.Lease
import FoundationDbEffect.Cluster.RunnerStorage
import FoundationDbEffect.Cluster.RunnerLeases
import FoundationDbEffect.Cluster.RunnerTransactions
import FoundationDbEffect.Cluster.MachineIds
import FoundationDbEffect.Foundation.Batch
import FoundationDbEffect.Native.Batches
import FoundationDbEffect.Native.Bridge
import FoundationDbEffect.Native.BridgeSteps
import FoundationDbEffect.Native.Lifecycle
import FoundationDbEffect.Native.Ownership
import FoundationDbEffect.Native.CallbackSafety
import FoundationDbEffect.Native.Handles
import FoundationDbEffect.Native.HandleSafety
import FoundationDbEffect.Cluster.MailboxRuns
import FoundationDbEffect.Cluster.ReplyAccounting
import FoundationDbEffect.Cluster.AddressClears
import FoundationDbEffect.Cluster.PrimaryKeys
import FoundationDbEffect.Directory.Attempt
import FoundationDbEffect.Directory.CreationConflicts
import FoundationDbEffect.Directory.CreationOrder
import FoundationDbEffect.Persistence.PackedChunks
import FoundationDbEffect.Persistence.RateLimiter
import FoundationDbEffect.PersistedQueue.Cleanup
import FoundationDbEffect.PersistedQueue.Replay
import FoundationDbEffect.Foundation.Signal
import FoundationDbEffect.PersistedQueue.Wakeups
import FoundationDbEffect.Persistence.BackingOrphans
import FoundationDbEffect.Persistence.Staging
import FoundationDbEffect.EventLog.RemoteWrites
import FoundationDbEffect.Directory.AllocatorRoom
import FoundationDbEffect.Directory.Tree
import FoundationDbEffect.Directory.Removal
import FoundationDbEffect.Directory.Regular
import FoundationDbEffect.Directory.Edits
import FoundationDbEffect.Directory.Detached
import FoundationDbEffect.Directory.EngineSteps
import FoundationDbEffect.Directory.Operations
import FoundationDbEffect.Directory.Isolation
import FoundationDbEffect.Directory.Rearrangements
import FoundationDbEffect.Directory.Outcomes
import FoundationDbEffect.Directory.Handles
import FoundationDbEffect.Directory.TreeRuns
import FoundationDbEffect.Directory.Databases
import FoundationDbEffect.Directory.Delegation
import FoundationDbEffect.Directory.ReferenceTree
import FoundationDbEffect.Foundation.PathTree
import FoundationDbEffect.Foundation.Tally
import FoundationDbEffect.Persistence.FixedWindow
import FoundationDbEffect.Persistence.AdaptiveLimiter
import FoundationDbEffect.Persistence.LearnedPacing
import FoundationDbEffect.IndexScans
import FoundationDbEffect.Foundation.Families
import FoundationDbEffect.KeyFamilies
import FoundationDbEffect.PersistedQueue.Finished
import FoundationDbEffect.Cluster.Deliveries
import FoundationDbEffect.Cluster.ReplyStreams
import FoundationDbEffect.Cluster.Lookups
import FoundationDbEffect.Cluster.LiveRunners
import FoundationDbEffect.Persistence.StoreMap
import FoundationDbEffect.Foundation.Cells
import FoundationDbEffect.EventLog.Repository
import FoundationDbEffect.EventLog.ServerLookups
import FoundationDbEffect.EventLog.JournalRecords
import FoundationDbEffect.Foundation.Continuation
import FoundationDbEffect.Native.RangeStreams
