import ConfigLedger.Json.Merge
import ConfigLedger.Json.Tree
import ConfigLedger.Json.Printer
import ConfigLedger.Key
import ConfigLedger.Document.Form
import ConfigLedger.Predicate
import ConfigLedger.Backend.Collection
import ConfigLedger.Filter.Expression
import ConfigLedger.Filter.Compile
import ConfigLedger.Clock
import ConfigLedger.Locks.KeyMonitors
import ConfigLedger.Locks.TenantLocks
import ConfigLedger.Backend.Snapshot
import ConfigLedger.Metrics
import ConfigLedger.Store.Procedure
import ConfigLedger.Store.Options
import ConfigLedger.Store.Bulk
import ConfigLedger.Objects
import ConfigLedger.Scope
import ConfigLedger.Store.Host
import ConfigLedger.Yaml.Datum
import ConfigLedger.Store.Opening
import ConfigLedger.Command.Execution
import ConfigLedger.Command.Invocation
import ConfigLedger.Main
import ConfigLedger.Proofs.Backend.Query
import ConfigLedger.Proofs.Backend.Collection
import ConfigLedger.Proofs.Backend.History
import ConfigLedger.Proofs.Backend.Numbering
import ConfigLedger.Proofs.Locks.KeyMonitors
import ConfigLedger.Proofs.Store.Calls
import ConfigLedger.Proofs.Store.Reading
import ConfigLedger.Proofs.Filter.Meaning
import ConfigLedger.Proofs.Filter.WellFormed
import ConfigLedger.Proofs.Filter.Nulls
import ConfigLedger.Proofs.Filter.Membership
import ConfigLedger.Proofs.Filter.Form
import ConfigLedger.Proofs.Json.Merge
import ConfigLedger.Proofs.Store.Querying
import ConfigLedger.Proofs.Store.OptionsForm
import ConfigLedger.Proofs.Store.Merging
import ConfigLedger.Proofs.Store.Writing
import ConfigLedger.Proofs.Store.InMemory
import ConfigLedger.Proofs.Store.Simulation
import ConfigLedger.Proofs.Backend.WellFormed
import ConfigLedger.Proofs.Store.Interleaving
import ConfigLedger.Proofs.Backend.Disk
import ConfigLedger.Proofs.Backend.Snapshot
import ConfigLedger.Proofs.Backend.Rollback
import ConfigLedger.Proofs.Backend.Temporary
import ConfigLedger.Proofs.Backend.FailedSaves
import ConfigLedger.Proofs.Store.Additions
import ConfigLedger.Proofs.Store.Durability
import ConfigLedger.Proofs.Store.Preconditions
import ConfigLedger.Proofs.Store.Elements
import ConfigLedger.Proofs.Store.Crew
import ConfigLedger.Proofs.Store.Guarded
import ConfigLedger.Proofs.Store.GuardedActions
import ConfigLedger.Proofs.Store.GuardedCalls
import ConfigLedger.Proofs.Store.Conflicts
import ConfigLedger.Proofs.Command.Resolving
import ConfigLedger.Proofs.Backend.Confinement
import ConfigLedger.Proofs.Store.Drafts
import ConfigLedger.Proofs.Store.Isolation
import ConfigLedger.Proofs.Objects.Decoding
import ConfigLedger.Proofs.Objects.Distinct
import ConfigLedger.Proofs.Objects.Traffic
import ConfigLedger.Proofs.Objects.Orderly
import ConfigLedger.Proofs.Objects.Unique
import ConfigLedger.Proofs.Store.Endings
import ConfigLedger.Proofs.Store.Accounts
import ConfigLedger.Proofs.Objects.Creating
import ConfigLedger.Proofs.Objects.Batches
import ConfigLedger.Proofs.Store.Reordering
import ConfigLedger.Proofs.Store.Paging
import ConfigLedger.Proofs.Sorting.Places
import ConfigLedger.Proofs.Locks.Callers
import ConfigLedger.Proofs.Locks.Progress
import ConfigLedger.Proofs.Scope.Ancestry
import ConfigLedger.Proofs.Scope.Resolution
import ConfigLedger.Proofs.Json.Nulls
import ConfigLedger.Proofs.Json.MergeLaws
import ConfigLedger.Proofs.Scope.Leaves
import ConfigLedger.Proofs.Store.Addressing
import ConfigLedger.Proofs.Store.ConflictCount
import ConfigLedger.Proofs.Filter.Comparisons
import ConfigLedger.Proofs.Json.Paths
import ConfigLedger.Proofs.Store.VersionArithmetic
import ConfigLedger.Proofs.Store.Coherence
