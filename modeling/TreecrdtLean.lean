import TreecrdtLean.Lib.Exec
import TreecrdtLean.Lib.Codec
import TreecrdtLean.Lib.Forest
import TreecrdtLean.Lib.Trace
import TreecrdtLean.Lib.PromiseChain
import TreecrdtLean.Lib.Pages
import TreecrdtLean.Lib.Pick
import TreecrdtLean.Core.Dots
import TreecrdtLean.Core.Observe
import TreecrdtLean.Core.DotSets
import TreecrdtLean.Core.Deserialize
import TreecrdtLean.Core.Overflow
import TreecrdtLean.Core.Serialize
import TreecrdtLean.Core.Replay
import TreecrdtLean.Spec.Memory
import TreecrdtLean.Spec.Refresh
import TreecrdtLean.Spec.Tombstone
import TreecrdtLean.Spec.Changes
import TreecrdtLean.Tree.Converge
import TreecrdtLean.Tree.Commit
import TreecrdtLean.Tree.Shape
import TreecrdtLean.Tree.Awareness
import TreecrdtLean.Tree.Flags
import TreecrdtLean.Tree.Hide
import TreecrdtLean.Tree.Fail
import TreecrdtLean.Tree.Validate
import TreecrdtLean.Tree.Late
import TreecrdtLean.Tree.Affected
import TreecrdtLean.Tree.Relevant
import TreecrdtLean.Tree.Derived
import TreecrdtLean.Tree.InOrder
import TreecrdtLean.Tree.Batch
import TreecrdtLean.Core.Between
import TreecrdtLean.Core.Checked
import TreecrdtLean.Store.SqliteRows
import TreecrdtLean.Store.SqliteStorage
import TreecrdtLean.Store.Postgres
import TreecrdtLean.Store.Scans
import TreecrdtLean.Store.PgAppend
import TreecrdtLean.Store.PgAgree
import TreecrdtLean.Store.SqliteNodes
import TreecrdtLean.Store.Interchange
import TreecrdtLean.Store.NodeIds
import TreecrdtLean.Auth.Interface
import TreecrdtLean.Auth.OpSig
import TreecrdtLean.Auth.Confine
import TreecrdtLean.Auth.Reencode
import TreecrdtLean.Auth.Stale
import TreecrdtLean.Auth.ProofOrder
import TreecrdtLean.Auth.Sqlite
import TreecrdtLean.Auth.Subtree
import TreecrdtLean.Sync.Pending
import TreecrdtLean.Sync.Relay
import TreecrdtLean.Sync.Backend
import TreecrdtLean.Sync.Connection
import TreecrdtLean.Sync.RoundTrip
import TreecrdtLean.Sync.Malformed
import TreecrdtLean.Sync.ErrorContext
import TreecrdtLean.Sync.Subscriptions
import TreecrdtLean.Sync.Acks
import TreecrdtLean.Sync.Reprocess
import TreecrdtLean.Sync.Budget
import TreecrdtLean.Sync.FlowControl
import TreecrdtLean.Sync.Lifetime
import TreecrdtLean.Sync.Drain
import TreecrdtLean.Sync.Sidecar
import TreecrdtLean.Sync.QueuedBackend
import TreecrdtLean.Sync.BrowserSocket
import TreecrdtLean.Sync.DocLog
import TreecrdtLean.Sync.DocRuns
