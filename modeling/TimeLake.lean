import TimeLake.Library.Run
import TimeLake.Library.Decimal
import TimeLake.Library.AssocMap
import TimeLake.Library.Chunks
import TimeLake.Library.Base64
import TimeLake.Library.Split
import TimeLake.Library.Stream
import TimeLake.Library.Utf8
import TimeLake.Library.LastWins
import TimeLake.Library.Pairs
import TimeLake.Library.Fallible
import TimeLake.Library.Groups
import TimeLake.Library.JsonNumbers
import TimeLake.Library.Cursor
import TimeLake.Catalog.Manifest
import TimeLake.Catalog.Reapply
import TimeLake.Catalog.Commit
import TimeLake.Catalog.Replicas
import TimeLake.Catalog.Load
import TimeLake.Catalog.Fence
import TimeLake.Catalog.Ambiguous
import TimeLake.Wal.Codec
import TimeLake.Wal.Log
import TimeLake.Wal.Segment
import TimeLake.Wal.Recovery
import TimeLake.Wal.RoundTrip
import TimeLake.Wal.Nonces
import TimeLake.Rows.Flush
import TimeLake.Rows.Calendar
import TimeLake.Rows.UtcHour
import TimeLake.Rows.Partition
import TimeLake.Store.Paths
import TimeLake.Store.Local
import TimeLake.Store.Publish
import TimeLake.Encrypt.Store
import TimeLake.Encrypt.Contract
import TimeLake.Encrypt.Promise
import TimeLake.Encrypt.Refines
import TimeLake.Cluster.Machine
import TimeLake.Cluster.Effect
import TimeLake.Cluster.Ownership
import TimeLake.Cluster.Invariant
import TimeLake.Cluster.Objects
import TimeLake.Cluster.LiveRows
import TimeLake.Cluster.LastWrite
import TimeLake.Cluster.Overlap
import TimeLake.Cluster.Settle
import TimeLake.S3.Store
import TimeLake.S3.Plain
import TimeLake.S3.Shared
import TimeLake.S3.Creation
import TimeLake.S3.Promise
import TimeLake.Engine.Machine
import TimeLake.Engine.Flights
import TimeLake.Engine.Durability
import TimeLake.Engine.Visibility
import TimeLake.Ingest.LineProtocol
import TimeLake.Ingest.Buffer
import TimeLake.Ingest.LastValue
import TimeLake.Engine.DropCall
import TimeLake.Engine.Dropped
import TimeLake.Ingest.Node
import TimeLake.Ingest.Tables
import TimeLake.Ingest.Refusal
import TimeLake.Ingest.Replay
import TimeLake.Ingest.Interleaving
import TimeLake.Ingest.Replica
import TimeLake.Ingest.Replication
import TimeLake.Ingest.Scanner
import TimeLake.Ingest.Serialize
import TimeLake.Ingest.LineGrammar
import TimeLake.Ingest.Accounted
import TimeLake.Ingest.RoundTrip
import TimeLake.Ingest.Producers
import TimeLake.Library.Distinct
import TimeLake.Ingest.Columns
import TimeLake.Ingest.Alignment
import TimeLake.LastCache.Batch
import TimeLake.LastCache.Machine
import TimeLake.LastCache.Truth
import TimeLake.LastCache.SeriesKeys
import TimeLake.LastCache.Keyed
import TimeLake.Cluster.Namespace
import TimeLake.Querier.Machine
import TimeLake.Querier.Views
import TimeLake.Querier.Complete
import TimeLake.Query.Label
import TimeLake.Query.Grammar
import TimeLake.Query.Derivation
import TimeLake.Query.Restriction
import TimeLake.Query.Scan
import TimeLake.Query.Security
import TimeLake.Query.Filters
import TimeLake.Query.Lossless
import TimeLake.Registry.Machine
import TimeLake.Registry.Files
import TimeLake.Registry.Complete
import TimeLake.Registry.Presented
import TimeLake.Registry.Types
import TimeLake.Library.Int64
import TimeLake.Admin.Definitions
import TimeLake.Admin.Retention
import TimeLake.Admin.Durations
import TimeLake.Admin.Windows
import TimeLake.Admin.Config
import TimeLake.Admin.Machine
import TimeLake.Admin.Sealing
import TimeLake.Admin.Persist
import TimeLake.Rollup.Lines
import TimeLake.Rollup.Machine
import TimeLake.Rollup.Written
import TimeLake.Rollup.Sealed
import TimeLake.Selfmon.Faithful
import TimeLake.Auth.Tokens
import TimeLake.Auth.Header
import TimeLake.Auth.Decision
import TimeLake.Auth.TokenCalls
import TimeLake.Auth.TokensKept
import TimeLake.Auth.Principals
import TimeLake.Auth.Passwords
import TimeLake.Auth.Rotated
import TimeLake.Auth.Throttle
import TimeLake.Auth.Credentials
import TimeLake.Audit.Chain
import TimeLake.Audit.Line
import TimeLake.Audit.Evident
import TimeLake.Audit.ReadBack
import TimeLake.Audit.Sink
import TimeLake.Audit.Survives
import TimeLake.Audit.Retention
import TimeLake.Admin.Layers
import TimeLake.Admin.CrossField
import TimeLake.Admin.Resolution
import TimeLake.Declared.Machine
import TimeLake.Declared.Conform
import TimeLake.Router.Shards
import TimeLake.Router.Affinity
import TimeLake.Registry.ColumnNames
import TimeLake.Query.Meaning
import TimeLake.Query.Narrow
import TimeLake.Query.Prefetch
import TimeLake.Query.Projection
import TimeLake.Grace.Machine
import TimeLake.Grace.Queue
import TimeLake.Grace.Spared
import TimeLake.Deletes.Filter
import TimeLake.Deletes.Pass
import TimeLake.Deletes.Accepted
import TimeLake.Admin.Requests
import TimeLake.Admin.Handlers
import TimeLake.Admin.Audited
import TimeLake.Admin.Accountable
import TimeLake.Admin.Ledger
import TimeLake.Admin.Door
import TimeLake.Library.Tally
import TimeLake.Admission.Machine
import TimeLake.Admission.Slots
import TimeLake.Admission.Answers
import TimeLake.Admission.Recorded
import TimeLake.Library.JsonFields
import TimeLake.Membership.Nodes
import TimeLake.Membership.Consul
import TimeLake.Membership.Views
import TimeLake.Membership.Converge
import TimeLake.Flight.Tickets
import TimeLake.Flight.Doors
