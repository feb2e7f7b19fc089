import Multiversion.Bytes
import Multiversion.Cbor.Head
import Multiversion.Cbor.Reader
import Multiversion.Checksum
import Multiversion.Clock
import Multiversion.Engine
import Multiversion.Json.Parser
import Multiversion.Json.Value
import Multiversion.Ledger.Basic
import Multiversion.Ledger.Change
import Multiversion.Ledger.Directory
import Multiversion.Lineage.Basic
import Multiversion.Lineage.Fate
import Multiversion.Log.Basic
import Multiversion.Log.Frame
import Multiversion.Log.Payload
import Multiversion.Log.Record
import Multiversion.Packed.Row
import Multiversion.Packed.Visibility
import Multiversion.Pipeline.CallBuffer
import Multiversion.Pipeline.Config
import Multiversion.Pipeline.Coordinator
import Multiversion.Pipeline.Error
import Multiversion.Pipeline.Monitor
import Multiversion.Pipeline.Transport
import Multiversion.Pipeline.WorkerPool
import Multiversion.Pipeline.Workshop
import Multiversion.Read
import Multiversion.Region
import Multiversion.Report.Basic
import Multiversion.Report.Counters
import Multiversion.Report.Values
import Multiversion.Resolution.Request
import Multiversion.Resolution.Resolver
import Multiversion.Simulation.BufferBench
import Multiversion.Simulation.Cluster
import Multiversion.Simulation.Deployment
import Multiversion.Simulation.FaultInjection
import Multiversion.Simulation.GatedPool
import Multiversion.Simulation.Harness
import Multiversion.Simulation.LogDamage
import Multiversion.Simulation.ManualFlushes
import Multiversion.Simulation.Script
import Multiversion.Simulation.ScriptedHook
import Multiversion.Simulation.ScriptedTransport
import Multiversion.Simulation.Workbench
import Multiversion.Status
import Multiversion.Storage.CellStore
import Multiversion.Storage.Device
import Multiversion.Storage.Error
import Multiversion.Storage.Mutation
import Multiversion.Store.Basic
import Multiversion.Store.Partitioned
import Multiversion.Store.TxnStore
import Multiversion.Transaction.Basic
import Multiversion.Transaction.Error
import Multiversion.Transaction.Json
import Multiversion.Visibility.Basic
import Multiversion.Visibility.HandOff
import Multiversion.Proofs.Lineage.Evolution
import Multiversion.Proofs.Visibility.Memory
import Multiversion.Proofs.Visibility.HandOffs
import Multiversion.Proofs.Isolation.Batches
import Multiversion.Proofs.Storage.Versions
import Multiversion.Proofs.Isolation.Runs
import Multiversion.Proofs.Isolation.Cells
import Multiversion.Proofs.Isolation.Sight
import Multiversion.Proofs.Isolation.RepeatableReads
import Multiversion.Proofs.Isolation.Timeline
import Multiversion.Proofs.Isolation.Digest
import Multiversion.Proofs.Isolation.History
import Multiversion.Proofs.Isolation.FirstCommitter
import Multiversion.Proofs.Isolation.Levels
import Multiversion.Proofs.Cbor.Reads
import Multiversion.Proofs.Log.RoundTrip
import Multiversion.Proofs.Log.FrameScan
import Multiversion.Proofs.Log.CompleteFrames
import Multiversion.Proofs.Log.Appending
import Multiversion.Proofs.Log.RecoveredLogs
import Multiversion.Proofs.Store.Calls
import Multiversion.Proofs.Store.Recovery
import Multiversion.Proofs.Store.TornLog
import Multiversion.Proofs.Store.StrayRecords
import Multiversion.Proofs.Isolation.Sessions
import Multiversion.Proofs.Lineage.Rising
import Multiversion.Proofs.Isolation.RootCommit
import Multiversion.Proofs.Isolation.Nesting
import Multiversion.Proofs.Isolation.OwnWrites
import Multiversion.Proofs.Pipeline.Statuses
import Multiversion.Proofs.Store.Lifecycle
import Multiversion.Proofs.Store.Partitions
import Multiversion.Proofs.Isolation.Shortcuts
import Multiversion.Proofs.Lineage.Orphans
import Multiversion.Proofs.Store.ForgedLength
import Multiversion.Proofs.Resolution.Settlement
import Multiversion.Proofs.Resolution.Schedules
import Multiversion.Proofs.Pipeline.Flushes
import Multiversion.Proofs.Pipeline.RowOutcomes
import Multiversion.Proofs.Pipeline.Clusters
import Multiversion.Proofs.Pipeline.Batching
import Multiversion.Proofs.Pipeline.Workers
import Multiversion.Proofs.Isolation.Overwrites
import Multiversion.Proofs.Pipeline.Shifts
import Multiversion.Proofs.Pipeline.FlushOrder
import Multiversion.Proofs.Pipeline.Overtaking
import Multiversion.Proofs.Pipeline.Retries
import Multiversion.Proofs.Pipeline.BufferLimits
import Multiversion.Proofs.Pipeline.FirstFailures
import Multiversion.Proofs.Store.ActiveQuery
import Multiversion.Proofs.Log.ShiftRegister
import Multiversion.Proofs.Log.ErrorDetection
import Multiversion.Proofs.Store.DamagedByte
import Multiversion.Proofs.Store.ReplayedIndex
import Multiversion.Proofs.Lineage.FinalFates
import Multiversion.Proofs.Isolation.LongSessions
import Multiversion.Proofs.Resolution.SlowWalks
import Multiversion.Proofs.Packed.Format
import Multiversion.Proofs.Packed.Assembly
import Multiversion.Proofs.Storage.RowChanges
import Multiversion.Proofs.Visibility.DeferredSweeps
import Multiversion.Proofs.Lineage.WalkDepth
import Multiversion.Proofs.Visibility.Scans
import Multiversion.Proofs.Visibility.FetchedVersions
import Multiversion.Proofs.Storage.Content
import Multiversion.Proofs.Resolution.Books
import Multiversion.Proofs.Pipeline.OpenBuffers
import Multiversion.Proofs.Pipeline.Routing
import Multiversion.Proofs.Log.PolynomialDivision
