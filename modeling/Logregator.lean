import Logregator.Framework.BufWriter
import Logregator.Framework.Bytes
import Logregator.Framework.Decoder
import Logregator.Framework.Distinct
import Logregator.Framework.Draws
import Logregator.Framework.Feeding
import Logregator.Framework.Frame
import Logregator.Framework.Handoff
import Logregator.Framework.HashMap
import Logregator.Framework.Iter
import Logregator.Framework.Json
import Logregator.Framework.Linearizable
import Logregator.Framework.Merge
import Logregator.Framework.OrdSet
import Logregator.Framework.Outcome
import Logregator.Framework.Read
import Logregator.Framework.Search
import Logregator.Framework.Streaming
import Logregator.Framework.Text
import Logregator.Framework.Utf8
import Logregator.Impl.Tsdb.Block
import Logregator.Impl.Tsdb.Bloom
import Logregator.Impl.Tsdb.Codec
import Logregator.Impl.Tsdb.Error
import Logregator.Impl.Tsdb.Io
import Logregator.Impl.Tsdb.Label
import Logregator.Impl.Tsdb.LabeledIter
import Logregator.Impl.Tsdb.Lsm
import Logregator.Impl.Tsdb.Manifest
import Logregator.Impl.Tsdb.ManifestFile
import Logregator.Impl.Tsdb.Memtable
import Logregator.Impl.Tsdb.MergeIter
import Logregator.Impl.Tsdb.Record
import Logregator.Impl.Tsdb.Snapshot
import Logregator.Impl.Tsdb.SnapshotJson
import Logregator.Impl.Tsdb.Sst
import Logregator.Impl.Tsdb.SstFile
import Logregator.Impl.Core.Backend
import Logregator.Impl.Core.Client
import Logregator.Impl.Core.Engine
import Logregator.Impl.Core.MemTable
import Logregator.Impl.Core.MergeIter
import Logregator.Impl.Core.Metrics
import Logregator.Impl.Core.Proto
import Logregator.Impl.Core.Record
import Logregator.Impl.Core.SSTable
import Logregator.Impl.Core.Server
import Logregator.Impl.Core.Service
import Logregator.Impl.Core.Wal
import Logregator.Impl.Net.Request
import Logregator.Spec.Tsdb.Flushing
import Logregator.Spec.Tsdb.Framed
import Logregator.Spec.Tsdb.Layout
import Logregator.Spec.Tsdb.Log
import Logregator.Spec.Tsdb.Registry
import Logregator.Spec.Tsdb.Run
import Logregator.Spec.Tsdb.Snapshot
import Logregator.Spec.Tsdb.Trigger
import Logregator.Spec.Core.Batch
import Logregator.Spec.Core.Durability
import Logregator.Spec.Core.Jobs
import Logregator.Spec.Core.Log
import Logregator.Spec.Core.Proto
import Logregator.Spec.Core.Store
import Logregator.Spec.Core.Table
import Logregator.Spec.Net.Request
import Logregator.Proof.Tsdb.Accounting
import Logregator.Proof.Tsdb.Admit
import Logregator.Proof.Tsdb.Batch
import Logregator.Proof.Tsdb.Block
import Logregator.Proof.Tsdb.BlockRead
import Logregator.Proof.Tsdb.BlockWriter
import Logregator.Proof.Tsdb.Bloom
import Logregator.Proof.Tsdb.Bounded
import Logregator.Proof.Tsdb.Contract
import Logregator.Proof.Tsdb.Cursor
import Logregator.Proof.Tsdb.Definitions
import Logregator.Proof.Tsdb.Drawn
import Logregator.Proof.Tsdb.FalsePositive
import Logregator.Proof.Tsdb.Framed
import Logregator.Proof.Tsdb.Label
import Logregator.Proof.Tsdb.Labeled
import Logregator.Proof.Tsdb.Log
import Logregator.Proof.Tsdb.Lsm
import Logregator.Proof.Tsdb.Manifest
import Logregator.Proof.Tsdb.ManifestLog
import Logregator.Proof.Tsdb.Memtable
import Logregator.Proof.Tsdb.MergeIter
import Logregator.Proof.Tsdb.OneSource
import Logregator.Proof.Tsdb.ReadBuffer
import Logregator.Proof.Tsdb.Record
import Logregator.Proof.Tsdb.Registry
import Logregator.Proof.Tsdb.Segments
import Logregator.Proof.Tsdb.Snapshot
import Logregator.Proof.Tsdb.Sst
import Logregator.Proof.Tsdb.SstFile
import Logregator.Proof.Tsdb.SstSeek
import Logregator.Proof.Tsdb.SstSize
import Logregator.Proof.Tsdb.SstWriter
import Logregator.Proof.Tsdb.Streams
import Logregator.Proof.Tsdb.Table
import Logregator.Proof.Tsdb.TimeRange
import Logregator.Proof.Tsdb.Trigger
import Logregator.Proof.Tsdb.Union
import Logregator.Proof.Tsdb.WriteAhead
import Logregator.Proof.Core.Accumulation
import Logregator.Proof.Core.Batch
import Logregator.Proof.Core.Compaction
import Logregator.Proof.Core.Connection
import Logregator.Proof.Core.Crash
import Logregator.Proof.Core.Damaged
import Logregator.Proof.Core.Dedup
import Logregator.Proof.Core.Durability
import Logregator.Proof.Core.Filter
import Logregator.Proof.Core.Iter
import Logregator.Proof.Core.Marks
import Logregator.Proof.Core.MergeIter
import Logregator.Proof.Core.Metrics
import Logregator.Proof.Core.Order
import Logregator.Proof.Core.Progress
import Logregator.Proof.Core.Proto
import Logregator.Proof.Core.Query
import Logregator.Proof.Core.Range
import Logregator.Proof.Core.Record
import Logregator.Proof.Core.Recovery
import Logregator.Proof.Core.Restart
import Logregator.Proof.Core.Run
import Logregator.Proof.Core.Scan
import Logregator.Proof.Core.Service
import Logregator.Proof.Core.StaleWals
import Logregator.Proof.Core.Step
import Logregator.Proof.Core.Tiers
import Logregator.Proof.Core.Torn
import Logregator.Proof.Core.Wal
import Logregator.Proof.Core.Written
import Logregator.Proof.Net.Request
