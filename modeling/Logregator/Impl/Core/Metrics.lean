import Logregator.Framework.Text
import Logregator.Impl.Core.Server

/-!
# The metrics (`metrics.rs`)

The counters of the server, the WAL and the engine, and the text that a client
is sent for them.
-/

namespace LG.Impl.Core

/-- `metrics::WalMetrics` and `metrics::EngineMetrics`, as far as inserts and
the worker's results count. -/
structure EngineMetrics where
  walWriteCount : UInt64
  walWriteBytes : UInt64
  insertCount : UInt64
  batchInsertCount : UInt64
  recordsInserted : UInt64
  flushCount : UInt64
  compactionCount : UInt64
  memtableBytes : Int64
  sstableCount : Int64

/-- `metrics::Metrics`. -/
structure Metrics where
  server : ServerMetrics
  engine : EngineMetrics

/-- `Metrics::default`. -/
def Metrics.zero : Metrics where
  server :=
    { connectionsAccepted := 0, connectionsActive := 0, framesRead := 0, framesWritten := 0 }
  engine :=
    { walWriteCount := 0, walWriteBytes := 0, insertCount := 0, batchInsertCount := 0
      recordsInserted := 0, flushCount := 0, compactionCount := 0, memtableBytes := 0
      sstableCount := 0 }

/-! ## The text -/

/-- A value of `metrics::MetricsSnapshot`: a counter, a gauge, or a histogram
without samples. -/
inductive MetricValue where
  | counter (n : UInt64)
  | gauge (n : Int64)
  | noSamples

/-- The value as JSON. -/
def MetricValue.json : MetricValue → Str
  | counter n => decimalStr n.toNat
  | gauge n =>
    if n < 0 then (Str.ofAscii "-").append (decimalStr n.toInt.natAbs)
    else decimalStr n.toInt.natAbs
  | noSamples => .ofAscii "null"

/-- `Metrics::snapshot`. The counters that are not modelled are 0, and the
histograms have no samples. -/
def Metrics.snapshot (m : Metrics) : List (String × List (String × MetricValue)) :=
  [("wal", [
      ("write_count", .counter m.engine.walWriteCount),
      ("write_bytes", .counter m.engine.walWriteBytes),
      ("sync_count", .counter 0),
      ("sync_latency", .noSamples)]),
    ("engine", [
      ("insert_count", .counter m.engine.insertCount),
      ("batch_insert_count", .counter m.engine.batchInsertCount),
      ("records_inserted", .counter m.engine.recordsInserted),
      ("insert_failures", .counter 0),
      ("range_count", .counter 0),
      ("range_failures", .counter 0),
      ("records_scanned", .counter 0),
      ("memtable_bytes", .gauge m.engine.memtableBytes),
      ("memtable_limit", .gauge 0),
      ("sstable_count", .gauge m.engine.sstableCount),
      ("flush_count", .counter m.engine.flushCount),
      ("compaction_count", .counter m.engine.compactionCount),
      ("insert_latency", .noSamples),
      ("batch_insert_latency", .noSamples),
      ("range_latency", .noSamples),
      ("flush_duration", .noSamples),
      ("compaction_duration", .noSamples)]),
    ("server", [
      ("connections_accepted", .counter m.server.connectionsAccepted),
      ("connections_active", .gauge m.server.connectionsActive),
      ("frames_read", .counter m.server.framesRead),
      ("frames_written", .counter m.server.framesWritten)])]

/-- A field and its value. -/
def jsonField (name : String) (value : Str) : Str :=
  .concat [.ofAscii "\"", .ofAscii name, .ofAscii "\":", value]

/-- An object of fields. -/
def jsonObject (fields : List Str) : Str :=
  .concat [.ofAscii "\x7b", .concat (fields.intersperse (.ofAscii ",")), .ofAscii "\x7d"]

/-- `serde_json::to_string` of the snapshot. -/
def Metrics.json (m : Metrics) : Str :=
  jsonObject (m.snapshot.map fun s =>
    jsonField s.1 (jsonObject (s.2.map fun f => jsonField f.1 f.2.json)))

end LG.Impl.Core
