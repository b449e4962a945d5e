import Logregator.Impl.Core.Metrics
import Logregator.Impl.Core.Wal

/-!
# The service (`storage/backend.rs`, `server.rs`, `runtime.rs`)

The connections, the channel of their commands, and the loop of
`run_engine_loop` over the system of backend and worker. A turn of the loop
takes commands off the channel and handles them one after the other; at its end
the WAL's buffer is written, and the memtable is flushed if the last insert of
the turn asked for it. In another turn the loop takes a result of the worker.
What a connection, the worker and the loop do is interleaved in any way.
-/

namespace LG.Impl.Core

open Proto

/-- `backend::BackendConfig`, and the text of a metrics snapshot. -/
structure BackendConfig where
  commandBatchSize : Nat
  rangeBatchSize : Nat
  json : Metrics → Str

/-- The commands left of a turn, and its `needs_flush`. -/
structure Turn where
  cmds : List (Nat × ClientMessage)
  needsFlush : Bool

/-- The service: a command is its message, with the connection that waits for
the reply. -/
structure Service (c : SSTableCode) where
  sys : System c
  queue : List (Nat × ClientMessage)
  turn : Option Turn
  conns : Nat → Option Conn
  metrics : Metrics

namespace Service

variable {c : SSTableCode}

/-- The service over a backend, without connections. -/
def start (sys : System c) : Service c :=
  { sys, queue := [], turn := none, conns := fun _ => none, metrics := .zero }

/-- What `Wal::recover_all` finds in the active file, after so many calls of
`write_all` for the records of the buffer; `none` is a panic. -/
def recoveredActive (s : System c) (calls : Nat) : Option (List Record) :=
  match Wal.recoverFile (Wal.fileAfter s.disk.active s.engine.walBuffer calls) with
  | .ok recs => some recs
  | .err _ => some []
  | .panic => none

/-- A crash, after which the service starts again. The state is that up to the
next crash: the bytes of a file that cannot be recovered stay in it, new records
are appended behind them, and they are in the way when it is read again. -/
def restart (memtableLimit calls : Nat) (s : Service c) : Option (Service c) := do
  let active ← recoveredActive s.sys calls
  let sys := { s.sys with disk.active := active }
  (sys.restart memtableLimit).map start

/-! ## Commands -/

/-- The insert that the engine is given: the strings of a message have lengths
that were read as `u32`. -/
def engineInsert (i : Proto.Insert) : Option Insert :=
  if h : i.key.bytes.length < 2 ^ 32 ∧ i.value.bytes.length < 2 ^ 32 then
    some { sourceId := i.sourceId, ts := i.ts, key := i.key.bytes, value := i.value.bytes
           key_lt := h.1, value_lt := h.2 }
  else none

/-- The length of the record of an insert. -/
def recordLen (i : Insert) : Nat := (Engine.recordOf 0 i).len

/-- What the backend sends to a connection. -/
def answer (s : Service c) (p : Nat) (batches : List (List Proto.Record)) (reply : Reply) :
    Service c :=
  let conn := (s.conns p).map fun conn => { conn with batches, reply := some reply }
  { s with conns := Function.update s.conns p conn }

/-- `Backend::handle_insert` and its like, on a command of the connection `p`:
the state, and the new `needs_flush`. `none` is a panic. -/
def handleCommand (cfg : BackendConfig) (hp : RecordHeap) (s : Service c) (needsFlush : Bool)
    (p : Nat) : ClientMessage → Option (Service c × Bool)
  | .insert i => do
    let i ← engineInsert i
    let (full, engine) ← s.sys.engine.insertRecord i
    let s := { s with
      sys.engine := engine
      metrics.engine.walWriteCount := s.metrics.engine.walWriteCount + 1
      metrics.engine.walWriteBytes := s.metrics.engine.walWriteBytes + UInt64.ofNat (recordLen i)
      metrics.engine.insertCount := s.metrics.engine.insertCount + 1
      metrics.engine.recordsInserted := s.metrics.engine.recordsInserted + 1 }
    return (s.answer p [] .done, full)
  | .batchInsert records => do
    let inserts ← records.mapM engineInsert
    let (full, engine) ← s.sys.engine.batchInsertRecords inserts
    let count := UInt64.ofNat inserts.length
    let s := { s with
      sys.engine := engine
      metrics.engine.walWriteCount := s.metrics.engine.walWriteCount + count
      metrics.engine.walWriteBytes := s.metrics.engine.walWriteBytes +
        UInt64.ofNat (inserts.map fun i => 8 + recordLen i).sum
      metrics.engine.batchInsertCount := s.metrics.engine.batchInsertCount + 1
      metrics.engine.recordsInserted := s.metrics.engine.recordsInserted + count }
    return (s.answer p [] .done, full)
  | .range r => do
    let (batches, reply) ← handleRange hp cfg.rangeBatchSize s.sys r
    return (s.answer p batches reply, needsFlush)
  | .metrics => return (s.answer p [] (.json (cfg.json s.metrics)), needsFlush)
  | .ping => none

/-! ## The loop -/

/-- The gauges that a turn ends with. -/
def setGauges (s : Service c) : Service c :=
  { s with
    metrics.engine.memtableBytes := Int64.ofNat s.sys.engine.memtable.sz
    metrics.engine.sstableCount := Int64.ofNat s.sys.engine.sstableMap.elems.length }

/-- The end of a turn with commands: `send_wal_sync_cmd`, and the flush. -/
def endTurn (rotates : Bool) (needsFlush : Bool) (s : Service c) : Option (Service c) :=
  let sys := s.sys.writeWal s.sys.engine.walBuffer.length
  let flushed := if needsFlush then sys.sendFlushCmd rotates else some sys
  flushed.map fun sys => setGauges { s with sys, turn := none }

/-- The counters of a result. -/
def countResult (m : EngineMetrics) : IoResult c → EngineMetrics
  | .flush _ => { m with flushCount := m.flushCount + 1 }
  | .compaction _ _ => { m with compactionCount := m.compactionCount + 1 }

/-- A turn with a result of the worker. -/
def takeResult (s : Service c) : Option (Service c) :=
  match s.sys.results with
  | [] => none
  | result :: _ => do
    let sys ← s.sys.receive
    let sys ← sys.sendCompactionCmd
    return setGauges { s with sys, metrics.engine := countResult s.metrics.engine result }

end Service

/-- What may happen next in the service: a connection is accepted, something
happens on one, its handler sends a command; the loop takes commands, handles
one, ends the turn, or takes a result; the worker takes a command, or a task
ends. -/
inductive ServiceMove where
  | accept (p : Nat)
  | conn (p : Nat) (move : ConnMove)
  | enqueue (p : Nat)
  | take (n : Nat)
  | handle
  | endTurn (rotates : Bool)
  | takeResult
  | dispatch
  | finish (i : Nat) (succeeds : Bool)

namespace ServiceMove

variable {c : SSTableCode}

/-- The state after a move, and what it shows; `none` if the move cannot be
taken, or the backend panics. -/
def exec (cfg : BackendConfig) (hp : RecordHeap) (s : Service c) :
    ServiceMove → Option (Service c × List ServiceEvent)
  | accept p =>
    match s.conns p with
    | some _ => none
    | none =>
      -- Both `run_main_loop` and `handle_conn` count the connection as active.
      let m := s.metrics.server
      some ({ s with
        conns := Function.update s.conns p (some .accepted)
        metrics.server.connectionsAccepted := m.connectionsAccepted + 1
        metrics.server.connectionsActive := m.connectionsActive + 1 + 1 }, [])
  | conn p move => do
    let conn ← s.conns p
    let (conn, m, events) ← conn.exec p s.metrics.server move
    return ({ s with
      conns := Function.update s.conns p (some conn)
      metrics.server := m }, events)
  | enqueue p => do
    let conn ← s.conns p
    match conn.handler with
    | .sending msg =>
      return ({ s with
        conns := Function.update s.conns p (some (conn.sent msg))
        queue := s.queue ++ [(p, msg)] }, [])
    | _ => none
  | take n =>
    match s.turn with
    | some _ => none
    | none =>
      if 0 < n ∧ n ≤ cfg.commandBatchSize ∧ n ≤ s.queue.length then
        some ({ s with turn := some ⟨s.queue.take n, false⟩, queue := s.queue.drop n }, [])
      else none
  | handle =>
    match s.turn with
    | some ⟨(p, msg) :: cmds, needsFlush⟩ => do
      let (s, needsFlush) ← s.handleCommand cfg hp needsFlush p msg
      return ({ s with turn := some ⟨cmds, needsFlush⟩ }, [])
    | _ => none
  | endTurn rotates =>
    match s.turn with
    | some ⟨[], needsFlush⟩ => (s.endTurn rotates needsFlush).map fun s => (s, [])
    | _ => none
  | takeResult =>
    match s.turn with
    | none => s.takeResult.map fun s => (s, [])
    | some _ => none
  | dispatch => s.sys.dispatch.map fun sys => ({ s with sys }, [])
  | finish i succeeds => (s.sys.finish hp i succeeds).map fun sys => ({ s with sys }, [])

/-- The state after moves, and what they show. -/
def run (cfg : BackendConfig) (hp : RecordHeap) (s : Service c) :
    List ServiceMove → Option (Service c × List ServiceEvent)
  | [] => some (s, [])
  | move :: moves => do
    let (s, events) ← exec cfg hp s move
    let (s, events') ← run cfg hp s moves
    return (s, events ++ events')

end ServiceMove

end LG.Impl.Core
