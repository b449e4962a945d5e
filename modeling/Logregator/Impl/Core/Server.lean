import Logregator.Framework.Linearizable
import Logregator.Impl.Core.Backend
import Logregator.Impl.Core.Client

/-!
# Connections (`server.rs`) and what the backend answers (`storage/backend.rs`)

`Server::handle_conn` reads a message, sends its command to the backend, and
writes what the backend answers: a reply, and before it the records of a range,
which come in batches. A connection is here the client's end with it, and the
bytes on their way in each direction.
-/

namespace LG.Impl.Core

open Proto

/-! ## Answers of the backend -/

/-- `TryFrom<storage::Record>` for `proto::Record`, by
`Record::extract_all_fields_owned`; an error is its text. -/
def tryFromRecord (rec : Record) : Except Str Proto.Record :=
  match rec.extractAllFieldsRef with
  | .error e => .error (.ofAscii ("extract_all_fields_owned: failed to extract fields: " ++ e))
  | .ok f =>
    if hk : utf8 f.key = true then
      if hv : utf8 f.value = true then
        .ok { sourceId := f.sourceId, ts := f.timestamp, seq := f.seqNum, key := ⟨f.key, hk⟩
              value := ⟨f.value, hv⟩ }
      else .error (.ofAscii ("extract_all_fields_owned: failed to decode value as utf-8: " ++
        (utf8Error f.value).getD ""))
    else .error (.ofAscii ("extract_all_fields_owned: failed to decode key as utf-8: " ++
      (utf8Error f.key).getD ""))

/-- What the backend sends on the oneshot channel of a command: `Ok(())`,
`Ok(json)` or an error. -/
inductive Reply where
  | done
  | json (json : Str)
  | failed (err : Str)

/-- The error of a channel that the backend drops. -/
def engineClosed : Str := .ofAscii "engine closed"

/-- The batches that `handle_range` has left at the end. -/
def lastBatch (batch : List Proto.Record) : List (List Proto.Record) :=
  if batch.isEmpty then [] else [batch]

/-- The loop that `handle_range` spawns, for at most so many records: the
batches that it sends, and the reply. A panic of the iterator drops both
channels. -/
def scan {hp : RecordHeap} (rangeBatchSize : Nat) :
    Nat → MergeIter hp → List Proto.Record → List (List Proto.Record) × Reply
  | 0, _, _ => ([], .failed engineClosed)
  | n + 1, iter, batch =>
    match iter.next with
    | none => ([], .failed engineClosed)
    | some (none, _) => (lastBatch batch, .done)
    | some (some rec, iter) =>
      match tryFromRecord rec with
      | .error e => (lastBatch batch, .failed e)
      | .ok protoRec =>
        let batch := batch ++ [protoRec]
        if rangeBatchSize ≤ batch.length then
          let (batches, reply) := scan rangeBatchSize n iter []
          (batch :: batches, reply)
        else scan rangeBatchSize n iter batch

/-- What `Engine::range` is asked. -/
def queryOf (r : Proto.Range) : Query :=
  { sourceId := r.sourceId, key := r.key.bytes, startTs := r.startTs, endTs := r.endTs
    filter := r.filter.bytes }

/-- `Backend::handle_range`: the batches and the reply. The iterator has the
files open that it reads, so that the loop, which runs beside the backend, gives
what it would give at once. `none` is a panic of the backend. -/
def handleRange {c : SSTableCode} (hp : RecordHeap) (rangeBatchSize : Nat) (s : System c)
    (r : Proto.Range) : Option (List (List Proto.Record) × Reply) :=
  match s.engine.range hp s.disk (queryOf r) with
  | .ok iter => some (scan rangeBatchSize (iter.bound + 1) iter [])
  | .err e => some ([], .failed (.ofAscii e))
  | .panic => none

/-! ## `handle_conn` -/

/-- Where `handle_conn` stands: it reads a message, sends its command, waits for
the reply, takes the batches of a range, or has ended. -/
inductive Handler where
  | reading
  | sending (msg : ClientMessage)
  | waiting
  | streaming
  | ended

/-- Where the client stands: it has no call, one with the records it has, or it
is gone. -/
inductive Caller where
  | idle
  | calling (call : ClientMessage) (v : List Proto.Record)
  | gone

/-- A connection: the client and what it has read but not decoded, the bytes
under way in both directions, the handler with its two buffers and the number of
records it has written of a range, and what the backend has sent to it. -/
structure Conn where
  caller : Caller
  inbox : List UInt8
  up : List UInt8
  down : List UInt8
  handler : Handler
  readBuf : List UInt8
  writeBuf : List UInt8
  recordFrames : Nat
  batches : List (List Proto.Record)
  reply : Option Reply

namespace Conn

/-- A connection that has just been accepted. -/
def accepted : Conn :=
  { caller := .idle, inbox := [], up := [], down := [], handler := .reading, readBuf := []
    writeBuf := [], recordFrames := 0, batches := [], reply := none }

/-- `flush`. -/
def flush (conn : Conn) : Conn := { conn with writeBuf := [], down := conn.down ++ conn.writeBuf }

/-- `send`: encodes a message and flushes. -/
def send (conn : Conn) (msg : ServerMessage) : Conn :=
  flush { conn with writeBuf := ServerCodec.encode conn.writeBuf msg }

/-- `FLUSH_THRESHOLD`. -/
def flushThreshold : Nat := 8192

/-- The records of a batch, written and flushed when the buffer has grown. -/
def writeBatch (conn : Conn) (records : List Proto.Record) : Conn :=
  let conn := { conn with
    writeBuf := records.foldl writeRecordFrame conn.writeBuf
    recordFrames := conn.recordFrames + records.length }
  if flushThreshold < conn.writeBuf.length then conn.flush else conn

/-- The message of a reply. -/
def replyMessage (ok : ServerMessage) : Reply → ServerMessage
  | .done => ok
  | .json json => .metrics json
  | .failed err => .error err

/-- The handler when it has sent a command. -/
def sent (conn : Conn) : ClientMessage → Conn
  | .range _ => { conn with handler := .streaming, recordFrames := 0 }
  | _ => { conn with handler := .waiting }

end Conn

/-- `metrics::ServerMetrics`. -/
structure ServerMetrics where
  connectionsAccepted : UInt64
  connectionsActive : Int64
  framesRead : UInt64
  framesWritten : UInt64

/-- What calls and returns of a client show. -/
abbrev ServiceEvent := HistoryEvent Nat ClientMessage CallResult

/-- What may happen on a connection: the client calls, bytes reach the handler,
it reads a message, writes a reply, a batch, or the end of a range, bytes reach
the client, it takes a message, or goes away; the handler sees that, or fails. -/
inductive ConnMove where
  | call (msg : ClientMessage)
  | toServer (n : Nat)
  | read
  | answer
  | batch
  | endRange
  | toClient (n : Nat)
  | receive
  | lose
  | eof
  | fail

namespace Conn

/-- The handler reads: a ping is answered at once, and a frame that cannot be
decoded ends it. -/
def read (m : ServerMetrics) (conn : Conn) : Option (Conn × ServerMetrics) :=
  match ServerCodec.decode conn.readBuf with
  | (.ok none, _) => none
  | (.ok (some .ping), rest) =>
    some (send { conn with readBuf := rest } .pong,
      { m with framesRead := m.framesRead + 1, framesWritten := m.framesWritten + 1 })
  | (.ok (some msg), rest) =>
    some ({ conn with readBuf := rest, handler := .sending msg },
      { m with framesRead := m.framesRead + 1 })
  | (.err _, rest) =>
    some ({ conn with readBuf := rest, handler := .ended },
      { m with framesRead := m.framesRead + 1 })
  | (.panic, rest) => some ({ conn with readBuf := rest, handler := .ended }, m)

/-- The client takes a message; a frame that cannot be decoded ends its
call. -/
def receive (p : Nat) (call : ClientMessage) (v : List Proto.Record) (conn : Conn) :
    Option (Conn × List ServiceEvent) :=
  match ClientCodec.decode conn.inbox with
  | (.ok none, _) => none
  | (.ok (some resp), rest) =>
    match Client.receive call v resp with
    | .more v => some ({ conn with inbox := rest, caller := .calling call v }, [])
    | .returns res => some ({ conn with inbox := rest, caller := .idle }, [.ret p res])
  | (.err e, rest) =>
    some ({ conn with inbox := rest, caller := .idle }, [.ret p (.failed (.decode e))])
  | (.panic, rest) => some ({ conn with inbox := rest, caller := .gone }, [])

/-- The handler sees that the client is gone: with bytes left that are no
frame, it ends with an error. -/
def eof (m : ServerMetrics) (conn : Conn) : Option (Conn × ServerMetrics) :=
  match ServerCodec.decode conn.readBuf with
  | (.ok none, _) =>
    if conn.readBuf.isEmpty then
      some ({ conn with handler := .ended },
        { m with connectionsActive := m.connectionsActive - 1 })
    else
      some ({ conn with handler := .ended }, { m with framesRead := m.framesRead + 1 })
  | _ => none

/-- What happens on the connection `p`; `none` if it cannot happen now. A client
whose call ends with the error of a closed connection is one that is gone. -/
def exec (p : Nat) (m : ServerMetrics) (conn : Conn) :
    ConnMove → Option (Conn × ServerMetrics × List ServiceEvent)
  | .call msg =>
    match conn.caller with
    | .idle => some ({ conn with
        caller := .calling msg []
        up := conn.up ++ ClientCodec.encode [] msg }, m, [.call p msg])
    | _ => none
  | .toServer n =>
    match conn.handler with
    | .reading => some ({ conn with
        readBuf := conn.readBuf ++ conn.up.take n
        up := conn.up.drop n }, m, [])
    | _ => none
  | .read =>
    match conn.handler with
    | .reading => (conn.read m).map fun (conn, m) => (conn, m, [])
    | _ => none
  | .answer =>
    match conn.handler, conn.reply with
    | .waiting, some r =>
      some (send { conn with handler := .reading, reply := none } (replyMessage .insertOk r),
        { m with framesWritten := m.framesWritten + 1 }, [])
    | _, _ => none
  | .batch =>
    match conn.handler, conn.batches with
    | .streaming, records :: batches =>
      some (writeBatch { conn with batches } records, m, [])
    | _, _ => none
  | .endRange =>
    match conn.handler, conn.batches, conn.reply with
    | .streaming, [], some r =>
      some (send (flush { conn with handler := .reading, reply := none })
          (replyMessage .rangeEnd r),
        { m with framesWritten := m.framesWritten + UInt64.ofNat conn.recordFrames + 1 }, [])
    | _, _, _ => none
  | .toClient n =>
    some ({ conn with inbox := conn.inbox ++ conn.down.take n, down := conn.down.drop n }, m, [])
  | .receive =>
    match conn.caller with
    | .calling call v => (conn.receive p call v).map fun (conn, events) => (conn, m, events)
    | _ => none
  | .lose => some ({ conn with caller := .gone }, m, [])
  | .eof =>
    match conn.handler, conn.caller, conn.up with
    | .reading, .gone, [] => (conn.eof m).map fun (conn, m) => (conn, m, [])
    | _, _, _ => none
  | .fail => some ({ conn with handler := .ended }, m, [])

end Conn

end LG.Impl.Core
