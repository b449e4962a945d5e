import Logregator.Impl.Tsdb.LabeledIter

/-!
# The LSM tree (`lsm.rs`, `counter.rs`)

`append_batch` turns payloads into records: it strips the label map, finds or
makes the stream, numbers the record, sends it to the WAL and appends it to
the memtable, which it freezes when it is full. `range` merges the memtables
and tables of each stream that has the labels asked for; the order in which a
`HashSet` gives these streams is taken from outside. `drain_sst_queue` takes
over the tables that flushes have written. The I/O channel is the list of
events sent; a closed receiver lets only a number of sends through.
`SystemTime::now` is the number of nanoseconds since the epoch, one reading
with each payload.
-/

namespace LG.Impl.Tsdb

/-- `Counter::inc_and_get`: the value returned and the counter left. -/
def incAndGet (current : UInt64) : UInt64 × UInt64 := (current, current + 1)

/-- `io::FlushMemtablePayload`. -/
structure FlushMemtablePayload where
  memtable : MemtableInner
  manifestEntries : List ManifestEntry
  blockSizeLimit : Option Nat
  dir : String
  deriving DecidableEq

/-- `io::IoEvent`. -/
inductive IoEvent where
  | appendWal (rec : Record)
  | fsyncWal
  | flushMemtable (payload : FlushMemtablePayload)
  deriving DecidableEq

/-- `flume::Sender`: the events sent, and how many more sends the receiver
takes before it is dropped (`none` when it is not). -/
structure Sender where
  sent : List IoEvent
  closesAfter : Option Nat
  deriving DecidableEq

/-- `Sender::send`. -/
def Sender.send (tx : Sender) (e : IoEvent) : Option Sender :=
  match tx.closesAfter with
  | none => some { tx with sent := tx.sent ++ [e] }
  | some 0 => none
  | some (n + 1) => some { sent := tx.sent ++ [e], closesAfter := some n }

/-- `lsm::LsmTree`, with the fields of its configuration that are used. -/
structure LsmTree where
  basepath : String
  blockSizeLimit : Option Nat
  nextMemtableId : UInt64
  nextStreamId : UInt64
  nextSeqNum : UInt64
  memtable : MemtableInner
  frozenMemtables : List MemtableInner
  sstHandles : List SstHandle
  streamBuffer : List ManifestEntry
  streamReg : StreamRegistry
  ioTx : Sender

/-- `lsm::LsmTreeOptions`. -/
structure LsmTreeOptions where
  basepath : String
  blockSizeLimit : Option Nat
  memtable : MemtableInner
  sstHandles : List SstHandle
  streamReg : StreamRegistry
  nextStreamId : UInt64
  nextSeqNum : UInt64
  ioTx : Sender

namespace LsmTree

/-- `LsmTree::new`: the next memtable id overflows after the last `u64`. -/
def new (opts : LsmTreeOptions) : Option LsmTree :=
  if opts.memtable.id.toNat + 1 < 2 ^ 64 then some {
    basepath := opts.basepath
    blockSizeLimit := opts.blockSizeLimit
    nextMemtableId := opts.memtable.id + 1
    nextStreamId := opts.nextStreamId
    nextSeqNum := opts.nextSeqNum
    memtable := opts.memtable
    frozenMemtables := []
    sstHandles := opts.sstHandles
    streamBuffer := []
    streamReg := opts.streamReg
    ioTx := opts.ioTx }
  else none

/-- `LsmTree::all_memtable_size_bytes`. -/
def allMemtableSizeBytes (t : LsmTree) : Nat :=
  t.frozenMemtables.foldl (fun acc f => acc + f.sizeBytes) t.memtable.sizeBytes

/-- A send, with its error as `append_batch` reports it. -/
def send (e : IoEvent) : Action LsmTree Error Unit := do
  let t ← Action.get
  match t.ioTx.send e with
  | some tx => Action.modify fun t => { t with ioTx := tx }
  | none => Action.fail (.message "sending on a closed channel")

/-- `LsmTree::issue_flush`. -/
def issueFlush : Action LsmTree Error Unit := do
  let t ← Action.get
  let (newId, next) := incAndGet t.nextMemtableId
  let (frozen, fresh) := t.memtable.freeze newId
  Action.modify fun t =>
    { t with
      nextMemtableId := next
      memtable := fresh
      frozenMemtables := t.frozenMemtables ++ [frozen]
      streamBuffer := [] }
  send (.flushMemtable
    { memtable := frozen
      manifestEntries := t.streamBuffer
      blockSizeLimit := t.blockSizeLimit
      dir := t.basepath })

/-- The part of `append_batch` that finds the stream of a label map, or makes
a new one. -/
def streamIdFor (labelmap : LabelMap) : Action LsmTree Error UInt64 := do
  let t ← Action.get
  match t.streamReg.getStreamIdByLabelmap labelmap with
  | some streamId =>
    match t.streamReg.getLabelmapByStreamRef streamId with
    | none => Action.fail (.message
        ("label state error: StreamRegistry.stream_by_labelmap contains stream_id " ++
          "but StreamRegistry.labelmap_by_stream doesnt"))
    | some existing =>
      if existing ≠ labelmap then Action.fail (.message
        ("label state error: hash collision occured (likelyhood was 2^16/2^65 ~ 1,7×10^-15 " ++
          "and I'm lazy to resolve it)"))
      else return streamId
  | none =>
    let (streamId, next) := incAndGet t.nextStreamId
    Action.modify fun t =>
      { t with nextStreamId := next, streamReg := t.streamReg.insert streamId labelmap }
    -- expect("labelmap was invalid based on ManifestEntry::stream_update(_, _) ...")
    let update ← Action.lift (.expect (ManifestEntry.streamUpdate? streamId labelmap))
    Action.modify fun t => { t with streamBuffer := t.streamBuffer ++ [update] }
    return streamId

/-- The timestamp of a clock reading; a clock before the epoch panics. -/
def timestampOf (now : Int) : Option UInt64 :=
  if 0 ≤ now then some (UInt64.ofNat now.toNat) else none

/-- The part of `append_batch` that makes a record of a stream: it takes the
time and the next sequence number. -/
def numberRecord (sourceId streamId : UInt64) (payload : List UInt8) (now : Int) :
    Action LsmTree Error Record := do
  let timestamp ← Action.lift (.expect (timestampOf now))
  let t ← Action.get
  let (sequenceNum, next) := incAndGet t.nextSeqNum
  Action.modify fun t => { t with nextSeqNum := next }
  return { key := { sourceId, timestamp, sequenceNum, streamId }, payload }

/-- The part of `append_batch` that makes a payload's record. -/
def makeRecord (fp : List Label → UInt64) (sourceId : UInt64) (payload : List UInt8) (now : Int) :
    Action LsmTree Error Record := do
  Action.lift ((Outcome.ofExcept (checkPayloadSize payload.length)).mapErr .codec)
  match decodeLabelMap fp payload with
  | .error e => Action.fail (.codec e)
  | .ok none => Action.fail (.codec (.other "label map codec returned Ok(None)"))
  | .ok (some (labelmap, labelBytesRead)) =>
    let streamId ← streamIdFor labelmap
    numberRecord sourceId streamId (payload.drop labelBytesRead) now

/-- The part of `append_batch` that stores a record: in the WAL, and in the
memtable or the one that replaces it. -/
def storeRecord (rec : Record) : Action LsmTree Error Unit := do
  send (.appendWal rec)
  let t ← Action.get
  let (out, memtable) := t.memtable.append rec
  Action.modify fun t => { t with memtable := memtable }
  match out with
  | .ok => return ()
  | .full rejected =>
    issueFlush
    match rejected with
    | none => return ()
    | some r =>
      let t ← Action.get
      let (out, memtable) := t.memtable.append r
      Action.modify fun t => { t with memtable := memtable }
      -- assert!(self.memtable.append(r).was_appended(), ...)
      if out.wasAppended then return () else Action.lift .panic

/-- The loop of `LsmTree::append_batch`. -/
def appendEach (fp : List Label → UInt64) (sourceId : UInt64) :
    List (List UInt8 × Int) → Action LsmTree Error Unit
  | [] => pure ()
  | (payload, now) :: rest => do
    let rec ← makeRecord fp sourceId payload now
    storeRecord rec
    appendEach fp sourceId rest

/-- `LsmTree::append_batch`, with the clock's reading at each payload. -/
def appendBatch (fp : List Label → UInt64) (sourceId : UInt64)
    (payloads : List (List UInt8 × Int)) : Action LsmTree Error Unit := do
  appendEach fp sourceId payloads
  send .fsyncWal

/-- The `MergeIter` that `LsmTree::range` builds for a stream. -/
def rangeStream (x : Externals) (hp : RecordHeap) (t : LsmTree) (id startT endT : UInt64) :
    Outcome SstError (MergeIter hp) :=
  MergeIter.new x hp t.memtable t.frozenMemtables t.sstHandles
    (.included { streamId := id, timestamp := startT, sequenceNum := 0, sourceId := 0 })
    (.included
      { streamId := id, timestamp := endT, sequenceNum := UInt64.ofNat (2 ^ 64 - 1)
        sourceId := UInt64.ofNat (2 ^ 64 - 1) })

/-- The merges of the streams, in turn, ending at the first error. -/
def rangeStreams (x : Externals) (hp : RecordHeap) (t : LsmTree) (startT endT : UInt64) :
    List UInt64 → Outcome SstError (List (MergeIter hp))
  | [] => .ok []
  | id :: ids => do
    let m ← rangeStream x hp t id startT endT
    let ms ← rangeStreams x hp t startT endT ids
    return m :: ms

/-- `LsmTree::range`, where `iterOrder` is the order in which the streams of a
set are iterated. -/
def range (x : Externals) (hp : RecordHeap) (iterOrder : Finset UInt64 → List UInt64) (t : LsmTree)
    (labels : List Label) (startT endT : Option UInt64) : Outcome SstError (LabeledIter hp) := do
  let startT := startT.getD 0
  let endT := endT.getD (UInt64.ofNat (2 ^ 64 - 1))
  let streamIds := t.streamReg.labelIntersection labels
  let mergeIters ← rangeStreams x hp t startT endT (iterOrder streamIds)
  return LabeledIter.new mergeIters t.streamReg

/-- One table of `LsmTree::drain_sst_queue`: it takes the place of the frozen
memtable at the front, if it has its id. -/
def drainSst (t : LsmTree) (sst : SstHandle) : LsmTree :=
  match t.frozenMemtables with
  | frozen :: rest =>
    if frozen.id = sst.id then
      { t with frozenMemtables := rest, sstHandles := t.sstHandles ++ [sst] }
    else { t with sstHandles := t.sstHandles ++ [sst] }
  | [] => { t with sstHandles := t.sstHandles ++ [sst] }

/-- `LsmTree::drain_sst_queue`, on the tables that have arrived. -/
def drainSstQueue (t : LsmTree) (flushResults : List SstHandle) : LsmTree :=
  flushResults.foldl drainSst t

end LsmTree

end LG.Impl.Tsdb
