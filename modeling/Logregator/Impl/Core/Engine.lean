import Logregator.Framework.Outcome
import Logregator.Impl.Core.MergeIter
import Mathlib.Data.Finset.Basic

/-!
# The core engine (`storage/engine.rs`)

The engine writes records to the WAL and the memtable, freezes the memtable
for a flush, and keeps the metadata of the tables. A WAL file is here the list
of the records whose frames it has. A `none` is a panic: of a counter that
overflows, or of a record that cannot be compared. `openTable` panics also on a
length for which no buffer can be made.
-/

namespace LG.Impl.Core

/-- `proto::Insert`, whose strings have lengths that were read as `u32`. -/
structure Insert where
  sourceId : Int64
  ts : Int64
  key : List UInt8
  value : List UInt8
  key_lt : key.length < 2 ^ 32
  value_lt : value.length < 2 ^ 32

/-- The data directory: the active WAL file, the rotated ones by id, and the
tables that are completely written. -/
structure Disk where
  active : List Record
  wals : OrdMap Nat (List Record)
  ssts : OrdMap Nat (List UInt8)

/-- `n += 1` on a `u64`: `none` is its overflow. -/
def incU64 (n : Nat) : Option Nat := if n + 1 < 2 ^ 64 then some (n + 1) else none

/-- `engine::Engine`; `walBuffer` is what the WAL's writer has not written to
the file yet. -/
structure Engine (c : SSTableCode) where
  walBuffer : List Record
  memtable : MemTable
  frozenMemtables : OrdMap Nat MemTable
  sstableMap : OrdMap Nat c.Meta
  compacting : Finset Nat
  sstCounter : Nat
  seqCounter : Nat
  memtableLimitBytes : Nat

namespace Engine

variable {c : SSTableCode}

/-- The record of an insert. -/
def recordOf (seq : Nat) (i : Insert) : Record :=
  .fromRawParts i.sourceId i.ts (UInt64.ofNat seq) i.key i.value

/-- `Engine::insert_record`. -/
def insertRecord (e : Engine c) (i : Insert) : Option (Bool × Engine c) := do
  let r := recordOf e.seqCounter i
  let (needsFlush, memtable) ← e.memtable.insert r
  let seqCounter ← incU64 e.seqCounter
  return (needsFlush, { e with walBuffer := e.walBuffer ++ [r], memtable, seqCounter })

/-- The records of a batch, and the counter after it. -/
def numberInserts (seq : Nat) : List Insert → Option (List Record × Nat)
  | [] => some ([], seq)
  | i :: inserts => do
    let next ← incU64 seq
    let (recs, last) ← numberInserts next inserts
    return (recordOf seq i :: recs, last)

/-- Inserts records in turn: whether the limit was passed after one. -/
def insertAll (m : MemTable) : List Record → Option (Bool × MemTable)
  | [] => some (false, m)
  | r :: rs => do
    let (full, m) ← m.insert r
    let (fullRest, m) ← insertAll m rs
    return (full || fullRest, m)

/-- `Engine::batch_insert_records`. -/
def batchInsertRecords (e : Engine c) (inserts : List Insert) : Option (Bool × Engine c) := do
  let (recs, seqCounter) ← numberInserts e.seqCounter inserts
  let (needsFlush, memtable) ← insertAll e.memtable recs
  return (needsFlush, { e with walBuffer := e.walBuffer ++ recs, memtable, seqCounter })

/-! ## `Engine::range` -/

/-- The records of the memtables that a query's iterator goes over. -/
def memRecords (e : Engine c) (q : Query) : Option (List Record) := do
  let own ← e.memtable.cloneRange q.sourceId q.startTs q.endTs
  if e.frozenMemtables.elems.isEmpty then return own
  else
    let frozen ← e.frozenMemtables.elems.mapM fun p => p.2.cloneRange q.sourceId q.startTs q.endTs
    let all ← RecordSet.extend (.empty _) (own ++ frozen.flatten)
    return all.elems

/-- The iterators of the tables whose filter may have the source and key. -/
def sstableIters (disk : Disk) (q : Query) : List c.Meta → List RecordIter
  | [] => []
  | table :: tables =>
    if !c.contains table.bloom q.sourceId q.key then sstableIters disk q tables
    else
      match SSTableIterFiltered.new c (disk.ssts.lookup table.id) table q with
      | .ok iter => .filtered iter :: sstableIters disk q tables
      | .error _ => sstableIters disk q tables

/-- `Engine::range`. -/
def range (hp : RecordHeap) (e : Engine c) (disk : Disk) (q : Query) :
    Outcome String (MergeIter hp) :=
  if q.startTs > q.endTs then .err "engine.range: end_ts cannot be smaller than start_ts"
  else if q.startTs < 0 then .err "engine.range: start_ts cannot be negative"
  else do
    let recs ← .expect (e.memRecords q)
    .expect (MergeIter.new hp (some { inner := recs, query := q })
      (sstableIters disk q (e.sstableMap.elems.map Prod.snd)))

/-! ## Flushes and compactions -/

/-- `Engine::prepare_flush`. -/
def prepareFlush (e : Engine c) : Option (MemTable × Nat × Engine c) := do
  let newSstId := e.sstCounter
  let sstCounter ← incU64 e.sstCounter
  let (frozen, memtable) := e.memtable.freeze
  return (frozen, newSstId,
    { e with sstCounter, memtable, frozenMemtables := e.frozenMemtables.upsert newSstId frozen })

/-- `Engine::total_sstable_size`. -/
def totalSstableSize (e : Engine c) : Nat := (e.sstableMap.elems.map fun p => p.2.fileSize).sum

/-- `Engine::get_oldest_metas`. -/
def getOldestMetas (e : Engine c) (n : Nat) : List c.Meta :=
  ((e.sstableMap.elems.map Prod.snd).filter fun table => table.id ∉ e.compacting).take n

/-! ## `Engine::open` -/

/-- The greatest sequence number of records. -/
def maxSeq (recs : List Record) : Nat :=
  recs.foldl (fun m r => match r.extractSeqNum with
    | .ok seq => max m seq.toNat
    | .error _ => m) 0

/-- The loop of `Engine::open` over the recovered records: the last insert
says whether a flush is needed. -/
def insertRecovered (m : MemTable) (needsFlush : Bool) : List Record → Option (Bool × MemTable)
  | [] => some (needsFlush, m)
  | r :: rs => do
    let (needsFlush, m) ← m.insert r
    insertRecovered m needsFlush rs

/-- A table that `Engine::open` finds: the greatest sequence number that it
reads, and the metadata. The records are read to the end of the file, as far
as it can be taken for records. -/
def openTable (c : SSTableCode) (id : Nat) (file : List UInt8) :
    Outcome String (Nat × c.Meta) := do
  let bodies ← (readFrames isizeMax file).mapErr
    fun _ => "engine.open: failed to read sstable record"
  let recs := bodies.map Record.mk
  let (index, indexOffset, bloom, bloomOffset) ← .ofExcept (c.readTail file)
  return (maxSeq recs,
    { id, bloom, bloomOffset, index, indexOffset
      numRecords := (recs.filter fun r => r.extractSeqNum.toOption.isSome).length
      fileSize := file.length })

/-- `Engine::open`, and whether the memtable is past its limit. -/
def openDir (c : SSTableCode) (disk : Disk) (memtableLimit : Nat) :
    Outcome String (Engine c × Bool) := do
  let recovered ← .expect (RecordSet.extend (.empty _)
    (disk.active ++ (disk.wals.elems.map Prod.snd).flatten))
  let (needsFlush, memtable) ←
    .expect (insertRecovered (.new memtableLimit) false recovered.elems)
  let tables ← disk.ssts.elems.mapM fun (id, file) => openTable c id file
  let sstCounter ← .expect (incU64 ((disk.ssts.elems.map Prod.fst).foldl max 0))
  let seqCounter ← .expect
    (incU64 (max (maxSeq recovered.elems) ((tables.map Prod.fst).foldl max 0)))
  return ({
    walBuffer := []
    memtable
    frozenMemtables := .empty _
    sstableMap := tables.foldl (fun m table => m.upsert table.2.id table.2) (.empty _)
    compacting := ∅
    sstCounter
    seqCounter
    memtableLimitBytes := memtableLimit }, needsFlush)

end Engine

end LG.Impl.Core
