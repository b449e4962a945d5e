import Logregator.Framework.Frame
import Logregator.Impl.Core.MemTable

/-!
# SSTables and their iterators (`storage/iter.rs`)

The code that writes a table, its index and its Bloom filter is taken from
outside (`SSTableCode`). An iterator reads the records of a table's file one
after the other, up to where the index starts: `SSTableIterUnfiltered` all of
them, `SSTableIterFiltered` from where the index points, skipping what the
query does not ask for and ending at the first record past the query's end. A
length for which the buffer cannot be made panics (`none`).
-/

namespace LG.Impl.Core

/-- `SSTableMeta`: its path is that of its id. -/
structure SSTableMeta (Bloom Index : Type) where
  id : Nat
  bloom : Bloom
  bloomOffset : Nat
  index : Index
  indexOffset : Nat
  numRecords : Nat
  fileSize : Nat

/-- What the engine takes from the SSTable code. -/
structure SSTableCode where
  Bloom : Type
  Index : Type
  /-- `BloomFilter::contains`. -/
  contains : Bloom → Int64 → List UInt8 → Bool
  /-- `IndexBlock::binary_seek`. -/
  binarySeek : Index → Record → Nat
  /-- `SSTableMeta::write_to_file` of records, with a hint of their number:
  the file's bytes, and the metadata returned. -/
  writeToFile : Nat → List Record → Nat → List UInt8 × SSTableMeta Bloom Index
  /-- What `Engine::open` reads from the end of a file: the index and its
  offset, the filter and its offset. -/
  readTail : List UInt8 → Except String (Index × Nat × Bloom × Nat)

/-- The metadata of a table. -/
abbrev SSTableCode.Meta (c : SSTableCode) := SSTableMeta c.Bloom c.Index

/-- The longest record for which an iterator has room: its buffer has eight bytes
more. -/
def longestRecord : Nat := isizeMax - 8

/-- `iter::SSTableIterFiltered`: the file, where its reader stands, and the
query. -/
structure SSTableIterFiltered where
  file : List UInt8
  pos : Nat
  start : Record
  stop : Record
  query : Query
  endPos : Nat

namespace SSTableIterFiltered

/-- `SSTableIterFiltered::new`; a file that is not there is an error. -/
def new (c : SSTableCode) (file : Option (List UInt8)) (table : c.Meta) (q : Query) :
    Except String SSTableIterFiltered :=
  if q.startTs > q.endTs then .error "SSTableIter::new: end_ts cannot be smaller than start_ts"
  else if q.startTs < 0 then .error "SSTableIter::new: start_ts cannot be negative"
  else
    let start := Record.fromRawParts q.sourceId q.startTs 0 q.key []
    let stop := Record.fromRawParts q.sourceId q.endTs 0 q.key []
    match file with
    | none => .error "SSTableIter::new: failed to open sstable file"
    | some file => .ok
        { file, pos := c.binarySeek table.index start, start, stop, query := q
          endPos := table.indexOffset }

/-- What `next` does with a record that is read. -/
inductive Verdict where
  | skip
  | finish
  | found
  deriving DecidableEq

/-- The checks of `SSTableIterFiltered::next`: `none` is a panic of `cmp`. -/
def judge (it : SSTableIterFiltered) (rec : Record) : Option Verdict := do
  if (← rec.cmp it.start) = .lt then return .skip
  if (← rec.cmp it.stop) ≠ .lt then return .finish
  match rec.extractAllFieldsRef with
  | .error _ => return .skip
  | .ok f =>
    if f.key ≠ it.query.key then return .skip
    if !it.query.passes f.value then return .skip
    return .found

/-- The loop of `SSTableIterFiltered::next`, for at most so many records. -/
def nextLoop : Nat → SSTableIterFiltered → Option (Option Record × SSTableIterFiltered)
  | 0, it => some (none, it)
  | n + 1, it =>
    if it.endPos ≤ it.pos then some (none, it)
    else
      match readFrame longestRecord (it.file.drop it.pos) with
      | .noPrefix => some (none, { it with pos := it.file.length })
      | .overflow => none
      | .torn => some (none, { it with pos := it.file.length })
      | .body body _ => do
        let it := { it with pos := it.pos + 8 + body.length }
        match ← it.judge ⟨body⟩ with
        | .skip => nextLoop n it
        | .finish => return (none, it)
        | .found => return (some ⟨body⟩, it)

/-- `SSTableIterFiltered::next`: a record takes a byte at least. -/
def next (it : SSTableIterFiltered) : Option (Option Record × SSTableIterFiltered) :=
  nextLoop (it.file.length + 1) it

end SSTableIterFiltered

/-- `iter::SSTableIterUnfiltered`. -/
structure SSTableIterUnfiltered where
  file : List UInt8
  pos : Nat
  endPos : Nat

namespace SSTableIterUnfiltered

/-- `SSTableIterUnfiltered::new`; a file that is not there is an error. -/
def new (c : SSTableCode) (file : Option (List UInt8)) (table : c.Meta) :
    Except String SSTableIterUnfiltered :=
  match file with
  | none => .error "SSTableIter::new: failed to open sstable file"
  | some file => .ok { file, pos := 0, endPos := table.indexOffset }

/-- `SSTableIterUnfiltered::next`. -/
def next (it : SSTableIterUnfiltered) : Option (Option Record × SSTableIterUnfiltered) :=
  if it.endPos ≤ it.pos then some (none, it)
  else
    match readFrame longestRecord (it.file.drop it.pos) with
    | .noPrefix => some (none, { it with pos := it.file.length })
    | .overflow => none
    | .torn => some (none, { it with pos := it.file.length })
    | .body body _ => some (some ⟨body⟩, { it with pos := it.pos + 8 + body.length })

end SSTableIterUnfiltered

end LG.Impl.Core
