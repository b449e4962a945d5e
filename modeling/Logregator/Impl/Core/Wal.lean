import Logregator.Framework.BufWriter
import Logregator.Framework.Frame
import Logregator.Impl.Core.Record

/-!
# The write-ahead log (`storage/wal.rs`)

Records are written behind their length in eight little-endian bytes, through
a buffer. Recovery reads the files of the directory back: a file that ends
inside a length prefix is read up to there, one that ends inside a record is
an error, and `recover_all` leaves a file with an error out. A length above
`isize::MAX` panics, as the buffer for the record cannot be made. `fileAfter`
is what the `BufWriter` has written to the file before its buffer is flushed.
-/

namespace LG.Impl.Core

/-- `wal::Wal`: the active file, and what the `BufWriter` has not written to
it. -/
structure Wal where
  file : List UInt8
  buffer : List UInt8
  deriving DecidableEq

namespace Wal

/-- `Wal::open_active` on a new file. -/
def openActive : Wal := { file := [], buffer := [] }

/-- `Wal::write_one`. -/
def writeOne (w : Wal) (rec : Record) : Wal :=
  { w with buffer := w.buffer ++ leBytes 8 rec.len ++ rec.bytes }

/-- `Wal::write_many`: the records' bytes after their lengths, in its own
loop. -/
def writeMany (w : Wal) : List Record → Wal
  | [] => w
  | rec :: recs =>
    let w := { w with buffer := w.buffer ++ leBytes 8 rec.len }
    let w := { w with buffer := w.buffer ++ rec.bytes }
    w.writeMany recs

/-- `Wal::flush_buffer`. -/
def flushBuffer (w : Wal) : Wal := { file := w.file ++ w.buffer, buffer := [] }

/-- `Wal::recover_file`. -/
def recoverFile (file : List UInt8) : Outcome String (List Record) := do
  let bodies ← (readFrames isizeMax file).mapErr
    fun _ => "wal.recover: failed to read record buffer"
  return bodies.map Record.mk

/-- An entry of the directory: whether its extension is `log`, and its
bytes. -/
structure DirEntry where
  isLog : Bool
  content : List UInt8

/-- What the loop of `Wal::recover_all` does with an entry: `none` is a panic. -/
def recoverEntry (records : RecordSet) (f : DirEntry) : Option RecordSet :=
  if f.isLog then
    match recoverFile f.content with
    | .ok recs => RecordSet.extend records recs
    | .err _ => some records
    | .panic => none
  else some records

/-- The loop of `Wal::recover_all`. -/
def recoverEntries (records : RecordSet) : List DirEntry → Option RecordSet
  | [] => some records
  | f :: files => do
    let records ← recoverEntry records f
    recoverEntries records files

/-- `Wal::recover_all`: `none` is a panic. -/
def recoverAll (dir : List DirEntry) : Option (List Record) := do
  let records ← recoverEntries (.empty _) dir
  return records.elems

/-! ## The file between flushes -/

/-- The capacity of a `BufWriter`. -/
def bufferSize : Nat := 8 * 1024

/-- The calls of `write_all` in `Wal::write_one`. -/
def recordWrites (rec : Record) : List (List UInt8) := [leBytes 8 rec.len, rec.bytes]

/-- The file's bytes: `flushed` was written when the buffer was last flushed,
and of the calls of `write_all` since then, for `buffered`, there were so
many. -/
def fileAfter (flushed buffered : List Record) (calls : Nat) : List UInt8 :=
  let w : BufWriter UInt8 bufferSize := .ofFile (flushed.flatMap recordWrites).flatten
  (w.writeEach ((buffered.flatMap recordWrites).take calls)).inner

end Wal

end LG.Impl.Core
