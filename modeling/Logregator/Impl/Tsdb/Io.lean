import Logregator.Impl.Tsdb.Lsm

/-!
# Flushing a memtable (`io.rs`)

`flush_memtable` writes the records of a frozen memtable into a table, and the
table's id and the updates of streams into the manifest. The bytes after the
blocks, the encoded bloom filter among them, and what the file system makes of
all this are taken from outside.
-/

namespace LG.Impl.Tsdb

/-- `io::flush_memtable`. `disk` is what stands in the file after the blocks, or
the error that the file or the manifest ended it with. It is given, as the
encoder of the bloom filter that writes these bytes panics on every filter: an
`.ok` stands for a flush that the code is written to complete and does not. -/
def flushMemtable (x : Externals) (payload : FlushMemtablePayload)
    (disk : Except Error (List UInt8)) : Outcome Error SstHandle := do
  let (rangeStart, rangeEnd) ← .ofExcept payload.memtable.keyBoundsFull
  let id := payload.memtable.id
  let recordCount := payload.memtable.count
  let sw ← (Outcome.ofExcept (HashedWriterState.new x payload.blockSizeLimit recordCount)).mapErr
    fun e => .ioThreadError (.sstError (.invalidBlockLimit e))
  let recs ← .expect (payload.memtable.range rangeStart rangeEnd)
  let (out, sw) := (do
    HashedWriterState.writeAll x recs
    HashedWriterState.finalize x : Action HashedWriterState SstError Unit) sw
  out.mapErr fun e => .ioThreadError (.sstError e)
  let tail ← .ofExcept disk
  return sw.handle id tail

end LG.Impl.Tsdb
