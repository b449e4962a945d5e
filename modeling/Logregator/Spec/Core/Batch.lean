import Logregator.Impl.Core.Engine
import Logregator.Impl.Core.Wal

/-!
# Inserts with the bytes of the WAL

The engine's inserts beside the WAL whose bytes they write: one by one with
`write_one`, and in a batch with `write_many`.
-/

namespace LG.Spec.Core

open LG.Impl.Core

variable {c : SSTableCode}

/-- `insert_record`, with what it writes. -/
def insertLogged (e : Engine c) (w : Wal) (i : Insert) : Option (Bool × Engine c × Wal) := do
  let (needsFlush, e') ← e.insertRecord i
  return (needsFlush, e', w.writeOne (Engine.recordOf e.seqCounter i))

/-- `batch_insert_records`, with what it writes. -/
def batchLogged (e : Engine c) (w : Wal) (inserts : List Insert) :
    Option (Bool × Engine c × Wal) := do
  let (recs, _) ← Engine.numberInserts e.seqCounter inserts
  let (needsFlush, e') ← e.batchInsertRecords inserts
  return (needsFlush, e', w.writeMany recs)

/-- `insert_record` for each insert in turn, with all that it returned. -/
def insertEach (e : Engine c) (w : Wal) : List Insert → Option (List Bool × Engine c × Wal)
  | [] => some ([], e, w)
  | i :: inserts => do
    let (needsFlush, e, w) ← insertLogged e w i
    let (flags, out) ← insertEach e w inserts
    return (needsFlush :: flags, out)

end LG.Spec.Core
