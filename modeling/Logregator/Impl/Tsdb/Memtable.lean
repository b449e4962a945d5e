import Logregator.Framework.OrdSet
import Logregator.Impl.Tsdb.Record

/-!
# Memtables (`memtable.rs`) and what a flush reads of them (`io.rs`)

`MutMemtable`, `FrozenMemtable` and `FlushableMemtable` only restrict what may
be done with a `MemtableInner`, so all of them are one here. The set is ordered
by the records' keys, as `Record`'s `Ord` and its `Borrow<Key>` are.
-/

namespace LG.Impl.Tsdb

/-- `memtable::AppendOutput`. -/
inductive AppendOutput where
  | ok
  | full (rejected : Option Record)
  deriving DecidableEq, Repr

/-- `AppendOutput::was_appended`. -/
def AppendOutput.wasAppended : AppendOutput → Bool
  | .ok => true
  | .full none => true
  | .full (some _) => false

/-- `memtable::MemtableInner`. -/
structure MemtableInner where
  id : UInt64
  set : OrdSet Record.key
  limit : Nat
  sizeBytes : Nat
  firstKey : Option Key
  lastKey : Option Key
  deriving DecidableEq

/-- `DEFAULT_MEMTABLE_SIZE`. -/
def defaultMemtableSize : Nat := 16 * 10 * 1024

namespace MemtableInner

/-- `MemtableInner::with_size_limit`. -/
def withSizeLimit (id : UInt64) (limit : Nat) : MemtableInner :=
  { id, set := .empty _, limit, sizeBytes := 0, firstKey := none, lastKey := none }

/-- `MutMemtable::new`. -/
def new (id : UInt64) (limit : Option Nat) : MemtableInner :=
  withSizeLimit id (limit.getD defaultMemtableSize)

/-- `MemtableInner::append`. -/
def append (m : MemtableInner) (r : Record) : AppendOutput × MemtableInner :=
  -- The first record is always inserted, whatever its size.
  if m.sizeBytes + r.sizeOf > m.limit ∧ m.sizeBytes ≠ 0 then (.full (some r), m)
  else
    let m' : MemtableInner :=
      { m with
        firstKey := if m.firstKey.isNone then some r.key else m.firstKey
        lastKey := some r.key
        sizeBytes := m.sizeBytes + r.sizeOf
        set := m.set.insert r }
    (if m'.sizeBytes ≥ m'.limit then .full none else .ok, m')

/-- `MemtableInner::range`: `none` is the panic of `BTreeSet::range`. -/
def range (m : MemtableInner) (start stop : Bound Key) : Option (List Record) :=
  m.set.range start stop

/-- `MemtableInner::freeze`: the frozen table, and the one that replaces it. -/
def freeze (m : MemtableInner) (newId : UInt64) : MemtableInner × MemtableInner :=
  (m, withSizeLimit newId m.limit)

/-- `MemtableInner::count`. -/
def count (m : MemtableInner) : Nat := m.set.elems.length

/-- `MemtableInner::key_bounds_full`. -/
def keyBoundsFull (m : MemtableInner) : Except Error (Bound Key × Bound Key) :=
  match m.firstKey, m.lastKey with
  | some k₁, some k₂ => .ok (.included k₁, .included k₂)
  | _, _ => .error (.message
      "`first_key` or `last_key` not set after calling `active_memtable.append(record)`")

/-- The records that `flush_memtable` hands to `SstFileWriter::write`, one by
one, while the writes succeed: those of `memtable.range` over
`key_bounds_full`, none when there are no bounds. `none` is a panic. -/
def flushRecords (m : MemtableInner) : Option (List Record) :=
  match m.keyBoundsFull with
  | .error _ => some []
  | .ok (start, stop) => m.range start stop

/-- The memtable after a sequence of `append` calls. -/
def appendAll (m : MemtableInner) (rs : List Record) : MemtableInner :=
  rs.foldl (fun m r => (m.append r).2) m

end MemtableInner

end LG.Impl.Tsdb
