import Logregator.Impl.Tsdb.Lsm

/-!
# The log of a tree

What an LSM tree is for: a log of records. Each payload that is accepted
becomes one record of the log (`Made`), in the order of their sequence
numbers; a query for a stream and a time range selects from the log
(`Selects`), in the order of time and sequence number. The log of a tree is
what it sent to the WAL (`walRecords`); where its records are kept is
`contents`.
-/

namespace LG.Spec.Tsdb

open LG.Impl.Tsdb

/-- The records sent to the WAL. -/
def walRecords (events : List IoEvent) : List Record :=
  events.filterMap fun
    | .appendWal r => some r
    | _ => none

/-- The log of a tree. -/
def log (t : LsmTree) : List Record := walRecords t.ioTx.sent

/-- The records in the memtables of a tree. -/
def contents (t : LsmTree) : List Record :=
  (t.memtable :: t.frozenMemtables).flatMap fun m => m.set.elems

/-- A payload of a source and the clock's reading became the record: it has
the payload's body, without the label map, in the stream that the registry has
for the label map. -/
structure Made (fp : List Label → UInt64) (reg : StreamRegistry)
    (entry : UInt64 × List UInt8 × Int) (r : Record) : Prop where
  sourceId : r.key.sourceId = entry.1
  timestamp : LsmTree.timestampOf entry.2.2 = some r.key.timestamp
  size : checkPayloadSize entry.2.1.length = .ok ()
  body : ∃ labelmap n, decodeLabelMap fp entry.2.1 = .ok (some (labelmap, n)) ∧
    r.payload = entry.2.1.drop n ∧ reg.getStreamIdByLabelmap labelmap = some r.key.streamId

/-- A query for a stream and a time range selects the record. -/
def Selects (s startT endT : UInt64) (r : Record) : Prop :=
  r.key.streamId = s ∧ startT ≤ r.key.timestamp ∧ r.key.timestamp ≤ endT

instance (s startT endT : UInt64) (r : Record) : Decidable (Selects s startT endT r) :=
  inferInstanceAs (Decidable (_ ∧ _ ∧ _))

/-- The streams of a set are iterated in some order, each of them once. -/
def Iterates (iterOrder : Finset UInt64 → List UInt64) : Prop :=
  ∀ s, (iterOrder s).Nodup ∧ (iterOrder s).toFinset = s

/-- The order of time, then sequence number. -/
def timeOrder (r : Record) : UInt64 ×ₗ UInt64 := toLex (r.key.timestamp, r.key.sequenceNum)

/-- `append_batch` calls in turn, as long as they succeed. -/
def appendBatches (fp : List Label → UInt64) :
    List (UInt64 × List (List UInt8 × Int)) → Action LsmTree Error Unit
  | [] => pure ()
  | (sourceId, payloads) :: batches => do
    LsmTree.appendBatch fp sourceId payloads
    appendBatches fp batches

/-- The payloads of the batches, each with its source. -/
def entriesOf (batches : List (UInt64 × List (List UInt8 × Int))) : List (UInt64 × List UInt8 × Int) :=
  batches.flatMap fun b => b.2.map fun p => (b.1, p)

end LG.Spec.Tsdb
