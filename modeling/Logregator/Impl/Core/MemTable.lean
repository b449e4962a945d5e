import Logregator.Impl.Core.Record
import Mathlib.Data.List.Infix

/-!
# The memtable of the core engine (`storage/memtable.rs`)

A set of records with a running size. A range clones the records of a source
between two times, and a filtered iterator over them keeps those that a query
asks for.
-/

namespace LG.Impl.Core

/-- `memtable::MemTable`. -/
structure MemTable where
  sz : Nat
  limit : Nat
  bset : RecordSet
  deriving DecidableEq

namespace MemTable

/-- `MemTable::new`. -/
def new (limit : Nat) : MemTable := { sz := 0, limit, bset := .empty _ }

/-- `MemTable::is_empty`. -/
def isEmpty (m : MemTable) : Bool := m.bset.elems.isEmpty

/-- `MemTable::len`. -/
def len (m : MemTable) : Nat := m.bset.elems.length

/-- `MemTable::insert`: whether the limit is passed. A record that is there
already counts again. -/
def insert (m : MemTable) (rec : Record) : Option (Bool × MemTable) := do
  let bset ← RecordSet.insert m.bset rec
  let sz := m.sz + rec.len
  return (sz > m.limit, { m with bset, sz })

/-- `MemTable::clone_range`. -/
def cloneRange (m : MemTable) (sourceId startTs endTs : Int64) : Option (List Record) :=
  RecordSet.range m.bset (.fromRawParts sourceId startTs 0 [] []) (.fromRawParts sourceId endTs 0 [] [])

/-- `MemTable::freeze`: the frozen table, and what is left. -/
def freeze (m : MemTable) : MemTable × MemTable :=
  (m, { sz := 0, limit := m.limit, bset := .empty _ })

end MemTable

/-- What a range query asks for: `source_id`, `key`, `start_ts`, `end_ts` and
`filter`. -/
structure Query where
  sourceId : Int64
  key : List UInt8
  startTs : Int64
  endTs : Int64
  filter : List UInt8
  deriving DecidableEq

/-- `str::contains` of the filter, which an empty one skips. -/
def Query.passes (q : Query) (value : List UInt8) : Bool :=
  q.filter.isEmpty || decide (q.filter <:+: value)

/-- `memtable::IntoIterFiltered`. -/
structure IntoIterFiltered where
  inner : List Record
  query : Query

namespace IntoIterFiltered

/-- What `next` checks of a record. -/
def keeps (q : Query) (r : Record) : Bool :=
  match r.extractAllFieldsRef with
  | .error _ => false
  | .ok f =>
    f.sourceId == q.sourceId && decide (q.startTs ≤ f.timestamp) && decide (f.timestamp < q.endTs) &&
      f.key == q.key && q.passes f.value

/-- The loop of `IntoIterFiltered::next`. -/
def nextIn (q : Query) : List Record → Option Record × List Record
  | [] => (none, [])
  | r :: rs => if keeps q r then (some r, rs) else nextIn q rs

/-- `IntoIterFiltered::next`. -/
def next (it : IntoIterFiltered) : Option Record × IntoIterFiltered :=
  let (r, inner) := nextIn it.query it.inner
  (r, { it with inner })

end IntoIterFiltered

end LG.Impl.Core
