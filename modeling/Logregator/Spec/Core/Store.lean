import Logregator.Impl.Core.Service

/-!
# What the service is for

The clients' store is the log of all inserts. An insert goes to its end; a range
asks for the inserts of a source and key, in a time range, whose value has the
filter in it (`Asked`), and returns their records in the order of time, those of
one time in the order of the log. `StoreApply` is the store that clients should
see, one call at a time.
-/

namespace LG.Spec.Core

open LG.Impl.Core LG.Impl.Core.Proto

/-- A range asks for the insert. -/
def Asked (r : Proto.Range) (i : Proto.Insert) : Prop :=
  i.sourceId = r.sourceId ∧ i.key = r.key ∧ r.startTs ≤ i.ts ∧ i.ts < r.endTs ∧
    r.filter.bytes <:+: i.value.bytes

instance (r : Proto.Range) (i : Proto.Insert) : Decidable (Asked r i) :=
  inferInstanceAs (Decidable (_ ∧ _ ∧ _ ∧ _ ∧ _))

/-- The record of a numbered insert. -/
def protoRecord (p : Proto.Insert × Nat) : Proto.Record :=
  { sourceId := p.1.sourceId, ts := p.1.ts, seq := UInt64.ofNat p.2, key := p.1.key
    value := p.1.value }

/-- The records of the inserts in a log, numbered from 1, that a range asks
for. -/
def askedRecords (log : List Proto.Insert) (r : Proto.Range) : List Proto.Record :=
  ((log.zipIdx 1).filter fun p => Asked r p.1).map protoRecord

/-- Records in the order of time, and at one time in the order of their
numbers. -/
def InTimeOrder (records : List Proto.Record) : Prop :=
  records.Pairwise fun a b => a.ts < b.ts ∨ a.ts = b.ts ∧ a.seq < b.seq

/-- What a range over a log returns. -/
def RangeAnswer (log : List Proto.Insert) (r : Proto.Range) (res : CallResult) : Prop :=
  if r.startTs > r.endTs then
    res = .failed (.server (.ofAscii "engine.range: end_ts cannot be smaller than start_ts"))
  else if r.startTs < 0 then
    res = .failed (.server (.ofAscii "engine.range: start_ts cannot be negative"))
  else ∃ v, res = .records v ∧ InTimeOrder v ∧ v.Perm (askedRecords log r)

/-- What a call on the store returns, and the log after it. -/
inductive StoreApply : List Proto.Insert → ClientMessage → CallResult → List Proto.Insert → Prop
  | insert {log i} : StoreApply log (.insert i) .done (log ++ [i])
  | batchInsert {log records} : StoreApply log (.batchInsert records) .done (log ++ records)
  | range {log r res} (h : RangeAnswer log r res) : StoreApply log (.range r) res log
  | metrics {log json} : StoreApply log .metrics (.json json) log
  | ping {log} : StoreApply log .ping .done log

/-- A message whose frame has a length of four bytes, as have those of the
records that it may bring: these have eight bytes for a sequence number too. -/
def Sendable (msg : ClientMessage) : Prop := (ClientCodec.body msg).length + 8 < 2 ^ 32

instance (msg : ClientMessage) : Decidable (Sendable msg) := inferInstanceAs (Decidable (_ < _))

/-- A move that is no call, or calls with a message that can be sent. -/
def CallsFit : ServiceMove → Prop
  | .conn _ (.call msg) => Sendable msg
  | _ => True

/-- A move of the service by itself: no client comes, calls or goes away, no
handler fails, and all I/O succeeds. -/
def OwnMove : ServiceMove → Prop
  | .accept _ => False
  | .conn _ (.call _) => False
  | .conn _ .lose => False
  | .conn _ .fail => False
  | .endTurn rotates => rotates = true
  | .finish _ succeeds => succeeds = true
  | _ => True

/-- Such a move where the channel of commands has a capacity. -/
def OwnStep {c : SSTableCode} (cfg : BackendConfig) (hp : RecordHeap) (capacity : Nat)
    (s : Service c) (events : List ServiceEvent) (s' : Service c) : Prop :=
  ∃ move, OwnMove move ∧ ServiceMove.exec cfg hp s move = some (s', events) ∧
    (s.queue.length < s'.queue.length → s'.queue.length ≤ capacity)

/-- The inserts of a call. -/
def insertsIn : ClientMessage → List Proto.Insert
  | .insert i => [i]
  | .batchInsert records => records
  | .range _ => []
  | .metrics => []
  | .ping => []

end LG.Spec.Core
