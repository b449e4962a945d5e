import Logregator.Impl.Tsdb.Label
import Logregator.Impl.Tsdb.MergeIter

/-!
# Queries over streams (`label.rs`)

`LabeledIter` goes through the merges of the streams that a query matches and
pairs each record with the label map of its stream. The registry behind its
lock is the one at the time of the query.
-/

namespace LG.Impl.Tsdb

/-- `label::LabeledIter`. -/
structure LabeledIter (hp : RecordHeap) where
  streamRegistry : StreamRegistry
  iters : List (MergeIter hp)
  current : Option (MergeIter hp)

namespace LabeledIter

variable {hp : RecordHeap}

/-- `LabeledIter::new`. -/
def new (iters : List (MergeIter hp)) (streamRegistry : StreamRegistry) : LabeledIter hp :=
  { iters, streamRegistry, current := none }

/-- The rest of `LabeledIter::next`, on the current merge. -/
def nextOf (x : Externals) (it : LabeledIter hp) (mr : MergeIter hp) :
    Option (Option (Option LabelMap × Record) × LabeledIter hp) := do
  let (rec, mr) ← mr.next x
  let it := { it with current := some mr }
  match rec with
  | some rec => return (some (it.streamRegistry.getLabelmapByStreamCloned rec.key.streamId, rec), it)
  | none => return (none, it)

/-- `LabeledIter::next`. -/
def next (x : Externals) (it : LabeledIter hp) :
    Option (Option (Option LabelMap × Record) × LabeledIter hp) :=
  match it.current with
  | some mr => it.nextOf x mr
  | none =>
    match it.iters with
    | [] => some (none, it)
    | mr :: iters => { it with iters := iters }.nextOf x mr

end LabeledIter

end LG.Impl.Tsdb
