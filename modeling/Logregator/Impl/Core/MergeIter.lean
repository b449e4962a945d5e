import Logregator.Framework.Distinct
import Logregator.Framework.Merge
import Logregator.Impl.Core.SSTable

/-!
# Merging the tiers (`storage/iter.rs`)

`MergeIter` merges the memtables' iterator with those of the tables, with a
heap of their next records, and leaves a record out that compares equal to the
last one. Source 0 is the memtables, source `n + 1` the `n`-th table. The heap
is any that pops a least item; that it compares records too short for their
key, and panics, is left out.
-/

namespace LG.Impl.Core

/-- `iter::RecordIter`. -/
inductive RecordIter where
  | filtered (iter : SSTableIterFiltered)
  | unfiltered (iter : SSTableIterUnfiltered)
  | inmem (rest : List Record)

namespace RecordIter

/-- `RecordIter::next`. -/
def next : RecordIter → Option (Option Record × RecordIter)
  | filtered iter => do
    let (r, iter) ← iter.next
    return (r, filtered iter)
  | unfiltered iter => do
    let (r, iter) ← iter.next
    return (r, unfiltered iter)
  | inmem rest => some (rest.head?, inmem rest.tail)

/-- No more records than this are still to come. -/
def bound : RecordIter → Nat
  | filtered iter => iter.file.length - iter.pos
  | unfiltered iter => iter.file.length - iter.pos
  | inmem rest => rest.length

end RecordIter

/-- `BinaryHeap<Reverse<HeapItem>>`: an item is a record and its source. -/
abbrev RecordHeap := MinHeap (Record × Nat) fun p => p.1.orderKey

/-- The iterators a `MergeIter` draws from. -/
structure Sources where
  memtable : Option IntoIterFiltered
  sstables : List RecordIter

namespace Sources

/-- What `refil` takes from a source: for source 0 without a memtable the
index underflows (`none`). -/
def draw (s : Sources) (sourceIdx : Nat) : Option (Option Record × Sources) :=
  match sourceIdx, s.memtable with
  | 0, some iter =>
    let (r, iter) := iter.next
    some (r, { s with memtable := some iter })
  | 0, none => none
  | n + 1, _ =>
    match s.sstables[n]? with
    | none => some (none, s)
    | some iter => do
      let (r, iter) ← iter.next
      return (r, { s with sstables := s.sstables.set n iter })

/-- The sources that `MergeIter::new` draws, in this order. -/
def all (s : Sources) : List Nat :=
  (if s.memtable.isSome then [0] else []) ++ (List.range s.sstables.length).map (· + 1)

/-- No more records than this are still to come. -/
def bound (s : Sources) : Nat :=
  (match s.memtable with
    | some iter => iter.inner.length
    | none => 0) + (s.sstables.map RecordIter.bound).sum

end Sources

/-- `iter::MergeIter`, with the record that it yielded last. -/
abbrev MergeIter (hp : RecordHeap) := Distinct (Merge hp Sources) Record

namespace MergeIter

variable {hp : RecordHeap}

/-- `MergeIter::new`. -/
def new (hp : RecordHeap) (memtable : Option IntoIterFiltered) (sstables : List RecordIter) :
    Option (MergeIter hp) := do
  let sources : Sources := { memtable, sstables }
  let merge ← Merge.fillAll Sources.draw sources.all (⟨sources, hp.empty⟩ : Merge hp Sources)
  return { inner := merge, last := none }

/-- No more records than this are still to come. -/
def bound (m : MergeIter hp) : Nat := (hp.items m.inner.heap).length + m.inner.sources.bound

/-- Whether `cmp` finds two records equal. -/
def same (prev rec : Record) : Option Bool := (prev.cmp rec).map (· == .eq)

/-- `MergeIter::next`. -/
def next (m : MergeIter hp) : Option (Option Record × MergeIter hp) :=
  Distinct.nextLoop (Merge.next Sources.draw) same (m.bound + 1) m

end MergeIter

end LG.Impl.Core
