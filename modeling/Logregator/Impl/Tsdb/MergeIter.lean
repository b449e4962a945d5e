import Logregator.Framework.Merge
import Logregator.Impl.Tsdb.Memtable
import Logregator.Impl.Tsdb.Sst

/-!
# Merging memtables and tables (`merge_iter.rs`)

`MergeIter` merges ranges of the memtables and cursors of the tables with a
heap of their next records. The heap is any that pops a least item; items
compare by their records, that is by key.
-/

namespace LG.Impl.Tsdb

/-- `merge_iter::Source`. -/
inductive Source where
  | memtable (idx : Nat)
  | sst (idx : Nat)
  deriving DecidableEq, Repr

/-- `BinaryHeap<Reverse<HeapItem>>`: an item is a record and its source. -/
abbrev RecordHeap := MinHeap (Record × Source) fun p => p.1.key

/-- The iterators a `MergeIter` draws from: what the memtables' ranges still
have, and the cursors with their tables. -/
structure Sources where
  memtables : List (List Record)
  cursors : List (SstHandle × SstCursor)

namespace Sources

/-- The sources, in the order `fill_from_all` draws them. -/
def all (s : Sources) : List Source :=
  (List.range s.memtables.length).map .memtable ++ (List.range s.cursors.length).map .sst

/-- What `fill_from_single` takes from a source: a cursor is advanced first,
and its record is taken. -/
def draw (x : Externals) (s : Sources) : Source → Option (Option Record × Sources)
  | .memtable idx => do
    match ← s.memtables[idx]? with
    | [] => return (none, s)
    | rec :: rest => return (some rec, { s with memtables := s.memtables.set idx rest })
  | .sst idx => do
    let (h, c) ← s.cursors[idx]?
    let c ← c.next x h
    let (rec, c) := c.takeCurrent
    return (rec, { s with cursors := s.cursors.set idx (h, c) })

end Sources

/-- `merge_iter::MergeIter`. -/
abbrev MergeIter (hp : RecordHeap) := Merge hp Sources

namespace MergeIter

variable {hp : RecordHeap}

/-- The cursors of `MergeIter::new`: a table whose filter excludes the start
bound's stream is skipped. -/
def openCursors (x : Externals) (start stop : Bound Key) :
    List SstHandle → Outcome SstError (List (SstHandle × SstCursor))
  | [] => .ok []
  | h :: hs => do
    let skip ← match start with
      | .included k => (Outcome.expect (h.mayContainStreamId x k.streamId)) >>= fun b => .ok (!b)
      | .excluded k => (Outcome.expect (h.mayContainStreamId x k.streamId)) >>= fun b => .ok (!b)
      | .unbounded => .ok false
    if skip then openCursors x start stop hs
    else do
      let c ← h.cursor x (some (start, stop))
      let cs ← openCursors x start stop hs
      return (h, c) :: cs

/-- `fill_from_all`. -/
def fillFromAll (x : Externals) (m : MergeIter hp) : Option (MergeIter hp) :=
  Merge.fillAll (Sources.draw x) m.sources.all m

/-- `MergeIter::new`. -/
def new (x : Externals) (hp : RecordHeap) (active : MemtableInner) (frozen : List MemtableInner)
    (handles : List SstHandle) (start stop : Bound Key) : Outcome SstError (MergeIter hp) := do
  let cursors ← openCursors x start stop handles
  let memtables ← .expect ((active :: frozen).mapM fun m => m.range start stop)
  .expect (fillFromAll x ⟨⟨memtables, cursors⟩, hp.empty⟩)

/-- `MergeIter::next`. -/
def next (x : Externals) (m : MergeIter hp) : Option (Option Record × MergeIter hp) :=
  Merge.next (Sources.draw x) m

end MergeIter

end LG.Impl.Tsdb
