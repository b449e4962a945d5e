import Logregator.Impl.Tsdb.Io
import Logregator.Spec.Tsdb.Run

/-!
# A tree and the thread that flushes its memtables

The tree sends its frozen memtables to be flushed; the thread takes them in
this order, and the tables that it could write wait until the tree drains them.
Between the steps of the two anything may happen in any order. Of each memtable
the tree should read either its records or its table (`OneSource`).
-/

namespace LG.Spec.Tsdb

open LG.Impl.Tsdb

/-- A tree, the results of the flushes that the thread has handled, in order,
how many of them had come when the tree drained last, and the ids of the
memtables frozen so far. Of the flushes sent, the first `before` are not the
tree's. -/
structure System where
  tree : LsmTree
  before : Nat
  results : List (Option SstHandle)
  drained : Nat
  frozen : List UInt64

namespace System

/-- A tree that has frozen nothing. -/
def start (t : LsmTree) : System :=
  { tree := t, before := (flushes t.ioTx.sent).length, results := [], drained := 0, frozen := [] }

/-- What may happen next: a batch, a flush with what the disk makes of it, a
drain. -/
inductive Step where
  | append (b : Batch)
  | flush (disk : Except Error (List UInt8))
  | drain

/-- The table of a flush that succeeds. -/
def tableOf : Outcome Error SstHandle → Option SstHandle
  | .ok sst => some sst
  | _ => none

/-- The state after a step. -/
def exec (x : Externals) (fp : List Label → UInt64) (s : System) : Step → System
  | .append b =>
    let tree := (LsmTree.appendBatch fp b.1 b.2 s.tree).2
    let more := tree.frozenMemtables.drop s.tree.frozenMemtables.length
    { s with tree := tree, frozen := s.frozen ++ more.map MemtableInner.id }
  | .flush disk =>
    match (flushes s.tree.ioTx.sent)[s.before + s.results.length]? with
    | none => s
    | some payload => { s with results := s.results ++ [tableOf (flushMemtable x payload disk)] }
  | .drain =>
    { s with
      tree := s.tree.drainSstQueue (s.results.drop s.drained).reduceOption
      drained := s.results.length }

/-- The state after steps. -/
def run (x : Externals) (fp : List Label → UInt64) (steps : List Step) (s : System) : System :=
  steps.foldl (exec x fp) s

/-- Each memtable frozen so far is in exactly one of the two places. -/
def OneSource (s : System) : Prop :=
  ∀ id ∈ s.frozen, Xor (id ∈ s.tree.frozenMemtables.map MemtableInner.id)
    (id ∈ s.tree.sstHandles.map SstHandle.id)

/-- No flush has succeeded after one that failed. -/
def InOrder (s : System) : Prop := s.results.Pairwise fun o o' => o'.isSome → o.isSome

end System

end LG.Spec.Tsdb
