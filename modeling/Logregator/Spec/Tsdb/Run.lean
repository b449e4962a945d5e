import Logregator.Spec.Tsdb.Log

/-!
# Runs of `append_batch`

A run is a list of batches that are appended in turn, whatever each call
returns: a call that fails midway leaves what it did before (`run`). `made`
are the records that the run made, each with the payload it came from.
`flushes` and `updates` are what a run sent to be flushed.
-/

namespace LG.Spec.Tsdb

open LG.Impl.Tsdb

/-- A payload with its source and the clock's reading. -/
abbrev Entry := UInt64 × List UInt8 × Int

/-- A source and the payloads of a batch, each with the clock's reading. -/
abbrev Batch := UInt64 × List (List UInt8 × Int)

/-- The tree after the batches. -/
def run (fp : List Label → UInt64) : List Batch → LsmTree → LsmTree
  | [], t => t
  | b :: batches, t => run fp batches (LsmTree.appendBatch fp b.1 b.2 t).2

/-- No call of the run panics. -/
def NoPanics (fp : List Label → UInt64) : List Batch → LsmTree → Prop
  | [], _ => True
  | b :: batches, t => (LsmTree.appendBatch fp b.1 b.2 t).1 ≠ .panic ∧
    NoPanics fp batches (LsmTree.appendBatch fp b.1 b.2 t).2

/-- The records that the loop of a batch made, up to the first failure. -/
def madeEach (fp : List Label → UInt64) (sourceId : UInt64) :
    List (List UInt8 × Int) → LsmTree → List (Entry × Record)
  | [], _ => []
  | (payload, now) :: rest, t =>
    match LsmTree.makeRecord fp sourceId payload now t with
    | (.ok rec, t) =>
      match LsmTree.storeRecord rec t with
      | (.ok _, t) => ((sourceId, payload, now), rec) :: madeEach fp sourceId rest t
      | _ => [((sourceId, payload, now), rec)]
    | _ => []

/-- The records that a run made, in order. -/
def made (fp : List Label → UInt64) : List Batch → LsmTree → List (Entry × Record)
  | [], _ => []
  | b :: batches, t =>
    madeEach fp b.1 b.2 t ++ made fp batches (LsmTree.appendBatch fp b.1 b.2 t).2

/-- The memtables of a tree, oldest first. -/
def memtables (t : LsmTree) : List MemtableInner := t.frozenMemtables ++ [t.memtable]

/-- The size of a memtable is that of its records, and over the limit only if
it holds a single one. -/
structure Accounted (limit : Nat) (m : MemtableInner) : Prop where
  size : m.sizeBytes = (m.set.elems.map Record.sizeOf).sum
  bounded : m.sizeBytes ≤ limit ∨ m.set.elems.length = 1

/-- The number of streams that a tree has registered. -/
def streamCount (t : LsmTree) : Nat := t.streamReg.streamByLabelmap.entries.length

/-- The flushes sent. -/
def flushes (events : List IoEvent) : List FlushMemtablePayload :=
  events.filterMap fun
    | .flushMemtable p => some p
    | _ => none

/-- The records of the memtables sent to be flushed. -/
def flushed (events : List IoEvent) : List Record :=
  (flushes events).flatMap fun p => p.memtable.set.elems

/-- The manifest entries sent with flushes. -/
def updates (events : List IoEvent) : List ManifestEntry :=
  (flushes events).flatMap fun p => p.manifestEntries

/-- The label maps of the updates of a stream. -/
def updatesFor (streamId : UInt64) (entries : List ManifestEntry) : List LabelMap :=
  entries.filterMap fun
    | .streamUpdate id labelmap => if id = streamId then some labelmap else none
    | _ => none

/-- A flush defines the streams of its records: of each record that was not in
`init` before the run, the label map of its payload is the one update of its
stream that was sent with this flush or before. -/
def Defines (fp : List Label → UInt64) (init : List Record) (made : List (Entry × Record))
    (pre : List IoEvent) (p : FlushMemtablePayload) : Prop :=
  ∀ r ∈ p.memtable.set.elems, r ∈ init ∨ ∃ e labelmap n, (e, r) ∈ made ∧
    decodeLabelMap fp e.2.1 = .ok (some (labelmap, n)) ∧
    updatesFor r.key.streamId (updates pre ++ p.manifestEntries) = [labelmap]

theorem made_append (fp : List Label → UInt64) (bs bs' : List Batch) (t : LsmTree) :
    made fp (bs ++ bs') t = made fp bs t ++ made fp bs' (run fp bs t) := by
  induction bs generalizing t with
  | nil => rfl
  | cons b bs ih => rw [List.cons_append, made, made, ih, List.append_assoc]; rfl

@[simp] theorem flushes_append (events events' : List IoEvent) :
    flushes (events ++ events') = flushes events ++ flushes events' :=
  List.filterMap_append

@[simp] theorem flushed_append (events events' : List IoEvent) :
    flushed (events ++ events') = flushed events ++ flushed events' := by
  simp [flushed]

@[simp] theorem updates_append (events events' : List IoEvent) :
    updates (events ++ events') = updates events ++ updates events' := by
  simp [updates]

end LG.Spec.Tsdb
