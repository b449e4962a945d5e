import Logregator.Impl.Core.Backend
import Logregator.Spec.Core.Table

/-!
# Durability

A record whose WAL bytes reached a WAL file should stay on the disk, in a WAL
file or in a table (`NeverLoses`). A rotation renames the active WAL file over
the one with the next table's id, if there is one: `Spares` says that the
directory has the records of that file elsewhere.
-/

namespace LG.Spec.Core

open LG.Impl.Core

variable {c : SSTableCode}

/-- A WAL file has the record. -/
def InWal (disk : Disk) (r : Record) : Prop :=
  r ∈ disk.active ∨ ∃ p ∈ disk.wals.elems, r ∈ p.2

/-- A table's file has the record. -/
def InSst (ssts : OrdMap Nat (List UInt8)) (r : Record) : Prop :=
  ∃ p ∈ ssts.elems, ∃ recs tail, p.2 = walBytes recs ++ tail ∧ r ∈ recs

/-- The directory has the record. -/
def OnDisk (disk : Disk) (r : Record) : Prop := InWal disk r ∨ InSst disk.ssts r

/-- The steps of flushes and crashes: no compaction, and no I/O that fails. -/
def Flushes : Step → Prop
  | .sendFlush rotates => rotates = true
  | .finish _ succeeds => succeeds = true
  | .sendCompaction => False
  | _ => True

/-- In every state of a run, a record that was in a WAL file before is on the
disk. -/
def NeverLoses (hp : RecordHeap) (s : System c) (steps : List Step) : Prop :=
  ∀ as bs, as ++ bs <+: steps → ∀ s₁ s₂, Step.run hp s as = some s₁ → Step.run hp s₁ bs = some s₂ →
    ∀ r, InWal s₁.disk r → OnDisk s₂.disk r

/-- The id that `Engine::open` gives the next table. -/
def nextSstId (disk : Disk) : Nat := (disk.ssts.elems.map Prod.fst).foldl max 0 + 1

/-- The records of the WAL file with the id are also in the active WAL, in
another WAL file or in a table. -/
def Spares (disk : Disk) (walBuffer : List Record) (id : Nat) : Prop :=
  ∀ recs, (id, recs) ∈ disk.wals.elems → ∀ r ∈ recs, r ∈ disk.active ++ walBuffer ∨
    (∃ p ∈ disk.wals.elems, p.1 ≠ id ∧ r ∈ p.2) ∨ InSst disk.ssts r

/-- The rotation of a step, if there is one, spares what it replaces. -/
def SafeStep (s : System c) : Step → Prop
  | .sendFlush _ => s.engine.memtable.isEmpty = false →
    Spares s.disk s.engine.walBuffer s.engine.sstCounter
  | .crash _ => Spares s.disk [] (nextSstId s.disk)
  | _ => True

/-- A run of safe steps. -/
def SafeRun (hp : RecordHeap) : System c → List Step → Prop
  | _, [] => True
  | s, step :: steps => SafeStep s step ∧ ∀ s', step.exec hp s = some s' → SafeRun hp s' steps

/-- What is known of opening tables again: a table has the metadata with which
it was written, and the greatest number of its records is found. -/
def Reopens (c : SSTableCode) : Prop :=
  ∀ id recs hint, (∀ r ∈ recs, Made r) →
    Engine.openTable c id (c.writeToFile id recs hint).1 =
      .ok (Engine.maxSeq recs, (c.writeToFile id recs hint).2)

/-- The bytes of a WAL file: whole records, and maybe the length of the next
one. -/
def fileBytes (recs : List Record) : Option Record → List UInt8
  | none => walBytes recs
  | some r => walBytes recs ++ leBytes 8 r.len

/-- What `Wal::recover_all` finds in such a file: nothing, if it ends behind a
length. -/
def recoverable (recs : List Record) : Option Record → List Record
  | none => recs
  | some _ => []

/-- The number of records that a crash loses when the active file has `n` of
the buffer's: the others, but all since the file was begun if it ends behind a
length. -/
def lostAt (s : System c) (n : Nat) : Option Record → Nat
  | none => (s.engine.walBuffer.drop n).length
  | some _ => (s.disk.active ++ s.engine.walBuffer).length

end LG.Spec.Core
