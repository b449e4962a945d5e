import Logregator.Impl.Core.Backend
import Mathlib.Data.List.ReduceOption

/-!
# The jobs of a run

What a run takes ids for (`taken`), and what fails in the worker (`failures`).
The tables that the engine marks as being compacted should be those of the
compactions that run (`MarksMatch`).
-/

namespace LG.Spec.Core

open LG.Impl.Core

variable {c : SSTableCode} {α : Type}

/-- What the steps of a run give, one after the other. -/
def along (f : System c → Step → System c → List α) (hp : RecordHeap) : System c → List Step → List α
  | _, [] => []
  | s, step :: steps =>
    match step.exec hp s with
    | none => []
    | some s' => f s step s' ++ along f hp s' steps

/-- The id of a flush. -/
def flushId : IoCommand c → Option Nat
  | .flushMemtable _ id => some id
  | _ => none

/-- The flush sent for each id that a step takes from the counter, if one is. -/
def takenBy (s : System c) (_ : Step) (s' : System c) : List (Option Nat) :=
  if s'.engine.sstCounter = s.engine.sstCounter then []
  else [(s'.cmds.drop s.cmds.length).findSome? flushId]

/-- The ids taken in a run, `none` where no flush was sent. -/
def taken (hp : RecordHeap) : System c → List Step → List (Option Nat) := along takenBy hp

/-- The ids of the flushes that a run sends. -/
def flushes (hp : RecordHeap) (s : System c) (steps : List Step) : List Nat :=
  (taken hp s steps).reduceOption

/-- All ids taken before a flush that is not the first are those of flushes. -/
def FlushesOnly (ids : List (Option Nat)) : Prop :=
  ∀ pre id post, ids = pre ++ some id :: post → pre.reduceOption ≠ [] → none ∉ pre

/-- The task that fails in a step. -/
def failedBy (s : System c) (step : Step) (_ : System c) : List (IoCommand c) :=
  match step with
  | .finish i false => s.tasks[i]?.toList
  | _ => []

/-- The tasks that fail in a run. -/
def failures (hp : RecordHeap) : System c → List Step → List (IoCommand c) := along failedBy hp

/-- The command is a compaction. -/
def IsCompaction : IoCommand c → Prop
  | .compactSSTables _ _ => True
  | _ => False

/-- The ids of the tables that a command compacts. -/
def inputIds : IoCommand c → List Nat
  | .compactSSTables tables _ => tables.map fun table => table.id
  | _ => []

/-- The tables marked are those that running compactions have for input, each
of one compaction; all others may be chosen for the next one. -/
structure MarksMatch (s : System c) : Prop where
  marks : ∀ id, id ∈ s.engine.compacting ↔ id ∈ s.tasks.flatMap inputIds
  once : (s.tasks.flatMap inputIds).Nodup
  eligible : ∀ p ∈ s.engine.sstableMap.elems, p.1 ∉ s.tasks.flatMap inputIds →
    p.2 ∈ s.engine.getOldestMetas s.engine.sstableMap.elems.length

end LG.Spec.Core
