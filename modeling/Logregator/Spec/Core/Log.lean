import Logregator.Impl.Core.Backend

/-!
# The log of a run

What the engine is for: it numbers the inserts of a run, and a query asks for
those of a source and key, in a time range, whose value has the filter in it
(`Wanted`). Its records are documented to be ordered by source, time, sequence
number and key, in this order (`logicalKey`).
-/

namespace LG.Spec.Core

open LG.Impl.Core

/-- What records are ordered by. -/
abbrev LogicalKey := Int ×ₗ Int ×ₗ UInt64 ×ₗ List UInt8

/-- What a record made from these parts is ordered by: source and time are
signed. -/
def logicalKey (sourceId timestamp : Int64) (seqNum : UInt64) (key : List UInt8) : LogicalKey :=
  toLex (sourceId.toInt, toLex (timestamp.toInt, toLex (seqNum, key)))

/-- A query asks for the insert. -/
def Wanted (q : Query) (i : Insert) : Prop :=
  i.sourceId = q.sourceId ∧ i.key = q.key ∧ q.startTs ≤ i.ts ∧ i.ts < q.endTs ∧ q.filter <:+: i.value

instance (q : Query) (i : Insert) : Decidable (Wanted q i) :=
  inferInstanceAs (Decidable (_ ∧ _ ∧ _ ∧ _ ∧ _))

/-- The inserts of a step. -/
def insertsOf : Step → List Insert
  | .insert i => [i]
  | .batchInsert inserts => inserts
  | _ => []

/-- The inserts of a run, numbered from 1. -/
def inserted (steps : List Step) : List (Insert × Nat) := (steps.flatMap insertsOf).zipIdx 1

/-- The record of a numbered insert. -/
def recordAt (p : Insert × Nat) : Record := Engine.recordOf p.2 p.1

/-- A step in which all I/O succeeds, without a crash. -/
def Succeeds : Step → Prop
  | .sendFlush rotates => rotates = true
  | .finish _ succeeds => succeeds = true
  | .crash _ => False
  | _ => True

/-- A step of a run without a crash; I/O may fail. -/
def NoCrash : Step → Prop
  | .crash _ => False
  | _ => True

theorem Succeeds.noCrash {step : Step} (h : Succeeds step) : NoCrash step := by
  cases step <;> first | exact h | trivial

end LG.Spec.Core
