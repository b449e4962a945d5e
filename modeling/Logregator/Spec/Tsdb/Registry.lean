import Logregator.Impl.Tsdb.Label
import Mathlib.Data.Set.Insert

/-!
# What a stream registry stands for

A registry stands for a set of streams, each an id with a label map. No two
streams have one id or one label map.
-/

namespace LG.Spec.Tsdb

open LG.Impl.Tsdb

/-- The registry after these inserts. -/
def registryOf (inserts : List (UInt64 × LabelMap)) : StreamRegistry :=
  inserts.foldl (fun reg s => reg.insert s.1 s.2) .empty

/-- The stream's label map has the label. -/
def Carries (s : UInt64 × LabelMap) (l : Label) : Prop := l ∈ s.2.iter

/-- Some stream carries the label. -/
def Carried (streams : Set (UInt64 × LabelMap)) (l : Label) : Prop := ∃ s ∈ streams, Carries s l

/-- The two derived maps hold what follows from the streams, and nothing
else. -/
structure Indexed (reg : StreamRegistry) (streams : Set (UInt64 × LabelMap)) : Prop where
  stream : ∀ id lm, reg.streamByLabelmap.lookup lm = some id ↔ (id, lm) ∈ streams
  kv_nonempty : ∀ {l ids}, reg.kvIndex.lookup l = some ids → ids.Nonempty
  mem_kv : ∀ l id, id ∈ (reg.kvIndex.lookup l).getD ∅ ↔
    ∃ lm, (id, lm) ∈ streams ∧ Carries (id, lm) l

/-- The registry stands for these streams. -/
structure Registers (reg : StreamRegistry) (streams : Set (UInt64 × LabelMap)) : Prop
    extends Indexed reg streams where
  labelmap : ∀ id lm, reg.labelmapByStream.lookup id = some lm ↔ (id, lm) ∈ streams

end LG.Spec.Tsdb
