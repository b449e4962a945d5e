import Logregator.Framework.Iter
import Logregator.Impl.Tsdb.Lsm
import Logregator.Proof.Tsdb.MergeIter

/-!
# What a query over several streams yields

`LabeledIter::next` takes the next merge only when it has none yet, and keeps
an exhausted one: the iterator ends with its first merge (`drains_labeled`).
It yields what all the merges yield just when the others are empty
(`labeled_concat_iff`).
-/

namespace LG.Proof.Tsdb

open LG.Impl.Tsdb

/-- A record with the label map of its stream. -/
def labeled (reg : StreamRegistry) (r : Record) : Option LabelMap × Record :=
  (reg.getLabelmapByStreamCloned r.key.streamId, r)

section

variable {x : Externals} {hp : RecordHeap}

/-- With a current merge the iterator yields what the merge yields. -/
theorem drains_current (reg : StreamRegistry) (iters : List (MergeIter hp)) {m : MergeIter hp}
    {out : List Record} (hd : Drains (MergeIter.next x) m out) :
    Drains (LabeledIter.next x) ⟨reg, iters, some m⟩ (out.map (labeled reg)) := by
  induction hd with
  | @done m m' h =>
    have hnext : LabeledIter.next x ⟨reg, iters, some m⟩ = some (none, ⟨reg, iters, some m'⟩) := by
      simp [LabeledIter.next, LabeledIter.nextOf, h]
    exact .done hnext
  | @step m m' r out h hd ih =>
    have hnext : LabeledIter.next x ⟨reg, iters, some m⟩ =
        some (some (labeled reg r), ⟨reg, iters, some m'⟩) := by
      simp [LabeledIter.next, LabeledIter.nextOf, h, labeled]
    exact .step hnext ih

/-- The iterator ends with its first merge. -/
theorem drains_labeled (reg : StreamRegistry) {iters : List (MergeIter hp)}
    {outs : List (List Record)} (hd : List.Forall₂ (Drains (MergeIter.next x)) iters outs) :
    Drains (LabeledIter.next x) (LabeledIter.new iters reg)
      ((outs.head?.getD []).map (labeled reg)) := by
  cases hd with
  | nil => exact .done rfl
  | @cons m out iters outs hm hd =>
    -- The first call takes the merge and goes on as from the state that has it.
    exact (drains_current reg iters hm).of_next_eq rfl

/-- The iterator yields the records of all its merges, in their order, just
when the merges after the first have none. -/
theorem labeled_concat_iff (reg : StreamRegistry) {iters : List (MergeIter hp)}
    {outs : List (List Record)} (hd : List.Forall₂ (Drains (MergeIter.next x)) iters outs) :
    Drains (LabeledIter.next x) (LabeledIter.new iters reg) (outs.flatten.map (labeled reg)) ↔
      ∀ out ∈ outs.tail, out = [] := by
  have hfirst := drains_labeled reg hd
  have hflat : outs.flatten = outs.head?.getD [] ++ outs.tail.flatten := by cases outs <;> simp
  constructor
  · intro hall
    have hlen := congrArg List.length (hall.unique hfirst)
    rw [List.length_map, List.length_map, hflat, List.length_append] at hlen
    exact List.flatten_eq_nil_iff.mp (List.length_eq_zero_iff.mp (by omega))
  · intro hempty
    rw [hflat, List.flatten_eq_nil_iff.mpr hempty, List.append_nil]
    exact hfirst

end

/-- The merge of one memtable with one record. -/
def oneRecordMerge (r : Record) : Outcome SstError (MergeIter (.sortedList _ _)) :=
  MergeIter.new zeroHashes _ ((MemtableInner.withSizeLimit 0 100).append r).2 [] [] .unbounded
    .unbounded

/-- Such a merge yields its record. -/
theorem drains_oneRecordMerge (r : Record) :
    ∃ m, oneRecordMerge r = .ok m ∧ Drains (MergeIter.next zeroHashes) m [r] := by
  have hinv : Bound.inverted (.unbounded : Bound Key) .unbounded = false := rfl
  obtain ⟨m, hm, out, hd, hperm, -⟩ := drains_memtables zeroHashes (.sortedList _ _)
    ((MemtableInner.withSizeLimit 0 100).append r).2 [] hinv
  have hset : ((MemtableInner.withSizeLimit 0 100).append r).2.set.elems = [r] := by
    rw [MemtableInner.append, if_neg (by simp [MemtableInner.withSizeLimit])]
    rfl
  simp only [List.flatMap_cons, List.flatMap_nil, List.append_nil, OrdSet.between, hset,
    Bound.startOk, Bound.endOk, and_self, decide_true, List.filter_true] at hperm
  exact ⟨m, hm, List.perm_singleton.mp hperm ▸ hd⟩

theorem labeled_concat_iff_two : ∃ m₁ m₂, oneRecordMerge ⟨⟨1, 1, 0, 0⟩, [7, 7]⟩ = .ok m₁ ∧
    oneRecordMerge ⟨⟨2, 1, 1, 0⟩, [8, 8]⟩ = .ok m₂ ∧
    (Drains (LabeledIter.next zeroHashes) (LabeledIter.new [m₁, m₂] .empty)
        ([⟨⟨1, 1, 0, 0⟩, [7, 7]⟩, ⟨⟨2, 1, 1, 0⟩, [8, 8]⟩].map (labeled .empty)) ↔
      ∀ out ∈ [[(⟨⟨2, 1, 1, 0⟩, [8, 8]⟩ : Record)]], out = []) := by
  obtain ⟨m₁, h₁, hd₁⟩ := drains_oneRecordMerge ⟨⟨1, 1, 0, 0⟩, [7, 7]⟩
  obtain ⟨m₂, h₂, hd₂⟩ := drains_oneRecordMerge ⟨⟨2, 1, 1, 0⟩, [8, 8]⟩
  exact ⟨m₁, m₂, h₁, h₂, labeled_concat_iff .empty (.cons hd₁ (.cons hd₂ .nil))⟩

/-- Two streams with a record each: the query yields the first record only. -/
theorem labeled_drops_second_stream : ∃ m₁ m₂, oneRecordMerge ⟨⟨1, 1, 0, 0⟩, [7, 7]⟩ = .ok m₁ ∧
    oneRecordMerge ⟨⟨2, 1, 1, 0⟩, [8, 8]⟩ = .ok m₂ ∧
    Drains (MergeIter.next zeroHashes) m₁ [⟨⟨1, 1, 0, 0⟩, [7, 7]⟩] ∧
    Drains (MergeIter.next zeroHashes) m₂ [⟨⟨2, 1, 1, 0⟩, [8, 8]⟩] ∧
    ¬ Drains (LabeledIter.next zeroHashes) (LabeledIter.new [m₁, m₂] .empty)
      ([⟨⟨1, 1, 0, 0⟩, [7, 7]⟩, ⟨⟨2, 1, 1, 0⟩, [8, 8]⟩].map (labeled .empty)) := by
  obtain ⟨m₁, h₁, hd₁⟩ := drains_oneRecordMerge ⟨⟨1, 1, 0, 0⟩, [7, 7]⟩
  obtain ⟨m₂, h₂, hd₂⟩ := drains_oneRecordMerge ⟨⟨2, 1, 1, 0⟩, [8, 8]⟩
  refine ⟨m₁, m₂, h₁, h₂, hd₁, hd₂, fun hall => ?_⟩
  have hfirst := drains_labeled .empty (.cons hd₁ (.cons hd₂ .nil))
  exact absurd (congrArg List.length (hall.unique hfirst)) (by decide)

end LG.Proof.Tsdb
