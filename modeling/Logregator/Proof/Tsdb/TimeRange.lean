import Logregator.Proof.Tsdb.Batch
import Logregator.Proof.Tsdb.Labeled
import Logregator.Proof.Tsdb.Log
import Mathlib.Data.Finset.Sort

/-!
# When a query panics

A tree without tables asks its memtables for the records between two keys,
which panics when the first is past the second. That is when the query starts
after its end (`bounds_inverted`), for every stream that the labels select, so
the query returns only if they select none (`range_panic`, `range_ok`).
-/

namespace LG.Proof.Tsdb

open LG.Impl.Tsdb LG.Impl.Tsdb.LsmTree LG.Spec.Tsdb

/-- Appending leaves the tables alone. -/
theorem keeps_ssts (fp : List Label → UInt64) (ssts : List SstHandle) :
    Keeps fp True fun _ _ t => t.sstHandles = ssts where
  register := fun h _ _ => h
  unfit := fun _ _ _ _ h _ => h
  number := fun h _ _ _ _ _ => h
  wal := fun h _ => h
  unlogged := fun h _ => h
  put := fun h _ => h
  refuse := fun h _ => h
  retry := fun h _ => h
  flush := fun h _ => h
  unsent := fun h _ => h
  fsync := fun h _ => h

/-! ## One query -/

section

variable (x : Externals) (hp : RecordHeap) {t : LsmTree} (hsst : t.sstHandles = [])
include hsst

theorem rangeStream_ok {startT endT : UInt64} (h : startT ≤ endT) (id : UInt64) :
    ∃ m, rangeStream x hp t id startT endT = .ok m := by
  have hinv := (bounds_inverted id startT endT).trans (decide_eq_false (not_lt.mpr h))
  obtain ⟨m, hm, -⟩ := drains_memtables x hp t.memtable t.frozenMemtables hinv
  rw [rangeStream, hsst]
  exact ⟨m, hm⟩

theorem rangeStream_panic {startT endT : UInt64} (h : endT < startT) (id : UInt64) :
    rangeStream x hp t id startT endT = .panic := by
  have hinv := (bounds_inverted id startT endT).trans (decide_eq_true h)
  have hrange : t.memtable.range (.included ⟨id, startT, 0, 0⟩)
      (.included ⟨id, endT, UInt64.ofNat (2 ^ 64 - 1), UInt64.ofNat (2 ^ 64 - 1)⟩) = none :=
    if_pos hinv
  rw [rangeStream, hsst, MergeIter.new, MergeIter.openCursors, Outcome.bind_ok,
    List.mapM_cons, hrange]
  rfl

theorem rangeStreams_ok {startT endT : UInt64} (h : startT ≤ endT) (ids : List UInt64) :
    ∃ ms, rangeStreams x hp t startT endT ids = .ok ms := by
  induction ids with
  | nil => exact ⟨[], rfl⟩
  | cons id ids ih =>
    obtain ⟨m, hm⟩ := rangeStream_ok x hp hsst h id
    obtain ⟨ms, hms⟩ := ih
    rw [rangeStreams, hm, Outcome.bind_ok, hms]
    exact ⟨m :: ms, rfl⟩

theorem rangeStreams_panic {startT endT : UInt64} (h : endT < startT) {ids : List UInt64}
    (hne : ids ≠ []) : rangeStreams x hp t startT endT ids = .panic := by
  cases ids with
  | nil => exact absurd rfl hne
  | cons id ids =>
    rw [rangeStreams, rangeStream_panic x hp hsst h]
    rfl

variable (iterOrder : Finset UInt64 → List UInt64) (labels : List Label)

theorem range_ok {startT endT : Option UInt64}
    (h : startT.getD 0 ≤ endT.getD (UInt64.ofNat (2 ^ 64 - 1))) :
    ∃ it, range x hp iterOrder t labels startT endT = .ok it := by
  obtain ⟨ms, hms⟩ := rangeStreams_ok x hp hsst h (iterOrder (t.streamReg.labelIntersection labels))
  rw [range, hms]
  exact ⟨_, rfl⟩

theorem range_panic {startT endT : Option UInt64}
    (h : endT.getD (UInt64.ofNat (2 ^ 64 - 1)) < startT.getD 0)
    (hne : iterOrder (t.streamReg.labelIntersection labels) ≠ []) :
    range x hp iterOrder t labels startT endT = .panic := by
  rw [range, rangeStreams_panic x hp hsst h hne]
  rfl

end

/-- A query that selects no stream returns an iterator without records. -/
theorem range_no_stream (x : Externals) (hp : RecordHeap)
    {iterOrder : Finset UInt64 → List UInt64} (t : LsmTree) {labels : List Label}
    (startT endT : Option UInt64)
    (h : iterOrder (t.streamReg.labelIntersection labels) = []) :
    ∃ it, range x hp iterOrder t labels startT endT = .ok it ∧
      Drains (LabeledIter.next x) it [] := by
  rw [range, h]
  exact ⟨_, rfl, drains_labeled t.streamReg .nil⟩

theorem iterOrder_eq_nil_iff {iterOrder : Finset UInt64 → List UInt64} (h : Iterates iterOrder)
    (s : Finset UInt64) : iterOrder s = [] ↔ s = ∅ := by
  rw [← List.toFinset_eq_empty_iff, (h s).2]

/-! ## Queries after runs -/

/-- After any batches on a tree without tables, a query does not panic, and
yields nothing if it ends before it starts, just when it does not end before it
starts or selects no stream. -/
theorem time_range_iff (x : Externals) (hp : RecordHeap) (fp : List Label → UInt64)
    {opts : LsmTreeOptions} (hsst : opts.sstHandles = []) {t₀ : LsmTree}
    (hnew : LsmTree.new opts = some t₀) (batches : List Batch)
    {iterOrder : Finset UInt64 → List UInt64} (hiter : Iterates iterOrder) (labels : List Label)
    (startT endT : Option UInt64) :
    (range x hp iterOrder (run fp batches t₀) labels startT endT ≠ .panic ∧
      (endT.getD (UInt64.ofNat (2 ^ 64 - 1)) < startT.getD 0 →
        ∀ it, range x hp iterOrder (run fp batches t₀) labels startT endT = .ok it →
          Drains (LabeledIter.next x) it [])) ↔
      startT.getD 0 ≤ endT.getD (UInt64.ofNat (2 ^ 64 - 1)) ∨
        (run fp batches t₀).streamReg.labelIntersection labels = ∅ := by
  have hssts : (run fp batches t₀).sstHandles = [] :=
    (keeps_ssts fp []).run batches ((new_eq_some hnew).ssts.trans hsst) (.inl trivial)
  have hnil := iterOrder_eq_nil_iff hiter ((run fp batches t₀).streamReg.labelIntersection labels)
  constructor
  · rintro ⟨hpanic, -⟩
    by_contra hcond
    rw [not_or, not_le, ← hnil] at hcond
    exact hpanic (range_panic x hp hssts iterOrder labels hcond.1 hcond.2)
  · rintro (hle | hempty)
    · obtain ⟨it, hok⟩ := range_ok x hp hssts iterOrder labels hle
      refine ⟨?_, fun hlt => absurd hlt (not_lt.mpr hle)⟩
      rw [hok]
      exact (Outcome.panic_ne_ok it).symm
    · obtain ⟨it, hok, hd⟩ := range_no_stream x hp (run fp batches t₀) startT endT (hnil.mpr hempty)
      rw [hok]
      refine ⟨(Outcome.panic_ne_ok it).symm, fun _ it' h => ?_⟩
      cases h
      exact hd

/-- The streams of a set in ascending order. -/
def ascendingIds (s : Finset UInt64) : List UInt64 := s.sort (· ≤ ·)

theorem iterates_ascendingIds : Iterates ascendingIds := fun s =>
  ⟨s.sort_nodup (· ≤ ·), s.sort_toFinset (· ≤ ·)⟩

/-- A batch with one payload, of the stream `a=b`. -/
def oneAB : List Batch := [(7, [([1, 1, 97, 1, 98, 7, 7], 5)])]

/-- A query for `a=b` from 9 to 3, after one record of it. -/
theorem time_range_panics : ∃ t₀, LsmTree.new (emptyOptions 60) = some t₀ ∧
    range zeroHashes (.sortedList _ _) ascendingIds (run (fun _ => 0) oneAB t₀)
      [(⟨[97], by decide⟩, ⟨[98], by decide⟩)] (some 9) (some 3) = .panic := by
  obtain ⟨t₀, hnew, hne⟩ : ∃ t₀, LsmTree.new (emptyOptions 60) = some t₀ ∧
      ascendingIds ((run (fun _ => 0) oneAB t₀).streamReg.labelIntersection
        [(⟨[97], by decide⟩, ⟨[98], by decide⟩)]) ≠ [] := ⟨_, rfl, by decide +kernel⟩
  have hssts : (run (fun _ => 0) oneAB t₀).sstHandles = [] :=
    (keeps_ssts _ []).run oneAB (new_eq_some hnew).ssts (.inl trivial)
  exact ⟨t₀, hnew, range_panic zeroHashes _ hssts ascendingIds _ (by decide) hne⟩

/-- The same query from 3 to 9. -/
theorem time_range_iff_one : ∃ t₀, LsmTree.new (emptyOptions 60) = some t₀ ∧
    range zeroHashes (.sortedList _ _) ascendingIds (run (fun _ => 0) oneAB t₀)
      [(⟨[97], by decide⟩, ⟨[98], by decide⟩)] (some 3) (some 9) ≠ .panic := by
  obtain ⟨t₀, hnew⟩ : ∃ t₀, LsmTree.new (emptyOptions 60) = some t₀ := ⟨_, rfl⟩
  have hiff := time_range_iff zeroHashes (.sortedList _ _) (fun _ => 0) rfl hnew oneAB
    iterates_ascendingIds [(⟨[97], by decide⟩, ⟨[98], by decide⟩)] (some 3) (some 9)
  exact ⟨t₀, hnew, (hiff.mpr (.inl (by decide))).1⟩

end LG.Proof.Tsdb
