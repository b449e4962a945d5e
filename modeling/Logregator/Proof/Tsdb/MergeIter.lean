import Logregator.Framework.Feeding
import Logregator.Impl.Tsdb.MergeIter

/-!
# The merge of memtables

Over memtables alone a `MergeIter` yields the records of all their ranges, in
ascending key order (`drains_memtables`): the ranges are sources in the sense
of the merge library (`sourced_memtables`).
-/

namespace LG.Proof.Tsdb

open LG.Impl.Tsdb

/-- What a memtable's range still has. -/
def restOf (s : Sources) : Source → List Record
  | .memtable i => s.memtables[i]?.getD []
  | .sst _ => []

theorem sourced_memtables (x : Externals) (n : Nat) :
    Sourced (Sources.draw x) restOf ((List.range n).map Source.memtable)
      fun s => s.memtables.length = n where
  nodup := List.nodup_range.map fun _ _ h => by cases h; rfl
  draw := by
    intro s i hn hi
    obtain ⟨j, hj, rfl⟩ := List.mem_map.mp hi
    have hj : j < s.memtables.length := by
      rw [hn]
      exact List.mem_range.mp hj
    have hget := List.getElem?_eq_getElem hj
    cases hr : s.memtables[j] with
    | nil =>
      refine ⟨s, by simp [Sources.draw, restOf, hget, hr], hn, by simp [restOf, hget, hr], ?_⟩
      exact fun _ _ => rfl
    | cons r rest =>
      refine ⟨{ s with memtables := s.memtables.set j rest },
        by simp [Sources.draw, restOf, hget, hr], by simp [hn], by simp [restOf, hr, hj], ?_⟩
      rintro (k | k) hk
      · have hne : j ≠ k := fun h => hk (h ▸ rfl)
        simp [restOf, List.getElem?_set_ne hne]
      · rfl

theorem flatMap_restOf (memtables : List (List Record)) (cursors : List (SstHandle × SstCursor)) :
    ((List.range memtables.length).map Source.memtable).flatMap (restOf ⟨memtables, cursors⟩) =
      memtables.flatten := by
  have hmap : (List.range memtables.length).map (fun i => memtables[i]?.getD []) = memtables := by
    refine List.ext_getElem (by simp) fun i h₁ h₂ => ?_
    simp [List.getElem?_eq_getElem h₂]
  rw [List.flatMap_map, List.flatMap_def]
  exact congrArg List.flatten hmap

theorem mapM_range {ms : List MemtableInner} {lo hi : Bound Key} (h : lo.inverted hi = false) :
    (ms.mapM fun m => m.range lo hi) = some (ms.map fun m => m.set.between lo hi) := by
  apply mapM_eq_some
  intro m _
  rw [MemtableInner.range, OrdSet.range, h]
  rfl

/-- What `MergeIter::new` builds: the cursors, the memtables' ranges, and the
first record drawn from each of them. -/
theorem mergeNew_eq_ok {x : Externals} {hp : RecordHeap} {active : MemtableInner}
    {frozen : List MemtableInner} {handles : List SstHandle} {lo hi : Bound Key} {m : MergeIter hp}
    (h : MergeIter.new x hp active frozen handles lo hi = .ok m) :
    ∃ cursors memtables, MergeIter.openCursors x lo hi handles = .ok cursors ∧
      ((active :: frozen).mapM fun m => m.range lo hi) = some memtables ∧
      MergeIter.fillFromAll x ⟨⟨memtables, cursors⟩, hp.empty⟩ = some m := by
  unfold MergeIter.new at h
  obtain ⟨cursors, hcursors, h⟩ := Outcome.bind_eq_ok.mp h
  obtain ⟨memtables, hmemtables, h⟩ := Outcome.bind_eq_ok.mp h
  exact ⟨cursors, memtables, hcursors, Outcome.expect_eq_ok.mp hmemtables,
    Outcome.expect_eq_ok.mp h⟩

/-- Merging memtables yields their ranges in key order. -/
theorem drains_memtables (x : Externals) (hp : RecordHeap) (active : MemtableInner)
    (frozen : List MemtableInner) {lo hi : Bound Key} (h : lo.inverted hi = false) :
    ∃ m, MergeIter.new x hp active frozen [] lo hi = .ok m ∧
      ∃ out, Drains (MergeIter.next x) m out ∧
        out.Perm ((active :: frozen).flatMap fun m => m.set.between lo hi) ∧
        out.Pairwise fun a b => a.key ≤ b.key := by
  let ranges := (active :: frozen).map fun m => m.set.between lo hi
  have hasc (i : Source) : (restOf ⟨ranges, []⟩ i).Pairwise fun a b => a.key ≤ b.key := by
    cases i with
    | sst i => exact .nil
    | memtable i =>
      rw [restOf]
      cases hr : ranges[i]? with
      | none => exact .nil
      | some r =>
        obtain ⟨m, -, rfl⟩ := List.mem_map.mp (List.mem_of_getElem? hr)
        exact (m.set.ascending_between lo hi).imp le_of_lt
  obtain ⟨m, hfill, out, hd, hperm, hsorted⟩ := drains_merge hp
    (sourced_memtables x ranges.length) (s := ⟨ranges, []⟩) rfl fun i _ => hasc i
  rw [flatMap_restOf] at hperm
  refine ⟨m, ?_, out, hd, hperm, hsorted⟩
  have hall : Sources.all ⟨ranges, []⟩ = (List.range ranges.length).map Source.memtable := by
    simp [Sources.all]
  simp only [MergeIter.new, MergeIter.openCursors, mapM_range h, MergeIter.fillFromAll,
    Outcome.expect, Outcome.bind_ok]
  rw [show (active :: frozen).map (fun m => m.set.between lo hi) = ranges from rfl, hall, hfill]

end LG.Proof.Tsdb
