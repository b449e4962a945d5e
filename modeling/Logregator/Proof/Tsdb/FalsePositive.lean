import Logregator.Proof.Tsdb.Drawn
import Logregator.Proof.Tsdb.Log
import Logregator.Proof.Tsdb.Table

/-!
# Queries for a stream that a table does not have

Where the filter of a table wrongly lets a stream through, a query opens a
cursor for it. That works as long as the table has a later stream; past the
last one the search ends behind the last block, and reading that block is an
error (`false_positive_opens_iff`).
-/

namespace LG.Proof.Tsdb

open LG.Impl.Tsdb LG.Spec.Tsdb

section

variable {x : Externals} {h : SstHandle} {blocks : List (List Record)}

/-- The cursor can be advanced: it stands in a block, or it is in error. -/
def Placed (x : Externals) (blocks : List (List Record)) (h : SstHandle) (c : SstCursor) : Prop :=
  (∃ bounds i b j, blocks[i]? = some b ∧ c.next x h = (sstAt bounds i b j).next x h) ∨
    ∃ e, c.blockCursor = .error e

theorem Placed.next (hst : Stored x h blocks) {c : SstCursor} (hc : Placed x blocks h c) :
    ∃ c', c.next x h = some c' ∧ Placed x blocks h c'.takeCurrent.2 := by
  have hplaced (bounds : Bound Key × Bound Key) {i : Nat} {b : List Record} (j : Nat)
      (hb : blocks[i]? = some b) : Placed x blocks h (sstAt bounds i b j).takeCurrent.2 :=
    .inl ⟨bounds, i, b, j, hb, next_takeCurrent x h _⟩
  rcases hc with ⟨bounds, i, b, j, hb, hnext⟩ | ⟨e, he⟩
  · rw [hnext]
    by_cases hj : j + 1 < b.length
    · exact ⟨_, next_inside hst hb hj, hplaced bounds (j + 1) hb⟩
    · refine ⟨_, next_block hst hb (not_lt.mp hj), ?_⟩
      unfold afterBlock
      split
      · rename_i b' hb'
        split
        · exact hplaced bounds 0 hb'
        · exact .inr ⟨_, rfl⟩
      · exact .inr ⟨_, rfl⟩
  · refine ⟨c, by rw [SstCursor.next, he], .inr ⟨e, ?_⟩⟩
    rw [SstCursor.takeCurrent, he]
    exact he

/-- A cursor for a stream that the filter lets through opens just when the
table has a record of that stream or a later one. -/
theorem cursor_opens_iff (hst : Stored x h blocks) (hasc : Ascending blocks) {k : Key}
    (hmay : h.mayContainStreamId x k.streamId = some true) (hi : Bound Key) :
    (∃ c, h.cursor x (some (.included k, hi)) = .ok c) ↔
      ∃ r ∈ blocks.flatten, k.streamId ≤ r.key.streamId := by
  rw [← startBlock_lt_iff hasc hst.nonempty, SstHandle.cursor, Option.getD_some]
  constructor
  · rintro ⟨c, hc⟩
    obtain ⟨b, j, hb, -⟩ := new_eq_ok hst hasc hc
    exact (List.getElem?_eq_some_iff.mp hb).1
  · intro hlt
    have hidx : SstCursor.startBlockIdx x h (.included k) = .ok (startBlock k.streamId blocks) :=
      blockIdxForStreamId_eq hst hasc hmay
    obtain ⟨j, hj, -⟩ := new_eq hst hasc hi hidx (List.getElem?_eq_getElem hlt)
    exact ⟨_, hj⟩

/-- A merge with at most one table builds when its cursor, if it has one, can
be advanced. -/
theorem fillFromAll_placed (hst : Stored x h blocks) (hp : RecordHeap) (memtables : List (List Record))
    {cursors : List (SstHandle × SstCursor)}
    (hc : ∀ p ∈ cursors, p.1 = h ∧ Placed x blocks h p.2) :
    ∃ m, MergeIter.fillFromAll x (⟨⟨memtables, cursors⟩, hp.empty⟩ : MergeIter hp) = some m := by
  refine exists_fillAll (fun s => s.memtables.length = memtables.length ∧
    s.cursors.length = cursors.length ∧ ∀ p ∈ s.cursors, p.1 = h ∧ Placed x blocks h p.2) ?_
    (fun _ hi => hi) ⟨rfl, rfl, hc⟩
  rintro s i ⟨hm, hlen, hs⟩ hi
  rcases List.mem_append.mp hi with hi | hi
  · obtain ⟨j, hj, rfl⟩ := List.mem_map.mp hi
    have hj : j < s.memtables.length := hm ▸ List.mem_range.mp hj
    cases hr : s.memtables[j] with
    | nil => exact ⟨none, s, by simp [Sources.draw, hj, hr], hm, hlen, hs⟩
    | cons r rest =>
      exact ⟨some r, { s with memtables := s.memtables.set j rest }, by simp [Sources.draw, hj, hr],
        by simp [hm], hlen, hs⟩
  · obtain ⟨j, hj, rfl⟩ := List.mem_map.mp hi
    have hj : j < s.cursors.length := hlen ▸ List.mem_range.mp hj
    obtain ⟨hh, hplaced⟩ := hs _ (List.getElem_mem hj)
    obtain ⟨c', hnext, hplaced'⟩ := hplaced.next hst
    rw [← hh] at hnext
    refine ⟨c'.takeCurrent.1, { s with cursors := s.cursors.set j (s.cursors[j].1, c'.takeCurrent.2) },
      by simp [Sources.draw, hj, hnext], hm, by simp [hlen], fun p hp => ?_⟩
    rcases List.mem_or_eq_of_mem_set hp with hp | rfl
    · exact hs p hp
    · exact ⟨hh, hplaced'⟩

/-- The cursors of a merge with one table. -/
theorem openCursors_one (k : Key) (hi : Bound Key) :
    MergeIter.openCursors x (.included k) hi [h] =
      match h.mayContainStreamId x k.streamId with
      | none => .panic
      | some false => .ok []
      | some true => h.cursor x (some (.included k, hi)) >>= fun c => .ok [(h, c)] := by
  rw [MergeIter.openCursors]
  rcases h.mayContainStreamId x k.streamId with _ | _ | _
  · rfl
  · rfl
  · rfl

/-- A merge with one table builds unless its cursor cannot be opened, or the
bounds are inverted, which panics in the memtables. -/
theorem merge_builds_iff (hst : Stored x h blocks) (hasc : Ascending blocks) (hp : RecordHeap)
    (active : MemtableInner) (frozen : List MemtableInner) (k : Key) (hi : Bound Key) :
    (∃ m, MergeIter.new x hp active frozen [h] (.included k) hi = .ok m) ↔
      Bound.inverted (.included k) hi = false ∧
        (h.mayContainStreamId x k.streamId = some false ∨
          h.mayContainStreamId x k.streamId = some true ∧
            ∃ r ∈ blocks.flatten, k.streamId ≤ r.key.streamId) := by
  constructor
  · rintro ⟨m, hm⟩
    obtain ⟨cursors, memtables, hopen, hmem, -⟩ := mergeNew_eq_ok hm
    refine ⟨?_, ?_⟩
    · by_contra hinv
      rw [List.mapM_cons, MemtableInner.range, OrdSet.range, if_pos (by simpa using hinv)] at hmem
      cases hmem
    · rw [openCursors_one] at hopen
      rcases hmay : h.mayContainStreamId x k.streamId with _ | _ | _
      · rw [hmay] at hopen
        cases hopen
      · exact .inl rfl
      · rw [hmay] at hopen
        obtain ⟨c, hc, -⟩ := Outcome.bind_eq_ok.mp hopen
        exact .inr ⟨rfl, (cursor_opens_iff hst hasc hmay hi).mp ⟨c, hc⟩⟩
  · rintro ⟨hinv, hcase⟩
    have hcursors : ∃ cursors, MergeIter.openCursors x (.included k) hi [h] = .ok cursors ∧
        ∀ p ∈ cursors, p.1 = h ∧ Placed x blocks h p.2 := by
      rw [openCursors_one]
      rcases hcase with hmay | ⟨hmay, hlater⟩
      · rw [hmay]
        exact ⟨[], rfl, by simp⟩
      · obtain ⟨c, hc⟩ := (cursor_opens_iff hst hasc hmay hi).mpr hlater
        obtain ⟨b, j, hb, rfl, -⟩ := new_eq_ok hst hasc hc
        rw [hmay, hc]
        refine ⟨[(h, _)], rfl, fun p hp => ?_⟩
        rw [List.mem_singleton.mp hp]
        exact ⟨rfl, .inl ⟨_, _, b, j, hb, rfl⟩⟩
    obtain ⟨cursors, hopen, hplaced⟩ := hcursors
    obtain ⟨m, hm⟩ := fillFromAll_placed hst hp
      ((active :: frozen).map fun m => m.set.between (.included k) hi) hplaced
    exact ⟨m, by simp only [MergeIter.new, hopen, mapM_range hinv, Outcome.expect, Outcome.bind_ok, hm]⟩

end

/-- A query for a stream that a written table does not have, where the filter
is any that knows the table's streams: the cursor that it asks for, because
the filter lets the stream through, opens just when the table has a later
stream, and then the merge is built. -/
theorem false_positive_opens_iff {x : Externals} {blockLimit : Option Nat} {count : Nat}
    {recs : List Record} {st : HashedWriterState} (h : writeBlocks x blockLimit count recs = .ok st)
    (hasc : recs.Pairwise fun a b => a.key < b.key) (id : UInt64) (tail : List UInt8)
    {bloom : BloomFilter} (hown : ∀ r ∈ recs, bloom.mayContain x r.key.streamId = some true)
    {s : UInt64} (habsent : ∀ r ∈ recs, r.key.streamId ≠ s) (hp : RecordHeap)
    (active : MemtableInner) (frozen : List MemtableInner) {lo : Key} (hlo : lo.streamId = s)
    (hi : Key) :
    (bloom.mayContain x s = some true →
      ((∃ c, { st.handle id tail with bloom := bloom }.cursor x
        (some (.included lo, .included hi)) = .ok c) ↔ ∃ r ∈ recs, s < r.key.streamId)) ∧
      ((∃ m, MergeIter.new x hp active frozen [{ st.handle id tail with bloom := bloom }]
          (.included lo) (.included hi) = .ok m) ↔
        lo ≤ hi ∧ (bloom.mayContain x s = some false ∨
          bloom.mayContain x s = some true ∧ ∃ r ∈ recs, s < r.key.streamId)) := by
  subst hlo
  have hstored := stored_writeBlocks h id tail
  have hblocks := ascending_pack hasc (blockLimit.getD defaultBlockSize)
  have hst : Stored x { st.handle id tail with bloom := bloom }
      (pack (blockLimit.getD defaultBlockSize) recs) :=
    { hstored with bloom := by rw [flatten_pack]; exact hown }
  have hlater : (∃ r ∈ (pack (blockLimit.getD defaultBlockSize) recs).flatten,
      lo.streamId ≤ r.key.streamId) ↔ ∃ r ∈ recs, lo.streamId < r.key.streamId := by
    rw [flatten_pack]
    refine exists_congr fun r => and_congr_right fun hr => ?_
    exact ⟨fun hle => lt_of_le_of_ne hle (Ne.symm (habsent r hr)), le_of_lt⟩
  have hinv : Bound.inverted (.included lo) (.included hi) = false ↔ lo ≤ hi := by
    simp [Bound.inverted]
  refine ⟨fun hmay => (cursor_opens_iff hst hblocks hmay _).trans hlater, ?_⟩
  rw [merge_builds_iff hst hblocks, hlater, hinv]
  rfl

/-- A table with one record of stream 1. -/
def streamOneTable : Outcome SstError HashedWriterState :=
  writeBlocks zeroHashes none 1 [shortRecord 1 1]

/-- A filter of eight bits, all set. -/
def allOnes : BloomFilter := { bitmap := [255], nBits := 8, nHashes := 1 }

theorem false_positive_opens_iff_below :
    ∃ st, streamOneTable = .ok st ∧ allOnes.mayContain zeroHashes 0 = some true ∧
      ((∃ c, { st.handle 0 [] with bloom := allOnes }.cursor zeroHashes
        (some (.included ⟨0, 0, 0, 0⟩, .included ⟨0, 9, 9, 9⟩)) = .ok c) ↔
          ∃ r ∈ [shortRecord 1 1], 0 < r.key.streamId) := by
  obtain ⟨st, hst⟩ := Outcome.isOk_iff.mp
    (show streamOneTable.isOk = true by decide +kernel)
  refine ⟨st, hst, by decide, ?_⟩
  exact (false_positive_opens_iff hst (by decide) 0 [] (by decide) (by decide) (.sortedList _ _)
    (.withSizeLimit 0 0) [] rfl _).1 (by decide)

/-- The table has stream 1 only, and the filter lets stream 2 through: a query
for stream 2 fails. -/
theorem false_positive_fails_query :
    ∃ st, streamOneTable = .ok st ∧
      (∀ r ∈ [shortRecord 1 1], allOnes.mayContain zeroHashes r.key.streamId = some true) ∧
      (∀ r ∈ [shortRecord 1 1], r.key.streamId ≠ 2) ∧
      { st.handle 0 [] with bloom := allOnes }.cursor zeroHashes
        (some (.included ⟨2, 0, 0, 0⟩, .included ⟨2, 9, 9, 9⟩)) = .err (.blockIdxOutOfBounds 1 1) ∧
      ¬ ∃ m, MergeIter.new zeroHashes (.sortedList _ _) (.withSizeLimit 0 0) []
        [{ st.handle 0 [] with bloom := allOnes }] (.included ⟨2, 0, 0, 0⟩)
        (.included ⟨2, 9, 9, 9⟩) = .ok m := by
  obtain ⟨st, hst⟩ := Outcome.isOk_iff.mp
    (show streamOneTable.isOk = true by decide +kernel)
  have hrun : (streamOneTable >>= fun st =>
      { st.handle 0 [] with bloom := allOnes }.cursor zeroHashes
        (some (.included ⟨2, 0, 0, 0⟩, .included ⟨2, 9, 9, 9⟩)) >>= fun _ => pure ()) =
      .err (.blockIdxOutOfBounds 1 1) := by decide +kernel
  rw [hst, Outcome.bind_ok] at hrun
  have he : { st.handle 0 [] with bloom := allOnes }.cursor zeroHashes
      (some (.included ⟨2, 0, 0, 0⟩, .included ⟨2, 9, 9, 9⟩)) = .err (.blockIdxOutOfBounds 1 1) :=
    Outcome.bind_pure_eq_err hrun
  refine ⟨st, hst, by decide, by decide, he, ?_⟩
  rintro ⟨m, hm⟩
  obtain ⟨cursors, memtables, hopen, -⟩ := mergeNew_eq_ok hm
  have hmay : { st.handle 0 [] with bloom := allOnes }.mayContainStreamId zeroHashes 2 =
    some true := show allOnes.mayContain zeroHashes 2 = some true by decide
  rw [openCursors_one, he] at hopen
  simp [hmay] at hopen

end LG.Proof.Tsdb
