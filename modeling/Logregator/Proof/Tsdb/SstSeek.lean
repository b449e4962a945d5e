import Logregator.Proof.Tsdb.Table

/-!
# Searching a table

`SstCursor::seek` hands `binary_search_by` a comparison that is the wrong way
round: it says where the key lies with respect to the block (`sideOf`). In the
blocks of a table in ascending order the search then finds the last block, if
the key is in it and no more than one block stands before it, and no other
(`seek_stored`).
-/

namespace LG.Proof.Tsdb

open LG.Impl.Tsdb LG.Spec.Tsdb

/-- Where a key lies: before the block, in it or after it. -/
def sideOf (k : Key) (m : BlockMetadata) : Ordering :=
  if k < m.firstKey then .lt else if m.lastKey < k then .gt else .eq

theorem sideOf_eq_gt {k : Key} {m : BlockMetadata} (h : sideOf k m = .gt) : m.lastKey < k := by
  unfold sideOf at h
  split at h
  · cases h
  · split at h
    · assumption
    · cases h

theorem sideOf_eq_eq {k : Key} {m : BlockMetadata} (h : sideOf k m = .eq) :
    m.firstKey ≤ k ∧ k ≤ m.lastKey := by
  unfold sideOf at h
  split at h
  · cases h
  · split at h
    · cases h
    · exact ⟨not_lt.mp ‹_›, not_lt.mp ‹_›⟩

theorem sideOf_of_lt {k : Key} {m : BlockMetadata} (h : k < m.firstKey) : sideOf k m = .lt :=
  if_pos h

theorem sideOf_ne_gt {k : Key} {m : BlockMetadata} :
    sideOf k m ≠ .gt ↔ k < m.firstKey ∨ k ≤ m.lastKey := by
  unfold sideOf
  split
  · simp [*]
  · split <;> simp_all

/-- The closure of `seek`, on the metadata of a block in order. -/
theorem compareMeta_eq (k : Key) {m : BlockMetadata} (hm : m.firstKey ≤ m.lastKey) :
    SstCursor.compareMeta k m = .ok (sideOf k m) := by
  unfold SstCursor.compareMeta sideOf
  rcases lt_trichotomy k m.firstKey with hf | hf | hf
  · rw [compare_lt_iff_lt.mpr hf, compare_lt_iff_lt.mpr (hf.trans_le hm), if_pos hf]
  · rw [compare_eq_iff_eq.mpr hf, if_neg (hf ▸ lt_irrefl _), if_neg (not_lt.mpr (hf ▸ hm))]
  · rw [compare_gt_iff_gt.mpr hf, if_neg (not_lt.mpr hf.le)]
    rcases lt_trichotomy k m.lastKey with hl | hl | hl
    · rw [compare_lt_iff_lt.mpr hl, if_neg (not_lt.mpr hl.le)]
    · rw [compare_eq_iff_eq.mpr hl, if_neg (hl ▸ lt_irrefl _)]
    · rw [compare_gt_iff_gt.mpr hl, if_pos hl]

theorem MetaOf.le_lastKey {m : BlockMetadata} {b : List Record} (hm : MetaOf m b)
    (hb : b.Pairwise fun a b => a.key < b.key) {r : Record} (hr : r ∈ b) : r.key ≤ m.lastKey := by
  obtain ⟨l, hl, hk⟩ := Option.map_eq_some_iff.mp hm.last
  exact hk ▸ le_last hb hl hr

theorem MetaOf.exists_last {m : BlockMetadata} {b : List Record} (hm : MetaOf m b) :
    ∃ r ∈ b, r.key = m.lastKey := by
  obtain ⟨l, hl, hk⟩ := Option.map_eq_some_iff.mp hm.last
  exact ⟨l, List.mem_of_mem_getLast? hl, hk⟩

theorem MetaOf.exists_first {m : BlockMetadata} {b : List Record} (hm : MetaOf m b) :
    ∃ r ∈ b, r.key = m.firstKey := by
  obtain ⟨f, hf, hk⟩ := Option.map_eq_some_iff.mp hm.first
  exact ⟨f, List.mem_of_mem_head? hf, hk⟩

/-- Where a key lies with respect to block `i`. -/
def sideAt (metas : List BlockMetadata) (k : Key) (i : Nat) : Ordering :=
  match metas[i]? with
  | some m => sideOf k m
  | none => .lt

theorem sideAt_eq {metas : List BlockMetadata} {k : Key} {i : Nat} {m : BlockMetadata}
    (hm : metas[i]? = some m) : sideAt metas k i = sideOf k m := by
  simp only [sideAt, hm]

/-- A search that ends behind the last block. -/
theorem seekBlock_past (x : Externals) (h : SstHandle) (c : SstCursor) (k : Key) :
    c.seekBlock x h k h.blockMetadata.length =
      some { c with
        blockIdx := h.blockMetadata.length
        blockCursor :=
          .error (.blockIdxOutOfBounds h.blockMetadata.length h.blockMetadata.length) } := by
  rw [SstCursor.seekBlock, SstCursor.updateCurrent, if_pos le_rfl]
  rfl

section

variable {x : Externals} {h : SstHandle} {blocks : List (List Record)} (hst : Stored x h blocks)
include hst

theorem metaOf_getElem? {i : Nat} {m : BlockMetadata} (hm : h.blockMetadata[i]? = some m) :
    ∃ b, blocks[i]? = some b ∧ MetaOf m b := by
  obtain ⟨hlt, rfl⟩ := List.getElem?_eq_some_iff.mp hm
  have hlt' : i < blocks.length := hst.metas.length_eq ▸ hlt
  exact ⟨_, List.getElem?_eq_getElem hlt', (List.forall₂_iff_get.mp hst.metas).2 i hlt hlt'⟩

variable (hasc : Ascending blocks)
include hasc

theorem metas_apart : h.blockMetadata.Pairwise fun m m' => m.lastKey < m'.firstKey := by
  refine pairwise_of_forall₂ (fun m b m' b' hm hm' hbb' => ?_) hst.metas hasc.across
  obtain ⟨r, hr, hk⟩ := hm.exists_last
  obtain ⟨r', hr', hk'⟩ := hm'.exists_first
  exact hk ▸ hk' ▸ hbb' r hr r' hr'

theorem firstKey_le_lastKey {i : Nat} {m : BlockMetadata} (hm : h.blockMetadata[i]? = some m) :
    m.firstKey ≤ m.lastKey := by
  obtain ⟨b, hb, hmb⟩ := metaOf_getElem? hst hm
  obtain ⟨r, hr, hk⟩ := hmb.exists_first
  exact hk ▸ hmb.le_lastKey (hasc.block (List.mem_of_getElem? hb)) hr

/-- A search that ends in a block. -/
theorem seekBlock_eq {i : Nat} {b : List Record} (hb : blocks[i]? = some b) (c : SstCursor)
    (k : Key) : ∃ j, c.seekBlock x h k i =
        some { c with blockIdx := i, blockCursor := .ok (cursorAt b j) } ∧
      (∀ r ∈ b.take j, r.key < k) ∧ ∀ r ∈ b.drop j, k ≤ r.key := by
  have hmem := List.mem_of_getElem? hb
  obtain ⟨j, hj, hbefore, hafter⟩ := seek_blockOf (hst.storable b hmem) (hasc.block hmem)
    (c := cursorAt b 0) rfl k
  refine ⟨j, ?_, hbefore, hafter⟩
  rw [SstCursor.seekBlock, updateCurrent_sst hst hb rfl]
  simp [hj]

omit hst in
/-- The least key of the last block that is not below `k` is the least of all,
if the block starts at or below `k`. -/
theorem least_flatten {i : Nat} {b : List Record} {k : Key} {r : Record} (hb : blocks[i]? = some b)
    (hlast : i + 1 = blocks.length) (hfirst : ∃ f ∈ b, f.key ≤ k) (hr : Least k b (some r)) :
    Least k blocks.flatten (some r) := by
  obtain ⟨hlt, rfl⟩ := List.getElem?_eq_some_iff.mp hb
  obtain ⟨hmem, hk, hle⟩ := hr
  refine ⟨List.mem_flatten_of_mem (List.getElem_mem hlt) hmem, hk, fun q hq hkq => ?_⟩
  obtain ⟨b', hb', hq⟩ := List.mem_flatten.mp hq
  obtain ⟨i', hi', rfl⟩ := List.mem_iff_getElem.mp hb'
  rcases Nat.lt_or_ge i' i with hlt' | hge
  · -- A record of an earlier block lies below the key.
    obtain ⟨f, hf, hfk⟩ := hfirst
    have hqf := List.pairwise_iff_getElem.mp hasc.across i' i hi' hlt hlt' q hq f hf
    exact absurd (hqf.trans_le hfk) (not_lt.mpr hkq)
  · obtain rfl : i' = i := by omega
    exact hle q hq hkq

variable {k : Key} (hk : ∃ r ∈ blocks.flatten, k ≤ r.key)

theorem sideAt_of_lt {i j : Nat} (hij : i < j) (hj : j < h.blockMetadata.length)
    (hi : sideAt h.blockMetadata k i ≠ .gt) : sideAt h.blockMetadata k j = .lt := by
  have hmi := List.getElem?_eq_getElem (hij.trans hj)
  rw [sideAt_eq hmi] at hi
  rw [sideAt_eq (List.getElem?_eq_getElem hj)]
  have hle : k ≤ (h.blockMetadata[i]).lastKey := by
    rcases sideOf_ne_gt.mp hi with hlt | hle
    · exact hlt.le.trans (firstKey_le_lastKey hst hasc hmi)
    · exact hle
  exact sideOf_of_lt (hle.trans_lt
    (List.pairwise_iff_getElem.mp (metas_apart hst hasc) i j (hij.trans hj) hj hij))

include hk

/-- The last block is not before a key that is not above every record's. -/
theorem sideAt_last : 0 < h.blockMetadata.length ∧
    sideAt h.blockMetadata k (h.blockMetadata.length - 1) ≠ .gt := by
  obtain ⟨r, hr, hkr⟩ := hk
  obtain ⟨b, hb, hr⟩ := List.mem_flatten.mp hr
  obtain ⟨i, hi, rfl⟩ := List.mem_iff_getElem.mp hb
  have hlen := hst.metas.length_eq
  have hi' : i < h.blockMetadata.length := by omega
  have hm := (List.forall₂_iff_get.mp hst.metas).2 i hi' hi
  have hle := hkr.trans (hm.le_lastKey (hasc.block hb) hr)
  refine ⟨by omega, ?_⟩
  rcases Nat.eq_or_lt_of_le (Nat.le_sub_one_of_lt hi') with heq | hlt
  · rw [← heq, sideAt_eq (List.getElem?_eq_getElem hi'), sideOf_ne_gt]
    exact .inr hle
  · rw [sideAt_of_lt hst hasc hlt (by omega)]
    · simp
    · rw [sideAt_eq (List.getElem?_eq_getElem hi'), sideOf_ne_gt]
      exact .inr hle

/-- The search over the blocks. -/
theorem search_metas :
    binarySearchM (fun i => do SstCursor.compareMeta k (← .expect h.blockMetadata[i]?))
        h.blockMetadata.length =
      .ok (if sideAt h.blockMetadata k (h.blockMetadata.length / 2) = .gt then .error 0
        else if sideAt h.blockMetadata k (h.blockMetadata.length - 1) = .eq then
          .ok (h.blockMetadata.length - 1)
        else .error h.blockMetadata.length) := by
  obtain ⟨hpos, hlast⟩ := sideAt_last hst hasc hk
  rw [← binarySearch_inverted hpos (fun i j => sideAt_of_lt hst hasc) hlast]
  refine binarySearchM_eq fun i hi => ?_
  have hm := List.getElem?_eq_getElem hi
  rw [hm, Outcome.expect_some, Outcome.bind_ok, compareMeta_eq k (firstKey_le_lastKey hst hasc hm),
    sideAt_eq hm]

/-- A key after the middle block: there are more than two blocks, and the key
is after the first one too. -/
theorem sideAt_first (hmid : sideAt h.blockMetadata k (h.blockMetadata.length / 2) = .gt) :
    2 < h.blockMetadata.length ∧ sideAt h.blockMetadata k 0 = .gt := by
  obtain ⟨hpos, hlast⟩ := sideAt_last hst hasc hk
  have hlong : h.blockMetadata.length / 2 < h.blockMetadata.length - 1 := by
    by_contra hge
    rw [show h.blockMetadata.length / 2 = h.blockMetadata.length - 1 by omega] at hmid
    exact hlast hmid
  refine ⟨by omega, ?_⟩
  by_contra hne
  have hfirst : 0 < h.blockMetadata.length / 2 := by omega
  rw [sideAt_of_lt hst hasc hfirst (by omega) hne] at hmid
  cases hmid

/-- A key that is not in the last block is before it. -/
theorem sideAt_last_eq_iff : sideAt h.blockMetadata k (h.blockMetadata.length - 1) = .eq ↔
    ∃ m ∈ h.blockMetadata.getLast?, m.firstKey ≤ k := by
  obtain ⟨hpos, hlast⟩ := sideAt_last hst hasc hk
  have hm := List.getElem?_eq_getElem (Nat.sub_one_lt_of_lt hpos)
  rw [sideAt_eq hm] at hlast ⊢
  rw [List.getLast?_eq_getElem?, hm]
  constructor
  · exact fun hin => ⟨_, rfl, (sideOf_eq_eq hin).1⟩
  · rintro ⟨m, hm', hfirst⟩
    cases hm'
    rw [sideOf, if_neg (not_lt.mpr hfirst), if_neg]
    exact not_lt.mpr ((sideOf_ne_gt.mp hlast).resolve_left (not_lt.mpr hfirst))

omit hk in
/-- A search that ends in the first block, for a key after it. -/
theorem seekBlock_first (hafter : sideAt h.blockMetadata k 0 = .gt) (c : SstCursor) :
    ∃ c', c.seekBlock x h k 0 = some c' ∧ ∀ r, c'.currentRecord = some r → r.key < k := by
  cases hm : h.blockMetadata[0]? with
  | none =>
    rw [sideAt, hm] at hafter
    cases hafter
  | some m =>
    rw [sideAt_eq hm] at hafter
    obtain ⟨b, hb, hmb⟩ := metaOf_getElem? hst hm
    obtain ⟨j, hj, -, -⟩ := seekBlock_eq hst hasc hb c k
    refine ⟨_, hj, fun r hr => ?_⟩
    have hle := hmb.le_lastKey (hasc.block (List.mem_of_getElem? hb)) (List.mem_of_getElem? hr)
    exact hle.trans_lt (sideOf_eq_gt hafter)

/-- A search that ends in the last block, for a key in it. -/
theorem seekBlock_last (hin : sideAt h.blockMetadata k (h.blockMetadata.length - 1) = .eq)
    (c : SstCursor) : ∃ c', c.seekBlock x h k (h.blockMetadata.length - 1) = some c' ∧
      ∃ r, c'.currentRecord = some r ∧ Least k blocks.flatten (some r) := by
  obtain ⟨hpos, -⟩ := sideAt_last hst hasc hk
  have hlen := hst.metas.length_eq
  have hm := List.getElem?_eq_getElem (Nat.sub_one_lt_of_lt hpos)
  obtain ⟨b, hb, hmb⟩ := metaOf_getElem? hst hm
  obtain ⟨j, hj, hbefore, hafter⟩ := seekBlock_eq hst hasc hb c k
  rw [sideAt_eq hm] at hin
  obtain ⟨hfirst, hle⟩ := sideOf_eq_eq hin
  have hleast := least_getElem? hbefore hafter (hasc.block (List.mem_of_getElem? hb))
  refine ⟨_, hj, ?_⟩
  cases hget : b[j]? with
  | none =>
    -- The last record of the block is not below the key.
    obtain ⟨l, hl, hlk⟩ := hmb.exists_last
    rw [hget] at hleast
    exact absurd (hlk ▸ hleast l hl) (not_lt.mpr hle)
  | some r =>
    rw [hget] at hleast
    obtain ⟨f, hf, hfk⟩ := hmb.exists_first
    exact ⟨r, hget, least_flatten hasc hb (by omega) ⟨f, hf, hfk ▸ hfirst⟩ hleast⟩

/-- A search that ended: the cursor is on the least key not below `k` just
when the table has no more than two blocks and the last one starts at or below
`k`. -/
theorem seek_stored (c : SstCursor) : ∃ c', c.seek x h k = some c' ∧
    ((∃ r, c'.currentRecord = some r ∧ Least k blocks.flatten (some r)) ↔
      h.blockMetadata.length ≤ 2 ∧ ∃ m ∈ h.blockMetadata.getLast?, m.firstKey ≤ k) := by
  rw [SstCursor.seek, search_metas hst hasc hk, ← sideAt_last_eq_iff hst hasc hk]
  by_cases hmid : sideAt h.blockMetadata k (h.blockMetadata.length / 2) = .gt
  · -- The search ends in the first block.
    obtain ⟨hlong, hafter⟩ := sideAt_first hst hasc hk hmid
    obtain ⟨c', hseek, hbelow⟩ := seekBlock_first hst hasc hafter c
    rw [if_pos hmid]
    refine ⟨c', hseek, iff_of_false ?_ fun hright => by omega⟩
    rintro ⟨r, hr, -, hkr, -⟩
    exact absurd (hbelow r hr) (not_lt.mpr hkr)
  rw [if_neg hmid]
  by_cases hin : sideAt h.blockMetadata k (h.blockMetadata.length - 1) = .eq
  · -- The search ends in the last block, which is the middle one or next to it.
    obtain ⟨c', hseek, hleast⟩ := seekBlock_last hst hasc hk hin c
    rw [if_pos hin]
    refine ⟨c', hseek, iff_of_true hleast ⟨?_, hin⟩⟩
    by_contra hlong
    rw [sideAt_of_lt hst hasc (by omega) (by omega) hmid] at hin
    cases hin
  · rw [if_neg hin]
    refine ⟨_, seekBlock_past x h c k, iff_of_false ?_ fun hright => hin hright.2⟩
    rintro ⟨r, hr, -⟩
    cases hr

end

/-- `SstCursor::seek` in a written table of ascending records, for a key that
is not above the last one, from any state of the cursor: it ends on the least
key that is not below it just when the table has no more than two blocks and
the key is not below the first key of the last one. -/
theorem sst_seek_iff {x : Externals} {blockLimit : Option Nat} {count : Nat} {recs : List Record}
    {st : HashedWriterState} (hst : writeBlocks x blockLimit count recs = .ok st)
    (hasc : recs.Pairwise fun a b => a.key < b.key) (id : UInt64) (tail : List UInt8) {k : Key}
    (hk : ∃ r ∈ recs.getLast?, k ≤ r.key) (c : SstCursor) :
    ∃ c', c.seek x (st.handle id tail) k = some c' ∧
      ((∃ r, c'.currentRecord = some r ∧ Least k recs (some r)) ↔
        st.blockMeta.length ≤ 2 ∧ ∃ m ∈ st.blockMeta.getLast?, m.firstKey ≤ k) := by
  obtain ⟨r, hr, hkr⟩ := hk
  have hmem : r ∈ (pack (blockLimit.getD defaultBlockSize) recs).flatten := by
    rw [flatten_pack]
    exact List.mem_of_mem_getLast? hr
  have hseek := seek_stored (stored_writeBlocks hst id tail) (ascending_pack hasc _)
    ⟨r, hmem, hkr⟩ c
  rwa [flatten_pack] at hseek

/-- Two blocks of one record, and the key of the second. -/
theorem sst_seek_iff_last_block :
    ∃ st c c', writeBlocks zeroHashes (some 0) 2 [shortRecord 1 1, shortRecord 1 2] = .ok st ∧
      (st.handle 0 []).cursor zeroHashes none = .ok c ∧
      c.seek zeroHashes (st.handle 0 []) (shortRecord 1 2).key = some c' ∧
      ((∃ r, c'.currentRecord = some r ∧
          Least (shortRecord 1 2).key [shortRecord 1 1, shortRecord 1 2] (some r)) ↔
        st.blockMeta.length ≤ 2 ∧
          ∃ m ∈ st.blockMeta.getLast?, m.firstKey ≤ (shortRecord 1 2).key) := by
  have hok : (writeBlocks zeroHashes (some 0) 2
      [shortRecord 1 1, shortRecord 1 2]).isOk = true := by decide
  obtain ⟨st, hst⟩ := Outcome.isOk_iff.mp hok
  obtain ⟨c, -, hc, -⟩ := scan_written hst 0 []
  obtain ⟨c', hseek, hiff⟩ := sst_seek_iff hst (by decide) 0 [] ⟨_, rfl, le_rfl⟩ c
  exact ⟨st, c, c', hst, hc, hseek, hiff⟩

/-- Two blocks of one record: a search for the first key ends behind the last
block. -/
theorem sst_seek_misses_first_block :
    [shortRecord 1 1, shortRecord 1 2].Pairwise (fun a b => a.key < b.key) ∧
    Least (shortRecord 1 1).key [shortRecord 1 1, shortRecord 1 2] (some (shortRecord 1 1)) ∧
    ∃ st c c', writeBlocks zeroHashes (some 0) 2 [shortRecord 1 1, shortRecord 1 2] = .ok st ∧
      (st.handle 0 []).cursor zeroHashes none = .ok c ∧
      c.seek zeroHashes (st.handle 0 []) (shortRecord 1 1).key = some c' ∧
      c'.isError = true ∧ c'.currentRecord = none := by
  have hrun : (do
      let st ← writeBlocks zeroHashes (some 0) 2 [shortRecord 1 1, shortRecord 1 2]
      let c ← (st.handle 0 []).cursor zeroHashes none
      let c' ← .expect (c.seek zeroHashes (st.handle 0 []) (shortRecord 1 1).key)
      return (c'.isError, c'.currentRecord)) = Outcome.ok (true, none) := by decide +kernel
  obtain ⟨st, hst, hrun⟩ := Outcome.bind_eq_ok.mp hrun
  obtain ⟨c, hc, hrun⟩ := Outcome.bind_eq_ok.mp hrun
  obtain ⟨c', hc', hrun⟩ := Outcome.bind_eq_ok.mp hrun
  rw [Outcome.expect_eq_ok] at hc'
  obtain ⟨herror, hnone⟩ := Prod.mk.inj (Outcome.ok.inj hrun)
  exact ⟨by decide, ⟨by decide, le_rfl, by decide⟩, st, c, c', hst, hc, hc', herror, hnone⟩

end LG.Proof.Tsdb
