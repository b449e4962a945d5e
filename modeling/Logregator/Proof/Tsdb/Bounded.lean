import Logregator.Proof.Tsdb.Cursor

/-!
# Cursors with bounds

Where a cursor with bounds starts: the search over the blocks' last streams
ends at `startBlock` (`searchList_metas`), and the cursor stands there on the
first record inside the start bound (`new_eq`, `new_eq_ok`).
-/

namespace LG.Proof.Tsdb

open LG.Impl.Tsdb LG.Spec.Tsdb

theorem streamId_le {k k' : Key} (h : k ≤ k') : k.streamId ≤ k'.streamId := by
  have h : k.fields ≤ k'.fields := h
  rcases Prod.Lex.le_iff.mp h with h | h
  · exact h.le
  · exact h.1.le

/-- There is a start block for a stream just when the table has a record of
it, or of a later one. -/
theorem startBlock_lt_iff {blocks : List (List Record)} (hasc : Ascending blocks)
    (hne : ∀ b ∈ blocks, b ≠ []) (s : UInt64) :
    startBlock s blocks < blocks.length ↔ ∃ r ∈ blocks.flatten, s ≤ r.key.streamId := by
  have hsub := List.takeWhile_prefix (l := blocks)
    (fun b => decide (∀ q ∈ b.getLast?, q.key.streamId ≤ s))
  unfold startBlock
  rcases Nat.lt_or_eq_of_le hsub.length_le with hlt | heq
  · -- The first block after the run ends in a later stream.
    refine iff_of_true (by dsimp only; split <;> omega) ?_
    by_contra hnone
    refine absurd (List.takeWhile_eq_self_iff.mpr fun b hb => ?_) (fun h => by rw [h] at hlt; omega)
    refine decide_eq_true fun q hq => le_of_lt (not_le.mp fun hle => hnone ⟨q, ?_, hle⟩)
    exact List.mem_flatten.mpr ⟨b, hb, List.mem_of_mem_getLast? hq⟩
  -- Every block ends in a stream up to `s`, so the last one has to end in it.
  have hall := hsub.eq_of_length heq
  rcases List.eq_nil_or_concat' blocks with rfl | ⟨init, last, rfl⟩
  · simp
  obtain ⟨t, l, rfl⟩ := (List.eq_nil_or_concat' last).resolve_left (hne last (by simp))
  have hl : l.key.streamId ≤ s := by
    have := List.takeWhile_eq_self_iff.mp hall (t ++ [l]) (by simp)
    simpa using this
  have hrl (r : Record) (hr : r ∈ (init ++ [t ++ [l]]).flatten) : r.key.streamId ≤ l.key.streamId :=
    streamId_le (le_last hasc (l := l) (by simp [List.flatten_append]) hr)
  rw [hall]
  constructor
  · intro hlt
    refine ⟨l, by simp, ?_⟩
    by_contra hls
    have hne : l.key.streamId ≠ s := fun h => hls h.ge
    simp [hne] at hlt
  · rintro ⟨r, hr, hsr⟩
    simp [le_antisymm hl (hsr.trans (hrl r hr))]

/-- `takeWhile` is the longest run from the start that satisfies the test. -/
theorem takeWhile_eq_take {α : Type} {p : α → Bool} : ∀ {l : List α} {n : Nat},
    (∀ a ∈ l.take n, p a = true) → (∀ a ∈ l.drop n, p a = false) → l.takeWhile p = l.take n
  | [], _, _, _ => by simp
  | a :: l, 0, _, h => by simp [h a (by simp)]
  | a :: l, n + 1, h, h' => by
    rw [List.takeWhile_cons, if_pos (h a (by simp)), List.take_succ_cons]
    rw [takeWhile_eq_take (fun b hb => h b (List.mem_cons_of_mem _ hb)) h']

theorem pairwise_of_forall₂ {α β : Type} {R : α → β → Prop} {P : α → α → Prop} {Q : β → β → Prop}
    (hPQ : ∀ a b a' b', R a b → R a' b' → Q b b' → P a a') :
    ∀ {as : List α} {bs : List β}, List.Forall₂ R as bs → bs.Pairwise Q → as.Pairwise P
  | _, _, .nil, _ => .nil
  | _, _, .cons h hs, hq => by
    refine .cons (fun a' ha' => ?_) (pairwise_of_forall₂ hPQ hs hq.of_cons)
    obtain ⟨i, hi, rfl⟩ := List.mem_iff_getElem.mp ha'
    have hlen := hs.length_eq
    exact hPQ _ _ _ _ h ((List.forall₂_iff_get.mp hs).2 i hi (by omega))
      (List.rel_of_pairwise_cons hq (List.getElem_mem _))

theorem exists_of_forall₂ {α β : Type} {R : α → β → Prop} {P : α → Prop} :
    ∀ {as : List α} {bs : List β}, List.Forall₂ R as bs → (∀ a ∈ as, P a) →
      ∀ b ∈ bs, ∃ a, R a b ∧ P a
  | _, _, .cons h hs, hp, b, hb => by
    rcases List.mem_cons.mp hb with rfl | hb
    · exact ⟨_, h, hp _ List.mem_cons_self⟩
    · exact exists_of_forall₂ hs (fun a ha => hp a (List.mem_cons_of_mem _ ha)) b hb

/-- The stream in which a block ends, by its metadata. -/
theorem MetaOf.lastStream {m : BlockMetadata} {b : List Record} (hm : MetaOf m b) :
    ∃ r, b.getLast? = some r ∧ r.key.streamId = m.lastKey.streamId := by
  obtain ⟨r, hr, hk⟩ := Option.map_eq_some_iff.mp hm.last
  exact ⟨r, hr, by rw [hk]⟩

section

variable {x : Externals} {h : SstHandle} {blocks : List (List Record)} (hst : Stored x h blocks)
  (hasc : Ascending blocks)
include hst

/-- The blocks that end in a stream up to `s`, by their metadata. -/
theorem takeWhile_metas {s : UInt64} {n : Nat}
    (hle : ∀ m ∈ h.blockMetadata.take n, m.lastKey.streamId ≤ s)
    (hgt : ∀ m ∈ h.blockMetadata.drop n, s < m.lastKey.streamId) :
    (blocks.takeWhile fun b => ∀ r ∈ b.getLast?, r.key.streamId ≤ s) = blocks.take n := by
  refine takeWhile_eq_take (fun b hb => ?_) fun b hb => ?_
  · obtain ⟨m, hm, hms⟩ := exists_of_forall₂ (List.forall₂_take n hst.metas) hle b hb
    obtain ⟨r, hr, hk⟩ := hm.lastStream
    simpa [hr, hk] using hms
  · obtain ⟨m, hm, hms⟩ := exists_of_forall₂ (List.forall₂_drop n hst.metas) hgt b hb
    obtain ⟨r, hr, hk⟩ := hm.lastStream
    simpa [hr, hk] using hms

include hasc

theorem metas_sorted :
    h.blockMetadata.Pairwise fun m m' => m.lastKey.streamId ≤ m'.lastKey.streamId := by
  refine pairwise_of_forall₂ (fun m b m' b' hm hm' hbb' => ?_) hst.metas hasc.across
  obtain ⟨r, hr, hk⟩ := hm.lastStream
  obtain ⟨r', hr', hk'⟩ := hm'.lastStream
  rw [← hk, ← hk']
  exact streamId_le (hbb' r (List.mem_of_mem_getLast? hr) r' (List.mem_of_mem_getLast? hr')).le

/-- The search over the blocks' last streams ends at the start block. -/
theorem searchList_metas (s : UInt64) :
    (searchList h.blockMetadata fun m => compare m.lastKey.streamId s) = .ok (startBlock s blocks) ∨
      (searchList h.blockMetadata fun m => compare m.lastKey.streamId s) =
        .error (startBlock s blocks) ∧ startBlock s blocks ≤ h.blockMetadata.length := by
  have hlen := hst.metas.length_eq
  have hsorted := metas_sorted hst hasc
  have hspec := searchList_spec hsorted s
  cases hsr : searchList h.blockMetadata fun m => compare m.lastKey.streamId s with
  | ok i =>
    rw [hsr] at hspec
    obtain ⟨⟨m, hm, hms⟩, hgt⟩ := hspec
    obtain ⟨hi, hget⟩ := List.getElem?_eq_some_iff.mp hm
    have hle (m' : BlockMetadata) (hm' : m' ∈ h.blockMetadata.take (i + 1)) :
        m'.lastKey.streamId ≤ s := by
      rw [List.take_succ_eq_append_getElem hi, hget, List.mem_append, List.mem_singleton] at hm'
      rcases hm' with hm' | rfl
      · rw [← List.take_append_drop i h.blockMetadata, ← List.getElem_cons_drop hi, hget] at hsorted
        exact hms ▸ (List.pairwise_append.mp hsorted).2.2 m' hm' m List.mem_cons_self
      · exact hms.le
    -- The run ends with the block found, which ends in `s`.
    have hi' : i < blocks.length := by omega
    obtain ⟨r, hr, hk⟩ := ((List.forall₂_iff_get.mp hst.metas).2 i hi hi').lastStream
    simp only [List.get_eq_getElem, hget, hms] at hr hk
    have hlast : (blocks.take (i + 1)).getLast? = some blocks[i] := by
      rw [List.take_succ_eq_append_getElem hi', List.getLast?_concat]
    left
    rw [startBlock, takeWhile_metas hst hle hgt, hlast]
    simp only [Option.bind_some, hr, Option.map_some, hk, if_true, List.length_take]
    rw [show min (i + 1) blocks.length - 1 = i by omega]
  | error i =>
    rw [hsr] at hspec
    obtain ⟨hi, hlt, hgt⟩ := hspec
    have hne : ((blocks.take i).getLast?.bind List.getLast?).map (fun r => r.key.streamId) ≠ some s := by
      intro heq
      obtain ⟨r, hr, rfl⟩ := Option.map_eq_some_iff.mp heq
      obtain ⟨b, hb, hr⟩ := Option.bind_eq_some_iff.mp hr
      obtain ⟨m, hm, hms⟩ := exists_of_forall₂ (List.forall₂_take i hst.metas) hlt b
        (List.mem_of_mem_getLast? hb)
      obtain ⟨r', hr', hk⟩ := hm.lastStream
      rw [hr] at hr'
      cases hr'
      exact absurd hms (hk ▸ lt_irrefl _)
    have hstart : startBlock s blocks = i := by
      rw [startBlock, takeWhile_metas hst (fun m hm => (hlt m hm).le) hgt, if_neg hne,
        List.length_take]
      omega
    exact .inr ⟨by rw [hstart], by omega⟩

/-- The start block of a stream that the filter lets through. -/
theorem blockIdxForStreamId_eq {s : UInt64} (hmay : h.mayContainStreamId x s = some true) :
    h.blockIdxForStreamId x s = .ok (startBlock s blocks) := by
  rw [SstHandle.blockIdxForStreamId, hmay]
  rcases searchList_metas hst hasc s with hsr | ⟨hsr, hle⟩
  · simp [Outcome.expect, hsr]
  · simp [Outcome.expect, hsr, hle]

theorem startBlockIdx_eq_ok {lo : Bound Key} {i : Nat} (hi : SstCursor.startBlockIdx x h lo = .ok i) :
    i = entry lo blocks := by
  have key (s : UInt64) (hi : h.blockIdxForStreamId x s = .ok i) : i = startBlock s blocks := by
    cases hmay : h.mayContainStreamId x s with
    | none =>
      rw [SstHandle.blockIdxForStreamId, hmay] at hi
      cases hi
    | some may =>
      cases may with
      | false =>
        rw [SstHandle.blockIdxForStreamId, hmay] at hi
        cases hi
      | true =>
        rw [blockIdxForStreamId_eq hst hasc hmay] at hi
        cases hi
        rfl
  cases lo with
  | included k => exact key k.streamId hi
  | excluded k => exact key k.streamId hi
  | unbounded =>
    cases hi
    rfl

/-- Where a new cursor stands. -/
theorem new_eq {lo : Bound Key} (hi : Bound Key) {i : Nat} {b : List Record}
    (hidx : SstCursor.startBlockIdx x h lo = .ok i) (hb : blocks[i]? = some b) :
    ∃ j, SstCursor.new x h (lo, hi) = .ok (sstAt (lo, hi) i b j) ∧
      (∀ r ∈ b.take j, ¬ lo.startOk r.key) ∧ ∀ r ∈ b.drop j, lo.startOk r.key := by
  have hmem := List.mem_of_getElem? hb
  obtain ⟨j, hj, hbefore, hafter⟩ := seekStart_blockOf (hst.storable b hmem) (hasc.block hmem) lo
  refine ⟨j, ?_, hbefore, hafter⟩
  simp only [SstCursor.new, hidx, Outcome.bind_ok, hst.read hb, hj, Outcome.expect]
  rfl

/-- A cursor that was returned stands in the block of its start bound. -/
theorem new_eq_ok {lo hi : Bound Key} {c : SstCursor} (hc : SstCursor.new x h (lo, hi) = .ok c) :
    ∃ b j, blocks[entry lo blocks]? = some b ∧ c = sstAt (lo, hi) (entry lo blocks) b j ∧
      (∀ r ∈ b.take j, ¬ lo.startOk r.key) ∧ ∀ r ∈ b.drop j, lo.startOk r.key := by
  obtain ⟨i, hidx, hc'⟩ := Outcome.bind_eq_ok.mp hc
  obtain ⟨block, hread, -⟩ := Outcome.bind_eq_ok.mp hc'
  obtain rfl := startBlockIdx_eq_ok hst hasc hidx
  cases hb : blocks[entry lo blocks]? with
  | none =>
    have hnone : h.blockMetadata[entry lo blocks]? = none := by
      rw [List.getElem?_eq_none_iff, hst.metas.length_eq]
      exact List.getElem?_eq_none_iff.mp hb
    simp only [SstHandle.readBlock, hnone] at hread
    cases hread
  | some b =>
    obtain ⟨j, hj, hbefore, hafter⟩ := new_eq hst hasc hi hidx hb
    rw [hj] at hc
    cases hc
    exact ⟨b, j, rfl, rfl, hbefore, hafter⟩

end

end LG.Proof.Tsdb
