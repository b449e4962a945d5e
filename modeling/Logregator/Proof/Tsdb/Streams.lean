import Logregator.Framework.Handoff
import Logregator.Proof.Tsdb.Admit
import Logregator.Proof.Tsdb.WriteAhead

/-!
# Streams and their definitions

A run from an empty registry registers label maps one after the other, under
the counter's next values (`Registered`), whatever becomes of the payloads that
they came with. While the counter has not gone round, a record's stream id
names its labels (`stream_identity`).
-/

namespace LG.Proof.Tsdb

open LG.Impl.Tsdb LG.Impl.Tsdb.LsmTree LG.Spec.Tsdb

/-! ## Registered streams -/

/-- The id of a counter's `i`-th stream. -/
def idAt (s : UInt64) (i : Nat) : UInt64 := s + UInt64.ofNat i

/-- The label maps registered from `s` on, and the records made: each record
is in the stream of its payload's label map. -/
structure Registered (fp : List Label → UInt64) (s : UInt64) (streams : List LabelMap)
    (made : List (Entry × Record)) (t : LsmTree) : Prop where
  nodup : streams.Nodup
  count : streamCount t = streams.length
  next : t.nextStreamId = idAt s streams.length
  ids : ∀ lm id, t.streamReg.getStreamIdByLabelmap lm = some id ↔
    ∃ i, streams[i]? = some lm ∧ id = idAt s i
  maps : streams.length ≤ 2 ^ 64 → ∀ i lm, streams[i]? = some lm →
    t.streamReg.getLabelmapByStreamRef (idAt s i) = some lm
  records : ∀ p ∈ made, ∃ lm n i, decodeLabelMap fp p.1.2.1 = .ok (some (lm, n)) ∧
    streams[i]? = some lm ∧ p.2.key.streamId = idAt s i

/-- A label map without a stream joins the others. -/
theorem Registered.insert {fp : List Label → UInt64} {s : UInt64} {streams : List LabelMap}
    {made : List (Entry × Record)} {t : LsmTree} (h : Registered fp s streams made t)
    {lm : LabelMap} (hnone : t.streamReg.getStreamIdByLabelmap lm = none) :
    Registered fp s (streams ++ [lm]) made (registered t lm) where
  nodup := by
    refine List.nodup_append.mpr ⟨h.nodup, List.nodup_singleton _, ?_⟩
    rintro lm' hmem _ hlm rfl
    rw [List.mem_singleton.mp hlm] at hmem
    obtain ⟨i, hi⟩ := List.mem_iff_getElem?.mp hmem
    have hsome := (h.ids lm _).mpr ⟨i, hi, rfl⟩
    rw [hnone] at hsome
    cases hsome
  count := by
    have hnot : lm ∉ t.streamReg.streamByLabelmap := AList.lookup_eq_none.mp hnone
    rw [List.length_append, ← h.count]
    exact congrArg List.length (AList.entries_insert_of_notMem hnot)
  next := by
    show t.nextStreamId + 1 = _
    rw [h.next, List.length_append, idAt, idAt, UInt64.ofNat_add, UInt64.add_assoc]
    rfl
  ids := by
    intro lm' id
    simp only [getElem?_concat_iff, or_and_right, exists_or]
    by_cases he : lm' = lm
    · subst he
      have hold : ¬ ∃ i, streams[i]? = some lm' ∧ id = idAt s i := by
        rw [← h.ids, hnone]
        simp
      rw [show (registered t lm').streamReg.getStreamIdByLabelmap lm' = some t.nextStreamId from
        getStreamIdByLabelmap_insert _ _ _, h.next]
      simp only [hold, false_or, Option.some.injEq, and_true, exists_eq_left]
      exact eq_comm
    · rw [show (registered t lm).streamReg.getStreamIdByLabelmap lm' =
        t.streamReg.getStreamIdByLabelmap lm' from AList.lookup_insert_ne he, h.ids]
      simp [he]
  maps := by
    intro hlen i lm' hi
    rw [List.length_append, List.length_singleton] at hlen
    rcases getElem?_concat_iff.mp hi with hi | ⟨rfl, rfl⟩
    · have hlt := (List.getElem?_eq_some_iff.mp hi).1
      have hne : idAt s i ≠ t.nextStreamId := by
        intro he
        rw [h.next] at he
        have := offset_inj (by omega) (by omega) he
        omega
      exact (AList.lookup_insert_ne hne).trans (h.maps (by omega) i lm' hi)
    · rw [← h.next]
      exact getLabelmapByStreamRef_insert _ _ _
  records := by
    intro p hp
    obtain ⟨lm', n, i, hd, hi, hid⟩ := h.records p hp
    exact ⟨lm', n, i, hd, getElem?_concat_iff.mpr (.inl hi), hid⟩

/-- A record of a registered stream is made. -/
theorem Registered.number {fp : List Label → UInt64} {s : UInt64} {streams : List LabelMap}
    {made : List (Entry × Record)} {t : LsmTree} (h : Registered fp s streams made t)
    {p : Entry × Record} {lm : LabelMap} {n : Nat} (hd : decodeLabelMap fp p.1.2.1 = .ok (some (lm, n)))
    (hid : t.streamReg.getStreamIdByLabelmap lm = some p.2.key.streamId) (next : UInt64) :
    Registered fp s streams (made ++ [p]) { t with nextSeqNum := next } := by
  refine { h with records := ?_ }
  intro q hq
  rcases List.mem_append.mp hq with hq | hq
  · exact h.records q hq
  · obtain ⟨i, hi, hid⟩ := (h.ids _ _).mp hid
    rw [List.mem_singleton.mp hq]
    exact ⟨lm, n, i, hd, hi, hid⟩

theorem registered_start (fp : List Label → UInt64) {t₀ : LsmTree} (h : t₀.streamReg = .empty) :
    Registered fp t₀.nextStreamId [] [] t₀ where
  nodup := .nil
  count := by rw [streamCount, h]; rfl
  next := by simp [idAt]
  ids := by
    intro lm id
    rw [h]
    simp [StreamRegistry.getStreamIdByLabelmap, StreamRegistry.empty]
  maps := by simp
  records := by simp

theorem keeps_registered (fp : List Label → UInt64) (s : UInt64) :
    Keeps fp True fun made _ t => ∃ streams, Registered fp s streams made t where
  register := by
    rintro made t lm update ⟨streams, h⟩ hnone -
    exact ⟨_, { h.insert hnone with }⟩
  unfit := by
    rintro - made t lm ⟨streams, h⟩ hnone
    exact ⟨_, h.insert hnone⟩
  number := by
    rintro made t sourceId payload now lm n id ts ⟨streams, h⟩ - hd hid - -
    exact ⟨streams, h.number hd hid _⟩
  wal := by
    rintro made r t tx ⟨streams, h⟩ -
    exact ⟨streams, { h with }⟩
  unlogged := fun h _ => h
  put := by
    rintro made r t ⟨streams, h⟩ -
    exact ⟨streams, { h with }⟩
  refuse := fun h _ => h
  retry := by
    rintro made r t ⟨streams, h⟩ -
    exact ⟨streams, { h with }⟩
  flush := by
    rintro made stage t tx ⟨streams, h⟩ -
    exact ⟨streams, { h with }⟩
  unsent := by
    rintro made stage t ⟨streams, h⟩ -
    exact ⟨streams, { h with }⟩
  fsync := by
    rintro made t tx ⟨streams, h⟩ -
    exact ⟨streams, { h with }⟩

/-! ## Stream identity -/

/-- A decoded label map has the fingerprint of its labels. -/
theorem decodeLabelMap_new {fp : List Label → UInt64} {src : List UInt8} {lm : LabelMap} {n : Nat}
    (h : decodeLabelMap fp src = .ok (some (lm, n))) : lm = LabelMap.new fp lm.inner := by
  unfold decodeLabelMap at h
  cases src with
  | nil => cases h
  | cons count input =>
    rw [parseLabelMap] at h
    rcases hl : parseLabels count.toNat input (.empty _) with e | ⟨rest, map⟩
    · rw [hl] at h
      cases h
    · rw [hl] at h
      cases h
      rfl

/-- Stream ids name label contents, in every run of batches from an empty
registry, however its calls end, and stay with them in every later state. -/
theorem stream_identity (fp : List Label → UInt64) {t₀ : LsmTree} (hempty : t₀.streamReg = .empty)
    (batches later : List Batch) (hfew : streamCount (run fp (batches ++ later) t₀) ≤ 2 ^ 64) :
    ∀ p ∈ made fp batches t₀, ∃ lm n, decodeLabelMap fp p.1.2.1 = .ok (some (lm, n)) ∧
      (run fp (batches ++ later) t₀).streamReg.getLabelmapByStreamRef p.2.key.streamId = some lm ∧
      ∀ q ∈ made fp batches t₀, ∀ lm' n', decodeLabelMap fp q.1.2.1 = .ok (some (lm', n')) →
        (p.2.key.streamId = q.2.key.streamId ↔ lm.iter = lm'.iter) := by
  obtain ⟨streams, h⟩ := (keeps_registered fp t₀.nextStreamId).run (batches ++ later)
    ⟨[], registered_start fp hempty⟩ (.inl trivial)
  have hlen : streams.length ≤ 2 ^ 64 := h.count ▸ hfew
  have hmade {p : Entry × Record} (hp : p ∈ made fp batches t₀) :
      p ∈ made fp (batches ++ later) t₀ := by
    rw [made_append]
    exact List.mem_append_left _ hp
  intro p hp
  obtain ⟨lm, n, i, hd, hi, hid⟩ := h.records p (hmade hp)
  refine ⟨lm, n, hd, hid ▸ h.maps hlen i lm hi, fun q hq lm' n' hd' => ?_⟩
  obtain ⟨lm₂, n₂, j, hd₂, hj, hjd⟩ := h.records q (hmade hq)
  rw [hd'] at hd₂
  cases hd₂
  have hi' := (List.getElem?_eq_some_iff.mp hi).1
  have hj' := (List.getElem?_eq_some_iff.mp hj).1
  constructor
  · intro he
    rw [hid, hjd] at he
    rw [offset_inj (by omega) (by omega) he, hj] at hi
    cases hi
    rfl
  · intro he
    have he : lm = lm' := by
      rw [decodeLabelMap_new hd, decodeLabelMap_new hd', OrdSet.ext he]
    rw [he, ← hj] at hi
    rw [hid, hjd, (List.getElem?_inj hi' h.nodup).mp hi]

/-- Two payloads with one label each, `a=b` and `a=c`, and the first again, with
fingerprints that collide. -/
theorem stream_identity_three :
    ∃ t₀, LsmTree.new (emptyOptions 60) = some t₀ ∧ ∀ p ∈ made (fun _ => 0)
        [(7, [([1, 1, 97, 1, 98, 1], 0), ([1, 1, 97, 1, 99, 2], 0), ([1, 1, 97, 1, 98, 3], 0)])] t₀,
      ∃ lm n, decodeLabelMap (fun _ => 0) p.1.2.1 = .ok (some (lm, n)) ∧
        (run (fun _ => 0) [(7, [([1, 1, 97, 1, 98, 1], 0), ([1, 1, 97, 1, 99, 2], 0),
          ([1, 1, 97, 1, 98, 3], 0)])] t₀).streamReg.getLabelmapByStreamRef p.2.key.streamId = some lm := by
  refine ⟨_, rfl, fun p hp => ?_⟩
  obtain ⟨lm, n, hd, href, -⟩ := stream_identity (fun _ => 0) rfl _ [] (by decide +kernel) p hp
  exact ⟨lm, n, hd, href⟩

end LG.Proof.Tsdb
