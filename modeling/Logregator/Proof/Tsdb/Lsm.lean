import Logregator.Proof.Tsdb.Memtable
import Logregator.Proof.Tsdb.MergeIter
import Logregator.Proof.Tsdb.Record
import Logregator.Spec.Tsdb.Log

/-!
# The parts of `append_batch`

One lemma for each part: `storeRecord_live` for storing a record, the
`streamIdFor` lemmas for finding a stream, `makeRecord_eq_ok` for making the
record of a payload. Each says in one structure (`Stores`, `Resolves`,
`Makes`) what the part changes.
-/

namespace LG.Proof.Tsdb

open LG.Impl.Tsdb LG.Impl.Tsdb.LsmTree LG.Spec.Tsdb

/-! ## Storing a record -/

/-- What a memtable does with a record: it refuses it, if it has records, or
inserts it. -/
theorem append_cases (m : MemtableInner) (r : Record) :
    (m.sizeBytes ≠ 0 ∧ m.append r = (.full (some r), m)) ∨
      ((m.append r).1.wasAppended = true ∧ (m.append r).2.set = m.set.insert r) := by
  by_cases h : m.sizeBytes + r.sizeOf > m.limit ∧ m.sizeBytes ≠ 0
  · exact .inl ⟨h.2, append_full h⟩
  · right
    rw [MemtableInner.append, if_neg h]
    refine ⟨?_, rfl⟩
    simp only
    split <;> rfl

/-- A send on a live channel. -/
theorem send_live {t : LsmTree} (hl : t.ioTx.closesAfter = none) (e : IoEvent) :
    send e t = (.ok (), { t with ioTx := { sent := t.ioTx.sent ++ [e], closesAfter := none } }) := by
  rw [send, Action.get_bind, Sender.send, hl]
  simp only [Action.modify_apply]

theorem issueFlush_live {t : LsmTree} (hl : t.ioTx.closesAfter = none) :
    issueFlush t = (.ok (),
      { t with
        nextMemtableId := t.nextMemtableId + 1
        memtable := .withSizeLimit t.nextMemtableId t.memtable.limit
        frozenMemtables := t.frozenMemtables ++ [t.memtable]
        streamBuffer := []
        ioTx :=
          { sent := t.ioTx.sent ++ [.flushMemtable
              { memtable := t.memtable, manifestEntries := t.streamBuffer
                blockSizeLimit := t.blockSizeLimit, dir := t.basepath }]
            closesAfter := none } }) := by
  rw [issueFlush, Action.get_bind]
  simp only [MemtableInner.freeze, incAndGet, Action.modify_bind]
  apply send_live
  exact hl

/-- What storing a record on a live channel changes: the record is inserted
into the set of one of the memtables. -/
structure Stores (r : Record) (t t' : LsmTree) : Prop where
  live : t'.ioTx.closesAfter = none
  log : log t' = log t ++ [r]
  ssts : t'.sstHandles = t.sstHandles
  seq : t'.nextSeqNum = t.nextSeqNum
  streams : t'.streamReg = t.streamReg
  holds : ∃ (s : OrdSet Record.key) (rest : List Record),
    (contents t).Perm (s.elems ++ rest) ∧ (contents t').Perm ((s.insert r).elems ++ rest)

theorem Stores.perm {r : Record} {t t' : LsmTree} (h : Stores r t t')
    (hnew : ∀ q ∈ contents t, q.key ≠ r.key) : (contents t').Perm (r :: contents t) := by
  obtain ⟨s, rest, hc, hc'⟩ := h.holds
  have hs : ∀ q ∈ s.elems, q.key ≠ r.key := fun q hq =>
    hnew q (hc.mem_iff.mpr (List.mem_append_left _ hq))
  exact hc'.trans (((OrdSet.insert_perm hs).append_right _).trans (hc.symm.cons r))

theorem Stores.mem {r q : Record} {t t' : LsmTree} (h : Stores r t t') (hq : q ∈ contents t') :
    q = r ∨ q ∈ contents t := by
  obtain ⟨s, rest, hc, hc'⟩ := h.holds
  rw [hc'.mem_iff, List.mem_append] at hq
  rw [hc.mem_iff, List.mem_append]
  rcases hq with hq | hq
  · exact (OrdSet.mem_insert hq).imp_right .inl
  · exact .inr (.inr hq)

theorem log_appendWal (t : LsmTree) (r : Record) :
    walRecords (t.ioTx.sent ++ [.appendWal r]) = log t ++ [r] := by
  simp [walRecords, log]

/-- A flush sends nothing to the WAL. -/
theorem walRecords_flush (events : List IoEvent) (p : FlushMemtablePayload) :
    walRecords (events ++ [.flushMemtable p]) = walRecords events := by
  simp [walRecords]

/-- Storing a record on a live channel succeeds; the record is in one of the
memtables then, in the fresh one if the active one refused it. -/
theorem storeRecord_live {t : LsmTree} (hl : t.ioTx.closesAfter = none) (r : Record) :
    ∃ t', storeRecord r t = (.ok (), t') ∧ Stores r t t' := by
  rw [storeRecord, Action.bind_of_ok (send_live hl _), Action.get_bind]
  rcases append_cases t.memtable r with ⟨-, happ⟩ | ⟨happ, hset⟩
  · -- The memtable refuses the record; the fresh one does not.
    simp only [happ, Action.modify_bind]
    rw [Action.bind_of_ok (issueFlush_live rfl), Action.get_bind]
    rcases append_cases (.withSizeLimit t.nextMemtableId t.memtable.limit) r with
      ⟨hne, -⟩ | ⟨hfresh, hset⟩
    · exact absurd rfl hne
    · simp only [Action.modify_bind, hfresh, if_true]
      refine ⟨_, rfl, ⟨rfl, ?_, rfl, rfl, rfl, .empty _, contents t, .refl _, ?_⟩⟩
      · exact (walRecords_flush _ _).trans (log_appendWal t r)
      · simp only [contents, List.flatMap_cons, List.flatMap_append, List.flatMap_nil,
          List.append_nil, hset]
        exact List.Perm.append_left [r] List.perm_append_comm
  · cases hout : (t.memtable.append r).1 with
    | ok =>
      simp only [Action.modify_bind, hout]
      refine ⟨_, rfl, ⟨rfl, log_appendWal t r, rfl, rfl, rfl, t.memtable.set,
        t.frozenMemtables.flatMap (fun m => m.set.elems), .refl _, ?_⟩⟩
      simp only [contents, List.flatMap_cons, hset]
      exact .refl _
    | full rejected =>
      rw [hout] at happ
      cases rejected with
      | some q => cases happ
      | none =>
        simp only [Action.modify_bind, hout]
        rw [Action.bind_of_ok (issueFlush_live rfl)]
        refine ⟨_, rfl, ⟨rfl, ?_, rfl, rfl, rfl, t.memtable.set,
          t.frozenMemtables.flatMap (fun m => m.set.elems), .refl _, ?_⟩⟩
        · exact (walRecords_flush _ _).trans (log_appendWal t r)
        · simp only [contents, List.flatMap_cons, List.flatMap_append, List.flatMap_nil,
            List.append_nil, hset]
          show (t.frozenMemtables.flatMap (fun m => m.set.elems) ++
            (t.memtable.set.insert r).elems).Perm _
          exact List.perm_append_comm

/-! ## Finding the stream of a label map -/

theorem streamIdFor_registered {t : LsmTree} {lm : LabelMap} {id : UInt64}
    (h : t.streamReg.getStreamIdByLabelmap lm = some id)
    (href : t.streamReg.getLabelmapByStreamRef id = some lm) :
    streamIdFor lm t = (.ok id, t) := by
  rw [streamIdFor, Action.get_bind]
  simp only [h, href]
  rw [if_neg (not_not.mpr rfl)]
  rfl

/-- A stream that the registry has for other labels, or for none, is an
error. -/
theorem streamIdFor_conflict {t : LsmTree} {lm : LabelMap} {id : UInt64}
    (h : t.streamReg.getStreamIdByLabelmap lm = some id)
    (href : t.streamReg.getLabelmapByStreamRef id ≠ some lm) :
    ∃ e, streamIdFor lm t = (.err e, t) := by
  rw [streamIdFor, Action.get_bind]
  simp only [h]
  cases hr : t.streamReg.getLabelmapByStreamRef id with
  | none => exact ⟨_, rfl⟩
  | some existing =>
    have hne : existing ≠ lm := fun he => href (he ▸ hr)
    simp only [if_pos hne]
    exact ⟨_, rfl⟩

/-- A label map without a stream gets the next one, and the manifest an entry
for it. -/
theorem streamIdFor_new {t : LsmTree} {lm : LabelMap}
    (h : t.streamReg.getStreamIdByLabelmap lm = none) {update : ManifestEntry}
    (hu : ManifestEntry.streamUpdate? t.nextStreamId lm = some update) :
    streamIdFor lm t = (.ok t.nextStreamId,
      { t with
        nextStreamId := t.nextStreamId + 1
        streamReg := t.streamReg.insert t.nextStreamId lm
        streamBuffer := t.streamBuffer ++ [update] }) := by
  rw [streamIdFor, Action.get_bind]
  simp only [h, incAndGet, Action.modify_bind, hu]
  rfl

/-- The manifest refuses the labels: the `expect` panics. -/
theorem streamIdFor_refused {t : LsmTree} {lm : LabelMap}
    (h : t.streamReg.getStreamIdByLabelmap lm = none)
    (hu : ManifestEntry.streamUpdate? t.nextStreamId lm = none) :
    streamIdFor lm t = (.panic,
      { t with
        nextStreamId := t.nextStreamId + 1
        streamReg := t.streamReg.insert t.nextStreamId lm }) := by
  rw [streamIdFor, Action.get_bind]
  simp only [h, incAndGet, Action.modify_bind, hu]
  rfl

/-- The streams that a registry has stay in the other one. -/
def Extends (reg reg' : StreamRegistry) : Prop :=
  ∀ lm id, reg.getStreamIdByLabelmap lm = some id → reg'.getStreamIdByLabelmap lm = some id

theorem Extends.trans {reg₁ reg₂ reg₃ : StreamRegistry} (h₁ : Extends reg₁ reg₂)
    (h₂ : Extends reg₂ reg₃) : Extends reg₁ reg₃ :=
  fun lm id h => h₂ lm id (h₁ lm id h)

theorem getStreamIdByLabelmap_insert (reg : StreamRegistry) (id : UInt64) (lm : LabelMap) :
    (reg.insert id lm).getStreamIdByLabelmap lm = some id :=
  AList.lookup_insert reg.streamByLabelmap

theorem getLabelmapByStreamRef_insert (reg : StreamRegistry) (id : UInt64) (lm : LabelMap) :
    (reg.insert id lm).getLabelmapByStreamRef id = some lm :=
  AList.lookup_insert reg.labelmapByStream

theorem extends_insert {reg : StreamRegistry} {lm : LabelMap}
    (h : reg.getStreamIdByLabelmap lm = none) (id : UInt64) : Extends reg (reg.insert id lm) := by
  intro lm' id' h'
  have hne : lm' ≠ lm := by
    intro he
    rw [he, h] at h'
    cases h'
  exact (AList.lookup_insert_ne hne).trans h'

/-- What finding a stream leaves: only the streams change. -/
structure Resolves (lm : LabelMap) (id : UInt64) (t t' : LsmTree) : Prop where
  memtable : t'.memtable = t.memtable
  frozen : t'.frozenMemtables = t.frozenMemtables
  ssts : t'.sstHandles = t.sstHandles
  seq : t'.nextSeqNum = t.nextSeqNum
  io : t'.ioTx = t.ioTx
  grows : Extends t.streamReg t'.streamReg
  found : t'.streamReg.getStreamIdByLabelmap lm = some id

theorem streamIdFor_eq_ok {t t' : LsmTree} {lm : LabelMap} {id : UInt64}
    (h : streamIdFor lm t = (.ok id, t')) : Resolves lm id t t' := by
  cases hget : t.streamReg.getStreamIdByLabelmap lm with
  | some found =>
    by_cases href : t.streamReg.getLabelmapByStreamRef found = some lm
    · rw [streamIdFor_registered hget href] at h
      cases h
      exact ⟨rfl, rfl, rfl, rfl, rfl, fun _ _ h => h, hget⟩
    · obtain ⟨e, he⟩ := streamIdFor_conflict hget href
      rw [he] at h
      cases h
  | none =>
    cases hu : ManifestEntry.streamUpdate? t.nextStreamId lm with
    | some update =>
      rw [streamIdFor_new hget hu] at h
      cases h
      exact ⟨rfl, rfl, rfl, rfl, rfl, extends_insert hget _, getStreamIdByLabelmap_insert _ _ _⟩
    | none =>
      rw [streamIdFor_refused hget hu] at h
      cases h

/-- A stream that was found is registered for its labels. -/
theorem streamIdFor_ref {t t' : LsmTree} {lm : LabelMap} {id : UInt64}
    (h : streamIdFor lm t = (.ok id, t')) : t'.streamReg.getLabelmapByStreamRef id = some lm := by
  cases hget : t.streamReg.getStreamIdByLabelmap lm with
  | some found =>
    by_cases href : t.streamReg.getLabelmapByStreamRef found = some lm
    · rw [streamIdFor_registered hget href] at h
      cases h
      exact href
    · obtain ⟨e, he⟩ := streamIdFor_conflict hget href
      rw [he] at h
      cases h
  | none =>
    cases hu : ManifestEntry.streamUpdate? t.nextStreamId lm with
    | some update =>
      rw [streamIdFor_new hget hu] at h
      cases h
      exact getLabelmapByStreamRef_insert _ _ _
    | none =>
      rw [streamIdFor_refused hget hu] at h
      cases h

/-! ## Making a record -/

theorem numberRecord_eq {now : Int} {ts : UInt64} (h : timestampOf now = some ts)
    (sourceId streamId : UInt64) (body : List UInt8) (t : LsmTree) :
    numberRecord sourceId streamId body now t = (.ok
      { key := { sourceId, timestamp := ts, sequenceNum := t.nextSeqNum, streamId }
        payload := body },
      { t with nextSeqNum := t.nextSeqNum + 1 }) := by
  rw [numberRecord, h]
  rfl

theorem numberRecord_panic {now : Int} (h : timestampOf now = none) (sourceId streamId : UInt64)
    (body : List UInt8) (t : LsmTree) : numberRecord sourceId streamId body now t = (.panic, t) := by
  rw [numberRecord, h]
  rfl

/-- An admitted payload: its size is checked, and its label map decoded. -/
theorem makeRecord_decoded {fp : List Label → UInt64} {payload : List UInt8} {lm : LabelMap}
    {n : Nat} (hs : checkPayloadSize payload.length = .ok ())
    (hd : decodeLabelMap fp payload = .ok (some (lm, n))) (sourceId : UInt64) (now : Int) :
    makeRecord fp sourceId payload now =
      streamIdFor lm >>= fun id => numberRecord sourceId id (payload.drop n) now := by
  funext t
  rw [makeRecord, hs, hd]
  rfl

/-- Making a record that was returned, step by step. -/
theorem makeRecord_steps {fp : List Label → UInt64} {sourceId : UInt64} {payload : List UInt8}
    {now : Int} {r : Record} {t t' : LsmTree}
    (h : makeRecord fp sourceId payload now t = (.ok r, t')) :
    ∃ lm n id t₁, checkPayloadSize payload.length = .ok () ∧
      decodeLabelMap fp payload = .ok (some (lm, n)) ∧ streamIdFor lm t = (.ok id, t₁) ∧
      numberRecord sourceId id (payload.drop n) now t₁ = (.ok r, t') := by
  cases hs : checkPayloadSize payload.length with
  | error e =>
    rw [makeRecord, hs] at h
    cases h
  | ok =>
    rcases hd : decodeLabelMap fp payload with e | _ | ⟨lm, n⟩
    · rw [makeRecord, hs, hd] at h
      cases h
    · rw [makeRecord, hs, hd] at h
      cases h
    · rw [makeRecord_decoded hs hd, Action.bind_eq_ok] at h
      obtain ⟨id, t₁, hid, hnum⟩ := h
      exact ⟨lm, n, id, t₁, rfl, rfl, hid, hnum⟩

/-- What making the record of a payload leaves. -/
structure Makes (fp : List Label → UInt64) (sourceId : UInt64) (payload : List UInt8) (now : Int)
    (r : Record) (t t' : LsmTree) : Prop where
  made : Made fp t'.streamReg (sourceId, payload, now) r
  number : r.key.sequenceNum = t.nextSeqNum
  seq : t'.nextSeqNum = t.nextSeqNum + 1
  contents : contents t' = contents t
  ssts : t'.sstHandles = t.sstHandles
  io : t'.ioTx = t.ioTx
  grows : Extends t.streamReg t'.streamReg

theorem makeRecord_eq_ok {fp : List Label → UInt64} {sourceId : UInt64} {payload : List UInt8}
    {now : Int} {r : Record} {t t' : LsmTree}
    (h : makeRecord fp sourceId payload now t = (.ok r, t')) :
    Makes fp sourceId payload now r t t' := by
  obtain ⟨lm, n, id, t₁, hs, hd, hid, hnum⟩ := makeRecord_steps h
  have hres := streamIdFor_eq_ok hid
  cases hts : timestampOf now with
  | none =>
    rw [numberRecord_panic hts] at hnum
    cases hnum
  | some ts =>
    rw [numberRecord_eq hts] at hnum
    cases hnum
    refine ⟨⟨rfl, hts, hs, lm, n, hd, rfl, hres.found⟩, hres.seq, ?_, ?_, hres.ssts, hres.io,
      hres.grows⟩
    · simp only [hres.seq]
    · simp only [Spec.Tsdb.contents, hres.memtable, hres.frozen]

end LG.Proof.Tsdb
