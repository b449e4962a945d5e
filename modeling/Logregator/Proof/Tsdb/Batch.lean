import Logregator.Proof.Tsdb.Lsm
import Logregator.Spec.Tsdb.Run

/-!
# What `append_batch` can do to a tree

Every call of `append_batch`, however it ends, is a sequence of a few small
updates of the tree: a stream is registered, a record is numbered, sent to
the WAL, put into the memtable; the memtable is frozen and sent to be
flushed. `Keeps` lists them as conditions on a predicate, and a predicate that
meets these conditions holds after every run (`Keeps.run`). `Stage` says how
far the record is that a call is storing.
-/

namespace LG.Proof.Tsdb

open LG.Impl.Tsdb LG.Impl.Tsdb.LsmTree LG.Spec.Tsdb

/-! ## The updates -/

/-- The tree with a new stream for the label map. -/
def registered (t : LsmTree) (lm : LabelMap) : LsmTree :=
  { t with nextStreamId := t.nextStreamId + 1, streamReg := t.streamReg.insert t.nextStreamId lm }

/-- The tree with its memtable frozen. -/
def frozen (t : LsmTree) : LsmTree :=
  { t with
    nextMemtableId := t.nextMemtableId + 1
    memtable := .withSizeLimit t.nextMemtableId t.memtable.limit
    frozenMemtables := t.frozenMemtables ++ [t.memtable]
    streamBuffer := [] }

/-- The flush that `issue_flush` sends. -/
def flushOf (t : LsmTree) : FlushMemtablePayload :=
  { memtable := t.memtable, manifestEntries := t.streamBuffer, blockSizeLimit := t.blockSizeLimit
    dir := t.basepath }

theorem send_sent {e : IoEvent} {t : LsmTree} {tx : Sender} (h : t.ioTx.send e = some tx) :
    send e t = (.ok (), { t with ioTx := tx }) := by
  rw [send, Action.get_bind, h]
  rfl

theorem send_unsent {e : IoEvent} {t : LsmTree} (h : t.ioTx.send e = none) :
    send e t = (.err (.message "sending on a closed channel"), t) := by
  rw [send, Action.get_bind, h]
  rfl

theorem issueFlush_sent {t : LsmTree} {tx : Sender}
    (h : t.ioTx.send (.flushMemtable (flushOf t)) = some tx) :
    issueFlush t = (.ok (), { frozen t with ioTx := tx }) := by
  rw [issueFlush, Action.get_bind]
  simp only [MemtableInner.freeze, incAndGet, Action.modify_bind]
  exact send_sent (t := frozen t) h

theorem issueFlush_unsent {t : LsmTree} (h : t.ioTx.send (.flushMemtable (flushOf t)) = none) :
    issueFlush t = (.err (.message "sending on a closed channel"), frozen t) := by
  rw [issueFlush, Action.get_bind]
  simp only [MemtableInner.freeze, incAndGet, Action.modify_bind]
  exact send_unsent (t := frozen t) h

/-! ## The conditions -/

/-- How far a call is with storing a record: it has none; it numbered it, or
sent it to the WAL; the memtable refused it, or took it and is full now. -/
inductive Stage where
  | idle
  | numbered (r : Record)
  | logged (r : Record)
  | refused (r : Record)
  | full

namespace Stage

/-- After the memtable is frozen. -/
def frozen : Stage → Stage
  | full => idle
  | stage => stage

/-- The stage that a memtable's answer leads to, when it took the record. -/
def ofOutput : AppendOutput → Stage
  | .ok => idle
  | .full _ => full

end Stage

/-- The conditions on a predicate of the records made, the stage and the tree.
`panics` says whether calls may panic. -/
structure Keeps (fp : List Label → UInt64) (panics : Prop)
    (I : List (Entry × Record) → Stage → LsmTree → Prop) : Prop where
  register : ∀ {made t lm update}, I made .idle t → t.streamReg.getStreamIdByLabelmap lm = none →
    ManifestEntry.streamUpdate? t.nextStreamId lm = some update →
    I made .idle { registered t lm with streamBuffer := t.streamBuffer ++ [update] }
  unfit : panics → ∀ {made t lm}, I made .idle t → t.streamReg.getStreamIdByLabelmap lm = none →
    I made .idle (registered t lm)
  number : ∀ {made t sourceId payload now lm n id ts}, I made .idle t →
    checkPayloadSize payload.length = .ok () → decodeLabelMap fp payload = .ok (some (lm, n)) →
    t.streamReg.getStreamIdByLabelmap lm = some id →
    t.streamReg.getLabelmapByStreamRef id = some lm → timestampOf now = some ts →
    I (made ++ [((sourceId, payload, now), ⟨⟨id, ts, t.nextSeqNum, sourceId⟩, payload.drop n⟩)])
      (.numbered ⟨⟨id, ts, t.nextSeqNum, sourceId⟩, payload.drop n⟩)
      { t with nextSeqNum := t.nextSeqNum + 1 }
  wal : ∀ {made r t tx}, I made (.numbered r) t → t.ioTx.send (.appendWal r) = some tx →
    I made (.logged r) { t with ioTx := tx }
  unlogged : ∀ {made r t}, I made (.numbered r) t → t.ioTx.send (.appendWal r) = none →
    I made .idle t
  put : ∀ {made r t}, I made (.logged r) t → (t.memtable.append r).1.wasAppended = true →
    I made (.ofOutput (t.memtable.append r).1) { t with memtable := (t.memtable.append r).2 }
  refuse : ∀ {made r t}, I made (.logged r) t → t.memtable.sizeBytes ≠ 0 → I made (.refused r) t
  retry : ∀ {made r t}, I made (.refused r) t → (t.memtable.append r).1.wasAppended = true →
    I made .idle { t with memtable := (t.memtable.append r).2 }
  flush : ∀ {made stage t tx}, I made stage t →
    t.ioTx.send (.flushMemtable (flushOf t)) = some tx →
    I made stage.frozen { frozen t with ioTx := tx }
  unsent : ∀ {made stage t}, I made stage t →
    t.ioTx.send (.flushMemtable (flushOf t)) = none → I made .idle (frozen t)
  fsync : ∀ {made t tx}, I made .idle t → t.ioTx.send .fsyncWal = some tx →
    I made .idle { t with ioTx := tx }

namespace Keeps

variable {fp : List Label → UInt64} {panics : Prop}
  {I : List (Entry × Record) → Stage → LsmTree → Prop} (hk : Keeps fp panics I)
include hk

/-- A flush, and what is done after it if it was sent. -/
theorem issueFlush_then {β : Type} {f : Unit → Action LsmTree Error β}
    {made : List (Entry × Record)} {stage : Stage} {t : LsmTree} (h : I made stage t)
    (hf : ∀ tx, I made stage.frozen { frozen t with ioTx := tx } →
      I made .idle (f () { frozen t with ioTx := tx }).2) :
    I made .idle ((issueFlush >>= f) t).2 := by
  cases hs : t.ioTx.send (.flushMemtable (flushOf t)) with
  | none =>
    rw [Action.bind_apply, issueFlush_unsent hs]
    exact hk.unsent h hs
  | some tx =>
    rw [Action.bind_of_ok (issueFlush_sent hs)]
    exact hf tx (hk.flush h hs)

/-- Storing a record, however it ends. -/
theorem storeRecord {made : List (Entry × Record)} {r : Record} {t : LsmTree}
    (h : I made (.numbered r) t) : I made .idle (LsmTree.storeRecord r t).2 := by
  cases hs : t.ioTx.send (.appendWal r) with
  | none =>
    rw [LsmTree.storeRecord, Action.bind_apply, send_unsent hs]
    exact hk.unlogged h hs
  | some tx =>
    have hwal := hk.wal h hs
    rw [LsmTree.storeRecord, Action.bind_of_ok (send_sent hs), Action.get_bind]
    rcases append_cases t.memtable r with ⟨hne, happ⟩ | ⟨happ, -⟩
    · -- The memtable refuses the record; if the flush is sent, the fresh one takes it.
      simp only [happ, Action.modify_bind]
      refine hk.issueFlush_then (hk.refuse hwal hne) fun tx' hflush => ?_
      rw [Action.get_bind]
      rcases append_cases (MemtableInner.withSizeLimit t.nextMemtableId t.memtable.limit) r with
        ⟨hne, -⟩ | ⟨hfresh, -⟩
      · exact absurd rfl hne
      · have hput := hk.retry hflush hfresh
        simp only [Action.modify_bind, frozen, hfresh, if_true]
        exact hput
    · have hput := hk.put hwal happ
      cases hout : (t.memtable.append r).1 with
      | ok =>
        rw [hout] at hput
        simp only [Action.modify_bind, hout]
        exact hput
      | full rejected =>
        rw [hout] at happ hput
        cases rejected with
        | some q => cases happ
        | none =>
          simp only [Action.modify_bind, hout]
          exact hk.issueFlush_then hput fun tx' hflush => hflush

theorem streamIdFor {made : List (Entry × Record)} (lm : LabelMap) {t : LsmTree}
    (h : I made .idle t) (hp : panics ∨ (LsmTree.streamIdFor lm t).1 ≠ .panic) :
    I made .idle (LsmTree.streamIdFor lm t).2 := by
  cases hget : t.streamReg.getStreamIdByLabelmap lm with
  | some id =>
    by_cases href : t.streamReg.getLabelmapByStreamRef id = some lm
    · rw [streamIdFor_registered hget href]
      exact h
    · obtain ⟨e, he⟩ := streamIdFor_conflict hget href
      rw [he]
      exact h
  | none =>
    cases hu : ManifestEntry.streamUpdate? t.nextStreamId lm with
    | some update =>
      rw [streamIdFor_new hget hu]
      exact hk.register h hget hu
    | none =>
      rw [streamIdFor_refused hget hu] at hp ⊢
      exact hk.unfit (hp.resolve_right (· rfl)) h hget

/-- Making a record that is returned. -/
theorem makeRecord_ok {made : List (Entry × Record)} {sourceId : UInt64} {payload : List UInt8}
    {now : Int} {r : Record} {t t' : LsmTree} (h : I made .idle t)
    (hr : LsmTree.makeRecord fp sourceId payload now t = (.ok r, t')) :
    I (made ++ [((sourceId, payload, now), r)]) (.numbered r) t' := by
  obtain ⟨lm, n, id, t₁, hs, hd, hid, hnum⟩ := makeRecord_steps hr
  have h₁ := hk.streamIdFor lm h (.inr (by simp [hid]))
  rw [hid] at h₁
  cases hts : timestampOf now with
  | none =>
    rw [numberRecord_panic hts] at hnum
    cases hnum
  | some ts =>
    rw [numberRecord_eq hts] at hnum
    cases hnum
    exact hk.number h₁ hs hd (streamIdFor_eq_ok hid).found (streamIdFor_ref hid) hts

/-- Making a record that is not returned. -/
theorem makeRecord_stops {made : List (Entry × Record)} (sourceId : UInt64) (payload : List UInt8)
    (now : Int) {t : LsmTree} (h : I made .idle t)
    (hp : panics ∨ (LsmTree.makeRecord fp sourceId payload now t).1 ≠ .panic)
    (hr : ∀ r, (LsmTree.makeRecord fp sourceId payload now t).1 ≠ .ok r) :
    I made .idle (LsmTree.makeRecord fp sourceId payload now t).2 := by
  cases hs : checkPayloadSize payload.length with
  | error e =>
    rw [LsmTree.makeRecord, hs]
    exact h
  | ok =>
    rcases hd : decodeLabelMap fp payload with e | _ | ⟨lm, n⟩
    · rw [LsmTree.makeRecord, hs, hd]
      exact h
    · rw [LsmTree.makeRecord, hs, hd]
      exact h
    · rw [makeRecord_decoded hs hd] at hp hr ⊢
      have hid := hk.streamIdFor lm h (hp.imp_right (mt fun hpanic =>
        Action.bind_panic_iff.mpr (.inl hpanic)))
      apply Action.bind_leaves
      · intro id t₁ hfound
        rw [hfound] at hid
        rw [Action.bind_of_ok hfound] at hr
        -- The stream is found, so only the clock can have ended it.
        cases hts : timestampOf now with
        | none =>
          rw [numberRecord_panic hts]
          exact hid
        | some ts =>
          rw [numberRecord_eq hts] at hr
          exact absurd rfl (hr _)
      · exact fun _ => hid

/-- The loop of a batch. -/
theorem appendEach (sourceId : UInt64) (payloads : List (List UInt8 × Int))
    {made : List (Entry × Record)} {t : LsmTree} (h : I made .idle t)
    (hp : panics ∨ (LsmTree.appendEach fp sourceId payloads t).1 ≠ .panic) :
    I (made ++ madeEach fp sourceId payloads t) .idle (LsmTree.appendEach fp sourceId payloads t).2 := by
  induction payloads generalizing made t with
  | nil =>
    rw [madeEach, List.append_nil]
    exact h
  | cons entry rest ih =>
    obtain ⟨payload, now⟩ := entry
    rw [LsmTree.appendEach] at hp ⊢
    rw [madeEach]
    rcases hmake : LsmTree.makeRecord fp sourceId payload now t with ⟨r | e | _, t₁⟩
    · have h₁ := hk.storeRecord (hk.makeRecord_ok h hmake)
      rw [Action.bind_of_ok hmake] at hp ⊢
      simp only
      rcases hstore : LsmTree.storeRecord r t₁ with ⟨_ | e | _, t₂⟩
      · rw [hstore] at h₁
        rw [Action.bind_of_ok hstore] at hp ⊢
        have := ih h₁ hp
        rwa [List.append_assoc] at this
      · rw [hstore] at h₁
        rw [Action.bind_apply, hstore]
        exact h₁
      · rw [hstore] at h₁
        rw [Action.bind_apply, hstore]
        exact h₁
    · have h₁ := hk.makeRecord_stops sourceId payload now h
      rw [hmake] at h₁
      rw [Action.bind_apply, hmake] at hp ⊢
      simp only [List.append_nil] at hp ⊢
      exact h₁ (.inr (by simp)) (by simp)
    · have h₁ := hk.makeRecord_stops sourceId payload now h
      rw [hmake] at h₁
      rw [Action.bind_apply, hmake] at hp ⊢
      simp only [List.append_nil] at hp ⊢
      exact h₁ (.inl (hp.resolve_right (· rfl))) (by simp)

theorem appendBatch (sourceId : UInt64) (payloads : List (List UInt8 × Int))
    {made : List (Entry × Record)} {t : LsmTree} (h : I made .idle t)
    (hp : panics ∨ (LsmTree.appendBatch fp sourceId payloads t).1 ≠ .panic) :
    I (made ++ madeEach fp sourceId payloads t) .idle
      (LsmTree.appendBatch fp sourceId payloads t).2 := by
  rw [LsmTree.appendBatch] at hp ⊢
  have heach := hk.appendEach sourceId payloads h
    (hp.imp_right (mt fun hpanic => Action.bind_panic_iff.mpr (.inl hpanic)))
  apply Action.bind_leaves
  · intro _ t₁ h₁
    rw [h₁] at heach
    cases hs : t₁.ioTx.send .fsyncWal with
    | none =>
      rw [send_unsent hs]
      exact heach
    | some tx =>
      rw [send_sent hs]
      exact hk.fsync heach hs
  · exact fun _ => heach

theorem run_after {done : List (Entry × Record)} (batches : List Batch) {t : LsmTree}
    (h : I done .idle t) (hp : panics ∨ NoPanics fp batches t) :
    I (done ++ made fp batches t) .idle (run fp batches t) := by
  induction batches generalizing done t with
  | nil =>
    rw [made, List.append_nil]
    exact h
  | cons b batches ih =>
    rw [made, ← List.append_assoc]
    exact ih (hk.appendBatch b.1 b.2 h (hp.imp_right And.left)) (hp.imp_right And.right)

/-- A predicate that holds before a run holds after it. -/
protected theorem run (batches : List Batch) {t : LsmTree} (h : I [] .idle t)
    (hp : panics ∨ NoPanics fp batches t) : I (made fp batches t) .idle (Spec.Tsdb.run fp batches t) :=
  hk.run_after batches h hp

end Keeps

end LG.Proof.Tsdb
