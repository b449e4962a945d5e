import Logregator.Proof.Tsdb.Batch
import Logregator.Proof.Tsdb.Log

/-!
# The WAL comes first

What a tree sends in a run of batches (`Logged`): the records made, in their
order, and of each memtable that it sends to be flushed every record has its
own place among the records sent to the WAL before. This holds however the
calls end. The sequence numbers of a run (`Numbered`) say that the records are
pairwise different.
-/

namespace LG.Proof.Tsdb

open LG.Impl.Tsdb LG.Impl.Tsdb.LsmTree LG.Spec.Tsdb

/-! ## Sending -/

/-- A send that succeeds adds the event, on a channel that was not closed. -/
theorem Sender.send_eq_some {tx tx' : Sender} {e : IoEvent} (h : tx.send e = some tx') :
    tx'.sent = tx.sent ++ [e] ∧ tx.closesAfter ≠ some 0 ∧
      (tx.closesAfter = none → tx'.closesAfter = none) := by
  unfold Sender.send at h
  split at h
  · rename_i hc
    cases h
    simp [hc]
  · cases h
  · rename_i hc
    cases h
    simp [hc]

theorem Sender.send_eq_none {tx : Sender} {e : IoEvent} (h : tx.send e = none) :
    tx.closesAfter = some 0 := by
  unfold Sender.send at h
  split at h
  · cases h
  · assumption
  · cases h

/-- An event that is no flush. -/
theorem flushes_other {e : IoEvent} (he : ∀ p, e ≠ .flushMemtable p) (events : List IoEvent) :
    flushes (events ++ [e]) = flushes events := by
  rw [flushes_append]
  cases e with
  | flushMemtable p => exact absurd rfl (he p)
  | appendWal r => exact List.append_nil _
  | fsyncWal => exact List.append_nil _

/-! ## What is sent -/

namespace Stage

/-- The record that is made and not in the WAL. -/
def unlogged : Stage → List Record
  | numbered r => [r]
  | _ => []

/-- The record that is in the WAL and not in a memtable. -/
def pending : Stage → List Record
  | logged r | refused r => [r]
  | _ => []

theorem pending_frozen (stage : Stage) : stage.frozen.pending = stage.pending := by
  cases stage <;> rfl

theorem unlogged_frozen (stage : Stage) : stage.frozen.unlogged = stage.unlogged := by
  cases stage <;> rfl

theorem pending_ofOutput (out : AppendOutput) : (ofOutput out).pending = [] := by
  cases out <;> rfl

theorem unlogged_ofOutput (out : AppendOutput) : (ofOutput out).unlogged = [] := by
  cases out <;> rfl

end Stage

/-- Of each flush and the events before it, `Q` holds. -/
def AtFlushes (Q : List IoEvent → FlushMemtablePayload → Prop) (events : List IoEvent) : Prop :=
  ∀ pre p post, events = pre ++ .flushMemtable p :: post → Q pre p

namespace AtFlushes

variable {Q Q' : List IoEvent → FlushMemtablePayload → Prop} {events : List IoEvent}

theorem nil : AtFlushes Q [] := by
  intro pre p post h
  exact absurd h.symm (by simp)

/-- Another event is sent. -/
theorem other (h : AtFlushes Q events) {e : IoEvent} (he : ∀ p, e ≠ .flushMemtable p) :
    AtFlushes Q (events ++ [e]) := by
  intro pre p post heq
  rcases List.eq_nil_or_concat post with rfl | ⟨post, last, rfl⟩
  · have hlast := (List.append_inj' heq rfl).2
    exact absurd (List.singleton_inj.mp hlast) (he p)
  · rw [List.concat_eq_append, ← List.cons_append, ← List.append_assoc] at heq
    exact h pre p post (List.append_inj' heq rfl).1

/-- A flush is sent. -/
theorem flush (h : AtFlushes Q events) {p : FlushMemtablePayload} (hp : Q events p) :
    AtFlushes Q (events ++ [.flushMemtable p]) := by
  intro pre q post heq
  rcases List.eq_nil_or_concat post with rfl | ⟨post, last, rfl⟩
  · obtain ⟨rfl, hlast⟩ := List.append_inj' heq rfl
    cases hlast
    exact hp
  · rw [List.concat_eq_append, ← List.cons_append, ← List.append_assoc] at heq
    exact h pre q post (List.append_inj' heq rfl).1

theorem imp (h : AtFlushes Q events) (hq : ∀ pre p, Q pre p → Q' pre p) : AtFlushes Q' events :=
  fun pre p post heq => hq pre p (h pre p post heq)

end AtFlushes

/-- Each record of a memtable that is sent to be flushed has its own place
among the records before: those in `init`, and those sent to the WAL. -/
def WalFirst (init : List Record) : List IoEvent → Prop :=
  AtFlushes fun pre p => (flushed pre ++ p.memtable.set.elems).Subperm (init ++ walRecords pre)

/-- What a run that starts from `t₀` has sent. -/
structure Logged (t₀ : LsmTree) (events : List IoEvent) (made : List (Entry × Record))
    (stage : Stage) (t : LsmTree) : Prop where
  sent : t.ioTx.sent = t₀.ioTx.sent ++ events
  live : t₀.ioTx.closesAfter = none → t.ioTx.closesAfter = none
  log : t.ioTx.closesAfter = some 0 ∨ walRecords events ++ stage.unlogged = made.map Prod.snd
  inOrder : walRecords events <+: made.map Prod.snd
  kept : (contents t ++ stage.pending).Subperm (contents t₀ ++ walRecords events)
  frozen : (flushed events).Sublist (t.frozenMemtables.flatMap fun m => m.set.elems)
  ahead : WalFirst (contents t₀) events

/-- A record that a memtable takes. -/
theorem kept_append {t : LsmTree} {r : Record} {recs : List Record}
    (h : (contents t ++ [r]).Subperm recs) (happ : (t.memtable.append r).1.wasAppended = true) :
    (contents { t with memtable := (t.memtable.append r).2 }).Subperm recs := by
  refine List.Subperm.trans ?_ h
  rcases append_cases t.memtable r with ⟨-, hfull⟩ | ⟨-, hset⟩
  · rw [hfull] at happ
    cases happ
  · simp only [contents, List.flatMap_cons, hset]
    refine ((List.subperm_append_right _).mpr (t.memtable.set.insert_subperm r)).trans ?_
    exact (List.perm_append_singleton r _).symm.subperm

/-- Freezing moves the records of the memtable. -/
theorem contents_frozen (t : LsmTree) : (contents (frozen t)).Perm (contents t) := by
  simp only [contents, Tsdb.frozen, List.flatMap_cons, List.flatMap_append, List.flatMap_nil,
    List.append_nil]
  show (_ ++ t.memtable.set.elems).Perm _
  exact List.perm_append_comm

namespace Logged

variable {t₀ t : LsmTree} {events : List IoEvent} {made : List (Entry × Record)} {stage : Stage}

theorem number (h : Logged t₀ events made .idle t) (p : Entry × Record) (next : UInt64) :
    Logged t₀ events (made ++ [p]) (.numbered p.2) { t with nextSeqNum := next } := by
  refine { h with log := h.log.imp_right fun hlog => ?_, inOrder := ?_ }
  · rw [List.map_append, ← hlog]
    exact congrArg (· ++ _) (List.append_nil _).symm
  · rw [List.map_append]
    exact h.inOrder.trans (List.prefix_append _ _)

/-- The record that was made is sent to the WAL. -/
theorem wal {r : Record} (h : Logged t₀ events made (.numbered r) t) {tx : Sender}
    (hs : t.ioTx.send (.appendWal r) = some tx) :
    Logged t₀ (events ++ [.appendWal r]) made (.logged r) { t with ioTx := tx } := by
  obtain ⟨hsent, hopen, hlive⟩ := Sender.send_eq_some hs
  have hlog := h.log.resolve_left hopen
  have hkept := h.kept
  rw [show Stage.pending (.numbered r) = [] from rfl, List.append_nil] at hkept
  have hwal : walRecords (events ++ [.appendWal r]) = walRecords events ++ [r] := by
    simp [walRecords]
  exact {
    sent := by rw [hsent, h.sent, List.append_assoc]
    live := fun hl => hlive (h.live hl)
    log := by
      rw [hwal]
      exact .inr ((List.append_nil _).trans hlog)
    inOrder := by
      rw [hwal]
      exact hlog ▸ List.prefix_refl _
    kept := by
      rw [hwal, ← List.append_assoc]
      exact (List.subperm_append_right [r]).mpr hkept
    frozen := by
      rw [flushed, flushes_other (by simp)]
      exact h.frozen
    ahead := AtFlushes.other h.ahead (by simp) }

/-- A memtable takes the record. -/
theorem append {r : Record} (h : Logged t₀ events made stage t) (hst : stage.pending = [r])
    (hun : stage.unlogged = []) (happ : (t.memtable.append r).1.wasAppended = true) {stage' : Stage}
    (hst' : stage'.pending = []) (hun' : stage'.unlogged = []) :
    Logged t₀ events made stage' { t with memtable := (t.memtable.append r).2 } := by
  refine { h with log := ?_, kept := ?_ }
  · rw [hun', ← hun]
    exact h.log
  · rw [hst', List.append_nil]
    exact kept_append (hst ▸ h.kept) happ

/-- The memtable is frozen and sent to be flushed: its records and those sent
before are among the records that are kept. -/
theorem flush (h : Logged t₀ events made stage t) {tx : Sender}
    (hs : t.ioTx.send (.flushMemtable (flushOf t)) = some tx) :
    Logged t₀ (events ++ [.flushMemtable (flushOf t)]) made stage.frozen
      { Tsdb.frozen t with ioTx := tx } := by
  obtain ⟨hsent, hopen, hlive⟩ := Sender.send_eq_some hs
  have hwal := walRecords_flush events (flushOf t)
  have hkept : (flushed events ++ t.memtable.set.elems).Subperm
      (contents t₀ ++ walRecords events) := by
    refine List.Subperm.trans ?_ ((List.sublist_append_left _ stage.pending).subperm.trans h.kept)
    exact (h.frozen.append_right _).subperm.trans List.perm_append_comm.subperm
  exact {
    sent := by rw [hsent, h.sent, List.append_assoc]
    live := fun hl => hlive (h.live hl)
    log := by
      rw [hwal, Stage.unlogged_frozen]
      exact .inr (h.log.resolve_left hopen)
    inOrder := by
      rw [hwal]
      exact h.inOrder
    kept := by
      rw [hwal, Stage.pending_frozen]
      exact ((contents_frozen t).append_right _).subperm.trans h.kept
    frozen := by
      rw [flushed_append]
      simp only [Tsdb.frozen, List.flatMap_append]
      exact h.frozen.append_right _
    ahead := AtFlushes.flush h.ahead hkept }

theorem unsent (h : Logged t₀ events made stage t)
    (hs : t.ioTx.send (.flushMemtable (flushOf t)) = none) :
    Logged t₀ events made .idle (Tsdb.frozen t) := by
  refine { h with log := .inl (Sender.send_eq_none hs), kept := ?_, frozen := ?_ }
  · refine List.Subperm.trans ?_ ((List.sublist_append_left _ stage.pending).subperm.trans h.kept)
    exact (List.append_nil _).symm ▸ (contents_frozen t).subperm
  · simp only [Tsdb.frozen, List.flatMap_append]
    exact h.frozen.trans (List.sublist_append_left _ _)

theorem fsync (h : Logged t₀ events made .idle t) {tx : Sender}
    (hs : t.ioTx.send .fsyncWal = some tx) :
    Logged t₀ (events ++ [.fsyncWal]) made .idle { t with ioTx := tx } := by
  obtain ⟨hsent, hopen, hlive⟩ := Sender.send_eq_some hs
  have hwal : walRecords (events ++ [.fsyncWal]) = walRecords events := by simp [walRecords]
  exact {
    sent := by rw [hsent, h.sent, List.append_assoc]
    live := fun hl => hlive (h.live hl)
    log := by
      rw [hwal]
      exact .inr (h.log.resolve_left hopen)
    inOrder := by
      rw [hwal]
      exact h.inOrder
    kept := by
      rw [hwal]
      exact h.kept
    frozen := by
      rw [flushed, flushes_other (by simp)]
      exact h.frozen
    ahead := AtFlushes.other h.ahead (by simp) }

end Logged

theorem keeps_logged (fp : List Label → UInt64) (t₀ : LsmTree) :
    Keeps fp True fun made stage t => ∃ events, Logged t₀ events made stage t where
  register := by
    rintro made t lm update ⟨events, h⟩ - -
    exact ⟨events, { h with }⟩
  unfit := by
    rintro - made t lm ⟨events, h⟩ -
    exact ⟨events, { h with }⟩
  number := by
    rintro made t sourceId payload now lm n id ts ⟨events, h⟩ - - - - -
    exact ⟨events, h.number (_, _) _⟩
  wal := by
    rintro made r t tx ⟨events, h⟩ hs
    exact ⟨_, h.wal hs⟩
  unlogged := by
    rintro made r t ⟨events, h⟩ hs
    exact ⟨events, { h with log := .inl (Sender.send_eq_none hs) }⟩
  put := by
    rintro made r t ⟨events, h⟩ happ
    exact ⟨events, h.append rfl rfl happ (Stage.pending_ofOutput _) (Stage.unlogged_ofOutput _)⟩
  refuse := by
    rintro made r t ⟨events, h⟩ -
    exact ⟨events, { h with }⟩
  retry := by
    rintro made r t ⟨events, h⟩ happ
    exact ⟨events, h.append rfl rfl happ rfl rfl⟩
  flush := by
    rintro made stage t tx ⟨events, h⟩ hs
    exact ⟨_, h.flush hs⟩
  unsent := by
    rintro made stage t ⟨events, h⟩ hs
    exact ⟨events, h.unsent hs⟩
  fsync := by
    rintro made t tx ⟨events, h⟩ hs
    exact ⟨_, h.fsync hs⟩

/-! ## Sequence numbers -/

/-- The sequence numbers of the records made, from the tree's next one on. -/
def Numbered (s : UInt64) (made : List (Entry × Record)) (t : LsmTree) : Prop :=
  made.map (·.2.key.sequenceNum) = seqNumbers s made.length ∧
    t.nextSeqNum = s + UInt64.ofNat made.length

theorem keeps_numbered (fp : List Label → UInt64) (s : UInt64) :
    Keeps fp True fun made _ t => Numbered s made t where
  register := fun h _ _ => h
  unfit := fun _ _ _ _ h _ => h
  number := by
    rintro made t sourceId payload now lm n id ts ⟨hnum, hnext⟩ - - - - -
    refine ⟨?_, ?_⟩
    · rw [List.map_append, hnum, List.length_append, List.length_singleton, seqNumbers_add, hnext]
      simp [seqNumbers]
    · rw [List.length_append, List.length_singleton, UInt64.ofNat_add, ← UInt64.add_assoc, hnext]
      rfl
  wal := fun h _ => h
  unlogged := fun h _ => h
  put := fun h _ => h
  refuse := fun h _ => h
  retry := fun h _ => h
  flush := fun h _ => h
  unsent := fun h _ => h
  fsync := fun h _ => h

/-- Up to `2 ^ 64` records of a run are pairwise different. -/
theorem nodup_made (fp : List Label → UInt64) (batches : List Batch) (t₀ : LsmTree)
    (h : (made fp batches t₀).length ≤ 2 ^ 64) : ((made fp batches t₀).map Prod.snd).Nodup := by
  have hrun := (keeps_numbered fp t₀.nextSeqNum).run batches (t := t₀) ⟨rfl, by simp⟩ (.inl trivial)
  have hnd := nodup_seqNumbers t₀.nextSeqNum h
  rw [← hrun.1] at hnd
  exact List.Nodup.of_map (fun r : Record => r.key.sequenceNum) (by rwa [List.map_map])

/-! ## Runs -/

theorem logged_start (t₀ : LsmTree) : Logged t₀ [] [] .idle t₀ where
  sent := (List.append_nil _).symm
  live := id
  log := .inr rfl
  inOrder := List.prefix_refl _
  kept := .refl _
  frozen := List.nil_sublist _
  ahead := .nil

/-- Write-ahead order, in every run of batches, however its calls end, for a
tree with no records in its memtables at first (`contents t₀` are exempt
otherwise). Each record of a memtable that is sent to be flushed has its own
`AppendWal` event before: `Subperm` counts repetitions, so that no two records
share one. The records sent to the WAL are those made, in their order, all of
them while the channel is open, and each record in a memtable has its own
event. Up to `2 ^ 64` records are pairwise different, so that each has exactly
one event and no two flushes share a record. -/
theorem wal_before_flush (fp : List Label → UInt64) (t₀ : LsmTree) (batches : List Batch) :
    ∃ events, (run fp batches t₀).ioTx.sent = t₀.ioTx.sent ++ events ∧
      (∀ pre p post, events = pre ++ .flushMemtable p :: post →
        (flushed pre ++ p.memtable.set.elems).Subperm (contents t₀ ++ walRecords pre)) ∧
      (walRecords events <+: (made fp batches t₀).map Prod.snd ∧
        (t₀.ioTx.closesAfter = none → walRecords events = (made fp batches t₀).map Prod.snd)) ∧
      (contents (run fp batches t₀)).Subperm (contents t₀ ++ walRecords events) ∧
      (contents t₀ = [] → (made fp batches t₀).length ≤ 2 ^ 64 →
        (∀ r ∈ contents (run fp batches t₀), (walRecords events).count r = 1) ∧
        (flushes events).Pairwise fun p q =>
          p.memtable.set.elems.Disjoint q.memtable.set.elems) := by
  obtain ⟨events, h⟩ := (keeps_logged fp t₀).run batches ⟨[], logged_start t₀⟩ (.inl trivial)
  have hkept := (List.sublist_append_left _ _).subperm.trans h.kept
  refine ⟨events, h.sent, h.ahead, ⟨h.inOrder, fun hopen => ?_⟩, hkept, fun hempty hlen => ?_⟩
  · have hlive := h.live hopen
    exact (List.append_nil _).symm.trans (h.log.resolve_left (by simp [hlive]))
  · have hnd : (walRecords events).Nodup :=
      (nodup_made fp batches t₀ hlen).sublist h.inOrder.sublist
    rw [hempty, List.nil_append] at hkept
    refine ⟨fun r hr => List.count_eq_one_of_mem hnd (hkept.subset hr), ?_⟩
    -- All flushed memtables together have each record once.
    have hflushed : (flushed events).Subperm (walRecords events) :=
      (h.frozen.trans (List.sublist_append_right _ _)).subperm.trans hkept
    obtain ⟨recs, hperm, hsub⟩ := hflushed
    exact (List.nodup_flatMap.mp (hperm.nodup_iff.mp (hnd.sublist hsub))).2

/-- A batch of three payloads on a new tree whose memtables take one record
each: all three are flushed, and the flushes share no record. -/
theorem wal_before_flush_three : ∃ t₀, LsmTree.new (emptyOptions 0) = some t₀ ∧ ∃ events,
    (run (fun _ => 0) [(7, [([0, 1, 2], 5), ([0, 3, 4], 3), ([0, 5, 6], 4)])] t₀).ioTx.sent =
      events ∧ (flushes events).length = 3 ∧ (walRecords events).length = 3 ∧
    (flushes events).Pairwise fun p q =>
      p.memtable.set.elems.Disjoint q.memtable.set.elems := by
  refine ⟨_, rfl, _, rfl, by decide +kernel, by decide +kernel, ?_⟩
  obtain ⟨events, hsent, -, -, -, honce⟩ := wal_before_flush (fun _ => 0) _ _
  rw [hsent]
  exact (honce rfl (by decide +kernel)).2

end LG.Proof.Tsdb
