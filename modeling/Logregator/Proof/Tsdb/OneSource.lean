import Logregator.Framework.Handoff
import Logregator.Proof.Tsdb.WriteAhead
import Logregator.Spec.Tsdb.Flushing

/-!
# One source for each memtable

The ids of the frozen memtables are the queue of `Framework.Handoff`, and the
results of their flushes come in its order (`Tracks`). So after a drain a
memtable that is not flushed is still there, and so is every later one, also
when its table has come: each memtable has one source just when no flush has
succeeded after one that failed (`one_source_iff_inOrder`).
-/

namespace LG.Proof.Tsdb

open LG.Impl.Tsdb LG.Impl.Tsdb.LsmTree LG.Spec.Tsdb LG.Spec.Tsdb.System

/-! ## Flushing and draining -/

/-- The table of a flush has the id of its memtable. -/
theorem flushMemtable_id {x : Externals} {payload : FlushMemtablePayload}
    {disk : Except Error (List UInt8)} {sst : SstHandle}
    (h : flushMemtable x payload disk = .ok sst) : sst.id = payload.memtable.id := by
  obtain ⟨⟨start, stop⟩, -, h⟩ := Outcome.bind_eq_ok.mp h
  obtain ⟨sw, -, h⟩ := Outcome.bind_eq_ok.mp h
  obtain ⟨recs, -, h⟩ := Outcome.bind_eq_ok.mp h
  obtain ⟨_, -, h⟩ := Outcome.bind_eq_ok.mp h
  obtain ⟨tail, -, h⟩ := Outcome.bind_eq_ok.mp h
  cases h
  rfl

theorem drainSst_tables (t : LsmTree) (sst : SstHandle) :
    (drainSst t sst).frozenMemtables.map MemtableInner.id =
      popFront (t.frozenMemtables.map MemtableInner.id) sst.id := by
  rw [drainSst]
  cases t.frozenMemtables with
  | nil => rfl
  | cons frozen rest =>
    simp only [List.map_cons, popFront]
    split <;> rfl

theorem drainSst_handles (t : LsmTree) (sst : SstHandle) :
    (drainSst t sst).sstHandles = t.sstHandles ++ [sst] := by
  rw [drainSst]
  split
  · split <;> rfl
  · rfl

/-- What a drain leaves alone. -/
theorem drainSst_rest (t : LsmTree) (sst : SstHandle) :
    (drainSst t sst).ioTx = t.ioTx ∧ (drainSst t sst).memtable = t.memtable ∧
      (drainSst t sst).nextMemtableId = t.nextMemtableId := by
  rw [drainSst]
  split
  · split <;> exact ⟨rfl, rfl, rfl⟩
  · exact ⟨rfl, rfl, rfl⟩

/-- What a drain does. -/
structure Drained (t : LsmTree) (ssts : List SstHandle) (t' : LsmTree) : Prop where
  tables : t'.frozenMemtables.map MemtableInner.id =
    (ssts.map SstHandle.id).foldl popFront (t.frozenMemtables.map MemtableInner.id)
  handles : t'.sstHandles = t.sstHandles ++ ssts
  rest : t'.ioTx = t.ioTx ∧ t'.memtable = t.memtable ∧ t'.nextMemtableId = t.nextMemtableId

theorem drainSstQueue_drained (t : LsmTree) (ssts : List SstHandle) :
    Drained t ssts (t.drainSstQueue ssts) := by
  induction ssts generalizing t with
  | nil => exact ⟨rfl, (List.append_nil _).symm, rfl, rfl, rfl⟩
  | cons sst ssts ih =>
    obtain ⟨htables, hhandles, hio, hmem, hnext⟩ := ih (drainSst t sst)
    obtain ⟨hio', hmem', hnext'⟩ := drainSst_rest t sst
    refine ⟨?_, ?_, hio.trans hio', hmem.trans hmem', hnext.trans hnext'⟩
    · rw [drainSst_tables] at htables
      exact htables
    · rw [drainSst_handles, List.append_assoc] at hhandles
      exact hhandles

/-! ## The queue of frozen memtables -/

/-- A system that started with the tree `t₀`. -/
structure Tracks (t₀ : LsmTree) (s : System) : Prop where
  ids : s.frozen = seqNumbers t₀.memtable.id s.frozen.length
  current : s.tree.memtable.id = t₀.memtable.id + UInt64.ofNat s.frozen.length
  next : s.tree.nextMemtableId = s.tree.memtable.id + 1
  issued : ∀ (i : Nat) p, (flushes s.tree.ioTx.sent)[s.before + i]? = some p →
    s.frozen[i]? = some p.memtable.id
  sent : s.tree.ioTx.closesAfter = some 0 ∨
    (flushes s.tree.ioTx.sent).length = s.before + s.frozen.length
  results : ∀ (i : Nat) (sst : SstHandle), s.results[i]? = some (some sst) → s.frozen[i]? = some sst.id
  handled : s.results.length ≤ s.frozen.length
  drained : s.drained ≤ s.results.length
  tables : s.frozen.length ≤ 2 ^ 64 →
    s.tree.frozenMemtables.map MemtableInner.id =
      s.frozen.drop (lead (s.results.take s.drained))
  handles : s.tree.sstHandles = t₀.sstHandles ++ (s.results.take s.drained).reduceOption

theorem tracks_start {opts : LsmTreeOptions} {t₀ : LsmTree} (h : Starts opts t₀) :
    Tracks t₀ (start t₀) where
  ids := rfl
  current := by simp [start]
  next := h.nextMemtable
  issued := by
    intro i p hp
    have hlt := (List.getElem?_eq_some_iff.mp hp).1
    simp only [start] at hlt
    omega
  sent := .inr rfl
  results := by simp [start]
  handled := le_refl 0
  drained := le_refl 0
  tables := fun _ => congrArg (List.map MemtableInner.id) h.frozen
  handles := (List.append_nil _).symm

namespace Tracks

variable {t₀ : LsmTree} {s : System}

theorem nodup (h : Tracks t₀ s) (hfew : s.frozen.length ≤ 2 ^ 64) : s.frozen.Nodup := by
  rw [h.ids]
  exact nodup_seqNumbers _ hfew

/-- The memtable is frozen, whether its flush is sent or not. -/
theorem freeze (h : Tracks t₀ s) {tx : Sender}
    (hissued : ∀ i p, (flushes tx.sent)[s.before + i]? = some p →
      (s.frozen ++ [s.tree.memtable.id])[i]? = some p.memtable.id)
    (hsent : tx.closesAfter = some 0 ∨
      (flushes tx.sent).length = s.before + (s.frozen.length + 1)) :
    Tracks t₀ { s with
      tree := { Tsdb.frozen s.tree with ioTx := tx }
      frozen := s.frozen ++ [s.tree.memtable.id] } where
  ids := by
    rw [List.length_append, List.length_singleton, seqNumbers_add, ← h.ids, h.current]
    simp [seqNumbers]
  current := by
    rw [List.length_append, List.length_singleton, UInt64.ofNat_add, ← UInt64.add_assoc, ← h.current]
    exact h.next
  next := rfl
  issued := hissued
  sent := by rw [List.length_append]; exact hsent
  results := fun i sst hi => getElem?_concat_iff.mpr (.inl (h.results i sst hi))
  handled := by rw [List.length_append]; exact h.handled.trans (Nat.le_add_right _ _)
  drained := h.drained
  tables := by
    intro hfew
    rw [List.length_append] at hfew
    have hlead : lead (s.results.take s.drained) ≤ s.frozen.length :=
      (lead_le _).trans ((List.length_take_le _ _).trans (h.drained.trans h.handled))
    rw [List.drop_append_of_le_length hlead, ← h.tables (by omega)]
    exact List.map_append
  handles := h.handles

/-- A flush is handled. -/
theorem flush (h : Tracks t₀ s) (x : Externals) (disk : Except Error (List UInt8))
    {payload : FlushMemtablePayload}
    (hp : (flushes s.tree.ioTx.sent)[s.before + s.results.length]? = some payload) :
    Tracks t₀ { s with results := s.results ++ [tableOf (flushMemtable x payload disk)] } := by
  have hid := h.issued _ _ hp
  have htake : (s.results ++ [tableOf (flushMemtable x payload disk)]).take s.drained =
      s.results.take s.drained := List.take_append_of_le_length h.drained
  refine { h with
    results := ?_
    handled := ?_
    drained := by rw [List.length_append]; exact h.drained.trans (Nat.le_add_right _ _)
    tables := by rw [htake]; exact h.tables
    handles := by rw [htake]; exact h.handles }
  · intro i sst hi
    rcases getElem?_concat_iff.mp hi with hi | ⟨rfl, hsst⟩
    · exact h.results i sst hi
    · rw [hid]
      cases hf : flushMemtable x payload disk with
      | ok sst' =>
        rw [hf] at hsst
        cases hsst
        rw [flushMemtable_id hf]
      | err e =>
        rw [hf] at hsst
        cases hsst
      | panic =>
        rw [hf] at hsst
        cases hsst
  · rw [List.length_append]
    exact (List.getElem?_eq_some_iff.mp hid).1

/-- The tables that have come are drained. -/
theorem drain (h : Tracks t₀ s) (x : Externals) (fp : List Label → UInt64) :
    Tracks t₀ (exec x fp s .drain) := by
  obtain ⟨htables, hhandles, hio, hmem, hnext⟩ :=
    drainSstQueue_drained s.tree (s.results.drop s.drained).reduceOption
  have hsplit := List.take_append_drop s.drained s.results
  exact {
    ids := h.ids
    current := (congrArg MemtableInner.id hmem).trans h.current
    next := by rw [exec, hmem, hnext]; exact h.next
    issued := by rw [exec, hio]; exact h.issued
    sent := by rw [exec, hio]; exact h.sent
    results := h.results
    handled := h.handled
    drained := le_refl _
    tables := by
      intro hfew
      rw [exec, htables, h.tables hfew, foldl_popFront (h.nodup hfew)]
      · rw [hsplit, List.take_length]
      · rw [hsplit]
        exact h.results
    handles := by
      rw [exec, hhandles, h.handles, List.append_assoc, ← List.reduceOption_append, hsplit,
        List.take_length] }

end Tracks

/-- A tree in the place of the system's, which has frozen memtables with the
ids since. -/
def Since (t₀ : LsmTree) (s : System) (t : LsmTree) : Prop :=
  ∃ ids, t.frozenMemtables.map MemtableInner.id = s.tree.frozenMemtables.map MemtableInner.id ++ ids ∧
    Tracks t₀ { s with tree := t, frozen := s.frozen ++ ids }

namespace Since

variable {t₀ t : LsmTree} {s : System}

theorem send (h : Since t₀ s t) {e : IoEvent} {tx : Sender} (hs : t.ioTx.send e = some tx)
    (he : ∀ p, e ≠ .flushMemtable p) : Since t₀ s { t with ioTx := tx } := by
  obtain ⟨ids, hids, h⟩ := h
  obtain ⟨hsent, hopen, -⟩ := Sender.send_eq_some hs
  have hflushes : flushes tx.sent = flushes t.ioTx.sent := by rw [hsent, flushes_other he]
  refine ⟨ids, hids, { h with issued := ?_, sent := .inr ?_ }⟩
  · rw [hflushes]
    exact h.issued
  · rw [hflushes]
    exact h.sent.resolve_left hopen

theorem append (h : Since t₀ s t) (r : Record) :
    Since t₀ s { t with memtable := (t.memtable.append r).2 } := by
  obtain ⟨ids, hids, h⟩ := h
  have hid := append_id t.memtable r
  exact ⟨ids, hids, { h with current := hid.trans h.current, next := h.next.trans (by rw [hid]) }⟩

theorem freeze (h : Since t₀ s t) {tx : Sender}
    (hissued : ∀ ids : List UInt64, Tracks t₀ { s with tree := t, frozen := s.frozen ++ ids } →
      (∀ (i : Nat) p, (flushes tx.sent)[s.before + i]? = some p →
        (s.frozen ++ ids ++ [t.memtable.id])[i]? = some p.memtable.id) ∧
      (tx.closesAfter = some 0 ∨
        (flushes tx.sent).length = s.before + ((s.frozen ++ ids).length + 1))) :
    Since t₀ s { frozen t with ioTx := tx } := by
  obtain ⟨ids, hids, h⟩ := h
  obtain ⟨hissued, hsent⟩ := hissued ids h
  have hfreeze := h.freeze hissued hsent
  refine ⟨ids ++ [t.memtable.id], ?_, ?_⟩
  · rw [← List.append_assoc, ← hids]
    exact List.map_append
  · rw [← List.append_assoc]
    exact hfreeze

theorem flush (h : Since t₀ s t) {tx : Sender}
    (hs : t.ioTx.send (.flushMemtable (flushOf t)) = some tx) :
    Since t₀ s { frozen t with ioTx := tx } := by
  refine h.freeze fun ids h => ?_
  obtain ⟨hsent, hopen, -⟩ := Sender.send_eq_some hs
  have hlen := h.sent.resolve_left hopen
  have hflushes : flushes tx.sent = flushes t.ioTx.sent ++ [flushOf t] := by
    rw [hsent, flushes_append]
    rfl
  rw [hflushes]
  refine ⟨fun i p hp => ?_, .inr ?_⟩
  · rcases getElem?_concat_iff.mp hp with hp | ⟨hi, rfl⟩
    · exact getElem?_concat_iff.mpr (.inl (h.issued i p hp))
    · refine getElem?_concat_iff.mpr (.inr ⟨?_, rfl⟩)
      rw [hlen] at hi
      exact Nat.add_left_cancel hi
  · rw [List.length_append, hlen]
    rfl

theorem unsent (h : Since t₀ s t) (hs : t.ioTx.send (.flushMemtable (flushOf t)) = none) :
    Since t₀ s (frozen t) :=
  h.freeze fun _ h => ⟨fun i p hp => getElem?_concat_iff.mpr (.inl (h.issued i p hp)),
    .inl (Sender.send_eq_none hs)⟩

end Since

theorem keeps_since (fp : List Label → UInt64) (t₀ : LsmTree) (s : System) :
    Keeps fp True fun _ _ t => Since t₀ s t where
  register := by
    rintro made t lm update ⟨ids, hids, h⟩ - -
    exact ⟨ids, hids, { h with }⟩
  unfit := by
    rintro - made t lm ⟨ids, hids, h⟩ -
    exact ⟨ids, hids, { h with }⟩
  number := by
    rintro made t sourceId payload now lm n id ts ⟨ids, hids, h⟩ - - - - -
    exact ⟨ids, hids, { h with }⟩
  wal := fun h hs => h.send hs (by simp)
  unlogged := fun h _ => h
  put := fun h _ => h.append _
  refuse := fun h _ => h
  retry := fun h _ => h.append _
  flush := fun h hs => h.flush hs
  unsent := fun h hs => h.unsent hs
  fsync := fun h hs => h.send hs (by simp)

namespace Tracks

variable {t₀ : LsmTree} {s : System}

theorem append (h : Tracks t₀ s) (x : Externals) (fp : List Label → UInt64) (b : Batch) :
    Tracks t₀ (exec x fp s (.append b)) := by
  have hstart : Since t₀ s s.tree := by
    refine ⟨[], (List.append_nil _).symm, ?_⟩
    rw [List.append_nil]
    exact h
  obtain ⟨ids, hids, hafter⟩ : Since t₀ s (appendBatch fp b.1 b.2 s.tree).2 :=
    (keeps_since fp t₀ s).run [b] hstart (.inl trivial)
  have hmore : ((appendBatch fp b.1 b.2 s.tree).2.frozenMemtables.drop
      s.tree.frozenMemtables.length).map MemtableInner.id = ids := by
    rw [List.map_drop, hids, ← List.length_map MemtableInner.id, List.drop_left]
  rw [exec, hmore]
  exact hafter

theorem exec (h : Tracks t₀ s) (x : Externals) (fp : List Label → UInt64) (step : Step) :
    Tracks t₀ (System.exec x fp s step) := by
  cases step with
  | append b => exact h.append x fp b
  | flush disk =>
    rw [System.exec]
    split
    · exact h
    · rename_i payload hp
      exact h.flush x disk hp
  | drain => exact h.drain x fp

theorem run (h : Tracks t₀ s) (x : Externals) (fp : List Label → UInt64) (steps : List Step) :
    Tracks t₀ (System.run x fp steps s) := by
  induction steps generalizing s with
  | nil => exact h
  | cons step steps ih => exact ih (h.exec x fp step)

end Tracks

/-! ## Sources -/

namespace Tracks

variable {t₀ : LsmTree} {s : System}

/-- Right after a drain: the memtables from the first one that is not flushed
are still there. -/
theorem mem_tables_iff (h : Tracks t₀ s) (hall : s.drained = s.results.length)
    (hfew : s.frozen.length ≤ 2 ^ 64) {i : Nat} {id : UInt64} (hi : s.frozen[i]? = some id) :
    id ∈ s.tree.frozenMemtables.map MemtableInner.id ↔ lead s.results ≤ i := by
  rw [h.tables hfew, hall, List.take_length]
  exact mem_drop_iff (h.nodup hfew) hi

/-- Right after a drain: the memtables whose flush succeeded have a table. -/
theorem mem_handles_iff (h : Tracks t₀ s) (hall : s.drained = s.results.length)
    (hfew : s.frozen.length ≤ 2 ^ 64) (hold : ∀ sst ∈ t₀.sstHandles, sst.id ∉ s.frozen)
    {i : Nat} {id : UInt64} (hi : s.frozen[i]? = some id) :
    id ∈ s.tree.sstHandles.map SstHandle.id ↔ ∃ sst, s.results[i]? = some (some sst) := by
  rw [h.handles, hall, List.take_length, List.map_append, List.mem_append]
  constructor
  · rintro (hinit | hnew)
    · obtain ⟨sst, hsst, rfl⟩ := List.mem_map.mp hinit
      exact absurd (List.mem_of_getElem? hi) (hold sst hsst)
    · obtain ⟨sst, hsst, rfl⟩ := List.mem_map.mp hnew
      obtain ⟨j, hj⟩ := List.mem_iff_getElem?.mp (List.reduceOption_mem_iff.mp hsst)
      rw [getElem?_unique (h.nodup hfew) hi (h.results j sst hj)]
      exact ⟨sst, hj⟩
  · rintro ⟨sst, hsst⟩
    have hid : sst.id = id := Option.some.inj ((h.results i sst hsst).symm.trans hi)
    have hmem : sst ∈ s.results.reduceOption :=
      List.reduceOption_mem_iff.mpr (List.mem_of_getElem? hsst)
    exact .inr (hid ▸ List.mem_map_of_mem hmem)

theorem oneSource_iff (h : Tracks t₀ s) (hall : s.drained = s.results.length)
    (hfew : s.frozen.length ≤ 2 ^ 64) (hold : ∀ sst ∈ t₀.sstHandles, sst.id ∉ s.frozen) :
    s.OneSource ↔ s.InOrder := by
  rw [InOrder, pairwise_isSome_iff]
  constructor
  · intro hone i sst hi
    by_contra hlt
    have hid := h.results i sst hi
    rcases hone _ (List.mem_of_getElem? hid) with ⟨-, hnot⟩ | ⟨-, hnot⟩
    · exact hnot ((h.mem_handles_iff hall hfew hold hid).mpr ⟨sst, hi⟩)
    · exact hnot ((h.mem_tables_iff hall hfew hid).mpr (not_lt.mp hlt))
  · intro hord id hmem
    obtain ⟨i, hi⟩ := List.mem_iff_getElem?.mp hmem
    rw [h.mem_tables_iff hall hfew hi, h.mem_handles_iff hall hfew hold hi]
    rcases lt_or_ge i (lead s.results) with hlt | hge
    · exact .inr ⟨exists_of_lt_lead hlt, not_le.mpr hlt⟩
    · refine .inl ⟨hge, ?_⟩
      rintro ⟨sst, hsst⟩
      exact absurd (hord i sst hsst) (not_lt.mpr hge)

end Tracks

/-- Every drain of every run, on a tree whose tables have other ids than the
memtables that it freezes: each of these has one source after it just when no
flush so far has succeeded after one that failed. -/
theorem one_source_iff_inOrder (x : Externals) (fp : List Label → UInt64) {opts : LsmTreeOptions}
    {t₀ : LsmTree} (hnew : LsmTree.new opts = some t₀) (steps : List Step)
    (hfew : (System.run x fp steps (start t₀)).frozen.length ≤ 2 ^ 64)
    (hold : ∀ sst ∈ opts.sstHandles, sst.id ∉ (System.run x fp steps (start t₀)).frozen) :
    (System.run x fp (steps ++ [.drain]) (start t₀)).OneSource ↔
      (System.run x fp steps (start t₀)).InOrder := by
  rw [System.run, List.foldl_append]
  rw [← (new_eq_some hnew).ssts] at hold
  exact (((tracks_start (new_eq_some hnew)).run x fp steps).exec x fp .drain).oneSource_iff rfl hfew hold

/-- Two memtables of one record each. -/
def twoFlushes : List Step := [.append (7, [([0, 1, 2], 0), ([0, 3, 4], 0)])]

/-- Both are flushed, the second after a drain. -/
theorem one_source_iff_inOrder_two :
    ∃ t₀, LsmTree.new (emptyOptions 0) = some t₀ ∧
      (System.run zeroHashes (fun _ => 0) (twoFlushes ++ [.flush (.ok []), .drain, .flush (.ok [])] ++
        [.drain]) (start t₀)).tree.sstHandles.map SstHandle.id = [0, 1] ∧
      (System.run zeroHashes (fun _ => 0) (twoFlushes ++ [.flush (.ok []), .drain, .flush (.ok [])] ++
        [.drain]) (start t₀)).OneSource := by
  refine ⟨_, rfl, by decide +kernel, ?_⟩
  rw [one_source_iff_inOrder zeroHashes (fun _ => 0) (show new (emptyOptions 0) = some _ from rfl)]
  · rw [InOrder]
    decide +kernel
  · decide +kernel
  · simp [emptyOptions]

/-- The first flush fails, the second does not: after the drain the second
memtable is still there, and so is its table. -/
theorem drain_leaves_two_sources :
    ∃ t₀, LsmTree.new (emptyOptions 0) = some t₀ ∧
      (System.run zeroHashes (fun _ => 0) (twoFlushes ++ [.flush (.error (.message "disk full")),
        .flush (.ok [])] ++ [.drain]) (start t₀)).frozen = [0, 1] ∧
      ¬ (System.run zeroHashes (fun _ => 0) (twoFlushes ++ [.flush (.error (.message "disk full")),
        .flush (.ok [])] ++ [.drain]) (start t₀)).OneSource := by
  refine ⟨_, rfl, by decide +kernel, fun h => ?_⟩
  rcases h 1 (by decide +kernel) with ⟨-, hnot⟩ | ⟨-, hnot⟩
  · exact hnot (by decide +kernel)
  · exact hnot (by decide +kernel)

end LG.Proof.Tsdb
