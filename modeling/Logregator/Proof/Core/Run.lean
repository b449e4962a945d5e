import Logregator.Proof.Core.Tiers

/-!
# Runs of the core engine

In a run without a crash the tiers hold the records inserted so far, whatever
the order in which flushes and compactions end, and whether they succeed or not
(`run_holds`). A range query then yields those that it asks for
(`range_selects_inserted`).
-/

namespace LG.Proof.Core

open LG.Impl.Core LG.Spec.Core

variable {c : SSTableCode} {hp : RecordHeap} {s s' : System c} {log : List Insert}

/-! ## Numbered records -/

theorem numbered_append (seq : Nat) (as bs : List Insert) :
    numbered seq (as ++ bs) = numbered seq as ++ numbered (seq + as.length) bs := by
  rw [numbered, List.zipIdx_append, List.map_append]
  rfl

theorem logged_numbered {seq : Nat} {r : Record} (h : r ∈ numbered seq log) : Logged r := by
  obtain ⟨p, -, rfl⟩ := List.mem_map.mp h
  exact ⟨p.2, p.1, rfl⟩

/-- The sequence number in a key. -/
def seqBytes (k : Record.OrderKey) : List UInt8 := (ofLex (ofLex (ofLex k).2).2).1

theorem seqBytes_recordOf (seq : Nat) (i : Insert) :
    seqBytes (Engine.recordOf seq i).orderKey = u64Bytes (UInt64.ofNat seq) := by
  rw [orderKey_recordOf]
  rfl

theorem u64Bytes_ofNat_inj {m n : Nat} (hm : m < 2 ^ 64) (hn : n < 2 ^ 64)
    (h : u64Bytes (UInt64.ofNat m) = u64Bytes (UInt64.ofNat n)) : m = n := by
  have heq := congrArg UInt64.toNat (u64Bytes_inj.mp h)
  rw [UInt64.toNat_ofNat', UInt64.toNat_ofNat', Nat.mod_eq_of_lt hm, Nat.mod_eq_of_lt hn] at heq
  exact heq

/-- Records with numbers that fit have different keys. -/
theorem nodup_numbered {seq : Nat} (h : seq + log.length ≤ 2 ^ 64) :
    ((numbered seq log).map Record.orderKey).Nodup := by
  apply List.Nodup.of_map seqBytes
  have hmap : ((numbered seq log).map Record.orderKey).map seqBytes =
      (List.range' seq log.length).map fun n => u64Bytes (UInt64.ofNat n) := by
    rw [numbered, List.map_map, List.map_map, ← List.zipIdx_map_snd, List.map_map]
    exact List.map_congr_left fun p _ => seqBytes_recordOf p.2 p.1
  rw [hmap]
  refine List.Nodup.map_on (fun m hm n hn heq => ?_) List.nodup_range'
  have hlt {n : Nat} (hn : n ∈ List.range' seq log.length) : n < 2 ^ 64 := by
    have := List.mem_range'_1.mp hn
    omega
  exact u64Bytes_ofNat_inj (hlt hm) (hlt hn) heq

/-! ## Steps -/

/-- The system holds the records of a log. -/
structure Holds (log : List Insert) (s : System c) : Prop where
  tiers : TiersHold (numbered 1 log) s.engine s.disk.ssts (jobs s)
  seq : s.engine.seqCounter = 1 + log.length
  seq_lt : s.engine.seqCounter < 2 ^ 64

theorem Holds.keys (h : Holds log s) : ((numbered 1 log).map Record.orderKey).Nodup := by
  apply nodup_numbered
  rw [← h.seq]
  exact h.seq_lt.le

/-- The memtable after inserts: the new records are in no tier before. -/
theorem Holds.inserted_memtable (h : Holds log s) {inserts : List Insert} {e' : Engine c}
    (hi : Inserted s.engine inserts e') : ∃ m : MemTable,
      m.bset.elems.Perm (numbered s.engine.seqCounter inserts ++ s.engine.memtable.bset.elems) ∧
      (∀ r ∈ numbered s.engine.seqCounter inserts, r ∉ numbered 1 log) ∧
      numbered 1 (log ++ inserts) = numbered 1 log ++ numbered s.engine.seqCounter inserts ∧
      s.engine.seqCounter + inserts.length < 2 ^ 64 ∧
      e' = { s.engine with
        walBuffer := s.engine.walBuffer ++ numbered s.engine.seqCounter inserts
        memtable := m
        seqCounter := s.engine.seqCounter + inserts.length } := by
  obtain ⟨m, hm, hlt, rfl⟩ := hi
  have hlt := hlt h.seq_lt
  have hlog : numbered 1 (log ++ inserts) =
      numbered 1 log ++ numbered s.engine.seqCounter inserts := by
    rw [numbered_append, ← h.seq]
  have hkeys : ((numbered 1 (log ++ inserts)).map Record.orderKey).Nodup := by
    apply nodup_numbered
    rw [List.length_append, ← Nat.add_assoc, ← h.seq]
    exact hlt.le
  rw [hlog, List.map_append] at hkeys
  obtain ⟨-, hnew, hdisjoint⟩ := List.nodup_append.mp hkeys
  refine ⟨m, ?_, fun r hr hold => ?_, hlog, hlt, rfl⟩
  · rw [hm]
    refine OrdSet.extend_perm hnew fun r hr q hq => ?_
    exact hdisjoint _ (List.mem_map_of_mem (h.tiers.mem q (.inl hq))) _ (List.mem_map_of_mem hr)
  · exact hdisjoint _ (List.mem_map_of_mem hold) _ (List.mem_map_of_mem hr) rfl

theorem Holds.inserted (h : Holds log s) {inserts : List Insert} {e' : Engine c}
    (hi : Inserted s.engine inserts e') : Holds (log ++ inserts) { s with engine := e' } := by
  obtain ⟨m, hm, -, hlog, hlt, rfl⟩ := h.inserted_memtable hi
  refine ⟨hlog ▸ h.tiers.insert hm, ?_, hlt⟩
  show s.engine.seqCounter + inserts.length = _
  rw [h.seq, List.length_append, Nat.add_assoc]

/-- A table that has just been written. -/
theorem isTable_written (hl : Stores c) (ssts : OrdMap Nat (List UInt8)) {recs : List Record}
    {id hint : Nat} {file : List UInt8} {table : c.Meta} (hasc : Ascending recs)
    (hlog : ∀ r ∈ recs, Logged r) (hw : c.writeToFile id recs hint = (file, table)) :
    table.id = id ∧ IsTable c (ssts.upsert id file) table recs := by
  have hid : table.id = id := by
    rw [← hl.id id recs hint, hw]
  exact ⟨hid, ⟨hint, file, OrdMap.mem_upsert_iff.mpr (.inl (hid ▸ rfl)), hid.symm ▸ hw⟩, hasc, hlog⟩

/-- A task that ends has its result: the command stood for its tables and
memtable, and the table written has their records. -/
theorem TiersHold.runTask (hl : Stores c) {recs : List Record} {e : Engine c} {disk : Disk}
    {rest : List (Job c)} {task : IoCommand c} {id : Nat} {file : List UInt8} {result : IoResult c}
    (h : TiersHold recs e disk.ssts (.command task :: rest)) (hlog : ∀ r ∈ recs, Logged r)
    (hkeys : (recs.map Record.orderKey).Nodup)
    (hrun : System.runTask hp disk task = some (id, file, result)) :
    TiersHold recs e (disk.ssts.upsert id file) (.result result :: rest) := by
  have hjob := h.job _ List.mem_cons_self
  rcases runTask_cases hrun with ⟨m, rfl, rfl, rfl⟩ | ⟨tables, out, rfl, hout, rfl, rfl⟩
  · have hmem {r : Record} (hr : r ∈ m.bset.elems) : r ∈ recs := h.mem r (.inr ⟨_, hjob, hr⟩)
    obtain ⟨hid, htable⟩ := isTable_written hl disk.ssts m.bset.ascending
      (fun r hr => hlog r (hmem hr)) (rfl : c.writeToFile id m.bset.elems m.len = _)
    refine h.finish rfl (by rw [Job.newIds, hid]) rfl ⟨m, ?_, htable⟩
    rw [hid]
    exact hjob
  · have htables (t : c.Meta) (ht : t ∈ tables) : ∃ l, IsTable c disk.ssts t l ∧ l ⊆ recs :=
      (h.tables _ (hjob t ht)).2.2
    choose! contents hcontents hsub using htables
    obtain ⟨out', hout', hasc, hfrom, hall⟩ := compactedRecords_spec hl hp hcontents
    cases hout'.symm.trans hout
    have hout : out ⊆ recs := by
      intro r hr
      obtain ⟨t, ht, hr⟩ := hfrom r hr
      exact hsub t ht hr
    obtain ⟨hid, htable⟩ := isTable_written hl disk.ssts hasc
      (fun r hr => hlog r (hout hr))
      (rfl : c.writeToFile id out (tables.map fun table => table.numRecords).sum = _)
    refine h.finish rfl (by rw [Job.newIds, hid]) rfl ⟨out, htable, hout, fun old hold => ?_⟩
    obtain ⟨t, ht, rfl⟩ := List.mem_map.mp hold
    have hne : t.id ≠ id := fun heq => (h.fresh id List.mem_cons_self).2 t (heq ▸ hjob t ht)
    refine ⟨t, hjob t ht, contents t, (hcontents t ht).upsert hne _, fun r hr => ?_⟩
    obtain ⟨r', hr', heq⟩ := hall t ht r hr
    exact List.inj_on_of_nodup_map hkeys (hout hr') (hsub t ht hr) heq ▸ hr'

theorem getOldestMetas_spec {e : Engine c} (htables : ∀ p ∈ e.sstableMap.elems, p.2.id = p.1)
    (n : Nat) :
    (∀ t ∈ e.getOldestMetas n, (t.id, t) ∈ e.sstableMap.elems ∧ t.id ∉ e.compacting) ∧
      ((e.getOldestMetas n).map fun t => t.id).Nodup := by
  have hids : (e.sstableMap.elems.map Prod.snd).map (fun t => t.id) =
      e.sstableMap.elems.map Prod.fst := by
    rw [List.map_map]
    exact List.map_congr_left htables
  have hsub : (e.getOldestMetas n).Sublist (e.sstableMap.elems.map Prod.snd) :=
    (List.take_sublist _ _).trans List.filter_sublist
  refine ⟨fun t ht => ⟨?_, ?_⟩, (hids ▸ e.sstableMap.nodup_keys).sublist (hsub.map _)⟩
  · obtain ⟨p, hp, rfl⟩ := List.mem_map.mp (hsub.mem ht)
    rw [htables p hp]
    exact hp
  · exact of_decide_eq_true (List.mem_filter.mp (List.mem_of_mem_take ht)).2

/-- A step that is no crash, whether its I/O succeeds or not. -/
theorem exec_holds (hl : Stores c) {step : Step} (h : Holds log s) (hs : NoCrash step)
    (hexec : step.exec hp s = some s') : Holds (log ++ insertsOf step) s' := by
  have hquiet (hnil : insertsOf step = []) (h' : Holds log s') :
      Holds (log ++ insertsOf step) s' := by
    rw [hnil, List.append_nil]
    exact h'
  cases exec_effect hs hexec with
  | insertedOne hi => exact h.inserted hi
  | insertedMany hi => exact h.inserted hi
  | wroteWal n => exact hquiet rfl ⟨h.tiers.wal _, h.seq, h.seq_lt⟩
  | noFlush rotates => exact hquiet rfl h
  | sentFlush hne =>
    refine hquiet rfl ⟨(h.tiers.freeze rfl).perm ?_, h.seq, h.seq_lt⟩
    exact (jobs_sent s (flushing s) rfl rfl rfl).symm
  | froze hne => exact hquiet rfl ⟨(h.tiers.freeze rfl).drop.drop, h.seq, h.seq_lt⟩
  | noCompaction => exact hquiet rfl h
  | sentCompaction n hlen =>
    obtain ⟨hts, hnodup⟩ := getOldestMetas_spec (fun p hp => (h.tiers.tables p hp).1) n
    refine hquiet rfl ⟨(h.tiers.compact hts hnodup).perm ?_, h.seq, h.seq_lt⟩
    exact (jobs_sent s (compactingOldest n s) rfl rfl rfl).symm
  | resynced hjobs => exact hquiet rfl ⟨(hjobs ▸ h.tiers).drop, h.seq, h.seq_lt⟩
  | dispatched hjobs => exact hquiet rfl ⟨h.tiers.perm hjobs, h.seq, h.seq_lt⟩
  | finished hrun hjobs hjobs' =>
    refine hquiet rfl ⟨TiersHold.perm ?_ hjobs'.symm, h.seq, h.seq_lt⟩
    exact (h.tiers.perm hjobs).runTask hl (fun r => logged_numbered) h.keys hrun
  | failed htask hjobs => exact hquiet rfl ⟨(h.tiers.perm hjobs).drop, h.seq, h.seq_lt⟩
  | flushed hjobs hdel => exact hquiet rfl ⟨(h.tiers.perm hjobs).flushApplied, h.seq, h.seq_lt⟩
  | compacted hjobs => exact hquiet rfl ⟨(h.tiers.perm hjobs).compactionApplied hl, h.seq, h.seq_lt⟩

/-! ## Runs -/

/-- Steps without a crash, in any order. -/
theorem run_holds (hl : Stores c) : ∀ {steps : List Step} {log : List Insert} {s s' : System c},
    Holds log s → (∀ step ∈ steps, NoCrash step) → Step.run hp s steps = some s' →
    Holds (log ++ steps.flatMap insertsOf) s'
  | [], log, s, s', h, _, hrun => by
    cases hrun
    rw [List.flatMap_nil, List.append_nil]
    exact h
  | step :: steps, log, s, s', h, hs, hrun => by
    obtain ⟨hstep, hs⟩ := List.forall_mem_cons.mp hs
    obtain ⟨s₁, hexec, hrun⟩ := Option.bind_eq_some_iff.mp hrun
    rw [List.flatMap_cons, ← List.append_assoc]
    exact run_holds hl (exec_holds hl h hstep hexec) hs hrun

/-- The engine of an empty directory. -/
def freshEngine (c : SSTableCode) (limit : Nat) : Engine c :=
  { walBuffer := [], memtable := .new limit, frozenMemtables := .empty _, sstableMap := .empty _
    compacting := ∅, sstCounter := 1, seqCounter := 1, memtableLimitBytes := limit }

theorem openDir_empty (c : SSTableCode) (limit : Nat) :
    Engine.openDir c .empty limit = .ok (freshEngine c limit, false) := rfl

theorem holds_start {engine : Engine c} {limit count : Nat} {full : Bool}
    (h : Engine.openDir c .empty limit = .ok (engine, full)) :
    Holds [] (System.start engine count .empty) := by
  rw [openDir_empty] at h
  cases h
  refine ⟨⟨fun r hr => ?_, ?_, ?_, ?_, ?_, .nil, ?_, .nil, ?_⟩, rfl, (by decide : 1 < 2 ^ 64)⟩
  · rcases hr with hr | ⟨p, hp, -⟩
    · cases hr
    · cases hp
  all_goals exact fun _ hmem => by cases hmem

/-- Tier transparency: after any run in which all I/O succeeds, a range query
yields exactly the inserted records that it asks for, each once and in
ascending order, in whatever tier they are. -/
theorem range_selects_inserted (hl : Lawful c) (hp : RecordHeap) {engine : Engine c}
    {limit count : Nat} {full : Bool} (hopen : Engine.openDir c .empty limit = .ok (engine, full))
    {steps : List Step} (hs : ∀ step ∈ steps, Succeeds step) {s : System c}
    (hrun : Step.run hp (System.start engine count .empty) steps = some s) (q : Query)
    (h₀ : 0 ≤ q.startTs) (h : q.startTs ≤ q.endTs) :
    ∃ m, s.engine.range hp s.disk q = .ok m ∧ ∃ out, Drains MergeIter.next m out ∧
      Ascending out ∧ out.Perm (((inserted steps).filter fun p => Wanted q p.1).map recordAt) := by
  have hholds := run_holds hl.toStores (holds_start hopen) (fun step hmem => (hs step hmem).noCrash) hrun
  refine range_exact hl hp (fun p hp => ?_) (fun r => ⟨?_, hholds.tiers.held r⟩) ?_ h₀ h
  · obtain ⟨-, -, recs, hrecs, -⟩ := hholds.tiers.tables p hp
    exact ⟨recs, hrecs⟩
  · rintro (hr | ⟨p, hp, recs, hrecs, hr⟩)
    · exact hholds.tiers.mem r hr
    · obtain ⟨-, -, recs', hrecs', hsub⟩ := hholds.tiers.tables p hp
      exact hsub (hrecs.unique hl.toStores hrecs' ▸ hr)
  · have hkeys := hholds.keys
    rw [numbered, List.map_map] at hkeys
    exact hkeys

/-- An insert with one byte for its key and one for its value. -/
def oneByte (sourceId ts : Int64) (key value : UInt8) : Insert where
  sourceId
  ts
  key := [key]
  value := [value]
  key_lt := by rw [List.length_singleton]; decide
  value_lt := by rw [List.length_singleton]; decide

/-- Two flushes that end out of order, a compaction of their tables, and
another insert. -/
def compactedSteps : List Step :=
  let a := oneByte 1 5 107 97
  let b := oneByte 1 3 107 98
  [.insert a, .sendFlush true, .batchInsert [b], .sendFlush true, .dispatch, .dispatch, .dispatch,
    .dispatch, .finish 1 true, .finish 0 true, .receive, .receive, .sendCompaction, .dispatch,
    .finish 0 true, .insert a, .receive]

theorem range_selects_inserted_compacted :
    ∃ s, Step.run (MinHeap.sortedList _ _) (System.start (freshEngine plainCode 0) 4 .empty)
        compactedSteps = some s ∧
      ∃ m, s.engine.range (MinHeap.sortedList _ _) s.disk ⟨1, [107], 0, 5, []⟩ = .ok m ∧
        ∃ out, Drains MergeIter.next m out ∧ Ascending out ∧
          out.Perm (((inserted compactedSteps).filter fun p =>
            Wanted ⟨1, [107], 0, 5, []⟩ p.1).map recordAt) := by
  obtain ⟨s, hs⟩ := Option.isSome_iff_exists.mp
    (show (Step.run (MinHeap.sortedList _ _) (System.start (freshEngine plainCode 0) 4 .empty)
      compactedSteps).isSome by decide +kernel)
  exact ⟨s, hs, range_selects_inserted lawful_plainCode _ (openDir_empty plainCode 0)
    (by simp [compactedSteps, Succeeds]) hs _ (by decide) (by decide)⟩

end LG.Proof.Core
