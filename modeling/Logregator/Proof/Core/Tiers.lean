import Logregator.Proof.Core.Range
import Logregator.Proof.Core.Step

/-!
# Where the records are

`TiersHold` says that the tiers of an engine hold the records of a log, and
that the jobs under way can do no harm: a flush's memtable is still there, a
compaction's tables too, the tables made have ids of their own, and no table
is taken by two compactions. There is one lemma for each thing that can
happen to it.
-/

namespace LG.Proof.Core

open LG.Impl.Core LG.Spec.Core

variable {c : SSTableCode} {ssts : OrdMap Nat (List UInt8)} {disk : Disk}

/-! ## What a compaction writes -/

/-- What a compaction reads of a table: nothing if it cannot be opened. -/
def Scans (c : SSTableCode) (disk : Disk) (table : c.Meta) (recs : List Record) : Prop :=
  disk.ssts.lookup table.id = none ∧ recs = [] ∨
    ∃ file, disk.ssts.lookup table.id = some file ∧ Yields ⟨file, 0, table.indexOffset⟩ recs

/-- All of a table that is there. -/
theorem IsTable.scans (hl : Stores c) {table : c.Meta} {recs : List Record}
    (ht : IsTable c disk.ssts table recs) : Scans c disk table recs := by
  obtain ⟨tail, hfile, hindex⟩ := ht.bytes hl
  have hy : Yields ⟨walBytes recs ++ tail, 0, table.indexOffset⟩ _ :=
    yields_take tail (fun r hr => (ht.logged r hr).short) List.take_length.symm
      (hindex.trans (Nat.zero_add _).symm)
  rw [wholeRecords_of_le (by simp)] at hy
  exact .inr ⟨_, hfile, hy⟩

/-- The iterators over the tables that can be opened. -/
def openedIters (disk : Disk) (tables : List c.Meta) : List RecordIter :=
  tables.filterMap fun table =>
    (SSTableIterUnfiltered.new c (disk.ssts.lookup table.id) table).toOption.map
      RecordIter.unfiltered

section Opened

variable {tables : List c.Meta} {reads : c.Meta → List Record}

theorem openedIters_valid (hscans : ∀ t ∈ tables, Scans c disk t (reads t)) {iter : RecordIter}
    (hi : iter ∈ openedIters disk tables) :
    IterValid iter ∧ ∃ t ∈ tables, iterRest iter = reads t := by
  obtain ⟨t, ht, hnew⟩ := List.mem_filterMap.mp hi
  rcases hscans t ht with ⟨hnone, -⟩ | ⟨file, hfile, hy⟩
  · rw [hnone] at hnew
    cases hnew
  · rw [hfile] at hnew
    cases hnew
    exact ⟨⟨_, hy⟩, t, ht, iterRest_unfiltered hy⟩

/-- A source gives nothing, or what is read of a table. -/
theorem sourceRest_openedIters (hscans : ∀ t ∈ tables, Scans c disk t (reads t)) (i : Nat) :
    sourceRest ⟨none, openedIters disk tables⟩ i = [] ∨
      ∃ t ∈ tables, sourceRest ⟨none, openedIters disk tables⟩ i = reads t := by
  cases i with
  | zero => exact .inl rfl
  | succ n =>
    refine (sourceRest_succ ⟨none, openedIters disk tables⟩ n).imp_right ?_
    rintro ⟨iter, hiter, heq⟩
    obtain ⟨-, t, ht, hrest⟩ := openedIters_valid hscans hiter
    exact ⟨t, ht, heq.trans hrest⟩

/-- What is read of a table comes from a source. -/
theorem exists_source_openedIters (hscans : ∀ t ∈ tables, Scans c disk t (reads t)) {t : c.Meta}
    (ht : t ∈ tables) {r : Record} (hr : r ∈ reads t) :
    ∃ i ∈ sourcesOf false (openedIters disk tables).length,
      r ∈ sourceRest ⟨none, openedIters disk tables⟩ i := by
  rcases hscans t ht with ⟨-, hnil⟩ | ⟨file, hfile, hy⟩
  · rw [hnil] at hr
    cases hr
  · have hmem : RecordIter.unfiltered ⟨file, 0, t.indexOffset⟩ ∈ openedIters disk tables :=
      List.mem_filterMap.mpr ⟨t, ht, by rw [hfile]; rfl⟩
    obtain ⟨i, hi, heq⟩ := exists_source (s := ⟨none, openedIters disk tables⟩) hmem false
    rw [iterRest_unfiltered hy] at heq
    exact ⟨i, hi, heq ▸ hr⟩

/-- A compaction writes what it reads of its tables, in order. -/
theorem compactedRecords_scans (hp : RecordHeap)
    (hscans : ∀ t ∈ tables, Scans c disk t (reads t))
    (hasc : ∀ t ∈ tables, Ascending (reads t)) (hc : ∀ t ∈ tables, ∀ r ∈ reads t, r.Comparable) :
    ∃ out, System.compactedRecords hp disk tables = some out ∧ Ascending out ∧
      (∀ r ∈ out, ∃ t ∈ tables, r ∈ reads t) ∧
      ∀ t ∈ tables, ∀ r ∈ reads t, ∃ r' ∈ out, r'.orderKey = r.orderKey := by
  have hsource := sourceRest_openedIters hscans
  have hfromTable {i : Nat} {r : Record}
      (hr : r ∈ sourceRest ⟨none, openedIters disk tables⟩ i) : ∃ t ∈ tables, r ∈ reads t := by
    rcases hsource i with hnil | ⟨t, ht, heq⟩
    · simp [hnil] at hr
    · exact ⟨t, ht, heq ▸ hr⟩
  have hv : SourcesValid false (openedIters disk tables).length ⟨none, openedIters disk tables⟩ :=
    ⟨rfl, rfl, fun iter hi => (openedIters_valid hscans hi).1⟩
  obtain ⟨m, hnew, out, hd, hasc, hfrom, hall, hlen⟩ := drains_mergeIter hp hv
    (fun i _ => by
      rcases hsource i with hnil | ⟨t, ht, heq⟩
      · rw [hnil]
        exact .nil
      · rw [heq]
        exact hasc t ht)
    fun i _ r hr => by
      obtain ⟨t, ht, hr⟩ := hfromTable hr
      exact hc t ht r hr
  refine ⟨out, ?_, hasc, fun r hr => ?_, fun t ht r hr => ?_⟩
  · unfold System.compactedRecords
    exact (congrArg (Option.bind · _) hnew).trans (hd.collect (Nat.lt_succ_of_le hlen))
  · obtain ⟨i, -, hr⟩ := hfrom r hr
    exact hfromTable hr
  · obtain ⟨i, hi, hr⟩ := exists_source_openedIters hscans ht hr
    exact hall i hi r hr

end Opened

/-- A compaction writes the records of its tables, in order. -/
theorem compactedRecords_spec (hl : Stores c) (hp : RecordHeap) {tables : List c.Meta}
    {contents : c.Meta → List Record} (ht : ∀ t ∈ tables, IsTable c disk.ssts t (contents t)) :
    ∃ out, System.compactedRecords hp disk tables = some out ∧ Ascending out ∧
      (∀ r ∈ out, ∃ t ∈ tables, r ∈ contents t) ∧
      ∀ t ∈ tables, ∀ r ∈ contents t, ∃ r' ∈ out, r'.orderKey = r.orderKey :=
  compactedRecords_scans hp (fun t htable => (ht t htable).scans hl)
    (fun t htable => (ht t htable).ascending) fun t htable r hr => ((ht t htable).logged r hr).comparable

/-! ## The invariant -/

/-- What a job finds: a flush its memtable, a compaction its tables. The table
that a job made holds what it takes the place of. -/
def JobHolds (log : List Record) (frozen : OrdMap Nat MemTable) (tables : OrdMap Nat c.Meta)
    (ssts : OrdMap Nat (List UInt8)) : Job c → Prop
  | .command .resyncWal => True
  | .command (.flushMemtable m id) => (id, m) ∈ frozen.elems
  | .command (.compactSSTables ts _) => ∀ t ∈ ts, (t.id, t) ∈ tables.elems
  | .result (.flush newMeta) =>
    ∃ m, (newMeta.id, m) ∈ frozen.elems ∧ IsTable c ssts newMeta m.bset.elems
  | .result (.compaction newMeta ids) => ∃ recs, IsTable c ssts newMeta recs ∧ recs ⊆ log ∧
    ∀ id ∈ ids, ∃ t, (id, t) ∈ tables.elems ∧ ∃ old, IsTable c ssts t old ∧ old ⊆ recs

/-- A job needs the memtable that it flushes, the tables that it takes the place
of, and the table that it made: other changes do not matter to it. -/
theorem JobHolds.mono {log log' : List Record} {frozen frozen' : OrdMap Nat MemTable}
    {tables tables' : OrdMap Nat c.Meta} {ssts ssts' : OrdMap Nat (List UInt8)} {j : Job c}
    (h : JobHolds log frozen tables ssts j) (hlog : log ⊆ log')
    (hfrozen : ∀ id ∈ j.newIds, ∀ m, (id, m) ∈ frozen.elems → (id, m) ∈ frozen'.elems)
    (htables : ∀ id ∈ j.inputs, ∀ t, (id, t) ∈ tables.elems → (id, t) ∈ tables'.elems ∧
      ∀ recs, IsTable c ssts t recs → IsTable c ssts' t recs)
    (hnew : ∀ t recs, t.id ∈ j.newIds → IsTable c ssts t recs → IsTable c ssts' t recs) :
    JobHolds log' frozen' tables' ssts' j := by
  cases j with
  | command cmd =>
    cases cmd with
    | resyncWal => trivial
    | flushMemtable m id => exact hfrozen id List.mem_cons_self m h
    | compactSSTables ts id => exact fun t ht => (htables t.id (List.mem_map_of_mem ht) t (h t ht)).1
  | result result =>
    cases result with
    | flush newMeta =>
      obtain ⟨m, hm, htable⟩ := h
      exact ⟨m, hfrozen _ List.mem_cons_self m hm, hnew _ _ List.mem_cons_self htable⟩
    | compaction newMeta ids =>
      obtain ⟨recs, hrecs, hsub, hids⟩ := h
      refine ⟨recs, hnew _ _ List.mem_cons_self hrecs, fun r hr => hlog (hsub hr), fun id hid => ?_⟩
      obtain ⟨t, ht, old, hold, hsub⟩ := hids id hid
      obtain ⟨ht', hkeep⟩ := htables id hid t ht
      exact ⟨t, ht', old, hkeep old hold, hsub⟩

/-- The tiers of an engine hold the records of a log. -/
structure TiersHold (log : List Record) (e : Engine c) (ssts : OrdMap Nat (List UInt8))
    (jobs : List (Job c)) : Prop where
  mem : ∀ r, InMem e r → r ∈ log
  tables : ∀ p ∈ e.sstableMap.elems, p.2.id = p.1 ∧ p.1 < e.sstCounter ∧
    ∃ recs, IsTable c ssts p.2 recs ∧ recs ⊆ log
  held : ∀ r ∈ log, InTier e ssts r
  frozen : ∀ p ∈ e.frozenMemtables.elems, p.1 < e.sstCounter
  job : ∀ j ∈ jobs, JobHolds log e.frozenMemtables e.sstableMap ssts j
  newIds : (jobs.flatMap Job.newIds).Nodup
  fresh : ∀ id ∈ jobs.flatMap Job.newIds, id < e.sstCounter ∧ ∀ t, (id, t) ∉ e.sstableMap.elems
  inputs : (jobs.flatMap Job.inputs).Nodup
  compacting : ∀ id ∈ jobs.flatMap Job.inputs, id ∈ e.compacting

namespace TiersHold

variable {log : List Record} {e : Engine c} {jobs jobs' : List (Job c)}

theorem perm (h : TiersHold log e ssts jobs) (hperm : jobs.Perm jobs') :
    TiersHold log e ssts jobs' where
  mem := h.mem
  tables := h.tables
  held := h.held
  frozen := h.frozen
  job j hj := h.job j (hperm.mem_iff.mpr hj)
  newIds := (hperm.flatMap_right _).nodup_iff.mp h.newIds
  fresh id hid := h.fresh id ((hperm.flatMap_right _).mem_iff.mpr hid)
  inputs := (hperm.flatMap_right _).nodup_iff.mp h.inputs
  compacting id hid := h.compacting id ((hperm.flatMap_right _).mem_iff.mpr hid)

/-- The counter's value is an id that no table has, and no job. -/
theorem allocate (h : TiersHold log e ssts jobs) :
    (e.sstCounter :: jobs.flatMap Job.newIds).Nodup ∧
      ∀ id ∈ e.sstCounter :: jobs.flatMap Job.newIds, id < e.sstCounter + 1 ∧
        ∀ t, (id, t) ∉ e.sstableMap.elems := by
  refine ⟨List.nodup_cons.mpr ⟨fun hid => absurd (h.fresh _ hid).1 (lt_irrefl _), h.newIds⟩, ?_⟩
  intro id hid
  rcases List.mem_cons.mp hid with rfl | hid
  · exact ⟨Nat.lt_succ_self _, fun t ht => absurd (h.tables _ ht).2.1 (lt_irrefl _)⟩
  · exact ⟨Nat.lt_succ_of_lt (h.fresh id hid).1, (h.fresh id hid).2⟩

/-- A job that is gone without a result: what it was to take the place of is
still there. -/
theorem drop {j : Job c} (h : TiersHold log e ssts (j :: jobs)) : TiersHold log e ssts jobs where
  mem := h.mem
  tables := h.tables
  held := h.held
  frozen := h.frozen
  job j hj := h.job j (List.mem_cons_of_mem _ hj)
  newIds := (List.nodup_append.mp h.newIds).2.1
  fresh id hid := h.fresh id (List.mem_append_right _ hid)
  inputs := (List.nodup_append.mp h.inputs).2.1
  compacting id hid := h.compacting id (List.mem_append_right _ hid)

/-- The WAL is no tier. -/
theorem wal (h : TiersHold log e ssts jobs) (buffer : List Record) :
    TiersHold log { e with walBuffer := buffer } ssts jobs where
  mem := h.mem
  tables := h.tables
  held := h.held
  frozen := h.frozen
  job := h.job
  newIds := h.newIds
  fresh := h.fresh
  inputs := h.inputs
  compacting := h.compacting

/-- Inserts add their records to the memtable. -/
theorem insert (h : TiersHold log e ssts jobs) {recs wal : List Record} {m : MemTable} {seq : Nat}
    (hm : m.bset.elems.Perm (recs ++ e.memtable.bset.elems)) :
    TiersHold (log ++ recs) { e with walBuffer := wal, memtable := m, seqCounter := seq } ssts
      jobs where
  mem r hr := by
    rcases hr with hr | hr
    · rcases List.mem_append.mp (hm.mem_iff.mp hr) with hr | hr
      · exact List.mem_append_right _ hr
      · exact List.mem_append_left _ (h.mem r (.inl hr))
    · exact List.mem_append_left _ (h.mem r (.inr hr))
  tables p hp := by
    obtain ⟨hid, hlt, l, hl, hsub⟩ := h.tables p hp
    exact ⟨hid, hlt, l, hl, List.subset_append_of_subset_left _ hsub⟩
  held r hr := by
    rcases List.mem_append.mp hr with hr | hr
    · rcases h.held r hr with (hr | hr) | hr
      · exact .inl (.inl (hm.mem_iff.mpr (List.mem_append_right _ hr)))
      · exact .inl (.inr hr)
      · exact .inr hr
    · exact .inl (.inl (hm.mem_iff.mpr (List.mem_append_left _ hr)))
  frozen := h.frozen
  job j hj := (h.job j hj).mono (List.subset_append_left _ _) (fun _ _ _ => id)
    (fun _ _ _ ht => ⟨ht, fun _ => id⟩) fun _ _ _ => id
  newIds := h.newIds
  fresh := h.fresh
  inputs := h.inputs
  compacting := h.compacting

/-- A flush is sent: the memtable becomes a frozen one. -/
theorem freeze (h : TiersHold log e ssts jobs) {wal : List Record} {m : MemTable}
    (hm : m.bset.elems = []) :
    TiersHold log
      { e with
        walBuffer := wal
        memtable := m
        frozenMemtables := e.frozenMemtables.upsert e.sstCounter e.memtable
        sstCounter := e.sstCounter + 1 } ssts
      (.command .resyncWal :: .command (.flushMemtable e.memtable e.sstCounter) :: jobs) where
  mem r hr := by
    rcases hr with hr | ⟨p, hp, hr⟩
    · simp [hm] at hr
    · rcases OrdMap.mem_upsert hp with rfl | hp
      · exact h.mem r (.inl hr)
      · exact h.mem r (.inr ⟨p, hp, hr⟩)
  tables p hp := by
    obtain ⟨hid, hlt, hrecs⟩ := h.tables p hp
    exact ⟨hid, Nat.lt_succ_of_lt hlt, hrecs⟩
  held r hr := by
    rcases h.held r hr with (hr | ⟨p, hp, hr⟩) | hr
    · exact .inl (.inr ⟨_, OrdMap.mem_upsert_iff.mpr (.inl rfl), hr⟩)
    · exact .inl (.inr ⟨p, OrdMap.mem_upsert_iff.mpr (.inr ⟨hp, (h.frozen p hp).ne⟩), hr⟩)
    · exact .inr hr
  frozen p hp := by
    rcases OrdMap.mem_upsert hp with rfl | hp
    · exact Nat.lt_succ_self _
    · exact Nat.lt_succ_of_lt (h.frozen p hp)
  job j hj := by
    rcases List.mem_cons.mp hj with rfl | hj
    · trivial
    rcases List.mem_cons.mp hj with rfl | hj
    · exact OrdMap.mem_upsert_iff.mpr (.inl rfl)
    refine (h.job j hj).mono (List.Subset.refl _) (fun id _ m hmem => ?_)
      (fun _ _ _ ht => ⟨ht, fun _ => id⟩) fun _ _ _ => id
    exact OrdMap.mem_upsert_iff.mpr (.inr ⟨hmem, (h.frozen _ hmem).ne⟩)
  newIds := h.allocate.1
  fresh := h.allocate.2
  inputs := h.inputs
  compacting := h.compacting

/-- A compaction is sent. -/
theorem compact (h : TiersHold log e ssts jobs) {ts : List c.Meta}
    (hts : ∀ t ∈ ts, (t.id, t) ∈ e.sstableMap.elems ∧ t.id ∉ e.compacting)
    (hnodup : (ts.map fun t => t.id).Nodup) :
    TiersHold log
      { e with
        compacting := e.compacting ∪ (ts.map fun t => t.id).toFinset
        sstCounter := e.sstCounter + 1 } ssts
      (.command (.compactSSTables ts e.sstCounter) :: jobs) where
  mem := h.mem
  tables p hp := by
    obtain ⟨hid, hlt, hrecs⟩ := h.tables p hp
    exact ⟨hid, Nat.lt_succ_of_lt hlt, hrecs⟩
  held := h.held
  frozen p hp := Nat.lt_succ_of_lt (h.frozen p hp)
  job j hj := by
    rcases List.mem_cons.mp hj with rfl | hj
    · exact fun t ht => (hts t ht).1
    · exact h.job j hj
  newIds := h.allocate.1
  fresh := h.allocate.2
  inputs := by
    refine List.nodup_append.mpr ⟨hnodup, h.inputs, fun a ha b hb hab => ?_⟩
    obtain ⟨t, ht, rfl⟩ := List.mem_map.mp ha
    exact (hts t ht).2 (h.compacting _ (hab ▸ hb))
  compacting id hid := by
    rcases List.mem_append.mp hid with hid | hid
    · exact Finset.mem_union_right _ (List.mem_toFinset.mpr hid)
    · exact Finset.mem_union_left _ (h.compacting id hid)

/-- A task ends: its file is written, and the command becomes its result. -/
theorem finish {cmd : IoCommand c} {result : IoResult c} {id : Nat} {file : List UInt8}
    (h : TiersHold log e ssts (.command cmd :: jobs)) (hcmd : Job.newIds (.command cmd) = [id])
    (hresult : Job.newIds (.result result) = [id])
    (hinputs : Job.inputs (.result result) = Job.inputs (.command cmd))
    (hjob : JobHolds log e.frozenMemtables e.sstableMap (ssts.upsert id file) (.result result)) :
    TiersHold log e (ssts.upsert id file) (.result result :: jobs) := by
  have hids : (.result result :: jobs).flatMap Job.newIds =
      (.command cmd :: jobs).flatMap Job.newIds := by
    rw [List.flatMap_cons, List.flatMap_cons, hcmd, hresult]
  have hins : (.result result :: jobs).flatMap Job.inputs =
      (.command cmd :: jobs).flatMap Job.inputs := by
    rw [List.flatMap_cons, List.flatMap_cons, hinputs]
  have hnew : id ∈ (.command cmd :: jobs).flatMap Job.newIds := by simp [hcmd]
  have htable {p : Nat × c.Meta} (hp : p ∈ e.sstableMap.elems) : p.2.id ≠ id := by
    rw [(h.tables p hp).1]
    rintro rfl
    exact (h.fresh _ hnew).2 _ hp
  have hother {id' : Nat} (hid : id' ∈ jobs.flatMap Job.newIds) : id' ≠ id := by
    have hnodup := h.newIds
    rw [List.flatMap_cons, hcmd, List.singleton_append, List.nodup_cons] at hnodup
    exact fun heq => hnodup.1 (heq ▸ hid)
  refine ⟨h.mem, fun p hp => ?_, fun r hr => ?_, h.frozen, fun j hj => ?_, ?_, ?_, ?_, ?_⟩
  · obtain ⟨hid, hlt, recs, hrecs, hsub⟩ := h.tables p hp
    exact ⟨hid, hlt, recs, hrecs.upsert (htable hp) file, hsub⟩
  · refine (h.held r hr).imp_right ?_
    intro ⟨p, hp, recs, hrecs, hr⟩
    exact ⟨p, hp, recs, hrecs.upsert (htable hp) file, hr⟩
  · rcases List.mem_cons.mp hj with rfl | hj
    · exact hjob
    refine (h.job j (List.mem_cons_of_mem _ hj)).mono (List.Subset.refl _) (fun _ _ _ h => h)
      (fun _ _ t ht => ⟨ht, fun recs hrecs => hrecs.upsert (htable ht) file⟩)
      fun t recs hid hrecs => hrecs.upsert (hother ?_) file
    exact List.mem_flatMap.mpr ⟨j, hj, hid⟩
  · exact hids ▸ h.newIds
  · exact hids ▸ h.fresh
  · exact hins ▸ h.inputs
  · exact hins ▸ h.compacting

/-- A flush's result is applied: the table takes the place of the frozen
memtable. -/
theorem flushApplied {newMeta : c.Meta} (h : TiersHold log e ssts (.result (.flush newMeta) :: jobs)) :
    TiersHold log
      { e with
        frozenMemtables := e.frozenMemtables.remove newMeta.id
        sstableMap := e.sstableMap.upsert newMeta.id newMeta } ssts jobs := by
  obtain ⟨m, hm, htable⟩ := h.job _ List.mem_cons_self
  obtain ⟨hlt, hfresh⟩ := h.fresh newMeta.id List.mem_cons_self
  have hne {id : Nat} (hid : id ∈ jobs.flatMap Job.newIds) : id ≠ newMeta.id :=
    fun heq => (List.nodup_cons.mp h.newIds).1 (heq ▸ hid)
  have hkeep {p : Nat × c.Meta} (hp : p ∈ e.sstableMap.elems) :
      p ∈ (e.sstableMap.upsert newMeta.id newMeta).elems :=
    OrdMap.mem_upsert_iff.mpr (.inr ⟨hp, fun heq => hfresh p.2 (heq ▸ hp)⟩)
  refine ⟨fun r hr => ?_, fun p hp => ?_, fun r hr => ?_, fun p hp => ?_, fun j hj => ?_,
    (List.nodup_cons.mp h.newIds).2, fun id hid => ?_, h.inputs, h.compacting⟩
  · rcases hr with hr | ⟨p, hp, hr⟩
    · exact h.mem r (.inl hr)
    · exact h.mem r (.inr ⟨p, (OrdMap.mem_remove.mp hp).1, hr⟩)
  · rcases OrdMap.mem_upsert hp with rfl | hp
    · exact ⟨rfl, hlt, m.bset.elems, htable, fun r hr => h.mem r (.inr ⟨_, hm, hr⟩)⟩
    · exact h.tables p hp
  · rcases h.held r hr with (hr | ⟨⟨id, m'⟩, hp, hr⟩) | ⟨p, hp, recs, hrecs, hr⟩
    · exact .inl (.inl hr)
    · by_cases hid : id = newMeta.id
      · subst hid
        rw [OrdMap.value_inj hp hm] at hr
        exact .inr ⟨_, OrdMap.mem_upsert_iff.mpr (.inl rfl), _, htable, hr⟩
      · exact .inl (.inr ⟨_, OrdMap.mem_remove.mpr ⟨hp, hid⟩, hr⟩)
    · exact .inr ⟨p, hkeep hp, recs, hrecs, hr⟩
  · exact h.frozen p (OrdMap.mem_remove.mp hp).1
  · refine (h.job j (List.mem_cons_of_mem _ hj)).mono (List.Subset.refl _) (fun id hid m hm => ?_)
      (fun _ _ t ht => ⟨hkeep ht, fun _ h => h⟩) fun _ _ _ h => h
    exact OrdMap.mem_remove.mpr ⟨hm, hne (List.mem_flatMap.mpr ⟨j, hj, hid⟩)⟩
  · obtain ⟨hlt, hfree⟩ := h.fresh id (List.mem_cons_of_mem _ hid)
    refine ⟨hlt, fun t ht => ?_⟩
    rcases OrdMap.mem_upsert ht with heq | ht
    · exact hne hid (congrArg Prod.fst heq)
    · exact hfree t ht

/-- A compaction's result is applied: the new table takes the place of the old
ones, whose files are deleted. -/
theorem compactionApplied (hl : Stores c) {newMeta : c.Meta} {ids : List Nat}
    (h : TiersHold log e ssts (.result (.compaction newMeta ids) :: jobs)) :
    TiersHold log
      { e with
        compacting := e.compacting \ ids.toFinset
        sstableMap := (ids.foldl OrdMap.remove e.sstableMap).upsert newMeta.id newMeta }
      (ids.foldl OrdMap.remove ssts) jobs := by
  obtain ⟨recs, htable, hsub, hids⟩ := h.job _ List.mem_cons_self
  obtain ⟨hlt, hfresh⟩ := h.fresh newMeta.id List.mem_cons_self
  have hne {id : Nat} (hid : id ∈ jobs.flatMap Job.newIds) : id ≠ newMeta.id :=
    fun heq => (List.nodup_cons.mp h.newIds).1 (heq ▸ hid)
  -- The files deleted are those of tables, not of jobs.
  have hfree {id : Nat} (hid : ∀ t, (id, t) ∉ e.sstableMap.elems) : id ∉ ids := by
    intro hmem
    obtain ⟨t, ht, -⟩ := hids id hmem
    exact hid t ht
  have hdisjoint {id : Nat} (hid : id ∈ jobs.flatMap Job.inputs) : id ∉ ids :=
    fun hmem => (List.nodup_append.mp h.inputs).2.2 id hmem id hid rfl
  have hkeep {p : Nat × c.Meta} (hp : p ∈ e.sstableMap.elems) (hid : p.1 ∉ ids) :
      p ∈ ((ids.foldl OrdMap.remove e.sstableMap).upsert newMeta.id newMeta).elems :=
    OrdMap.mem_upsert_iff.mpr (.inr ⟨OrdMap.mem_foldl_remove.mpr ⟨hp, hid⟩,
      fun heq => hfresh p.2 (heq ▸ hp)⟩)
  have hstays {p : Nat × c.Meta} {l : List Record} (hp : p ∈ e.sstableMap.elems) (hid : p.1 ∉ ids)
      (hl : IsTable c ssts p.2 l) : IsTable c (ids.foldl OrdMap.remove ssts) p.2 l := by
    apply hl.remove
    rw [(h.tables p hp).1]
    exact hid
  have hnew := htable.remove (hfree hfresh)
  refine ⟨h.mem, fun p hp => ?_, fun r hr => ?_, h.frozen, fun j hj => ?_,
    (List.nodup_cons.mp h.newIds).2, fun id hid => ?_, (List.nodup_append.mp h.inputs).2.1,
    fun id hid => ?_⟩
  · rcases OrdMap.mem_upsert hp with rfl | hp
    · exact ⟨rfl, hlt, recs, hnew, hsub⟩
    · obtain ⟨hp, hid⟩ := OrdMap.mem_foldl_remove.mp hp
      obtain ⟨heq, hlt, l, hl, hsub⟩ := h.tables p hp
      exact ⟨heq, hlt, l, hstays hp hid hl, hsub⟩
  · rcases h.held r hr with hr | ⟨p, hp, l, hrecs, hr⟩
    · exact .inl hr
    · by_cases hid : p.1 ∈ ids
      · obtain ⟨t, ht, old, hold, hsub⟩ := hids p.1 hid
        rw [OrdMap.value_inj ht hp] at hold
        rw [hrecs.unique hl hold] at hr
        exact .inr ⟨_, OrdMap.mem_upsert_iff.mpr (.inl rfl), recs, hnew, hsub hr⟩
      · exact .inr ⟨p, hkeep hp hid, l, hstays hp hid hrecs, hr⟩
  · refine (h.job j (List.mem_cons_of_mem _ hj)).mono (List.Subset.refl _) (fun _ _ _ h => h)
      (fun id hid t ht => ?_) fun t l hid hl => hl.remove (hfree ?_)
    · have hid := hdisjoint (List.mem_flatMap.mpr ⟨j, hj, hid⟩)
      exact ⟨hkeep ht hid, fun l hl => hstays ht hid hl⟩
    · exact (h.fresh t.id (List.mem_cons_of_mem _ (List.mem_flatMap.mpr ⟨j, hj, hid⟩))).2
  · obtain ⟨hlt, hfree⟩ := h.fresh id (List.mem_cons_of_mem _ hid)
    refine ⟨hlt, fun t ht => ?_⟩
    rcases OrdMap.mem_upsert ht with heq | ht
    · exact hne hid (congrArg Prod.fst heq)
    · exact hfree t (OrdMap.mem_foldl_remove.mp ht).1
  · refine Finset.mem_sdiff.mpr ⟨h.compacting id (List.mem_append_right _ hid), fun hmem => ?_⟩
    exact hdisjoint hid (List.mem_toFinset.mp hmem)

end TiersHold

end LG.Proof.Core
