import Logregator.Proof.Core.StaleWals
import Logregator.Spec.Core.Durability
import Mathlib.Data.List.Pairwise

/-!
# What the directory keeps

In a run from an empty directory, whatever I/O fails, the records of a log are
those on the disk and, after them, those that the WAL's writer still has
(`Written`). A WAL file is deleted when a table has its records, a table when
another has them, and neither a rotation nor a table that is written replaces a
file. So a crash loses just what the writer has.
-/

namespace LG.Proof.Core

open LG.Impl.Core LG.Spec.Core

variable {c : SSTableCode} {hp : RecordHeap} {s s' : System c} {log : List Insert}
  {stored : List Record}

/-- A table of the engine, or one whose result is to be applied. -/
def Finished (s : System c) (table : c.Meta) : Prop :=
  (table.id, table) ∈ s.engine.sstableMap.elems ∨ .result (.flush table) ∈ jobs s ∨
    ∃ ids, .result (.compaction table ids) ∈ jobs s

/-- The records of a log that are stored are on the disk, and the writer has the
others. -/
structure Written (log : List Insert) (stored : List Record) (s : System c) : Prop where
  buffer : numbered 1 log = stored ++ s.engine.walBuffer
  wals : ∀ r, InWal s.disk r → r ∈ stored
  files : ∀ p ∈ s.disk.ssts.elems, ∃ table, Finished s table ∧ table.id = p.1
  tables : ∀ table recs, Finished s table → IsTable c s.disk.ssts table recs → recs ⊆ stored
  kept : ∀ r ∈ stored, InWal s.disk r ∨
    ∃ table recs, Finished s table ∧ IsTable c s.disk.ssts table recs ∧ r ∈ recs
  flushes : ∀ m id, .command (.flushMemtable m id) ∈ jobs s → m.bset.elems ⊆ stored

/-! ## Tables -/

/-- A finished table has its file. -/
theorem Holds.isTable (h : Holds log s) {table : c.Meta} (ht : Finished s table) :
    ∃ recs, IsTable c s.disk.ssts table recs := by
  rcases ht with ht | ht | ⟨ids, ht⟩
  · obtain ⟨-, -, recs, hrecs, -⟩ := h.tiers.tables _ ht
    exact ⟨recs, hrecs⟩
  · obtain ⟨m, -, hm⟩ := h.tiers.job _ ht
    exact ⟨_, hm⟩
  · obtain ⟨recs, hrecs, -⟩ := h.tiers.job _ ht
    exact ⟨recs, hrecs⟩

/-- A task's table is none of those that are finished. -/
theorem Holds.ne_of_finished (h : Holds log s) {table : c.Meta} (ht : Finished s table)
    {task : IoCommand c} {rest : List (Job c)} (hjobs : (jobs s).Perm (.command task :: rest))
    {id : Nat} (hid : id ∈ (Job.command task).newIds) : table.id ≠ id := by
  have htiers := h.tiers.perm hjobs
  have hnew : id ∈ (Job.command task :: rest).flatMap Job.newIds :=
    List.mem_append_left _ hid
  -- A job that is a result is one of the others.
  have hother {result : IoResult c} (hr : .result result ∈ jobs s)
      (hmem : table.id ∈ (Job.result result).newIds) : table.id ≠ id := by
    have hrest : Job.result result ∈ rest :=
      (List.mem_cons.mp (hjobs.mem_iff.mp hr)).resolve_left (by simp)
    have hnodup := htiers.newIds
    rw [List.flatMap_cons, List.nodup_append] at hnodup
    exact fun heq => hnodup.2.2 id hid _ (List.mem_flatMap.mpr ⟨_, hrest, hmem⟩) heq.symm
  rcases ht with ht | ht | ⟨ids, ht⟩
  · rintro rfl
    exact (htiers.fresh _ hnew).2 _ ht
  · exact hother ht List.mem_cons_self
  · exact hother ht List.mem_cons_self

/-- A result's table is none of the engine's. -/
theorem Holds.fresh_result (h : Holds log s) {result : IoResult c} (hr : .result result ∈ jobs s)
    {id : Nat} (hid : id ∈ (Job.result result).newIds) (t : c.Meta) :
    (id, t) ∉ s.engine.sstableMap.elems :=
  (h.tiers.fresh id (List.mem_flatMap.mpr ⟨_, hr, hid⟩)).2 t

/-- A finished table is known by its id. -/
theorem Holds.finished_inj (h : Holds log s) {t t' : c.Meta} (ht : Finished s t)
    (ht' : Finished s t') (hid : t.id = t'.id) : t = t' := by
  -- Two results with tables of one id are the same.
  have hresults {result result' : IoResult c} (hr : .result result ∈ jobs s)
      (hr' : .result result' ∈ jobs s) (hmem : t.id ∈ (Job.result result).newIds)
      (hmem' : t.id ∈ (Job.result result').newIds) : result = result' := by
    by_contra hne
    have hpairs := (List.nodup_flatMap.mp h.tiers.newIds).2
    have : Std.Symm (Function.onFun List.Disjoint (Job.newIds : Job c → List Nat)) :=
      ⟨fun _ _ hd => hd.symm⟩
    exact hpairs.forall hr hr' (by simpa using hne) hmem hmem'
  rcases ht with ht | ht | ⟨ids, ht⟩
  · rcases ht' with ht' | ht' | ⟨ids', ht'⟩
    · rw [hid] at ht
      exact OrdMap.value_inj ht ht'
    · exact absurd (hid ▸ ht) (h.fresh_result ht' List.mem_cons_self t)
    · exact absurd (hid ▸ ht) (h.fresh_result ht' List.mem_cons_self t)
  · rcases ht' with ht' | ht' | ⟨ids', ht'⟩
    · exact absurd (hid ▸ ht') (h.fresh_result ht List.mem_cons_self t')
    · cases hresults ht ht' List.mem_cons_self (hid ▸ List.mem_cons_self)
      rfl
    · cases hresults ht ht' List.mem_cons_self (hid ▸ List.mem_cons_self)
  · rcases ht' with ht' | ht' | ⟨ids', ht'⟩
    · exact absurd (hid ▸ ht') (h.fresh_result ht List.mem_cons_self t')
    · cases hresults ht ht' List.mem_cons_self (hid ▸ List.mem_cons_self)
    · cases hresults ht ht' List.mem_cons_self (hid ▸ List.mem_cons_self)
      rfl

/-- The file of another table than the one written. -/
theorem IsTable.of_upsert {ssts : OrdMap Nat (List UInt8)} {id : Nat} {file : List UInt8}
    {table : c.Meta} {recs : List Record} (h : IsTable c (ssts.upsert id file) table recs)
    (hne : table.id ≠ id) : IsTable c ssts table recs := by
  obtain ⟨hint, own, hmem, hw⟩ := h.written
  refine ⟨⟨hint, own, (OrdMap.mem_upsert hmem).resolve_left fun heq => ?_, hw⟩, h.ascending,
    h.logged⟩
  exact hne (congrArg Prod.fst heq)

/-- A file that was not deleted. -/
theorem IsTable.of_remove {ssts : OrdMap Nat (List UInt8)} {ids : List Nat} {table : c.Meta}
    {recs : List Record} (h : IsTable c (ids.foldl OrdMap.remove ssts) table recs) :
    IsTable c ssts table recs := by
  obtain ⟨hint, own, hmem, hw⟩ := h.written
  exact ⟨⟨hint, own, (OrdMap.mem_foldl_remove.mp hmem).1, hw⟩, h.ascending, h.logged⟩

/-- Jobs that are no results say nothing of the tables. -/
theorem Finished.of_jobs {table : c.Meta} (h : Finished s table)
    (hmap : s'.engine.sstableMap = s.engine.sstableMap)
    (hjobs : ∀ result, .result result ∈ jobs s → .result result ∈ jobs s') :
    Finished s' table := by
  rcases h with h | h | ⟨ids, h⟩
  · rw [← hmap] at h
    exact .inl h
  · exact .inr (.inl (hjobs _ h))
  · exact .inr (.inr ⟨ids, hjobs _ h⟩)

namespace Written

/-- Commands come and go, and nothing else changes on the disk. -/
theorem of_jobs (h : Written log stored s) (hbuffer : s'.engine.walBuffer = s.engine.walBuffer)
    (hdisk : s'.disk = s.disk) (hmap : s'.engine.sstableMap = s.engine.sstableMap)
    (hresults : ∀ result, .result result ∈ jobs s' ↔ .result result ∈ jobs s)
    (hflushes : ∀ m id, .command (.flushMemtable m id) ∈ jobs s' → m.bset.elems ⊆ stored) :
    Written log stored s' := by
  have hto {table : c.Meta} (ht : Finished s table) : Finished s' table :=
    ht.of_jobs hmap fun result => (hresults result).mpr
  have hfrom {table : c.Meta} (ht : Finished s' table) : Finished s table :=
    ht.of_jobs hmap.symm fun result => (hresults result).mp
  refine ⟨hbuffer ▸ h.buffer, hdisk ▸ h.wals, fun p hp => ?_, fun table recs ht hr => ?_,
    fun r hr => ?_, hflushes⟩
  · rw [hdisk] at hp
    obtain ⟨table, ht, hid⟩ := h.files p hp
    exact ⟨table, hto ht, hid⟩
  · rw [hdisk] at hr
    exact h.tables table recs (hfrom ht) hr
  · rw [hdisk]
    refine (h.kept r hr).imp_right ?_
    rintro ⟨table, recs, ht, hrecs, hr⟩
    exact ⟨table, recs, hto ht, hrecs, hr⟩

/-- The writer takes new records. -/
theorem inserted (h : Written log stored s) (hh : Holds log s) {inserts : List Insert}
    {e' : Engine c} (hi : Inserted s.engine inserts e') :
    Written (log ++ inserts) stored { s with engine := e' } := by
  obtain ⟨m, -, -, hlog, -, rfl⟩ := hh.inserted_memtable hi
  refine ⟨?_, h.wals, h.files, h.tables, h.kept, h.flushes⟩
  rw [hlog, h.buffer, List.append_assoc]

/-- The writer writes. -/
theorem wroteWal (h : Written log stored s) (n : Nat) :
    Written log (stored ++ s.engine.walBuffer.take n) (s.writeWal n) := by
  refine ⟨?_, fun r hr => ?_, h.files, fun table recs ht hrecs r hr => ?_, fun r hr => ?_,
    fun m id hm r hr => List.mem_append_left _ (h.flushes m id hm hr)⟩
  · show _ = _ ++ s.engine.walBuffer.drop n
    rw [List.append_assoc, List.take_append_drop, h.buffer]
  · rcases hr with hr | hr
    · rcases List.mem_append.mp hr with hr | hr
      · exact List.mem_append_left _ (h.wals r (.inl hr))
      · exact List.mem_append_right _ hr
    · exact List.mem_append_left _ (h.wals r (.inr hr))
  · exact List.mem_append_left _ (h.tables table recs ht hrecs hr)
  · rcases List.mem_append.mp hr with hr | hr
    · rcases h.kept r hr with (hr | hr) | hr
      · exact .inl (.inl (List.mem_append_left _ hr))
      · exact .inl (.inr hr)
      · exact .inr hr
    · exact .inl (.inl (List.mem_append_right _ hr))

/-- A rotation writes what the writer has. -/
theorem flushing (h : Written log stored s) (hh : Holds log s) (hw : WalSafe log s) :
    Written log (stored ++ s.engine.walBuffer) (flushing s) := by
  have hjobs := jobs_sent s (Core.flushing s) rfl rfl rfl
  have hresults (result : IoResult c) :
      .result result ∈ jobs (Core.flushing s) ↔ .result result ∈ jobs s := by
    rw [hjobs.mem_iff]
    simp
  have hto {table : c.Meta} (ht : Finished s table) : Finished (Core.flushing s) table :=
    ht.of_jobs rfl fun result => (hresults result).mpr
  have hfrom {table : c.Meta} (ht : Finished (Core.flushing s) table) : Finished s table :=
    ht.of_jobs rfl fun result => (hresults result).mp
  refine ⟨?_, fun r hr => ?_, fun p hp => ?_, fun table recs ht hrecs r hr => ?_, fun r hr => ?_,
    fun m id hm r hr => ?_⟩
  · exact h.buffer.trans (List.append_nil _).symm
  · rcases hr with hr | ⟨p, hp, hr⟩
    · cases hr
    · rcases OrdMap.mem_upsert hp with rfl | hp
      · rcases List.mem_append.mp hr with hr | hr
        · exact List.mem_append_left _ (h.wals r (.inl hr))
        · exact List.mem_append_right _ hr
      · exact List.mem_append_left _ (h.wals r (.inr ⟨p, hp, hr⟩))
  · obtain ⟨table, ht, hid⟩ := h.files p hp
    exact ⟨table, hto ht, hid⟩
  · exact List.mem_append_left _ (h.tables table recs (hfrom ht) hrecs hr)
  · -- The rotated file is a new one.
    have hnew (hr : r ∈ s.disk.active ++ s.engine.walBuffer) : InWal (Core.flushing s).disk r :=
      .inr ⟨_, OrdMap.mem_upsert_iff.mpr (.inl rfl), hr⟩
    rcases List.mem_append.mp hr with hr | hr
    · rcases h.kept r hr with (hr | ⟨p, hp, hr⟩) | ⟨table, recs, ht, hrecs, hr⟩
      · exact .inl (hnew (List.mem_append_left _ hr))
      · exact .inl (.inr ⟨p, OrdMap.mem_upsert_iff.mpr (.inr ⟨hp, (hw.wals_lt p hp).ne⟩), hr⟩)
      · exact .inr ⟨table, recs, hto ht, hrecs, hr⟩
    · exact .inl (hnew (List.mem_append_right _ hr))
  · rcases List.mem_append.mp (hjobs.mem_iff.mp hm) with hm | hm
    · obtain ⟨rfl, -⟩ : m = s.engine.memtable ∧ id = s.engine.sstCounter := by simpa using hm
      rw [← h.buffer]
      exact hh.tiers.mem r (.inl hr)
    · exact List.mem_append_left _ (h.flushes m id hm hr)

/-- The table of a task that ends has stored records. -/
theorem result_table (hl : Stores c) (h : Written log stored s) (hh : Holds log s)
    {task : IoCommand c} {id : Nat} {file : List UInt8} {result : IoResult c} {rest : List (Job c)}
    (hrun : System.runTask hp s.disk task = some (id, file, result))
    (hjobs : (jobs s).Perm (.command task :: rest)) :
    id ∈ (Job.command task).newIds ∧ ∃ newMeta recs,
      (result = .flush newMeta ∨ ∃ ids, result = .compaction newMeta ids) ∧ newMeta.id = id ∧
      IsTable c (s.disk.ssts.upsert id file) newMeta recs ∧ recs ⊆ stored := by
  have hlogged {r : Record} (hr : r ∈ stored) : Logged r :=
    logged_numbered (h.buffer ▸ List.mem_append_left _ hr)
  have htask := hjobs.mem_iff.mpr List.mem_cons_self
  rcases runTask_cases hrun with ⟨m, rfl, rfl, rfl⟩ | ⟨tables, out, rfl, hout, rfl, rfl⟩
  · have hsub := h.flushes m id htask
    obtain ⟨hid, htable⟩ := isTable_written hl s.disk.ssts m.bset.ascending
      (fun r hr => hlogged (hsub hr)) (rfl : c.writeToFile id m.bset.elems m.len = _)
    exact ⟨List.mem_cons_self, _, _, .inl rfl, hid, htable, hsub⟩
  · have hjob : ∀ t ∈ tables, (t.id, t) ∈ s.engine.sstableMap.elems := hh.tiers.job _ htask
    have hcontents (t : c.Meta) (ht : t ∈ tables) :
        ∃ l, IsTable c s.disk.ssts t l ∧ l ⊆ stored := by
      obtain ⟨-, -, l, hl', -⟩ := hh.tiers.tables _ (hjob t ht)
      exact ⟨l, hl', h.tables t l (.inl (hjob t ht)) hl'⟩
    choose! contents htables hsub using hcontents
    obtain ⟨out', hout', hasc, hfrom, -⟩ := compactedRecords_spec hl hp htables
    cases hout'.symm.trans hout
    have hstored : out ⊆ stored := by
      intro r hr
      obtain ⟨t, ht, hr⟩ := hfrom r hr
      exact hsub t ht hr
    obtain ⟨hid, htable⟩ := isTable_written hl s.disk.ssts hasc (fun r hr => hlogged (hstored hr))
      (rfl : c.writeToFile id out (tables.map fun table => table.numRecords).sum = _)
    exact ⟨List.mem_cons_self, _, _, .inr ⟨_, rfl⟩, hid, htable, hstored⟩

/-- A task ends: its file is a new one. -/
theorem finished (hl : Stores c) (h : Written log stored s) (hh : Holds log s)
    {task : IoCommand c} {id : Nat} {file : List UInt8} {result : IoResult c}
    {tasks : List (IoCommand c)} {rest : List (Job c)}
    (hrun : System.runTask hp s.disk task = some (id, file, result))
    (hjobs : (jobs s).Perm (.command task :: rest))
    (hjobs' : (jobs { s with tasks, results := s.results ++ [result] }).Perm
      (.result result :: rest)) :
    Written log stored { s with
      tasks, disk.ssts := s.disk.ssts.upsert id file, results := s.results ++ [result] } := by
  obtain ⟨hid, newMeta, newRecs, hresult, hnewId, hnew, hsub⟩ := h.result_table hl hh hrun hjobs
  generalize hs' : { s with
    tasks, disk.ssts := s.disk.ssts.upsert id file, results := s.results ++ [result] } = s'
  have hjobs' : (jobs s').Perm (.result result :: rest) := hs' ▸ hjobs'
  have hssts : s'.disk.ssts = s.disk.ssts.upsert id file := hs' ▸ rfl
  have hmap : s'.engine.sstableMap = s.engine.sstableMap := hs' ▸ rfl
  have hwals (r : Record) : InWal s'.disk r ↔ InWal s.disk r := hs' ▸ Iff.rfl
  have hto {table : c.Meta} (ht : Finished s table) : Finished s' table := by
    refine ht.of_jobs hmap fun result' hr => hjobs'.mem_iff.mpr (List.mem_cons_of_mem _ ?_)
    exact (List.mem_cons.mp (hjobs.mem_iff.mp hr)).resolve_left (by simp)
  have hnewFinished : Finished s' newMeta := by
    have hmem : .result result ∈ jobs s' := hjobs'.mem_iff.mpr List.mem_cons_self
    rcases hresult with rfl | ⟨ids, rfl⟩
    · exact .inr (.inl hmem)
    · exact .inr (.inr ⟨ids, hmem⟩)
  have hfrom {table : c.Meta} (ht : Finished s' table) : Finished s table ∨ table = newMeta := by
    have hold {result' : IoResult c} (hr : .result result' ∈ jobs s') :
        result' = result ∨ .result result' ∈ jobs s := by
      rcases List.mem_cons.mp (hjobs'.mem_iff.mp hr) with heq | hr
      · exact .inl (Job.result.inj heq)
      · exact .inr (hjobs.mem_iff.mpr (List.mem_cons_of_mem _ hr))
    rcases ht with ht | ht | ⟨ids, ht⟩
    · exact .inl (.inl (hmap ▸ ht))
    · rcases hold ht with rfl | ht
      · rcases hresult with heq | ⟨ids, heq⟩
        · cases heq
          exact .inr rfl
        · cases heq
      · exact .inl (.inr (.inl ht))
    · rcases hold ht with rfl | ht
      · rcases hresult with heq | ⟨ids, heq⟩
        · cases heq
        · cases heq
          exact .inr rfl
      · exact .inl (.inr (.inr ⟨ids, ht⟩))
  refine ⟨?_, fun r hr => h.wals r ((hwals r).mp hr), fun p hp => ?_,
    fun table recs ht hrecs => ?_, fun r hr => ?_, fun m k hm => ?_⟩
  · rw [← hs']
    exact h.buffer
  · rw [hssts] at hp
    rcases OrdMap.mem_upsert hp with rfl | hp
    · exact ⟨newMeta, hnewFinished, hnewId⟩
    · obtain ⟨table, ht, hid⟩ := h.files p hp
      exact ⟨table, hto ht, hid⟩
  · rw [hssts] at hrecs
    by_cases heq : table = newMeta
    · subst heq
      rw [hrecs.unique hl hnew]
      exact hsub
    · have ht := (hfrom ht).resolve_right heq
      exact h.tables table recs ht (hrecs.of_upsert (hh.ne_of_finished ht hjobs hid))
  · rcases h.kept r hr with hr | ⟨table, recs, ht, hrecs, hr⟩
    · exact .inl ((hwals r).mpr hr)
    · refine .inr ⟨table, recs, hto ht, ?_, hr⟩
      rw [hssts]
      exact hrecs.upsert (hh.ne_of_finished ht hjobs hid) file
  · have hrest := (List.mem_cons.mp (hjobs'.mem_iff.mp hm)).resolve_left (by simp)
    exact h.flushes m k (hjobs.mem_iff.mpr (List.mem_cons_of_mem _ hrest))

/-- A result is applied: other tables stay as they are. -/
theorem finished_applied {newMeta : c.Meta} {result : IoResult c} {table : c.Meta}
    (hjobs : (jobs s).Perm (.result result :: jobs s'))
    (hresult : result = .flush newMeta ∨ ∃ ids, result = .compaction newMeta ids)
    (hmap : ∀ t : c.Meta, t.id ≠ newMeta.id → (t.id, t) ∈ s.engine.sstableMap.elems →
      t = table → (t.id, t) ∈ s'.engine.sstableMap.elems)
    (hnew : (newMeta.id, newMeta) ∈ s'.engine.sstableMap.elems)
    (hfresh : ∀ t, (newMeta.id, t) ∉ s.engine.sstableMap.elems) (ht : Finished s table) :
    Finished s' table := by
  have hold {result' : IoResult c} (hr : .result result' ∈ jobs s) :
      result' = result ∨ .result result' ∈ jobs s' := by
    rcases List.mem_cons.mp (hjobs.mem_iff.mp hr) with heq | hr
    · exact .inl (Job.result.inj heq)
    · exact .inr hr
  rcases ht with ht | ht | ⟨ids, ht⟩
  · exact .inl (hmap table (fun heq => hfresh _ (heq ▸ ht)) ht rfl)
  · rcases hold ht with rfl | ht
    · rcases hresult with heq | ⟨ids, heq⟩
      · cases heq
        exact .inl hnew
      · cases heq
    · exact .inr (.inl ht)
  · rcases hold ht with rfl | ht
    · rcases hresult with heq | ⟨ids, heq⟩
      · cases heq
      · cases heq
        exact .inl hnew
    · exact .inr (.inr ⟨ids, ht⟩)

/-- A WAL file that is deleted has records of one memtable, which is a table by
then. -/
theorem deleted_wal {newMeta : c.Meta} {results : List (IoResult c)} {staleWals : OrdMap Nat Nat}
    {nextWalToDel : Nat} {wals : OrdMap Nat (List Record)} (hw : WalSafe log s)
    (hjobs : (jobs s).Perm (.result (.flush newMeta) :: jobs { s with results }))
    (hdel : Deletes (insert newMeta.id s.appliedFlushes) s.nextWalToDel nextWalToDel s.staleWals
      staleWals s.disk.wals wals)
    (hs' : s' = { s with
      results, staleWals, nextWalToDel, disk.wals := wals
      appliedFlushes := insert newMeta.id s.appliedFlushes
      engine.frozenMemtables := s.engine.frozenMemtables.remove newMeta.id
      engine.sstableMap := s.engine.sstableMap.upsert newMeta.id newMeta })
    (hh' : Holds log s') {p : Nat × List Record} (hfile : p ∈ s.disk.wals.elems)
    (hdeleted : p ∉ wals.elems) {r : Record} (hr : r ∈ p.2) :
    InTables s'.engine s'.disk.ssts r := by
  have hw' : WalSafe log s' := hs' ▸ hw.flushed hjobs hdel
  obtain ⟨i, happlied, -, hlt, hmem⟩ := hdel.deleted hfile hdeleted
  have hpath : p.1 = i := hw.stale _ hmem
  subst hs'
  -- All ids up to the file's are those of flushes: its records are its memtable's.
  have hrot (id : Nat) (hle : id ≤ p.1) : Rotated s id := by
    rcases Nat.eq_zero_or_pos id with rfl | hpos
    · exact .inl hw.next_pos
    · have hid := hw'.passed id hpos ((hpath ▸ hle).trans_lt hlt)
      exact (hw.rotated_flushed hjobs hdel).mp (hw'.applied id hid).1
  obtain ⟨hlog, hnot, hfrozen⟩ := hw.files p hfile hrot r hr
  refine (hh'.tiers.held r hlog).resolve_left ?_
  rintro (hmem | ⟨q, hq, hrq⟩)
  · exact hnot hmem
  · have hid : q.1 = i := (hfrozen q (OrdMap.mem_remove.mp hq).1 hrq).trans hpath
    exact (hw'.applied i happlied).2 q.2 (hid ▸ hq)

/-- A flush's result is applied. -/
theorem flushed (h : Written log stored s) (hh : Holds log s) (hw : WalSafe log s)
    {newMeta : c.Meta} {results : List (IoResult c)} {staleWals : OrdMap Nat Nat}
    {nextWalToDel : Nat} {wals : OrdMap Nat (List Record)}
    (hjobs : (jobs s).Perm (.result (.flush newMeta) :: jobs { s with results }))
    (hdel : Deletes (insert newMeta.id s.appliedFlushes) s.nextWalToDel nextWalToDel s.staleWals
      staleWals s.disk.wals wals)
    (hs' : s' = { s with
      results, staleWals, nextWalToDel, disk.wals := wals
      appliedFlushes := insert newMeta.id s.appliedFlushes
      engine.frozenMemtables := s.engine.frozenMemtables.remove newMeta.id
      engine.sstableMap := s.engine.sstableMap.upsert newMeta.id newMeta })
    (hh' : Holds log s') : Written log stored s' := by
  have hdeleted {p : Nat × List Record} := deleted_wal (p := p) hw hjobs hdel hs' hh'
  have hresult : .result (.flush newMeta) ∈ jobs s := hjobs.mem_iff.mpr List.mem_cons_self
  have hfresh (t : c.Meta) := hh.fresh_result hresult List.mem_cons_self t
  have htables := hh'.tiers.tables
  have hto {table : c.Meta} (ht : Finished s table) : Finished s' table := by
    subst hs'
    exact finished_applied hjobs (.inl rfl)
      (fun t hne ht _ => OrdMap.mem_upsert_iff.mpr (.inr ⟨ht, hne⟩))
      (OrdMap.mem_upsert_iff.mpr (.inl rfl)) hfresh ht
  subst hs'
  have hfrom {table : c.Meta} (ht : Finished { s with
      results, staleWals, nextWalToDel, disk.wals := wals
      appliedFlushes := insert newMeta.id s.appliedFlushes
      engine.frozenMemtables := s.engine.frozenMemtables.remove newMeta.id
      engine.sstableMap := s.engine.sstableMap.upsert newMeta.id newMeta } table) :
      Finished s table := by
    rcases ht with ht | ht | ⟨ids, ht⟩
    · rcases OrdMap.mem_upsert ht with heq | ht
      · cases congrArg Prod.snd heq
        exact .inr (.inl hresult)
      · exact .inl ht
    · exact .inr (.inl (hjobs.mem_iff.mpr (List.mem_cons_of_mem _ ht)))
    · exact .inr (.inr ⟨ids, hjobs.mem_iff.mpr (List.mem_cons_of_mem _ ht)⟩)
  refine ⟨h.buffer, fun r hr => h.wals r ?_, fun p hp => ?_,
    fun table recs ht => h.tables table recs (hfrom ht), fun r hr => ?_,
    fun m id hm => h.flushes m id (hjobs.mem_iff.mpr (List.mem_cons_of_mem _ hm))⟩
  · refine hr.imp_right ?_
    rintro ⟨p, hp, hr⟩
    exact ⟨p, ((hdel.mem_wals p).mp hp).1, hr⟩
  · obtain ⟨table, ht, hid⟩ := h.files p hp
    exact ⟨table, hto ht, hid⟩
  · rcases h.kept r hr with (hr | ⟨p, hp, hr⟩) | ⟨table, recs, ht, hrecs, hr⟩
    · exact .inl (.inl hr)
    · by_cases hmem : p ∈ wals.elems
      · exact .inl (.inr ⟨p, hmem, hr⟩)
      · obtain ⟨q, hq, recs, hrecs, hr⟩ := hdeleted hp hmem hr
        have hqid : q = (q.2.id, q.2) := Prod.ext (htables q hq).1.symm rfl
        exact .inr ⟨q.2, recs, .inl (hqid ▸ hq), hrecs, hr⟩
    · exact .inr ⟨table, recs, hto ht, hrecs, hr⟩

/-- A compaction's result is applied: the new table has the records of those
that are deleted. -/
theorem compacted (hl : Stores c) (h : Written log stored s) (hh : Holds log s)
    {newMeta : c.Meta} {ids : List Nat} {results : List (IoResult c)}
    (hjobs : (jobs s).Perm (.result (.compaction newMeta ids) :: jobs { s with results }))
    (hs' : s' = { s with
      results
      disk.ssts := ids.foldl OrdMap.remove s.disk.ssts
      engine.compacting := s.engine.compacting \ ids.toFinset
      engine.sstableMap :=
        (ids.foldl OrdMap.remove s.engine.sstableMap).upsert newMeta.id newMeta }) :
    Written log stored s' := by
  have hresult : .result (.compaction newMeta ids) ∈ jobs s := hjobs.mem_iff.mpr List.mem_cons_self
  obtain ⟨newRecs, hnewRecs, -, hinputs⟩ := hh.tiers.job _ hresult
  have hfresh (t : c.Meta) := hh.fresh_result hresult List.mem_cons_self t
  have hnotInput : newMeta.id ∉ ids := by
    intro hmem
    obtain ⟨t, ht, -⟩ := hinputs _ hmem
    exact hfresh t ht
  have hnew : (newMeta.id, newMeta) ∈ s'.engine.sstableMap.elems := by
    subst hs'
    exact OrdMap.mem_upsert_iff.mpr (.inl rfl)
  have hto {table : c.Meta} (ht : Finished s table) (hid : table.id ∉ ids) : Finished s' table := by
    have hjobs : (jobs s).Perm (.result (.compaction newMeta ids) :: jobs s') := hs' ▸ hjobs
    refine finished_applied hjobs (.inr ⟨ids, rfl⟩) (fun t hne hmem heq => ?_) hnew hfresh ht
    subst hs' heq
    exact OrdMap.mem_upsert_iff.mpr (.inr ⟨OrdMap.mem_foldl_remove.mpr ⟨hmem, hid⟩, hne⟩)
  -- An input is a table of the engine.
  have hinput {table : c.Meta} (ht : Finished s table) (hid : table.id ∈ ids) :
      ∃ old, IsTable c s.disk.ssts table old ∧ old ⊆ newRecs := by
    obtain ⟨t, hmem, hold⟩ := hinputs _ hid
    rcases ht with ht | ht | ⟨ids', ht⟩
    · exact OrdMap.value_inj ht hmem ▸ hold
    · exact absurd hmem (hh.fresh_result ht List.mem_cons_self t)
    · exact absurd hmem (hh.fresh_result ht List.mem_cons_self t)
  have hfrom {table : c.Meta} (ht : Finished s' table) : Finished s table := by
    subst hs'
    rcases ht with ht | ht | ⟨ids', ht⟩
    · rcases OrdMap.mem_upsert ht with heq | ht
      · cases congrArg Prod.snd heq
        exact .inr (.inr ⟨ids, hresult⟩)
      · exact .inl (OrdMap.mem_foldl_remove.mp ht).1
    · exact .inr (.inl (hjobs.mem_iff.mpr (List.mem_cons_of_mem _ ht)))
    · exact .inr (.inr ⟨ids', hjobs.mem_iff.mpr (List.mem_cons_of_mem _ ht)⟩)
  have hssts : s'.disk.ssts = ids.foldl OrdMap.remove s.disk.ssts := hs' ▸ rfl
  have hwals (r : Record) : InWal s'.disk r ↔ InWal s.disk r := hs' ▸ Iff.rfl
  refine ⟨?_, fun r hr => h.wals r ((hwals r).mp hr), fun p hp => ?_,
    fun table recs ht hrecs => ?_, fun r hr => ?_, fun m id hm => ?_⟩
  · rw [hs']
    exact h.buffer
  · rw [hssts, OrdMap.mem_foldl_remove] at hp
    obtain ⟨table, ht, hid⟩ := h.files p hp.1
    exact ⟨table, hto ht (hid ▸ hp.2), hid⟩
  · rw [hssts] at hrecs
    exact h.tables table recs (hfrom ht) hrecs.of_remove
  · rcases h.kept r hr with hr | ⟨table, recs, ht, hrecs, hr⟩
    · exact .inl ((hwals r).mpr hr)
    · by_cases hid : table.id ∈ ids
      · obtain ⟨old, hold, hsub⟩ := hinput ht hid
        rw [hrecs.unique hl hold] at hr
        refine .inr ⟨newMeta, newRecs, .inl hnew, ?_, hsub hr⟩
        rw [hssts]
        exact hnewRecs.remove hnotInput
      · refine .inr ⟨table, recs, hto ht hid, ?_, hr⟩
        rw [hssts]
        exact hrecs.remove hid
  · subst hs'
    exact h.flushes m id (hjobs.mem_iff.mpr (List.mem_cons_of_mem _ hm))

end Written

/-! ## Steps and runs -/

/-- A step that is no crash, whether its I/O succeeds or not. -/
theorem Effect.written (hl : Stores c) {step : Step} (heffect : Effect hp s step s')
    (h : Written log stored s) (hh : Holds log s) (hh' : Holds (log ++ insertsOf step) s')
    (hw : WalSafe log s) : ∃ stored', Written (log ++ insertsOf step) stored' s' := by
  have hquiet {stored' : List Record} (hnil : insertsOf step = []) (h' : Written log stored' s') :
      ∃ stored', Written (log ++ insertsOf step) stored' s' := by
    rw [hnil, List.append_nil]
    exact ⟨stored', h'⟩
  have hholds (hnil : insertsOf step = []) : Holds log s' := by
    rwa [hnil, List.append_nil] at hh'
  cases heffect with
  | insertedOne hi => exact ⟨stored, h.inserted hh hi⟩
  | insertedMany hi => exact ⟨stored, h.inserted hh hi⟩
  | wroteWal n => exact hquiet rfl (h.wroteWal n)
  | noFlush rotates => exact hquiet rfl h
  | sentFlush hne => exact hquiet rfl (h.flushing hh hw)
  | froze hne =>
    have hjobs (result : IoResult c) : .result result ∈ jobs (freezing s) ↔ .result result ∈ jobs s :=
      Iff.rfl
    exact hquiet rfl (h.of_jobs rfl rfl rfl hjobs h.flushes)
  | noCompaction => exact hquiet rfl h
  | sentCompaction n hlen =>
    have hjobs := jobs_sent s (compactingOldest n s) rfl rfl rfl
    refine hquiet rfl (h.of_jobs rfl rfl rfl (fun result => ?_) fun m id hm => ?_)
    · rw [hjobs.mem_iff]
      simp
    · rcases List.mem_cons.mp (hjobs.mem_iff.mp hm) with heq | hm
      · cases heq
      · exact h.flushes m id hm
  | resynced hjobs =>
    refine hquiet rfl (h.of_jobs rfl rfl rfl (fun result => ?_) fun m id hm => ?_)
    · rw [hjobs]
      simp
    · exact h.flushes m id (hjobs ▸ List.mem_cons_of_mem _ hm)
  | dispatched hjobs =>
    exact hquiet rfl (h.of_jobs rfl rfl rfl (fun result => hjobs.symm.mem_iff)
      fun m id hm => h.flushes m id (hjobs.mem_iff.mpr hm))
  | finished hrun hjobs hjobs' => exact hquiet rfl (h.finished hl hh hrun hjobs hjobs')
  | failed htask hjobs =>
    refine hquiet rfl (h.of_jobs rfl rfl rfl (fun result => ?_) fun m id hm => ?_)
    · rw [hjobs.mem_iff]
      simp
    · exact h.flushes m id (hjobs.mem_iff.mpr (List.mem_cons_of_mem _ hm))
  | flushed hjobs hdel => exact hquiet rfl (h.flushed hh hw hjobs hdel rfl (hholds rfl))
  | compacted hjobs => exact hquiet rfl (h.compacted hl hh hjobs rfl)

theorem written_start (c : SSTableCode) (limit count : Nat) :
    Written [] [] (System.start (freshEngine c limit) count .empty) := by
  refine ⟨rfl, fun r hr => ?_, fun p hp => ?_, fun table recs ht => ?_, fun r hr => ?_,
    fun m id hm => ?_⟩
  · rcases hr with hr | ⟨p, hp, -⟩
    · cases hr
    · cases hp
  · cases hp
  · rcases ht with ht | ht | ⟨ids, ht⟩
    · cases ht
    · cases ht
    · cases ht
  · cases hr
  · cases hm

end LG.Proof.Core
