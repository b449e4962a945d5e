import Logregator.Proof.Core.Run

/-!
# Deleting WAL files

A flush's WAL file is deleted when its result is applied, and those of all
flushes before it and of the one after it. As flushes and compactions take
their ids from one counter, an id that is not a flush's, or that of a flush
whose WAL could not be rotated, is never applied and stops the deletion. So a
file that is deleted holds the records of one memtable only (`WalSafe`), which
is a table by then (`deleted_wal_in_tables`).
-/

namespace LG.Proof.Core

open LG.Impl.Core LG.Spec.Core

variable {c : SSTableCode} {hp : RecordHeap} {s s' : System c} {log : List Insert}

/-! ## Rotations -/

/-- The WAL was rotated for the flush with the id. -/
def Rotated (s : System c) (id : Nat) : Prop :=
  id < s.nextWalToDel ∨ ∃ path, (id, path) ∈ s.staleWals.elems

/-- The id of a job that is a flush. -/
def Job.flushIds : Job c → List Nat
  | .command (.flushMemtable _ id) => [id]
  | .result (.flush newMeta) => [newMeta.id]
  | _ => []

theorem rotated_flushing {id : Nat} :
    Rotated (flushing s) id ↔ id = s.engine.sstCounter ∨ Rotated s id := by
  have hstale : (∃ path, (id, path) ∈ (flushing s).staleWals.elems) ↔
      id = s.engine.sstCounter ∨ ∃ path, (id, path) ∈ s.staleWals.elems := by
    constructor
    · rintro ⟨path, hmem⟩
      rcases OrdMap.mem_upsert hmem with heq | hmem
      · exact .inl (congrArg Prod.fst heq)
      · exact .inr ⟨path, hmem⟩
    · intro h
      by_cases hid : id = s.engine.sstCounter
      · exact ⟨s.engine.sstCounter, OrdMap.mem_upsert_iff.mpr (.inl (congrArg (·, _) hid))⟩
      · obtain ⟨path, hmem⟩ := h.resolve_left hid
        exact ⟨path, OrdMap.mem_upsert_iff.mpr (.inr ⟨hmem, hid⟩)⟩
  rw [Rotated, hstale, or_left_comm]
  rfl

/-- What the WAL files have to do with the memtables and the flushes. The files
of flushes before which every id is that of a flush hold records that are in no
other memtable than their own. -/
structure WalSafe (log : List Insert) (s : System c) : Prop where
  next_pos : 1 ≤ s.nextWalToDel
  rotated_lt : ∀ id, Rotated s id → id < s.engine.sstCounter
  passed : ∀ id, 1 ≤ id → id < s.nextWalToDel → id ∈ s.appliedFlushes
  applied : ∀ id ∈ s.appliedFlushes, Rotated s id ∧ ∀ m, (id, m) ∉ s.engine.frozenMemtables.elems
  sent : ∀ j ∈ jobs s, ∀ id ∈ j.flushIds, Rotated s id
  stale : ∀ p ∈ s.staleWals.elems, p.2 = p.1
  wals_lt : ∀ p ∈ s.disk.wals.elems, p.1 < s.engine.sstCounter
  apart : ∀ r ∈ s.engine.memtable.bset.elems, ∀ q ∈ s.engine.frozenMemtables.elems,
    r ∉ q.2.bset.elems
  files : ∀ p ∈ s.disk.wals.elems, (∀ id ≤ p.1, Rotated s id) → ∀ r ∈ p.2,
    r ∈ numbered 1 log ∧ r ∉ s.engine.memtable.bset.elems ∧
      ∀ q ∈ s.engine.frozenMemtables.elems, r ∈ q.2.bset.elems → q.1 = p.1
  active : (∀ id < s.engine.sstCounter, Rotated s id) →
    ∀ r ∈ s.disk.active ++ s.engine.walBuffer, r ∈ s.engine.memtable.bset.elems

namespace WalSafe

/-- Jobs and tables come and go. -/
theorem withJobs {cmds tasks : List (IoCommand c)} {results : List (IoResult c)}
    {ssts : OrdMap Nat (List UInt8)} {compacting : Finset Nat} {sstableMap : OrdMap Nat c.Meta}
    (h : WalSafe log s)
    (hsent : ∀ j ∈ jobs { s with cmds, tasks, results }, ∀ id ∈ j.flushIds, Rotated s id) :
    WalSafe log { s with
      cmds, tasks, results, disk.ssts := ssts, engine.compacting := compacting
      engine.sstableMap := sstableMap } :=
  ⟨h.next_pos, h.rotated_lt, h.passed, h.applied, hsent, h.stale, h.wals_lt, h.apart, h.files,
    h.active⟩

/-- The counter's id is not that of a flush yet. -/
theorem not_rotated (h : WalSafe log s) : ¬ Rotated s s.engine.sstCounter :=
  fun hrot => (h.rotated_lt _ hrot).false

/-- New records are in no memtable. -/
theorem inserted (h : WalSafe log s) (hh : Holds log s) {inserts : List Insert} {e' : Engine c}
    (hi : Inserted s.engine inserts e') : WalSafe (log ++ inserts) { s with engine := e' } := by
  obtain ⟨m, hperm, hnew, hlog, -, rfl⟩ := hh.inserted_memtable hi
  have hmem {r : Record} : r ∈ m.bset.elems ↔
      r ∈ numbered s.engine.seqCounter inserts ∨ r ∈ s.engine.memtable.bset.elems := by
    rw [hperm.mem_iff, List.mem_append]
  refine ⟨h.next_pos, h.rotated_lt, h.passed, h.applied, h.sent, h.stale, h.wals_lt,
    fun r hr q hq hrq => ?_, fun p hp hrot r hr => ?_, fun hrot r hr => ?_⟩
  · rcases hmem.mp hr with hr | hr
    · exact hnew r hr (hh.tiers.mem r (.inr ⟨q, hq, hrq⟩))
    · exact h.apart r hr q hq hrq
  · obtain ⟨hrlog, hrmem, hfrozen⟩ := h.files p hp hrot r hr
    refine ⟨hlog ▸ List.mem_append_left _ hrlog, fun hrm => ?_, hfrozen⟩
    rcases hmem.mp hrm with hrm | hrm
    · exact hnew r hrm hrlog
    · exact hrmem hrm
  · rw [← List.append_assoc] at hr
    rcases List.mem_append.mp hr with hr | hr
    · exact hmem.mpr (.inr (h.active hrot r hr))
    · exact hmem.mpr (.inl hr)

theorem wroteWal (h : WalSafe log s) (n : Nat) : WalSafe log (s.writeWal n) := by
  refine ⟨h.next_pos, h.rotated_lt, h.passed, h.applied, h.sent, h.stale, h.wals_lt, h.apart, h.files,
    fun hrot r hr => h.active hrot r ?_⟩
  have hsplit : s.disk.active ++ s.engine.walBuffer.take n ++ s.engine.walBuffer.drop n =
      s.disk.active ++ s.engine.walBuffer := by
    rw [List.append_assoc, List.take_append_drop]
  exact hsplit ▸ hr

/-- The memtables after one is frozen. -/
theorem mem_frozen {q : Nat × MemTable}
    (hq : q ∈ (s.engine.frozenMemtables.upsert s.engine.sstCounter s.engine.memtable).elems) :
    q = (s.engine.sstCounter, s.engine.memtable) ∨ q ∈ s.engine.frozenMemtables.elems :=
  OrdMap.mem_upsert hq

theorem applied_frozen (h : WalSafe log s) {id : Nat} (hid : id ∈ s.appliedFlushes) (m : MemTable) :
    (id, m) ∉ (s.engine.frozenMemtables.upsert s.engine.sstCounter s.engine.memtable).elems := by
  obtain ⟨hrot, hnot⟩ := h.applied id hid
  intro hmem
  rcases mem_frozen hmem with heq | hmem
  · cases heq
    exact h.not_rotated hrot
  · exact hnot m hmem

/-- The records of files are in their own memtable still. -/
theorem files_frozen (h : WalSafe log s) {p : Nat × List Record} (hp : p ∈ s.disk.wals.elems)
    (hrot : ∀ id ≤ p.1, Rotated s id) {r : Record} (hr : r ∈ p.2) : r ∈ numbered 1 log ∧
      ∀ q ∈ (s.engine.frozenMemtables.upsert s.engine.sstCounter s.engine.memtable).elems,
        r ∈ q.2.bset.elems → q.1 = p.1 := by
  obtain ⟨hlog, hmem, hfrozen⟩ := h.files p hp hrot r hr
  refine ⟨hlog, fun q hq hrq => ?_⟩
  rcases mem_frozen hq with rfl | hq
  · exact absurd hrq hmem
  · exact hfrozen q hq hrq

theorem flushing (h : WalSafe log s) (hh : Holds log s) : WalSafe log (flushing s) := by
  have hold {id : Nat} (hlt : id < s.engine.sstCounter) (hrot : Rotated (Core.flushing s) id) :
      Rotated s id := (rotated_flushing.mp hrot).resolve_left hlt.ne
  refine ⟨h.next_pos, fun id hid => ?_, h.passed, fun id hid => ?_, fun j hj id hid => ?_,
    fun p hp => ?_, fun p hp => ?_, fun r hr => ?_, fun p hp hrot r hr => ?_, fun _ r hr => ?_⟩
  · rcases rotated_flushing.mp hid with rfl | hid
    · exact Nat.lt_succ_self _
    · exact Nat.lt_succ_of_lt (h.rotated_lt id hid)
  · exact ⟨rotated_flushing.mpr (.inr (h.applied id hid).1), h.applied_frozen hid⟩
  · rcases List.mem_append.mp ((jobs_sent s (Core.flushing s) rfl rfl rfl).mem_iff.mp hj) with hj | hj
    · obtain rfl | rfl : j = .command .resyncWal ∨
          j = .command (.flushMemtable s.engine.memtable s.engine.sstCounter) := by simpa using hj
      · cases hid
      · exact rotated_flushing.mpr (.inl (List.mem_singleton.mp hid))
    · exact rotated_flushing.mpr (.inr (h.sent j hj id hid))
  · rcases OrdMap.mem_upsert hp with rfl | hp
    · rfl
    · exact h.stale p hp
  · rcases OrdMap.mem_upsert hp with rfl | hp
    · exact Nat.lt_succ_self _
    · exact Nat.lt_succ_of_lt (h.wals_lt p hp)
  · cases hr
  · rcases OrdMap.mem_upsert hp with rfl | hp
    · -- The new file: its records are the memtable's if all files before were rotated.
      have hmem := h.active (fun id hlt => hold hlt (hrot id hlt.le)) r hr
      refine ⟨hh.tiers.mem r (.inl hmem), List.not_mem_nil, fun q hq hrq => ?_⟩
      rcases mem_frozen hq with rfl | hq
      · rfl
      · exact absurd hrq (h.apart r hmem q hq)
    · have hlt := h.wals_lt p hp
      obtain ⟨hlog, hfrozen⟩ :=
        h.files_frozen hp (fun id hle => hold (hle.trans_lt hlt) (hrot id hle)) hr
      exact ⟨hlog, List.not_mem_nil, hfrozen⟩
  · cases hr

/-- Where the WAL could not be rotated, the id is never that of a flush. -/
theorem freezing (h : WalSafe log s) : WalSafe log (freezing s) := by
  refine ⟨h.next_pos, fun id hid => Nat.lt_succ_of_lt (h.rotated_lt id hid), h.passed,
    fun id hid => ⟨(h.applied id hid).1, h.applied_frozen hid⟩, h.sent, h.stale,
    fun p hp => Nat.lt_succ_of_lt (h.wals_lt p hp), fun r hr => ?_, fun p hp hrot r hr => ?_,
    fun hrot => absurd (hrot _ (Nat.lt_succ_self _)) h.not_rotated⟩
  · cases hr
  · obtain ⟨hlog, hfrozen⟩ := h.files_frozen hp hrot hr
    exact ⟨hlog, List.not_mem_nil, hfrozen⟩

theorem compacting (h : WalSafe log s) (n : Nat) : WalSafe log (compactingOldest n s) := by
  refine ⟨h.next_pos, fun id hid => Nat.lt_succ_of_lt (h.rotated_lt id hid), h.passed, h.applied,
    fun j hj id hid => ?_, h.stale, fun p hp => Nat.lt_succ_of_lt (h.wals_lt p hp), h.apart, h.files,
    fun hrot => absurd (hrot _ (Nat.lt_succ_self _)) h.not_rotated⟩
  rcases List.mem_append.mp ((jobs_sent s (compactingOldest n s) rfl rfl rfl).mem_iff.mp hj) with hj | hj
  · cases List.mem_singleton.mp hj
    cases hid
  · exact h.sent j hj id hid

/-- A result is that of its command's flush. -/
theorem flushIds_runTask (hl : Stores c) {disk : Disk} {task : IoCommand c} {id : Nat}
    {file : List UInt8} {result : IoResult c}
    (hrun : System.runTask hp disk task = some (id, file, result)) :
    (Job.result result).flushIds = (Job.command task).flushIds := by
  rcases runTask_cases hrun with ⟨m, rfl, -, rfl⟩ | ⟨tables, out, rfl, -, -, rfl⟩
  · exact congrArg ([·]) (hl.id _ _ _)
  · rfl

/-- An applied flush stays one of those whose WAL was rotated. -/
theorem rotated_flushed (h : WalSafe log s) {newMeta : c.Meta} {results : List (IoResult c)}
    {staleWals : OrdMap Nat Nat} {nextWalToDel : Nat} {wals : OrdMap Nat (List Record)}
    (hjobs : (Core.jobs s).Perm (.result (.flush newMeta) :: Core.jobs { s with results }))
    (hdel : Deletes (insert newMeta.id s.appliedFlushes) s.nextWalToDel nextWalToDel s.staleWals
      staleWals s.disk.wals wals) {id : Nat} :
    Rotated { s with staleWals, nextWalToDel } id ↔ Rotated s id := by
  constructor
  · rintro (hlt | ⟨path, hmem⟩)
    · by_cases hnext : id < s.nextWalToDel
      · exact .inl hnext
      · rcases Finset.mem_insert.mp (hdel.passed id (not_lt.mp hnext) hlt).1 with rfl | hid
        · exact h.sent _ (hjobs.mem_iff.mpr List.mem_cons_self) _ List.mem_cons_self
        · exact (h.applied id hid).1
    · exact .inr ⟨path, ((hdel.mem_stale _).mp hmem).1⟩
  · rintro (hlt | ⟨path, hmem⟩)
    · exact .inl (hlt.trans_le hdel.le)
    · by_cases hlt : id < nextWalToDel
      · exact .inl hlt
      · exact .inr ⟨path, (hdel.mem_stale _).mpr ⟨hmem, fun hbetween => hlt hbetween.2⟩⟩

theorem flushed (h : WalSafe log s) {newMeta : c.Meta} {results : List (IoResult c)}
    {staleWals : OrdMap Nat Nat} {nextWalToDel : Nat} {wals : OrdMap Nat (List Record)}
    (hjobs : (Core.jobs s).Perm (.result (.flush newMeta) :: Core.jobs { s with results }))
    (hdel : Deletes (insert newMeta.id s.appliedFlushes) s.nextWalToDel nextWalToDel s.staleWals
      staleWals s.disk.wals wals) :
    WalSafe log { s with
      results, staleWals, nextWalToDel, disk.wals := wals
      appliedFlushes := insert newMeta.id s.appliedFlushes
      engine.frozenMemtables := s.engine.frozenMemtables.remove newMeta.id
      engine.sstableMap := s.engine.sstableMap.upsert newMeta.id newMeta } := by
  have hrot {id : Nat} : Rotated { s with staleWals, nextWalToDel } id ↔ Rotated s id :=
    h.rotated_flushed hjobs hdel
  have hnew : Rotated s newMeta.id :=
    h.sent _ (hjobs.mem_iff.mpr List.mem_cons_self) _ List.mem_cons_self
  refine ⟨h.next_pos.trans hdel.le, fun id hid => h.rotated_lt id (hrot.mp hid), fun id hpos hlt => ?_,
    fun id hid => ?_, fun j hj id hid => ?_, fun p hp => h.stale p ((hdel.mem_stale p).mp hp).1,
    fun p hp => h.wals_lt p ((hdel.mem_wals p).mp hp).1, fun r hr q hq => ?_,
    fun p hp hall r hr => ?_, fun hall => h.active fun id hlt => hrot.mp (hall id hlt)⟩
  · by_cases hnext : id < s.nextWalToDel
    · exact Finset.mem_insert_of_mem (h.passed id hpos hnext)
    · exact (hdel.passed id (not_lt.mp hnext) hlt).1
  · rcases Finset.mem_insert.mp hid with rfl | hid
    · exact ⟨hrot.mpr hnew, fun m hm => (OrdMap.mem_remove.mp hm).2 rfl⟩
    · obtain ⟨hid, hnot⟩ := h.applied id hid
      exact ⟨hrot.mpr hid, fun m hm => hnot m (OrdMap.mem_remove.mp hm).1⟩
  · exact hrot.mpr (h.sent j (hjobs.mem_iff.mpr (List.mem_cons_of_mem _ hj)) id hid)
  · exact h.apart r hr q (OrdMap.mem_remove.mp hq).1
  · obtain ⟨hlog, hmem, hfrozen⟩ := h.files p ((hdel.mem_wals p).mp hp).1
      (fun id hle => hrot.mp (hall id hle)) r hr
    exact ⟨hlog, hmem, fun q hq => hfrozen q (OrdMap.mem_remove.mp hq).1⟩

end WalSafe

/-! ## Steps and runs -/

theorem exec_walSafe (hl : Stores c) {step : Step} (h : WalSafe log s) (hh : Holds log s)
    (hs : NoCrash step) (hexec : step.exec hp s = some s') :
    WalSafe (log ++ insertsOf step) s' := by
  have hquiet (hnil : insertsOf step = []) (h' : WalSafe log s') :
      WalSafe (log ++ insertsOf step) s' := by
    rw [hnil, List.append_nil]
    exact h'
  cases exec_effect hs hexec with
  | insertedOne hi => exact h.inserted hh hi
  | insertedMany hi => exact h.inserted hh hi
  | wroteWal n => exact hquiet rfl (h.wroteWal n)
  | noFlush rotates => exact hquiet rfl h
  | sentFlush hne => exact hquiet rfl (h.flushing hh)
  | froze hne => exact hquiet rfl h.freezing
  | noCompaction => exact hquiet rfl h
  | sentCompaction n hlen => exact hquiet rfl (h.compacting n)
  | resynced hjobs =>
    exact hquiet rfl (h.withJobs fun j hj => h.sent j (hjobs ▸ List.mem_cons_of_mem _ hj))
  | dispatched hjobs =>
    exact hquiet rfl (h.withJobs fun j hj => h.sent j (hjobs.mem_iff.mpr hj))
  | finished hrun hjobs hjobs' =>
    refine hquiet rfl (h.withJobs fun j hj => ?_)
    rcases List.mem_cons.mp (hjobs'.mem_iff.mp hj) with rfl | hj
    · rw [WalSafe.flushIds_runTask hl hrun]
      exact h.sent _ (hjobs.mem_iff.mpr List.mem_cons_self)
    · exact h.sent j (hjobs.mem_iff.mpr (List.mem_cons_of_mem _ hj))
  | failed htask hjobs =>
    exact hquiet rfl (h.withJobs fun j hj => h.sent j (hjobs.mem_iff.mpr (List.mem_cons_of_mem _ hj)))
  | flushed hjobs hdel => exact hquiet rfl (h.flushed hjobs hdel)
  | compacted hjobs =>
    exact hquiet rfl (h.withJobs fun j hj => h.sent j (hjobs.mem_iff.mpr (List.mem_cons_of_mem _ hj)))

theorem walSafe_start {engine : Engine c} {limit count : Nat} {full : Bool}
    (h : Engine.openDir c .empty limit = .ok (engine, full)) :
    WalSafe [] (System.start engine count .empty) := by
  rw [openDir_empty] at h
  cases h
  refine ⟨le_refl _, ?_, fun id hpos hlt => absurd hlt (not_lt.mpr hpos),
    fun id hid => absurd hid (Finset.notMem_empty id), ?_, ?_, ?_, ?_, ?_, ?_⟩
  · rintro id (hlt | ⟨path, hmem⟩)
    · exact hlt
    · cases hmem
  · exact fun j hj => by cases hj
  · exact fun p hp => by cases hp
  · exact fun p hp => by cases hp
  · exact fun r hr => by cases hr
  · exact fun p hp => by cases hp
  · exact fun _ r hr => by cases hr

/-- Whenever a result's application deletes a WAL file, every record of the
file is in a table of the engine: one whose flush has been applied, or one that
such tables were compacted into. -/
theorem deleted_wal_in_tables (hl : Stores c) (hp : RecordHeap) {engine : Engine c}
    {limit count : Nat} {full : Bool} (hopen : Engine.openDir c .empty limit = .ok (engine, full))
    {steps : List Step} (hs : ∀ step ∈ steps, NoCrash step)
    (hrun : Step.run hp (System.start engine count .empty) steps = some s)
    (hreceive : s.receive = some s') {p : Nat × List Record} (hfile : p ∈ s.disk.wals.elems)
    (hdeleted : p ∉ s'.disk.wals.elems) {r : Record} (hr : r ∈ p.2) :
    InTables s'.engine s'.disk.ssts r := by
  obtain ⟨h, hh⟩ := run_along (f := fun _ step _ => insertsOf step)
    (I := fun log s => WalSafe log s ∧ Holds log s)
    (fun h hstep hexec => ⟨exec_walSafe hl h.1 h.2 hstep hexec, exec_holds hl h.2 hstep hexec⟩)
    ⟨walSafe_start hopen, holds_start hopen⟩ hs hrun
  have hexec : Step.receive.exec hp s = some s' := hreceive
  have hstep : NoCrash .receive := trivial
  have h' := exec_walSafe hl h hh hstep hexec
  have hh' := exec_holds hl hh hstep hexec
  rw [show insertsOf .receive = [] from rfl, List.append_nil] at h' hh'
  cases exec_effect hstep hexec with
  | compacted => exact absurd hfile hdeleted
  | flushed hjobs hdel =>
    obtain ⟨i, happlied, -, hlt, hmem⟩ := hdel.deleted hfile hdeleted
    have hpath : p.1 = i := h.stale _ hmem
    -- All ids up to the file's are those of flushes: its records are its memtable's.
    have hrot (id : Nat) (hle : id ≤ p.1) : Rotated s id := by
      rcases Nat.eq_zero_or_pos id with rfl | hpos
      · exact .inl h.next_pos
      · have hid := h'.passed id hpos ((hpath ▸ hle).trans_lt hlt)
        exact (h.rotated_flushed hjobs hdel).mp (h'.applied id hid).1
    obtain ⟨hlog, hnot, hfrozen⟩ := h.files p hfile hrot r hr
    refine (hh'.tiers.held r hlog).resolve_left ?_
    rintro (hmem | ⟨q, hq, hrq⟩)
    · exact hnot hmem
    · have hid : q.1 = i := (hfrozen q (OrdMap.mem_remove.mp hq).1 hrq).trans hpath
      exact (h'.applied i happlied).2 q.2 (hid ▸ hq)

/-- Two flushes, the result of the first applied. -/
def twoFlushes : List Step :=
  [.insert (oneByte 1 5 107 97), .sendFlush true, .insert (oneByte 1 3 107 98), .sendFlush true,
    .dispatch, .dispatch, .dispatch, .dispatch, .finish 0 true, .finish 0 true, .receive]

/-- The result of the second flush deletes the WAL file of the first. -/
theorem deleted_wal_in_tables_first : ∃ s s',
    Step.run (MinHeap.sortedList _ _) (System.start (freshEngine plainCode 0) 4 .empty) twoFlushes =
        some s ∧
      s.receive = some s' ∧ (1, [Engine.recordOf 1 (oneByte 1 5 107 97)]) ∈ s.disk.wals.elems ∧
      (1, [Engine.recordOf 1 (oneByte 1 5 107 97)]) ∉ s'.disk.wals.elems ∧
      InTables s'.engine s'.disk.ssts (Engine.recordOf 1 (oneByte 1 5 107 97)) := by
  obtain ⟨s, hrun, h⟩ := Option.bind_eq_some_iff.mp
    (show (Step.run (MinHeap.sortedList _ _) (System.start (freshEngine plainCode 0) 4 .empty)
      twoFlushes).bind (fun s => s.receive.map fun s' => (s.disk.wals.elems, s'.disk.wals.elems)) =
        some ([(1, [Engine.recordOf 1 (oneByte 1 5 107 97)]),
          (2, [Engine.recordOf 2 (oneByte 1 3 107 98)])],
          [(2, [Engine.recordOf 2 (oneByte 1 3 107 98)])]) by decide +kernel)
  obtain ⟨s', hreceive, hwals⟩ := Option.map_eq_some_iff.mp h
  obtain ⟨hbefore, hafter⟩ := Prod.mk.inj hwals
  have hfile : (1, [Engine.recordOf 1 (oneByte 1 5 107 97)]) ∈ s.disk.wals.elems := by
    rw [hbefore]
    exact List.mem_cons_self
  have hdeleted : (1, [Engine.recordOf 1 (oneByte 1 5 107 97)]) ∉ s'.disk.wals.elems := by
    rw [hafter]
    simp
  exact ⟨s, s', hrun, hreceive, hfile, hdeleted, deleted_wal_in_tables lawful_plainCode.toStores _
    (openDir_empty plainCode 0) (by simp [twoFlushes, NoCrash]) hrun hreceive hfile hdeleted
    List.mem_cons_self⟩

end LG.Proof.Core
