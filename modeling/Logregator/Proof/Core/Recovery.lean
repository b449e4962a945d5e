import Logregator.Proof.Core.Run
import Logregator.Spec.Core.Durability

/-!
# What recovery needs

`Recoverable` is what the WAL files, the memtable and the flushes under way
have to do with each other: the active WAL's records are in the memtable, a
flush's memtable has the records of its rotated WAL file, and so has the table
once the flush has ended. It holds of an empty directory, and every step of a
run with crashes keeps it (`exec_recoverable`).
-/

namespace LG.Proof.Core

open LG.Impl.Core LG.Spec.Core

variable {c : SSTableCode} {hp : RecordHeap} {s s' : System c} {disk : Disk} {r : Record}

/-! ## `Engine::open` -/

/-- A fold that only grows reaches what one element brings. -/
theorem le_foldl {α : Type} {f : Nat → α → Nat} {n : Nat} (hgrow : ∀ m a, m ≤ f m a) {a : α}
    (ha : ∀ m, n ≤ f m a) : ∀ {l : List α} {m : Nat}, (n ≤ m ∨ a ∈ l) → n ≤ l.foldl f m
  | [], _, h => h.resolve_right (by simp)
  | b :: l, m, h => by
    apply le_foldl hgrow ha (l := l)
    rcases h with h | h
    · exact .inl (h.trans (hgrow m b))
    · rcases List.mem_cons.mp h with rfl | h
      · exact .inl (ha m)
      · exact .inr h

theorem lt_nextSstId {p : Nat × List UInt8} (hp : p ∈ disk.ssts.elems) : p.1 < nextSstId disk :=
  Nat.lt_succ_of_le (le_foldl le_max_left (fun m => le_max_right m p.1)
    (.inr (List.mem_map_of_mem hp)))

/-- A record of an insert with a number below `n`. -/
def Below (n : Nat) (r : Record) : Prop := ∃ seq i, seq < n ∧ r = Engine.recordOf seq i

theorem Below.mono {m n : Nat} (h : Below m r) (hle : m ≤ n) : Below n r := by
  obtain ⟨seq, i, hlt, rfl⟩ := h
  exact ⟨seq, i, hlt.trans_le hle, rfl⟩

theorem le_maxSeq {recs : List Record} {seq : Nat} {i : Insert}
    (hr : Engine.recordOf seq i ∈ recs) (h : seq < 2 ^ 64) : seq ≤ Engine.maxSeq recs := by
  refine le_foldl (fun m q => ?_) (fun m => ?_) (.inr hr)
  · split
    · exact le_max_left _ _
    · exact le_rfl
  · rw [Engine.recordOf, seqNum_parts]
    simp only [UInt64.toNat_ofNat', Nat.mod_eq_of_lt h]
    exact le_max_right _ _

/-- What `Engine::open` makes of a directory. -/
theorem openDir_inv {limit : Nat} {e : Engine c} {full : Bool}
    (h : Engine.openDir c disk limit = .ok (e, full)) :
    ∃ recovered : RecordSet,
      recovered = OrdSet.extend (.empty _) (disk.active ++ (disk.wals.elems.map Prod.snd).flatten) ∧
      e.memtable.bset = OrdSet.extend (.empty _) recovered.elems ∧ e.walBuffer = [] ∧
      e.sstCounter = nextSstId disk ∧ Engine.maxSeq recovered.elems < e.seqCounter ∧
      e.seqCounter < 2 ^ 64 := by
  obtain ⟨recovered, hrec, h⟩ := Outcome.bind_eq_ok.mp h
  obtain ⟨⟨needs, m⟩, hm, h⟩ := Outcome.bind_eq_ok.mp h
  obtain ⟨tables, -, h⟩ := Outcome.bind_eq_ok.mp h
  obtain ⟨sst, hsst, h⟩ := Outcome.bind_eq_ok.mp h
  obtain ⟨seq, hseq, h⟩ := Outcome.bind_eq_ok.mp h
  obtain ⟨hsst, -⟩ := incU64_eq_some (Outcome.expect_eq_ok.mp hsst)
  obtain ⟨rfl, hlt⟩ := incU64_eq_some (Outcome.expect_eq_ok.mp hseq)
  cases h
  refine ⟨recovered, extend_eq_some (Outcome.expect_eq_ok.mp hrec),
    insertRecovered_eq_some (Outcome.expect_eq_ok.mp hm), rfl, hsst, ?_, hlt⟩
  exact Nat.lt_succ_of_le (le_max_left _ _)

/-- Where a key names one record of the WAL files, the memtable has all their
records after recovery, and the numbers of new ones are greater. -/
theorem openDir_recovers {limit : Nat} {e : Engine c} {full : Bool}
    (ho : Engine.openDir c disk limit = .ok (e, full))
    (hinj : ∀ r r', InWal disk r → InWal disk r' → r.orderKey = r'.orderKey → r = r') :
    (∀ r, r ∈ e.memtable.bset.elems ↔ InWal disk r) ∧
      ∀ r, InWal disk r → Below (2 ^ 64) r → Below e.seqCounter r := by
  obtain ⟨recovered, hrec, hmem, -, -, hseq, -⟩ := openDir_inv ho
  have hfiles {r : Record} : r ∈ disk.active ++ (disk.wals.elems.map Prod.snd).flatten ↔
      InWal disk r := by
    rw [← List.flatMap_def, List.mem_append, List.mem_flatMap]
    rfl
  have hrecovered {r : Record} : r ∈ recovered.elems ↔ InWal disk r := by
    rw [hrec, OrdSet.mem_extend_iff, ← hfiles]
    · simp
    · intro a b ha hb
      exact hinj a b (hfiles.mp (ha.resolve_left (by simp))) (hfiles.mp (hb.resolve_left (by simp)))
  refine ⟨fun r => ?_, fun r hr hbelow => ?_⟩
  · rw [hmem, OrdSet.mem_extend_iff, ← hrecovered]
    · simp
    · intro a b ha hb
      exact hinj a b (hrecovered.mp (ha.resolve_left (by simp)))
        (hrecovered.mp (hb.resolve_left (by simp)))
  · obtain ⟨seq, i, hlt, rfl⟩ := hbelow
    exact ⟨seq, i, (le_maxSeq (hrecovered.mpr hr) hlt).trans_lt hseq, rfl⟩

/-! ## Tables on the disk -/

theorem inSst_upsert {ssts : OrdMap Nat (List UInt8)} (h : InSst ssts r) {id : Nat}
    (hfree : ∀ file, (id, file) ∉ ssts.elems) (file : List UInt8) :
    InSst (ssts.upsert id file) r := by
  obtain ⟨p, hp, hrecs⟩ := h
  refine ⟨p, OrdMap.mem_upsert_iff.mpr (.inr ⟨hp, ?_⟩), hrecs⟩
  rintro rfl
  exact hfree p.2 hp

theorem inSst_written (hl : Stores c) (ssts : OrdMap Nat (List UInt8)) {id hint : Nat}
    {recs : List Record} (hr : r ∈ recs) :
    InSst (ssts.upsert id (c.writeToFile id recs hint).1) r := by
  obtain ⟨tail, hfile, -⟩ := hl.records id recs hint
  exact ⟨_, OrdMap.mem_upsert_iff.mpr (.inl rfl), recs, tail, hfile, hr⟩

/-! ## The invariant -/

/-- The WAL file with the id, if there is one, has records of tables only. -/
def Covered (disk : Disk) (id : Nat) : Prop :=
  ∀ recs, (id, recs) ∈ disk.wals.elems → ∀ r ∈ recs, InSst disk.ssts r

/-- A flush has a table to write, and all records of its WAL file. -/
def JobSafe (disk : Disk) : Job c → Prop
  | .command .resyncWal => True
  | .command (.flushMemtable m id) => (∀ file, (id, file) ∉ disk.ssts.elems) ∧
    ∀ recs, (id, recs) ∈ disk.wals.elems → recs ⊆ m.bset.elems
  | .result (.flush newMeta) => Covered disk newMeta.id
  | _ => False

/-- A job depends on the files with its id, and on the records in tables. -/
theorem JobSafe.mono {disk disk' : Disk} {j : Job c} (h : JobSafe disk j)
    (hssts : ∀ id ∈ j.newIds, ∀ file, (id, file) ∈ disk'.ssts.elems → (id, file) ∈ disk.ssts.elems)
    (hwals : ∀ id ∈ j.newIds, ∀ recs, (id, recs) ∈ disk'.wals.elems → (id, recs) ∈ disk.wals.elems)
    (hin : ∀ r, InSst disk.ssts r → InSst disk'.ssts r) : JobSafe disk' j := by
  cases j with
  | command cmd =>
    cases cmd with
    | resyncWal => trivial
    | flushMemtable m id =>
      exact ⟨fun file hfile => h.1 file (hssts id List.mem_cons_self file hfile),
        fun recs hrecs => h.2 recs (hwals id List.mem_cons_self recs hrecs)⟩
    | compactSSTables => exact h.elim
  | result result =>
    cases result with
    | flush newMeta =>
      exact fun recs hrecs r hr => hin r (h recs (hwals _ List.mem_cons_self recs hrecs) r hr)
    | compaction => exact h.elim

/-- A record that recovery may find, now or after the next WAL writes. -/
def Kept (s : System c) (r : Record) : Prop :=
  InWal s.disk r ∨ r ∈ s.engine.memtable.bset.elems

structure Recoverable (s : System c) : Prop where
  active : ∀ r ∈ s.disk.active ++ s.engine.walBuffer, r ∈ s.engine.memtable.bset.elems
  below : ∀ r, Kept s r → Below s.engine.seqCounter r
  inj : ∀ r r', Kept s r → Kept s r' → r.orderKey = r'.orderKey → r = r'
  seq_lt : s.engine.seqCounter < 2 ^ 64
  job : ∀ j ∈ jobs s, JobSafe s.disk j
  newIds : ((jobs s).flatMap Job.newIds).Nodup
  fresh : ∀ id ∈ (jobs s).flatMap Job.newIds, id < s.engine.sstCounter
  ssts : ∀ p ∈ s.disk.ssts.elems, p.1 < s.engine.sstCounter
  applied : ∀ id ∈ s.appliedFlushes, id < s.engine.sstCounter ∧ Covered s.disk id
  stale : ∀ p ∈ s.staleWals.elems, p.2 = p.1

namespace Recoverable

/-- New records have keys of their own. -/
theorem key_ne {seq : Nat} {inserts : List Insert} (hlt : seq + inserts.length < 2 ^ 64) {q : Record}
    (hr : Below seq r) (hq : q ∈ numbered seq inserts) : r.orderKey ≠ q.orderKey := by
  obtain ⟨m, i, hm, rfl⟩ := hr
  obtain ⟨⟨j, n⟩, hmem, rfl⟩ := List.mem_map.mp hq
  obtain ⟨hle, hn, -⟩ := List.mem_zipIdx hmem
  intro heq
  have heq := congrArg seqBytes heq
  rw [recordAt, seqBytes_recordOf, seqBytes_recordOf] at heq
  have := u64Bytes_ofNat_inj (by omega) (by omega) heq
  omega

theorem below_numbered {seq : Nat} {inserts : List Insert} (hr : r ∈ numbered seq inserts) :
    Below (seq + inserts.length) r := by
  obtain ⟨⟨i, n⟩, hmem, rfl⟩ := List.mem_map.mp hr
  exact ⟨n, i, (List.mem_zipIdx hmem).2.1, rfl⟩

theorem inserted (h : Recoverable s) {inserts : List Insert} {e' : Engine c}
    (hi : Inserted s.engine inserts e') : Recoverable { s with engine := e' } := by
  obtain ⟨m, hm, hlt, rfl⟩ := hi
  have hlt := hlt h.seq_lt
  have hnodup : ((numbered s.engine.seqCounter inserts).map Record.orderKey).Nodup :=
    nodup_numbered hlt.le
  -- The records kept, old and new, have different keys.
  have hinj (r r' : Record) (hr : Kept s r ∨ r ∈ numbered s.engine.seqCounter inserts)
      (hr' : Kept s r' ∨ r' ∈ numbered s.engine.seqCounter inserts)
      (heq : r.orderKey = r'.orderKey) : r = r' := by
    rcases hr with hr | hr
    · rcases hr' with hr' | hr'
      · exact h.inj r r' hr hr' heq
      · exact absurd heq (key_ne hlt (h.below r hr) hr')
    · rcases hr' with hr' | hr'
      · exact absurd heq.symm (key_ne hlt (h.below r' hr') hr)
      · exact List.inj_on_of_nodup_map hnodup hr hr' heq
  have hmem {r : Record} : r ∈ m.bset.elems ↔
      r ∈ s.engine.memtable.bset.elems ∨ r ∈ numbered s.engine.seqCounter inserts := by
    rw [hm]
    exact OrdSet.mem_extend_iff fun a b ha hb => hinj a b (ha.imp_left .inr) (hb.imp_left .inr)
  have hkept {r : Record} (hr : InWal s.disk r ∨ r ∈ m.bset.elems) :
      Kept s r ∨ r ∈ numbered s.engine.seqCounter inserts := by
    rcases hr with hr | hr
    · exact .inl (.inl hr)
    · exact (hmem.mp hr).imp_left .inr
  refine ⟨fun r hr => hmem.mpr ?_, fun r hr => ?_, fun r r' hr hr' => hinj r r' (hkept hr) (hkept hr'),
    hlt, h.job, h.newIds, h.fresh, h.ssts, h.applied, h.stale⟩
  · rw [← List.append_assoc] at hr
    exact (List.mem_append.mp hr).imp_left (h.active r)
  · rcases hkept hr with hr | hr
    · exact (h.below r hr).mono (Nat.le_add_right _ _)
    · exact below_numbered hr

theorem writeWal (h : Recoverable s) (n : Nat) : Recoverable (s.writeWal n) := by
  have hsplit : s.disk.active ++ s.engine.walBuffer.take n ++ s.engine.walBuffer.drop n =
      s.disk.active ++ s.engine.walBuffer := by
    rw [List.append_assoc, List.take_append_drop]
  have hactive (r : Record) (hr : r ∈ (s.writeWal n).disk.active ++ (s.writeWal n).engine.walBuffer) :
      r ∈ s.engine.memtable.bset.elems := h.active r (hsplit ▸ hr)
  have hkept {r : Record} (hr : Kept (s.writeWal n) r) : Kept s r := by
    rcases hr with (hr | hr) | hr
    · exact .inr (hactive r (List.mem_append_left _ hr))
    · exact .inl (.inr hr)
    · exact .inr hr
  exact ⟨hactive, fun r hr => h.below r (hkept hr), fun r r' hr hr' => h.inj r r' (hkept hr) (hkept hr'),
    h.seq_lt, h.job, h.newIds, h.fresh, h.ssts, h.applied, h.stale⟩

/-- A rotation: the memtable to flush has the records of the rotated file. -/
theorem flush (h : Recoverable s) : Recoverable (flushing s) := by
  have hjobs := jobs_sent s (flushing s) rfl rfl rfl
  have hwals {p : Nat × List Record} (hp : p ∈ (flushing s).disk.wals.elems) :
      p = (s.engine.sstCounter, s.disk.active ++ s.engine.walBuffer) ∨ p ∈ s.disk.wals.elems :=
    OrdMap.mem_upsert hp
  have hold {id : Nat} (hid : id < s.engine.sstCounter) {recs : List Record}
      (hmem : (id, recs) ∈ (flushing s).disk.wals.elems) : (id, recs) ∈ s.disk.wals.elems := by
    refine (hwals hmem).resolve_left fun heq => ?_
    exact absurd (congrArg Prod.fst heq) hid.ne
  have hkept {r : Record} (hr : Kept (flushing s) r) : Kept s r := by
    rcases hr with (hr | ⟨p, hp, hr⟩) | hr
    · cases hr
    · rcases hwals hp with rfl | hp
      · exact .inr (h.active r hr)
      · exact .inl (.inr ⟨p, hp, hr⟩)
    · cases hr
  have hids : ((jobs (flushing s)).flatMap Job.newIds).Perm
      (s.engine.sstCounter :: (jobs s).flatMap Job.newIds) := hjobs.flatMap_right _
  refine ⟨by simp [flushing], fun r hr => h.below r (hkept hr),
    fun r r' hr hr' => h.inj r r' (hkept hr) (hkept hr'), h.seq_lt, fun j hj => ?_,
    hids.nodup_iff.mpr (List.nodup_cons.mpr ⟨fun hid => (h.fresh _ hid).false, h.newIds⟩),
    fun id hid => ?_, fun p hp => Nat.lt_succ_of_lt (h.ssts p hp), fun id hid => ?_, fun p hp => ?_⟩
  · rcases List.mem_append.mp (hjobs.mem_iff.mp hj) with hj | hj
    · obtain rfl | rfl : j = .command .resyncWal ∨
          j = .command (.flushMemtable s.engine.memtable s.engine.sstCounter) := by simpa using hj
      · trivial
      · refine ⟨fun file hfile => (h.ssts _ hfile).false, fun recs hrecs => ?_⟩
        rcases OrdMap.mem_upsert_iff.mp hrecs with heq | ⟨-, hne⟩
        · cases heq
          exact h.active
        · exact absurd rfl hne
    · refine (h.job j hj).mono (fun _ _ _ => id) (fun id hid recs hrecs => ?_) fun _ => id
      exact hold (h.fresh id (List.mem_flatMap.mpr ⟨j, hj, hid⟩)) hrecs
  · rcases List.mem_cons.mp (hids.mem_iff.mp hid) with rfl | hid
    · exact Nat.lt_succ_self _
    · exact Nat.lt_succ_of_lt (h.fresh id hid)
  · obtain ⟨hlt, hcov⟩ := h.applied id hid
    exact ⟨Nat.lt_succ_of_lt hlt, fun recs hrecs => hcov recs (hold hlt hrecs)⟩
  · rcases OrdMap.mem_upsert hp with rfl | hp
    · rfl
    · exact h.stale p hp

theorem dispatch (h : Recoverable s) (hd : s.dispatch = some s') : Recoverable s' := by
  rcases dispatch_inv hd with ⟨cmds, rfl, hjobs⟩ | ⟨cmds, tasks, rfl, hjobs⟩
  · have hjob := h.job
    have hnodup := h.newIds
    have hfresh := h.fresh
    rw [hjobs] at hjob hnodup hfresh
    exact ⟨h.active, h.below, h.inj, h.seq_lt, (List.forall_mem_cons.mp hjob).2, hnodup, hfresh, h.ssts,
      h.applied, h.stale⟩
  · have hids := hjobs.flatMap_right Job.newIds
    exact ⟨h.active, h.below, h.inj, h.seq_lt, fun j hj => h.job j (hjobs.mem_iff.mpr hj),
      hids.nodup_iff.mp h.newIds, fun id hid => h.fresh id (hids.mem_iff.mpr hid), h.ssts,
      h.applied, h.stale⟩

/-- The tables on the disk stay when a task ends. -/
theorem finish_disk (h : Recoverable s) {i : Nat} (hf : s.finish hp i true = some s') :
    ∃ m id rest, (jobs s).Perm (.command (.flushMemtable m id) :: rest) ∧
      (∃ tasks, s' = { s with
        tasks
        disk.ssts := s.disk.ssts.upsert id (c.writeToFile id m.bset.elems m.len).1
        results := s.results ++ [.flush (c.writeToFile id m.bset.elems m.len).2] }) ∧
      (jobs s').Perm (.result (.flush (c.writeToFile id m.bset.elems m.len).2) :: rest) ∧
      JobSafe s.disk (.command (.flushMemtable m id) : Job c) := by
  obtain ⟨task, id, file, result, rest, hrun, htasks, hjobs, hjobs'⟩ := finish_inv hf
  have hjob := h.job _ (hjobs.mem_iff.mpr List.mem_cons_self)
  rcases runTask_cases hrun with ⟨m, rfl, rfl, rfl⟩ | ⟨tables, recs, rfl, -⟩
  · exact ⟨m, id, rest, hjobs, htasks, hjobs', hjob⟩
  · exact hjob.elim

/-- The table of a flush that ends has the records of its WAL file. -/
theorem finish (hl : Stores c) (h : Recoverable s) {i : Nat} (hf : s.finish hp i true = some s') :
    Recoverable s' := by
  obtain ⟨m, id, rest, hjobs, ⟨tasks, rfl⟩, hjobs', hfree, hsub⟩ := h.finish_disk hf
  have hid : (c.writeToFile id m.bset.elems m.len).2.id = id := hl.id _ _ _
  have hids : ((jobs s).flatMap Job.newIds).Perm (id :: rest.flatMap Job.newIds) :=
    hjobs.flatMap_right _
  have hids' := hjobs'.flatMap_right Job.newIds
  rw [List.flatMap_cons, show Job.newIds (.result (.flush _)) = [_] from rfl, hid] at hids'
  have hcov {k : Nat} (hk : Covered s.disk k) : Covered { s.disk with
      ssts := s.disk.ssts.upsert id (c.writeToFile id m.bset.elems m.len).1 } k :=
    fun recs hrecs r hr => inSst_upsert (hk recs hrecs r hr) hfree _
  refine ⟨h.active, h.below, h.inj, h.seq_lt, fun j hj => ?_,
    (hids'.trans hids.symm).nodup_iff.mpr h.newIds,
    fun k hk => h.fresh k ((hids'.trans hids.symm).mem_iff.mp hk), fun p hp => ?_, fun k hk => ?_, h.stale⟩
  · rcases List.mem_cons.mp (hjobs'.mem_iff.mp hj) with rfl | hrest
    · rw [JobSafe, hid]
      exact fun recs hrecs r hr => inSst_written hl _ (hsub recs hrecs hr)
    · refine (h.job j (hjobs.mem_iff.mpr (List.mem_cons_of_mem _ hrest))).mono (fun k hk f hf => ?_)
        (fun _ _ _ h => h) fun r hr => inSst_upsert hr hfree _
      refine (OrdMap.mem_upsert hf).resolve_left fun heq => ?_
      have hid : k = id := congrArg Prod.fst heq
      refine (List.nodup_cons.mp (hids.nodup_iff.mp h.newIds)).1 ?_
      exact List.mem_flatMap.mpr ⟨j, hrest, hid ▸ hk⟩
  · rcases OrdMap.mem_upsert hp with rfl | hp
    · exact h.fresh id (hids.mem_iff.mpr List.mem_cons_self)
    · exact h.ssts p hp
  · exact ⟨(h.applied k hk).1, hcov (h.applied k hk).2⟩

/-- The WAL files that a flush's result deletes have records of tables only. -/
theorem receive_disk (h : Recoverable s) (hr : s.receive = some s') :
    ∃ newMeta results staleWals nextWalToDel wals,
      s' = { s with
        results, staleWals, nextWalToDel, disk.wals := wals
        appliedFlushes := insert newMeta.id s.appliedFlushes
        engine.frozenMemtables := s.engine.frozenMemtables.remove newMeta.id
        engine.sstableMap := s.engine.sstableMap.upsert newMeta.id newMeta } ∧
      (jobs s).Perm (.result (.flush newMeta) :: jobs s') ∧ Covered s.disk newMeta.id ∧
      (∀ p ∈ staleWals.elems, p ∈ s.staleWals.elems) ∧
      (∀ p ∈ wals.elems, p ∈ s.disk.wals.elems) ∧
      ∀ p ∈ s.disk.wals.elems, p ∈ wals.elems ∨ ∀ r ∈ p.2, InSst s.disk.ssts r := by
  rcases receive_inv hr with ⟨newMeta, results, stale, next, wals, hs, hjobs, hdel⟩ |
    ⟨newMeta, ids, results, -, hjobs⟩
  · have hcov : Covered s.disk newMeta.id := h.job _ (hjobs.mem_iff.mpr List.mem_cons_self)
    refine ⟨newMeta, results, stale, next, wals, hs, hjobs, hcov,
      fun p hp => ((hdel.mem_stale p).mp hp).1, fun p hp => ((hdel.mem_wals p).mp hp).1,
      fun p hp => or_iff_not_imp_left.mpr fun hdeleted r hr => ?_⟩
    obtain ⟨id, hid, -, -, hmem⟩ := hdel.deleted hp hdeleted
    have hpath : p.1 = id := h.stale _ hmem
    rcases Finset.mem_insert.mp hid with rfl | hid
    · exact hcov p.2 (hpath ▸ hp) r hr
    · exact (h.applied id hid).2 p.2 (hpath ▸ hp) r hr
  · exact (h.job _ (hjobs.mem_iff.mpr List.mem_cons_self)).elim

theorem receive (h : Recoverable s) (hr : s.receive = some s') : Recoverable s' := by
  obtain ⟨newMeta, results, stale, next, wals, rfl, hjobs, hnew, hstale, hsub, -⟩ := h.receive_disk hr
  have hids := hjobs.flatMap_right Job.newIds
  have hcov {k : Nat} (hk : Covered s.disk k) : Covered { s.disk with wals } k :=
    fun recs hrecs => hk recs (hsub _ hrecs)
  have hkept {r : Record} (hr : InWal { s.disk with wals } r ∨ r ∈ s.engine.memtable.bset.elems) :
      Kept s r := by
    rcases hr with (hr | ⟨p, hp, hr⟩) | hr
    · exact .inl (.inl hr)
    · exact .inl (.inr ⟨p, hsub p hp, hr⟩)
    · exact .inr hr
  refine ⟨h.active, fun r hr => h.below r (hkept hr),
    fun r r' hr hr' => h.inj r r' (hkept hr) (hkept hr'), h.seq_lt, fun j hj => ?_,
    (List.nodup_cons.mp (hids.nodup_iff.mp h.newIds)).2,
    fun id hid => h.fresh id (hids.mem_iff.mpr (List.mem_cons_of_mem _ hid)), h.ssts, fun id hid => ?_,
    fun p hp => h.stale p (hstale p hp)⟩
  · exact (h.job j (hjobs.mem_iff.mpr (List.mem_cons_of_mem _ hj))).mono (fun _ _ _ => id)
      (fun _ _ _ => hsub _) fun _ => id
  · rcases Finset.mem_insert.mp hid with rfl | hid
    · exact ⟨h.fresh _ (hids.mem_iff.mpr List.mem_cons_self), hcov hnew⟩
    · exact ⟨(h.applied id hid).1, hcov (h.applied id hid).2⟩

/-- A crash: what `Engine::open` makes of the disk. -/
theorem start (h : Recoverable s) {limit count : Nat} {e : Engine c} {full : Bool}
    (ho : Engine.openDir c s.disk limit = .ok (e, full)) :
    Recoverable (System.start e count s.disk) := by
  obtain ⟨-, -, -, hbuf, hsst, -, hlt⟩ := openDir_inv ho
  have hinj (r r' : Record) (hr : InWal s.disk r) (hr' : InWal s.disk r') :=
    h.inj r r' (.inl hr) (.inl hr')
  obtain ⟨hmem, hbelow⟩ := openDir_recovers ho hinj
  have hkept {r : Record} (hr : Kept (System.start e count s.disk) r) : InWal s.disk r :=
    hr.elim id (hmem r).mp
  refine ⟨fun r hr => (hmem r).mpr ?_, fun r hr => ?_,
    fun r r' hr hr' => hinj r r' (hkept hr) (hkept hr'), hlt, by simp [jobs, System.start], .nil,
    by simp [jobs, System.start], fun p hp => ?_, by simp [System.start], by simp [System.start]⟩
  · simp only [System.start, hbuf, List.append_nil] at hr
    exact .inl hr
  · exact hbelow r (hkept hr) ((h.below r (.inl (hkept hr))).mono h.seq_lt.le)
  · show p.1 < e.sstCounter
    rw [hsst]
    exact lt_nextSstId hp

end Recoverable

theorem restart_inv {limit : Nat} (h : s.restart limit = some s') :
    ∃ e full, Engine.openDir c s.disk limit = .ok (e, full) ∧
      (System.start e s.maxSstableCount s.disk).sendFlushCmd true = some s' := by
  unfold System.restart at h
  split at h
  · rename_i e full ho
    exact ⟨e, full, ho, h⟩
  · cases h

theorem Recoverable.sendFlush (h : Recoverable s) (hf : s.sendFlushCmd true = some s') :
    Recoverable s' := by
  rcases sendFlush_inv hf with ⟨-, rfl⟩ | ⟨-, -, rfl⟩
  · exact h
  · exact h.flush

/-- A step of a run with crashes. -/
theorem exec_recoverable (hl : Stores c) {step : Step} (h : Recoverable s) (hs : Flushes step)
    (hexec : step.exec hp s = some s') : Recoverable s' := by
  cases step with
  | insert i =>
    obtain ⟨⟨full, e'⟩, hi, hexec⟩ := Option.bind_eq_some_iff.mp hexec
    cases hexec
    exact h.inserted (insertRecord_inv hi)
  | batchInsert inserts =>
    obtain ⟨⟨full, e'⟩, hi, hexec⟩ := Option.bind_eq_some_iff.mp hexec
    cases hexec
    exact h.inserted (batchInsertRecords_inv hi)
  | writeWal n =>
    cases hexec
    exact h.writeWal n
  | sendFlush rotates =>
    cases hs
    exact h.sendFlush hexec
  | sendCompaction => cases hs
  | dispatch => exact h.dispatch hexec
  | finish i succeeds =>
    cases hs
    exact h.finish hl hexec
  | receive => exact h.receive hexec
  | crash limit =>
    obtain ⟨e, full, ho, hf⟩ := restart_inv hexec
    exact (h.start ho).sendFlush hf

/-- An empty directory. -/
theorem recoverable_start {e : Engine c} {limit count : Nat} {full : Bool}
    (h : Engine.openDir c .empty limit = .ok (e, full)) :
    Recoverable (System.start e count .empty) := by
  rw [openDir_empty] at h
  cases h
  have hkept (r : Record) : ¬ Kept (System.start (freshEngine c limit) count .empty) r := by
    rintro ((hr | ⟨p, hp, -⟩) | hr)
    · cases hr
    · cases hp
    · cases hr
  refine ⟨?_, fun r hr => (hkept r hr).elim, fun r _ hr => (hkept r hr).elim,
    (by decide : 1 < 2 ^ 64), ?_, .nil, ?_, ?_, fun id hid => absurd hid (Finset.notMem_empty id), ?_⟩
  all_goals exact fun _ hmem => by cases hmem

end LG.Proof.Core
