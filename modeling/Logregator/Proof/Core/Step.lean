import Logregator.Spec.Core.Jobs
import Logregator.Spec.Core.Log
import Mathlib.Data.List.Perm.Basic

/-!
# What a step does

The state after each step, in terms of the state before it. All flushes and
compactions under way are `jobs`, whether they are commands, tasks or results:
a step adds a job, takes one away, or turns a command into its result.
-/

namespace LG.Proof.Core

open LG.Impl.Core LG.Spec.Core

variable {c : SSTableCode} {hp : RecordHeap} {e e' : Engine c} {s s' : System c}

/-! ## Inserts -/

theorem incU64_eq_some {n m : Nat} (h : incU64 n = some m) : m = n + 1 ∧ n + 1 < 2 ^ 64 := by
  rw [incU64] at h
  split at h
  · rename_i hlt
    cases h
    exact ⟨rfl, hlt⟩
  · cases h

theorem insert_eq_some {set set' : RecordSet} {r : Record} (h : RecordSet.insert set r = some set') :
    set' = OrdSet.insert set r := by
  rw [RecordSet.insert] at h
  split at h
  · cases h
    rfl
  · cases h

theorem extend_eq_some : ∀ {rs : List Record} {set set' : RecordSet},
    RecordSet.extend set rs = some set' → set' = OrdSet.extend set rs
  | [], _, _, h => by
    cases h
    rfl
  | r :: rs, set, set', h => by
    obtain ⟨set₁, h₁, h⟩ := Option.bind_eq_some_iff.mp h
    rw [OrdSet.extend_cons, ← insert_eq_some h₁]
    exact extend_eq_some h

theorem MemTable.insert_eq_some {m m' : MemTable} {r : Record} {full : Bool}
    (h : m.insert r = some (full, m')) : m'.bset = OrdSet.insert m.bset r := by
  obtain ⟨set, hset, h⟩ := Option.bind_eq_some_iff.mp h
  cases h
  exact Core.insert_eq_some hset

theorem insertAll_eq_some : ∀ {rs : List Record} {m m' : MemTable} {full : Bool},
    Engine.insertAll m rs = some (full, m') → m'.bset = OrdSet.extend m.bset rs
  | [], _, _, _, h => by
    cases h
    rfl
  | r :: rs, m, m', full, h => by
    obtain ⟨⟨full₁, m₁⟩, h₁, h⟩ := Option.bind_eq_some_iff.mp h
    obtain ⟨⟨full₂, m₂⟩, h₂, h⟩ := Option.bind_eq_some_iff.mp h
    cases h
    rw [OrdSet.extend_cons, ← MemTable.insert_eq_some h₁]
    exact insertAll_eq_some h₂

theorem insertRecovered_eq_some : ∀ {rs : List Record} {m m' : MemTable} {full full' : Bool},
    Engine.insertRecovered m full rs = some (full', m') → m'.bset = OrdSet.extend m.bset rs
  | [], _, _, _, _, h => by
    cases h
    rfl
  | r :: rs, m, m', full, full', h => by
    obtain ⟨⟨full₁, m₁⟩, h₁, h⟩ := Option.bind_eq_some_iff.mp h
    rw [OrdSet.extend_cons, ← MemTable.insert_eq_some h₁]
    exact insertRecovered_eq_some h

/-- The records of inserts, numbered from a sequence number on. -/
def numbered (seq : Nat) (inserts : List Insert) : List Record := (inserts.zipIdx seq).map recordAt

theorem numberInserts_eq_some : ∀ {inserts : List Insert} {seq last : Nat} {recs : List Record},
    Engine.numberInserts seq inserts = some (recs, last) →
    recs = numbered seq inserts ∧ last = seq + inserts.length ∧ (seq < 2 ^ 64 → last < 2 ^ 64)
  | [], seq, last, recs, h => by
    cases h
    exact ⟨rfl, rfl, id⟩
  | i :: inserts, seq, last, recs, h => by
    obtain ⟨next, hnext, h⟩ := Option.bind_eq_some_iff.mp h
    obtain ⟨⟨rest, last'⟩, hrest, h⟩ := Option.bind_eq_some_iff.mp h
    cases h
    obtain ⟨rfl, hlt⟩ := incU64_eq_some hnext
    obtain ⟨rfl, rfl, hlast⟩ := numberInserts_eq_some hrest
    refine ⟨rfl, ?_, fun _ => hlast hlt⟩
    rw [List.length_cons]
    omega

/-- What inserts do to an engine. -/
def Inserted (e : Engine c) (inserts : List Insert) (e' : Engine c) : Prop :=
  ∃ m : MemTable, m.bset = OrdSet.extend e.memtable.bset (numbered e.seqCounter inserts) ∧
    (e.seqCounter < 2 ^ 64 → e.seqCounter + inserts.length < 2 ^ 64) ∧
    e' = { e with
      walBuffer := e.walBuffer ++ numbered e.seqCounter inserts
      memtable := m
      seqCounter := e.seqCounter + inserts.length }

theorem insertRecord_inv {i : Insert} {full : Bool} (h : e.insertRecord i = some (full, e')) :
    Inserted e [i] e' := by
  obtain ⟨⟨full₁, m⟩, hm, h⟩ := Option.bind_eq_some_iff.mp h
  obtain ⟨seq, hseq, h⟩ := Option.bind_eq_some_iff.mp h
  obtain ⟨rfl, hlt⟩ := incU64_eq_some hseq
  cases h
  exact ⟨m, MemTable.insert_eq_some hm, fun _ => hlt, rfl⟩

theorem batchInsertRecords_inv {inserts : List Insert} {full : Bool}
    (h : e.batchInsertRecords inserts = some (full, e')) : Inserted e inserts e' := by
  obtain ⟨⟨recs, seq⟩, hrecs, h⟩ := Option.bind_eq_some_iff.mp h
  obtain ⟨⟨full₁, m⟩, hm, h⟩ := Option.bind_eq_some_iff.mp h
  obtain ⟨rfl, rfl, hlt⟩ := numberInserts_eq_some hrecs
  cases h
  exact ⟨m, insertAll_eq_some hm, hlt, rfl⟩

/-! ## Flushes and compactions under way -/

/-- A flush or compaction under way. -/
inductive Job (c : SSTableCode) where
  | command (cmd : IoCommand c)
  | result (result : IoResult c)

namespace Job

/-- The id of the table that the job makes. -/
def newIds : Job c → List Nat
  | command .resyncWal => []
  | command (.flushMemtable _ id) => [id]
  | command (.compactSSTables _ id) => [id]
  | result (.flush newMeta) => [newMeta.id]
  | result (.compaction newMeta _) => [newMeta.id]

/-- The ids of the tables that the job takes the place of. -/
def inputs : Job c → List Nat
  | command (.compactSSTables tables _) => tables.map fun table => table.id
  | result (.compaction _ ids) => ids
  | _ => []

end Job

/-- The jobs of a system. -/
def jobs (s : System c) : List (Job c) :=
  (s.cmds ++ s.tasks).map .command ++ s.results.map .result

theorem jobs_sent (s s' : System c) {cmds : List (IoCommand c)} (hcmds : s'.cmds = s.cmds ++ cmds)
    (htasks : s'.tasks = s.tasks) (hresults : s'.results = s.results) :
    (jobs s').Perm (cmds.map .command ++ jobs s) := by
  rw [jobs, jobs, hcmds, htasks, hresults, ← List.append_assoc, ← List.map_append]
  refine List.Perm.append_right _ (List.Perm.map _ ?_)
  rw [← List.append_assoc]
  exact List.perm_append_comm.append_right _

/-- The state after the memtable is frozen and the WAL rotated. -/
def flushing (s : System c) : System c :=
  { s with
    engine.walBuffer := []
    engine.memtable := s.engine.memtable.freeze.2
    engine.frozenMemtables := s.engine.frozenMemtables.upsert s.engine.sstCounter s.engine.memtable
    engine.sstCounter := s.engine.sstCounter + 1
    staleWals := s.staleWals.upsert s.engine.sstCounter s.engine.sstCounter
    cmds := s.cmds ++ [.resyncWal, .flushMemtable s.engine.memtable s.engine.sstCounter]
    disk.active := []
    disk.wals := s.disk.wals.upsert s.engine.sstCounter (s.disk.active ++ s.engine.walBuffer) }

/-- The state after the memtable is frozen, when the WAL could not be rotated. -/
def freezing (s : System c) : System c :=
  { s with
    engine.memtable := s.engine.memtable.freeze.2
    engine.frozenMemtables := s.engine.frozenMemtables.upsert s.engine.sstCounter s.engine.memtable
    engine.sstCounter := s.engine.sstCounter + 1 }

theorem sendFlush_cases {rotates : Bool} (h : s.sendFlushCmd rotates = some s') :
    s.engine.memtable.bset.elems = [] ∧ s' = s ∨
      s.engine.memtable.bset.elems ≠ [] ∧ s.engine.sstCounter + 1 < 2 ^ 64 ∧
        s' = cond rotates (flushing s) (freezing s) := by
  unfold System.sendFlushCmd at h
  split at h
  · rename_i hempty
    cases h
    exact .inl ⟨List.isEmpty_iff.mp hempty, rfl⟩
  · rename_i hempty
    obtain ⟨⟨frozen, id, e⟩, hflush, h⟩ := Option.bind_eq_some_iff.mp h
    obtain ⟨n, hn, hflush⟩ := Option.bind_eq_some_iff.mp hflush
    obtain ⟨rfl, hlt⟩ := incU64_eq_some hn
    cases hflush
    refine .inr ⟨fun hnil => hempty (List.isEmpty_iff.mpr hnil), hlt, ?_⟩
    cases rotates with
    | true | false =>
      cases h
      rfl

theorem sendFlush_inv (h : s.sendFlushCmd true = some s') :
    s.engine.memtable.bset.elems = [] ∧ s' = s ∨
      s.engine.memtable.bset.elems ≠ [] ∧ s.engine.sstCounter + 1 < 2 ^ 64 ∧ s' = flushing s :=
  sendFlush_cases h

/-- The state after a compaction of so many tables is sent. -/
def compactingOldest (n : Nat) (s : System c) : System c :=
  { s with
    engine.compacting := s.engine.compacting ∪
      ((s.engine.getOldestMetas n).map fun table => table.id).toFinset
    engine.sstCounter := s.engine.sstCounter + 1
    cmds := s.cmds ++ [.compactSSTables (s.engine.getOldestMetas n) s.engine.sstCounter] }

theorem sendCompaction_inv (h : s.sendCompactionCmd = some s') :
    s' = s ∨ ∃ n, 2 ≤ (s.engine.getOldestMetas n).length ∧ s' = compactingOldest n s := by
  unfold System.sendCompactionCmd at h
  split at h
  · cases h
    exact .inl rfl
  · simp only at h
    split at h
    · cases h
      exact .inl rfl
    · rename_i hlen
      obtain ⟨n, hn, h⟩ := Option.bind_eq_some_iff.mp h
      obtain ⟨rfl, -⟩ := incU64_eq_some hn
      cases h
      exact .inr ⟨_, not_lt.mp hlen, rfl⟩

theorem dispatch_inv (h : s.dispatch = some s') :
    (∃ cmds, s' = { s with cmds } ∧ jobs s = .command .resyncWal :: jobs s') ∨
      ∃ cmds tasks, s' = { s with cmds, tasks } ∧ (jobs s).Perm (jobs s') := by
  rw [System.dispatch] at h
  split at h
  · cases h
  · rename_i cmds hcmds
    cases h
    exact .inl ⟨cmds, rfl, by simp [jobs, hcmds]⟩
  · rename_i cmd cmds _ hcmds
    cases h
    refine .inr ⟨cmds, s.tasks ++ [cmd], rfl, ?_⟩
    refine List.Perm.append_right _ (List.Perm.map _ ?_)
    rw [hcmds, List.cons_append, ← List.append_assoc]
    exact (List.perm_append_singleton _ _).symm

/-- The tasks that end: a flush, or a compaction of what could be read. -/
theorem runTask_cases {disk : Disk} {task : IoCommand c} {id : Nat} {file : List UInt8}
    {result : IoResult c} (h : System.runTask hp disk task = some (id, file, result)) :
    (∃ m, task = .flushMemtable m id ∧ file = (c.writeToFile id m.bset.elems m.len).1 ∧
      result = .flush (c.writeToFile id m.bset.elems m.len).2) ∨
    ∃ tables recs, task = .compactSSTables tables id ∧
      System.compactedRecords hp disk tables = some recs ∧
      file = (c.writeToFile id recs (tables.map fun table => table.numRecords).sum).1 ∧
      result = .compaction
        (c.writeToFile id recs (tables.map fun table => table.numRecords).sum).2
        (tables.map fun table => table.id) := by
  cases task with
  | resyncWal => cases h
  | flushMemtable m sstId =>
    cases h
    exact .inl ⟨m, rfl, rfl, rfl⟩
  | compactSSTables tables fileId =>
    obtain ⟨recs, hrecs, h⟩ := Option.bind_eq_some_iff.mp h
    cases h
    exact .inr ⟨tables, recs, rfl, hrecs, rfl, rfl⟩

theorem finish_inv {i : Nat} (h : s.finish hp i true = some s') :
    ∃ task id file result rest, System.runTask hp s.disk task = some (id, file, result) ∧
      (∃ tasks, s' = { s with
        tasks, disk.ssts := s.disk.ssts.upsert id file, results := s.results ++ [result] }) ∧
      (jobs s).Perm (.command task :: rest) ∧ (jobs s').Perm (.result result :: rest) := by
  obtain ⟨task, htask, h⟩ := Option.bind_eq_some_iff.mp h
  obtain ⟨hi, rfl⟩ := List.getElem?_eq_some_iff.mp htask
  simp only [if_true] at h
  obtain ⟨⟨id, file, result⟩, hrun, h⟩ := Option.bind_eq_some_iff.mp h
  cases h
  refine ⟨_, id, file, result,
    (s.cmds ++ s.tasks.eraseIdx i).map .command ++ s.results.map .result, hrun,
    ⟨_, rfl⟩, ?_, ?_⟩
  · rw [← List.cons_append, ← List.map_cons]
    refine List.Perm.append_right _ (List.Perm.map _ ?_)
    exact ((List.getElem_cons_eraseIdx_perm hi).symm.append_left _).trans List.perm_middle
  · simp only [jobs, List.map_append, List.map_singleton, ← List.append_assoc]
    exact List.perm_append_singleton _ _

/-- A task that fails is gone. -/
theorem finish_fails_inv {i : Nat} (h : s.finish hp i false = some s') :
    ∃ task tasks, s.tasks[i]? = some task ∧ s' = { s with tasks } ∧
      (jobs s).Perm (.command task :: jobs s') := by
  obtain ⟨task, htask, h⟩ := Option.bind_eq_some_iff.mp h
  obtain ⟨hi, rfl⟩ := List.getElem?_eq_some_iff.mp htask
  cases h
  refine ⟨_, _, htask, rfl, ?_⟩
  rw [jobs, jobs, ← List.cons_append, ← List.map_cons]
  refine List.Perm.append_right _ (List.Perm.map _ ?_)
  exact ((List.getElem_cons_eraseIdx_perm hi).symm.append_left _).trans List.perm_middle

/-! ## Results -/

/-- The WAL files of the flushes from `next` up to `next'` are deleted: all of
them are applied, and so is the one after each. -/
structure Deletes (applied : Finset Nat) (next next' : Nat) (stale stale' : OrdMap Nat Nat)
    (wals wals' : OrdMap Nat (List Record)) : Prop where
  le : next ≤ next'
  passed : ∀ i, next ≤ i → i < next' → i ∈ applied ∧ i + 1 ∈ applied
  mem_stale : ∀ p, p ∈ stale'.elems ↔ p ∈ stale.elems ∧ ¬ (next ≤ p.1 ∧ p.1 < next')
  mem_wals : ∀ p, p ∈ wals'.elems ↔
    p ∈ wals.elems ∧ ∀ i, next ≤ i → i < next' → (i, p.1) ∉ stale.elems
  stops : ¬ (next' ∈ applied ∧ next' + 1 ∈ applied)

theorem Deletes.none {applied : Finset Nat} {next : Nat} (stale : OrdMap Nat Nat)
    (wals : OrdMap Nat (List Record)) (h : ¬ (next ∈ applied ∧ next + 1 ∈ applied)) :
    Deletes applied next next stale stale wals wals where
  le := le_refl _
  passed i hle hlt := by omega
  mem_stale p := by
    rw [iff_self_and]
    omega
  mem_wals p := by
    rw [iff_self_and]
    intro _ i hle hlt
    omega
  stops := h

/-- One file more. -/
theorem Deletes.cons {applied : Finset Nat} {next next' : Nat} {stale stale₁ stale' : OrdMap Nat Nat}
    {wals wals₁ wals' : OrdMap Nat (List Record)} (hnext : next ∈ applied ∧ next + 1 ∈ applied)
    (hstale : ∀ p, p ∈ stale₁.elems ↔ p ∈ stale.elems ∧ p.1 ≠ next)
    (hwals : ∀ p, p ∈ wals₁.elems ↔ p ∈ wals.elems ∧ (next, p.1) ∉ stale.elems)
    (h : Deletes applied (next + 1) next' stale₁ stale' wals₁ wals') :
    Deletes applied next next' stale stale' wals wals' where
  le := Nat.le_of_succ_le h.le
  passed i hle hlt := by
    rcases hle.eq_or_lt with rfl | hle
    · exact hnext
    · exact h.passed i hle hlt
  mem_stale p := by
    rw [h.mem_stale, hstale, and_assoc]
    refine and_congr_right fun _ => ?_
    have := h.le
    omega
  mem_wals p := by
    rw [h.mem_wals, hwals, and_assoc]
    refine and_congr_right fun _ => ⟨?_, ?_⟩
    · rintro ⟨hfirst, hrest⟩ i hle hlt hmem
      rcases hle.eq_or_lt with rfl | hle
      · exact hfirst hmem
      · exact hrest i hle hlt ((hstale _).mpr ⟨hmem, hle.ne'⟩)
    · intro hall
      refine ⟨hall next (le_refl _) h.le, fun i hle hlt hmem => ?_⟩
      exact hall i (Nat.le_of_succ_le hle) hlt ((hstale _).mp hmem).1
  stops := h.stops

/-- A file that is deleted is that of a flush applied. -/
theorem Deletes.deleted {applied : Finset Nat} {next next' : Nat} {stale stale' : OrdMap Nat Nat}
    {wals wals' : OrdMap Nat (List Record)} (h : Deletes applied next next' stale stale' wals wals')
    {p : Nat × List Record} (hp : p ∈ wals.elems) (hnot : p ∉ wals'.elems) :
    ∃ i ∈ applied, next ≤ i ∧ i < next' ∧ (i, p.1) ∈ stale.elems := by
  rw [h.mem_wals] at hnot
  push Not at hnot
  obtain ⟨i, hle, hlt, hmem⟩ := hnot hp
  exact ⟨i, (h.passed i hle hlt).1, hle, hlt, hmem⟩

/-- The loop stops where a flush or the next one is not applied. -/
theorem deleteStaleWals_eq : ∀ (n : Nat) (s : System c),
    (s.appliedFlushes.filter (s.nextWalToDel ≤ ·)).card ≤ n →
    ∃ staleWals nextWalToDel wals,
      System.deleteStaleWals n s = { s with staleWals, nextWalToDel, disk.wals := wals } ∧
      Deletes s.appliedFlushes s.nextWalToDel nextWalToDel s.staleWals staleWals s.disk.wals wals
  | 0, s, hn => by
    refine ⟨_, _, _, rfl, .none _ _ fun h => ?_⟩
    have hmem : s.nextWalToDel ∈ s.appliedFlushes.filter (s.nextWalToDel ≤ ·) :=
      Finset.mem_filter.mpr ⟨h.1, le_refl _⟩
    rw [Finset.card_eq_zero.mp (Nat.le_zero.mp hn)] at hmem
    exact Finset.notMem_empty _ hmem
  | n + 1, s, hn => by
    unfold System.deleteStaleWals
    split
    · rename_i happlied
      have hcard : (s.appliedFlushes.filter (s.nextWalToDel + 1 ≤ ·)).card ≤ n := by
        refine Nat.le_of_lt_succ (lt_of_lt_of_le (Finset.card_lt_card ?_) hn)
        refine Finset.ssubset_iff_of_subset (fun i hi => ?_) |>.mpr ⟨s.nextWalToDel, ?_, ?_⟩
        · obtain ⟨hmem, hle⟩ := Finset.mem_filter.mp hi
          exact Finset.mem_filter.mpr ⟨hmem, Nat.le_of_succ_le hle⟩
        · exact Finset.mem_filter.mpr ⟨happlied.1, le_refl _⟩
        · rw [Finset.mem_filter]
          omega
      cases hpath : s.staleWals.lookup s.nextWalToDel with
      | none =>
        obtain ⟨stale, next, wals, heq, h⟩ :=
          deleteStaleWals_eq n { s with nextWalToDel := s.nextWalToDel + 1 } hcard
        have hnone (path : Nat) : (s.nextWalToDel, path) ∉ s.staleWals.elems := by
          intro hmem
          rw [OrdMap.lookup_eq_some.mpr hmem] at hpath
          cases hpath
        refine ⟨stale, next, wals, heq, h.cons happlied (fun p => ?_) fun p => ?_⟩
        · rw [iff_self_and]
          exact fun hmem heq => hnone p.2 (heq ▸ hmem)
        · rw [iff_self_and]
          exact fun _ => hnone p.1
      | some path =>
        obtain ⟨stale, next, wals, heq, h⟩ := deleteStaleWals_eq n { s with
          staleWals := s.staleWals.remove s.nextWalToDel
          disk.wals := s.disk.wals.remove path
          nextWalToDel := s.nextWalToDel + 1 } hcard
        have hstale := OrdMap.lookup_eq_some.mp hpath
        refine ⟨stale, next, wals, heq, h.cons happlied (fun p => OrdMap.mem_remove) fun p => ?_⟩
        rw [OrdMap.mem_remove]
        refine and_congr_right fun _ => not_congr ⟨fun heq => heq ▸ hstale, fun hmem => ?_⟩
        exact OrdMap.value_inj hmem hstale
    · rename_i hstop
      exact ⟨_, _, _, rfl, .none _ _ hstop⟩

theorem foldl_removeTable : ∀ (ids : List Nat) (s : System c), ids.foldl System.removeTable s =
    { s with
      engine.sstableMap := ids.foldl OrdMap.remove s.engine.sstableMap
      disk.ssts := ids.foldl OrdMap.remove s.disk.ssts }
  | [], _ => rfl
  | id :: ids, s => by
    rw [List.foldl_cons, foldl_removeTable ids]
    rfl

theorem receive_inv (h : s.receive = some s') :
    (∃ newMeta results staleWals nextWalToDel wals,
      s' = { s with
        results, staleWals, nextWalToDel, disk.wals := wals
        appliedFlushes := insert newMeta.id s.appliedFlushes
        engine.frozenMemtables := s.engine.frozenMemtables.remove newMeta.id
        engine.sstableMap := s.engine.sstableMap.upsert newMeta.id newMeta } ∧
      (jobs s).Perm (.result (.flush newMeta) :: jobs s') ∧
      Deletes (insert newMeta.id s.appliedFlushes) s.nextWalToDel nextWalToDel s.staleWals staleWals
        s.disk.wals wals) ∨
    ∃ newMeta ids results, s' = { s with
        results
        disk.ssts := ids.foldl OrdMap.remove s.disk.ssts
        engine.compacting := s.engine.compacting \ ids.toFinset
        engine.sstableMap :=
          (ids.foldl OrdMap.remove s.engine.sstableMap).upsert newMeta.id newMeta } ∧
      (jobs s).Perm (.result (.compaction newMeta ids) :: jobs s') := by
  have hjobs {r : IoResult c} {results : List (IoResult c)} (hr : s.results = r :: results) :
      (jobs s).Perm (.result r :: ((s.cmds ++ s.tasks).map .command ++ results.map .result)) := by
    rw [jobs, hr, List.map_cons]
    exact List.perm_middle
  rw [System.receive] at h
  split at h
  · cases h
  · rename_i newMeta results hresults
    cases h
    obtain ⟨stale, next, wals, heq, hrest⟩ := deleteStaleWals_eq
      (insert newMeta.id s.appliedFlushes).card { s with
        results
        engine.frozenMemtables := s.engine.frozenMemtables.remove newMeta.id
        appliedFlushes := insert newMeta.id s.appliedFlushes }
      (Finset.card_filter_le _ _)
    refine .inl ⟨newMeta, results, stale, next, wals, ?_, ?_, hrest⟩
    · simp only [System.applyFlushResult, heq]
    · simp only [System.applyFlushResult, heq]
      exact hjobs hresults
  · rename_i newMeta ids results hresults
    cases h
    refine .inr ⟨newMeta, ids, results, ?_, ?_⟩
    · simp only [System.applyCompactionResult, foldl_removeTable]
    · simp only [System.applyCompactionResult, foldl_removeTable]
      exact hjobs hresults

/-! ## All steps -/

/-- What a step that is no crash can do, and what becomes of the jobs. -/
inductive Effect (hp : RecordHeap) (s : System c) : Step → System c → Prop where
  | insertedOne {i : Insert} {e' : Engine c} (h : Inserted s.engine [i] e') :
    Effect hp s (.insert i) { s with engine := e' }
  | insertedMany {inserts : List Insert} {e' : Engine c} (h : Inserted s.engine inserts e') :
    Effect hp s (.batchInsert inserts) { s with engine := e' }
  | wroteWal (n : Nat) : Effect hp s (.writeWal n) (s.writeWal n)
  | noFlush (rotates : Bool) : Effect hp s (.sendFlush rotates) s
  | sentFlush (hne : s.engine.memtable.bset.elems ≠ []) :
    Effect hp s (.sendFlush true) (flushing s)
  | froze (hne : s.engine.memtable.bset.elems ≠ []) : Effect hp s (.sendFlush false) (freezing s)
  | noCompaction : Effect hp s .sendCompaction s
  | sentCompaction (n : Nat) (hlen : 2 ≤ (s.engine.getOldestMetas n).length) :
    Effect hp s .sendCompaction (compactingOldest n s)
  | resynced {cmds : List (IoCommand c)}
    (hjobs : jobs s = .command .resyncWal :: jobs { s with cmds }) :
    Effect hp s .dispatch { s with cmds }
  | dispatched {cmds tasks : List (IoCommand c)} (hjobs : (jobs s).Perm (jobs { s with cmds, tasks })) :
    Effect hp s .dispatch { s with cmds, tasks }
  | finished {i id : Nat} {task : IoCommand c} {file : List UInt8} {result : IoResult c}
    {tasks : List (IoCommand c)} {rest : List (Job c)}
    (hrun : System.runTask hp s.disk task = some (id, file, result))
    (hjobs : (jobs s).Perm (.command task :: rest))
    (hjobs' : (jobs { s with tasks, results := s.results ++ [result] }).Perm (.result result :: rest)) :
    Effect hp s (.finish i true) { s with
      tasks, disk.ssts := s.disk.ssts.upsert id file, results := s.results ++ [result] }
  | failed {i : Nat} {task : IoCommand c} {tasks : List (IoCommand c)} (htask : s.tasks[i]? = some task)
    (hjobs : (jobs s).Perm (.command task :: jobs { s with tasks })) :
    Effect hp s (.finish i false) { s with tasks }
  | flushed {newMeta : c.Meta} {results : List (IoResult c)} {staleWals : OrdMap Nat Nat}
    {nextWalToDel : Nat} {wals : OrdMap Nat (List Record)}
    (hjobs : (jobs s).Perm (.result (.flush newMeta) :: jobs { s with results }))
    (hdel : Deletes (insert newMeta.id s.appliedFlushes) s.nextWalToDel nextWalToDel s.staleWals
      staleWals s.disk.wals wals) :
    Effect hp s .receive { s with
      results, staleWals, nextWalToDel, disk.wals := wals
      appliedFlushes := insert newMeta.id s.appliedFlushes
      engine.frozenMemtables := s.engine.frozenMemtables.remove newMeta.id
      engine.sstableMap := s.engine.sstableMap.upsert newMeta.id newMeta }
  | compacted {newMeta : c.Meta} {ids : List Nat} {results : List (IoResult c)}
    (hjobs : (jobs s).Perm (.result (.compaction newMeta ids) :: jobs { s with results })) :
    Effect hp s .receive { s with
      results
      disk.ssts := ids.foldl OrdMap.remove s.disk.ssts
      engine.compacting := s.engine.compacting \ ids.toFinset
      engine.sstableMap :=
        (ids.foldl OrdMap.remove s.engine.sstableMap).upsert newMeta.id newMeta }

theorem exec_effect {step : Step} (hs : NoCrash step) (h : step.exec hp s = some s') :
    Effect hp s step s' := by
  cases step with
  | insert i =>
    obtain ⟨⟨full, e'⟩, hi, h⟩ := Option.bind_eq_some_iff.mp h
    cases h
    exact .insertedOne (insertRecord_inv hi)
  | batchInsert inserts =>
    obtain ⟨⟨full, e'⟩, hi, h⟩ := Option.bind_eq_some_iff.mp h
    cases h
    exact .insertedMany (batchInsertRecords_inv hi)
  | writeWal n =>
    cases h
    exact .wroteWal n
  | sendFlush rotates =>
    rcases sendFlush_cases h with ⟨-, rfl⟩ | ⟨hne, -, rfl⟩
    · exact .noFlush rotates
    · cases rotates with
      | true => exact .sentFlush hne
      | false => exact .froze hne
  | sendCompaction =>
    rcases sendCompaction_inv h with rfl | ⟨n, hlen, rfl⟩
    · exact .noCompaction
    · exact .sentCompaction n hlen
  | dispatch =>
    rcases dispatch_inv h with ⟨cmds, rfl, hjobs⟩ | ⟨cmds, tasks, rfl, hjobs⟩
    · exact .resynced hjobs
    · exact .dispatched hjobs
  | finish i succeeds =>
    cases succeeds with
    | true =>
      obtain ⟨task, id, file, result, rest, hrun, ⟨tasks, rfl⟩, hjobs, hjobs'⟩ := finish_inv h
      exact .finished hrun hjobs hjobs'
    | false =>
      obtain ⟨task, tasks, htask, rfl, hjobs⟩ := finish_fails_inv h
      exact .failed htask hjobs
  | receive =>
    rcases receive_inv h with ⟨newMeta, results, stale, next, wals, rfl, hjobs, hdel⟩ |
      ⟨newMeta, ids, results, rfl, hjobs⟩
    · exact .flushed hjobs hdel
    · exact .compacted hjobs
  | crash limit => cases hs

/-- What every step keeps, a run keeps, along with what its steps give. -/
theorem run_along {α : Type} {f : System c → Step → System c → List α} {P : Step → Prop}
    {I : List α → System c → Prop}
    (hexec : ∀ {l : List α} {s s' : System c} {step : Step}, I l s → P step →
      step.exec hp s = some s' → I (l ++ f s step s') s') :
    ∀ {steps : List Step} {l : List α} {s s' : System c}, I l s → (∀ step ∈ steps, P step) →
      Step.run hp s steps = some s' → I (l ++ along f hp s steps) s'
  | [], l, s, s', h, _, hrun => by
    cases hrun
    rw [along, List.append_nil]
    exact h
  | step :: steps, l, s, s', h, hs, hrun => by
    obtain ⟨hstep, hs⟩ := List.forall_mem_cons.mp hs
    obtain ⟨s₁, h₁, hrun⟩ := Option.bind_eq_some_iff.mp hrun
    rw [along, h₁, ← List.append_assoc]
    exact run_along hexec (hexec h hstep h₁) hs hrun

end LG.Proof.Core
