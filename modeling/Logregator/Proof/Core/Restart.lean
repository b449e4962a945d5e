import Logregator.Proof.Core.Recovery
import Logregator.Proof.Core.Scan
import Logregator.Proof.Core.Written

/-!
# Opening a directory that a run has left

The directory of a run opens again if its tables do (`openDir_ok`). The engine
then holds the records that were stored, and goes on with the number after
theirs (`Written.restart`).
-/

namespace LG.Proof.Core

open LG.Impl.Core LG.Spec.Core

variable {c : SSTableCode} {hp : RecordHeap} {s s' : System c} {log : List Insert}
  {stored : List Record} {disk : Disk}

/-! ## `Engine::open` succeeds -/

theorem mapM_eq_ok {α β ε : Type} {f : α → Outcome ε β} {R : α → β → Prop} :
    ∀ {l : List α}, (∀ a ∈ l, ∃ b, f a = .ok b ∧ R a b) →
      ∃ bs, l.mapM f = .ok bs ∧ List.Forall₂ R l bs
  | [], _ => ⟨[], rfl, .nil⟩
  | a :: l, h => by
    obtain ⟨⟨b, hb, hR⟩, hl⟩ := List.forall_mem_cons.mp h
    obtain ⟨bs, hbs, hR'⟩ := mapM_eq_ok hl
    rw [List.mapM_cons, hb, hbs]
    exact ⟨b :: bs, rfl, .cons hR hR'⟩

theorem insertRecovered_comparable : ∀ {rs : List Record} {m : MemTable} (full : Bool),
    (∀ q ∈ m.bset.elems, q.Comparable) → (∀ r ∈ rs, r.Comparable) →
    ∃ full' m', Engine.insertRecovered m full rs = some (full', m')
  | [], m, full, _, _ => ⟨full, m, rfl⟩
  | r :: rs, m, full, hm, hrs => by
    obtain ⟨hr, hrs⟩ := List.forall_mem_cons.mp hrs
    rw [Engine.insertRecovered, MemTable.insert, insert_comparable hm hr]
    refine insertRecovered_comparable _ (fun q hq => ?_) hrs
    rcases OrdSet.mem_insert hq with rfl | hq
    · exact hr
    · exact hm q hq

/-- The records of the WAL files, sorted. -/
def recoveredSet (disk : Disk) : RecordSet :=
  OrdSet.extend (.empty _) (disk.active ++ (disk.wals.elems.map Prod.snd).flatten)

theorem inWal_of_recovered {r : Record} (h : r ∈ (recoveredSet disk).elems) : InWal disk r := by
  have hr := (OrdSet.mem_extend h).resolve_left (by simp)
  rwa [← List.flatMap_def, List.mem_append, List.mem_flatMap] at hr

/-- The number that `Engine::open` goes on with. -/
def nextSeq (disk : Disk) (tables : List (Nat × c.Meta)) : Nat :=
  max (Engine.maxSeq (recoveredSet disk).elems) ((tables.map Prod.fst).foldl max 0) + 1

/-- The map of the tables that `Engine::open` finds. -/
def tableMap (tables : List (Nat × c.Meta)) : OrdMap Nat c.Meta :=
  tables.foldl (fun m table => m.upsert table.2.id table.2) (.empty _)

/-- `Engine::open` on a directory whose tables can be opened. -/
theorem openDir_ok {tables : List (Nat × c.Meta)} (hcomp : ∀ r, InWal disk r → r.Comparable)
    (htables : (disk.ssts.elems.mapM fun p => Engine.openTable c p.1 p.2) = .ok tables)
    (hsst : nextSstId disk < 2 ^ 64) (hseq : nextSeq disk tables < 2 ^ 64) (limit : Nat) :
    ∃ full m, Engine.openDir c disk limit = .ok ({
      walBuffer := [], memtable := m, frozenMemtables := .empty _
      sstableMap := tableMap tables, compacting := ∅, sstCounter := nextSstId disk
      seqCounter := nextSeq disk tables, memtableLimitBytes := limit }, full) := by
  have hrecovered : RecordSet.extend (.empty _)
      (disk.active ++ (disk.wals.elems.map Prod.snd).flatten) = some (recoveredSet disk) := by
    refine extend_comparable (by simp) fun r hr => hcomp r ?_
    rwa [← List.flatMap_def, List.mem_append, List.mem_flatMap] at hr
  obtain ⟨full, m, hm⟩ := insertRecovered_comparable (m := .new limit) false
    (fun q hq => by cases hq) fun r hr => hcomp r (inWal_of_recovered hr)
  refine ⟨full, m, ?_⟩
  rw [Engine.openDir, hrecovered]
  simp only [Outcome.expect, Outcome.bind_ok, hm, htables]
  rw [nextSstId] at hsst
  rw [nextSeq] at hseq
  rw [incU64, if_pos hsst, incU64, if_pos hseq]
  rfl

theorem mem_of_foldl_upsert {p : Nat × c.Meta} {tables : List (Nat × c.Meta)}
    {m : OrdMap Nat c.Meta}
    (h : p ∈ (tables.foldl (fun m table => m.upsert table.2.id table.2) m).elems) :
    p ∈ m.elems ∨ ∃ t ∈ tables, p = (t.2.id, t.2) := by
  induction tables generalizing m with
  | nil => exact .inl h
  | cons t tables ih =>
    rcases ih h with h | ⟨t', ht', h⟩
    · rcases OrdMap.mem_upsert h with rfl | h
      · exact .inr ⟨t, List.mem_cons_self, rfl⟩
      · exact .inl h
    · exact .inr ⟨t', List.mem_cons_of_mem _ ht', h⟩

theorem mem_foldl_upsert {p : Nat × c.Meta} {tables : List (Nat × c.Meta)} {m : OrdMap Nat c.Meta}
    (hnodup : (tables.map fun t => t.2.id).Nodup)
    (h : p ∈ m.elems ∧ p.1 ∉ tables.map (fun t => t.2.id) ∨ ∃ t ∈ tables, p = (t.2.id, t.2)) :
    p ∈ (tables.foldl (fun m table => m.upsert table.2.id table.2) m).elems := by
  induction tables generalizing m with
  | nil =>
    rcases h with h | ⟨t, ht, -⟩
    · exact h.1
    · cases ht
  | cons t tables ih =>
    rw [List.map_cons, List.nodup_cons] at hnodup
    refine ih hnodup.2 ?_
    rcases h with ⟨h, hnot⟩ | ⟨t', ht', rfl⟩
    · rw [List.map_cons, List.mem_cons, not_or] at hnot
      exact .inl ⟨OrdMap.mem_upsert_iff.mpr (.inr ⟨h, hnot.1⟩), hnot.2⟩
    · rcases List.mem_cons.mp ht' with rfl | ht'
      · exact .inl ⟨OrdMap.mem_upsert_iff.mpr (.inl rfl), hnodup.1⟩
      · exact .inr ⟨t', ht', rfl⟩

/-- The tables of the map, if their ids are apart. -/
theorem mem_tableMap {p : Nat × c.Meta} {tables : List (Nat × c.Meta)}
    (hnodup : (tables.map fun t => t.2.id).Nodup) :
    p ∈ (tableMap tables).elems ↔ ∃ t ∈ tables, p = (t.2.id, t.2) := by
  refine ⟨fun h => (mem_of_foldl_upsert h).resolve_left fun h => ?_,
    fun h => mem_foldl_upsert hnodup (.inr h)⟩
  cases h

/-! ## What a run has left -/

/-- What is opened for a file. -/
def Opened (s : System c) (p : Nat × List UInt8) (t : Nat × c.Meta) : Prop :=
  t.2.id = p.1 ∧ Finished s t.2 ∧ ∃ recs, IsTable c s.disk.ssts t.2 recs ∧ t.1 = Engine.maxSeq recs

namespace Written

theorem length_eq (h : Written log stored s) :
    log.length = stored.length + s.engine.walBuffer.length := by
  have hlen := congrArg List.length h.buffer
  rwa [numbered, List.length_map, List.length_zipIdx, List.length_append] at hlen

theorem stored_eq (h : Written log stored s) : stored = numbered 1 (log.take stored.length) := by
  have hlen : stored.length ≤ log.length := Nat.le.intro h.length_eq.symm
  have hsplit := h.buffer
  rw [← List.take_append_drop stored.length log, numbered_append] at hsplit
  refine (List.append_inj hsplit ?_).1.symm
  rw [numbered, List.length_map, List.length_zipIdx, List.length_take, min_eq_left hlen]

/-- The number of a stored record. -/
theorem seq_le (h : Written log stored s) {r : Record} (hr : r ∈ stored) :
    ∃ seq i, seq ≤ stored.length ∧ r = Engine.recordOf seq i := by
  rw [h.stored_eq] at hr
  obtain ⟨⟨i, seq⟩, hmem, rfl⟩ := List.mem_map.mp hr
  obtain ⟨-, hlt, -⟩ := List.mem_zipIdx hmem
  rw [List.length_take] at hlt
  exact ⟨seq, i, by omega, rfl⟩

/-- The last stored record has the greatest number. -/
theorem last_mem (h : Written log stored s) (hne : stored ≠ []) :
    ∃ i, Engine.recordOf stored.length i ∈ stored := by
  have heq := h.stored_eq
  generalize log.take stored.length = l at heq
  subst heq
  rcases List.eq_nil_or_concat l with rfl | ⟨l, i, rfl⟩
  · exact absurd rfl hne
  refine ⟨i, ?_⟩
  rw [List.concat_eq_append]
  have hlen : (numbered 1 (l ++ [i])).length = 1 + l.length := by
    rw [numbered, List.length_map, List.length_zipIdx, List.length_append, Nat.add_comm]
    rfl
  rw [hlen, numbered_append]
  exact List.mem_append_right _ List.mem_cons_self

/-- The tables of the directory open again. -/
theorem opened (hr : Reopens c) (h : Written log stored s) (hh : Holds log s) :
    ∃ tables, (s.disk.ssts.elems.mapM fun p => Engine.openTable c p.1 p.2) = .ok tables ∧
      List.Forall₂ (Opened s) s.disk.ssts.elems tables := by
  refine mapM_eq_ok fun p hp => ?_
  obtain ⟨table, ht, hid⟩ := h.files p hp
  obtain ⟨recs, hrecs⟩ := hh.isTable ht
  obtain ⟨hint, file, hmem, hw⟩ := hrecs.written
  rw [hid] at hmem
  obtain rfl : file = p.2 := OrdMap.value_inj hmem hp
  have hopen := hr table.id recs hint fun r hr => (hrecs.logged r hr).made
  rw [hw, hid] at hopen
  exact ⟨_, hopen, hid, ht, recs, hrecs, rfl⟩

/-- Stored records are known by their keys. -/
theorem inj (h : Written log stored s) (hh : Holds log s) {r r' : Record} (hr : r ∈ stored)
    (hr' : r' ∈ stored) (heq : r.orderKey = r'.orderKey) : r = r' :=
  List.inj_on_of_nodup_map hh.keys (h.buffer ▸ List.mem_append_left _ hr)
    (h.buffer ▸ List.mem_append_left _ hr') heq

theorem mem_recovered (h : Written log stored s) (hh : Holds log s) {r : Record}
    (hr : InWal s.disk r) : r ∈ (recoveredSet s.disk).elems := by
  have hfiles {r : Record} : r ∈ s.disk.active ++ (s.disk.wals.elems.map Prod.snd).flatten ↔
      InWal s.disk r := by
    rw [← List.flatMap_def, List.mem_append, List.mem_flatMap]
    rfl
  refine (OrdSet.mem_extend_iff fun a b ha hb heq => ?_).mpr (.inr (hfiles.mpr hr))
  exact h.inj hh (h.wals a (hfiles.mp (ha.resolve_left (by simp))))
    (h.wals b (hfiles.mp (hb.resolve_left (by simp)))) heq

/-- A finished table is among those that are opened. -/
theorem mem_opened (hl : Stores c) (hh : Holds log s) {tables : List (Nat × c.Meta)}
    (ht : List.Forall₂ (Opened s) s.disk.ssts.elems tables) {table : c.Meta} {recs : List Record}
    (hfin : Finished s table) (hrecs : IsTable c s.disk.ssts table recs) :
    (Engine.maxSeq recs, table) ∈ tables := by
  obtain ⟨hint, file, hmem, -⟩ := hrecs.written
  obtain ⟨⟨seq, t⟩, hmem', hid, hfin', recs', hrecs', hseq⟩ := exists_of_forall₂ ht.flip hmem
  obtain rfl : t = table := hh.finished_inj hfin' hfin hid
  rw [hrecs'.unique hl hrecs] at hseq
  obtain rfl : seq = Engine.maxSeq recs := hseq
  exact hmem'

/-- The engine goes on with the number after those of the stored records. -/
theorem nextSeq_eq (hl : Stores c) (h : Written log stored s) (hh : Holds log s)
    {tables : List (Nat × c.Meta)} (ht : List.Forall₂ (Opened s) s.disk.ssts.elems tables) :
    nextSeq s.disk tables = 1 + stored.length := by
  have hlen := h.length_eq
  have hseq := hh.seq
  have hlt : stored.length < 2 ^ 64 := by
    have := hh.seq_lt
    omega
  -- No number is greater than that of the last stored record.
  have hmax {recs : List Record} (hsub : recs ⊆ stored) : Engine.maxSeq recs ≤ stored.length := by
    rw [Engine.maxSeq]
    refine List.foldlRecOn (motive := (· ≤ stored.length)) recs _ (Nat.zero_le _) fun m hm r hr => ?_
    obtain ⟨seq, i, hle, rfl⟩ := h.seq_le (hsub hr)
    rw [Engine.recordOf, seqNum_parts]
    simp only [UInt64.toNat_ofNat', Nat.mod_eq_of_lt (hle.trans_lt hlt)]
    exact max_le hm hle
  rw [nextSeq, Nat.add_comm]
  congr 1
  refine le_antisymm (max_le ?_ ?_) ?_
  · exact hmax fun r hr => h.wals r (inWal_of_recovered hr)
  · refine List.foldlRecOn (motive := (· ≤ stored.length)) _ _ (Nat.zero_le _)
      fun m hm n hn => max_le hm ?_
    obtain ⟨t, hmem, rfl⟩ := List.mem_map.mp hn
    obtain ⟨p, -, -, hfin, recs, hrecs, hseq⟩ := exists_of_forall₂ ht hmem
    rw [hseq]
    exact hmax (h.tables _ recs hfin hrecs)
  · by_cases hnil : stored = []
    · rw [hnil]
      exact Nat.zero_le _
    · obtain ⟨i, hi⟩ := h.last_mem hnil
      rcases h.kept _ hi with hwal | ⟨table, recs, hfin, hrecs, hmem⟩
      · exact le_max_of_le_left (le_maxSeq (h.mem_recovered hh hwal) hlt)
      · refine le_max_of_le_right ((le_maxSeq hmem hlt).trans ?_)
        exact le_foldl le_max_left (fun m => le_max_right m _)
          (.inr (List.mem_map_of_mem (mem_opened hl hh ht hfin hrecs)))

/-- The tables' ids are those that the counter has given. -/
theorem nextSstId_le (h : Written log stored s) (hh : Holds log s) (hw : WalSafe log s) :
    nextSstId s.disk ≤ s.engine.sstCounter := by
  have hlt (p : Nat × List UInt8) (hp : p ∈ s.disk.ssts.elems) : p.1 < s.engine.sstCounter := by
    obtain ⟨table, ht, hid⟩ := h.files p hp
    rw [← hid]
    rcases ht with ht | ht | ⟨ids, ht⟩
    · exact (hh.tiers.tables _ ht).2.1
    · exact (hh.tiers.fresh _ (List.mem_flatMap.mpr ⟨_, ht, List.mem_cons_self⟩)).1
    · exact (hh.tiers.fresh _ (List.mem_flatMap.mpr ⟨_, ht, List.mem_cons_self⟩)).1
  have hpos : 0 < s.engine.sstCounter := hw.rotated_lt 0 (.inl hw.next_pos)
  refine List.foldlRecOn (motive := (· < s.engine.sstCounter)) _ _ hpos fun m hm n hn => ?_
  obtain ⟨p, hp, rfl⟩ := List.mem_map.mp hn
  exact max_lt hm (hlt p hp)

/-- The tiers of the engine that is opened hold the stored records. -/
theorem opened_tiers (hl : Stores c) (h : Written log stored s) (hh : Holds log s)
    {tables : List (Nat × c.Meta)} (ht : List.Forall₂ (Opened s) s.disk.ssts.elems tables)
    {e : Engine c} (hmem : ∀ r, r ∈ e.memtable.bset.elems ↔ InWal s.disk r)
    (hfrozen : e.frozenMemtables = .empty _) (hmap : e.sstableMap = tableMap tables)
    (hcounter : e.sstCounter = nextSstId s.disk) : TiersHold stored e s.disk.ssts [] := by
  have hnodup : (tables.map fun t => t.2.id).Nodup := by
    have hids : s.disk.ssts.elems.map Prod.fst = tables.map fun t => t.2.id := by
      rw [← List.forall₂_eq_eq_eq, List.forall₂_map_left_iff, List.forall₂_map_right_iff]
      exact ht.imp fun p t h => h.1.symm
    rw [← hids]
    exact s.disk.ssts.nodup_keys
  have hinMem {r : Record} : InMem e r ↔ InWal s.disk r := by
    rw [InMem, hfrozen, hmem]
    simp
  refine ⟨fun r hr => h.wals r (hinMem.mp hr), fun p hp => ?_, fun r hr => ?_, fun p hp => ?_,
    by simp, .nil, by simp, .nil, by simp⟩
  · rw [hmap, mem_tableMap hnodup] at hp
    obtain ⟨t, hmem, rfl⟩ := hp
    obtain ⟨p, hp, hid, hfin, recs, hrecs, -⟩ := exists_of_forall₂ ht hmem
    refine ⟨rfl, ?_, recs, hrecs, h.tables _ recs hfin hrecs⟩
    rw [hcounter, hid]
    exact lt_nextSstId hp
  · rcases h.kept r hr with hr | ⟨table, recs, hfin, hrecs, hr⟩
    · exact .inl (hinMem.mpr hr)
    · refine .inr ⟨(table.id, table), ?_, recs, hrecs, hr⟩
      rw [hmap, mem_tableMap hnodup]
      exact ⟨_, mem_opened hl hh ht hfin hrecs, rfl⟩
  · rw [hfrozen] at hp
    cases hp

/-- After a crash, `Engine::open` succeeds, and the engine holds the stored
records. -/
theorem openDir_holds (hl : Stores c) (hr : Reopens c) (h : Written log stored s)
    (hh : Holds log s) (hw : WalSafe log s) (hids : s.engine.sstCounter < 2 ^ 64)
    (limit count : Nat) :
    ∃ e full, Engine.openDir c s.disk limit = .ok (e, full) ∧ e.sstCounter = nextSstId s.disk ∧
      Holds (log.take stored.length) (System.start e count s.disk) := by
  obtain ⟨tables, htables, hopened⟩ := h.opened hr hh
  have hseq := h.nextSeq_eq hl hh hopened
  have hlen := h.length_eq
  have hlt : 1 + stored.length < 2 ^ 64 := by
    have := hh.seq_lt
    rw [hh.seq] at this
    omega
  have hlogged {r : Record} (hr : r ∈ stored) : Logged r :=
    logged_numbered (h.buffer ▸ List.mem_append_left _ hr)
  obtain ⟨full, m, hopen⟩ := openDir_ok (fun r hr => (hlogged (h.wals r hr)).comparable) htables
    ((h.nextSstId_le hh hw).trans_lt hids) (hseq ▸ hlt) limit
  obtain ⟨hmem, -⟩ := openDir_recovers hopen fun r r' hr hr' =>
    h.inj hh (h.wals r hr) (h.wals r' hr')
  refine ⟨_, full, hopen, rfl, ⟨?_, ?_, ?_⟩⟩
  · rw [← h.stored_eq]
    exact h.opened_tiers hl hh hopened hmem rfl rfl rfl
  · show nextSeq s.disk tables = _
    rw [hseq, List.length_take, min_eq_left (by omega)]
  · show nextSeq s.disk tables < _
    rw [hseq]
    exact hlt

end Written

/-- A flush is sent while there are ids left. -/
theorem sendFlush_succeeds (rotates : Bool) (h : s.engine.sstCounter + 1 < 2 ^ 64) :
    ∃ s', s.sendFlushCmd rotates = some s' := by
  have hinc : incU64 s.engine.sstCounter = some (s.engine.sstCounter + 1) := if_pos h
  rw [System.sendFlushCmd, Engine.prepareFlush, hinc]
  split
  · exact ⟨_, rfl⟩
  · cases rotates with
    | true => exact ⟨_, rfl⟩
    | false => exact ⟨_, rfl⟩

theorem Holds.sentFlush (h : Holds log s) (hf : s.sendFlushCmd true = some s') : Holds log s' := by
  rcases sendFlush_inv hf with ⟨-, rfl⟩ | ⟨-, -, rfl⟩
  · exact h
  · refine ⟨(h.tiers.freeze rfl).perm ?_, h.seq, h.seq_lt⟩
    exact (jobs_sent s (flushing s) rfl rfl rfl).symm

/-- A crash: the system that starts again holds the stored records. -/
theorem Written.restart (hl : Stores c) (hr : Reopens c) (h : Written log stored s)
    (hh : Holds log s) (hw : WalSafe log s) (hids : s.engine.sstCounter + 1 < 2 ^ 64)
    (limit : Nat) : ∃ s', s.restart limit = some s' ∧ Holds (log.take stored.length) s' := by
  obtain ⟨e, full, hopen, hcounter, hholds⟩ :=
    h.openDir_holds hl hr hh hw (Nat.lt_of_succ_lt hids) limit s.maxSstableCount
  have hle := h.nextSstId_le hh hw
  obtain ⟨s', hflush⟩ := sendFlush_succeeds (s := System.start e s.maxSstableCount s.disk) true
    (show e.sstCounter + 1 < 2 ^ 64 by omega)
  refine ⟨s', ?_, hholds.sentFlush hflush⟩
  rw [System.restart, hopen]
  exact hflush

/-! ## Tables that open again -/

/-- The number of records that `Engine::open` counts. -/
def counted (recs : List Record) : Nat :=
  (recs.filter fun r => r.extractSeqNum.toOption.isSome).length

theorem counted_made {recs : List Record} (h : ∀ r ∈ recs, Made r) : counted recs = recs.length := by
  rw [counted, List.filter_eq_self.mpr fun r hr => ?_]
  obtain ⟨s, ts, seq, k, v, rfl, -⟩ := h r hr
  rw [seqNum_parts]
  rfl

theorem foldl_max {α : Type} {f : Nat → α → Nat} {w : α → Nat} (h : ∀ m a, f m a = max m (w a))
    (m : Nat) (l : List α) : l.foldl f m = max m (l.foldl f 0) := by
  induction l generalizing m with
  | nil => exact (Nat.max_zero m).symm
  | cons a l ih =>
    rw [List.foldl_cons, List.foldl_cons, ih, ih (f 0 a), h, h 0 a, Nat.zero_max, Nat.max_assoc]

theorem maxSeq_append (as bs : List Record) :
    Engine.maxSeq (as ++ bs) = max (Engine.maxSeq as) (Engine.maxSeq bs) := by
  let w (r : Record) : Nat := (r.extractSeqNum.toOption.map UInt64.toNat).getD 0
  rw [Engine.maxSeq, List.foldl_append]
  refine foldl_max (w := w) (fun m r => ?_) _ bs
  show _ = max m ((r.extractSeqNum.toOption.map UInt64.toNat).getD 0)
  cases r.extractSeqNum with
  | ok seq => rfl
  | error e => exact (Nat.max_zero m).symm

theorem counted_append (as bs : List Record) : counted (as ++ bs) = counted as + counted bs := by
  rw [counted, List.filter_append, List.length_append]
  rfl

/-- A table whose file can be taken for records. -/
theorem openTable_eq (id : Nat) {file : List UInt8} {recs : List Record}
    (h : readFrames isizeMax file = .ok (recs.map Record.bytes)) :
    Engine.openTable c id file = (Outcome.ofExcept (c.readTail file)).map fun tail =>
      (Engine.maxSeq recs,
        { id, bloom := tail.2.2.1, bloomOffset := tail.2.2.2, index := tail.1
          indexOffset := tail.2.1, numRecords := counted recs, fileSize := file.length }) := by
  have hrecs : (recs.map Record.bytes).map Record.mk = recs := by
    rw [List.map_map]
    exact List.map_id _
  rw [Engine.openTable, h]
  show (do
    let tail ← Outcome.ofExcept (c.readTail file)
    return (Engine.maxSeq ((recs.map Record.bytes).map Record.mk), _)) = _
  rw [hrecs]
  cases c.readTail file with
  | error e => rfl
  | ok tail => rfl

/-- A footer of 16 bytes, framed as a record is. -/
def footer : Record := ⟨List.replicate 16 1⟩

/-- Tables with a footer in their last 16 bytes. -/
def footedCode : SSTableCode where
  Bloom := Unit
  Index := Unit
  contains _ _ _ := true
  binarySeek _ _ := 0
  writeToFile id recs _ :=
    let size := (walBytes recs).length
    (walBytes (recs ++ [footer]),
      { id, bloom := (), bloomOffset := size + 8, index := (), indexOffset := size
        numRecords := recs.length, fileSize := size + 24 })
  readTail file :=
    if file.drop (file.length - 16) = footer.bytes then
      .ok ((), file.length - 24, (), file.length - 16)
    else .error "no footer"

theorem lawful_footedCode : Lawful footedCode where
  id _ _ _ := rfl
  records _ recs _ := ⟨walBytes [footer], walBytes_append recs [footer], rfl⟩
  bloom _ _ _ _ _ _ _ _ _ _ := rfl
  seek _ recs _ _ _ _ _ _ := ⟨[], recs, rfl, by simp, rfl⟩

theorem length_footed (recs : List Record) :
    (walBytes (recs ++ [footer])).length = (walBytes recs).length + 24 := by
  rw [walBytes_append, List.length_append]
  rfl

theorem readTail_footed (recs : List Record) :
    footedCode.readTail (walBytes (recs ++ [footer])) =
      .ok ((), (walBytes recs).length, (), (walBytes recs).length + 8) := by
  have hdrop : (walBytes (recs ++ [footer])).drop ((walBytes recs).length + 8) = footer.bytes := by
    rw [walBytes_append, ← List.drop_drop, List.drop_left]
    rfl
  show (if _ then _ else _) = _
  rw [length_footed, show (walBytes recs).length + 24 - 16 = (walBytes recs).length + 8 by omega, hdrop]
  exact if_pos rfl

/-- They open again: the footer is too short to be counted as a record. -/
theorem reopens_footedCode : Reopens footedCode := by
  intro id recs hint hmade
  have hread : readFrames isizeMax (walBytes (recs ++ [footer])) =
      .ok ((recs ++ [footer]).map Record.bytes) := by
    refine readFrames_frames (List.forall_mem_map.mpr fun r hr => ?_)
    rcases List.mem_append.mp hr with hr | hr
    · exact (made_short (hmade r hr)).trans_lt longestRecord_lt
    · rw [List.mem_singleton.mp hr]
      decide
  show Engine.openTable footedCode id (walBytes (recs ++ [footer])) = _
  rw [openTable_eq id hread, readTail_footed, counted_append, counted_made hmade, maxSeq_append,
    length_footed]
  show Outcome.ok (max (Engine.maxSeq recs) 0, _) = _
  rw [Nat.max_zero]
  rfl

end LG.Proof.Core
