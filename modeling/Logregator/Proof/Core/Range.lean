import Logregator.Proof.Core.Filter

/-!
# `Engine::range` over the tiers

A range query on an engine whose tiers (`InTier`) hold the records of a log
yields those that the query asks for, whatever the tier they are in
(`range_exact`): the memtables' iterator and those of the tables select the
same records.
-/

namespace LG.Proof.Core

open LG.Impl.Core LG.Spec.Core

variable {c : SSTableCode} {ssts : OrdMap Nat (List UInt8)} {disk : Disk} {q : Query}

/-! ## Tables -/

/-- A record of an insert. -/
def Logged (r : Record) : Prop := ∃ seq i, r = Engine.recordOf seq i

theorem Logged.comparable {r : Record} (h : Logged r) : r.Comparable := by
  obtain ⟨seq, i, rfl⟩ := h
  exact comparable_recordOf seq i

theorem Logged.made {r : Record} (h : Logged r) : Made r := by
  obtain ⟨seq, i, rfl⟩ := h
  exact ⟨_, _, _, _, _, rfl, i.key_lt, i.value_lt⟩

/-- A record of strings that were read has room in an iterator's buffer. -/
theorem made_short {r : Record} (h : Made r) : r.len ≤ longestRecord := by
  obtain ⟨s, ts, seq, k, v, rfl, hk, hv⟩ := h
  rw [Record.len, length_parts, longestRecord, isizeMax]
  omega

theorem Logged.short {r : Record} (h : Logged r) : r.len ≤ longestRecord := made_short h.made

/-- The table's file is there, with the records of inserts. -/
structure IsTable (c : SSTableCode) (ssts : OrdMap Nat (List UInt8)) (table : c.Meta)
    (recs : List Record) : Prop where
  written : ∃ hint file, (table.id, file) ∈ ssts.elems ∧
    c.writeToFile table.id recs hint = (file, table)
  ascending : Ascending recs
  logged : ∀ r ∈ recs, Logged r

/-- Another file written. -/
theorem IsTable.upsert {table : c.Meta} {recs : List Record} (h : IsTable c ssts table recs)
    {id : Nat} (hne : table.id ≠ id) (file : List UInt8) :
    IsTable c (ssts.upsert id file) table recs := by
  obtain ⟨hint, own, hmem, hw⟩ := h.written
  exact ⟨⟨hint, own, OrdMap.mem_upsert_iff.mpr (.inr ⟨hmem, hne⟩), hw⟩, h.ascending, h.logged⟩

/-- Other files deleted. -/
theorem IsTable.remove {table : c.Meta} {recs : List Record} (h : IsTable c ssts table recs)
    {ids : List Nat} (hne : table.id ∉ ids) :
    IsTable c (ids.foldl OrdMap.remove ssts) table recs := by
  obtain ⟨hint, own, hmem, hw⟩ := h.written
  exact ⟨⟨hint, own, OrdMap.mem_foldl_remove.mpr ⟨hmem, hne⟩, hw⟩, h.ascending, h.logged⟩

/-- The bytes of a table's file. -/
theorem IsTable.bytes (hl : Stores c) {table : c.Meta} {recs : List Record}
    (h : IsTable c ssts table recs) : ∃ tail, ssts.lookup table.id = some (walBytes recs ++ tail) ∧
      table.indexOffset = (walBytes recs).length := by
  obtain ⟨hint, file, hfile, hw⟩ := h.written
  obtain ⟨tail, hbytes, hindex⟩ := hl.records table.id recs hint
  rw [hw] at hbytes hindex
  cases hbytes
  exact ⟨tail, OrdMap.lookup_eq_some.mpr hfile, hindex⟩

/-- The records of a table, from one of its records on. -/
theorem IsTable.reads (hl : Stores c) {table : c.Meta} {a bs : List Record}
    (h : IsTable c ssts table (a ++ bs)) :
    ∃ file, ssts.lookup table.id = some file ∧
      Reads file (walBytes a).length table.indexOffset bs := by
  obtain ⟨tail, hfile, hindex⟩ := h.bytes hl
  refine ⟨_, hfile, ?_, ?_, fun r hr => ?_⟩
  · rw [hindex, List.take_left' rfl, walBytes_append, List.drop_left' rfl]
  · rw [hindex, List.length_append]
    omega
  · exact (h.logged r (List.mem_append_right _ hr)).short.trans_lt longestRecord_lt

theorem before_lt {r : Record} {s ts : Int64} (h : Before r s ts) (k : List UInt8) :
    r.orderKey < (Record.fromRawParts s ts 0 k []).orderKey := by
  rw [orderKey_parts, Record.orderKey, Prod.Lex.toLex_lt_toLex]
  rcases Prod.Lex.toLex_lt_toLex.mp h with h | ⟨h₁, h₂⟩
  · exact .inl h
  · exact .inr ⟨h₁, Prod.Lex.toLex_lt_toLex.mpr (.inl h₂)⟩

/-- The filtered iterator of a table: it will give the records that the query
asks for. -/
theorem new_valid (hl : Lawful c) {table : c.Meta} {recs : List Record}
    (ht : IsTable c ssts table recs) (h₀ : 0 ≤ q.startTs) (h : q.startTs ≤ q.endTs) :
    ∃ it, SSTableIterFiltered.new c (ssts.lookup table.id) table q = .ok it ∧
      IterValid (.filtered it) ∧
      iterRest (.filtered it) = recs.filter (IntoIterFiltered.keeps q) := by
  obtain ⟨hint, written, -, hw⟩ := ht.written
  obtain ⟨as, bs, rfl, hbefore, hseek⟩ := hl.seek table.id recs hint ht.ascending
    (fun r hr => (ht.logged r hr).made) q.sourceId q.startTs q.key
  rw [hw] at hseek
  obtain ⟨file, hfile, hreads⟩ := ht.reads hl.toStores
  have hcomp (r : Record) (hr : r ∈ as ++ bs) := (ht.logged r hr).comparable
  have hasc : Ascending bs := List.Pairwise.sublist (List.sublist_append_right _ _) ht.ascending
  obtain ⟨it, hnew, hstands, hfinds⟩ := new_stands (hseek ▸ hreads) hasc
    (fun r hr => hcomp r (List.mem_append_right _ hr)) h₀ h
  -- No record before the one the index leads to is found.
  have has : as.filter (IntoIterFiltered.keeps q) = [] :=
    filter_keeps_below (fun r hr => before_lt (hbefore r hr) q.key) h₀ h
  refine ⟨it, hfile ▸ hnew, ⟨bs, hstands⟩, ?_⟩
  rw [iterRest, recordsFrom_eq hstands.reads, List.filter_append, has, List.nil_append]
  exact List.filter_congr fun r hr => hfinds r (hstands.comparable r hr)

/-- A table has one list of records. -/
theorem IsTable.unique (hl : Stores c) {table : c.Meta} {as bs : List Record}
    (ha : IsTable c ssts table as) (hb : IsTable c ssts table bs) : as = bs := by
  obtain ⟨file, hfile, hreads⟩ := IsTable.reads (a := []) hl ha
  obtain ⟨file', hfile', hreads'⟩ := IsTable.reads (a := []) hl hb
  cases hfile.symm.trans hfile'
  exact (recordsFrom_eq hreads).symm.trans (recordsFrom_eq hreads')

/-- The filter of a table with a record that the query asks for. -/
theorem contains_of_keeps (hl : Lawful c) {table : c.Meta} {recs : List Record}
    (ht : IsTable c ssts table recs) {r : Record} (hr : r ∈ recs)
    (hk : IntoIterFiltered.keeps q r = true) :
    c.contains table.bloom q.sourceId q.key = true := by
  obtain ⟨hint, file, -, hw⟩ := ht.written
  obtain ⟨seq, i, rfl⟩ := ht.logged r hr
  obtain ⟨hs, hkey, -⟩ := keeps_iff_wanted.mp hk
  have hbloom := hl.bloom table.id recs hint _ _ _ _ _ i.key_lt hr
  rw [hw] at hbloom
  rw [← hs, ← hkey]
  exact hbloom

/-- The iterators of the tables that a query opens: each is that of a table,
and every table with a record that the query asks for has one. -/
theorem sstableIters_spec (hl : Lawful c) (h₀ : 0 ≤ q.startTs) (h : q.startTs ≤ q.endTs) :
    ∀ {tables : List c.Meta}, (∀ t ∈ tables, ∃ recs, IsTable c disk.ssts t recs) →
    (∀ iter ∈ Engine.sstableIters disk q tables, IterValid iter ∧ ∃ t ∈ tables, ∃ recs,
      IsTable c disk.ssts t recs ∧ iterRest iter = recs.filter (IntoIterFiltered.keeps q)) ∧
    ∀ t ∈ tables, ∀ recs, IsTable c disk.ssts t recs → ∀ r ∈ recs, IntoIterFiltered.keeps q r = true →
      ∃ iter ∈ Engine.sstableIters disk q tables, r ∈ iterRest iter
  | [], _ => by simp [Engine.sstableIters]
  | t :: tables, ht => by
    obtain ⟨⟨recs, hrecs⟩, htables⟩ := List.forall_mem_cons.mp ht
    obtain ⟨hvalid, hall⟩ := sstableIters_spec hl h₀ h htables
    obtain ⟨it, hnew, hit, hrest⟩ := new_valid hl hrecs h₀ h
    rw [Engine.sstableIters, hnew]
    cases hc : c.contains t.bloom q.sourceId q.key with
    | false =>
      simp only [Bool.not_false, if_true]
      refine ⟨fun iter hiter => ?_, fun t' ht' recs' hrecs' r hr hk => ?_⟩
      · obtain ⟨hv, t', ht', hr⟩ := hvalid iter hiter
        exact ⟨hv, t', List.mem_cons_of_mem _ ht', hr⟩
      · rcases List.mem_cons.mp ht' with rfl | ht'
        · simp [contains_of_keeps hl hrecs' hr hk] at hc
        · exact hall t' ht' recs' hrecs' r hr hk
    | true =>
      simp only [Bool.not_true, Bool.false_eq_true, if_false]
      refine ⟨fun iter hiter => ?_, fun t' ht' recs' hrecs' r hr hk => ?_⟩
      · rcases List.mem_cons.mp hiter with rfl | hiter
        · exact ⟨hit, t, List.mem_cons_self, recs, hrecs, hrest⟩
        · obtain ⟨hv, t', ht', hr⟩ := hvalid iter hiter
          exact ⟨hv, t', List.mem_cons_of_mem _ ht', hr⟩
      · rcases List.mem_cons.mp ht' with rfl | ht'
        · refine ⟨.filtered it, List.mem_cons_self, ?_⟩
          rw [hrest, hrecs.unique hl.toStores hrecs', List.mem_filter]
          exact ⟨hr, hk⟩
        · obtain ⟨iter, hiter, hr⟩ := hall t' ht' recs' hrecs' r hr hk
          exact ⟨iter, List.mem_cons_of_mem _ hiter, hr⟩

/-! ## The memtables -/

/-- A record that the query keeps is in its range. -/
theorem mem_between_iff {set : RecordSet} {r : Record} (h₀ : 0 ≤ q.startTs)
    (h : q.startTs ≤ q.endTs) (hk : IntoIterFiltered.keeps q r = true) :
    r ∈ set.between (rangeStart q) (rangeEnd q) ↔ r ∈ set.elems := by
  rw [OrdSet.mem_between]
  exact ⟨And.left, fun hmem => ⟨hmem, between_of_keeps h₀ h hk⟩⟩

/-- The record is in a memtable. -/
def InMem (e : Engine c) (r : Record) : Prop :=
  r ∈ e.memtable.bset.elems ∨ ∃ p ∈ e.frozenMemtables.elems, r ∈ p.2.bset.elems

/-- What the ranges of all memtables have, one after the other. -/
def memRanges (e : Engine c) (q : Query) : List Record :=
  e.memtable.bset.between (rangeStart q) (rangeEnd q) ++
    (e.frozenMemtables.elems.map fun p => p.2.bset.between (rangeStart q) (rangeEnd q)).flatten

theorem inMem_of_mem_memRanges {e : Engine c} {r : Record} (hr : r ∈ memRanges e q) :
    InMem e r := by
  rcases List.mem_append.mp hr with hr | hr
  · exact .inl (OrdSet.mem_between.mp hr).1
  · obtain ⟨l, hl, hr⟩ := List.mem_flatten.mp hr
    obtain ⟨p, hp, rfl⟩ := List.mem_map.mp hl
    exact .inr ⟨p, hp, (OrdSet.mem_between.mp hr).1⟩

theorem mem_memRanges {e : Engine c} {r : Record} (h₀ : 0 ≤ q.startTs) (h : q.startTs ≤ q.endTs)
    (hr : InMem e r) (hk : IntoIterFiltered.keeps q r = true) : r ∈ memRanges e q := by
  rcases hr with hmem | ⟨p, hp, hmem⟩
  · exact List.mem_append_left _ ((mem_between_iff h₀ h hk).mpr hmem)
  · refine List.mem_append_right _ (List.mem_flatten.mpr ⟨_, List.mem_map_of_mem hp, ?_⟩)
    exact (mem_between_iff h₀ h hk).mpr hmem

/-- Without frozen memtables the iterator goes over the range of the own one;
otherwise the records of all ranges go through one set. -/
theorem memRecords_eq {e : Engine c} (hlog : ∀ r, InMem e r → Logged r) (h₀ : 0 ≤ q.startTs)
    (h : q.startTs ≤ q.endTs) : e.memRecords q = some (
      if e.frozenMemtables.elems = [] then e.memtable.bset.between (rangeStart q) (rangeEnd q)
      else (OrdSet.extend (.empty Record.orderKey) (memRanges e q)).elems) := by
  have hown := cloneRange_eq (m := e.memtable) (fun r hr => (hlog r (.inl hr)).comparable) h₀ h
  have hfrozen : (e.frozenMemtables.elems.mapM fun p =>
      p.2.cloneRange q.sourceId q.startTs q.endTs) =
      some (e.frozenMemtables.elems.map fun p => p.2.bset.between (rangeStart q) (rangeEnd q)) :=
    mapM_eq_some fun p hp =>
      cloneRange_eq (fun r hr => (hlog r (.inr ⟨p, hp, hr⟩)).comparable) h₀ h
  have hext : RecordSet.extend (.empty _) (memRanges e q) =
      some (OrdSet.extend (.empty _) (memRanges e q)) :=
    extend_comparable (by simp) fun r hr => (hlog r (inMem_of_mem_memRanges hr)).comparable
  rw [memRanges] at hext ⊢
  by_cases hempty : e.frozenMemtables.elems = []
  · simp only [Engine.memRecords, hown, hempty]
    rfl
  · simp only [Engine.memRecords, hown, hfrozen, List.isEmpty_iff, hempty, if_false,
      Option.bind_eq_bind, Option.bind_some, hext]
    rfl

/-- What the memtables' iterator goes over: in order, and with all records
that the query asks for. -/
theorem memRecords_spec {e : Engine c} (hlog : ∀ r, InMem e r → Logged r)
    (hinj : ∀ r r', InMem e r → InMem e r' → r.orderKey = r'.orderKey → r = r')
    (h₀ : 0 ≤ q.startTs) (h : q.startTs ≤ q.endTs) :
    ∃ recs, e.memRecords q = some recs ∧ Ascending recs ∧ (∀ r ∈ recs, InMem e r) ∧
      ∀ r, InMem e r → IntoIterFiltered.keeps q r = true → r ∈ recs := by
  refine ⟨_, memRecords_eq hlog h₀ h, ?_⟩
  split
  · rename_i hempty
    refine ⟨e.memtable.bset.ascending_between _ _, fun r hr => .inl (OrdSet.mem_between.mp hr).1,
      fun r hr hk => (mem_between_iff h₀ h hk).mpr (hr.resolve_right ?_)⟩
    rintro ⟨p, hp, -⟩
    simp [hempty] at hp
  · have hsub {r : Record}
        (hr : r ∈ (OrdSet.extend (.empty Record.orderKey) (memRanges e q)).elems) : InMem e r :=
      inMem_of_mem_memRanges ((OrdSet.mem_extend hr).resolve_left (by simp))
    refine ⟨OrdSet.ascending _, fun r hr => hsub hr, fun r hr hk => ?_⟩
    obtain ⟨r', hr', hkey⟩ := OrdSet.key_mem_extend (s := .empty Record.orderKey) |>.mpr
      (.inr ⟨r, mem_memRanges h₀ h hr hk, rfl⟩)
    exact hinj r' r (hsub hr') hr hkey ▸ hr'

/-! ## All tiers -/

/-- The record is in a table of the engine. -/
def InTables (e : Engine c) (ssts : OrdMap Nat (List UInt8)) (r : Record) : Prop :=
  ∃ p ∈ e.sstableMap.elems, ∃ recs, IsTable c ssts p.2 recs ∧ r ∈ recs

/-- The record is in a tier. -/
def InTier (e : Engine c) (ssts : OrdMap Nat (List UInt8)) (r : Record) : Prop :=
  InMem e r ∨ InTables e ssts r

theorem logged_of_inTier {e : Engine c} (hmem : ∀ r, InMem e r → Logged r) {r : Record}
    (hr : InTier e ssts r) : Logged r := by
  rcases hr with hr | ⟨p, -, recs, hrecs, hr⟩
  · exact hmem r hr
  · exact hrecs.logged r hr

/-- A query on tiers that hold records with different keys: it yields those
that it asks for, each once, in order. -/
theorem range_keeps (hl : Lawful c) (hp : RecordHeap) {e : Engine c}
    (hmem : ∀ r, InMem e r → Logged r)
    (htables : ∀ p ∈ e.sstableMap.elems, ∃ recs, IsTable c disk.ssts p.2 recs)
    (hinj : ∀ r r', InTier e disk.ssts r → InTier e disk.ssts r' → r.orderKey = r'.orderKey → r = r')
    (h₀ : 0 ≤ q.startTs) (h : q.startTs ≤ q.endTs) :
    ∃ m, e.range hp disk q = .ok m ∧ ∃ out, Drains MergeIter.next m out ∧ Ascending out ∧
      ∀ r, r ∈ out ↔ InTier e disk.ssts r ∧ IntoIterFiltered.keeps q r = true := by
  obtain ⟨recs, hrecs, hasc, hsub, hall⟩ := memRecords_spec hmem
    (fun r r' hr hr' => hinj r r' (.inl hr) (.inl hr')) h₀ h
  have htables : ∀ t ∈ e.sstableMap.elems.map Prod.snd, ∃ recs, IsTable c disk.ssts t recs :=
    List.forall_mem_map.mpr htables
  obtain ⟨hiters, hfound⟩ := sstableIters_spec hl h₀ h htables
  let s : Sources := ⟨some ⟨recs, q⟩, Engine.sstableIters disk q (e.sstableMap.elems.map Prod.snd)⟩
  have hv : SourcesValid true s.sstables.length s := ⟨rfl, rfl, fun iter hi => (hiters iter hi).1⟩
  -- Each source filters records of a tier that are in order.
  have hsource (i : Nat) : ∃ l, Ascending l ∧ (∀ r ∈ l, InTier e disk.ssts r) ∧
      sourceRest s i = l.filter (IntoIterFiltered.keeps q) := by
    cases i with
    | zero => exact ⟨recs, hasc, fun r hr => .inl (hsub r hr), rfl⟩
    | succ n =>
      rcases sourceRest_succ s n with hnil | ⟨iter, hiter, heq⟩
      · exact ⟨[], .nil, by simp, hnil⟩
      · obtain ⟨-, t, ht, l, hl, hrest⟩ := hiters iter hiter
        obtain ⟨p, hp, rfl⟩ := List.mem_map.mp ht
        exact ⟨l, hl.ascending, fun r hr => .inr ⟨p, hp, l, hl, hr⟩, heq.trans hrest⟩
  have hrest {i : Nat} {r : Record} (hr : r ∈ sourceRest s i) :
      InTier e disk.ssts r ∧ IntoIterFiltered.keeps q r = true := by
    obtain ⟨l, -, htier, heq⟩ := hsource i
    obtain ⟨hr, hk⟩ := List.mem_filter.mp (heq ▸ hr)
    exact ⟨htier r hr, hk⟩
  obtain ⟨m, hnew, out, hd, hout, hfrom, hkeys, -⟩ := drains_mergeIter hp hv (fun i _ => by
      obtain ⟨l, hl, -, heq⟩ := hsource i
      rw [heq]
      exact List.Pairwise.sublist List.filter_sublist hl)
    fun i _ r hr => (logged_of_inTier hmem (hrest hr).1).comparable
  refine ⟨m, ?_, out, hd, hout, fun r => ⟨fun hr => ?_, fun ⟨hr, hk⟩ => ?_⟩⟩
  · rw [Engine.range, if_neg (Int64.not_lt.mpr h), if_neg (Int64.not_lt.mpr h₀), hrecs]
    exact congrArg Outcome.expect hnew
  · obtain ⟨i, -, hr⟩ := hfrom r hr
    exact hrest hr
  · obtain ⟨i, hi, hri⟩ : ∃ i ∈ sourcesOf true s.sstables.length, r ∈ sourceRest s i := by
      rcases hr with hr | ⟨p, hp, l, hl, hr⟩
      · exact ⟨0, by simp [sourcesOf], List.mem_filter.mpr ⟨hall r hr hk, hk⟩⟩
      · obtain ⟨iter, hiter, hr⟩ := hfound p.2 (List.mem_map_of_mem hp) l hl r hr hk
        obtain ⟨i, hi, heq⟩ := exists_source (s := s) hiter true
        exact ⟨i, hi, heq ▸ hr⟩
    obtain ⟨r', hr', hkey⟩ := hkeys i hi r hri
    obtain ⟨j, -, hrj⟩ := hfrom r' hr'
    exact hinj r' r (hrest hrj).1 hr hkey ▸ hr'

/-- A query on tiers that hold the records of a log. -/
theorem range_exact (hl : Lawful c) (hp : RecordHeap) {e : Engine c} {log : List (Insert × Nat)}
    (htables : ∀ p ∈ e.sstableMap.elems, ∃ recs, IsTable c disk.ssts p.2 recs)
    (htier : ∀ r, InTier e disk.ssts r ↔ r ∈ log.map recordAt)
    (hkeys : (log.map fun p => (recordAt p).orderKey).Nodup) (h₀ : 0 ≤ q.startTs)
    (h : q.startTs ≤ q.endTs) :
    ∃ m, e.range hp disk q = .ok m ∧ ∃ out, Drains MergeIter.next m out ∧ Ascending out ∧
      out.Perm ((log.filter fun p => Wanted q p.1).map recordAt) := by
  have hnodup : ((log.map recordAt).map Record.orderKey).Nodup := by
    rw [List.map_map]
    exact hkeys
  obtain ⟨m, hm, out, hd, hasc, hout⟩ := range_keeps hl hp
    (fun r hr => by
      obtain ⟨p, -, rfl⟩ := List.mem_map.mp ((htier r).mp (.inl hr))
      exact ⟨_, _, rfl⟩) htables
    (fun r r' hr hr' => List.inj_on_of_nodup_map hnodup ((htier r).mp hr) ((htier r').mp hr')) h₀ h
  refine ⟨m, hm, out, hd, hasc, (List.perm_ext_iff_of_nodup ?_ ?_).mpr fun r => ?_⟩
  · exact List.Pairwise.imp (fun hlt => ne_of_apply_ne _ hlt.ne) hasc
  · exact hnodup.of_map.sublist (List.filter_sublist.map _)
  · rw [hout, htier]
    constructor
    · intro ⟨hr, hk⟩
      obtain ⟨p, hp, rfl⟩ := List.mem_map.mp hr
      have hw : Wanted q p.1 := keeps_iff_wanted.mp hk
      exact List.mem_map_of_mem (List.mem_filter.mpr ⟨hp, by simpa using hw⟩)
    · intro hr
      obtain ⟨p, hp, rfl⟩ := List.mem_map.mp hr
      obtain ⟨hp, hw⟩ := List.mem_filter.mp hp
      exact ⟨List.mem_map_of_mem hp, keeps_iff_wanted.mpr (by simpa using hw)⟩

end LG.Proof.Core
