import Logregator.Proof.Core.Dedup
import Logregator.Proof.Core.Query

/-!
# The filter on disk and the filter in memory

A table's iterator goes by the order of the records' bytes and ends early, the
memtable's by their fields. On records with whatever bytes they select the same
(`keeps_iff_inside`), as a record whose fields can be read is ordered as the
record of these fields is (`exists_recordOf`).
-/

namespace LG.Proof.Core

open LG.Impl.Core LG.Spec.Core

variable {c : SSTableCode} {q : Query}

/-! ## Fields and order -/

theorem u32At_lt (bs : List UInt8) (i : Nat) : u32At bs i < 2 ^ 32 := by
  have hlen := List.length_take_le 4 (bs.drop i)
  calc ofBe ((bs.drop i).take 4) < 256 ^ ((bs.drop i).take 4).length := ofBe_lt _
    _ ≤ 256 ^ 4 := Nat.pow_le_pow_right (by decide) hlen
    _ = 2 ^ 32 := by decide

/-- The fields of a record are those that it is compared by. -/
theorem identity_of_fields {r : Record} {f : Record.Fields} (h : r.extractAllFieldsRef = .ok f) :
    r.Comparable ∧ identity r = (f.sourceId, f.timestamp, f.seqNum, f.key) ∧
      f.key.length < 2 ^ 32 ∧ f.value.length < 2 ^ 32 := by
  unfold Record.extractAllFieldsRef at h
  simp only at h
  split_ifs at h with h24 h28 hkey hvalueLen hvalue
  cases h
  have hextract : r.extractKey = .ok ((r.bytes.drop 28).take (u32At r.bytes 24)) := by
    rw [Record.extractKey, if_neg h28, if_neg hkey]
  refine ⟨?_, ?_, ?_, ?_⟩
  · rw [Record.Comparable, hextract]
    rfl
  · rw [identity, hextract]
    rfl
  · exact lt_of_le_of_lt (List.length_take_le _ _) (u32At_lt _ _)
  · exact lt_of_le_of_lt (List.length_take_le _ _) (u32At_lt _ _)

/-- A record whose fields can be read is ordered as the record of these
fields. -/
theorem exists_recordOf {r : Record} {f : Record.Fields} (h : r.extractAllFieldsRef = .ok f) :
    ∃ seq i, (Engine.recordOf seq i).extractAllFieldsRef = r.extractAllFieldsRef ∧
      (Engine.recordOf seq i).orderKey = r.orderKey := by
  obtain ⟨hr, hid, hk, hv⟩ := identity_of_fields h
  have hfields := fields_recordOf f.seqNum.toNat ⟨f.sourceId, f.timestamp, f.key, f.value, hk, hv⟩
  rw [UInt64.ofNat_toNat] at hfields
  obtain ⟨hr', hid', -⟩ := identity_of_fields hfields
  refine ⟨f.seqNum.toNat, _, hfields.trans h.symm, ?_⟩
  rw [← identity_eq_iff hr' hr, hid, hid']

/-- What the memtable's iterator checks of any record, by its order. -/
theorem keeps_iff_inside (h₀ : 0 ≤ q.startTs) (h : q.startTs ≤ q.endTs) {r : Record} :
    IntoIterFiltered.keeps q r = true ↔
      (Record.fromRawParts q.sourceId q.startTs 0 q.key []).orderKey ≤ r.orderKey ∧
        r.orderKey < (Record.fromRawParts q.sourceId q.endTs 0 q.key []).orderKey ∧
        wants q r = true := by
  cases hf : r.extractAllFieldsRef with
  | error e => simp [wants, IntoIterFiltered.keeps, hf]
  | ok f =>
    obtain ⟨seq, i, hfields, hkey⟩ := exists_recordOf hf
    have hkeeps : IntoIterFiltered.keeps q (Engine.recordOf seq i) = true ↔ Wanted q i :=
      keeps_iff_wanted
    rw [← inside_wants_iff seq h₀ h] at hkeeps
    simpa only [wants, IntoIterFiltered.keeps, hfields, hkey] using hkeeps

/-- A record that the query keeps is in the range that is cloned for it. -/
theorem between_of_keeps (h₀ : 0 ≤ q.startTs) (h : q.startTs ≤ q.endTs) {r : Record}
    (hk : IntoIterFiltered.keeps q r = true) :
    (Record.fromRawParts q.sourceId q.startTs 0 [] []).orderKey ≤ r.orderKey ∧
      r.orderKey < (Record.fromRawParts q.sourceId q.endTs 0 [] []).orderKey := by
  cases hf : r.extractAllFieldsRef with
  | error e => simp [IntoIterFiltered.keeps, hf] at hk
  | ok f =>
    obtain ⟨seq, i, hfields, hkey⟩ := exists_recordOf hf
    have hk' : IntoIterFiltered.keeps q (Engine.recordOf seq i) = true := by
      rw [← hk, IntoIterFiltered.keeps, IntoIterFiltered.keeps, hfields]
    rw [← hkey]
    exact between_of_wanted seq h₀ h (keeps_iff_wanted.mp hk')

/-! ## Tables -/

/-- The iterator of a table that has records from where the index leads to. -/
theorem new_stands {file : List UInt8} {table : c.Meta} {recs : List Record}
    (hreads : Reads file (c.binarySeek table.index (.fromRawParts q.sourceId q.startTs 0 q.key []))
      table.indexOffset recs)
    (hasc : Ascending recs) (hcomp : ∀ r ∈ recs, r.Comparable) (h₀ : 0 ≤ q.startTs)
    (h : q.startTs ≤ q.endTs) :
    ∃ it, SSTableIterFiltered.new c (some file) table q = .ok it ∧ Stands it recs ∧
      ∀ r, r.Comparable → finds it r = IntoIterFiltered.keeps q r := by
  obtain ⟨it, hnew, hq, hs, he, hpos⟩ : ∃ it,
      SSTableIterFiltered.new c (some file) table q = .ok it ∧ it.query = q ∧
      it.start = .fromRawParts q.sourceId q.startTs 0 q.key [] ∧
      it.stop = .fromRawParts q.sourceId q.endTs 0 q.key [] ∧
      Reads it.file it.pos it.endPos recs := by
    rw [SSTableIterFiltered.new, if_neg (Int64.not_lt.mpr h), if_neg (Int64.not_lt.mpr h₀)]
    exact ⟨_, rfl, rfl, rfl, rfl, hreads⟩
  have hstart : it.start.Comparable := hs ▸ comparable_parts _ _ _ _ _
  have hstop : it.stop.Comparable := he ▸ comparable_parts _ _ _ _ _
  refine ⟨it, hnew, ⟨hpos, hasc, hcomp, hstart, hstop⟩, fun r hr => ?_⟩
  rw [Bool.eq_iff_iff, finds_iff hr hstart hstop, keeps_iff_inside h₀ h, hs, he, hq]

/-- Records below the start of a filtered iterator are not kept. -/
theorem filter_keeps_below {recs : List Record}
    (hbelow : ∀ r ∈ recs,
      r.orderKey < (Record.fromRawParts q.sourceId q.startTs 0 q.key []).orderKey)
    (h₀ : 0 ≤ q.startTs) (h : q.startTs ≤ q.endTs) :
    recs.filter (IntoIterFiltered.keeps q) = [] := by
  refine List.filter_eq_nil_iff.mpr fun r hr => ?_
  rw [keeps_iff_inside h₀ h]
  exact fun hk => absurd hk.1 (not_le.mpr (hbelow r hr))

theorem drains_filtered {it : SSTableIterFiltered} {recs : List Record} (h : Stands it recs) :
    Drains SSTableIterFiltered.next it (recs.filter (finds it)) := by
  generalize hout : recs.filter (finds it) = out
  induction out generalizing it recs with
  | nil =>
    have hlen := h.reads.length_le
    obtain ⟨p, recs', hnext, -, -⟩ := nextLoop_stands h (n := it.file.length + 1) (by omega)
    rw [hout] at hnext
    exact .done hnext
  | cons r out ih =>
    have hlen := h.reads.length_le
    obtain ⟨p, recs', hnext, hs, htail⟩ := nextLoop_stands h (n := it.file.length + 1) (by omega)
    rw [hout] at hnext htail
    exact .step hnext (ih hs htail)

/-! ## Memtables -/

/-- The bounds of `clone_range`. -/
abbrev rangeStart (q : Query) : Bound Record.OrderKey :=
  .included (Record.fromRawParts q.sourceId q.startTs 0 [] []).orderKey

abbrev rangeEnd (q : Query) : Bound Record.OrderKey :=
  .excluded (Record.fromRawParts q.sourceId q.endTs 0 [] []).orderKey

theorem range_not_inverted (h₀ : 0 ≤ q.startTs) (h : q.startTs ≤ q.endTs) :
    (rangeStart q).inverted (rangeEnd q) = false := by
  let last : Insert := ⟨q.sourceId, q.endTs, [], [], by decide, by decide⟩
  refine decide_eq_false fun hlt => ?_
  have hlt : (Engine.recordOf 0 last).orderKey < _ := hlt
  rcases lt_bound_iff.mp hlt with hs | ⟨-, ht | ⟨-, hn | ⟨-, hk⟩⟩⟩
  · exact absurd hs (lt_irrefl _)
  · exact absurd ht (not_lt.mpr (rank_le h₀ h))
  · exact absurd hn (by decide)
  · exact absurd hk (List.not_lt_nil _)

theorem cloneRange_eq {m : MemTable} (hc : ∀ r ∈ m.bset.elems, r.Comparable) (h₀ : 0 ≤ q.startTs)
    (h : q.startTs ≤ q.endTs) :
    m.cloneRange q.sourceId q.startTs q.endTs =
      some (m.bset.between (rangeStart q) (rangeEnd q)) := by
  rw [MemTable.cloneRange, RecordSet.range, if_pos hc, OrdSet.range]
  exact if_neg (by rw [range_not_inverted h₀ h]; decide)

/-- Nothing that the query keeps is lost by cloning its range. -/
theorem filter_cloneRange {m : MemTable} (hc : ∀ r ∈ m.bset.elems, r.Comparable)
    (h₀ : 0 ≤ q.startTs) (h : q.startTs ≤ q.endTs) :
    ∃ range, m.cloneRange q.sourceId q.startTs q.endTs = some range ∧
      range.filter (IntoIterFiltered.keeps q) =
        m.bset.elems.filter (IntoIterFiltered.keeps q) := by
  refine ⟨_, cloneRange_eq hc h₀ h, ?_⟩
  rw [OrdSet.between, List.filter_filter]
  refine List.filter_congr fun r _ => ?_
  cases hk : IntoIterFiltered.keeps q r with
  | false => rfl
  | true =>
    obtain ⟨hlo, hhi⟩ := between_of_keeps h₀ h hk
    simp [Bound.startOk, Bound.endOk, hlo, hhi]

theorem drains_intoIter (q : Query) (recs : List Record) :
    Drains (fun it : IntoIterFiltered => some it.next) { inner := recs, query := q }
      (recs.filter (IntoIterFiltered.keeps q)) := by
  generalize hout : recs.filter (IntoIterFiltered.keeps q) = out
  induction out generalizing recs with
  | nil =>
    obtain ⟨rest, hin, -, -⟩ := nextIn_eq q recs
    have hnext : IntoIterFiltered.next { inner := recs, query := q } =
        (none, { inner := rest, query := q }) := by
      rw [IntoIterFiltered.next, hin, hout]
      rfl
    exact .done (congrArg some hnext)
  | cons r out ih =>
    obtain ⟨rest, hin, htail, -⟩ := nextIn_eq q recs
    have hnext : IntoIterFiltered.next { inner := recs, query := q } =
        (some r, { inner := rest, query := q }) := by
      rw [IntoIterFiltered.next, hin, hout]
      rfl
    rw [hout] at htail
    exact .step (congrArg some hnext) (ih rest htail)

/-! ## Both -/

/-- Ascending records, on disk and in memory: the table's iterator, from any
record with only lower ones before it, yields what the iterator over the cloned
range yields. -/
theorem disk_filter_eq_memory_filter {as bs : List Record} {tail : List UInt8} {m : MemTable}
    {table : c.Meta} (hmade : ∀ r ∈ as ++ bs, ∃ s ts seq k v, r = .fromRawParts s ts seq k v)
    (hlen : ∀ r ∈ as ++ bs, r.len < 2 ^ 64) (hasc : Ascending (as ++ bs))
    (hbelow : ∀ r ∈ as,
      r.orderKey < (Record.fromRawParts q.sourceId q.startTs 0 q.key []).orderKey)
    (hseek : c.binarySeek table.index (.fromRawParts q.sourceId q.startTs 0 q.key []) =
      (walBytes as).length)
    (hend : table.indexOffset = (walBytes (as ++ bs)).length) (hm : m.bset.elems = as ++ bs)
    (h₀ : 0 ≤ q.startTs) (h : q.startTs ≤ q.endTs) :
    ∃ it range out,
      SSTableIterFiltered.new c (some (walBytes (as ++ bs) ++ tail)) table q = .ok it ∧
      m.cloneRange q.sourceId q.startTs q.endTs = some range ∧
      Drains SSTableIterFiltered.next it out ∧
      Drains (fun it : IntoIterFiltered => some it.next) { inner := range, query := q } out := by
  have hcomp : ∀ r ∈ as ++ bs, r.Comparable := by
    intro r hr
    obtain ⟨s, ts, seq, k, v, rfl⟩ := hmade r hr
    exact comparable_parts _ _ _ _ _
  have hreads : Reads (walBytes (as ++ bs) ++ tail) (walBytes as).length table.indexOffset bs := by
    refine ⟨?_, ?_, fun r hr => hlen r (List.mem_append_right _ hr)⟩
    · rw [hend, List.take_left, walBytes_append, List.drop_left]
    · rw [hend, List.length_append]
      exact Nat.le_add_right _ _
  have hascBs : Ascending bs := List.Pairwise.sublist (List.sublist_append_right _ _) hasc
  obtain ⟨it, hnew, hstands, hfinds⟩ := new_stands (hseek ▸ hreads) hascBs
    (fun r hr => hcomp r (List.mem_append_right _ hr)) h₀ h
  have has : as.filter (IntoIterFiltered.keeps q) = [] := filter_keeps_below hbelow h₀ h
  obtain ⟨range, hrange, hfilter⟩ := filter_cloneRange (hm ▸ hcomp) h₀ h
  rw [hm, List.filter_append, has, List.nil_append] at hfilter
  refine ⟨it, range, bs.filter (IntoIterFiltered.keeps q), hnew, hrange, ?_, ?_⟩
  · rw [← List.filter_congr fun r hr => hfinds r (hstands.comparable r hr)]
    exact drains_filtered hstands
  · rw [← hfilter]
    exact drains_intoIter q range

/-- Tables whose index is one offset. -/
def offsetCode : SSTableCode := { plainCode with
  Index := Nat
  binarySeek := fun offset _ => offset
  writeToFile := fun id recs _ =>
    (walBytes recs, { id, bloom := (), bloomOffset := 0, index := 0, indexOffset := 0
                      numRecords := recs.length, fileSize := 0 })
  readTail := fun _ => .error "" }

/-- Records before a query, and from its start on: one that it selects, one with
another key, one without the text, one it selects again, and one past its end. -/
def earlyRecords : List Record :=
  [.fromRawParts 1 2 1 [97] [98], .fromRawParts 1 4 2 [97] [98]]

def laterRecords : List Record :=
  [.fromRawParts 1 5 3 [97] [98], .fromRawParts 1 6 4 [97, 97] [98], .fromRawParts 1 7 5 [97] [99],
    .fromRawParts 1 8 6 [97] [99, 98], .fromRawParts 1 9 7 [97] [98]]

def midQuery : Query := { sourceId := 1, key := [97], startTs := 5, endTs := 9, filter := [98] }

def midTable : offsetCode.Meta :=
  { id := 0, bloom := (), bloomOffset := 0, index := (walBytes earlyRecords).length
    indexOffset := (walBytes (earlyRecords ++ laterRecords)).length, numRecords := 7, fileSize := 0 }

def midMemtable : MemTable :=
  { sz := 0, limit := 64, bset := OrdSet.extend (.empty _) (earlyRecords ++ laterRecords) }

/-- From the third record on, behind 84 bytes: two are selected. -/
theorem disk_filter_eq_memory_filter_mid : (walBytes earlyRecords).length = 84 ∧
    (earlyRecords ++ laterRecords).filter (IntoIterFiltered.keeps midQuery) =
      [.fromRawParts 1 5 3 [97] [98], .fromRawParts 1 8 6 [97] [99, 98]] ∧
    ∃ it range out,
      SSTableIterFiltered.new offsetCode (some (walBytes (earlyRecords ++ laterRecords) ++ [7]))
        midTable midQuery = .ok it ∧
      midMemtable.cloneRange 1 5 9 = some range ∧ Drains SSTableIterFiltered.next it out ∧
      Drains (fun it : IntoIterFiltered => some it.next) { inner := range, query := midQuery }
        out := by
  refine ⟨by decide, by decide, ?_⟩
  refine @disk_filter_eq_memory_filter offsetCode midQuery earlyRecords laterRecords [7] midMemtable
    midTable ?_ (by decide) (by unfold Ascending; decide) (by decide) rfl rfl (by decide)
    (by decide) (by decide)
  simp only [earlyRecords, laterRecords, List.cons_append, List.nil_append, List.forall_mem_cons]
  exact ⟨⟨_, _, _, _, _, rfl⟩, ⟨_, _, _, _, _, rfl⟩, ⟨_, _, _, _, _, rfl⟩, ⟨_, _, _, _, _, rfl⟩,
    ⟨_, _, _, _, _, rfl⟩, ⟨_, _, _, _, _, rfl⟩, ⟨_, _, _, _, _, rfl⟩, List.forall_mem_nil _⟩

end LG.Proof.Core
