import Logregator.Proof.Core.Run
import Logregator.Spec.Core.Store

/-!
# What the backend answers to a range

The loop that `handle_range` spawns sends all records of its iterator, in
batches, and ends without an error (`scan_drains`). So over an engine that holds
the records of a log, the records sent are those that the range asks for
(`handleRange_answer`).
-/

namespace LG.Proof.Core

open LG.Impl.Core LG.Spec.Core

variable {c : SSTableCode} {hp : RecordHeap}

/-! ## The loop -/

/-- A merge iterator yields no more records than `bound` says, in any state. -/
theorem drains_le_bound {m : MergeIter hp} {out : List Record} (h : Drains MergeIter.next m out) :
    out.length ≤ m.bound := by
  obtain ⟨as, hd, hsub⟩ := Distinct.drains_inner (fun m : MergeIter hp => m.bound + 1) h
  exact hsub.length_le.trans (length_le_bound hd)

theorem flatten_lastBatch (batch : List Proto.Record) : (lastBatch batch).flatten = batch := by
  cases batch with
  | nil => rfl
  | cons r batch => simp [lastBatch]

/-- If all records of the iterator can be converted, all are sent. -/
theorem scan_drains (size : Nat) {m : MergeIter hp} {out : List Record}
    (hd : Drains MergeIter.next m out) {recs : List Proto.Record}
    (hrecs : List.Forall₂ (fun r p => tryFromRecord r = .ok p) out recs) {n : Nat}
    (hn : out.length < n) (batch : List Proto.Record) :
    ∃ batches, scan size n m batch = (batches, .done) ∧ batches.flatten = batch ++ recs := by
  induction hd generalizing n batch recs with
  | done h =>
    cases hrecs
    cases n with
    | zero => cases hn
    | succ n =>
      refine ⟨lastBatch batch, by rw [scan, h], ?_⟩
      rw [flatten_lastBatch, List.append_nil]
  | step h _ ih =>
    cases hrecs with
    | @cons _ p _ recs hp hrecs =>
      cases n with
      | zero => cases hn
      | succ n =>
        have hn := Nat.lt_of_succ_lt_succ hn
        simp only [scan, h, hp]
        split
        · -- The batch is full, and sent.
          obtain ⟨batches, hscan, hflat⟩ := ih hrecs hn []
          refine ⟨(batch ++ [p]) :: batches, by rw [hscan], ?_⟩
          rw [List.flatten_cons, hflat, List.nil_append, List.append_assoc]
          rfl
        · obtain ⟨batches, hscan, hflat⟩ := ih hrecs hn (batch ++ [p])
          refine ⟨batches, hscan, ?_⟩
          rw [hflat, List.append_assoc]
          rfl

/-! ## The log of the clients and that of the engine -/

open Service (engineInsert)

/-- The engine's insert of a client's. -/
def Engines (i : Proto.Insert × Nat) (j : Insert × Nat) : Prop :=
  engineInsert i.1 = some j.1 ∧ i.2 = j.2

theorem engineInsert_eq_some {i : Proto.Insert} {j : Insert} (h : engineInsert i = some j) :
    j.sourceId = i.sourceId ∧ j.ts = i.ts ∧ j.key = i.key.bytes ∧ j.value = i.value.bytes := by
  rw [engineInsert] at h
  split at h
  · cases h
    exact ⟨rfl, rfl, rfl, rfl⟩
  · cases h

theorem forall₂_engines : ∀ {log : List Proto.Insert} {log' : List Insert} (n : Nat),
    log.mapM engineInsert = some log' → List.Forall₂ Engines (log.zipIdx n) (log'.zipIdx n)
  | [], log', n, h => by
    cases h
    exact .nil
  | i :: log, log', n, h => by
    rw [List.mapM_cons] at h
    obtain ⟨j, hj, h⟩ := Option.bind_eq_some_iff.mp h
    obtain ⟨log'', hlog, h⟩ := Option.bind_eq_some_iff.mp h
    cases h
    exact .cons ⟨hj, rfl⟩ (forall₂_engines (n + 1) hlog)

theorem asked_iff_wanted {r : Proto.Range} {i : Proto.Insert} {j : Insert}
    (h : engineInsert i = some j) : Asked r i ↔ Wanted (queryOf r) j := by
  obtain ⟨hs, ht, hk, hv⟩ := engineInsert_eq_some h
  rw [Asked, Wanted, hs, ht, hk, hv]
  exact and_congr_right' (and_congr_left' Str.bytes_injective.eq_iff.symm)

/-- The record of an insert is converted to that of the client's. -/
theorem tryFromRecord_engines {i : Proto.Insert × Nat} {j : Insert × Nat} (h : Engines i j) :
    tryFromRecord (recordAt j) = .ok (protoRecord i) := by
  obtain ⟨hs, ht, hk, hv⟩ := engineInsert_eq_some h.1
  simp only [tryFromRecord, recordAt, fields_recordOf, protoRecord, h.2, hs, ht, hk, hv]
  rw [dif_pos i.1.key.valid, dif_pos i.1.value.valid]

/-! ## The order of records -/

/-- Records that a query asks for are in the order of time if they ascend. -/
theorem timeOrder_of_lt {q : Query} {i j : Insert × Nat} (hi : Wanted q i.1) (hj : Wanted q j.1)
    (h₀ : 0 ≤ q.startTs) (hlt : (recordAt i).orderKey < (recordAt j).orderKey) :
    i.1.ts < j.1.ts ∨ i.1.ts = j.1.ts ∧ UInt64.ofNat i.2 < UInt64.ofNat j.2 := by
  obtain ⟨hsi, hki, hti, -⟩ := hi
  obtain ⟨hsj, hkj, htj, -⟩ := hj
  rw [recordAt, recordAt, orderKey_recordOf, orderKey_recordOf, hsi, hsj, hki, hkj] at hlt
  simp only [Prod.Lex.toLex_lt_toLex, lt_irrefl, false_or, true_and, and_false, or_false,
    i64Bytes_lt_iff, i64Bytes_inj, u64Bytes_lt_iff] at hlt
  refine hlt.imp_left fun hrank => ?_
  by_contra hnot
  have hle := rank_le (Int64.le_trans h₀ htj) (Int64.not_lt.mp hnot)
  omega

theorem exists_of_forall₂ {α β : Type} {R : α → β → Prop} {l : List α} {l' : List β}
    (h : List.Forall₂ R l l') {b : β} (hb : b ∈ l') : ∃ a ∈ l, R a b := by
  induction h with
  | nil => cases hb
  | @cons a b' l l' hR _ ih =>
    rcases List.mem_cons.mp hb with rfl | hb
    · exact ⟨a, List.mem_cons_self, hR⟩
    · obtain ⟨a', ha', hR⟩ := ih hb
      exact ⟨a', List.mem_cons_of_mem _ ha', hR⟩

theorem pairwise_of_forall₂ {α β : Type} {R : α → β → Prop} {T : β → β → Prop} {l : List α}
    {l' : List β} (h : List.Forall₂ R l l')
    (hl : l.Pairwise fun a b => ∀ a' b', R a a' → R b b' → T a' b') : l'.Pairwise T := by
  induction h with
  | nil => exact .nil
  | @cons a a' l l' ha h ih =>
    obtain ⟨hhead, hl⟩ := List.pairwise_cons.mp hl
    refine List.pairwise_cons.mpr ⟨fun b' hb' => ?_, ih hl⟩
    obtain ⟨b, hb, hR⟩ := exists_of_forall₂ h hb'
    exact hhead b hb a' b' ha hR

/-! ## Ranges -/

variable {log : List Proto.Insert} {log' : List Insert} {s : System c}

/-- A query on a system that holds the records of a log. -/
theorem Holds.range (hl : Lawful c) (hp : RecordHeap) (hh : Holds log' s) {q : Query} (h₀ : 0 ≤ q.startTs)
    (h : q.startTs ≤ q.endTs) :
    ∃ m, s.engine.range hp s.disk q = .ok m ∧ ∃ out, Drains MergeIter.next m out ∧
      Ascending out ∧ out.Perm (((log'.zipIdx 1).filter fun p => Wanted q p.1).map recordAt) := by
  refine range_exact hl hp (fun p hp => ?_) (fun r => ⟨?_, hh.tiers.held r⟩) ?_ h₀ h
  · obtain ⟨-, -, recs, hrecs, -⟩ := hh.tiers.tables p hp
    exact ⟨recs, hrecs⟩
  · rintro (hr | ⟨p, hp, recs, hrecs, hr⟩)
    · exact hh.tiers.mem r hr
    · obtain ⟨-, -, recs', hrecs', hsub⟩ := hh.tiers.tables p hp
      exact hsub (hrecs.unique hl.toStores hrecs' ▸ hr)
  · have hkeys := hh.keys
    rw [numbered, List.map_map] at hkeys
    exact hkeys

/-- The records that a query asks for, in ascending order, are converted to
those that a range asks for, in the order of time. -/
theorem converted_records (hlog : log.mapM engineInsert = some log') {r : Proto.Range}
    (h₀ : 0 ≤ r.startTs) {out : List Record} (hasc : Ascending out)
    (hperm : out.Perm (((log'.zipIdx 1).filter fun p => Wanted (queryOf r) p.1).map recordAt)) :
    ∃ recs, List.Forall₂ (fun r p => tryFromRecord r = .ok p) out recs ∧ InTimeOrder recs ∧
      recs.Perm (askedRecords log r) := by
  have hengines : List.Forall₂ Engines ((log.zipIdx 1).filter fun p => Asked r p.1)
      ((log'.zipIdx 1).filter fun p => Wanted (queryOf r) p.1) :=
    List.rel_filter (fun i j hij => by simpa using asked_iff_wanted hij.1) (forall₂_engines 1 hlog)
  have hconv : List.Forall₂ (fun r p => tryFromRecord r = .ok p)
      (((log'.zipIdx 1).filter fun p => Wanted (queryOf r) p.1).map recordAt) (askedRecords log r) := by
    rw [askedRecords, List.forall₂_map_left_iff, List.forall₂_map_right_iff]
    exact hengines.flip.imp fun j i hij => tryFromRecord_engines hij
  obtain ⟨recs, hrecs, hperm'⟩ := List.perm_comp_forall₂ hperm hconv
  refine ⟨recs, hrecs, pairwise_of_forall₂ hrecs (hasc.imp_of_mem fun {a b} ha hb hlt => ?_), hperm'⟩
  -- Both are records of inserts that the query asks for.
  obtain ⟨i, hi, rfl⟩ := List.mem_map.mp (hperm.mem_iff.mp ha)
  obtain ⟨j, hj, rfl⟩ := List.mem_map.mp (hperm.mem_iff.mp hb)
  have hwi : Wanted (queryOf r) i.1 := by simpa using (List.mem_filter.mp hi).2
  have hwj : Wanted (queryOf r) j.1 := by simpa using (List.mem_filter.mp hj).2
  obtain ⟨i', -, hi'⟩ := exists_of_forall₂ hengines hi
  obtain ⟨j', -, hj'⟩ := exists_of_forall₂ hengines hj
  intro a' b' ha' hb'
  rw [tryFromRecord_engines hi'] at ha'
  rw [tryFromRecord_engines hj'] at hb'
  cases ha'
  cases hb'
  have hti := (engineInsert_eq_some hi'.1).2.1
  have htj := (engineInsert_eq_some hj'.1).2.1
  have horder := timeOrder_of_lt hwi hwj h₀ hlt
  rwa [hti, htj, ← hi'.2, ← hj'.2] at horder

/-- The backend answers a range with the records that it asks for, or with the
error of its times. -/
theorem handleRange_answer (hl : Lawful c) (hlog : log.mapM engineInsert = some log')
    (hh : Holds log' s) (hp : RecordHeap) (size : Nat) (r : Proto.Range) :
    (∃ err, RangeAnswer log r (.failed (.server err)) ∧ err.len ≤ 100 ∧
        handleRange hp size s r = some ([], .failed err)) ∨
      ∃ batches, RangeAnswer log r (.records batches.flatten) ∧
        (∀ rec ∈ batches.flatten, rec ∈ askedRecords log r) ∧
        handleRange hp size s r = some (batches, .done) := by
  by_cases hle : r.startTs > r.endTs
  · refine .inl ⟨_, by rw [RangeAnswer, if_pos hle], ?_, ?_⟩
    · rw [Str.len_ofAscii]
      decide
    · rw [handleRange, Engine.range, if_pos (show (queryOf r).startTs > (queryOf r).endTs from hle)]
  by_cases hneg : r.startTs < 0
  · refine .inl ⟨_, by rw [RangeAnswer, if_neg hle, if_pos hneg], ?_, ?_⟩
    · rw [Str.len_ofAscii]
      decide
    · rw [handleRange, Engine.range, if_neg (show ¬ (queryOf r).startTs > (queryOf r).endTs from hle),
        if_pos (show (queryOf r).startTs < 0 from hneg)]
  have h₀ : 0 ≤ r.startTs := Int64.not_lt.mp hneg
  obtain ⟨m, hm, out, hd, hasc, hperm⟩ :=
    hh.range hl hp (q := queryOf r) h₀ (Int64.not_lt.mp hle)
  obtain ⟨recs, hrecs, horder, hperm'⟩ := converted_records hlog h₀ hasc hperm
  obtain ⟨batches, hscan, hflat⟩ :=
    scan_drains size hd hrecs (Nat.lt_succ_of_le (drains_le_bound hd)) []
  rw [List.nil_append] at hflat
  refine .inr ⟨batches, ?_, fun rec hrec => ?_, ?_⟩
  · rw [RangeAnswer, if_neg hle, if_neg hneg, hflat]
    exact ⟨recs, rfl, horder, hperm'⟩
  · rw [hflat] at hrec
    exact hperm'.mem_iff.mp hrec
  · rw [handleRange, hm]
    exact congrArg some hscan

end LG.Proof.Core
