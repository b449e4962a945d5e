import Logregator.Impl.Core.MergeIter
import Logregator.Proof.Core.Wal

/-!
# The iterators of the tables

What an iterator still has to give (`iterRest`) is read off its file: the
records up to the index, for a filtered one those that it finds. `next` gives
the first of them (`next_valid`), for any iterator in a valid state: a filtered
one on the frames of ascending records. An unfiltered one may be on a file that
can only be read in part, and gives the records of that part (`yields_take`).
-/

namespace LG.Proof.Core

open LG.Impl.Core LG.Spec.Core

/-! ## Reading records off a file -/

theorem longestRecord_le : longestRecord ≤ isizeMax := by decide

theorem longestRecord_lt : longestRecord < 2 ^ 64 := by decide

/-- The bytes from `pos` to `endPos` are the frames of the records. -/
structure Reads (file : List UInt8) (pos endPos : Nat) (recs : List Record) : Prop where
  bytes : (file.take endPos).drop pos = walBytes recs
  fits : endPos ≤ file.length
  short : ∀ r ∈ recs, r.len < 2 ^ 64

theorem Reads.nil {file : List UInt8} {pos endPos : Nat} (h : Reads file pos endPos []) :
    endPos ≤ pos := by
  have hlen := congrArg List.length h.bytes
  have hfits := h.fits
  simp only [walBytes, List.map_nil, frames_nil, List.length_drop, List.length_take,
    List.length_nil] at hlen
  omega

theorem Reads.cons {file : List UInt8} {pos endPos : Nat} {r : Record} {recs : List Record}
    (h : Reads file pos endPos (r :: recs)) :
    pos < endPos ∧ pos + 8 + r.bytes.length ≤ file.length ∧
      (∃ rest, readFrame longestRecord (file.drop pos) = .body r.bytes rest) ∧
      Reads file (pos + 8 + r.bytes.length) endPos recs := by
  obtain ⟨hr, hrecs⟩ := List.forall_mem_cons.mp h.short
  have hbytes : (file.take endPos).drop pos = frame r.bytes ++ walBytes recs := h.bytes
  have hlen := congrArg List.length hbytes
  have hfits := h.fits
  simp only [List.length_drop, List.length_take, List.length_append, length_frame] at hlen
  have hdrop : file.drop pos = frame r.bytes ++ (walBytes recs ++ file.drop endPos) := by
    conv => lhs; rw [← List.take_append_drop endPos file]
    rw [List.drop_append_of_le_length (by rw [List.length_take]; omega), hbytes, List.append_assoc]
  refine ⟨by omega, by omega, ⟨_, hdrop ▸ readFrame_frame hr _⟩, ?_, hfits, hrecs⟩
  rw [Nat.add_assoc, ← List.drop_drop, hbytes, List.drop_left' (length_frame _)]

/-- The records between two positions of a file. -/
def recordsFrom (file : List UInt8) (pos endPos : Nat) : List Record :=
  match readFrames longestRecord ((file.take endPos).drop pos) with
  | .ok bodies => bodies.map Record.mk
  | _ => []

theorem recordsFrom_eq {file : List UInt8} {pos endPos : Nat} {recs : List Record}
    (h : Reads file pos endPos recs) : recordsFrom file pos endPos = recs := by
  rw [recordsFrom, h.bytes, walBytes, readFrames_frames (List.forall_mem_map.mpr h.short)]
  simp [Function.comp_def]

/-- A file has at least as many bytes as records. -/
theorem Reads.length_le : ∀ {recs : List Record} {file : List UInt8} {pos endPos : Nat},
    Reads file pos endPos recs → recs.length + pos ≤ max pos file.length
  | [], _, _, _, _ => by simp
  | r :: recs, file, pos, endPos, h => by
    obtain ⟨-, hle, -, hrecs⟩ := h.cons
    have := hrecs.length_le
    rw [List.length_cons]
    omega

/-! ## Filtered iterators -/

/-- The record has the query's key, and a value that passes the filter. -/
def wants (q : Query) (r : Record) : Bool :=
  match r.extractAllFieldsRef with
  | .error _ => false
  | .ok f => f.key == q.key && q.passes f.value

/-- The checks of `next` on a record that can be compared. -/
theorem judge_eq {it : SSTableIterFiltered} {r : Record} (hr : r.Comparable)
    (hstart : it.start.Comparable) (hstop : it.stop.Comparable) :
    it.judge r = some (
      if r.orderKey < it.start.orderKey then .skip
      else if it.stop.orderKey ≤ r.orderKey then .finish
      else if wants it.query r then .found else .skip) := by
  rw [SSTableIterFiltered.judge, cmp_eq hr hstart, cmp_eq hr hstop]
  simp only [Option.bind_eq_bind, Option.bind_some, ordCmp_eq_lt, ne_eq, not_lt]
  split
  · rfl
  · split
    · rfl
    · unfold wants
      cases r.extractAllFieldsRef with
      | error e => rfl
      | ok f =>
        by_cases hk : f.key = it.query.key
        · cases hp : it.query.passes f.value <;> simp [hk, hp]
        · simp [hk]

/-- `next` yields the record. -/
def finds (it : SSTableIterFiltered) (r : Record) : Bool := it.judge r = some .found

/-- The iterator stands before ascending records. -/
structure Stands (it : SSTableIterFiltered) (recs : List Record) : Prop where
  reads : Reads it.file it.pos it.endPos recs
  ascending : Ascending recs
  comparable : ∀ r ∈ recs, r.Comparable
  start : it.start.Comparable
  stop : it.stop.Comparable

theorem Stands.tail {it : SSTableIterFiltered} {r : Record} {recs : List Record}
    (h : Stands it (r :: recs)) : Stands { it with pos := it.pos + 8 + r.bytes.length } recs where
  reads := h.reads.cons.2.2.2
  ascending := List.Pairwise.of_cons h.ascending
  comparable := (List.forall_mem_cons.mp h.comparable).2
  start := h.start
  stop := h.stop

theorem finds_iff {it : SSTableIterFiltered} {r : Record} (hr : r.Comparable)
    (hstart : it.start.Comparable) (hstop : it.stop.Comparable) :
    finds it r = true ↔ it.start.orderKey ≤ r.orderKey ∧ r.orderKey < it.stop.orderKey ∧
      wants it.query r = true := by
  rw [finds, judge_eq hr hstart hstop, decide_eq_true_iff]
  by_cases h₁ : r.orderKey < it.start.orderKey
  · simp [h₁, not_le.mpr h₁]
  · by_cases h₂ : it.stop.orderKey ≤ r.orderKey
    · simp [h₁, h₂, not_lt.mpr h₂]
    · simp [h₁, h₂, not_lt.mp h₁, not_le.mp h₂]

/-- The checks end the iteration only on a record that is past the end. -/
theorem stop_le_of_finish {it : SSTableIterFiltered} {r : Record} (hr : r.Comparable)
    (hstart : it.start.Comparable) (hstop : it.stop.Comparable)
    (h : it.judge r = some .finish) : it.stop.orderKey ≤ r.orderKey := by
  rw [judge_eq hr hstart hstop] at h
  by_contra hlt
  rw [if_neg hlt] at h
  split at h
  · cases h
  · split at h <;> cases h

/-- Nothing is found from a record on that is past the end. -/
theorem Stands.filter_eq_nil {it : SSTableIterFiltered} {r : Record} {recs : List Record}
    (h : Stands it (r :: recs)) (hstop : it.stop.orderKey ≤ r.orderKey) :
    (r :: recs).filter (finds it) = [] := by
  refine List.filter_eq_nil_iff.mpr fun q hq => ?_
  have hrq : r.orderKey ≤ q.orderKey := by
    rcases List.mem_cons.mp hq with rfl | hq
    · exact le_refl _
    · exact (List.rel_of_pairwise_cons h.ascending hq).le
  rw [finds_iff (h.comparable q hq) h.start h.stop]
  exact fun hf => absurd hf.2.1 (not_lt.mpr (hstop.trans hrq))

/-- The loop finds the first record that is to be found, and goes no further
than it has to. -/
theorem nextLoop_stands : ∀ {recs : List Record} {n : Nat} {it : SSTableIterFiltered},
    Stands it recs → recs.length < n → ∃ p recs',
      it.nextLoop n = some ((recs.filter (finds it)).head?, { it with pos := p }) ∧
      Stands { it with pos := p } recs' ∧
      recs'.filter (finds it) = (recs.filter (finds it)).tail
  | [], n + 1, it, h, _ => by
    refine ⟨it.pos, [], ?_, h, rfl⟩
    rw [SSTableIterFiltered.nextLoop, if_pos h.reads.nil]
    rfl
  | r :: recs, n + 1, it, h, hn => by
    obtain ⟨hpos, -, ⟨rest, hread⟩, -⟩ := h.reads.cons
    have hr := h.comparable r List.mem_cons_self
    have hjudge := judge_eq hr h.start h.stop
    rw [SSTableIterFiltered.nextLoop, if_neg (by omega), hread]
    simp only
    rw [show SSTableIterFiltered.judge { it with pos := it.pos + 8 + r.bytes.length } ⟨r.bytes⟩ =
      it.judge r from rfl]
    cases hv : it.judge r with
    | none => simp [hjudge] at hv
    | some verdict =>
      cases verdict with
      | skip =>
        have hfind : finds it r = false := by simp [finds, hv]
        rw [List.filter_cons_of_neg (by simp [hfind])]
        exact nextLoop_stands h.tail (Nat.lt_of_succ_lt_succ hn)
      | found =>
        have hfind : finds it r = true := by simp [finds, hv]
        rw [List.filter_cons_of_pos hfind]
        exact ⟨_, recs, rfl, h.tail, rfl⟩
      | finish =>
        -- The record is past the end, and so are those after it.
        have hnil := h.filter_eq_nil (stop_le_of_finish hr h.start h.stop hv)
        refine ⟨_, recs, by rw [hnil]; rfl, h.tail, ?_⟩
        rw [hnil, List.tail_nil]
        exact List.filter_eq_nil_iff.mpr fun q hq =>
          List.filter_eq_nil_iff.mp hnil q (List.mem_cons_of_mem _ hq)

/-! ## Unfiltered iterators -/

/-- What an unfiltered iterator yields until it ends. -/
abbrev Yields (it : SSTableIterUnfiltered) (recs : List Record) : Prop :=
  Drains SSTableIterUnfiltered.next it recs

theorem unfiltered_bound {it it' : SSTableIterUnfiltered} {o : Option Record}
    (h : it.next = some (o, it')) :
    o.toList.length + (it'.file.length - it'.pos) ≤ it.file.length - it.pos := by
  unfold SSTableIterUnfiltered.next at h
  split at h
  · cases h
    simp
  · cases hread : readFrame longestRecord (it.file.drop it.pos) with
    | noPrefix | torn =>
      rw [hread] at h
      cases h
      simp
    | overflow =>
      rw [hread] at h
      cases h
    | body body rest =>
      have hlen := readFrame_eq_body hread
      rw [List.length_drop] at hlen
      rw [hread] at h
      cases h
      simp only [Option.toList_some, List.length_singleton]
      omega

theorem Yields.length_le {it : SSTableIterUnfiltered} {recs : List Record} (h : Yields it recs) :
    recs.length ≤ it.file.length - it.pos := by
  induction h with
  | done h => exact Nat.zero_le _
  | step h _ ih =>
    have hbound := unfiltered_bound h
    rw [Option.toList_some, List.length_singleton] at hbound
    rw [List.length_cons]
    omega

/-- An iterator that has ended yields nothing more. -/
theorem Yields.ended {it it' : SSTableIterUnfiltered} (h : it.next = some (none, it')) :
    Yields it' [] := by
  unfold SSTableIterUnfiltered.next at h
  split at h
  · rename_i hend
    cases h
    have hnext : it.next = some (none, it) := by rw [SSTableIterUnfiltered.next, if_pos hend]
    exact .done hnext
  · cases hread : readFrame longestRecord (it.file.drop it.pos) with
    | noPrefix | torn =>
      rw [hread] at h
      cases h
      have hnext : SSTableIterUnfiltered.next { it with pos := it.file.length } =
          some (none, { it with pos := it.file.length }) := by
        simp [SSTableIterUnfiltered.next, readFrame]
      exact .done hnext
    | overflow | body body rest =>
      rw [hread] at h
      cases h

/-- Of a file off which `n` bytes can be read, the records that lie in them. -/
theorem yields_take (tail : List UInt8) : ∀ {recs : List Record} {n : Nat} {it : SSTableIterUnfiltered},
    (∀ r ∈ recs, r.len ≤ longestRecord) → it.file.drop it.pos = (walBytes recs ++ tail).take n →
    it.endPos = it.pos + (walBytes recs).length → Yields it (wholeRecords recs n)
  | [], n, it, _, _, hend => by
    have hle : it.endPos ≤ it.pos := hend.le
    have hnext : it.next = some (none, it) := by rw [SSTableIterUnfiltered.next, if_pos hle]
    exact .done hnext
  | r :: recs, n, it, hs, hfile, hend => by
    obtain ⟨hr, hs⟩ := List.forall_mem_cons.mp hs
    have hframe : walBytes (r :: recs) = frame r.bytes ++ walBytes recs := rfl
    rw [hframe, List.append_assoc, List.take_append, length_frame] at hfile
    rw [hframe, List.length_append, length_frame] at hend
    rw [wholeRecords, Record.len]
    split
    · rename_i hn
      rw [List.take_of_length_le (by simpa using hn)] at hfile
      have hnext : it.next = some (some r, { it with pos := it.pos + 8 + r.bytes.length }) := by
        rw [SSTableIterUnfiltered.next, if_neg (by omega), hfile,
          readFrame_frame (hr.trans_lt longestRecord_lt)]
      refine .step hnext (yields_take tail hs ?_ ?_)
      · rw [Nat.add_assoc, ← List.drop_drop, hfile, List.drop_left' (length_frame _)]
      · show it.endPos = it.pos + 8 + r.bytes.length + _
        omega
    · rename_i hn
      have hcut : readFrame longestRecord (it.file.drop it.pos) =
          if 8 ≤ n then .torn else .noPrefix := by
        rw [hfile, Nat.sub_eq_zero_of_le (not_le.mp hn).le, List.take_zero, List.append_nil]
        exact readFrame_take longestRecord_lt hr (not_le.mp hn)
      have hnext : it.next = some (none, { it with pos := it.file.length }) := by
        rw [SSTableIterUnfiltered.next, if_neg (by omega), hcut]
        by_cases h8 : 8 ≤ n
        · rw [if_pos h8]
        · rw [if_neg h8]
      exact .done hnext

/-! ## All iterators -/

/-- What an iterator will still give. -/
def iterRest : RecordIter → List Record
  | .filtered it => (recordsFrom it.file it.pos it.endPos).filter (finds it)
  | .unfiltered it => (collect SSTableIterUnfiltered.next (it.file.length - it.pos + 1) it).getD []
  | .inmem rest => rest

/-- An iterator that ends; a filtered one is on the frames of records. -/
def IterValid : RecordIter → Prop
  | .filtered it => ∃ recs, Stands it recs
  | .unfiltered it => ∃ recs, Yields it recs
  | .inmem _ => True

theorem iterRest_unfiltered {it : SSTableIterUnfiltered} {recs : List Record} (h : Yields it recs) :
    iterRest (.unfiltered it) = recs := by
  rw [iterRest, h.collect (Nat.lt_succ_of_le h.length_le)]
  rfl

/-- `next` gives what comes first. -/
theorem next_valid {iter : RecordIter} (h : IterValid iter) : ∃ iter',
    iter.next = some ((iterRest iter).head?, iter') ∧ IterValid iter' ∧
      iterRest iter' = (iterRest iter).tail := by
  cases iter with
  | filtered it =>
    obtain ⟨recs, hs⟩ := h
    have hlen := hs.reads.length_le
    have hfuel : recs.length < it.file.length + 1 := by omega
    obtain ⟨p, recs', hnext, hs', htail⟩ := nextLoop_stands hs hfuel
    refine ⟨.filtered { it with pos := p }, ?_, ⟨recs', hs'⟩, ?_⟩
    · rw [iterRest, recordsFrom_eq hs.reads, RecordIter.next, SSTableIterFiltered.next, hnext]
      rfl
    · rw [iterRest, iterRest, recordsFrom_eq hs.reads, recordsFrom_eq hs'.reads]
      exact htail
  | unfiltered it =>
    obtain ⟨recs, hy⟩ := h
    rw [iterRest_unfiltered hy, RecordIter.next]
    cases hy with
    | done hnext =>
      have hy' := Yields.ended hnext
      rw [hnext]
      exact ⟨_, rfl, ⟨[], hy'⟩, iterRest_unfiltered hy'⟩
    | step hnext hy' =>
      rw [hnext]
      exact ⟨_, rfl, ⟨_, hy'⟩, iterRest_unfiltered hy'⟩
  | inmem rest => exact ⟨.inmem rest.tail, rfl, trivial, rfl⟩

end LG.Proof.Core
