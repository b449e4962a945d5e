import Logregator.Proof.Core.Restart

/-!
# Opening any directory

`Wal::recover_all` reads whatever the WAL files have. A length above
`isize::MAX` panics; so do two records if one of them is too short for its key,
as it cannot be compared (`recoverAll_any`). `Engine::open` reads a table's file
as records to its end, past where they end: what the SSTable code puts there
decides whether the table opens (`openTable_written`).
-/

namespace LG.Proof.Core

open LG.Impl.Core LG.Spec.Core

/-! ## WAL files -/

variable {c : SSTableCode}

/-- What stands behind the records of a table. -/
def behindBytes (c : SSTableCode) (id : Nat) (recs : List Record) (hint : Nat) : List UInt8 :=
  (c.writeToFile id recs hint).1.drop (walBytes recs).length

/-- What is read behind the records of a table, if it can be taken for
records. -/
def readBehind (c : SSTableCode) (id : Nat) (recs : List Record) (hint : Nat) :
    Option (List Record) :=
  match readFrames isizeMax (behindBytes c id recs hint) with
  | .ok bodies => some (bodies.map Record.mk)
  | _ => none

/-- The records that are read from a table's file. -/
theorem readFrames_written (hl : Stores c) (id : Nat) {recs : List Record} (hint : Nat)
    (hmade : ∀ r ∈ recs, Made r) :
    readFrames isizeMax (c.writeToFile id recs hint).1 =
      (readFrames isizeMax (behindBytes c id recs hint)).map (recs.map Record.bytes ++ ·) := by
  obtain ⟨tail, hfile, -⟩ := hl.records id recs hint
  rw [behindBytes, hfile, List.drop_left, walBytes]
  exact readFrames_append tail (List.forall_mem_map.mpr fun r hr =>
    (made_short (hmade r hr)).trans_lt longestRecord_lt)

/-- A table that was written opens if what stands behind its records can be taken
for records, and its tail can be read; it panics on a length there that is above
`isize::MAX`. It opens as it was written if besides nothing of that has a greater
number, and the metadata count what is counted there. -/
theorem openTable_written (hl : Stores c) (id : Nat) {recs : List Record} (hint : Nat)
    (hmade : ∀ r ∈ recs, Made r) {file : List UInt8} {table : c.Meta}
    (hw : c.writeToFile id recs hint = (file, table)) :
    ((∃ out, Engine.openTable c id file = .ok out) ↔
      (∃ behind, readBehind c id recs hint = some behind) ∧ ∃ tail, c.readTail file = .ok tail) ∧
    (Engine.openTable c id file = .panic ↔ Overflows isizeMax (behindBytes c id recs hint)) ∧
    (Engine.openTable c id file = .ok (Engine.maxSeq recs, table) ↔
      ∃ behind, readBehind c id recs hint = some behind ∧
        Engine.maxSeq behind ≤ Engine.maxSeq recs ∧
        c.readTail file = .ok (table.index, table.indexOffset, table.bloom, table.bloomOffset) ∧
        table.numRecords = recs.length + counted behind ∧ table.fileSize = file.length) := by
  have hread : readFrames isizeMax file =
      (readFrames isizeMax (behindBytes c id recs hint)).map (recs.map Record.bytes ++ ·) := by
    rw [← readFrames_written hl id hint hmade, hw]
  have hid : table.id = id := by rw [← hl.id id recs hint, hw]
  rw [← readFrames_panic_iff]
  cases hbehind : readFrames isizeMax (behindBytes c id recs hint) with
  | err e | panic =>
    have hnone : readBehind c id recs hint = none := by rw [readBehind, hbehind]
    rw [hbehind] at hread
    rw [Engine.openTable, hread, hnone]
    simp [Outcome.mapErr]
  | ok bodies =>
    have hsome : readBehind c id recs hint = some (bodies.map Record.mk) := by
      rw [readBehind, hbehind]
    generalize hrecs : bodies.map Record.mk = behind at hsome
    have hbodies : bodies = behind.map Record.bytes := by
      rw [← hrecs, List.map_map]
      exact (List.map_id _).symm
    rw [hbehind, Outcome.map_ok, hbodies, ← List.map_append] at hread
    rw [openTable_eq id hread, maxSeq_append, counted_append, counted_made hmade, hsome]
    cases htail : c.readTail file with
    | error e => simp
    | ok tail =>
      refine ⟨by simp, by simp, ?_⟩
      obtain ⟨index, indexOffset, bloom, bloomOffset⟩ := tail
      obtain ⟨id', bloom', bloomOffset', index', indexOffset', numRecords, fileSize⟩ := table
      subst hid
      constructor
      · intro h
        obtain ⟨hmax, htable⟩ := Prod.mk.inj (Outcome.ok.inj h)
        cases htable
        exact ⟨behind, rfl, max_eq_left_iff.mp hmax, rfl, rfl, rfl⟩
      · rintro ⟨_, heq, hle, htail', hnum, hsize⟩
        cases heq
        cases htail'
        subst hnum hsize
        show Outcome.ok (max (Engine.maxSeq recs) (Engine.maxSeq behind), _) = _
        rw [max_eq_left hle]

/-- Tables with eight bytes behind their records: the number one. -/
def footerCode : SSTableCode := { plainCode with
  writeToFile := fun id recs hint =>
    (walBytes recs ++ leBytes 8 1, (plainCode.writeToFile id recs hint).2) }

theorem stores_footerCode : Stores footerCode where
  id _ _ _ := rfl
  records _ _ _ := ⟨leBytes 8 1, rfl, rfl⟩

/-- The number is taken for the length of a record that is not there. -/
theorem openTable_written_footer :
    ¬ ∃ out, Engine.openTable footerCode 1
      (footerCode.writeToFile 1 [.fromRawParts 1 5 1 [107] [118]] 1).1 = .ok out := by
  have hmade : ∀ r ∈ [Record.fromRawParts 1 5 1 [107] [118]], Made r :=
    List.forall_mem_singleton.mpr ⟨1, 5, 1, [107], [118], rfl, by decide, by decide⟩
  intro hopens
  obtain ⟨⟨behind, hbehind⟩, -⟩ := (openTable_written stores_footerCode 1 1 hmade rfl).1.mp hopens
  have hnone : readBehind footerCode 1 [.fromRawParts 1 5 1 [107] [118]] 1 = none := by decide
  cases hnone.symm.trans hbehind

end LG.Proof.Core
