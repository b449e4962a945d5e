import Logregator.Proof.Core.Wal
import Logregator.Proof.Core.Written

/-!
# The WAL's file at a crash

Before the WAL's buffer is flushed, its `BufWriter` writes what it has when a
write does not fit. `Wal::write_one` writes a record in two calls, so that the
file can end behind the length of a record (`fileAfter_ends`). `recover_file`
then fails, and the records of the file are as if they had never been written
(`unwritten`).
-/

namespace LG.Proof.Core

open LG.Impl.Core LG.Spec.Core

variable {c : SSTableCode} {hp : RecordHeap} {s s' : System c} {log : List Insert}

/-! ## Where the file ends -/

theorem flatten_recordWrites (recs : List Record) :
    (recs.flatMap Wal.recordWrites).flatten = walBytes recs := by
  induction recs with
  | nil => rfl
  | cons r recs ih =>
    rw [List.flatMap_cons, List.flatten_append, ih]
    show leBytes 8 r.len ++ (r.bytes ++ []) ++ walBytes recs = _
    rw [List.append_nil]
    rfl

theorem length_recordWrites (recs : List Record) :
    (recs.flatMap Wal.recordWrites).length = 2 * recs.length := by
  induction recs with
  | nil => rfl
  | cons r recs ih =>
    rw [List.flatMap_cons, List.length_append, ih, List.length_cons, Nat.mul_succ, Nat.add_comm]
    rfl

theorem fileBytes_append (as bs : List Record) (o : Option Record) :
    fileBytes (as ++ bs) o = walBytes as ++ fileBytes bs o := by
  cases o with
  | none => exact walBytes_append as bs
  | some r =>
    rw [fileBytes, walBytes_append, List.append_assoc]
    rfl

/-- The first calls for records: those of whole records, and maybe that for the
next one's length. -/
theorem take_recordWrites (recs : List Record) (calls : Nat) :
    ∃ n o, ((recs.flatMap Wal.recordWrites).take calls).flatten = fileBytes (recs.take n) o ∧
      ∀ r ∈ o, recs[n]? = some r := by
  induction recs generalizing calls with
  | nil => exact ⟨0, none, by simp [fileBytes, walBytes], by simp⟩
  | cons r recs ih =>
    rcases calls with _ | _ | calls
    · exact ⟨0, none, rfl, by simp⟩
    · exact ⟨0, some r, by simp [fileBytes, Wal.recordWrites, walBytes], by simp⟩
    · obtain ⟨n, o, hbytes, ho⟩ := ih calls
      refine ⟨n + 1, o, ?_, ho⟩
      show leBytes 8 r.len ++ (r.bytes ++ ((recs.flatMap Wal.recordWrites).take calls).flatten) = _
      rw [hbytes, List.take_succ_cons, ← List.singleton_append, fileBytes_append,
        ← List.append_assoc]
      simp [walBytes, frame, Record.len]

/-- Wherever the writer is, the file has whole records, and maybe the length of
the next one. -/
theorem fileAfter_ends (flushed buffered : List Record) (calls : Nat) :
    ∃ n o, Wal.fileAfter flushed buffered calls = fileBytes (flushed ++ buffered.take n) o ∧
      ∀ r ∈ o, buffered[n]? = some r := by
  have hfile : BufWriter.Cut
      (.ofFile (flushed.flatMap Wal.recordWrites).flatten : BufWriter UInt8 Wal.bufferSize)
      (flushed.flatMap Wal.recordWrites) [] := BufWriter.cut_ofFile _
  obtain ⟨m, hcut⟩ := hfile.writeEach ((buffered.flatMap Wal.recordWrites).take calls)
  obtain ⟨n, o, hbytes, ho⟩ := take_recordWrites buffered (min m calls)
  refine ⟨n, o, ?_, ho⟩
  rw [Wal.fileAfter]
  refine hcut.inner.trans ?_
  rw [List.nil_append, List.take_take, List.flatten_append, flatten_recordWrites, hbytes,
    fileBytes_append]

/-- The file does end behind a length when a record does not fit the buffer after
those before it, and its length does. -/
theorem fileAfter_torn (flushed : List Record) {held : List Record} {r : Record} {calls : Nat}
    (hcalls : 2 * held.length + 2 ≤ calls) (hfits : (walBytes held).length + 8 ≤ Wal.bufferSize)
    (hover : Wal.bufferSize < (walBytes held).length + 8 + r.len) (hlt : r.len < Wal.bufferSize) :
    Wal.fileAfter flushed (held ++ [r]) calls = fileBytes (flushed ++ held) (some r) := by
  let w : BufWriter UInt8 Wal.bufferSize := .ofFile (flushed.flatMap Wal.recordWrites).flatten
  let writes := held.flatMap Wal.recordWrites ++ [leBytes 8 r.len]
  have hbytes : writes.flatten = walBytes held ++ leBytes 8 r.len := by
    rw [List.flatten_append, flatten_recordWrites, List.flatten_singleton]
  have hlen : writes.flatten.length = (walBytes held).length + 8 := by
    rw [hbytes, List.length_append, length_leBytes]
  have hshort (bs : List UInt8) (hbs : bs ∈ writes) : bs.length < Wal.bufferSize := by
    rcases List.mem_append.mp hbs with hbs | hbs
    · have hle := (List.sublist_flatten_of_mem hbs).length_le
      rw [flatten_recordWrites] at hle
      omega
    · rw [List.mem_singleton.mp hbs, length_leBytes]
      decide
  have hfits : w.buf.length + writes.flatten.length ≤ Wal.bufferSize := by
    rw [hlen]
    exact (Nat.zero_add _).trans_le hfits
  obtain ⟨hinner, hbuf⟩ := BufWriter.writeEach_held writes hfits hshort
  have hover : Wal.bufferSize < (w.writeEach writes).buf.length + r.bytes.length := by
    rw [hbuf]
    show _ < writes.flatten.length + r.bytes.length
    rw [hlen]
    exact hover
  have hall : ((held ++ [r]).flatMap Wal.recordWrites).take calls = writes ++ [r.bytes] := by
    rw [List.flatMap_append, List.take_of_length_le]
    · exact (List.append_assoc _ [_] [_]).symm
    · rw [← List.flatMap_append, length_recordWrites, List.length_append]
      exact hcalls
  rw [Wal.fileAfter, hall, BufWriter.writeEach, List.foldl_append]
  refine (BufWriter.writeAll_flushes hover hlt).trans ?_
  rw [hinner, hbuf, fileBytes, walBytes_append, ← flatten_recordWrites flushed, List.append_assoc,
    ← hbytes]
  rfl

/-! ## What is recovered -/

theorem recoverFile_bytes {recs : List Record} (hshort : ∀ r ∈ recs, r.len < 2 ^ 64) :
    Wal.recoverFile (walBytes recs) = .ok recs := by
  rw [Wal.recoverFile, walBytes, readFrames_frames (List.forall_mem_map.mpr hshort)]
  show Outcome.ok ((recs.map Record.bytes).map Record.mk) = _
  rw [List.map_map]
  exact congrArg _ (List.map_id _)

/-- A file that ends behind a length is not recovered. -/
theorem recoverFile_torn {recs : List Record} (hshort : ∀ r ∈ recs, r.len < 2 ^ 64) {r : Record}
    (hpos : 0 < r.len) (hle : r.len ≤ isizeMax) :
    Wal.recoverFile (walBytes recs ++ leBytes 8 r.len) =
      .err "wal.recover: failed to read record buffer" := by
  have hlen : (leBytes 8 r.len).length = 8 := length_leBytes 8 _
  have hofLe : ofLe (leBytes 8 r.len) = r.len := ofLe_leBytes_of_lt (hle.trans_lt isizeMax_lt)
  have htorn : readFrame isizeMax (leBytes 8 r.len) = .torn := by
    rw [readFrame, if_neg (by omega), List.take_of_length_le hlen.le, hofLe]
    exact (if_pos (by omega)).trans (if_neg (not_lt.mpr hle))
  have herr : readFrames isizeMax (leBytes 8 r.len) = .err () := by rw [readFrames_eq, htorn]
  rw [Wal.recoverFile, walBytes, readFrames_append _ (List.forall_mem_map.mpr hshort), herr]
  rfl

/-! ## Records that were never written -/

/-- The system with the records of the active file in the buffer still. -/
def unwritten (s : System c) : System c :=
  { s with
    engine.walBuffer := s.disk.active ++ s.engine.walBuffer
    disk.active := [] }

theorem Holds.unwritten (h : Holds log s) : Holds log (unwritten s) :=
  ⟨h.tiers.wal _, h.seq, h.seq_lt⟩

theorem WalSafe.unwritten (h : WalSafe log s) : WalSafe log (unwritten s) :=
  ⟨h.next_pos, h.rotated_lt, h.passed, h.applied, h.sent, h.stale, h.wals_lt, h.apart, h.files,
    h.active⟩

theorem Inserted.unwritten {inserts : List Insert} {e' : Engine c}
    (h : Inserted s.engine inserts e') : ∃ e'', Inserted (unwritten s).engine inserts e'' ∧
      Core.unwritten { s with engine := e' } = { Core.unwritten s with engine := e'' } := by
  obtain ⟨m, hm, hlt, rfl⟩ := h
  refine ⟨_, ⟨m, hm, hlt, rfl⟩, ?_⟩
  simp only [Core.unwritten, List.append_assoc]

theorem unwritten_writeWal (n : Nat) (s : System c) :
    unwritten (s.writeWal n) = (unwritten s).writeWal 0 := by
  simp [unwritten, System.writeWal]

theorem runTask_unwritten (task : IoCommand c) :
    System.runTask hp (unwritten s).disk task = System.runTask hp s.disk task := by
  cases task with
  | resyncWal => rfl
  | flushMemtable memtable sstId => rfl
  | compactSSTables tables fileId => rfl

/-- Steps do the same to the records that were never written. -/
theorem Effect.unwritten {step : Step} (h : Effect hp s step s') :
    ∃ step', insertsOf step' = insertsOf step ∧ Effect hp (unwritten s) step' (unwritten s') := by
  cases h with
  | insertedOne hi =>
    obtain ⟨e'', hi, heq⟩ := hi.unwritten
    exact ⟨_, rfl, heq ▸ .insertedOne hi⟩
  | insertedMany hi =>
    obtain ⟨e'', hi, heq⟩ := hi.unwritten
    exact ⟨_, rfl, heq ▸ .insertedMany hi⟩
  | wroteWal n => exact ⟨.writeWal 0, rfl, unwritten_writeWal n s ▸ .wroteWal 0⟩
  | noFlush rotates => exact ⟨_, rfl, .noFlush rotates⟩
  | sentFlush hne => exact ⟨_, rfl, .sentFlush hne⟩
  | froze hne => exact ⟨_, rfl, .froze hne⟩
  | noCompaction => exact ⟨_, rfl, .noCompaction⟩
  | sentCompaction n hlen => exact ⟨_, rfl, .sentCompaction n hlen⟩
  | resynced hjobs => exact ⟨_, rfl, .resynced hjobs⟩
  | dispatched hjobs => exact ⟨_, rfl, .dispatched hjobs⟩
  | finished hrun hjobs hjobs' =>
    exact ⟨_, rfl, .finished ((runTask_unwritten _).trans hrun) hjobs hjobs'⟩
  | failed htask hjobs => exact ⟨_, rfl, .failed htask hjobs⟩
  | flushed hjobs hdel => exact ⟨_, rfl, .flushed hjobs hdel⟩
  | compacted hjobs => exact ⟨_, rfl, .compacted hjobs⟩

end LG.Proof.Core
