import Logregator.Proof.Tsdb.Block

/-!
# Sequences of writes to a block

Where none of a sequence of writes is an error, the writer holds the records
that join its block (`writeEach_writerOf`). Its block can be encoded unless
the records come too close to what two bytes can address, which takes a limit
of 65532 bytes at least (`block_encodes_iff`). A write that is an error leaves
its bytes in the buffer: the offsets do not count them, and no later write
takes them away (`rejected_write_never_intact`).
-/

namespace LG.Proof.Tsdb

open LG.Impl.Tsdb LG.Spec.Tsdb

/-! ## What the writer takes -/

/-- After writes none of which is an error the writer holds the records that
joined, and these are the ones that were written. -/
theorem writeEach_writerOf {limit : Nat} : ∀ {recs cur : List Record},
    (∀ out ∈ ((writerOf limit cur).writeEach recs).1, out.isOk = true) →
    ((writerOf limit cur).writeEach recs).2 = writerOf limit (joined limit cur recs) ∧
      joined limit cur recs = cur ++ (writerOf limit cur).written recs ∧
      ∀ r ∈ (writerOf limit cur).written recs, Encodable r
  | [], cur, _ => by simp [BlockWriter.writeEach, BlockWriter.written, joined]
  | r :: recs, cur, h => by
    have hw := write_writerOf limit cur r
    simp only [BlockWriter.writeEach, BlockWriter.written, joined] at h ⊢
    by_cases hf : Full limit cur r
    · simp only [hw, if_pos hf, List.mem_cons, forall_eq_or_imp] at h ⊢
      exact writeEach_writerOf h.2
    by_cases hr : Encodable r
    · simp only [hw, if_neg hf, if_pos hr, List.mem_cons, forall_eq_or_imp] at h ⊢
      obtain ⟨hstate, hjoined, henc⟩ := writeEach_writerOf h.2
      exact ⟨hstate, by rw [hjoined, List.append_assoc, List.singleton_append], hr, henc⟩
    · simp only [hw, if_neg hf, if_neg hr, List.mem_cons, forall_eq_or_imp] at h
      exact absurd h.1 Bool.false_ne_true

/-- Writes of admissible records are no errors. -/
theorem isOk_writeEach {limit : Nat} : ∀ {recs cur : List Record}, (∀ r ∈ recs, Encodable r) →
    ∀ out ∈ ((writerOf limit cur).writeEach recs).1, out.isOk = true
  | [], cur, _ => by simp [BlockWriter.writeEach]
  | r :: recs, cur, h => by
    obtain ⟨hr, hrecs⟩ := List.forall_mem_cons.mp h
    have hw := write_writerOf limit cur r
    simp only [BlockWriter.writeEach]
    by_cases hf : Full limit cur r
    · simp only [hw, if_pos hf, List.mem_cons, forall_eq_or_imp]
      exact ⟨rfl, isOk_writeEach hrecs⟩
    · simp only [hw, if_neg hf, if_pos hr, List.mem_cons, forall_eq_or_imp]
      exact ⟨rfl, isOk_writeEach hrecs⟩

section FromNew

variable {blockLimit : Option Nat} {w : BlockWriter} {recs : List Record}
  (hnew : BlockWriter.new blockLimit = .ok w)
include hnew

/-- The writer that `new` builds, after writes none of which is an error. -/
theorem writeEach_new (hok : ∀ out ∈ (w.writeEach recs).1, out.isOk = true) :
    (w.writeEach recs).2 = writerOf w.limit (w.written recs) ∧
      joined w.limit [] recs = w.written recs ∧ ∀ r ∈ w.written recs, Encodable r := by
  obtain ⟨rfl, -⟩ := new_writerOf hnew
  obtain ⟨hstate, hjoined, henc⟩ := writeEach_writerOf hok
  rw [List.nil_append] at hjoined
  rw [hjoined] at hstate
  exact ⟨hstate, hjoined, henc⟩

theorem isOk_writeEach_new (henc : ∀ r ∈ recs, Encodable r) :
    ∀ out ∈ (w.writeEach recs).1, out.isOk = true := by
  rw [(new_writerOf hnew).1]
  exact isOk_writeEach henc

/-- The records that were written make a block of the writer's limit. -/
theorem limited_written (hok : ∀ out ∈ (w.writeEach recs).1, out.isOk = true) :
    Limited w.limit (w.written recs) := by
  rw [← (writeEach_new hnew hok).2.1]
  exact joined_limited (limited_nil _)

/-- The records that were written can be given back. -/
theorem storable_written (hok : ∀ out ∈ (w.writeEach recs).1, out.isOk = true) :
    Storable (w.written recs) where
  encodable := (writeEach_new hnew hok).2.2
  fits := by
    by_cases hne : w.written recs = []
    · simp [hne]
    · have hmax := (limited_written hnew hok).max hne
      rw [blockSize, maxBlockSize] at hmax
      omega

end FromNew

/-! ## Encoding the block -/

/-- `encode_block` of the writer's block returns bytes. -/
def Encodes (crc : List UInt8 → UInt32) (w : BlockWriter) : Prop :=
  ∃ bytes, encodeBlock crc w.intoBlock.1 = .ok bytes

theorem encodes_writerOf_iff (crc : List UInt8 → UInt32) {limit : Nat} {rs : List Record}
    (hne : rs ≠ []) (hl : Limited limit rs) :
    Encodes crc (writerOf limit rs) ↔ size rs ≤ u16Max - minRecordWireLength := by
  have henc := encodeBlock_blockOf crc hne (hl.max hne)
  rw [Encodes, show (writerOf limit rs).intoBlock.1 = blockOf rs from rfl, henc]
  by_cases h : u16Max - minRecordWireLength < size rs
  · simp [if_pos h, not_le.mpr h]
  · simp [if_neg h, not_lt.mp h]

theorem size_le_of_encodable : ∀ {rs : List Record}, (∀ r ∈ rs, Encodable r) →
    size rs ≤ rs.length * maxRecordWireLength
  | [], _ => Nat.zero_le _
  | r :: rs, h => by
    obtain ⟨hr, hrs⟩ := List.forall_mem_cons.mp h
    have := size_le_of_encodable hrs
    have := hr.wireLen_mem.2
    rw [size_cons, List.length_cons, Nat.succ_mul]
    omega

/-- Below a limit of 65532 bytes a block cannot come too close: it would have
to hold so many bytes in at most fifteen records. -/
theorem size_le_of_limit {limit : Nat} {rs : List Record} (hl : Limited limit rs)
    (henc : ∀ r ∈ rs, Encodable r) (hlimit : limit < 65532) :
    size rs ≤ u16Max - minRecordWireLength := by
  have hsize := size_le_of_encodable henc
  rcases Nat.lt_or_ge 1 rs.length with hlen | hlen
  · have hblock := hl.limit hlen
    by_contra hgt
    simp only [blockSize, szU16, u16Max, minRecordWireLength, maxRecordWireLength, keySize, szU32,
      minPayloadLength, maxPayloadLength, labelCountWireLen] at hsize hblock hgt
    omega
  · simp only [u16Max, minRecordWireLength, maxRecordWireLength, keySize, szU32, minPayloadLength,
      maxPayloadLength, labelCountWireLen] at hsize ⊢
    omega

/-- A record of a stream with a payload of so many zeros. -/
def zeros (ts : Nat) (n : Nat) : Record := ⟨⟨1, UInt64.ofNat ts, 0, 0⟩, List.replicate n 0⟩

theorem wireLen_zeros (ts n : Nat) : (zeros ts n).wireLen = 36 + n := by
  rw [wireLen_eq, zeros, List.length_replicate]

theorem encodable_zeros (ts : Nat) {n : Nat} (h : 2 ≤ n ∧ n ≤ 4096) : Encodable (zeros ts n) := by
  rw [Encodable, zeros, List.length_replicate]
  exact h

/-- Fifteen records of the largest size and one more: 65498 bytes, and 65532
with their offsets. -/
def sixteen : List Record := (List.range 15).map (zeros · 4096) ++ [zeros 15 3482]

theorem encodable_sixteen : ∀ r ∈ sixteen, Encodable r := by
  intro r hr
  rcases List.mem_append.mp hr with hr | hr
  · obtain ⟨i, -, rfl⟩ := List.mem_map.mp hr
    exact encodable_zeros i (by decide)
  · rw [List.mem_singleton.mp hr]
    exact encodable_zeros 15 (by decide)

theorem size_sixteen : size sixteen = 65498 ∧ blockSize sixteen = 65532 := by
  have hsize : size sixteen = 65498 := by
    simp only [sixteen, size, List.map_append, List.map_map, Function.comp_def, List.map_singleton,
      wireLen_zeros]
    decide
  have hlen : sixteen.length = 16 := by
    rw [sixteen, List.length_append, List.length_map, List.length_range, List.length_singleton]
  rw [blockSize, hsize, hlen]
  decide

/-- With a limit of at least 65532 bytes the sixteen records are all
written. -/
theorem written_sixteen {blockLimit : Option Nat} {w : BlockWriter}
    (hnew : BlockWriter.new blockLimit = .ok w) (hlimit : 65532 ≤ w.limit) :
    w.written sixteen = sixteen := by
  rw [← (writeEach_new hnew (isOk_writeEach_new hnew encodable_sixteen)).2.1]
  exact joined_of_fits (size_sixteen.2.trans_le hlimit) (size_sixteen.2.trans_le (by decide))

/-- A block with at least one written record can be encoded exactly when its
records have at most 65497 bytes; so every sequence of writes leaves a block
that can be encoded exactly when the limit is below 65532. -/
theorem block_encodes_iff (crc : List UInt8 → UInt32) {blockLimit : Option Nat} {w : BlockWriter}
    (hnew : BlockWriter.new blockLimit = .ok w) :
    (∀ recs, (∀ r ∈ recs, Encodable r) → w.written recs ≠ [] →
      (Encodes crc (w.writeEach recs).2 ↔ size (joined w.limit [] recs) ≤ 65497)) ∧
    ((∀ recs, (∀ r ∈ recs, Encodable r) → w.written recs ≠ [] →
      Encodes crc (w.writeEach recs).2) ↔ w.limit < 65532) := by
  have hiff (recs : List Record) (henc : ∀ r ∈ recs, Encodable r) (hne : w.written recs ≠ []) :
      Encodes crc (w.writeEach recs).2 ↔ size (w.written recs) ≤ 65497 := by
    have hok := isOk_writeEach_new hnew henc
    rw [(writeEach_new hnew hok).1]
    exact encodes_writerOf_iff crc hne (limited_written hnew hok)
  refine ⟨fun recs henc hne => ?_, fun hall => ?_, fun hlimit recs henc hne => ?_⟩
  · rw [(writeEach_new hnew (isOk_writeEach_new hnew henc)).2.1]
    exact hiff recs henc hne
  · by_contra hge
    have hwritten := written_sixteen hnew (not_lt.mp hge)
    have hne : w.written sixteen ≠ [] := by
      rw [hwritten]
      exact List.append_ne_nil_of_right_ne_nil _ (List.cons_ne_nil _ _)
    have hle := (hiff sixteen encodable_sixteen hne).mp (hall sixteen encodable_sixteen hne)
    rw [hwritten, size_sixteen.1] at hle
    omega
  · have hok := isOk_writeEach_new hnew henc
    exact (hiff recs henc hne).mpr
      (size_le_of_limit (limited_written hnew hok) (writeEach_new hnew hok).2.2 hlimit)

/-- The writer with the largest limit. -/
theorem new_largest : BlockWriter.new (some 65535) = .ok (writerOf 65535 []) := rfl

theorem block_encodes_iff_largest :
    ((∀ recs, (∀ r ∈ recs, Encodable r) → (writerOf 65535 []).written recs ≠ [] →
      Encodes (fun _ => 0) ((writerOf 65535 []).writeEach recs).2) ↔ 65535 < 65532) :=
  (block_encodes_iff (fun _ => 0) new_largest).2

/-- The sixteen records are written to a block with the largest limit, which
then cannot be encoded. -/
theorem block_encode_panics : ∃ w, BlockWriter.new (some 65535) = .ok w ∧
    (∀ r ∈ sixteen, Encodable r) ∧ w.written sixteen = sixteen ∧
    ∀ crc, encodeBlock crc (w.writeEach sixteen).2.intoBlock.1 = .panic := by
  have hne : sixteen ≠ [] := List.append_ne_nil_of_right_ne_nil _ (List.cons_ne_nil _ _)
  have hwritten := written_sixteen new_largest (by decide)
  refine ⟨_, new_largest, encodable_sixteen, hwritten, fun crc => ?_⟩
  rw [(writeEach_new new_largest (isOk_writeEach_new new_largest encodable_sixteen)).1, hwritten]
  refine (encodeBlock_blockOf crc hne (size_sixteen.2.trans_le (by decide))).trans (if_pos ?_)
  rw [size_sixteen.1]
  decide

/-! ## A write that is an error -/

/-- Further writes, and the block after them, are the same for the two
writers. -/
def Intact (w w' : BlockWriter) (recs : List Record) : Prop :=
  (w'.writeEach recs).1 = (w.writeEach recs).1 ∧
    (w'.writeEach recs).2.intoBlock = (w.writeEach recs).2.intoBlock

/-- A write does not look at the buffer, and adds to it. -/
theorem write_withBuffer (w : BlockWriter) (r : Record) :
    ∃ (out : Except CodecError WriteOutput) (w' : BlockWriter) (added : List UInt8), ∀ buffer,
    ({ w with buffer := buffer } : BlockWriter).write r =
      (out, { w' with buffer := buffer ++ added }) := by
  unfold BlockWriter.write
  simp only
  split
  · exact ⟨.ok .full, w, [], fun buffer => by rw [List.append_nil]⟩
  split
  · exact ⟨.ok .full, w, [], fun buffer => by rw [List.append_nil]⟩
  rcases encodeRecord r (List.replicate r.wireLen 0) with ⟨e | n, added⟩
  · exact ⟨.error e, w, added, fun buffer => rfl⟩
  · exact ⟨.ok .written,
      { w with
        firstKey := w.firstKey.or (some r.key)
        lastKey := some r.key
        offsets := w.offsets ++ [UInt16.ofNat w.size]
        size := w.size + r.wireLen
        recordCount := w.recordCount + 1 }, added, fun buffer => rfl⟩

theorem writeEach_withBuffer : ∀ (recs : List Record) (w : BlockWriter),
    ∃ (outs : List (Except CodecError WriteOutput)) (w' : BlockWriter) (added : List UInt8),
    ∀ buffer, ({ w with buffer := buffer } : BlockWriter).writeEach recs =
      (outs, { w' with buffer := buffer ++ added })
  | [], w => ⟨[], w, [], fun buffer => by rw [BlockWriter.writeEach, List.append_nil]⟩
  | r :: recs, w => by
    obtain ⟨out, w₁, added₁, hwrite⟩ := write_withBuffer w r
    obtain ⟨outs, w₂, added₂, hrest⟩ := writeEach_withBuffer recs w₁
    refine ⟨out :: outs, w₂, added₁ ++ added₂, fun buffer => ?_⟩
    simp only [BlockWriter.writeEach, hwrite, hrest, List.append_assoc]

/-- What a write that is an error leaves: bytes as long as the record, at the
end of the buffer. -/
theorem write_error {w : BlockWriter} {r : Record} {e : CodecError}
    (h : (w.write r).1 = .error e) :
    ∃ left, left.length = r.wireLen ∧ (w.write r).2 = { w with buffer := w.buffer ++ left } := by
  have hl : r.wireLen ≤ (List.replicate r.wireLen (0 : UInt8)).length := by simp
  unfold BlockWriter.write at h ⊢
  simp only at h ⊢
  split at h
  · cases h
  rename_i hlimit
  split at h
  · cases h
  rename_i hmax
  rw [if_neg hlimit, if_neg hmax]
  by_cases hr : Encodable r
  · rw [encodeRecord_ok hr hl] at h
    cases h
  · rw [encodeRecord_refused hr hl]
    refine ⟨_, ?_, rfl⟩
    rw [List.length_append, length_toBeBytes, List.length_drop, List.length_replicate, wireLen_eq,
      keySize]
    omega

/-- After a write that is an error, further writes return what they would
have returned, and the block is never the one it would have been. -/
theorem rejected_write_never_intact {w : BlockWriter} {r : Record} {e : CodecError}
    (h : (w.write r).1 = .error e) (recs : List Record) :
    ((w.write r).2.writeEach recs).1 = (w.writeEach recs).1 ∧ ¬ Intact w (w.write r).2 recs := by
  obtain ⟨left, hleft, hstate⟩ := write_error h
  obtain ⟨outs, w', added, hrest⟩ := writeEach_withBuffer recs w
  have hwith : (w.write r).2.writeEach recs =
      (outs, { w' with buffer := w.buffer ++ left ++ added }) := by
    rw [hstate]
    exact hrest (w.buffer ++ left)
  have hwithout : w.writeEach recs = (outs, { w' with buffer := w.buffer ++ added }) :=
    hrest w.buffer
  refine ⟨by rw [hwith, hwithout], fun hintact => ?_⟩
  have hblock := congrArg (fun b => b.1.data.length) hintact.2
  simp only [hwith, hwithout, BlockWriter.intoBlock, List.length_append, hleft,
    wireLen_eq] at hblock
  omega

/-- A writer with one record. -/
def oneWritten : BlockWriter := ((writerOf defaultBlockSize []).write (zeros 1 2)).2

/-- The writer after a record whose payload of one byte is refused. -/
def oneRejected : BlockWriter := (oneWritten.write (zeros 2 1)).2

/-- What that write returns. -/
theorem oneWritten_rejects :
    (oneWritten.write (zeros 2 1)).1 = .error (.invalidPayloadSize 1 38 4132) :=
  rfl

theorem rejected_write_never_intact_one :
    (oneRejected.writeEach [zeros 3 2]).1 = (oneWritten.writeEach [zeros 3 2]).1 ∧
      ¬ Intact oneWritten oneRejected [zeros 3 2] :=
  rejected_write_never_intact oneWritten_rejects [zeros 3 2]

/-- The second record of the block, as a cursor shows it. -/
def secondRecord (w : BlockWriter) : Option (Except CodecError (Option Record)) := do
  let c ← (BlockCursor.new w.intoBlock.1).seekToFirst
  return (← c.next).record

/-- After the refused record another one is written, and the block is encoded;
its second record cannot be read, where without the refused one it could. -/
theorem rejected_write_corrupts :
    BlockWriter.new none = .ok (writerOf defaultBlockSize []) ∧
    (oneWritten.write (zeros 2 1)).1 = .error (.invalidPayloadSize 1 38 4132) ∧
    (oneRejected.writeEach [zeros 3 2]).1 = [.ok .written] ∧
    Encodes (fun _ => 0) (oneRejected.writeEach [zeros 3 2]).2 ∧
    secondRecord (oneRejected.writeEach [zeros 3 2]).2 =
      some (.error (.invalidPayloadSize 0 38 4132)) ∧
    secondRecord (oneWritten.writeEach [zeros 3 2]).2 = some (.ok (some (zeros 3 2))) ∧
    ¬ Intact oneWritten oneRejected [zeros 3 2] := by
  have hshort : secondRecord (oneRejected.writeEach [zeros 3 2]).2 =
      some (.error (.invalidPayloadSize 0 38 4132)) := by decide +kernel
  have hfull : secondRecord (oneWritten.writeEach [zeros 3 2]).2 =
      some (.ok (some (zeros 3 2))) := by decide +kernel
  have hencodes : (encodeBlock (fun _ => 0)
      (oneRejected.writeEach [zeros 3 2]).2.intoBlock.1).isOk = true := by decide +kernel
  refine ⟨rfl, rfl, rfl, Outcome.isOk_iff.mp hencodes, hshort, hfull, fun hintact => ?_⟩
  rw [secondRecord, hintact.2] at hshort
  exact absurd (hshort.symm.trans hfull) (by simp)

end LG.Proof.Tsdb
