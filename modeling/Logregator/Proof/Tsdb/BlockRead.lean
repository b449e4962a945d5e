import Logregator.Framework.Iter
import Logregator.Proof.Tsdb.BlockWriter

/-!
# Reading blocks

Bytes that `decode_block` accepts are those of the block it returns
(`decodeBlock_eq_ok`), and each of its offsets has a record's length of data
before the next one (`checkOffsets_bounds`). So a written block is read back
from its bytes and these from it (`block_round_trip`), no read of an accepted
block is out of range (`decoded_block_safe`), and a search in a written block
ends on the least key that is not below the one sought (`block_seek`).
-/

namespace LG.Proof.Tsdb

open LG.Impl.Tsdb LG.Spec.Tsdb

/-! ## What decoding accepts -/

/-- Two bytes as an offset, and back. -/
theorem beBytes_offset (a b : UInt8) : beBytes 2 (UInt16.ofNat (ofBe [a, b])).toNat = [a, b] := by
  have hlt := ofBe_lt [a, b]
  norm_num at hlt
  rw [UInt16.toNat_ofNat', Nat.mod_eq_of_lt hlt]
  exact beBytes_ofBe (k := 2) rfl

/-- Bytes of so many offsets are read as these. -/
theorem readOffsets_eq : ∀ {n : Nat} {bs : List UInt8}, bs.length = n * szU16 →
    (readOffsets bs).length = n ∧ (readOffsets bs).flatMap (fun o => beBytes 2 o.toNat) = bs
  | 0, [], _ => ⟨rfl, rfl⟩
  | n + 1, [a], h => by
    simp only [List.length_singleton, szU16] at h
    omega
  | n + 1, a :: b :: bs, h => by
    have hbs : bs.length = n * szU16 := by
      simp only [List.length_cons, szU16] at h ⊢
      omega
    obtain ⟨hlen, hbytes⟩ := readOffsets_eq hbs
    rw [readOffsets, List.length_cons, hlen, List.flatMap_cons, beBytes_offset, hbytes]
    exact ⟨rfl, rfl⟩

/-- Bytes that end in a number of offsets, with so many before it, are the
body of the block read from them. -/
theorem body_read {body : List UInt8} {n start : Nat}
    (hcount : body.drop (start + n * szU16) = beBytes 2 n) :
    Block.body ⟨body.take start, readOffsets ((body.drop start).take (n * szU16))⟩ = body := by
  have hlen := congrArg List.length hcount
  rw [List.length_drop, length_beBytes] at hlen
  have hseg : ((body.drop start).take (n * szU16)).length = n * szU16 := by
    rw [List.length_take, List.length_drop]
    omega
  obtain ⟨hread, hbytes⟩ := readOffsets_eq hseg
  rw [Block.body, hread, hbytes, ← hcount, List.append_assoc, ← List.drop_drop,
    List.take_append_drop, List.take_append_drop]

/-- A checksum is known from its bytes. -/
theorem beBytes_checksum {sum : List UInt8} (h : sum.length = 4) :
    beBytes 4 (UInt32.ofNat (ofBe sum)).toNat = sum := by
  have hlt : ofBe sum < 2 ^ 32 := (ofBe_lt sum).trans_eq (by rw [h]; rfl)
  rw [UInt32.toNat_ofNat', Nat.mod_eq_of_lt hlt, beBytes_ofBe h]

/-- Bytes that are accepted are those of the block. -/
theorem decodeBlock_eq_ok {crc : List UInt8 → UInt32} {src : List UInt8} {b : Block}
    (h : decodeBlock crc src = .ok b) :
    src = b.body ++ beBytes 4 (crc b.body).toNat ∧
      checkOffsets checkRecordRange b.data.length b.offsets = .ok () := by
  unfold decodeBlock at h
  split at h
  · cases h
  rename_i hsrc
  rw [not_lt, szU32] at hsrc
  simp only at h
  -- The bytes before the checksum, and the checksum's.
  have hsplit := List.take_append_drop (src.length - szU32) src
  have hsum : (src.drop (src.length - szU32)).length = 4 := by
    rw [List.length_drop, szU32]
    omega
  generalize src.take (src.length - szU32) = body at h hsplit
  generalize src.drop (src.length - szU32) = sum at h hsplit hsum
  split at h
  · cases h
  rename_i hcrc
  rw [ne_eq, not_not] at hcrc
  split at h
  · cases h
  rename_i hbody
  rw [not_lt, szU16] at hbody
  split at h
  · cases h
  rename_i hseg
  rw [not_lt] at hseg
  -- The bytes before the count, and the count's.
  generalize hn : ofBe (body.drop (body.length - szU16)) = n at h hseg
  generalize hstart : body.length - szU16 - n * szU16 = start at h
  have hcount : body.drop (start + n * szU16) = beBytes 2 n := by
    rw [← hstart, Nat.sub_add_cancel hseg, ← hn]
    refine (beBytes_ofBe ?_).symm
    rw [List.length_drop, szU16]
    omega
  have hdata : (body.take start).length = start := by
    rw [List.length_take]
    omega
  cases hcheck : checkOffsets checkRecordRange start
      (readOffsets ((body.drop start).take (n * szU16))) with
  | error e =>
    rw [hcheck] at h
    cases h
  | ok u =>
    rw [hcheck] at h
    cases h
    rw [body_read hcount, hcrc, beBytes_checksum hsum, hdata]
    exact ⟨hsplit.symm, hcheck⟩

/-! ## The decoders do not panic -/

theorem checkedSub_of_le {a b : Nat} (h : b ≤ a) : checkedSub a b = some (a - b) := if_pos h

/-- The checks of a record's range, with the subtraction of the source. -/
theorem checkRecordRange_bind (start stop : Nat) (rest : Outcome BlockCodecError Unit) :
    (if stop ≤ start then Outcome.err (.invalidOffsets start stop)
      else do
        let recordWireLen ← .expect (checkedSub stop start)
        if ¬ (minRecordWireLength ≤ recordWireLen ∧ recordWireLen ≤ maxRecordWireLength) then
          .err (.invalidPayloadSize recordWireLen minRecordWireLength maxRecordWireLength)
        else rest) =
      (do .ofExcept (checkRecordRange start stop); rest) := by
  rw [checkRecordRange]
  split
  · rfl
  · rename_i hlt
    rw [checkedSub_of_le (by omega), Outcome.expect_some, Outcome.bind_ok]
    split
    · rfl
    · rfl

/-- The loop by index makes the checks of the loop over the list. -/
theorem checkOffsetsFrom_eq (offsets : List UInt16) (segStart : Nat) : ∀ {n i : Nat},
    i + n = offsets.length → checkOffsetsFrom offsets segStart n i =
      .ofExcept (checkOffsets checkRecordRange segStart (offsets.drop i))
  | 0, i, h => by
    rw [List.drop_eq_nil_of_le (by omega)]
    rfl
  | n + 1, i, h => by
    have hi : i < offsets.length := by omega
    have ih := checkOffsetsFrom_eq offsets segStart (n := n) (i := i + 1) (by omega)
    rw [checkOffsetsFrom, List.getElem?_eq_getElem hi, checkedSub_of_le (by omega)]
    simp only [Outcome.expect_some, Outcome.bind_ok]
    rw [← List.getElem_cons_drop hi]
    by_cases hlast : i < offsets.length - 1
    · have hi' : i + 1 < offsets.length := by omega
      rw [← List.getElem_cons_drop hi'] at ih ⊢
      rw [if_pos hlast, List.getElem?_eq_getElem hi', checkOffsets]
      simp only [Option.map_some, Outcome.expect_some, Outcome.bind_ok, ih, checkRecordRange_bind]
      cases checkRecordRange offsets[i].toNat offsets[i + 1].toNat <;> rfl
    · rw [List.drop_eq_nil_of_le (by omega)] at ih ⊢
      rw [if_neg hlast, checkOffsets]
      simp only [Outcome.expect_some, Outcome.bind_ok, ih, checkRecordRange_bind]
      cases checkRecordRange offsets[i].toNat segStart <;> rfl

/-- No slice, index or subtraction of `decode_block` is out of range. -/
theorem decodeBlockChecked_eq (crc : List UInt8 → UInt32) (src : List UInt8) :
    decodeBlockChecked crc src = .ofExcept (decodeBlock crc src) := by
  unfold decodeBlockChecked decodeBlock
  by_cases hsrc : src.length < szU32
  · rw [if_pos hsrc, if_pos hsrc]
    rfl
  rw [if_neg hsrc, if_neg hsrc, checkedSub_of_le (not_lt.mp hsrc)]
  simp only [Outcome.expect_some, Outcome.bind_ok]
  rw [slice_drop (Nat.sub_le _ _), slice_take (Nat.sub_le _ _)]
  have hsum : (src.drop (src.length - szU32)).length = szU32 := by
    rw [List.length_drop]
    omega
  simp only [Outcome.expect_some, Outcome.bind_ok, hsum, ne_eq, not_true_eq_false, if_false]
  generalize src.take (src.length - szU32) = body
  generalize UInt32.ofNat (ofBe (src.drop (src.length - szU32))) = computed
  by_cases hcrc : ¬ crc body = computed
  · rw [if_pos hcrc, if_pos hcrc]
    rfl
  rw [if_neg hcrc, if_neg hcrc]
  by_cases hbody : body.length < szU16
  · rw [if_pos hbody, if_pos hbody]
    rfl
  rw [if_neg hbody, if_neg hbody, checkedSub_of_le (not_lt.mp hbody)]
  simp only [Outcome.expect_some, Outcome.bind_ok]
  rw [slice_drop (Nat.sub_le _ _)]
  have hcount : (body.drop (body.length - szU16)).length = szU16 := by
    rw [List.length_drop]
    omega
  simp only [Outcome.expect_some, Outcome.bind_ok, hcount, not_true_eq_false, if_false]
  generalize ofBe (body.drop (body.length - szU16)) = n
  by_cases hseg : body.length - szU16 < n * szU16
  · rw [if_pos hseg, if_pos hseg]
    rfl
  rw [if_neg hseg, if_neg hseg, checkedSub_of_le (not_lt.mp hseg)]
  simp only [Outcome.expect_some, Outcome.bind_ok]
  rw [slice_take (by omega), slice_of_le (by omega) (by omega), Nat.sub_sub_self (not_lt.mp hseg)]
  simp only [Outcome.expect_some, Outcome.bind_ok, checkOffsetsFrom_eq _ _ (Nat.zero_add _),
    List.drop_zero]
  cases checkOffsets checkRecordRange (body.length - szU16 - n * szU16)
    (readOffsets ((body.drop (body.length - szU16 - n * szU16)).take (n * szU16))) <;> rfl

theorem fromBeBytesChecked_eq (src : List UInt8) :
    Key.fromBeBytesChecked src = .ofExcept (Key.fromBeBytes src) := by
  unfold Key.fromBeBytesChecked Key.fromBeBytes
  by_cases h : src.length < keySize
  · rw [if_pos h, if_pos h]
    rfl
  rw [if_neg h, if_neg h]
  rw [keySize] at h
  rw [slice_of_le (by omega) (by omega), slice_of_le (by omega) (by omega),
    slice_of_le (by omega) (by omega), slice_of_le (by omega) (by omega)]
  rfl

theorem decodeKeyChecked_eq (src : List UInt8) :
    decodeKeyChecked src = .ofExcept (decodeKey src) := by
  unfold decodeKeyChecked decodeKey
  by_cases h : src.length < keySize
  · rw [if_pos h, if_pos h]
    rfl
  rw [if_neg h, if_neg h, slice_take (not_lt.mp h)]
  simp only [Outcome.expect_some, Outcome.bind_ok, fromBeBytesChecked_eq]
  cases Key.fromBeBytes (src.take keySize) <;> rfl

/-- No slice or index of `RecordCodec::decode` is out of range. -/
theorem decodeRecordChecked_eq (src : List UInt8) :
    decodeRecordChecked src = .ofExcept (decodeRecord src) := by
  unfold decodeRecordChecked decodeRecord
  by_cases h : src.length < keySize + payloadLenSize
  · rw [if_pos h, if_pos h]
    rfl
  rw [if_neg h, if_neg h, decodeKeyChecked_eq]
  rcases hk : decodeKey src with e | ⟨_ | ⟨key, n⟩⟩
  · rfl
  · rfl
  have hslice : slice src keySize (keySize + payloadLenSize) =
      some ((src.drop keySize).take payloadLenSize) := by
    rw [slice_of_le (by omega) (by omega), Nat.add_sub_cancel_left]
  simp only [Outcome.ofExcept_ok, Outcome.bind_ok, hslice, Outcome.expect_some]
  generalize ofBe ((src.drop keySize).take payloadLenSize) = payloadLen
  cases checkPayloadSize payloadLen with
  | error e => rfl
  | ok u =>
    by_cases htotal : src.length < keySize + payloadLenSize + payloadLen
    · simp only [if_pos htotal]
      rfl
    · simp only [if_neg htotal]
      rw [slice_of_le (by omega) (by omega), Nat.add_sub_cancel_left]
      rfl

/-- Each record of a block has the bytes of its shortest form, all in the
data. -/
def InRange (b : Block) : Prop :=
  ∀ i o, b.offsets[i]? = some o →
    o.toNat + minRecordWireLength ≤ b.recordEnd i ∧ b.recordEnd i ≤ b.data.length

theorem checkRecordRange_eq_ok {start stop : Nat} (h : checkRecordRange start stop = .ok ()) :
    start + minRecordWireLength ≤ stop := by
  unfold checkRecordRange at h
  split at h
  · cases h
  · split at h
    · cases h
    · omega

/-- The offsets that `decode_block` accepts. Each record ends where the next
one starts, which is in the data because that one is. -/
theorem checkOffsets_bounds (data : List UInt8) : ∀ {offsets : List UInt16},
    checkOffsets checkRecordRange data.length offsets = .ok () → InRange ⟨data, offsets⟩
  | [], _ => fun _ _ ho => by cases ho
  | [last], h => fun i o ho => by
    obtain rfl : i = 0 := by
      by_contra hi
      rw [List.getElem?_eq_none (by rw [List.length_singleton]; omega)] at ho
      cases ho
    cases ho
    exact ⟨checkRecordRange_eq_ok h, le_rfl⟩
  | first :: second :: rest, h => fun i o ho => by
    rw [checkOffsets] at h
    cases hfirst : checkRecordRange first.toNat second.toNat with
    | error e =>
      rw [hfirst] at h
      cases h
    | ok u =>
      rw [hfirst] at h
      have ih := checkOffsets_bounds data h
      cases i with
      | zero =>
        cases ho
        obtain ⟨hstart, hend⟩ := ih 0 second rfl
        exact ⟨checkRecordRange_eq_ok hfirst, by
          calc second.toNat ≤ second.toNat + minRecordWireLength := Nat.le_add_right _ _
            _ ≤ _ := hstart
            _ ≤ data.length := hend⟩
      | succ i => exact ih i o ho

theorem inRange_of_decodeBlock {crc : List UInt8 → UInt32} {src : List UInt8} {b : Block}
    (h : decodeBlock crc src = .ok b) : InRange b := by
  obtain ⟨-, hcheck⟩ := decodeBlock_eq_ok h
  exact checkOffsets_bounds b.data hcheck

section Moves

variable {c : BlockCursor}

theorem updateCurrent_inRange (h : InRange c.block) :
    ∃ c', c.updateCurrent = some c' ∧ c'.block = c.block := by
  unfold BlockCursor.updateCurrent
  cases ho : c.block.offsets[c.offsetIdx]? with
  | none => exact ⟨_, rfl, rfl⟩
  | some o =>
    obtain ⟨hstart, hend⟩ := h _ _ ho
    simp only [slice_of_le (Nat.le_of_add_right_le hstart) hend]
    exact ⟨_, rfl, rfl⟩

theorem compareAt_inRange {b : Block} (h : InRange b) (k : Key) {i : Nat}
    (hi : i < b.offsets.length) : BlockCursor.compareAt b k i ≠ .panic := by
  obtain ⟨hstart, hend⟩ := h i _ (List.getElem?_eq_getElem hi)
  have hkey : keySize ≤ minRecordWireLength := by decide
  unfold BlockCursor.compareAt
  rw [List.getElem?_eq_getElem hi, Outcome.expect_some, Outcome.bind_ok,
    slice_of_le (by omega) (by omega), Outcome.expect_some, Outcome.bind_ok]
  rcases decodeKey _ with _ | ⟨_ | ⟨_, _⟩⟩ <;> simp

theorem move_inRange (h : InRange c.block) (m : BlockCursor.Move) :
    ∃ c', c.move m = some c' ∧ c'.block = c.block := by
  cases m with
  | next => exact updateCurrent_inRange (c := { c with offsetIdx := c.offsetIdx + 1 }) h
  | seekToFirst => exact updateCurrent_inRange (c := { c with offsetIdx := 0 }) h
  | seek k =>
    rw [BlockCursor.move, BlockCursor.seek]
    have hne := binarySearchM_ne_panic fun i hi => compareAt_inRange h k hi
    rcases hsearch : binarySearchM (BlockCursor.compareAt c.block k) c.block.offsets.length with
      (i | i) | e | _
    · exact updateCurrent_inRange (c := { c with offsetIdx := i }) h
    · exact updateCurrent_inRange (c := { c with offsetIdx := i }) h
    · exact ⟨_, rfl, rfl⟩
    · exact absurd hsearch hne

theorem moves_inRange : ∀ (ms : List BlockCursor.Move) {c : BlockCursor}, InRange c.block →
    (c.moves ms).isSome = true
  | [], _, _ => rfl
  | m :: ms, c, h => by
    obtain ⟨c', hmove, hblock⟩ := move_inRange h m
    rw [BlockCursor.moves, hmove]
    exact moves_inRange ms (hblock ▸ h)

end Moves

/-- Whatever the bytes: `decode_block` returns, the calls that move a cursor
over a block it accepts return, in any order and from any state, and so do the
decoders of a key and of a record, all of them without a slice, an index or a
subtraction out of range. -/
theorem decoded_block_safe (crc : List UInt8 → UInt32) (src : List UInt8) :
    decodeBlockChecked crc src ≠ .panic ∧
    (∀ b, decodeBlockChecked crc src = .ok b →
      ∀ c : BlockCursor, c.block = b → ∀ ms, (c.moves ms).isSome = true) ∧
    decodeKeyChecked src = .ofExcept (decodeKey src) ∧
    decodeRecordChecked src = .ofExcept (decodeRecord src) := by
  refine ⟨?_, ?_, decodeKeyChecked_eq src, decodeRecordChecked_eq src⟩
  · rw [decodeBlockChecked_eq]
    cases decodeBlock crc src <;> simp
  · intro b hdecode c hc ms
    rw [decodeBlockChecked_eq, Outcome.ofExcept_eq_ok] at hdecode
    exact moves_inRange ms (hc ▸ inRange_of_decodeBlock hdecode)

/-! ## Round trips -/

/-- The loop `while let Some(rec) = cursor.current_record()` shows the records
and ends on `Ok(None)`. -/
def Shows (c : BlockCursor) (recs : List Record) : Prop :=
  ∃ t, Walk BlockCursor.currentRecord BlockCursor.next (fun c => c.currentRecord = none) c recs t ∧
    t.record = .ok none

/-- A cursor on record `j` shows the records from there on. -/
theorem shows_cursorAt {rs : List Record} (hs : Storable rs) : ∀ {n j : Nat},
    rs.length ≤ j + n → Shows (cursorAt rs j) (rs.drop j)
  | 0, j, hn => by
    have hnone : rs[j]? = none := List.getElem?_eq_none (by omega)
    rw [List.drop_eq_nil_of_le (by omega)]
    exact ⟨_, .done hnone, congrArg Except.ok hnone⟩
  | n + 1, j, hn => by
    cases hj : rs[j]? with
    | none =>
      rw [List.drop_eq_nil_of_le (List.getElem?_eq_none_iff.mp hj)]
      exact ⟨_, .done hj, congrArg Except.ok hj⟩
    | some r =>
      obtain ⟨hlt, rfl⟩ := List.getElem?_eq_some_iff.mp hj
      obtain ⟨t, hw, ht⟩ := shows_cursorAt hs (n := n) (j := j + 1) (by omega)
      rw [← List.getElem_cons_drop hlt]
      refine ⟨t, .cons ?_ hj (next_cursorAt hs j) hw, ht⟩
      rw [show (cursorAt rs j).currentRecord = rs[j]? from rfl, hj]
      simp

/-- The block of a writer after writes of admissible records is decoded from
its bytes, and a cursor over it shows the records written; the bytes of a block
that was decoded are those it was decoded from. -/
theorem block_round_trip (crc : List UInt8 → UInt32) :
    (∀ blockLimit w recs, BlockWriter.new blockLimit = .ok w → (∀ r ∈ recs, Encodable r) → ∀ bytes,
      encodeBlock crc (w.writeEach recs).2.intoBlock.1 = .ok bytes →
      decodeBlock crc bytes = .ok (w.writeEach recs).2.intoBlock.1 ∧
      ∃ c, (BlockCursor.new (w.writeEach recs).2.intoBlock.1).seekToFirst = some c ∧
        Shows c (w.written recs)) ∧
    (∀ src b, decodeBlock crc src = .ok b → ∀ bytes, encodeBlock crc b = .ok bytes →
      bytes = src) := by
  constructor
  · intro blockLimit w recs hnew henc bytes hbytes
    have hok := isOk_writeEach_new hnew henc
    have hs := storable_written hnew hok
    have hblock : (w.writeEach recs).2.intoBlock.1 = blockOf (w.written recs) := by
      rw [(writeEach_new hnew hok).1]
      rfl
    rw [hblock] at hbytes ⊢
    obtain ⟨rfl, -, hlen, -⟩ := encodeBlock_eq_ok hbytes
    rw [show (blockOf (w.written recs)).offsets.length = (w.written recs).length from
      length_offsetsFrom 0 _] at hlen
    exact ⟨decodeBlock_blockOf crc hs hlen, _, seekToFirst_blockOf hs,
      shows_cursorAt hs (n := (w.written recs).length) (j := 0) (by omega)⟩
  · intro src b hdecode bytes hbytes
    rw [(encodeBlock_eq_ok hbytes).1]
    exact (decodeBlock_eq_ok hdecode).1.symm

/-- A writer after three records, which all fit. -/
def threeWritten : BlockWriter :=
  ((writerOf defaultBlockSize []).writeEach [zeros 1 2, zeros 2 5, zeros 4 3]).2

/-- The bytes of its block. -/
theorem block_round_trip_three : ∃ bytes,
    encodeBlock (fun _ => 0) threeWritten.intoBlock.1 = .ok bytes ∧
    decodeBlock (fun _ => 0) bytes = .ok threeWritten.intoBlock.1 ∧
    (∃ c, (BlockCursor.new threeWritten.intoBlock.1).seekToFirst = some c ∧
      Shows c [zeros 1 2, zeros 2 5, zeros 4 3]) ∧
    ∀ bytes', encodeBlock (fun _ => 0) threeWritten.intoBlock.1 = .ok bytes' → bytes' = bytes := by
  obtain ⟨bytes, hbytes⟩ := Outcome.isOk_iff.mp
    (show (encodeBlock (fun _ => 0) threeWritten.intoBlock.1).isOk = true by decide +kernel)
  have henc : ∀ r ∈ [zeros 1 2, zeros 2 5, zeros 4 3], Encodable r := by decide
  obtain ⟨hwritten, hdecoded⟩ := block_round_trip fun _ => 0
  obtain ⟨hdecode, hshows⟩ := hwritten none _ _ rfl henc bytes hbytes
  exact ⟨bytes, hbytes, hdecode, hshows, hdecoded bytes _ hdecode⟩

/-! ## Searching -/

theorem written_sublist : ∀ (recs : List Record) (w : BlockWriter), (w.written recs).Sublist recs
  | [], _ => .refl _
  | r :: recs, w => by
    rw [BlockWriter.written]
    rcases w.write r with ⟨_ | ⟨⟨⟩⟩, w'⟩
    · exact (written_sublist recs w').cons r
    · exact (written_sublist recs w').cons_cons r
    · exact (written_sublist recs w').cons r

/-- A search in the block of a writer, after writes none of which is an error,
of records in ascending order: from any state the cursor goes to the least key
that is not below the one sought, and shows the records from there on. -/
theorem block_seek {blockLimit : Option Nat} {w : BlockWriter} {recs : List Record}
    (hnew : BlockWriter.new blockLimit = .ok w)
    (hok : ∀ out ∈ (w.writeEach recs).1, out.isOk = true)
    (hasc : recs.Pairwise fun a b => a.key < b.key) {c : BlockCursor}
    (hc : c.block = (w.writeEach recs).2.intoBlock.1) (k : Key) :
    ∃ c' found, c.seek k = some c' ∧ c'.record = .ok found ∧ Least k (w.written recs) found ∧
      Shows c' ((w.written recs).filter fun r => k ≤ r.key) := by
  have hs := storable_written hnew hok
  have hasc := hasc.sublist (written_sublist recs w)
  rw [(writeEach_new hnew hok).1] at hc
  obtain ⟨j, hseek, hbefore, hafter⟩ := seek_blockOf hs hasc hc k
  refine ⟨_, _, hseek, rfl, least_getElem? hbefore hafter hasc, ?_⟩
  rw [filter_ge_eq_drop hbefore hafter]
  exact shows_cursorAt hs (n := (w.written recs).length) (by omega)

theorem block_seek_between : ∃ c' found,
    (BlockCursor.new ((writerOf defaultBlockSize []).writeEach
      [zeros 1 2, zeros 3 2]).2.intoBlock.1).seek ⟨1, 2, 0, 0⟩ = some c' ∧
    c'.record = .ok found ∧ Least ⟨1, 2, 0, 0⟩ [zeros 1 2, zeros 3 2] found ∧
    Shows c' [zeros 3 2] := by
  have hok : ∀ out ∈ ((writerOf defaultBlockSize []).writeEach [zeros 1 2, zeros 3 2]).1,
      out.isOk = true := isOk_writeEach (by decide)
  have hasc : [zeros 1 2, zeros 3 2].Pairwise fun a b => a.key < b.key := by decide
  have hnew : BlockWriter.new none = .ok (writerOf defaultBlockSize []) := rfl
  exact block_seek hnew hok hasc (c := BlockCursor.new _) rfl ⟨1, 2, 0, 0⟩

end LG.Proof.Tsdb
