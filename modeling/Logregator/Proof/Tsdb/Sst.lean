import Logregator.Proof.Tsdb.Block
import Logregator.Proof.Tsdb.Bloom

/-!
# What the SST writer writes

`Wrote` is the invariant of the writer state: the blocks written out, the
records of the current block, their metadata and the bloom filter. A
successful `write` places one record as `pack` does (`write_wrote`), so a
finished run leaves a table that holds `pack limit recs`
(`stored_writeBlocks`): each block can be read back, with its first and last
key, and the filter knows every stream.
-/

namespace LG.Proof.Tsdb

open LG.Impl.Tsdb LG.Impl.Tsdb.HashedWriterState LG.Spec.Tsdb

/-- The metadata of a block. -/
structure MetaOf (m : BlockMetadata) (b : List Record) : Prop where
  first : b.head?.map Record.key = some m.firstKey
  last : b.getLast?.map Record.key = some m.lastKey

/-- The handle reads back the blocks. -/
structure Stored (x : Externals) (h : SstHandle) (blocks : List (List Record)) : Prop where
  nonempty : ∀ b ∈ blocks, b ≠ []
  storable : ∀ b ∈ blocks, Storable b
  metas : List.Forall₂ MetaOf h.blockMetadata blocks
  read : ∀ {i b}, blocks[i]? = some b → h.readBlock x i = .ok (blockOf b)
  bloom : ∀ r ∈ blocks.flatten, h.mayContainStreamId x r.key.streamId = some true

/-- The state after the blocks `done` and the records `cur`. -/
structure Wrote (x : Externals) (limit : Nat) (done : List (List Record)) (cur : List Record)
    (st : HashedWriterState) : Prop where
  writer : st.writer = done.flatMap (encoded x.crc)
  written : st.blockBytesWritten = st.writer.length
  blockWriter : st.blockWriter = writerOf limit cur
  blockLimit : st.blockLimit = limit
  metas : List.Forall₂ MetaOf st.blockMeta done
  offsets : ∀ {i m}, st.blockMeta[i]? = some m →
    m.offset.toNat = ((done.take i).flatMap (encoded x.crc)).length
  nonempty : ∀ b ∈ done, b ≠ []
  storable : ∀ b ∈ done, Storable b ∧ b.length ≤ u16Max
  encodable : ∀ r ∈ cur, Encodable r
  bloom : ∀ r ∈ done.flatten ++ cur, st.bloom.mayContain x r.key.streamId = some true

section Writer

variable {x : Externals} {limit : Nat} {done : List (List Record)} {cur : List Record}
  {st st' : HashedWriterState}

/-- What `new` builds. -/
theorem writerNew_eq_ok {blockLimit : Option Nat} {count : Nat}
    (h : HashedWriterState.new x blockLimit count = .ok st) :
    ∃ w, BlockWriter.new blockLimit = .ok w ∧
      st = { writer := [], blockBytesWritten := 0, blockWriter := w, blockLimit := w.limit
             blockMeta := [], recordCount := 0, firstKey := none, lastKey := none
             bloom := BloomFilter.new x count, hashed := [] } := by
  unfold HashedWriterState.new at h
  cases hn : BlockWriter.new blockLimit with
  | error e =>
    rw [hn] at h
    cases h
  | ok w =>
    rw [hn] at h
    cases h
    exact ⟨w, rfl, rfl⟩

theorem wrote_new {blockLimit : Option Nat} {count : Nat}
    (h : HashedWriterState.new x blockLimit count = .ok st) :
    Wrote x (blockLimit.getD defaultBlockSize) [] [] st := by
  obtain ⟨w, hn, rfl⟩ := writerNew_eq_ok h
  have hw := (new_writerOf hn).1
  exact ⟨rfl, rfl, hw, by rw [hw]; rfl, .nil, by simp, by simp, by simp, by simp, by simp⟩

/-- What a successful `flush_blocks` does. -/
theorem flushBlocks_eq_ok (h : flushBlocks x st = (.ok (), st')) :
    st.blockBytesWritten < maxSstSize ∧
      ∃ bytes first last, encodeBlock x.crc st.blockWriter.intoBlock.1 = .ok bytes ∧
        st.blockWriter.firstKey = some first ∧ st.blockWriter.lastKey = some last ∧
        st' = { st with
          blockWriter := BlockWriter.withLimit st.blockLimit
          writer := st.writer ++ bytes
          hashed := st.hashed ++ bytes
          blockMeta := st.blockMeta ++ [⟨UInt32.ofNat st.blockBytesWritten, first, last⟩]
          blockBytesWritten := st.blockBytesWritten + bytes.length
          recordCount := st.recordCount + st.blockWriter.intoBlock.1.numOfRecords
          firstKey := st.firstKey.or (some first)
          lastKey := some last } := by
  rw [flushBlocks, Action.get_bind] at h
  by_cases h1 : maxSstSize ≤ st.blockBytesWritten
  · rw [if_pos h1] at h
    cases h
  rw [if_neg h1] at h
  simp only at h
  by_cases h2 : maxSstSize < st.blockBytesWritten + st.blockWriter.size
  · rw [if_pos h2] at h
    cases h
  rw [if_neg h2] at h
  obtain ⟨fresh, hfresh, h⟩ := Action.lift_bind_eq_ok.mp h
  rw [Outcome.mapErr_eq_ok, Outcome.ofExcept_eq_ok, BlockWriter.new] at hfresh
  by_cases hl : maxBlockSize < st.blockLimit
  · rw [if_pos hl] at hfresh
    cases hfresh
  rw [if_neg hl] at hfresh
  cases hfresh
  rw [Action.modify_bind] at h
  obtain ⟨bytes, hbytes, h⟩ := Action.lift_bind_eq_ok.mp h
  rw [Outcome.mapErr_eq_ok] at hbytes
  rw [Action.modify_bind] at h
  obtain ⟨first, hfirst, h⟩ := Action.lift_bind_eq_ok.mp h
  obtain ⟨last, hlast, h⟩ := Action.lift_bind_eq_ok.mp h
  rw [Outcome.expect_eq_ok] at hfirst hlast
  rw [Action.modify_apply] at h
  cases h
  exact ⟨by omega, bytes, first, last, hbytes, hfirst, hlast, rfl⟩

/-- The filter of a state. -/
def HasBloom (f : BloomFilter) (st : HashedWriterState) : Prop := st.bloom = f

/-- Writing a block out leaves the filter alone, also when it fails. -/
theorem flushBlocks_bloom (x : Externals) (st : HashedWriterState) :
    HasBloom st.bloom (flushBlocks x st).2 := by
  rw [flushBlocks, Action.get_bind]
  split
  · rfl
  dsimp only
  split
  · rfl
  refine Action.lift_bind_leaves (fun fresh _ => ?_) rfl
  rw [Action.modify_bind]
  refine Action.lift_bind_leaves (fun bytes _ => ?_) rfl
  rw [Action.modify_bind]
  refine Action.lift_bind_leaves (fun first _ => ?_) rfl
  exact Action.lift_bind_leaves (fun last _ => rfl) rfl

theorem flushBlocks_wrote (hw : Wrote x limit done cur st) (h : flushBlocks x st = (.ok (), st')) :
    cur ≠ [] ∧ Wrote x limit (done ++ [cur]) [] st' := by
  obtain ⟨hmax, bytes, first, last, hbytes, hfirst, hlast, rfl⟩ := flushBlocks_eq_ok h
  rw [hw.blockWriter] at hbytes hfirst hlast
  obtain ⟨hbytes, hne, hlen, hdata⟩ := encodeBlock_eq_ok hbytes
  have hbytes : bytes = encoded x.crc cur := hbytes
  have hne : cur ≠ [] := by
    rintro rfl
    exact hne rfl
  have hlen : cur.length ≤ u16Max := (length_offsetsFrom 0 cur).symm.trans_le hlen
  have hfits : size cur ≤ u16Max := (length_flatMap_wire cur).symm.trans_le hdata
  have hmetas := hw.metas.length_eq
  have hoffset : (UInt32.ofNat st.blockBytesWritten).toNat = st.blockBytesWritten := by
    unfold maxSstSize at hmax
    rw [UInt32.toNat_ofNat', Nat.mod_eq_of_lt (by omega)]
  refine ⟨hne, ?_⟩
  refine
    { writer := by simp [hw.writer, hbytes]
      written := by simp [hw.written]
      blockWriter := by rw [hw.blockLimit]; rfl
      blockLimit := hw.blockLimit
      metas := List.rel_append hw.metas (.cons ⟨hfirst, hlast⟩ .nil)
      offsets := fun {i m} hi => ?_
      nonempty := fun b hb => ?_
      storable := fun b hb => ?_
      encodable := by simp
      bloom := by simpa using hw.bloom }
  · rcases Nat.lt_or_ge i st.blockMeta.length with hlt | hge
    · rw [List.getElem?_append_left hlt] at hi
      rw [List.take_append_of_le_length (by omega)]
      exact hw.offsets hi
    · have hlt := (List.getElem?_eq_some_iff.mp hi).1
      rw [List.length_append, List.length_singleton] at hlt
      obtain rfl : i = st.blockMeta.length := by omega
      rw [List.getElem?_concat_length] at hi
      cases hi
      rw [hoffset, hmetas, List.take_left, hw.written, hw.writer]
  · rcases List.mem_append.mp hb with hb | hb
    · exact hw.nonempty b hb
    · rwa [List.mem_singleton.mp hb]
  · rcases List.mem_append.mp hb with hb | hb
    · exact hw.storable b hb
    · rw [List.mem_singleton.mp hb]
      exact ⟨⟨hw.encodable, hfits⟩, hlen⟩

/-- What a successful `write` does to any state. -/
theorem writeNested_cases {depth : Nat} {r : Record}
    (h : writeNested x (depth + 1) r st = (.ok (), st')) :
    (∃ bloom, (st.blockWriter.write r).1 = .ok .written ∧
      st.bloom.insert x r.key.streamId = some bloom ∧
      st' = { st with blockWriter := (st.blockWriter.write r).2, bloom := bloom }) ∨
    (∃ t, (st.blockWriter.write r).1 = .ok .full ∧
      flushBlocks x { st with blockWriter := (st.blockWriter.write r).2 } = (.ok (), t) ∧
      writeNested x depth r t = (.ok (), st')) := by
  rw [writeNested, Action.get_bind] at h
  by_cases h1 : maxSstSize ≤ st.blockBytesWritten
  · rw [if_pos h1] at h
    cases h
  rcases hout : st.blockWriter.write r with ⟨out, blockWriter⟩
  simp only [if_neg h1, hout, Action.modify_bind] at h
  rcases out with e | ⟨⟨⟩⟩
  · cases h
  · obtain ⟨bloom, hbloom, h⟩ := Action.lift_bind_eq_ok.mp h
    rw [Outcome.expect_eq_ok] at hbloom
    cases h
    exact .inl ⟨bloom, rfl, hbloom, rfl⟩
  · obtain ⟨⟨⟩, t, hflush, h⟩ := Action.bind_eq_ok.mp h
    exact .inr ⟨t, rfl, hflush, h⟩

/-- What a successful `write` does: the record fits the current block, or the
block is written out and the record is written again. -/
theorem writeNested_eq_ok {depth : Nat} {r : Record} (hw : Wrote x limit done cur st)
    (h : writeNested x (depth + 1) r st = (.ok (), st')) :
    (¬ Full limit cur r ∧ Wrote x limit done (cur ++ [r]) st') ∨
      (Full limit cur r ∧ ∃ t, flushBlocks x st = (.ok (), t) ∧
        writeNested x depth r t = (.ok (), st')) := by
  have hwrite := write_writerOf limit cur r
  rw [← hw.blockWriter] at hwrite
  by_cases hf : Full limit cur r
  · rw [if_pos hf] at hwrite
    rcases writeNested_cases h with ⟨bloom, hout, -⟩ | ⟨t, -, hflush, h⟩
    · rw [hwrite] at hout
      cases hout
    · rw [hwrite] at hflush
      exact .inr ⟨hf, t, hflush, h⟩
  rw [if_neg hf] at hwrite
  by_cases hr : Encodable r
  · rw [if_pos hr] at hwrite
    rcases writeNested_cases h with ⟨bloom, -, hbloom, rfl⟩ | ⟨t, hout, -⟩
    · rw [hwrite]
      refine .inl ⟨hf, { hw with blockWriter := rfl, encodable := ?_, bloom := ?_ }⟩
      · simpa [or_imp, forall_and] using ⟨hw.encodable, hr⟩
      · intro q hq
        rw [← List.append_assoc, List.mem_append, List.mem_singleton] at hq
        apply mayContain_insert hbloom _
        rcases hq with hq | rfl
        · exact .inr (hw.bloom q hq)
        · exact .inl rfl
    · rw [hwrite] at hout
      cases hout
  · -- A record that cannot be encoded is refused.
    rw [if_neg hr] at hwrite
    rcases writeNested_cases h with ⟨_, hout, -⟩ | ⟨_, hout, -⟩
    · rw [hwrite] at hout
      cases hout
    · rw [hwrite] at hout
      cases hout

/-- A successful write places the record. -/
theorem write_wrote {r : Record} (hw : Wrote x limit done cur st)
    (h : write x r st = (.ok (), st')) :
    Wrote x limit (place limit (done, cur) r).1 (place limit (done, cur) r).2 st' := by
  rw [place]
  rcases writeNested_eq_ok hw h with ⟨hf, hw'⟩ | ⟨hf, t, hflush, h⟩
  · rwa [if_neg hf]
  · obtain ⟨-, hw⟩ := flushBlocks_wrote hw hflush
    rw [if_pos hf]
    rcases writeNested_eq_ok hw h with ⟨-, hw'⟩ | ⟨-, t', hflush, -⟩
    · exact hw'
    -- A fresh block that is full would be written out empty.
    · exact absurd rfl (flushBlocks_wrote hw hflush).1

/-- Successful writes place the records one after the other. -/
theorem writeAll_wrote : ∀ {recs : List Record} {p : List (List Record) × List Record}
    {st : HashedWriterState}, Wrote x limit p.1 p.2 st → writeAll x recs st = (.ok (), st') →
    Wrote x limit (recs.foldl (place limit) p).1 (recs.foldl (place limit) p).2 st'
  | [], _, _, hw, h => by
    cases h
    exact hw
  | r :: _, p, _, hw, h => by
    obtain ⟨⟨⟩, t, ht, h⟩ := Action.bind_eq_ok.mp h
    exact writeAll_wrote (p := place limit p r) (write_wrote hw ht) h

/-- One more successful write. -/
theorem writeAll_concat {r : Record} {t : HashedWriterState} (ht : write x r t = (.ok (), st')) :
    ∀ {recs : List Record} {st : HashedWriterState}, writeAll x recs st = (.ok (), t) →
      writeAll x (recs ++ [r]) st = (.ok (), st')
  | [], _, h => by
    cases h
    exact Action.bind_eq_ok.mpr ⟨(), st', ht, rfl⟩
  | _ :: _, _, h => by
    obtain ⟨⟨⟩, u, hu, h⟩ := Action.bind_eq_ok.mp h
    exact Action.bind_eq_ok.mpr ⟨(), u, hu, writeAll_concat ht h⟩

section Keeps

variable {P : HashedWriterState → Prop}
  (hblock : ∀ {st w}, P st → P { st with blockWriter := w })
  (hinsert : ∀ {st bloom s}, P st → st.bloom.insert x s = some bloom → P { st with bloom := bloom })
  (hflush : ∀ {st st'}, P st → flushBlocks x st = (.ok (), st') → P st')
include hblock hinsert hflush

/-- What records that join a block and blocks that are written out keep,
successful writes keep. -/
theorem writeNested_keeps {r : Record} : ∀ {depth : Nat} {st : HashedWriterState},
    P st → writeNested x depth r st = (.ok (), st') → P st'
  | 0, _, _, h => by cases h
  | depth + 1, st, hst, h => by
    rcases writeNested_cases h with ⟨bloom, -, hbloom, rfl⟩ | ⟨t, -, ht, h⟩
    · exact hblock (hinsert hst hbloom)
    · exact writeNested_keeps (hflush (hblock hst) ht) h

theorem writeAll_keeps : ∀ {recs : List Record} {st : HashedWriterState},
    P st → writeAll x recs st = (.ok (), st') → P st'
  | [], _, hst, h => by
    cases h
    exact hst
  | r :: _, _, hst, h => by
    obtain ⟨⟨⟩, t, ht, h⟩ := Action.bind_eq_ok.mp h
    exact writeAll_keeps (writeNested_keeps hblock hinsert hflush hst ht) h

end Keeps

/-- A finished run has written the packed blocks. -/
theorem writeBlocks_wrote {blockLimit : Option Nat} {count : Nat} {recs : List Record}
    (h : writeBlocks x blockLimit count recs = .ok st) :
    Wrote x (blockLimit.getD defaultBlockSize)
      (pack (blockLimit.getD defaultBlockSize) recs) [] st := by
  obtain ⟨st₀, h₀, h⟩ := Outcome.bind_eq_ok.mp h
  rw [Outcome.mapErr_eq_ok, Outcome.ofExcept_eq_ok] at h₀
  obtain ⟨⟨⟩, hrun, h⟩ := Outcome.bind_eq_ok.mp h
  cases h
  obtain ⟨⟨⟩, t, ht, hflush⟩ := Action.bind_eq_ok.mp (Prod.ext hrun rfl)
  exact (flushBlocks_wrote (writeAll_wrote (p := ([], [])) (wrote_new h₀) ht) hflush).2

/-- Where a block of a written table ends. -/
theorem blockEnd_handle {blocks : List (List Record)} {i : Nat} {b : List Record}
    (hw : Wrote x limit blocks [] st) (id : UInt64) (tail : List UInt8) (hb : blocks[i]? = some b) :
    (st.handle id tail).blockEnd i = .ok ((blocks.take (i + 1)).flatMap (encoded x.crc)).length := by
  have hlen : st.blockMeta.length = blocks.length := hw.metas.length_eq
  have hi := (List.getElem?_eq_some_iff.mp hb).1
  unfold SstHandle.blockEnd
  simp only [HashedWriterState.handle, hlen]
  by_cases hlast : i = blocks.length - 1
  · rw [if_pos hlast, hw.written, hw.writer, List.take_of_length_le (by omega)]
  · have hm := List.getElem?_eq_getElem (show i + 1 < st.blockMeta.length by omega)
    rw [if_neg hlast, hm, Outcome.expect, Outcome.bind_ok, hw.offsets hm, Outcome.pure_eq]

theorem readBlock_handle {blocks : List (List Record)} {i : Nat} {b : List Record}
    (hw : Wrote x limit blocks [] st) (id : UInt64) (tail : List UInt8) (hb : blocks[i]? = some b) :
    (st.handle id tail).readBlock x i = .ok (blockOf b) := by
  have hlt : i < st.blockMeta.length := by
    rw [hw.metas.length_eq]
    exact (List.getElem?_eq_some_iff.mp hb).1
  have hm := List.getElem?_eq_getElem hlt
  obtain ⟨hs, hn⟩ := hw.storable b (List.mem_of_getElem? hb)
  have hpos := encoded_length_pos x.crc b
  have hslice : slice (st.handle id tail).file ((blocks.take i).flatMap (encoded x.crc)).length
      ((blocks.take (i + 1)).flatMap (encoded x.crc)).length = some (encoded x.crc b) := by
    rw [HashedWriterState.handle, hw.writer, flatMap_around hb, List.append_assoc,
      List.append_assoc]
    exact slice_append rfl (length_flatMap_take_succ hb)
  rw [SstHandle.readBlock, show (st.handle id tail).blockMetadata[i]? = some _ from hm]
  simp only [blockEnd_handle hw id tail hb, Outcome.bind_ok, hw.offsets hm]
  rw [length_flatMap_take_succ hb] at hslice ⊢
  rw [if_neg (by omega), hslice]
  simp only [decodeBlock_blockOf x.crc hs hn, Outcome.ofExcept_ok, Outcome.mapErr]

/-- A finished run leaves a table that holds the packed blocks, whatever
follows them in the file. -/
theorem stored_writeBlocks {blockLimit : Option Nat} {count : Nat} {recs : List Record}
    (h : writeBlocks x blockLimit count recs = .ok st) (id : UInt64) (tail : List UInt8) :
    Stored x (st.handle id tail) (pack (blockLimit.getD defaultBlockSize) recs) := by
  have hw := writeBlocks_wrote h
  exact
    { nonempty := hw.nonempty
      storable := fun b hb => (hw.storable b hb).1
      metas := hw.metas
      read := readBlock_handle hw id tail
      bloom := fun r hr => hw.bloom r (by simpa using hr) }

end Writer

end LG.Proof.Tsdb
