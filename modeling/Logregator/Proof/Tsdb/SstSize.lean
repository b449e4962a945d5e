import Logregator.Proof.Tsdb.SstFile
import Logregator.Proof.Tsdb.SstWriter

/-!
# How large a table's file gets

A writer refuses blocks when those it has written reach `MAX_SST_SIZE`; the
metadata, the bloom filter and the footer come on top. `finalized_sizes` counts
the bytes of a finished table from its records and the number of its blocks,
and `sst_size_iff` says when they are within the limit of `open_file_handle`.
Forty million short records with a block each are over it, and over the range
of the offsets in the footer (`sst_size_overflows`).
-/

namespace LG.Proof.Tsdb

open LG.Impl.Tsdb LG.Impl.Tsdb.HashedWriterState LG.Spec.Tsdb

/-! ## Sizes -/

/-- The bytes of the blocks of a table: the records with an offset each, and
for every block its count and checksum. -/
def blocksSize (limit : Nat) (recs : List Record) : Nat :=
  size recs + recs.length * szU16 + (pack limit recs).length * (szU16 + szU32)

/-- The bytes of the metadata of so many blocks. -/
def metasSize (n : Nat) : Nat := szU32 + n * blockMetaSize + szU32

/-- The bytes of the filter for so many records. -/
def bloomFilterSize (x : Externals) (n : Nat) : Nat := 8 + 8 + 4 + ((x.bloomSize n).1.toNat + 7) / 8

/-- The bytes of a table's file. -/
def fileSize (x : Externals) (limit : Nat) (recs : List Record) : Nat :=
  blocksSize limit recs + metasSize (pack limit recs).length + bloomFilterSize x recs.length +
    sstFooterSize

/-- At the end of `finalize`: the file is no larger than `open_file_handle`
accepts, and the sum of `block_meta_start` and the length of the metadata is a
`u32`. -/
def FileFits (x : Externals) (st : HashedWriterState) : Prop :=
  ∃ metas, encodeMetas x.crc st.blockMeta = .ok metas ∧
    st.blockBytesWritten + metas.length + st.bloom.wireLen + sstFooterSize ≤ maxSstSize ∧
    st.blockBytesWritten % 2 ^ 32 + metas.length % 2 ^ 32 < 2 ^ 32

theorem length_blocks (crc : List UInt8 → UInt32) : ∀ blocks : List (List Record),
    (blocks.flatMap (encoded crc)).length =
      size blocks.flatten + blocks.flatten.length * szU16 + blocks.length * (szU16 + szU32)
  | [] => rfl
  | b :: bs => by
    rw [List.flatMap_cons, List.length_append, length_blocks crc bs, length_encoded, blockSize]
    simp only [List.flatten_cons, size_append, List.length_append, List.length_cons, szU16, szU32]
    omega

theorem size_pos {rs : List Record} (h : rs ≠ []) : 0 < size rs := by
  obtain ⟨r, rs, rfl⟩ := List.exists_cons_of_ne_nil h
  rw [size_cons, wireLen_eq]
  omega

section

variable {x : Externals} {limit : Nat} {done : List (List Record)} {cur : List Record}
  {st st' : HashedWriterState}

/-- `finalize` writes out a block that has records. -/
theorem finalize_flushes (hw : Wrote x limit done cur st) (hne : cur ≠ [])
    (h : finalize x st = (.ok (), st')) : flushBlocks x st = (.ok (), st') := by
  have hsize : 0 < st.blockWriter.size := by
    rw [hw.blockWriter]
    exact size_pos hne
  rw [finalize, Action.get_bind, if_pos hsize] at h
  obtain ⟨⟨⟩, t, hflush, h⟩ := Action.bind_eq_ok.mp h
  rwa [(Action.guard_eq_ok.mp h).2]

theorem bloom_flushBlocks (h : flushBlocks x st = (.ok (), st')) : st'.bloom = st.bloom := by
  have hbloom := flushBlocks_bloom x st
  rwa [h] at hbloom

/-- Writing keeps the size of the filter. -/
theorem length_bitmap_writeAll {recs : List Record} (h : writeAll x recs st = (.ok (), st')) :
    st'.bloom.bitmap.length = st.bloom.bitmap.length :=
  writeAll_keeps (P := fun t => t.bloom.bitmap.length = st.bloom.bitmap.length)
    (fun ht => ht) (fun ht hinsert => (size_insert hinsert).2.trans ht)
    (fun ht hflush => bloom_flushBlocks hflush ▸ ht) rfl h

/-- The sizes of a finished table. -/
theorem finalized_sizes {blockLimit : Option Nat} {count : Nat} {recs : List Record}
    {st₀ : HashedWriterState} (hnew : HashedWriterState.new x blockLimit count = .ok st₀)
    (hne : recs ≠ []) (hrun : writeAll x recs st₀ = (.ok (), st))
    (hfin : finalize x st = (.ok (), st')) :
    st'.blockBytesWritten = blocksSize (blockLimit.getD defaultBlockSize) recs ∧
    st'.blockMeta.length = (pack (blockLimit.getD defaultBlockSize) recs).length ∧
    st'.bloom.wireLen = bloomFilterSize x count := by
  have hw := writeAll_wrote (p := ([], [])) (wrote_new hnew) hrun
  have hflush := finalize_flushes hw (foldl_place_ne_nil _ hne _) hfin
  have hw' := (flushBlocks_wrote hw hflush).2
  refine ⟨?_, hw'.metas.length_eq, ?_⟩
  · rw [hw'.written, hw'.writer, length_blocks, ← pack, flatten_pack, blocksSize]
  · obtain ⟨w, -, rfl⟩ := writerNew_eq_ok hnew
    rw [BloomFilter.wireLen, bloom_flushBlocks hflush, length_bitmap_writeAll hrun,
      length_bitmap_new, bloomFilterSize]

/-- The file fits just when its size does: the sum in `u32` is smaller. -/
theorem fileFits_iff (x : Externals) (st : HashedWriterState) :
    FileFits x st ↔
      st.blockBytesWritten + metasSize st.blockMeta.length + st.bloom.wireLen + sstFooterSize ≤
        maxSstSize := by
  have hmax : maxSstSize < 2 ^ 32 := by decide
  have hlen : (metaSegment x.crc st.blockMeta).length = metasSize st.blockMeta.length :=
    length_metaSegment x.crc st.blockMeta
  constructor
  · rintro ⟨metas, hmetas, hfits, -⟩
    rw [encodeMetas_eq] at hmetas
    cases hmetas
    rwa [hlen] at hfits
  · intro hfits
    refine ⟨_, encodeMetas_eq x.crc st.blockMeta, by rwa [hlen], ?_⟩
    rw [hlen, Nat.mod_eq_of_lt (by omega), Nat.mod_eq_of_lt (by omega)]
    omega

end

/-! ## Progress -/

section

variable {x : Externals} {limit : Nat} {done : List (List Record)} {cur : List Record}
  {st : HashedWriterState}

/-- A block with records that fits the table and can be encoded is written
out. -/
theorem exists_flushBlocks (hw : Wrote x limit done cur st) (hne : cur ≠ [])
    (hlimit : limit ≤ maxBlockSize) (hblock : blockSize cur ≤ maxBlockSize)
    (hsize : size cur ≤ u16Max - minRecordWireLength)
    (hmax : st.blockBytesWritten + (encoded x.crc cur).length < maxSstSize) :
    ∃ st', flushBlocks x st = (.ok (), st') := by
  have hlen : size cur ≤ (encoded x.crc cur).length := by
    rw [length_encoded, blockSize]
    omega
  have hencode : encodeBlock x.crc (blockOf cur) = .ok (encoded x.crc cur) := by
    rw [encodeBlock_blockOf x.crc hne hblock, if_neg (by omega)]
  obtain ⟨first, last, hinto⟩ : ∃ first last,
      st.blockWriter.intoBlock = (blockOf cur, some first, some last) := by
    rw [hw.blockWriter]
    obtain ⟨r, rs, rfl⟩ := List.exists_cons_of_ne_nil hne
    refine ⟨r.key, ((r :: rs).getLast hne).key, ?_⟩
    rw [BlockWriter.intoBlock, writerOf, List.getLast?_eq_some_getLast hne]
    rfl
  have hnew : BlockWriter.new (some st.blockLimit) = .ok (BlockWriter.withLimit st.blockLimit) := by
    rw [hw.blockLimit]
    exact if_neg (not_lt.mpr hlimit)
  have hsum : ¬ maxSstSize < st.blockBytesWritten + st.blockWriter.size := by
    rw [hw.blockWriter, show (writerOf limit cur).size = size cur from rfl]
    omega
  rw [flushBlocks, Action.get_bind, if_neg (by omega)]
  simp only [if_neg hsum, hnew, hinto, hencode, Outcome.ofExcept_ok, Outcome.mapErr,
    Action.lift_ok_bind, Action.modify_bind, Outcome.expect_some]
  exact ⟨_, rfl⟩

/-- A `finalize` that writes out its last block. -/
theorem finalize_of_flush {st st' : HashedWriterState} (hsize : 0 < st.blockWriter.size)
    (h : flushBlocks x st = (.ok (), st')) : finalize x st = (.ok (), st') := by
  have hkeys : ¬ (st'.firstKey.isNone ∨ st'.lastKey.isNone) := by
    obtain ⟨-, bytes, first, last, -, -, -, rfl⟩ := flushBlocks_eq_ok h
    cases st.firstKey <;> simp
  rw [finalize, Action.get_bind, if_pos hsize]
  exact Action.bind_eq_ok.mpr ⟨(), st', h, Action.guard_eq_ok.mpr ⟨hkeys, rfl⟩⟩

/-- A record joins the current block. -/
theorem exists_writeNested {r : Record} (hw : Wrote x limit done cur st) (hbloom : Roomy st.bloom)
    (hr : Encodable r) (hfull : ¬ Full limit cur r) (hmax : st.blockBytesWritten < maxSstSize)
    (depth : Nat) : ∃ st', writeNested x (depth + 1) r st = (.ok (), st') ∧ Roomy st'.bloom := by
  obtain ⟨bloom, hinsert, hroomy⟩ := insert_roomy x hbloom r.key.streamId
  have hout : st.blockWriter.write r = (.ok .written, writerOf limit (cur ++ [r])) := by
    rw [hw.blockWriter, write_writerOf, if_neg hfull, if_pos hr]
  refine ⟨{ st with blockWriter := writerOf limit (cur ++ [r]), bloom := bloom }, ?_, hroomy⟩
  rw [writeNested, Action.get_bind, if_neg (not_le.mpr hmax)]
  simp only [hout, Action.modify_bind, hinsert, Outcome.expect_some, Action.lift_ok_bind]
  rfl

/-- A record that the current block is full for goes to the next one. -/
theorem exists_write_full {r : Record} (hw : Wrote x limit done cur st) (hbloom : Roomy st.bloom)
    (hr : Encodable r) (hfull : Full limit cur r) (hne : cur ≠ []) (hlimit : limit ≤ maxBlockSize)
    (hblock : blockSize cur ≤ maxBlockSize) (hsize : size cur ≤ u16Max - minRecordWireLength)
    (hmax : st.blockBytesWritten + (encoded x.crc cur).length < maxSstSize) :
    ∃ st', write x r st = (.ok (), st') ∧ Roomy st'.bloom := by
  obtain ⟨t, ht⟩ := exists_flushBlocks hw hne hlimit hblock hsize hmax
  have hwt := (flushBlocks_wrote hw ht).2
  have hout : st.blockWriter.write r = (.ok .full, st.blockWriter) := by
    rw [hw.blockWriter, write_writerOf, if_pos hfull]
  have hrec : Recurses x r st t := by
    refine ⟨by omega, by rw [hout], ?_⟩
    rw [hout]
    exact ht
  have halone : ¬ Full limit [] r := by
    have hwire := hr.wireLen_mem.2
    rw [not_full_iff, List.nil_append]
    refine ⟨.inl rfl, ?_⟩
    simp only [blockSize, size_cons, size_nil, List.length_singleton, maxRecordWireLength, keySize,
      szU32, maxPayloadLength, szU16, maxBlockSize, u16Max] at hwire ⊢
    omega
  have hwritten : t.blockBytesWritten < maxSstSize := by
    rw [hw.written, hw.writer] at hmax
    rw [hwt.written, hwt.writer, List.flatMap_append, List.length_append, List.flatMap_singleton]
    exact hmax
  rw [write, writeNested_of_recurses hrec]
  exact exists_writeNested hwt (bloom_flushBlocks ht ▸ hbloom) hr halone hwritten 0

end

/-! ## A block for each record -/

/-- A record of stream 1 at time `i`. -/
def tick (i : Nat) : Record := shortRecord 1 (UInt64.ofNat i)

/-- The records at the first `n` times. -/
def ticks (n : Nat) : List Record := (List.range n).map tick

theorem wireLen_tick (i : Nat) : (tick i).wireLen = 38 := rfl

theorem encodable_tick (i : Nat) : Encodable (tick i) :=
  show minPayloadLength ≤ 2 ∧ 2 ≤ maxPayloadLength by decide

/-- A block with a record has no room for another, at the limit 0. -/
theorem full_tick (i j : Nat) : Full 0 [tick i] (tick j) :=
  .inl ⟨List.cons_ne_nil _ _, by rw [sizeWith, szU16]; omega⟩

theorem ticks_succ (n : Nat) : ticks (n + 1) = ticks n ++ [tick n] := by
  rw [ticks, List.range_succ, List.map_append]
  rfl

theorem length_ticks (n : Nat) : (ticks n).length = n := by
  rw [ticks, List.length_map, List.length_range]

theorem size_ticks : ∀ n, size (ticks n) = 38 * n
  | 0 => rfl
  | n + 1 => by
    rw [ticks_succ, size_append, size_ticks n, size_cons, size_nil, wireLen_tick]
    omega

/-- Without room for a second record, every record has its own block. -/
theorem foldl_place_ticks : ∀ n, (ticks (n + 1)).foldl (place 0) ([], []) =
    ((ticks n).map fun r => [r], [tick n])
  | 0 => by decide +kernel
  | n + 1 => by
    rw [ticks_succ, List.foldl_append, foldl_place_ticks n, List.foldl_cons, List.foldl_nil, place,
      if_pos (full_tick n (n + 1)), ticks_succ, List.map_append]
    rfl

theorem length_pack_ticks {n : Nat} (hn : 0 < n) : (pack 0 (ticks n)).length = n := by
  obtain ⟨n, rfl⟩ := Nat.exists_eq_add_of_lt hn
  rw [Nat.zero_add, pack, foldl_place_ticks, List.length_append, List.length_map, length_ticks]
  rfl

section

variable {x : Externals} {count : Nat} {st₀ : HashedWriterState}
  (hnew : HashedWriterState.new x (some 0) count = .ok st₀) (hbits : (x.bloomSize count).1 ≠ 0)
include hnew

theorem wrote_ticks {n : Nat} {st : HashedWriterState}
    (h : writeAll x (ticks (n + 1)) st₀ = (.ok (), st)) :
    Wrote x 0 ((ticks n).map fun r => [r]) [tick n] st ∧ st.blockBytesWritten = 46 * n := by
  have hw := writeAll_wrote (p := ([], [])) (wrote_new hnew) h
  rw [Option.getD_some, foldl_place_ticks] at hw
  have hflat : ((ticks n).map fun r => [r]).flatten = ticks n := by
    rw [← List.flatMap_def, List.flatMap_singleton']
  refine ⟨hw, ?_⟩
  rw [hw.written, hw.writer, length_blocks, hflat, size_ticks, length_ticks, List.length_map,
    length_ticks, szU16, szU32]
  omega

include hbits

/-- The blocks of so many records can be written. -/
theorem exists_writeAll_ticks : ∀ n, 46 * n < maxSstSize →
    ∃ st, writeAll x (ticks (n + 1)) st₀ = (.ok (), st) ∧ Roomy st.bloom
  | 0, _ => by
    have hw := wrote_new hnew
    obtain ⟨w, -, rfl⟩ := writerNew_eq_ok hnew
    obtain ⟨st, hst, hroomy⟩ := exists_writeNested hw (roomy_new hbits) (encodable_tick 0)
      (by decide) (show 0 < maxSstSize by decide) 1
    exact ⟨st, Action.bind_eq_ok.mpr ⟨(), st, hst, rfl⟩, hroomy⟩
  | n + 1, hn => by
    obtain ⟨st, hst, hroomy⟩ := exists_writeAll_ticks n (by omega)
    obtain ⟨hw, hbytes⟩ := wrote_ticks hnew hst
    have hlen : (encoded x.crc [tick n]).length = 46 := length_encoded x.crc [tick n]
    obtain ⟨st', hst', hroomy'⟩ := exists_write_full hw hroomy (encodable_tick (n + 1))
      (full_tick n (n + 1)) (List.cons_ne_nil _ _) (Nat.zero_le _)
      (show 42 ≤ maxBlockSize by decide) (show 38 ≤ u16Max - minRecordWireLength by decide)
      (by rw [hbytes, hlen]; omega)
    rw [ticks_succ]
    exact ⟨st', writeAll_concat hst' hst, hroomy'⟩

/-- A table of so many records, each in its own block, is finished. -/
theorem exists_finalize_ticks {n : Nat} (hn : 0 < n) (hmax : 46 * n < maxSstSize) :
    ∃ st st', writeAll x (ticks n) st₀ = (.ok (), st) ∧ finalize x st = (.ok (), st') := by
  obtain ⟨n, rfl⟩ := Nat.exists_eq_add_of_lt hn
  rw [Nat.zero_add] at hmax ⊢
  obtain ⟨st, hst, -⟩ := exists_writeAll_ticks hnew hbits n (by omega)
  obtain ⟨hw, hbytes⟩ := wrote_ticks hnew hst
  have hlen : (encoded x.crc [tick n]).length = 46 := length_encoded x.crc [tick n]
  obtain ⟨st', hst'⟩ := exists_flushBlocks hw (List.cons_ne_nil _ _) (Nat.zero_le _)
    (show 42 ≤ maxBlockSize by decide) (show 38 ≤ u16Max - minRecordWireLength by decide)
    (by rw [hbytes, hlen]; omega)
  have hsize : 0 < st.blockWriter.size := by
    rw [hw.blockWriter]
    exact size_pos (List.cons_ne_nil _ _)
  exact ⟨st, st', hst, finalize_of_flush hsize hst'⟩

end

/-! ## Within the limit -/

/-- A table of any records that the writer accepts, with a filter for their
number: its file fits just when the records, six bytes and the metadata for
every block, the filter and the footer do. -/
theorem sst_size_iff {x : Externals} {blockLimit : Option Nat} {recs : List Record}
    {st₀ st st' : HashedWriterState}
    (hnew : HashedWriterState.new x blockLimit recs.length = .ok st₀) (hne : recs ≠ [])
    (hrun : writeAll x recs st₀ = (.ok (), st)) (hfin : finalize x st = (.ok (), st')) :
    FileFits x st' ↔ fileSize x (blockLimit.getD defaultBlockSize) recs ≤ maxSstSize := by
  obtain ⟨hblocks, hmetas, hbloom⟩ := finalized_sizes hnew hne hrun hfin
  rw [fileFits_iff, hblocks, hmetas, hbloom, fileSize]

/-- A table of three records, each in a block of its own. -/
theorem sst_size_iff_three :
    ∃ st₀ st st', HashedWriterState.new zeroHashes (some 0) (ticks 3).length = .ok st₀ ∧
      writeAll zeroHashes (ticks 3) st₀ = (.ok (), st) ∧ finalize zeroHashes st = (.ok (), st') ∧
      (FileFits zeroHashes st' ↔ fileSize zeroHashes 0 (ticks 3) ≤ maxSstSize) := by
  obtain ⟨st₀, hnew⟩ : ∃ st₀,
      HashedWriterState.new zeroHashes (some 0) (ticks 3).length = .ok st₀ := ⟨_, rfl⟩
  obtain ⟨st, st', hrun, hfin⟩ := exists_finalize_ticks hnew (by decide) (n := 3) (by decide)
    (by decide)
  have hfits := sst_size_iff hnew (List.cons_ne_nil _ _) hrun hfin
  rw [Option.getD_some] at hfits
  exact ⟨st₀, st, st', hnew, hrun, hfin, hfits⟩

/-- The 64-bit FNV-1a hash. -/
def fnv1a (bs : List UInt8) : UInt64 :=
  bs.foldl (fun hash b => (hash ^^^ b.toUInt64) * 0x100000001b3) 0xcbf29ce484222325

example : fnv1a "a".toUTF8.toList = 0xaf63dc4c8601ec8c := by decide +kernel

/-- The hashes of the repository, and the filter that it makes for forty
million records. -/
def tickHashes : Externals :=
  { crc := crc32, fnv := fnv1a, bloomSize := fun _ => (383402336, 6) }

/-- Forty million records of 38 bytes at the block limit 0: their blocks are
written and the table is finished, but its file is larger than
`open_file_handle` accepts, and the start of the filter is not a `u32`. -/
theorem sst_size_overflows :
    ∃ st₀ st st' metas,
      HashedWriterState.new tickHashes (some 0) (ticks 40000000).length = .ok st₀ ∧
      writeAll tickHashes (ticks 40000000) st₀ = (.ok (), st) ∧
      finalize tickHashes st = (.ok (), st') ∧
      encodeMetas tickHashes.crc st'.blockMeta = .ok metas ∧
      maxSstSize < st'.blockBytesWritten + metas.length + st'.bloom.wireLen + sstFooterSize ∧
      2 ^ 32 ≤ st'.blockBytesWritten % 2 ^ 32 + metas.length % 2 ^ 32 := by
  obtain ⟨st₀, hnew⟩ : ∃ st₀,
      HashedWriterState.new tickHashes (some 0) (ticks 40000000).length = .ok st₀ := ⟨_, rfl⟩
  have hbits : (tickHashes.bloomSize (ticks 40000000).length).1 ≠ 0 :=
    show (383402336 : UInt64) ≠ 0 by decide
  obtain ⟨st, st', hrun, hfin⟩ := exists_finalize_ticks hnew hbits (n := 40000000) (by decide)
    (by decide)
  have hne : ticks 40000000 ≠ [] := by
    rw [← List.length_pos_iff, length_ticks]
    decide
  obtain ⟨hblocks, hmetas, hbloomSize⟩ := finalized_sizes hnew hne hrun hfin
  have hpack : (pack 0 (ticks 40000000)).length = 40000000 := length_pack_ticks (by decide)
  rw [Option.getD_some] at hblocks hmetas
  rw [blocksSize, size_ticks, length_ticks, hpack] at hblocks
  rw [hpack] at hmetas
  refine ⟨st₀, st, st', _, hnew, hrun, hfin, encodeMetas_eq _ _, ?_, ?_⟩
  · rw [hblocks, length_metaSegment, hmetas]
    simp only [szU16, szU32, blockMetaSize, keySize, maxSstSize]
    omega
  · rw [hblocks, length_metaSegment, hmetas]
    decide

end LG.Proof.Tsdb
