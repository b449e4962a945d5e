import Logregator.Impl.Tsdb.SstFile
import Logregator.Proof.Tsdb.Sst

/-!
# What a table's file holds, and what opening it hashes

The metadata of blocks is read back from where it was written
(`decodeMetas_segment`), and a file is the hashed bytes with their checksum
(`writeFile_layout`). The writer hashes the whole file but the checksum; the
reader hashes nothing of the footer (`withoutFooter_openFileHandle`), so the
two never hash the same bytes.
-/

namespace LG.Proof.Tsdb

open LG.Impl.Tsdb LG.Impl.Tsdb.HashedWriterState LG.Impl.Tsdb.SstHandle LG.Spec.Tsdb

theorem u32_pow : (256 : Nat) ^ 4 = 2 ^ 32 := by decide

theorem ofBe_u32 {n : Nat} (h : n < 2 ^ 32) : ofBe (beBytes 4 n) = n :=
  ofBe_beBytes_of_lt (by rwa [u32_pow])

/-! ## Metadata -/

/-- The bytes of one block's metadata. -/
def metaBytes (m : BlockMetadata) : List UInt8 :=
  beBytes 4 m.offset.toNat ++ (m.firstKey.toBeBytes ++ m.lastKey.toBeBytes)

/-- The number of blocks, and their metadata. -/
def metaBody (metas : List BlockMetadata) : List UInt8 :=
  beBytes 4 metas.length ++ metas.flatMap metaBytes

/-- What `encode_metas` makes. -/
def metaSegment (crc : List UInt8 → UInt32) (metas : List BlockMetadata) : List UInt8 :=
  metaBody metas ++ beBytes 4 (crc (metaBody metas)).toNat

@[simp] theorem length_metaBytes (m : BlockMetadata) : (metaBytes m).length = blockMetaSize := by
  simp [metaBytes, blockMetaSize, szU32, keySize]

@[simp] theorem length_metaBody (metas : List BlockMetadata) :
    (metaBody metas).length = szU32 + metas.length * blockMetaSize := by
  simp [metaBody, szU32]

@[simp] theorem length_metaSegment (crc : List UInt8 → UInt32) (metas : List BlockMetadata) :
    (metaSegment crc metas).length = szU32 + metas.length * blockMetaSize + szU32 := by
  simp [metaSegment, szU32]

theorem encodeMetasLoop_eq : ∀ (metas : List BlockMetadata) {keyBytes : List UInt8}
    (data : List UInt8), keyBytes.length = keySize →
    encodeMetasLoop metas keyBytes data = .ok (data ++ metas.flatMap metaBytes)
  | [], _, data, _ => by simp [encodeMetasLoop]
  | m :: metas, keyBytes, data, h => by
    have hfirst := length_toBeBytes m.firstKey
    have ih := encodeMetasLoop_eq metas
      (data ++ beBytes 4 m.offset.toNat ++ m.firstKey.toBeBytes ++ m.lastKey.toBeBytes)
      (length_toBeBytes m.lastKey)
    rw [encodeMetasLoop, encodeKey_eq _ h]
    simp only [encodeKey_eq _ hfirst]
    refine ih.trans ?_
    simp [metaBytes]

theorem encodeMetas_eq (crc : List UInt8 → UInt32) (metas : List BlockMetadata) :
    encodeMetas crc metas = .ok (metaSegment crc metas) := by
  have hlen := length_metaSegment crc metas
  rw [encodeMetas, encodeMetasLoop_eq metas _ (List.length_replicate ..)]
  exact if_neg (not_not.mpr hlen.symm)

theorem decodeMetaKey_toBeBytes (k : Key) : decodeMetaKey k.toBeBytes = .ok k := by
  have h := decodeKey_toBeBytes k []
  rw [List.append_nil] at h
  rw [decodeMetaKey, h]

/-- A `u32` read where its bytes stand. -/
theorem beU32_append (as bs : List UInt8) {n i : Nat} (hi : i = as.length) (hn : n < 2 ^ 32) :
    beU32 (as ++ (beBytes 4 n ++ bs)) i = some n := by
  rw [beU32, slice_append hi (by rw [hi, length_beBytes, szU32]), Option.map_some, ofBe_u32 hn]

/-- The loop reads metadata back from where it stands. -/
theorem decodeMetasLoop_append (bs : List UInt8) : ∀ (metas : List BlockMetadata)
    (as : List UInt8) {i : Nat}, i = as.length →
    decodeMetasLoop (as ++ (metas.flatMap metaBytes ++ bs)) metas.length i =
      .ok (metas, i + metas.length * blockMetaSize)
  | [], as, i, _ => by simp [decodeMetasLoop]
  | m :: metas, as, i, hi => by
    have hnext : i + szU32 + keySize + keySize = (as ++ metaBytes m).length := by
      rw [List.length_append, length_metaBytes, hi, blockMetaSize]
      omega
    have hsrc : as ++ ((m :: metas).flatMap metaBytes ++ bs) =
        as ++ (beBytes 4 m.offset.toNat ++ (m.firstKey.toBeBytes ++ (m.lastKey.toBeBytes ++
          (metas.flatMap metaBytes ++ bs)))) := by
      simp [metaBytes]
    have hfirst : slice (as ++ beBytes 4 m.offset.toNat ++ (m.firstKey.toBeBytes ++
        (m.lastKey.toBeBytes ++ (metas.flatMap metaBytes ++ bs)))) (i + szU32)
        (i + szU32 + keySize) = some m.firstKey.toBeBytes :=
      slice_append (by simp [hi, szU32]) (by simp [hi, szU32])
    have hlast : slice (as ++ beBytes 4 m.offset.toNat ++ m.firstKey.toBeBytes ++
        (m.lastKey.toBeBytes ++ (metas.flatMap metaBytes ++ bs))) (i + szU32 + keySize)
        (i + szU32 + keySize + keySize) = some m.lastKey.toBeBytes :=
      slice_append (by simp [hi, szU32]; omega) (by simp [hi, szU32]; omega)
    have ih := decodeMetasLoop_append bs metas (as ++ metaBytes m) hnext
    simp only [metaBytes, List.append_assoc] at hfirst hlast ih
    rw [hsrc, List.length_cons, decodeMetasLoop, beU32_append _ _ hi m.offset.toNat_lt]
    simp only [Outcome.expect, Outcome.bind_ok, hfirst, hlast, decodeMetaKey_toBeBytes,
      Outcome.ofExcept_ok, ih, UInt32.ofNat_toNat, Outcome.pure_eq, Outcome.ok.injEq,
      Prod.mk.injEq, true_and]
    rw [Nat.succ_mul, blockMetaSize]
    omega

/-- Metadata is read back from its bytes, whatever follows them. -/
theorem decodeMetas_segment (crc : List UInt8 → UInt32) {metas : List BlockMetadata}
    (h : metas.length < 2 ^ 32) (bs : List UInt8) :
    decodeMetas crc (metaSegment crc metas ++ bs) = .ok metas := by
  have hlen : (metaSegment crc metas ++ bs).length =
      szU32 + metas.length * blockMetaSize + szU32 + bs.length := by
    rw [List.length_append, length_metaSegment]
  -- The bytes, as the count and what follows, and as the body and its checksum.
  have hcount : metaSegment crc metas ++ bs = beBytes 4 metas.length ++
      (metas.flatMap metaBytes ++ (beBytes 4 (crc (metaBody metas)).toNat ++ bs)) := by
    simp [metaSegment, metaBody]
  have hbody : metaSegment crc metas ++ bs =
      metaBody metas ++ (beBytes 4 (crc (metaBody metas)).toNat ++ bs) := by
    simp [metaSegment]
  have hread : beU32 (metaSegment crc metas ++ bs) 0 = some metas.length := by
    rw [hcount]
    exact beU32_append [] _ rfl h
  have hloop := decodeMetasLoop_append (beBytes 4 (crc (metaBody metas)).toNat ++ bs) metas
    (beBytes 4 metas.length) (length_beBytes 4 _).symm
  rw [← hcount] at hloop
  have hend : 4 + metas.length * blockMetaSize = (metaBody metas).length :=
    (length_metaBody metas).symm
  have hhashed : slice (metaSegment crc metas ++ bs) 0 (4 + metas.length * blockMetaSize) =
      some (metaBody metas) := by
    rw [hbody, hend, ← List.nil_append (metaBody metas ++ _)]
    exact slice_append rfl (Nat.zero_add _).symm
  have hstored := beU32_append (metaBody metas) bs hend (crc (metaBody metas)).toNat_lt
  rw [← hbody] at hstored
  rw [decodeMetas, if_neg (by rw [hlen]; omega), hread]
  simp only [Outcome.expect, Outcome.bind_ok]
  rw [if_neg (by rw [hlen]; omega), szU32, hloop]
  simp [hhashed, hstored]

/-! ## The writer -/

/-- The bytes that the writer hashes: the blocks, their metadata, the filter,
and where the last two start. -/
def fileBody (crc : List UInt8 → UInt32) (blocks : List UInt8) (metas : List BlockMetadata)
    (bloomBuf : List UInt8) : List UInt8 :=
  let start := blocks.length % 2 ^ 32
  blocks ++ (metaSegment crc metas ++ (bloomBuf ++ (beBytes 4 start ++
    beBytes 4 (start + (metaSegment crc metas).length % 2 ^ 32))))

section Writer

variable {x : Externals} {st st' : HashedWriterState}

/-- The state of a writer before `finalize` writes more than blocks. -/
structure BlocksOnly (st : HashedWriterState) : Prop where
  hashed : st.hashed = st.writer
  written : st.blockBytesWritten = st.writer.length

theorem blocksOnly_new {blockLimit : Option Nat} {count : Nat}
    (h : HashedWriterState.new x blockLimit count = .ok st) : BlocksOnly st := by
  obtain ⟨w, -, rfl⟩ := writerNew_eq_ok h
  exact ⟨rfl, rfl⟩

theorem blocksOnly_flushBlocks (hst : BlocksOnly st) (h : flushBlocks x st = (.ok (), st')) :
    BlocksOnly st' := by
  obtain ⟨-, bytes, first, last, -, -, -, rfl⟩ := flushBlocks_eq_ok h
  exact ⟨congrArg (· ++ bytes) hst.hashed, by simp [hst.written]⟩

theorem blocksOnly_writeAll {recs : List Record} (hst : BlocksOnly st)
    (h : writeAll x recs st = (.ok (), st')) : BlocksOnly st' :=
  writeAll_keeps (fun hst => ⟨hst.hashed, hst.written⟩) (fun hst _ => ⟨hst.hashed, hst.written⟩)
    blocksOnly_flushBlocks hst h

/-- What a successful `finalize` has done before it writes the metadata. -/
theorem finalize_eq_ok (h : finalize x st = (.ok (), st')) :
    st' = st ∨ flushBlocks x st = (.ok (), st') := by
  rw [finalize, Action.get_bind] at h
  split at h
  · obtain ⟨⟨⟩, t, hflush, h⟩ := Action.bind_eq_ok.mp h
    rw [(Action.guard_eq_ok.mp h).2]
    exact .inr hflush
  · exact .inl (Action.guard_eq_ok.mp h).2

theorem blocksOnly_finalize (hst : BlocksOnly st) (h : finalize x st = (.ok (), st')) :
    BlocksOnly st' := by
  rcases finalize_eq_ok h with rfl | h
  · exact hst
  · exact blocksOnly_flushBlocks hst h

/-- What a successful `finalize` does to the state in which all blocks are
written. -/
theorem finalizeFile_eq_ok {bloomBuf : List UInt8} {p : Nat × Nat}
    (h : finalizeFile x bloomBuf st = (.ok p, st')) :
    ∃ t, finalize x st = (.ok (), t) ∧ st'.blockBytesWritten = t.blockBytesWritten ∧
      st'.blockMeta = t.blockMeta ∧
      st'.hashed = t.hashed ++ metaSegment x.crc t.blockMeta ++ bloomBuf ++ beBytes 4 p.1 ++
        beBytes 4 p.2 ∧
      st'.writer = t.writer ++ metaSegment x.crc t.blockMeta ++ bloomBuf ++ beBytes 4 p.1 ++
        beBytes 4 p.2 ++ beBytes 4 (x.crc st'.hashed).toNat ∧
      p = (t.blockBytesWritten % 2 ^ 32,
        t.blockBytesWritten % 2 ^ 32 + (metaSegment x.crc t.blockMeta).length % 2 ^ 32) := by
  rw [finalizeFile] at h
  obtain ⟨⟨⟩, t, hfin, h⟩ := Action.bind_eq_ok.mp h
  simp only [Action.get_bind, encodeMetas_eq, Outcome.mapErr] at h
  obtain ⟨bytes, hbytes, h⟩ := Action.lift_bind_eq_ok.mp h
  cases hbytes
  split at h
  · cases h
  · cases h
    exact ⟨t, hfin, rfl, rfl, rfl, rfl, rfl⟩

/-- The file of a table: the hashed bytes, and their checksum. -/
theorem writeFile_layout {blockLimit : Option Nat} {count : Nat} {recs : List Record}
    {bloomBuf : List UInt8} (h : writeFile x blockLimit count recs bloomBuf = .ok st) :
    ∃ blocks, st.blockBytesWritten = blocks.length ∧
      st.hashed = fileBody x.crc blocks st.blockMeta bloomBuf ∧
      st.writer = st.hashed ++ beBytes 4 (x.crc st.hashed).toNat := by
  obtain ⟨st₀, h₀, h⟩ := Outcome.bind_eq_ok.mp h
  rw [Outcome.mapErr_eq_ok, Outcome.ofExcept_eq_ok] at h₀
  obtain ⟨p, hrun, h⟩ := Outcome.bind_eq_ok.mp h
  obtain ⟨⟨⟩, t, ht, hfin⟩ := Action.bind_eq_ok.mp (Prod.ext hrun (Outcome.ok.inj h))
  obtain ⟨u, hu, hwritten, hmetas, hhashed, hwriter, rfl⟩ := finalizeFile_eq_ok hfin
  have hst : BlocksOnly u := blocksOnly_finalize (blocksOnly_writeAll (blocksOnly_new h₀) ht) hu
  refine ⟨u.writer, hwritten.trans hst.written, ?_, ?_⟩
  · rw [hhashed, hst.hashed, hst.written, hmetas]
    simp only [fileBody, List.append_assoc]
  · rw [hwriter, hhashed, hst.hashed]

end Writer

/-! ## The reader -/

section Reader

variable (x : Externals) (id : UInt64)

/-- What opening the filter hashes. -/
theorem length_openBloom_le (readbuf hashed : List UInt8) :
    (openBloom readbuf hashed).2.length ≤ hashed.length + readbuf.length := by
  unfold openBloom
  rcases decodeBloom readbuf with e | _ | ⟨bloom, n⟩
  · exact Nat.le_add_right _ _
  · exact Nat.le_add_right _ _
  · exact List.length_append.trans_le (Nat.add_le_add_left (List.length_take_le' n readbuf) _)

theorem readExactAt_eq_ok {file buf : List UInt8} {off len : Nat}
    (h : readExactAt file off len = .ok buf) : buf.length = len := by
  unfold readExactAt slice at h
  by_cases hin : off ≤ off + len ∧ off + len ≤ file.length
  · rw [if_pos hin] at h
    cases h
    simp
    omega
  · rw [if_neg hin] at h
    cases h

/-- The bytes hashed are no more than those before a file's footer. -/
def WithoutFooter (file hashed : List UInt8) : Prop := hashed.length ≤ file.length - sstFooterSize

/-- What opening the segments hashes: at most the metadata and the filter. -/
theorem withoutFooter_openSegments (file : List UInt8) {blockmetaOffset bloomOffset : Nat}
    (origChecksum : UInt32) (hbloom : bloomOffset ≤ file.length - sstFooterSize) :
    WithoutFooter file (openSegments x id file blockmetaOffset bloomOffset origChecksum []).2 := by
  apply Action.lift_bind_leaves (P := WithoutFooter file) _ (Nat.zero_le _)
  intro metaBuf hmeta
  apply Action.lift_bind_leaves (P := WithoutFooter file) _ (Nat.zero_le _)
  intro metas _
  have hmeta : metaBuf.length ≤ bloomOffset := (readExactAt_eq_ok hmeta).trans_le (Nat.sub_le _ _)
  apply Action.lift_bind_leaves (P := WithoutFooter file) _ (hmeta.trans hbloom)
  intro bloomBuf hbuf
  have hbuf := readExactAt_eq_ok hbuf
  have hopen := length_openBloom_le bloomBuf metaBuf
  have hshort : WithoutFooter file (openBloom bloomBuf metaBuf).2 := by
    unfold WithoutFooter
    omega
  apply Action.bind_leaves (P := WithoutFooter file)
  · intro bloom t ht
    rw [ht] at hshort
    rw [Action.get_bind]
    split
    · exact hshort
    · exact hshort
  · exact fun _ => hshort

/-- Opening a file hashes nothing of the footer. -/
theorem withoutFooter_openFileHandle (file : List UInt8) :
    WithoutFooter file (openFileHandle x id file []).2 := by
  unfold openFileHandle
  simp only
  split_ifs with _ _ _ _ _ hbloom
  -- A file that fails a check is not hashed.
  iterate 6 exact Nat.zero_le _
  exact withoutFooter_openSegments x id file _ (Nat.le_of_not_lt hbloom)

/-- Opening segments that can be read: the file is refused unless their
checksum is the one in its footer. -/
theorem openSegments_eq {file metaBuf bloomBuf : List UInt8} {metas : List BlockMetadata}
    {bloom : BloomFilter} {n start bloomStart : Nat} {checksum : UInt32}
    (hmeta : readExactAt file start (bloomStart - start) = .ok metaBuf)
    (hmetas : decodeMetas x.crc metaBuf = .ok metas)
    (hbuf : readExactAt file bloomStart (file.length - sstFooterSize - bloomStart) = .ok bloomBuf)
    (hbloom : decodeBloom bloomBuf = .ok (some (bloom, n))) :
    openSegments x id file start bloomStart checksum [] =
      (if checksum = x.crc (metaBuf ++ bloomBuf.take n) then
        .ok { id, file, blockMetadata := metas, blockMetadataStartOffset := start, bloom }
      else .err (.checksumMismatch checksum (x.crc (metaBuf ++ bloomBuf.take n))),
      metaBuf ++ bloomBuf.take n) := by
  have hopen : openBloom bloomBuf metaBuf = (.ok bloom, metaBuf ++ bloomBuf.take n) := by
    rw [openBloom, hbloom]
    rfl
  unfold openSegments update
  simp only [hmeta, Action.lift_ok_bind, hmetas, Outcome.mapErr, Action.modify_bind,
    List.nil_append, hbuf, Action.bind_of_ok hopen, Action.get_bind]
  by_cases h : checksum = x.crc (metaBuf ++ bloomBuf.take n)
  · rw [if_neg (not_not.mpr h), if_pos h]
    rfl
  · rw [if_pos h, if_neg h]
    rfl

/-- The three numbers of a footer. -/
theorem footer_numbers {a b c : Nat} (ha : a < 2 ^ 32) (hb : b < 2 ^ 32) (hc : c < 2 ^ 32)
    {footer : List UInt8} (h : footer = beBytes 4 a ++ (beBytes 4 b ++ beBytes 4 c)) :
    ofBe (footer.take 4) = a ∧ ofBe ((footer.drop 4).take 4) = b ∧
      ofBe ((footer.drop 8).take 4) = c := by
  have h4 : footer.drop 4 = beBytes 4 b ++ beBytes 4 c := by
    rw [h, List.drop_left' (length_beBytes 4 a)]
  have h8 : footer.drop 8 = beBytes 4 c := by
    rw [show 8 = 4 + 4 from rfl, ← List.drop_drop, h4, List.drop_left' (length_beBytes 4 b)]
  refine ⟨?_, ?_, ?_⟩
  · rw [h, List.take_left' (length_beBytes 4 a), ofBe_u32 ha]
  · rw [h4, List.take_left' (length_beBytes 4 b), ofBe_u32 hb]
  · rw [h8, List.take_of_length_le (length_beBytes 4 c).le, ofBe_u32 hc]

/-- No offset wraps around in a file of a size that can be opened. -/
theorem file_parts {crc : List UInt8 → UInt32} {blocks : List UInt8} {metas : List BlockMetadata}
    {bloomBuf footer : List UInt8}
    (h : (fileBody crc blocks metas bloomBuf ++ footer).length ≤ maxSstSize) :
    fileBody crc blocks metas bloomBuf ++ footer =
      blocks ++ (metaSegment crc metas ++ (bloomBuf ++ (beBytes 4 blocks.length ++
        (beBytes 4 (blocks.length + (metaSegment crc metas).length) ++ footer)))) := by
  have hmax : maxSstSize < 2 ^ 32 := by decide
  simp only [fileBody, List.length_append] at h
  rw [fileBody, Nat.mod_eq_of_lt (show blocks.length < 2 ^ 32 by omega),
    Nat.mod_eq_of_lt (show (metaSegment crc metas).length < 2 ^ 32 by omega)]
  simp only [List.append_assoc]

/-- Opening a file in parts reads the parts. -/
theorem openFileHandle_parts {blocks segment bloomBuf file : List UInt8} {checksum : UInt32}
    (hfile : file = blocks ++ (segment ++ (bloomBuf ++ (beBytes 4 blocks.length ++
      (beBytes 4 (blocks.length + segment.length) ++ beBytes 4 checksum.toNat)))))
    (hsegment : 0 < segment.length) (hlen : file.length ≤ maxSstSize) :
    openFileHandle x id file [] =
      openSegments x id file blocks.length (blocks.length + segment.length) checksum [] := by
  have hmax : maxSstSize < 2 ^ 32 := by decide
  have hsize : file.length = (blocks ++ (segment ++ bloomBuf)).length + sstFooterSize := by
    simp [hfile, sstFooterSize, szU32]
    omega
  have hfooter : file.drop (file.length - sstFooterSize) = beBytes 4 blocks.length ++
      (beBytes 4 (blocks.length + segment.length) ++ beBytes 4 checksum.toNat) := by
    have hsplit : file = blocks ++ (segment ++ bloomBuf) ++ (beBytes 4 blocks.length ++
        (beBytes 4 (blocks.length + segment.length) ++ beBytes 4 checksum.toNat)) := by
      simp [hfile]
    rw [hsize, Nat.add_sub_cancel, hsplit, List.drop_left]
  simp only [List.length_append] at hsize
  obtain ⟨hstart, hbloomStart, hchecksum⟩ := footer_numbers
    (show blocks.length < 2 ^ 32 by omega) (show blocks.length + segment.length < 2 ^ 32 by omega)
    checksum.toNat_lt hfooter
  unfold openFileHandle
  simp only [hstart, hbloomStart, hchecksum, UInt32.ofNat_toNat]
  rw [if_neg (by unfold minSstSize; omega), if_neg (by omega), if_neg (by omega),
    if_neg (by omega), if_neg (by omega), if_neg (by omega)]

/-- Opening a file that was written: the metadata and the filter are read
back, and the file is refused unless the checksum of their bytes is that of
the whole file. -/
theorem openFileHandle_layout {blocks : List UInt8} {metas : List BlockMetadata}
    {bloomBuf file : List UInt8} {bloom : BloomFilter} {n : Nat} {checksum : UInt32}
    (hbloom : decodeBloom bloomBuf = .ok (some (bloom, n)))
    (hfile : file = fileBody x.crc blocks metas bloomBuf ++ beBytes 4 checksum.toNat)
    (hlen : file.length ≤ maxSstSize) :
    openFileHandle x id file [] =
      (if checksum = x.crc (metaSegment x.crc metas ++ bloomBuf.take n) then
        .ok { id, file, blockMetadata := metas, blockMetadataStartOffset := blocks.length, bloom }
      else .err (.checksumMismatch checksum (x.crc (metaSegment x.crc metas ++ bloomBuf.take n))),
      metaSegment x.crc metas ++ bloomBuf.take n) := by
  have hmax : maxSstSize < 2 ^ 32 := by decide
  have hmetas := length_metaSegment x.crc metas
  have hpos : 0 < (metaSegment x.crc metas).length := by
    rw [hmetas, szU32]
    omega
  rw [hfile] at hlen
  rw [file_parts hlen] at hfile
  rw [file_parts hlen, ← hfile] at hlen
  have hsize := congrArg List.length hfile
  simp only [List.length_append, length_beBytes] at hsize
  have hcount : metas.length < 2 ^ 32 := by
    unfold blockMetaSize szU32 keySize at hmetas
    omega
  rw [openFileHandle_parts x id hfile hpos hlen]
  apply openSegments_eq x id _ _ _ hbloom
  · rw [readExactAt, hfile, slice_append rfl (by omega)]
  · have h := decodeMetas_segment x.crc hcount []
    rwa [List.append_nil] at h
  · rw [readExactAt, hfile, ← List.append_assoc,
      slice_append List.length_append.symm (by simp [sstFooterSize, szU32]; omega)]

end Reader

/-- What the writer hashes is never what opening the file hashes; a file that
can be read is refused, unless the checksums agree all the same. -/
theorem hashed_bytes_differ {x : Externals} {blockLimit : Option Nat} {count : Nat}
    {recs : List Record} {bloomBuf : List UInt8} {st : HashedWriterState}
    (h : writeFile x blockLimit count recs bloomBuf = .ok st) (id : UInt64) :
    (openFileHandle x id st.writer []).2 ≠ st.hashed ∧
      ∀ bloom n, decodeBloom bloomBuf = .ok (some (bloom, n)) → st.writer.length ≤ maxSstSize →
        (openFileHandle x id st.writer []).1 =
          if x.crc st.hashed = x.crc (openFileHandle x id st.writer []).2 then
            .ok { id := id, file := st.writer, blockMetadata := st.blockMeta,
                  blockMetadataStartOffset := st.blockBytesWritten, bloom := bloom }
          else .err (.checksumMismatch (x.crc st.hashed)
            (x.crc (openFileHandle x id st.writer []).2)) := by
  obtain ⟨blocks, hwritten, hhashed, hwriter⟩ := writeFile_layout h
  constructor
  · intro heq
    have hle := withoutFooter_openFileHandle x id st.writer
    rw [WithoutFooter, heq, hwriter, List.length_append, length_beBytes, sstFooterSize, szU32] at hle
    have hpos : 0 < st.hashed.length := by
      rw [hhashed, fileBody]
      simp
    omega
  · intro bloom n hbloom hlen
    rw [hhashed] at hwriter
    rw [openFileHandle_layout x id hbloom hwriter hlen, hhashed, hwritten]

/-! ## A table of one record -/

/-- The reflected CRC-32, bit by bit. -/
def crc32Bits : List Bool → UInt32 → UInt32
  | [], c => c
  | b :: bs, c =>
    if (c &&& 1 == 1) = b then crc32Bits bs (c >>> 1)
    else crc32Bits bs ((c >>> 1) ^^^ 0xEDB88320)

/-- The CRC-32 that `crc32fast` computes; bytes start at their low bit. -/
def crc32 (bs : List UInt8) : UInt32 :=
  crc32Bits (bs.flatMap fun b => (List.range 8).map b.toNat.testBit) 0xFFFFFFFF ^^^ 0xFFFFFFFF

example : crc32 "123456789".toUTF8.toList = 0xCBF43926 := by decide +kernel

/-- `zeroHashes`, with the CRC-32. -/
def crc32Hashes : Externals := { zeroHashes with crc := crc32 }

/-- A record of stream 1. -/
def streamOne : Record := ⟨⟨1, 1, 0, 0⟩, [0, 0]⟩

/-- The filter of eight bits that knows stream 1. -/
def streamOneFilter : List UInt8 := beBytes 8 8 ++ beBytes 8 1 ++ beBytes 4 1 ++ [1]

/-- The file is laid out as documented; opening it hashes 97 of the 151 bytes
that the writer hashed, and refuses it. -/
theorem undamaged_file_refused :
    (writeFile crc32Hashes none 1 [streamOne] streamOneFilter >>= fun st =>
      .ok ((openFileHandle crc32Hashes 1 st.writer []).2.length, st.hashed.length,
        (openFileHandle crc32Hashes 1 st.writer []).1)) =
      .ok (97, 151, .err (.checksumMismatch 0xE448B10C 0xBE5A34C4)) := by decide +kernel

theorem hashed_bytes_differ_one :
    ∃ st, writeFile crc32Hashes none 1 [streamOne] streamOneFilter = .ok st ∧
      (openFileHandle crc32Hashes 1 st.writer []).2 ≠ st.hashed ∧
      (openFileHandle crc32Hashes 1 st.writer []).1 =
        if crc32 st.hashed = crc32 (openFileHandle crc32Hashes 1 st.writer []).2 then
          .ok { id := 1, file := st.writer, blockMetadata := st.blockMeta,
                blockMetadataStartOffset := st.blockBytesWritten, bloom := ⟨[1], 8, 1⟩ }
        else .err (.checksumMismatch (crc32 st.hashed)
          (crc32 (openFileHandle crc32Hashes 1 st.writer []).2)) := by
  have hrun : (writeFile crc32Hashes none 1 [streamOne] streamOneFilter >>= fun st =>
      .ok st.writer.length) = .ok 155 := by decide +kernel
  obtain ⟨st, hst, hlen⟩ := Outcome.bind_eq_ok.mp hrun
  have hlen : st.writer.length ≤ maxSstSize := by
    rw [Outcome.ok.inj hlen]
    decide
  obtain ⟨hne, hopen⟩ := hashed_bytes_differ hst 1
  exact ⟨st, hst, hne, hopen ⟨[1], 8, 1⟩ 21 (by decide +kernel) hlen⟩

end LG.Proof.Tsdb
