import Logregator.Impl.Tsdb.Label
import Logregator.Impl.Tsdb.Sst

/-!
# The file of a table (`sst.rs`, `bloom.rs`)

After its blocks a file has their metadata, the bloom filter and a footer:
where the metadata and the filter start, and a checksum. `finalizeFile` writes
these, `openFileHandle` reads them back; both keep the bytes they give to
their hasher. The bytes of the filter are given to `finalizeFile`:
`BloomFilterCodec::encode`, which `finalizeSst` calls as the source does, copies
each part of the filter over the whole buffer, which panics. So do sums and
differences that overflow.
-/

namespace LG.Impl.Tsdb

/-- `u32::from_be_bytes` of the four bytes at `i`: `none` is the out-of-range
panic. -/
def beU32 (src : List UInt8) (i : Nat) : Option Nat := (slice src i (i + szU32)).map ofBe

/-- `{n:#x}`. -/
def hex (n : Nat) : String := "0x" ++ String.ofList (Nat.toDigits 16 n)

/-! ## The metadata of blocks -/

/-- `BlockMetadata::BLOCK_META_SIZE`. -/
def blockMetaSize : Nat := szU32 + 2 * keySize

/-- The loop of `BlockMetadata::encode_metas`; keys are encoded into one
buffer. -/
def encodeMetasLoop : List BlockMetadata → List UInt8 → List UInt8 → Except CodecError (List UInt8)
  | [], _, data => .ok data
  | m :: metas, keyBytes, data => do
    let data := data ++ beBytes 4 m.offset.toNat
    let (out, keyBytes) := encodeKey m.firstKey keyBytes
    let _ ← out
    let data := data ++ keyBytes
    let (out, keyBytes) := encodeKey m.lastKey keyBytes
    let _ ← out
    encodeMetasLoop metas keyBytes (data ++ keyBytes)

/-- `BlockMetadata::encode_metas`. -/
def encodeMetas (crc : List UInt8 → UInt32) (metas : List BlockMetadata) :
    Outcome CodecError (List UInt8) := do
  let capacity := szU32 + metas.length * blockMetaSize + szU32
  let data ← .ofExcept
    (encodeMetasLoop metas (List.replicate keySize 0) (beBytes 4 metas.length))
  let data := data ++ beBytes 4 (crc data).toNat
  if capacity ≠ data.length then .panic else return data

/-- `decode_key` of `BlockMetadata::decode_metas`. -/
def decodeMetaKey (src : List UInt8) : Except CodecError Key :=
  match decodeKey src with
  | .ok (some (key, _)) => .ok key
  | .ok none => .error
      (.other "BlockMetadata::decode_metas(): failed to decode key from raw bytes")
  | .error e => .error e

/-- The loop of `BlockMetadata::decode_metas`, from where `consumed` stands:
the metadata, and where it ends. -/
def decodeMetasLoop (src : List UInt8) : Nat → Nat → Outcome CodecError (List BlockMetadata × Nat)
  | 0, consumed => return ([], consumed)
  | n + 1, consumed => do
    let offset ← .expect (beU32 src consumed)
    let consumed := consumed + szU32
    let firstKey ← .ofExcept (decodeMetaKey (← .expect (slice src consumed (consumed + keySize))))
    let consumed := consumed + keySize
    let lastKey ← .ofExcept (decodeMetaKey (← .expect (slice src consumed (consumed + keySize))))
    let consumed := consumed + keySize
    let (metas, consumed) ← decodeMetasLoop src n consumed
    return ({ offset := UInt32.ofNat offset, firstKey, lastKey } :: metas, consumed)

/-- `BlockMetadata::decode_metas`. -/
def decodeMetas (crc : List UInt8 → UInt32) (src : List UInt8) :
    Outcome CodecError (List BlockMetadata) :=
  if src.length < szU32 then .err (.notEnoughBytes src.length szU32)
  else do
    let metasLen ← .expect (beU32 src 0)
    let wantTotalSize := szU32 + metasLen * blockMetaSize + szU32
    if src.length < wantTotalSize then .err (.notEnoughBytes src.length wantTotalSize)
    else
      let (metas, consumed) ← decodeMetasLoop src metasLen szU32
      let computed := (crc (← .expect (slice src 0 consumed))).toNat
      let stored ← .expect (beU32 src consumed)
      if stored ≠ computed then .err (.other ("checksum mismatch, " ++ hex stored ++
        " (stored) != " ++ hex computed ++ " (computed)"))
      else return metas

/-! ## The bloom filter -/

/-- `MAX_BITMAP_SIZE`. -/
def maxBitmapSize : Nat := 2 ^ 32 - 1

/-- `copy_from_slice` on the whole buffer: the lengths have to be equal. -/
def copyFromSlice (src : List UInt8) : Action (List UInt8) CodecError Unit := fun dst =>
  if dst.length ≠ src.length then (.panic, dst) else (.ok (), src)

/-- `BloomFilterCodec::encode`, on the buffer. -/
def encodeBloom (item : BloomFilter) : Action (List UInt8) CodecError Nat := do
  let dst ← Action.get
  if dst.length < item.wireLen then Action.fail (.notEnoughBytes dst.length item.wireLen)
  else
    copyFromSlice (beBytes 8 item.nBits.toNat)
    copyFromSlice (beBytes 8 item.nHashes.toNat)
    if maxBitmapSize < item.bitmap.length then
      Action.fail (invalidPayloadSz item.bitmap.length maxBitmapSize 0)
    else
      copyFromSlice (beBytes 4 (item.bitmap.length % 2 ^ 32))
      copyFromSlice item.bitmap
      return item.wireLen

/-- `nom::number::complete::be_u64` and `be_u32`, of so many bytes. -/
def nomUint (k : Nat) (input : List UInt8) : Except NomErr (List UInt8 × Nat) :=
  if input.length < k then .error (.error input .eof)
  else .ok (input.drop k, ofBe (input.take k))

/-- `nom::bytes::complete::take`. -/
def nomTake (n : Nat) (input : List UInt8) : Except NomErr (List UInt8 × List UInt8) :=
  if input.length < n then .error (.error input .eof) else .ok (input.drop n, input.take n)

/-- `nom_decode` of `BloomFilterCodec::decode`. -/
def nomDecodeBloom (input : List UInt8) : Except NomErr (List UInt8 × BloomFilter) := do
  let (input, nBits) ← nomUint 8 input
  let (input, nHashes) ← nomUint 8 input
  let (input, bitmapLen) ← nomUint 4 input
  let (input, bitmap) ← nomTake bitmapLen input
  return (input, { bitmap, nBits := UInt64.ofNat nBits, nHashes := UInt64.ofNat nHashes })

/-- `BloomFilterCodec::decode`: the filter, and the bytes read. -/
def decodeBloom (src : List UInt8) : Except CodecError (Option (BloomFilter × Nat)) :=
  match nomDecodeBloom src with
  | .ok (remaining, bloom) => .ok (some (bloom, src.length - remaining.length))
  | .error e =>
    .error (.other ("nom parsing error: failed to decode bloom filter: " ++ e.display))

/-! ## Writing -/

namespace HashedWriterState

variable (x : Externals)

/-- `write_all` and `integrity_hasher.update` of the same bytes. -/
def put (bytes : List UInt8) : Action HashedWriterState SstError Unit :=
  Action.modify fun st => { st with writer := st.writer ++ bytes, hashed := st.hashed ++ bytes }

/-- `HashedWriterState::finalize`, for an encoded bloom filter: where the
metadata and the filter start. -/
def finalizeFile (bloomBuf : List UInt8) : Action HashedWriterState SstError (Nat × Nat) := do
  finalize x
  let st ← Action.get
  let blockMetaStart := st.blockBytesWritten % 2 ^ 32
  let blockMetaBytes ← Action.lift ((encodeMetas x.crc st.blockMeta).mapErr .codecError)
  let bloomFilterStart := blockMetaStart + blockMetaBytes.length % 2 ^ 32
  if 2 ^ 32 ≤ bloomFilterStart then Action.lift .panic
  else
    put blockMetaBytes
    put bloomBuf
    put (beBytes 4 blockMetaStart)
    put (beBytes 4 bloomFilterStart)
    Action.modify fun st => { st with writer := st.writer ++ beBytes 4 (x.crc st.hashed).toNat }
    return (blockMetaStart, bloomFilterStart)

/-- `HashedWriterState::finalize`. -/
def finalizeSst : Action HashedWriterState SstError (Nat × Nat) := do
  finalize x
  let st ← Action.get
  let blockMetaStart := st.blockBytesWritten % 2 ^ 32
  let blockMetaBytes ← Action.lift ((encodeMetas x.crc st.blockMeta).mapErr .codecError)
  let bloomFilterStart := blockMetaStart + blockMetaBytes.length % 2 ^ 32
  if 2 ^ 32 ≤ bloomFilterStart then Action.lift .panic
  else
    put blockMetaBytes
    let (out, bloomBuf) := encodeBloom st.bloom (List.replicate st.bloom.wireLen 0)
    let _ ← Action.lift (out.mapErr .codecError)
    put bloomBuf
    put (beBytes 4 blockMetaStart)
    put (beBytes 4 bloomFilterStart)
    Action.modify fun st => { st with writer := st.writer ++ beBytes 4 (x.crc st.hashed).toNat }
    return (blockMetaStart, bloomFilterStart)

/-- A table's file: `new`, `write` for each record, and `finalize`. -/
def writeFile (blockLimit : Option Nat) (recordCount : Nat) (recs : List Record)
    (bloomBuf : List UInt8) : Outcome SstError HashedWriterState := do
  let st ← (Outcome.ofExcept (HashedWriterState.new x blockLimit recordCount)).mapErr
    .invalidBlockLimit
  let (out, st) := (do
    writeAll x recs
    finalizeFile x bloomBuf : Action HashedWriterState SstError (Nat × Nat)) st
  out >>= fun _ => return st

end HashedWriterState

/-! ## Reading -/

namespace SstHandle

variable (x : Externals)

/-- `File::read_exact_at` of `len` bytes. -/
def readExactAt (file : List UInt8) (off len : Nat) : Outcome SstError (List UInt8) :=
  match slice file off (off + len) with
  | none => .err (.io "failed to fill whole buffer")
  | some buf => .ok buf

/-- `hasher.update`. -/
def update (bytes : List UInt8) : Action (List UInt8) SstError Unit :=
  Action.modify fun hashed => hashed ++ bytes

/-- The filter in `open_file_handle`: `readbuf` is what stands from its offset
to the footer. -/
def openBloom (readbuf : List UInt8) : Action (List UInt8) SstError BloomFilter :=
  match decodeBloom readbuf with
  | .ok (some (bloom, n)) => do
    update (readbuf.take n)
    return bloom
  | .ok none =>
    Action.fail (.other "failed to decode bloom filter: not enough bytes in buffer")
  | .error e => Action.fail (.codecError e)

/-- `SstHandle::open_file_handle`, when the footer has passed its checks. -/
def openSegments (id : UInt64) (file : List UInt8) (blockmetaOffset bloomOffset : Nat)
    (origChecksum : UInt32) : Action (List UInt8) SstError SstHandle := do
  let bloomSegmentLen := file.length - sstFooterSize - bloomOffset
  let blockmetaSegmentLen := bloomOffset - blockmetaOffset
  let readbuf ← Action.lift (readExactAt file blockmetaOffset blockmetaSegmentLen)
  let blockMetadata ← Action.lift ((decodeMetas x.crc readbuf).mapErr .codecError)
  update readbuf
  let readbuf ← Action.lift (readExactAt file bloomOffset bloomSegmentLen)
  let bloom ← openBloom readbuf
  let computedChecksum := x.crc (← Action.get)
  if origChecksum ≠ computedChecksum then
    Action.fail (.checksumMismatch origChecksum computedChecksum)
  else return { id, file, blockMetadata, blockMetadataStartOffset := blockmetaOffset, bloom }

/-- `SstHandle::open_file_handle`, on the bytes given to its hasher. -/
def openFileHandle (id : UInt64) (file : List UInt8) : Action (List UInt8) SstError SstHandle :=
  let fsize := file.length
  if fsize < minSstSize then Action.fail (.invalidSstSize minSstSize maxSstSize fsize)
  else if maxSstSize < fsize then Action.fail (.other ("sst file too large (got: " ++
    toString fsize ++ " max: " ++ toString maxSstSize ++ ")"))
  else
    let footerBuf := file.drop (fsize - sstFooterSize)
    let blockmetaOffset := ofBe (footerBuf.take 4)
    let bloomOffset := ofBe ((footerBuf.drop 4).take 4)
    let origChecksum := UInt32.ofNat (ofBe ((footerBuf.drop 8).take 4))
    if fsize < blockmetaOffset then Action.fail (.other
      ("block metadata start offset points past the size of the file (offset: " ++
        toString blockmetaOffset ++ " file_size: " ++ toString fsize ++ ")"))
    else if fsize < bloomOffset then Action.fail (.other
      ("bloom filter start offset points past the size of the file (offset: " ++
        toString bloomOffset ++ " file_size: " ++ toString fsize ++ ")"))
    else if bloomOffset ≤ blockmetaOffset then Action.fail (.other
      "block metadata start offset is greater than bloom filter start offset")
    else if fsize - sstFooterSize < bloomOffset then Action.lift .panic
    else openSegments x id file blockmetaOffset bloomOffset origChecksum

end SstHandle

end LG.Impl.Tsdb
