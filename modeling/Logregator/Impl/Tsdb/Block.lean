import Logregator.Framework.Search
import Logregator.Impl.Tsdb.Record

/-!
# Blocks (`block.rs`)

A block is a run of encoded records followed by their offsets, the number of
records and a checksum. `BlockWriter` packs records up to a limit,
`encodeBlock` and `decodeBlock` are the wire format, and `BlockCursor` reads
a block's records back, one at a time. `crc` is `crc32fast::hash`. Slices out
of range and `todo!` are panics.
-/

namespace LG.Impl.Tsdb

/-- `DEFAULT_BLOCK_SIZE`. -/
def defaultBlockSize : Nat := 16 * 1024
/-- `u16::MAX`. -/
def u16Max : Nat := 65535
/-- `MAX_BLOCK_SIZE`. -/
def maxBlockSize : Nat := u16Max

/-- `block::Block`. -/
structure Block where
  data : List UInt8
  offsets : List UInt16
  deriving DecidableEq, Repr

namespace Block

/-- `Block::num_of_records`. -/
def numOfRecords (b : Block) : Nat := b.offsets.length

/-- `Block::offset_segment_start`. -/
def offsetSegmentStart (b : Block) : Nat := b.data.length

/-- `Block::offset_segment_len`. -/
def offsetSegmentLen (b : Block) : Nat := b.offsets.length * szU16

/-- Where record `i` ends: at the next offset, or where the offsets start. -/
def recordEnd (b : Block) (i : Nat) : Nat :=
  match b.offsets[i + 1]? with
  | some o => o.toNat
  | none => b.offsetSegmentStart

end Block

/-! ## Wire format -/

/-- The loop over a block's offsets: each record ends where the next one
starts, the last one at `segStart`; `check` refuses a range. -/
def checkOffsets (check : Nat → Nat → Except BlockCodecError Unit) (segStart : Nat) :
    List UInt16 → Except BlockCodecError Unit
  | [] => .ok ()
  | [o] => check o.toNat segStart
  | o :: o' :: os => do
    check o.toNat o'.toNat
    checkOffsets check segStart (o' :: os)

/-- The check of `encode_block`. -/
def checkMonotonic (start stop : Nat) : Except BlockCodecError Unit :=
  if stop ≤ start then .error (.invalidOffsets start stop) else .ok ()

/-- The check of `decode_block`, which also looks at the record's length. -/
def checkRecordRange (start stop : Nat) : Except BlockCodecError Unit :=
  if stop ≤ start then .error (.invalidOffsets start stop)
  else if ¬ (minRecordWireLength ≤ stop - start ∧ stop - start ≤ maxRecordWireLength) then
    .error (.invalidPayloadSize (stop - start) minRecordWireLength maxRecordWireLength)
  else .ok ()

/-- The bytes of a block before its checksum. -/
def Block.body (b : Block) : List UInt8 :=
  b.data ++ b.offsets.flatMap (fun o => beBytes 2 o.toNat) ++ beBytes 2 b.offsets.length

/-- `Block::encode_block`. -/
def encodeBlock (crc : List UInt8 → UInt32) (b : Block) : Outcome BlockCodecError (List UInt8) :=
  if u16Max < b.offsets.length then .err (.tooManyRecords b.offsets.length)
  else if b.offsetSegmentLen = 0 then .err (.corruptedMetadata "offset segment length is 0")
  else
    let totalSize := b.data.length + b.offsetSegmentLen + szU16
    if maxBlockSize < totalSize then .err (.maxSizeExceeded totalSize)
    -- todo!("should we check for block.data.len() > u16::MAX - MIN_RECORD_WIRE_LENGTH ...")
    else if u16Max - minRecordWireLength < b.data.length then .panic
    else do
      .ofExcept (checkOffsets checkMonotonic b.offsetSegmentStart b.offsets)
      return b.body ++ beBytes 4 (crc b.body).toNat

/-- `as_chunks::<SZ_U16>()`, each chunk read as a `u16`. -/
def readOffsets : List UInt8 → List UInt16
  | a :: b :: bs => UInt16.ofNat (ofBe [a, b]) :: readOffsets bs
  | _ => []

/-- `Block::decode_block`. -/
def decodeBlock (crc : List UInt8 → UInt32) (src : List UInt8) : Except BlockCodecError Block :=
  if src.length < szU32 then .error (.unexpectedSize src.length szU32)
  else
    let checksumBs := src.drop (src.length - szU32)
    let src := src.take (src.length - szU32)
    let stored := crc src
    let computed := UInt32.ofNat (ofBe checksumBs)
    if stored ≠ computed then .error (.checksum stored computed)
    else if src.length < szU16 then .error (.unexpectedSize src.length szU16)
    else
      let numOfRecords := ofBe (src.drop (src.length - szU16))
      let offsetSegmentLen := numOfRecords * szU16
      let offsetSegmentEnd := src.length - szU16
      if offsetSegmentEnd < offsetSegmentLen then
        .error (.invalidOffsetSegment none (some offsetSegmentEnd) (some offsetSegmentLen))
      else do
        let offsetSegmentStart := offsetSegmentEnd - offsetSegmentLen
        let offsets := readOffsets ((src.drop offsetSegmentStart).take offsetSegmentLen)
        checkOffsets checkRecordRange offsetSegmentStart offsets
        return { data := src.take offsetSegmentStart, offsets := offsets }

/-- A subtraction of `usize`s: `none` is the underflow. -/
def checkedSub (a b : Nat) : Option Nat := if b ≤ a then some (a - b) else none

/-- The loop of `decode_block` over the offsets, for `n` of them from `i` on:
an index out of range and a subtraction below zero are panics. -/
def checkOffsetsFrom (offsets : List UInt16) (segStart : Nat) :
    Nat → Nat → Outcome BlockCodecError Unit
  | 0, _ => .ok ()
  | n + 1, i => do
    let start ← .expect offsets[i]?
    let last ← .expect (checkedSub offsets.length 1)
    let stop ← .expect (if i < last then offsets[i + 1]?.map UInt16.toNat else some segStart)
    if stop ≤ start.toNat then .err (.invalidOffsets start.toNat stop)
    else
      let recordWireLen ← .expect (checkedSub stop start.toNat)
      if ¬ (minRecordWireLength ≤ recordWireLen ∧ recordWireLen ≤ maxRecordWireLength) then
        .err (.invalidPayloadSize recordWireLen minRecordWireLength maxRecordWireLength)
      else checkOffsetsFrom offsets segStart n (i + 1)

/-- `Block::decode_block` with every slice, index and subtraction of the
source: one that is out of range is a panic. `decodeBlock` leaves these out;
the two agree (`decodeBlockChecked_eq`). -/
def decodeBlockChecked (crc : List UInt8 → UInt32) (src : List UInt8) :
    Outcome BlockCodecError Block :=
  if src.length < szU32 then .err (.unexpectedSize src.length szU32)
  else do
    let mid ← .expect (checkedSub src.length szU32)
    let checksumBs ← .expect (slice src mid src.length)
    let src ← .expect (slice src 0 mid)
    -- try_into() into [u8; 4]
    if checksumBs.length ≠ szU32 then .err (.unexpectedSize src.length szU32)
    else
      let stored := crc src
      let computed := UInt32.ofNat (ofBe checksumBs)
      if stored ≠ computed then .err (.checksum stored computed)
      else if src.length < szU16 then .err (.unexpectedSize src.length szU16)
      else do
        let buf ← .expect (slice src (← .expect (checkedSub src.length szU16)) src.length)
        -- try_into() into [u8; 2]
        if buf.length ≠ szU16 then .err (.unexpectedSize src.length szU16)
        else
          let offsetSegmentLen := ofBe buf * szU16
          let offsetSegmentEnd ← .expect (checkedSub src.length szU16)
          if offsetSegmentEnd < offsetSegmentLen then
            .err (.invalidOffsetSegment none (some offsetSegmentEnd) (some offsetSegmentLen))
          else do
            let offsetSegmentStart ← .expect (checkedSub offsetSegmentEnd offsetSegmentLen)
            let data ← .expect (slice src 0 offsetSegmentStart)
            let segment ← .expect (slice src offsetSegmentStart offsetSegmentEnd)
            let offsets := readOffsets segment
            checkOffsetsFrom offsets offsetSegmentStart offsets.length 0
            return { data := data, offsets := offsets }

/-! ## `BlockWriter` -/

/-- `block::WriteOutput`. -/
inductive WriteOutput where
  | written
  | full
  deriving DecidableEq, Repr

/-- `block::BlockWriter`, with `RecordCodec`. -/
structure BlockWriter where
  buffer : List UInt8
  offsets : List UInt16
  size : Nat
  limit : Nat
  recordCount : Nat
  firstKey : Option Key
  lastKey : Option Key
  deriving DecidableEq, Repr

namespace BlockWriter

/-- The empty writer that `new` builds. -/
def withLimit (limit : Nat) : BlockWriter :=
  { buffer := [], offsets := [], size := 0, limit := limit, recordCount := 0
    firstKey := none, lastKey := none }

/-- `BlockWriter::new`. -/
def new (blockSizeLimit : Option Nat) : Except InvalidBlockLimit BlockWriter :=
  match blockSizeLimit with
  | some l => if maxBlockSize < l then .error ⟨l⟩ else .ok (withLimit l)
  | none => .ok (withLimit defaultBlockSize)

/-- `BlockWriter::into_block`. -/
def intoBlock (w : BlockWriter) : Block × Option Key × Option Key :=
  ({ data := w.buffer, offsets := w.offsets }, w.firstKey, w.lastKey)

/-- `BlockWriter::write`: the buffer has already grown when the codec
refuses the record. -/
def write (w : BlockWriter) (rec : Record) : Except CodecError WriteOutput × BlockWriter :=
  let estTotalSize := w.size + rec.wireLen + (w.offsets.length + 1) * szU16 + szU16
  if ¬ w.offsets.isEmpty ∧ w.limit < estTotalSize then (.ok .full, w)
  else if maxBlockSize < estTotalSize then (.ok .full, w)
  else
    match encodeRecord rec (List.replicate rec.wireLen 0) with
    | (.error e, bs) => (.error e, { w with buffer := w.buffer ++ bs })
    | (.ok _, bs) =>
      (.ok .written,
        { w with
          buffer := w.buffer ++ bs
          firstKey := w.firstKey.or (some rec.key)
          lastKey := some rec.key
          offsets := w.offsets ++ [UInt16.ofNat w.size]
          size := w.size + rec.wireLen
          recordCount := w.recordCount + 1 })

/-- A sequence of `write` calls: what each returns, and the writer after
them. -/
def writeEach (w : BlockWriter) : List Record → List (Except CodecError WriteOutput) × BlockWriter
  | [] => ([], w)
  | rec :: recs =>
    let (out, w) := w.write rec
    let (outs, w) := writeEach w recs
    (out :: outs, w)

/-- The records of a sequence of `write` calls that return `Written`. -/
def written (w : BlockWriter) : List Record → List Record
  | [] => []
  | rec :: recs =>
    match w.write rec with
    | (.ok .written, w) => rec :: written w recs
    | (_, w) => written w recs

end BlockWriter

/-! ## `BlockCursor` -/

/-- `block::BlockCursor`, with `RecordCodec`. -/
structure BlockCursor where
  block : Block
  offsetIdx : Nat
  record : Except CodecError (Option Record)

namespace BlockCursor

/-- `BlockCursor::new`. -/
def new (block : Block) : BlockCursor := { block := block, offsetIdx := 0, record := .ok none }

/-- `BlockCursor::current_record`. -/
def currentRecord (c : BlockCursor) : Option Record :=
  match c.record with
  | .ok r => r
  | .error _ => none

/-- `BlockCursor::is_error`. -/
def isError (c : BlockCursor) : Bool :=
  match c.record with
  | .ok _ => false
  | .error _ => true

/-- `BlockCursor::take_current`. -/
def takeCurrent (c : BlockCursor) : Option Record × BlockCursor :=
  (c.currentRecord, { c with record := .ok none })

/-- `BlockCursor::update_current`. -/
def updateCurrent (c : BlockCursor) : Option BlockCursor :=
  match c.block.offsets[c.offsetIdx]? with
  | none => some { c with record := .ok none }
  | some start => do
    let bs ← slice c.block.data start.toNat (c.block.recordEnd c.offsetIdx)
    return { c with record := (decodeRecord bs).map (Option.map Prod.fst) }

/-- `BlockCursor::next`. -/
def next (c : BlockCursor) : Option BlockCursor :=
  { c with offsetIdx := c.offsetIdx + 1 }.updateCurrent

/-- `BlockCursor::seek_to_first`. -/
def seekToFirst (c : BlockCursor) : Option BlockCursor :=
  { c with offsetIdx := 0 }.updateCurrent

/-- The closure of `BlockCursor::seek`: compares the key at an offset with
the one sought. A failed comparison ends the search with its error. -/
def compareAt (b : Block) (seekKey : Key) (i : Nat) : Outcome CodecError Ordering := do
  let o ← .expect b.offsets[i]?
  let keyBs ← .expect (slice b.data o.toNat (o.toNat + keySize))
  match ← .ofExcept (decodeKey keyBs) with
  | some (key, _) => return compare key seekKey
  | none => .err (.other "failed to decode key from block")

/-- `BlockCursor::seek`. -/
def seek (c : BlockCursor) (seekKey : Key) : Option BlockCursor :=
  match binarySearchM (compareAt c.block seekKey) c.block.offsets.length with
  | .ok (.ok i) | .ok (.error i) => { c with offsetIdx := i }.updateCurrent
  | .err e => some { c with record := .error e }
  | .panic => none

/-- A call that moves a cursor. -/
inductive Move where
  | next
  | seekToFirst
  | seek (seekKey : Key)
  deriving DecidableEq, Repr

/-- The call on a cursor. -/
def move (c : BlockCursor) : Move → Option BlockCursor
  | .next => c.next
  | .seekToFirst => c.seekToFirst
  | .seek seekKey => c.seek seekKey

/-- The calls on a cursor, in turn. -/
def moves (c : BlockCursor) : List Move → Option BlockCursor
  | [] => some c
  | m :: ms => do moves (← c.move m) ms

end BlockCursor

end LG.Impl.Tsdb
