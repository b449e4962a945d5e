import Logregator.Framework.OrdSet
import Logregator.Impl.Tsdb.Block
import Logregator.Impl.Tsdb.Bloom

/-!
# SSTables (`sst.rs`)

`HashedWriterState` packs records into blocks and writes each full block out;
`SstHandle` reads blocks back by the offsets in its metadata, and `SstCursor`
walks the records of the blocks from a start bound. The writer behind the
state is the list of bytes written; its writes succeed. `debug_assert!` and
`todo!` are panics.
-/

namespace LG.Impl.Tsdb

/-- `MAX_SST_SIZE`. -/
def maxSstSize : Nat := (2 ^ 32 - 1) / 2
/-- `SST_FOOTER_SIZE`. -/
def sstFooterSize : Nat := szU32 * 3
/-- `MIN_SST_SIZE`. -/
def minSstSize : Nat := sstFooterSize

/-- `sst::BlockMetadata`. -/
structure BlockMetadata where
  offset : UInt32
  firstKey : Key
  lastKey : Key
  deriving DecidableEq, Repr

/-! ## Writing -/

/-- `sst::HashedWriterState` with its `WriterState`: `writer` holds the bytes
written, `hashed` those given to the hasher. -/
structure HashedWriterState where
  writer : List UInt8
  blockBytesWritten : Nat
  blockWriter : BlockWriter
  blockLimit : Nat
  blockMeta : List BlockMetadata
  recordCount : Nat
  firstKey : Option Key
  lastKey : Option Key
  bloom : BloomFilter
  hashed : List UInt8
  deriving DecidableEq, Repr

namespace HashedWriterState

variable (x : Externals)

/-- `HashedWriterState::new`, on an empty writer. -/
def new (blockLimit : Option Nat) (recordCount : Nat) :
    Except InvalidBlockLimit HashedWriterState := do
  let blockWriter ← BlockWriter.new blockLimit
  return {
    writer := []
    blockBytesWritten := 0
    blockWriter := blockWriter
    blockLimit := blockWriter.limit
    blockMeta := []
    recordCount := 0
    firstKey := none
    lastKey := none
    bloom := BloomFilter.new x recordCount
    hashed := [] }

/-- `HashedWriterState::flush_blocks`. -/
def flushBlocks : Action HashedWriterState SstError Unit := do
  let st ← Action.get
  if maxSstSize ≤ st.blockBytesWritten then Action.fail .sstFilledUp
  else
    let estimatedBytes := st.blockBytesWritten + st.blockWriter.size
    if maxSstSize < estimatedBytes then
      Action.fail (.invalidSstSize minSstSize maxSstSize estimatedBytes)
    else
      let fresh ← Action.lift
        ((Outcome.ofExcept (BlockWriter.new (some st.blockLimit))).mapErr .invalidBlockLimit)
      Action.modify fun st => { st with blockWriter := fresh }
      let (block, firstKey, lastKey) := st.blockWriter.intoBlock
      let blockBytes ← Action.lift ((encodeBlock x.crc block).mapErr .blockCodecError)
      Action.modify fun st =>
        { st with writer := st.writer ++ blockBytes, hashed := st.hashed ++ blockBytes }
      let firstKey ← Action.lift (.expect firstKey)
      let lastKey ← Action.lift (.expect lastKey)
      let blockMeta : BlockMetadata :=
        { offset := UInt32.ofNat st.blockBytesWritten, firstKey := firstKey, lastKey := lastKey }
      Action.modify fun st =>
        { st with
          blockMeta := st.blockMeta ++ [blockMeta]
          blockBytesWritten := st.blockBytesWritten + blockBytes.length
          recordCount := st.recordCount + block.numOfRecords
          firstKey := st.firstKey.or (some firstKey)
          lastKey := some lastKey }

/-- `HashedWriterState::write`, which calls itself after a full block has
been written out; `0` is a stack that overflows. -/
def writeNested : Nat → Record → Action HashedWriterState SstError Unit
  | 0, _ => Action.lift .panic
  | depth + 1, rec => do
    let st ← Action.get
    if maxSstSize ≤ st.blockBytesWritten then Action.fail .sstFilledUp
    else
      let (out, blockWriter) := st.blockWriter.write rec
      Action.modify fun st => { st with blockWriter := blockWriter }
      match out with
      | .ok .written => do
        let bloom ← Action.lift (.expect (st.bloom.insert x rec.key.streamId))
        Action.modify fun st => { st with bloom := bloom }
      | .ok .full => do
        flushBlocks x
        writeNested depth rec
      | .error e => Action.fail (.codecError e)

/-- `HashedWriterState::write`: a record that fits no block is full for a
fresh one too, but then `flush_blocks` refuses the empty block, so the nested
call is the last. -/
def write (rec : Record) : Action HashedWriterState SstError Unit := writeNested x 2 rec

/-- `write` for each record in turn, ending at the first error. -/
def writeAll : List Record → Action HashedWriterState SstError Unit
  | [] => pure ()
  | rec :: recs => do
    write x rec
    writeAll recs

/-- `HashedWriterState::finalize`, up to where it writes the metadata. -/
def finalize : Action HashedWriterState SstError Unit := do
  let st ← Action.get
  if 0 < st.blockWriter.size then flushBlocks x
  let st ← Action.get
  if st.firstKey.isNone ∨ st.lastKey.isNone then Action.fail .finalizeMissingKeys

end HashedWriterState

/-- Writing a table up to its last block: `new`, `write` for each record, and
the `flush_blocks` that `finalize` starts with. -/
def writeBlocks (x : Externals) (blockLimit : Option Nat) (recordCount : Nat)
    (recs : List Record) : Outcome SstError HashedWriterState := do
  let st ← (Outcome.ofExcept (HashedWriterState.new x blockLimit recordCount)).mapErr
    .invalidBlockLimit
  let (out, st) := (do
    HashedWriterState.writeAll x recs
    HashedWriterState.flushBlocks x : Action HashedWriterState SstError Unit) st
  out >>= fun _ => return st

/-! ## Reading -/

/-- `sst::SstHandle`, with the id and the bytes of its file. -/
structure SstHandle where
  id : UInt64
  file : List UInt8
  blockMetadata : List BlockMetadata
  blockMetadataStartOffset : Nat
  bloom : BloomFilter
  deriving DecidableEq, Repr

/-- The handle `finalize_file` builds from the blocks of a writer state, for
the file `id`; `tail` is what stands after them in the file. -/
def HashedWriterState.handle (st : HashedWriterState) (id : UInt64) (tail : List UInt8) :
    SstHandle :=
  { id := id
    file := st.writer ++ tail
    blockMetadata := st.blockMeta
    blockMetadataStartOffset := st.blockBytesWritten
    bloom := st.bloom }

namespace SstHandle

variable (x : Externals) (h : SstHandle)

/-- Where a block ends: at the next block, or where the metadata starts. -/
def blockEnd (blockIdx : Nat) : Outcome SstError Nat :=
  if blockIdx = h.blockMetadata.length - 1 then .ok h.blockMetadataStartOffset
  else do
    let m ← .expect h.blockMetadata[blockIdx + 1]?
    return m.offset.toNat

/-- `SstHandle::read_block`. -/
def readBlock (blockIdx : Nat) : Outcome SstError Block :=
  match h.blockMetadata[blockIdx]? with
  | none => .err (.blockIdxOutOfBounds blockIdx h.blockMetadata.length)
  | some m => do
    let blockStart := m.offset.toNat
    let blockEnd ← h.blockEnd blockIdx
    if ¬ blockStart < blockEnd then .panic
    else
      match slice h.file blockStart blockEnd with
      | none => .err (.io "failed to fill whole buffer")
      | some buf => (Outcome.ofExcept (decodeBlock x.crc buf)).mapErr .blockCodecError

/-- `SstHandle::may_contain_stream_id`. -/
def mayContainStreamId (streamId : UInt64) : Option Bool := h.bloom.mayContain x streamId

/-- `SstHandle::block_idx_for_stream_id`. -/
def blockIdxForStreamId (streamId : UInt64) : Outcome SstError Nat := do
  if ¬ (← Outcome.expect (h.mayContainStreamId x streamId)) then
    .err (.streamIdNotFound streamId .none)
  else
    match searchList h.blockMetadata fun m => compare m.lastKey.streamId streamId with
    | .ok i => return i
    | .error i =>
      if i ≤ h.blockMetadata.length then return i
      else .err (.streamIdNotFound streamId .none)

end SstHandle

/-! ## `SstCursor` -/

/-- `sst::SstCursor`; its table is passed along. -/
structure SstCursor where
  blockCursor : Except SstError BlockCursor
  blockIdx : Nat
  startBound : Bound Key
  endBound : Bound Key

namespace SstCursor

variable (x : Externals) (h : SstHandle)

/-- How `SstCursor::new` places the cursor in its first block. -/
def seekStart (c : BlockCursor) : Bound Key → Option BlockCursor
  | .included k => c.seek k
  | .excluded k => do
    let c ← c.seek k
    if some k = c.currentRecord.map Record.key then c.next else return c
  | .unbounded => c.seekToFirst

/-- The block where `SstCursor::new` starts. -/
def startBlockIdx : Bound Key → Outcome SstError Nat
  | .included k => h.blockIdxForStreamId x k.streamId
  | .excluded k => h.blockIdxForStreamId x k.streamId
  | .unbounded => .ok 0

/-- `SstCursor::new`. -/
def new (bounds : Bound Key × Bound Key) : Outcome SstError SstCursor := do
  let blockIdx ← startBlockIdx x h bounds.1
  let block ← h.readBlock x blockIdx
  let cursor ← .expect (seekStart (BlockCursor.new block) bounds.1)
  return {
    blockCursor := .ok cursor
    blockIdx := blockIdx
    startBound := bounds.1
    endBound := bounds.2 }

/-- `SstCursor::is_error`. -/
def isError (c : SstCursor) : Bool :=
  match c.blockCursor with
  | .ok c => c.isError
  | .error _ => true

/-- `SstCursor::current_record`. -/
def currentRecord (c : SstCursor) : Option Record :=
  match c.blockCursor with
  | .ok c => c.currentRecord
  | .error _ => none

/-- `SstCursor::take_current`. -/
def takeCurrent (c : SstCursor) : Option Record × SstCursor :=
  match c.blockCursor with
  | .ok bc =>
    let (r, bc) := bc.takeCurrent
    (r, { c with blockCursor := .ok bc })
  | .error _ => (none, c)

/-- `SstCursor::update_current`. -/
def updateCurrent (c : SstCursor) : Option SstCursor :=
  if h.blockMetadata.length ≤ c.blockIdx then
    some { c with blockCursor := .error (.blockIdxOutOfBounds c.blockIdx h.blockMetadata.length) }
  else
    match h.readBlock x c.blockIdx with
    | .ok block => do
      let cursor ← (BlockCursor.new block).seekToFirst
      return { c with blockCursor := .ok cursor }
    | .err e => some { c with blockCursor := .error e }
    | .panic => none

/-- `SstCursor::seek_to_first`. -/
def seekToFirst (c : SstCursor) : Option SstCursor := { c with blockIdx := 0 }.updateCurrent x h

/-- The closure of `SstCursor::seek`. It compares the key sought with the
block, where `binary_search_by` asks for the comparison of the block with the
key. -/
def compareMeta (seekKey : Key) (m : BlockMetadata) : Outcome SstError Ordering :=
  match compare seekKey m.firstKey, compare seekKey m.lastKey with
  | .lt, .gt => .err .invalidBlockNotSorted
  | .eq, _ => .ok .eq
  | _, .eq => .ok .eq
  | .gt, .lt => .ok .eq
  | .lt, _ => .ok .lt
  | _, .gt => .ok .gt

/-- The end of `SstCursor::seek`, when the block is found. -/
def seekBlock (c : SstCursor) (seekKey : Key) (i : Nat) : Option SstCursor := do
  let c ← { c with blockIdx := i }.updateCurrent x h
  match c.blockCursor with
  | .ok bc => return { c with blockCursor := .ok (← bc.seek seekKey) }
  | .error _ => return c

/-- `SstCursor::seek`. -/
def seek (c : SstCursor) (seekKey : Key) : Option SstCursor :=
  match binarySearchM (fun i => do compareMeta seekKey (← .expect h.blockMetadata[i]?))
    h.blockMetadata.length with
  | .ok (.ok i) | .ok (.error i) => c.seekBlock x h seekKey i
  | .err e => some { c with blockCursor := .error e }
  | .panic => none

/-- `SstCursor::next_block_may_be_in_bounds`. -/
def nextBlockMayBeInBounds (c : SstCursor) : Bool :=
  match h.blockMetadata[c.blockIdx]? with
  | none => false
  | some m => c.endBound.endOk m.firstKey

/-- The end of `SstCursor::next`, when the block has no record left. -/
def enterNextBlock (c : SstCursor) : Option SstCursor :=
  let c := { c with blockIdx := c.blockIdx + 1 }
  if c.nextBlockMayBeInBounds h then c.updateCurrent x h
  else some { c with blockCursor := .error .blockCursorExhausted }

/-- `SstCursor::next`: an error of the block cursor is a `todo!`. -/
def next (c : SstCursor) : Option SstCursor :=
  match c.blockCursor with
  | .error _ => some c
  | .ok bc => do
    let bc ← bc.next
    let c := { c with blockCursor := .ok bc }
    match bc.record with
    | .ok (some _) => return c
    | .ok none => c.enterNextBlock x h
    | .error _ => none

end SstCursor

/-- `SstHandle::cursor`. -/
def SstHandle.cursor (x : Externals) (h : SstHandle) (bounds : Option (Bound Key × Bound Key)) :
    Outcome SstError SstCursor :=
  SstCursor.new x h (bounds.getD (.unbounded, .unbounded))

end LG.Impl.Tsdb
