import Logregator.Framework.Bytes
import Logregator.Framework.Outcome
import Logregator.Impl.Tsdb.Error
import Mathlib.Data.Prod.Lex

/-!
# Records, keys and their codec (`codec.rs`, `record.rs`)

A record is a key and a payload. Keys compare by stream, time, sequence
number and source, in this order (the derived `Ord` of the struct); their
bytes are laid out in another order (source, time, sequence, stream).
Encoders write into a buffer that they also leave changed when they fail, so
they return the buffer with the result.
-/

namespace LG.Impl.Tsdb

/-- What `SpecCodec::encode` leaves: the result, and the buffer. -/
abbrev Encoded := Except CodecError Nat × List UInt8

def szU8 : Nat := 1
def szU16 : Nat := 2
def szU32 : Nat := 4
def szU64 : Nat := 8

/-! ## Sizes -/

/-- `KEY_SIZE`: four `u64`s. -/
def keySize : Nat := 32
/-- `PAYLOAD_LEN_SIZE`. -/
def payloadLenSize : Nat := 4
/-- `label::LABEL_COUNT_WIRE_LEN`. -/
def labelCountWireLen : Nat := 1
/-- `MIN_PAYLOAD_LENGTH`. -/
def minPayloadLength : Nat := labelCountWireLen + 1
/-- `MAX_PAYLOAD_LENGTH`. -/
def maxPayloadLength : Nat := 4096
/-- `MIN_RECORD_WIRE_LENGTH`. -/
def minRecordWireLength : Nat := keySize + szU32 + minPayloadLength
/-- `MAX_RECORD_WIRE_LENGTH`. -/
def maxRecordWireLength : Nat := keySize + szU32 + maxPayloadLength

/-- `check_payload_size`. -/
def checkPayloadSize (payloadLen : Nat) : Except CodecError Unit :=
  if minPayloadLength ≤ payloadLen ∧ payloadLen ≤ maxPayloadLength then .ok ()
  else .error (invalidPayloadSz payloadLen maxRecordWireLength minRecordWireLength)

/-! ## Keys -/

/-- `record::Key`. -/
structure Key where
  streamId : UInt64
  timestamp : UInt64
  sequenceNum : UInt64
  sourceId : UInt64
  deriving DecidableEq, Repr

/-- The fields in the order the derived `Ord` compares them. -/
def Key.fields (k : Key) : UInt64 ×ₗ UInt64 ×ₗ UInt64 ×ₗ UInt64 :=
  toLex (k.streamId, toLex (k.timestamp, toLex (k.sequenceNum, k.sourceId)))

theorem Key.fields_injective : Function.Injective Key.fields := by
  intro ⟨a, b, c, d⟩ ⟨a', b', c', d'⟩ h
  simpa [Key.fields] using h

instance : LinearOrder Key := LinearOrder.lift' Key.fields Key.fields_injective

/-- `Key::wire_len`. -/
def Key.wireLen (_ : Key) : Nat := keySize

/-- `Key::to_be_bytes`: source, time, sequence number, stream. -/
def Key.toBeBytes (k : Key) : List UInt8 :=
  beBytes 8 k.sourceId.toNat ++ beBytes 8 k.timestamp.toNat ++ beBytes 8 k.sequenceNum.toNat ++
    beBytes 8 k.streamId.toNat

/-- `u64::from_be_bytes` of the eight bytes at `i`. -/
def u64At (src : List UInt8) (i : Nat) : UInt64 := UInt64.ofNat (ofBe ((src.drop i).take 8))

/-- `Key::from_be_bytes`. -/
def Key.fromBeBytes (src : List UInt8) : Except CodecError Key :=
  if src.length < keySize then .error (.notEnoughBytes src.length keySize)
  else .ok
    { sourceId := u64At src 0
      timestamp := u64At src 8
      sequenceNum := u64At src 16
      streamId := u64At src 24 }

/-! ## Records -/

/-- `record::Record`. -/
structure Record where
  key : Key
  payload : List UInt8
  deriving DecidableEq, Repr

/-- `Record::wire_len`. -/
def Record.wireLen (r : Record) : Nat := r.key.wireLen + szU32 + r.payload.length

/-- `size_of::<Record>()`: the key, and the two words of an `Arc<[u8]>`. -/
def recordStructSize : Nat := keySize + 16

/-- `Record::size_of`. -/
def Record.sizeOf (r : Record) : Nat := recordStructSize + r.payload.length

/-! ## `RecordCodec` -/

/-- `<RecordCodec as SpecCodec<Key>>::encode`: a buffer longer than a key is
an error, from `dst.try_into()`. -/
def encodeKey (key : Key) (dst : List UInt8) : Encoded :=
  if dst.length < key.wireLen then (.error (.notEnoughBytes dst.length key.wireLen), dst)
  else if dst.length ≠ keySize then (.error (.io "could not convert slice to array"), dst)
  else (.ok keySize, key.toBeBytes)

/-- `<RecordCodec as SpecCodec<Key>>::decode`. -/
def decodeKey (src : List UInt8) : Except CodecError (Option (Key × Nat)) :=
  if src.length < keySize then .ok none
  else do
    let k ← Key.fromBeBytes (src.take keySize)
    return some (k, keySize)

/-- `<RecordCodec as SpecCodec<Record>>::encode`: the key is in the buffer
when the payload's length is refused. -/
def encodeRecord (r : Record) (dst : List UInt8) : Encoded :=
  if dst.length < r.wireLen then (.error (.notEnoughBytes dst.length r.wireLen), dst)
  else
    match encodeKey r.key (dst.take keySize) with
    | (.error e, bs) => (.error e, splice dst 0 bs)
    | (.ok _, bs) =>
      let dst := splice dst 0 bs
      if ¬ (minPayloadLength ≤ r.payload.length ∧ r.payload.length ≤ maxPayloadLength) then
        (.error (invalidPayloadSz r.payload.length maxRecordWireLength minRecordWireLength), dst)
      else
        let dst := splice dst keySize (beBytes 4 r.payload.length)
        (.ok r.wireLen, splice dst (keySize + payloadLenSize) r.payload)

/-- `<RecordCodec as SpecCodec<Record>>::decode`. -/
def decodeRecord (src : List UInt8) : Except CodecError (Option (Record × Nat)) :=
  if src.length < keySize + payloadLenSize then .ok none
  else do
    match ← decodeKey src with
    | none => return none
    | some (key, _) =>
      let payloadLen := ofBe ((src.drop keySize).take payloadLenSize)
      checkPayloadSize payloadLen
      let total := keySize + payloadLenSize + payloadLen
      if src.length < total then return none
      else
        return some (⟨key, (src.drop (keySize + payloadLenSize)).take payloadLen⟩, total)

/-! ## Decoding with its panics -/

/-- `Key::from_be_bytes` with its indices into the bytes. -/
def Key.fromBeBytesChecked (src : List UInt8) : Outcome CodecError Key :=
  if src.length < keySize then .err (.notEnoughBytes src.length keySize)
  else do
    let sourceId ← .expect (slice src 0 8)
    let timestamp ← .expect (slice src 8 16)
    let sequenceNum ← .expect (slice src 16 24)
    let streamId ← .expect (slice src 24 32)
    return {
      sourceId := UInt64.ofNat (ofBe sourceId)
      timestamp := UInt64.ofNat (ofBe timestamp)
      sequenceNum := UInt64.ofNat (ofBe sequenceNum)
      streamId := UInt64.ofNat (ofBe streamId) }

/-- `decodeKey` with the slice of the source. -/
def decodeKeyChecked (src : List UInt8) : Outcome CodecError (Option (Key × Nat)) :=
  if src.length < keySize then .ok none
  else do
    let k ← Key.fromBeBytesChecked (← .expect (slice src 0 keySize))
    return some (k, keySize)

/-- `decodeRecord` with the indices and slices of the source. -/
def decodeRecordChecked (src : List UInt8) : Outcome CodecError (Option (Record × Nat)) :=
  if src.length < keySize + payloadLenSize then .ok none
  else do
    match ← decodeKeyChecked src with
    | none => return none
    | some (key, _) =>
      let payloadLen := ofBe (← .expect (slice src keySize (keySize + payloadLenSize)))
      .ofExcept (checkPayloadSize payloadLen)
      let total := keySize + payloadLenSize + payloadLen
      if src.length < total then return none
      else
        let payload ← .expect (slice src (keySize + payloadLenSize) total)
        return some (⟨key, payload⟩, total)

end LG.Impl.Tsdb
