import Logregator.Framework.Outcome
import Logregator.Framework.Utf8
import Logregator.Impl.Core.Record

/-!
# The wire protocol (`proto.rs`)

A frame is the length of its body in four big-endian bytes, then the body: the
type of a message in one byte, and its payload. `ServerCodec` decodes messages
of clients and encodes those of the server, `ClientCodec` the other way round.
Numbers are read with a check of the payload's length (`array4`, `array8`);
the bytes of a string are a slice of as many as its length says, which panics
beyond the payload's end.
-/

namespace LG.Impl.Core.Proto

/-- `proto::Insert`. -/
structure Insert where
  sourceId : Int64
  ts : Int64
  key : Str
  value : Str
  deriving DecidableEq

/-- `proto::Range`. -/
structure Range where
  sourceId : Int64
  key : Str
  startTs : Int64
  endTs : Int64
  filter : Str
  deriving DecidableEq

/-- `proto::ClientMessage`. -/
inductive ClientMessage where
  | insert (i : Insert)
  | range (r : Range)
  | batchInsert (records : List Insert)
  | metrics
  | ping
  deriving DecidableEq

/-- `proto::Record`. -/
structure Record where
  sourceId : Int64
  ts : Int64
  seq : UInt64
  key : Str
  value : Str
  deriving DecidableEq

/-- `proto::ServerMessage`. -/
inductive ServerMessage where
  | insertOk
  | rangeRecord (rec : Record)
  | rangeEnd
  | metrics (json : Str)
  | pong
  | error (err : Str)
  deriving DecidableEq

/-! ## Reading a payload -/

/-- The errors of decoding: "truncated frame" and bytes that are not UTF-8,
in a context, and the message of one for a type that is not known. -/
inductive DecodeError where
  | truncated (context : String)
  | invalidUtf8 (context : String)
  | invalidData (message : String)
  deriving DecidableEq

/-- `u32::from_be_bytes` of `array4`. -/
def array4 (buf : List UInt8) (off : Nat) (context : String) : Outcome DecodeError Nat :=
  if off + 4 ≤ buf.length then .ok (u32At buf off) else .err (.truncated context)

/-- `u64::from_be_bytes` of `array8`. -/
def array8 (buf : List UInt8) (off : Nat) (context : String) : Outcome DecodeError UInt64 :=
  if off + 8 ≤ buf.length then .ok (u64At buf off) else .err (.truncated context)

/-- `from_utf8` of `&buf[lo..hi]`. -/
def fromUtf8 (buf : List UInt8) (lo hi : Nat) (context : String) : Outcome DecodeError Str :=
  match slice buf lo hi with
  | none => .panic
  | some bs => if h : utf8 bs = true then .ok ⟨bs, h⟩ else .err (.invalidUtf8 context)

/-- `decode_insert`. -/
def decodeInsert (buf : List UInt8) : Outcome DecodeError Insert := do
  let sourceId ← array8 buf 0 "decode_insert: failed to read source_id"
  let ts ← array8 buf 8 "decode_insert: failed to read timestamp"
  let keyLen ← array4 buf 16 "decode_insert: failed to read key length"
  let key ← fromUtf8 buf 20 (20 + keyLen) "decode_insert: failed to decode key"
  let valueLen ← array4 buf (20 + keyLen) "decode_insert: failed to read value length"
  let value ← fromUtf8 buf (24 + keyLen) (24 + keyLen + valueLen)
    "decode_insert: failed to decode value"
  return { sourceId := sourceId.toInt64, ts := ts.toInt64, key, value }

/-- `decode_range`. -/
def decodeRange (buf : List UInt8) : Outcome DecodeError Range := do
  let sourceId ← array8 buf 0 "decode_range: failed to read source_id"
  let keyLen ← array4 buf 8 "decode_range: failed to read key length"
  let key ← fromUtf8 buf 12 (12 + keyLen) "decode_range: failed to decode key"
  let startTs ← array8 buf (12 + keyLen) "decode_range: failed to read start_ts"
  let endTs ← array8 buf (20 + keyLen) "decode_range: failed to read end_ts"
  let filterLen ← array4 buf (28 + keyLen) "decode_range: failed to read filter length"
  let filter ← fromUtf8 buf (32 + keyLen) (32 + keyLen + filterLen)
    "decode_range: failed to decode filter"
  return { sourceId := sourceId.toInt64, key, startTs := startTs.toInt64, endTs := endTs.toInt64
           filter }

/-- The loop of `decode_batch_insert`, from an offset on. -/
def decodeRecords (buf : List UInt8) : Nat → Nat → Outcome DecodeError (List Insert)
  | 0, _ => return []
  | n + 1, offset => do
    let sourceId ← array8 buf offset "decode_batch_insert: failed to read source_id"
    let offset := offset + 8
    let ts ← array8 buf offset "decode_batch_insert: failed to read timestamp"
    let offset := offset + 8
    let keyLen ← array4 buf offset "decode_batch_insert: failed to read key length"
    let offset := offset + 4
    let key ← fromUtf8 buf offset (offset + keyLen) "decode_batch_insert: failed to decode key"
    let offset := offset + keyLen
    let valueLen ← array4 buf offset "decode_batch_insert: failed to read value length"
    let offset := offset + 4
    let value ← fromUtf8 buf offset (offset + valueLen) "decode_batch_insert: failed to decode value"
    let offset := offset + valueLen
    let records ← decodeRecords buf n offset
    return { sourceId := sourceId.toInt64, ts := ts.toInt64, key, value } :: records

/-- `decode_batch_insert`. -/
def decodeBatchInsert (buf : List UInt8) : Outcome DecodeError (List Insert) := do
  let numRecords ← array4 buf 0 "decode_batch_insert: failed to read record count"
  decodeRecords buf numRecords 4

/-- `decode_server_range_record`. -/
def decodeServerRangeRecord (buf : List UInt8) : Outcome DecodeError Record := do
  let sourceId ← array8 buf 0 "decode_server_range_record: failed to read source_id"
  let ts ← array8 buf 8 "decode_server_range_record: failed to read timestamp"
  let seq ← array8 buf 16 "decode_server_range_record: failed to read seq_num"
  let keyLen ← array4 buf 24 "decode_server_range_record: failed to read key length"
  let key ← fromUtf8 buf 28 (28 + keyLen) "decode_server_range_record: failed to decode key"
  let valueLen ← array4 buf (28 + keyLen) "decode_server_range_record: failed to read value length"
  let value ← fromUtf8 buf (32 + keyLen) (32 + keyLen + valueLen)
    "decode_server_range_record: failed to decode value"
  return { sourceId := sourceId.toInt64, ts := ts.toInt64, seq, key, value }

/-- A payload that is one string. -/
def decodeStr (buf : List UInt8) (lenContext context : String) : Outcome DecodeError Str := do
  let len ← array4 buf 0 lenContext
  fromUtf8 buf 4 (4 + len) context

/-- `decode_server_error`. -/
def decodeServerError (buf : List UInt8) : Outcome DecodeError Str :=
  decodeStr buf "decode_server_error: failed to read error message length"
    "decode_server_error: failed to decode error message"

/-- `decode_metrics`. -/
def decodeMetrics (buf : List UInt8) : Outcome DecodeError Str :=
  decodeStr buf "decode_metrics: failed to read json length"
    "decode_metrics: failed to decode metrics json"

/-! ## Frames -/

/-- `{t:#04x}`. -/
def hexByte (t : UInt8) : String :=
  (if t < 16 then "0x0" else "0x") ++ String.ofList (Nat.toDigits 16 t.toNat)

/-- The `decode` of both codecs, with what they do with a message's type and
payload. A frame is taken off the buffer before its type is looked at. -/
def decodeFrame {α : Type} (decodeMessage : UInt8 → List UInt8 → Outcome DecodeError α) :
    Action (List UInt8) DecodeError (Option α) := fun src =>
  if src.length < 4 then (.ok none, src)
  else
    let totalLen := 4 + u32At src 0
    if src.length < totalLen then (.ok none, src)
    else
      match (src.take totalLen).drop 4 with
      | [] => (.panic, src.drop totalLen)
      | msgType :: frame => (some <$> decodeMessage msgType frame, src.drop totalLen)

/-- `encode` of both codecs: the frame's length is written over four zeros
when its body is there. -/
def encodeFrame (dst body : List UInt8) : List UInt8 :=
  let start := dst.length
  let dst := dst ++ beBytes 4 0 ++ body
  splice dst start (beBytes 4 (dst.length - start - 4))

/-- A string behind its length. -/
def strBytes (s : Str) : List UInt8 := beBytes 4 s.len ++ s.bytes

/-- `encode_record`. -/
def encodeRecord (rec : Record) : List UInt8 :=
  i64Bytes rec.sourceId ++ i64Bytes rec.ts ++ u64Bytes rec.seq ++ strBytes rec.key ++
    strBytes rec.value

/-- The bytes of an insert. -/
def insertBytes (i : Insert) : List UInt8 :=
  i64Bytes i.sourceId ++ i64Bytes i.ts ++ strBytes i.key ++ strBytes i.value

namespace ServerCodec

/-- The `match` of `ServerCodec::decode`. -/
def decodeMessage (msgType : UInt8) (frame : List UInt8) : Outcome DecodeError ClientMessage :=
  match msgType with
  | 0x01 => ClientMessage.insert <$> decodeInsert frame
  | 0x02 => ClientMessage.range <$> decodeRange frame
  | 0x03 => ClientMessage.batchInsert <$> decodeBatchInsert frame
  | 0x04 => .ok .metrics
  | 0x05 => .ok .ping
  | t => .err (.invalidData ("server_codec.decode: unknown message type: " ++ hexByte t))

/-- `ServerCodec::decode`. -/
def decode : Action (List UInt8) DecodeError (Option ClientMessage) := decodeFrame decodeMessage

/-- What `ServerCodec::encode` writes for a message. -/
def body : ServerMessage → List UInt8
  | .insertOk => [0x81]
  | .rangeRecord rec => 0x82 :: encodeRecord rec
  | .rangeEnd => [0x83]
  | .metrics json => 0x84 :: strBytes json
  | .pong => [0x85]
  | .error err => 0xFF :: strBytes err

/-- `ServerCodec::encode`. -/
def encode (dst : List UInt8) (msg : ServerMessage) : List UInt8 := encodeFrame dst (body msg)

end ServerCodec

namespace ClientCodec

/-- What `ClientCodec::encode` writes for a message. -/
def body : ClientMessage → List UInt8
  | .insert i => 0x01 :: insertBytes i
  | .range r => 0x02 :: (i64Bytes r.sourceId ++ strBytes r.key ++ i64Bytes r.startTs ++
      i64Bytes r.endTs ++ strBytes r.filter)
  | .batchInsert records => 0x03 :: (beBytes 4 records.length ++ records.flatMap insertBytes)
  | .metrics => [0x04]
  | .ping => [0x05]

/-- `ClientCodec::encode`. -/
def encode (dst : List UInt8) (msg : ClientMessage) : List UInt8 := encodeFrame dst (body msg)

/-- The `match` of `ClientCodec::decode`. -/
def decodeMessage (msgType : UInt8) (frame : List UInt8) : Outcome DecodeError ServerMessage :=
  match msgType with
  | 0x81 => .ok .insertOk
  | 0x82 => ServerMessage.rangeRecord <$> decodeServerRangeRecord frame
  | 0x83 => .ok .rangeEnd
  | 0x84 => ServerMessage.metrics <$> decodeMetrics frame
  | 0x85 => .ok .pong
  | 0xFF => ServerMessage.error <$> decodeServerError frame
  | t => .err (.invalidData ("client_codec.decode: unknown message type: " ++ hexByte t))

/-- `ClientCodec::decode`. -/
def decode : Action (List UInt8) DecodeError (Option ServerMessage) := decodeFrame decodeMessage

end ClientCodec

/-- `write_record_frame` of `server.rs`. -/
def writeRecordFrame (buf : List UInt8) (rec : Record) : List UInt8 :=
  let start := buf.length
  let buf := buf ++ beBytes 4 0
  let buf := buf ++ [0x82]
  let buf := buf ++ i64Bytes rec.sourceId
  let buf := buf ++ i64Bytes rec.ts
  let buf := buf ++ u64Bytes rec.seq
  let buf := buf ++ beBytes 4 rec.key.len
  let buf := buf ++ rec.key.bytes
  let buf := buf ++ beBytes 4 rec.value.len
  let buf := buf ++ rec.value.bytes
  let frameLen := buf.length - start - 4
  splice buf start (beBytes 4 frameLen)

end LG.Impl.Core.Proto
