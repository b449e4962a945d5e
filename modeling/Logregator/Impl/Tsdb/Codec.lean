import Logregator.Framework.Outcome
import Logregator.Framework.Read
import Logregator.Impl.Tsdb.Manifest

/-!
# Framed logs (`codec.rs`)

`FramedWriter` writes items one after the other, `FramedReader` reads them
back from a source, through a buffer in which the bytes from `start` to `stop`
are still to be decoded. The writer's bytes reach the file in order; its
writes succeed.
-/

namespace LG.Impl.Tsdb

/-- `codec::SpecCodec`, with the items' `WireLen`. -/
structure SpecCodec (I : Type) where
  wireLen : I → Nat
  encode : I → List UInt8 → Encoded
  decode : List UInt8 → Except CodecError (Option (I × Nat))

/-- `RecordCodec`, on records. -/
def recordCodec : SpecCodec Record :=
  { wireLen := Record.wireLen, encode := encodeRecord, decode := decodeRecord }

/-- `RecordCodec`, on keys. -/
def keyCodec : SpecCodec Key :=
  { wireLen := Key.wireLen, encode := encodeKey, decode := decodeKey }

/-- `LabelMapCodec`. -/
def labelMapCodec (fp : List Label → UInt64) : SpecCodec LabelMap :=
  { wireLen := LabelMap.wireLen, encode := encodeLabelMap, decode := decodeLabelMap fp }

/-- `ManifestCodec`. -/
def manifestCodec (fp : List Label → UInt64) : SpecCodec ManifestEntry :=
  { wireLen := ManifestEntry.wireLen, encode := encodeManifestEntry, decode := decodeManifestEntry fp }

/-- `BUFSIZE`. -/
def bufsize : Nat := 4 * 1024

/-! ## `FramedWriter` -/

/-- `codec::FramedWriter`: `inner` holds the bytes written. -/
structure FramedWriter where
  inner : List UInt8
  bytesWritten : Nat
  deriving DecidableEq

namespace FramedWriter

variable {I : Type} (codec : SpecCodec I)

/-- `FramedWriter::new`, on an empty file. -/
def new : FramedWriter := { inner := [], bytesWritten := 0 }

/-- `FramedWriter::write`: the whole buffer is written, whatever the codec says
it took. -/
def write (item : I) : Action FramedWriter CodecError Unit := do
  let (out, buf) := codec.encode item (List.replicate (codec.wireLen item) 0)
  let n ← Action.lift (.ofExcept out)
  Action.modify fun w => { inner := w.inner ++ buf, bytesWritten := w.bytesWritten + n }

/-- `write` for each item in turn, ending at the first error. -/
def writeAll : List I → Action FramedWriter CodecError Unit
  | [] => pure ()
  | item :: items => do
    write codec item
    writeAll items

end FramedWriter

/-! ## `FramedReader` -/

/-- `codec::FramedReader`; `stop` is its field `end`. -/
structure FramedReader where
  inner : BufReader
  buf : List UInt8
  start : Nat
  stop : Nat
  deriving DecidableEq

namespace FramedReader

/-- `FramedReader::new`. -/
def new (r : ByteSource) : FramedReader :=
  { inner := .new r, buf := List.replicate bufsize 0, start := 0, stop := 0 }

/-- The start of `FramedReader::fill`, which makes room at the end of the
buffer: what is left to decode moves to the front, and a full buffer doubles. -/
def makeRoom (r : FramedReader) : FramedReader :=
  if r.stop = r.buf.length then
    let r :=
      if 0 < r.start then
        { r with
          buf := splice r.buf 0 ((r.buf.drop r.start).take (r.stop - r.start))
          stop := r.stop - r.start
          start := 0 }
      else r
    if r.stop = r.buf.length then { r with buf := r.buf ++ List.replicate r.buf.length 0 } else r
  else r

/-- `FramedReader::fill`: whether the source has nothing left; `none` is an
error. -/
def fill (r : FramedReader) : Option Bool × FramedReader :=
  let r := r.makeRoom
  match r.inner.read (r.buf.length - r.stop) with
  | (none, inner) => (none, { r with inner := inner })
  | (some [], inner) => (some true, { r with inner := inner })
  | (some bs, inner) =>
    (some false,
      { r with inner := inner, buf := splice r.buf r.stop bs, stop := r.stop + bs.length })

variable {I : Type} (codec : SpecCodec I)

/-- The loop of `FramedReader::next`, for at most so many rounds. `none` is a
panic: of the slice, if a codec took more bytes than there were. -/
def nextLoop : Nat → FramedReader → Option (Option (Except CodecError I) × FramedReader)
  | 0, _ => none
  | rounds + 1, r => do
    match codec.decode (← slice r.buf r.start r.stop) with
    | .ok (some (item, n)) => return (some (.ok item), { r with start := r.start + n })
    | .ok none =>
      match r.fill with
      | (some false, r) => nextLoop rounds r
      | (_, r) => return (none, r)
    | .error e => return (some (.error e), r)

/-- `FramedReader::next`: a round that does not end it takes a byte from the
source. -/
def next (r : FramedReader) : Option (Option (Except CodecError I) × FramedReader) :=
  nextLoop codec (r.inner.unread.length + 1) r

end FramedReader

end LG.Impl.Tsdb
