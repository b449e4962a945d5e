/-!
# Errors of the storage engine (`lib.rs`, `codec.rs`, `block.rs`, `sst.rs`, `io.rs`)

The error types, with the data they carry. `std::io::Error` is its message.
-/

namespace LG.Impl.Tsdb

/-- `codec::CodecError`. -/
inductive CodecError where
  | io (msg : String)
  | other (msg : String)
  | notEnoughBytes (got want : Nat)
  | invalidPayloadSize (got min max : Nat)
  deriving DecidableEq, Repr

/-- `codec::invalid_payload_sz`: its last two arguments are `max`, `min`. -/
def invalidPayloadSz (got max min : Nat) : CodecError := .invalidPayloadSize got min max

/-- `block::BlockCodecError`, with `InvalidBlockSize` and `DecodeBlockError`
in place. -/
inductive BlockCodecError where
  | tooManyRecords (recordCount : Nat)
  | maxSizeExceeded (size : Nat)
  | invalidOffsets (start stop : Nat)
  | invalidOffsetSegment (start stop len : Option Nat)
  | invalidPayloadSize (got min max : Nat)
  | corruptedMetadata (context : String)
  | unexpectedSize (got want : Nat)
  | checksum (original computed : UInt32)
  deriving DecidableEq, Repr

/-- `block::InvalidBlockLimit`. -/
structure InvalidBlockLimit where
  got : Nat
  deriving DecidableEq, Repr

/-- `sst::BoundKind`. -/
inductive BoundKind where
  | start
  | stop
  | none
  deriving DecidableEq, Repr

/-- `sst::SstError`. -/
inductive SstError where
  | other (msg : String)
  | io (msg : String)
  | blockCodecError (e : BlockCodecError)
  | codecError (e : CodecError)
  | invalidBlockLimit (e : InvalidBlockLimit)
  | invalidBlockNotSorted
  | sstFilledUp
  | invalidSstSize (min max got : Nat)
  | blockIdxOutOfBounds (idx len : Nat)
  | streamIdNotFound (streamId : UInt64) (boundKind : BoundKind)
  | finalizeMissingKeys
  | checksumMismatch (original computed : UInt32)
  | blockCursorExhausted
  deriving DecidableEq, Repr

/-- `io::MemtableFlushError`. -/
inductive MemtableFlushError where
  | sstError (e : SstError)
  | manifestError (e : CodecError)
  deriving DecidableEq, Repr

/-- `crate::Error`: the variants of `ErrorImpl` that the modelled code
makes. -/
inductive Error where
  | message (msg : String)
  | codec (e : CodecError)
  | ioThreadError (e : MemtableFlushError)
  deriving DecidableEq, Repr

end LG.Impl.Tsdb
