import Logregator.Impl.Tsdb.Label
import Mathlib.Data.PNat.Defs

/-!
# Requests from the network (`logregator-net/src/lib.rs`)

The parser for the labels of a range request, which is a copy of the one for
label maps, and the iterator over the payloads of a batch. The payloads of a
batch stand one after the other in its bytes, each from its offset on.
-/

namespace LG.Impl.Net

open LG.Impl.Tsdb (Label minStrSize)

/-! ## `RequestCodec` -/

/-- `nom::error::ErrorKind`, as far as it occurs in this crate. -/
inductive ErrorKind where
  | eof
  | lengthValue
  | mapRes
  deriving DecidableEq, Repr

/-- `nom::Err<nom::error::Error<&[u8]>>`, as far as it occurs. -/
inductive ParseError where
  | error (input : List UInt8) (code : ErrorKind)
  | failure (input : List UInt8) (code : ErrorKind)
  deriving DecidableEq, Repr

/-- `nom::number::complete::be_u8`. -/
def beU8 : List UInt8 → Except ParseError (List UInt8 × UInt8)
  | [] => .error (.error [] .eof)
  | b :: input => .ok (input, b)

/-- `nom::bytes::complete::take`. -/
def take (n : Nat) (input : List UInt8) : Except ParseError (List UInt8 × List UInt8) :=
  if input.length < n then .error (.error input .eof) else .ok (input.drop n, input.take n)

/-- `std::str::from_utf8`. -/
def fromUtf8 (bs input : List UInt8) : Except ParseError Str :=
  if h : utf8 bs = true then .ok ⟨bs, h⟩ else .error (.failure input .mapRes)

/-- `RequestCodec::parse_lp_str`. The range of lengths that it checks goes from
`MIN_STR_SIZE` to `MIN_STR_SIZE`. -/
def parseLpStr (src : List UInt8) : Except ParseError (List UInt8 × Str) := do
  let (input, len) ← beU8 src
  let len := len.toNat
  if ¬ (minStrSize ≤ len ∧ len < minStrSize) then .error (.failure input .lengthValue)
  else
    let (input, strBs) ← take len input
    let s ← fromUtf8 strBs input
    return (input, s)

/-- The loop of `RequestCodec::parse_lp_str_vec`: what a round leaves of the
input is dropped with its scope. -/
def parsePairs (input : List UInt8) : Nat → List Label → Except ParseError (List Label)
  | 0, v => .ok v
  | n + 1, v => do
    let (rest, key) ← parseLpStr input
    let (_, val) ← parseLpStr rest
    parsePairs input n (v ++ [(key, val)])

/-- `RequestCodec::parse_lp_str_vec`: it takes as many bytes as there are
labels off the input before it parses them. -/
def parseLpStrVec (src : List UInt8) : Except ParseError (List UInt8 × List Label) := do
  let (input, labelCount) ← beU8 src
  let (input, _) ← take labelCount.toNat input
  let v ← parsePairs input labelCount.toNat []
  return (input, v)

/-! ## `AppendBatchIter` -/

/-- `BytesOffset`: the offsets are `NonZeroUsize`. -/
structure BytesOffset where
  raw : List UInt8
  offsets : List ℕ+

/-- `AppendBatchIter`. -/
structure AppendBatchIter where
  inner : BytesOffset
  offsetIdx : Option Nat

namespace AppendBatchIter

/-- `AppendBatchIter::new`: `none` is its `debug_assert!`. -/
def new (batch : BytesOffset) : Option AppendBatchIter :=
  if batch.offsets.isEmpty then none else some { inner := batch, offsetIdx := some 0 }

/-- Where the slice at an index ends, and what `offset_idx` becomes: the offset
after it, if there is one. -/
def endOf (offsets : List ℕ+) (startOffsetIdx : Nat) : Option (Nat × Option Nat) :=
  if startOffsetIdx + 1 < offsets.length then do
    -- get_unchecked
    let endOffset ← offsets[startOffsetIdx + 1]?
    return (endOffset, some endOffset)
  else return (offsets.length, none)

/-- `AppendBatchIter::next`: `none` is a panic. -/
def next (it : AppendBatchIter) : Option (Option (List UInt8) × AppendBatchIter) :=
  match it.offsetIdx with
  | some startOffsetIdx => do
    let (stop, nextStartOffset) ← endOf it.inner.offsets startOffsetIdx
    let startOffset ← it.inner.offsets[startOffsetIdx]?
    let bytes ← slice it.inner.raw startOffset stop
    return (some bytes, { it with offsetIdx := nextStartOffset })
  | none => some (none, it)

end AppendBatchIter

end LG.Impl.Net
