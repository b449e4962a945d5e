import Logregator.Impl.Tsdb.Codec

/-!
# What a codec promises, and what a framed log holds

An encoder uses the first bytes of a buffer, and it does not matter how long
the buffer is (`EncodesInto`). The items of a log that was cut after so many
bytes (`wholeItems`), and the pieces in which a `FramedReader` gets the bytes of
a log when it has decoded all it has before each read (`piecesOf`). The states
that a reader passes through (`Passes`), and the calls of `next` with what the
source has answered up to them (`Called`).
-/

namespace LG.Spec.Tsdb

open LG.Impl.Tsdb

/-! ## Encoders -/

section

variable {I : Type} (codec : SpecCodec I) (item : I)

/-- The item is encoded into a buffer of its length. -/
def CanEncode : Prop :=
  ∃ dst n, dst.length = codec.wireLen item ∧ (codec.encode item dst).1 = .ok n

/-- Encoding into the buffer returns the length of the item, writes what it
writes into a buffer of that length, and leaves the bytes after it. -/
structure EncodesInto (dst : List UInt8) : Prop where
  returns : (codec.encode item dst).1 = .ok (codec.wireLen item)
  writes : ∀ exact : List UInt8, exact.length = codec.wireLen item →
    (codec.encode item dst).2.take (codec.wireLen item) = (codec.encode item exact).2
  leaves : (codec.encode item dst).2.drop (codec.wireLen item) = dst.drop (codec.wireLen item)

end

/-! ## Logs -/

/-- The items that lie wholly inside the first `n` bytes. -/
def wholeItems {I : Type} (len : I → Nat) : Nat → List I → List I
  | _, [] => []
  | n, i :: items => if len i ≤ n then i :: wholeItems len (n - len i) items else []

/-- The bytes that the reads of a `FramedReader` give, when its window is empty
before each of them; `pos` is where the window stands in the buffer. -/
def pieces : Nat → Nat → BufReader → List (List UInt8)
  | 0, _, _ => []
  | n + 1, pos, inner =>
    let pos := if pos = bufsize then 0 else pos
    match inner.read (bufsize - pos) with
    | (some (b :: bs), inner) => (b :: bs) :: pieces n (pos + (b :: bs).length) inner
    | _ => []

/-- The pieces of a source; each has a byte at least. -/
def piecesOf (s : ByteSource) : List (List UInt8) := pieces s.rest.length 0 (.new s)

/-- Each piece ends where an item ends. -/
def EndsOnItems {I : Type} (len : I → Nat) : List I → List (List UInt8) → Prop
  | _, [] => True
  | items, p :: ps =>
    let whole := wholeItems len p.length items
    (whole.map len).sum = p.length ∧ EndsOnItems len (items.drop whole.length) ps

/-! ## Runs of a reader -/

section

variable {I : Type} (codec : SpecCodec I)

/-- The readers at the start of each round of `next` and after each call,
whatever the source answers. -/
inductive Passes (s : ByteSource) : FramedReader → Prop
  | new : Passes s (.new s)
  | taken {r : FramedReader} {src : List UInt8} {i : I} {n : Nat} (h : Passes s r)
      (hs : slice r.buf r.start r.stop = some src) (hd : codec.decode src = .ok (some (i, n))) :
      Passes s { r with start := r.start + n }
  | filled {r : FramedReader} {src : List UInt8} (h : Passes s r)
      (hs : slice r.buf r.start r.stop = some src) (hd : codec.decode src = .ok none) :
      Passes s r.fill.2

/-- What the source answers to the read of `fill`, if it is asked. -/
def fillAnswers (r : FramedReader) : List (Option (List UInt8)) :=
  r.makeRoom.inner.answers (r.makeRoom.buf.length - r.makeRoom.stop)

/-- What the source answers during the rounds of `next`: `none` is an error,
and `some []` says that it is at its end. -/
def answersLoop : Nat → FramedReader → List (Option (List UInt8))
  | 0, _ => []
  | rounds + 1, r =>
    match codec.decode ((r.buf.drop r.start).take (r.stop - r.start)) with
    | .ok none =>
      fillAnswers r ++ if r.fill.1 = some false then answersLoop rounds r.fill.2 else []
    | _ => []

/-- What the source answers during a call of `next`. -/
def answers (r : FramedReader) : List (Option (List UInt8)) :=
  answersLoop codec (r.inner.unread.length + 1) r

/-- The readers before each call of `next` until it returns `None`, with what
the source answered before the call. -/
inductive Called (s : ByteSource) : List (Option (List UInt8)) → FramedReader → Prop
  | first : Called s [] (.new s)
  | later {before : List (Option (List UInt8))} {r r' : FramedReader}
      {item : Except CodecError I} (h : Called s before r)
      (hnext : r.next codec = some (some item, r')) : Called s (before ++ answers codec r) r'

end

end LG.Spec.Tsdb
