import Logregator.Framework.Streaming
import Logregator.Impl.Core.Proto

/-!
# What the wire protocol is for

The messages of one side arrive at the other, however the stream between them
is cut. What the server writes may come from its codec or from
`write_record_frame` (`ServerWrite`). Decoding bytes from anywhere should be
`Total`; it is not where a frame is empty or a string in it is longer than the
rest of the frame (`Overlong`).
-/

namespace LG.Spec.Core.Proto

open LG.Impl.Core (u32At)
open LG.Impl.Core.Proto

/-- What the server writes to a connection's buffer. -/
inductive ServerWrite where
  | encode (msg : ServerMessage)
  | recordFrame (rec : Record)

namespace ServerWrite

def message : ServerWrite → ServerMessage
  | encode msg => msg
  | recordFrame rec => .rangeRecord rec

def run (dst : List UInt8) : ServerWrite → List UInt8
  | encode msg => ServerCodec.encode dst msg
  | recordFrame rec => writeRecordFrame dst rec

end ServerWrite

/-! ## Frames from anywhere -/

/-- A field of a payload: a number of so many bytes, or a string behind its
length. -/
inductive Field where
  | num (bytes : Nat)
  | str

/-- Of fields read one after the other, a string is longer than what is left;
those before it are there, and strings. -/
def Overruns : List Field → List UInt8 → Prop
  | [], _ => False
  | .num n :: fields, bs => n ≤ bs.length ∧ Overruns fields (bs.drop n)
  | .str :: fields, bs => 4 ≤ bs.length ∧
    ((bs.drop 4).length < u32At bs 0 ∨
      utf8 ((bs.drop 4).take (u32At bs 0)) = true ∧
        Overruns fields ((bs.drop 4).drop (u32At bs 0)))

def insertFields : List Field := [.num 8, .num 8, .str, .str]

/-- The fields of a client's message. -/
def clientFields (msgType : UInt8) (payload : List UInt8) : List Field :=
  match msgType with
  | 0x01 => insertFields
  | 0x02 => [.num 8, .str, .num 8, .num 8, .str]
  | 0x03 => .num 4 :: (List.replicate (u32At payload 0) insertFields).flatten
  | _ => []

/-- The fields of a server's message. -/
def serverFields (msgType : UInt8) (_ : List UInt8) : List Field :=
  match msgType with
  | 0x82 => [.num 8, .num 8, .num 8, .str, .str]
  | 0x84 => [.str]
  | 0xFF => [.str]
  | _ => []

/-- A complete frame is at the front of the buffer. -/
def Complete (src : List UInt8) : Prop := 4 ≤ src.length ∧ 4 + u32At src 0 ≤ src.length

/-- The body of the frame at the front of the buffer. -/
def frameBody (src : List UInt8) : List UInt8 := (src.take (4 + u32At src 0)).drop 4

/-- The frame at the front is complete, and has no type, or a string that is
longer than what is left of the frame. -/
def Overlong (fields : UInt8 → List UInt8 → List Field) (src : List UInt8) : Prop :=
  Complete src ∧
    (frameBody src = [] ∨ ∃ t payload, frameBody src = t :: payload ∧ Overruns (fields t payload) payload)

/-- Decoding does not panic, and takes a complete frame off the buffer, whatever
comes out. -/
structure Total {α : Type} (decode : Action (List UInt8) DecodeError (Option α)) (src : List UInt8) :
    Prop where
  returns : (decode src).1 ≠ .panic
  takes : Complete src → (decode src).2 = src.drop (4 + u32At src 0)

end LG.Spec.Core.Proto
