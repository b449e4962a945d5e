import Logregator.Impl.Net.Request

/-!
# What requests stand for

The layout of label maps, for any list of labels, and the payloads of a batch.
-/

namespace LG.Spec.Net

open LG.Impl.Net
open LG.Impl.Tsdb (Label)

/-- A string with its length before it. -/
def lpBytes (s : Str) : List UInt8 := UInt8.ofNat s.len :: s.bytes

/-- Labels in the layout of a label map: their number, and the two strings of
each. -/
def labelListBytes (labels : List Label) : List UInt8 :=
  UInt8.ofNat labels.length :: labels.flatMap fun l => lpBytes l.1 ++ lpBytes l.2

/-- The payloads of a batch: each ends where the next begins, and the last with
the bytes. -/
def payloads (raw : List UInt8) : List ℕ+ → List (List UInt8)
  | [] => []
  | [o] => [raw.drop o]
  | o :: o' :: offsets => (raw.drop o).take (o' - o : Nat) :: payloads raw (o' :: offsets)

end LG.Spec.Net
