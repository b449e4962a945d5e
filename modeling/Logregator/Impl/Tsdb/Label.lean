import Logregator.Framework.OrdSet
import Logregator.Framework.Utf8
import Logregator.Impl.Tsdb.Record
import Mathlib.Data.List.AList
import Mathlib.Data.Finset.Card

/-!
# Label maps, streams and their manifest entries (`label.rs`, `manifest.rs`)

A payload starts with a label map, which names the stream it belongs to. The
registry gives label maps their stream ids; a new stream is also recorded as
a manifest entry. A label map carries a fingerprint of its contents, made by
`DefaultHasher`, which is taken as any function `fp`. Hash maps are finite
maps: two label maps are one key when fingerprint and contents agree.
-/

namespace LG.Impl.Tsdb

/-- `MIN_STR_SIZE`. -/
def minStrSize : Nat := 1
/-- `MAX_STR_SIZE`. -/
def maxStrSize : Nat := 255
/-- `MAX_LABEL_COUNT`. -/
def maxLabelCount : Nat := 255

/-- `label::Label`. -/
abbrev Label := Str × Str

/-- `label::LabelMap`. -/
structure LabelMap where
  inner : OrdMap Str Str
  fingerprint : UInt64
  deriving DecidableEq

namespace LabelMap

/-- `LabelMap::new`. -/
def new (fp : List Label → UInt64) (map : OrdMap Str Str) : LabelMap :=
  { inner := map, fingerprint := fp map.elems }

/-- `LabelMap::iter`. -/
def iter (m : LabelMap) : List Label := m.inner.elems

/-- `LabelMap::len`. -/
def len (m : LabelMap) : Nat := m.inner.elems.length

end LabelMap

/-! ## `LabelMapCodec::decode` -/

/-- `nom::error::ErrorKind`, as far as it occurs. -/
inductive NomKind where
  | eof
  | mapRes
  deriving DecidableEq, Repr

/-- `nom::Err<nom::error::Error<&[u8]>>`, as far as it occurs. -/
inductive NomErr where
  | error (input : List UInt8) (code : NomKind)
  | failure (input : List UInt8) (code : NomKind)
  deriving DecidableEq, Repr

/-- How `nom` shows an error. -/
def NomErr.display : NomErr → String
  | .error input code => "Parsing Error: " ++ detail input code
  | .failure input code => "Parsing Failure: " ++ detail input code
where
  detail (input : List UInt8) (code : NomKind) : String :=
    "Error \x7b input: [" ++ ", ".intercalate (input.map fun b => toString b.toNat) ++ "], code: " ++
      (match code with
        | .eof => "Eof"
        | .mapRes => "MapRes") ++ " \x7d"

/-- `take_lp_str`: the rest of the input, and the string. -/
def takeLpStr : List UInt8 → Except NomErr (List UInt8 × Str)
  | [] => .error (.error [] .eof)
  | len :: input =>
    if input.length < len.toNat then .error (.error input .eof)
    else if h : utf8 (input.take len.toNat) = true then
      .ok (input.drop len.toNat, ⟨input.take len.toNat, h⟩)
    else .error (.failure (input.drop len.toNat) .mapRes)

/-- The loop of `parse_label_map`. -/
def parseLabels : Nat → List UInt8 → OrdMap Str Str → Except NomErr (List UInt8 × OrdMap Str Str)
  | 0, remainder, map => .ok (remainder, map)
  | n + 1, remainder, map => do
    let (remainder, k) ← takeLpStr remainder
    let (remainder, v) ← takeLpStr remainder
    parseLabels n remainder (map.upsert k v)

/-- `parse_label_map`. -/
def parseLabelMap (fp : List Label → UInt64) :
    List UInt8 → Except NomErr (List UInt8 × LabelMap)
  | [] => .error (.error [] .eof)
  | labelCount :: input => do
    let (remainder, map) ← parseLabels labelCount.toNat input (.empty _)
    return (remainder, LabelMap.new fp map)

/-- `LabelMapCodec::decode`: the label map, and the bytes read. -/
def decodeLabelMap (fp : List Label → UInt64) (src : List UInt8) :
    Except CodecError (Option (LabelMap × Nat)) :=
  match parseLabelMap fp src with
  | .ok (remaining, map) => .ok (some (map, src.length - remaining.length))
  | .error e => .error (.other
      ("nom parsing error: failed to parse key-value pairs for label map: " ++ e.display))

/-! ## Manifest entries -/

/-- `manifest::ManifestEntry`. -/
inductive ManifestEntry where
  | memtableFlush (id : UInt64)
  | compaction (ids : List UInt64)
  | streamUpdate (streamId : UInt64) (labelmap : LabelMap)
  deriving DecidableEq

/-- A length that `stream_update` accepts: `MIN_STR_SIZE..MAX_STR_SIZE`. -/
def strSizeOk (s : Str) : Bool := minStrSize ≤ s.len && s.len < maxStrSize

/-- `ManifestEntry::stream_update`. -/
def ManifestEntry.streamUpdate? (streamId : UInt64) (labelmap : LabelMap) : Option ManifestEntry :=
  if maxLabelCount < labelmap.len then none
  else if labelmap.iter.all fun (k, v) => strSizeOk k && strSizeOk v then
    some (.streamUpdate streamId labelmap)
  else none

/-! ## `LabelMapCodec::encode` -/

/-- `LabelMap::wire_len`. -/
def LabelMap.wireLen (m : LabelMap) : Nat :=
  m.iter.foldl (fun sz l => sz + szU8 * 2 + (l.1.len + l.2.len)) szU8

/-- The check of the lengths in `LabelMapCodec::encode`. -/
def checkLabelSizes : List Label → Except CodecError Unit
  | [] => .ok ()
  | (k, v) :: labels =>
    if ¬ strSizeOk k then .error (.other ("labelmaps key length is invalid, got = " ++ toString k.len ++
      ", min = " ++ toString minStrSize ++ ", max = " ++ toString maxStrSize))
    else if ¬ strSizeOk v then .error (.other ("labelmaps value length is invalid, got = " ++
      toString v.len ++ ", min = " ++ toString minStrSize ++ ", max = " ++ toString maxStrSize))
    else checkLabelSizes labels

/-- A string with its length before it, copied into the buffer at `start`; with
where it ends. -/
def putLpStr (s : Str) (dst : List UInt8) (start : Nat) : List UInt8 × Nat :=
  let dst := splice dst start [UInt8.ofNat s.len]
  (splice dst (start + 1) s.bytes, start + 1 + s.len)

/-- The loop of `LabelMapCodec::encode`. -/
def putLabels : List Label → List UInt8 → Nat → List UInt8 × Nat
  | [], dst, start => (dst, start)
  | (k, v) :: labels, dst, start =>
    let (dst, start) := putLpStr k dst start
    let (dst, start) := putLpStr v dst start
    putLabels labels dst start

/-- `LabelMapCodec::encode`. -/
def encodeLabelMap (item : LabelMap) (dst : List UInt8) : Encoded :=
  if maxLabelCount < item.len then
    (.error (.other ("too many items in labelmap, got = " ++ toString item.len ++ " > max = " ++
      toString maxLabelCount)), dst)
  else
    match checkLabelSizes item.iter with
    | .error e => (.error e, dst)
    | .ok () =>
      if dst.length < item.wireLen then (.error (.notEnoughBytes dst.length item.wireLen), dst)
      else
        let dst := splice dst 0 [UInt8.ofNat item.len]
        let (dst, start) := putLabels item.iter dst 1
        (.ok start, dst)

/-! ## `StreamRegistry` -/

/-- `label::StreamRegistry`. -/
structure StreamRegistry where
  labelmapByStream : AList (fun _ : UInt64 => LabelMap)
  streamByLabelmap : AList (fun _ : LabelMap => UInt64)
  kvIndex : AList (fun _ : Label => Finset UInt64)
  deriving DecidableEq

namespace StreamRegistry

/-- `StreamRegistry::default`. -/
def empty : StreamRegistry := { labelmapByStream := ∅, streamByLabelmap := ∅, kvIndex := ∅ }

/-- One label of `StreamRegistry::insert`. -/
def indexLabel (streamId : UInt64) (index : AList (fun _ : Label => Finset UInt64)) (l : Label) :
    AList (fun _ : Label => Finset UInt64) :=
  match index.lookup l with
  | some streamIds => index.insert l (insert streamId streamIds)
  | none => index.insert l {streamId}

/-- `StreamRegistry::insert`. -/
def insert (reg : StreamRegistry) (streamId : UInt64) (labelmap : LabelMap) : StreamRegistry :=
  { labelmapByStream := reg.labelmapByStream.insert streamId labelmap
    streamByLabelmap := reg.streamByLabelmap.insert labelmap streamId
    kvIndex := labelmap.iter.foldl (indexLabel streamId) reg.kvIndex }

/-- One stream of the loop of `StreamRegistry::from`. -/
def indexStream (reg : StreamRegistry) (e : Sigma fun _ : UInt64 => LabelMap) : StreamRegistry :=
  { reg with
    streamByLabelmap := reg.streamByLabelmap.insert e.2 e.1
    kvIndex := e.2.iter.foldl (indexLabel e.1) reg.kvIndex }

/-- `<StreamRegistry as From<HashMap<u64, Arc<LabelMap>>>>::from`; `order` is the
order in which the hash map gives its entries. -/
def fromMap (labelmapByStream : AList fun _ : UInt64 => LabelMap)
    (order : List (Sigma fun _ : UInt64 => LabelMap)) : StreamRegistry :=
  order.foldl indexStream
    { labelmapByStream := labelmapByStream, streamByLabelmap := ∅, kvIndex := ∅ }

/-- `StreamRegistry::get_stream_id_by_labelmap`. -/
def getStreamIdByLabelmap (reg : StreamRegistry) (labelmap : LabelMap) : Option UInt64 :=
  reg.streamByLabelmap.lookup labelmap

/-- `StreamRegistry::get_labelmap_by_stream_ref`. -/
def getLabelmapByStreamRef (reg : StreamRegistry) (streamId : UInt64) : Option LabelMap :=
  reg.labelmapByStream.lookup streamId

/-- `StreamRegistry::get_labelmap_by_stream_cloned`. -/
def getLabelmapByStreamCloned (reg : StreamRegistry) (streamId : UInt64) : Option LabelMap :=
  reg.labelmapByStream.lookup streamId

/-- `StreamRegistry::get_streams_by_kv`. -/
def getStreamsByKv (reg : StreamRegistry) (kv : Label) : Option (Finset UInt64) :=
  reg.kvIndex.lookup kv

/-- The sets of `label_intersection` after the first: each keeps what it has,
and the loop ends when nothing is left. -/
def retainAll (acc : Finset UInt64) : List (Finset UInt64) → Finset UInt64
  | [] => acc
  | s :: sets =>
    let acc := acc.filter (· ∈ s)
    if acc = ∅ then acc else retainAll acc sets

/-- `StreamRegistry::label_intersection`: a label without streams is left
out. -/
def labelIntersection (reg : StreamRegistry) (labels : List Label) : Finset UInt64 :=
  let sets := labels.filterMap fun l => reg.kvIndex.lookup l
  match sets.mergeSort fun s t => s.card ≤ t.card with
  | [] => ∅
  | acc :: sets => retainAll acc sets

end StreamRegistry

end LG.Impl.Tsdb
