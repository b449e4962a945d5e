import Logregator.Impl.Tsdb.Label

/-!
# The entries of the manifest and their codec (`manifest.rs`)

An entry is a tag and its data: the id of a flushed memtable, the ids of
compacted tables with their number before them, or a stream id and its label
map.
-/

namespace LG.Impl.Tsdb

/-- `MANIFEST_ENTRY_TAG_SZ`. -/
def manifestEntryTagSz : Nat := 1

namespace ManifestEntry

/-- `ManifestEntry::wire_len`. -/
def wireLen : ManifestEntry → Nat
  | memtableFlush _ => 1 + szU64
  | compaction ids => 1 + szU32 + ids.length * szU64
  | streamUpdate _ labelmap => 1 + szU64 + labelmap.wireLen

/-- `ManifestEntry::tag`. -/
def tag : ManifestEntry → UInt8
  | memtableFlush _ => 1
  | compaction _ => 2
  | streamUpdate _ _ => 3

/-- `ManifestEntry::sst_flush`. -/
def sstFlush (id : UInt64) : ManifestEntry := memtableFlush id

/-- `ManifestEntry::compaction`. -/
def compaction? (ids : List UInt64) : Option ManifestEntry :=
  if 2 ^ 32 - 1 < ids.length then none else some (compaction ids)

/-- `ManifestEntry::variant_str`. -/
def variantStr : ManifestEntry → String
  | memtableFlush _ => "ManifestEntry::SstFlush"
  | compaction _ => "ManifestEntry::Compaction"
  | streamUpdate _ _ => "ManifestEntry::StreamUpdate"

end ManifestEntry

/-- The loop of `ManifestCodec::encode` over the ids of a compaction. -/
def putIds : List UInt64 → List UInt8 → Nat → List UInt8 × Nat
  | [], dst, n => (dst, n)
  | id :: ids, dst, n => putIds ids (splice dst n (beBytes 8 id.toNat)) (n + szU64)

/-- `ManifestCodec::encode`. -/
def encodeManifestEntry (item : ManifestEntry) (dst : List UInt8) : Encoded :=
  if dst.length < item.wireLen then (.error (.notEnoughBytes dst.length item.wireLen), dst)
  else
    let dst := splice dst 0 [item.tag]
    match item with
    | .memtableFlush id => (.ok item.wireLen, splice dst 1 (beBytes 8 id.toNat))
    | .compaction ids =>
      let dst := splice dst 1 (beBytes 4 ids.length)
      let (dst, n) := putIds ids dst (1 + szU32)
      if n ≠ item.wireLen then
        (.error (.other ("failed to encode Sstable ids of " ++ item.variantStr ++ ", wrote " ++
          toString n ++ " bytes out of " ++ toString item.wireLen)), dst)
      else (.ok item.wireLen, dst)
    | .streamUpdate streamId labelmap =>
      let dst := splice dst 1 (beBytes 8 streamId.toNat)
      let (out, bs) := encodeLabelMap labelmap ((dst.drop (1 + szU64)).take labelmap.wireLen)
      let dst := splice dst (1 + szU64) bs
      match out with
      | .error e => (.error e, dst)
      | .ok n =>
        if n ≠ labelmap.wireLen then
          (.error (.other ("failed to encode labelmap field of ManifestEntry, wrote " ++
            toString n ++ " bytes out of " ++ toString labelmap.wireLen)), dst)
        else (.ok item.wireLen, dst)

/-- A decoded entry, and its length again. -/
def decodedEntry (me : ManifestEntry) : Except CodecError (Option (ManifestEntry × Nat)) :=
  .ok (some (me, me.wireLen))

/-- `ManifestCodec::decode`. -/
def decodeManifestEntry (fp : List Label → UInt64) (src : List UInt8) :
    Except CodecError (Option (ManifestEntry × Nat)) :=
  match src with
  | [] => .ok none
  | tag :: _ =>
    if tag = 1 then
      if src.length < manifestEntryTagSz + szU64 then
        .error (.notEnoughBytes src.length (manifestEntryTagSz + szU64))
      else decodedEntry (.memtableFlush (u64At src 1))
    else if tag = 2 then
      if src.length < manifestEntryTagSz + szU32 then
        .error (.notEnoughBytes src.length (manifestEntryTagSz + szU32))
      else
        let len := ofBe ((src.drop 1).take 4)
        if src.length < manifestEntryTagSz + szU32 + len * szU64 then
          .error (.notEnoughBytes src.length (manifestEntryTagSz + szU32 + len * szU64))
        else
          -- The loop reads at `n` each time: `n` is not advanced.
          let n := manifestEntryTagSz + szU32
          decodedEntry (.compaction ((List.range len).map fun _ => u64At src n))
    else if tag = 3 then
      if src.length < manifestEntryTagSz + szU64 then
        .error (.notEnoughBytes src.length (manifestEntryTagSz + szU64))
      else
        match decodeLabelMap fp (src.drop (manifestEntryTagSz + szU64)) with
        | .error e => .error e
        | .ok none => .ok none
        | .ok (some (labelmap, _)) => decodedEntry (.streamUpdate (u64At src 1) labelmap)
    else .error (.other ("unknown ManifestEntry variant " ++ toString tag.toNat))

end LG.Impl.Tsdb
