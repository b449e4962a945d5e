import Logregator.Framework.HashMap
import Logregator.Impl.Tsdb.Manifest
import Mathlib.Data.List.Infix

/-!
# Snapshots of the manifest (`manifest.rs`)

A snapshot has the state of each table and the label map of each stream that
the entries of a manifest speak of. When the manifest is full, a snapshot of it
is merged with the one in the snapshot file, written there, and the manifest
emptied. The two files are given by what is read from them: the bytes of the
snapshot file, which `serde_json` reads (`SnapshotJson`), and what the reader of
the manifest yields.
-/

namespace LG.Impl.Tsdb

/-- `manifest::SstState`. -/
inductive SstState where
  | live
  | removed
  deriving DecidableEq, Repr

/-- `manifest::Snapshot`. -/
structure Snapshot where
  sstableState : AList fun _ : UInt64 => SstState
  labelmaps : AList fun _ : UInt64 => LabelMap
  deriving DecidableEq

namespace Snapshot

/-- `Snapshot::default`. -/
def empty : Snapshot := { sstableState := ∅, labelmaps := ∅ }

/-! ## `Snapshot::from_manifest` -/

/-- What the loop of `from_manifest` does with an entry. -/
def tally (s : Snapshot) : ManifestEntry → Snapshot
  | .memtableFlush id => { s with sstableState := s.sstableState.insert id .live }
  | .compaction ids =>
    { s with sstableState := ids.foldl (fun ssts id => ssts.insert id .removed) s.sstableState }
  | .streamUpdate streamId labelmap =>
    { s with labelmaps := s.labelmaps.insert streamId labelmap }

/-- The loop of `from_manifest`. -/
def tallyAll (s : Snapshot) : List (Except CodecError ManifestEntry) → Except CodecError Snapshot
  | [] => .ok s
  | .error e :: _ => .error e
  | .ok entry :: es => tallyAll (s.tally entry) es

/-- `Snapshot::from_manifest`, of what the manifest's reader yields. -/
def fromManifest (es : List (Except CodecError ManifestEntry)) : Except CodecError Snapshot :=
  tallyAll empty es

/-! ## `Snapshot::merge` -/

/-- What `merge` does with a table of the delta. -/
def mergeSst (ssts : AList fun _ : UInt64 => SstState) (e : Sigma fun _ : UInt64 => SstState) :
    AList fun _ : UInt64 => SstState :=
  match e.2 with
  | .live => ssts.insert e.1 .live
  | .removed => ssts.erase e.1

/-- `Snapshot::merge`. -/
def merge (older delta : Snapshot) : Snapshot :=
  { sstableState :=
      delta.sstableState.entries.foldl mergeSst (retain (· == .live) older.sstableState)
    labelmaps := delta.labelmaps.entries.foldl (fun m e => m.insert e.1 e.2) older.labelmaps }

/-- The snapshot that `Snapshot::write_to` writes, from the one that it found. -/
def mergeInto (delta : Snapshot) : Option Snapshot → Snapshot
  | some old => merge old delta
  | none => delta

end Snapshot

/-! ## The files -/

/-- `serde_json`, as far as it writes and reads snapshots. -/
structure SnapshotJson where
  toWriterPretty : Snapshot → List UInt8
  fromReader : List UInt8 → Option Snapshot

/-- The snapshot file, if there is one, and what the reader of the manifest
yields. -/
structure ManifestFiles where
  snapshot : Option (List UInt8)
  manifest : List (Except CodecError ManifestEntry)

namespace ManifestFiles

/-- What `Snapshot::write_to` has to write; `none` if the file that it found
cannot be read. -/
def toWrite (j : SnapshotJson) (files : ManifestFiles) (delta : Snapshot) : Option Snapshot :=
  match files.snapshot with
  | some bytes => (j.fromReader bytes).map fun old => delta.mergeInto (some old)
  | none => some (delta.mergeInto none)

/-- `Manifest::snapshot_truncate`: the files before it, and after each of its
steps on the file system. The snapshot file is emptied when it is opened, and
filled byte by byte; the manifest is emptied last. -/
def snapshotTruncate (j : SnapshotJson) (files : ManifestFiles) : List ManifestFiles :=
  match Snapshot.fromManifest files.manifest with
  | .error _ => [files]
  | .ok delta =>
    match files.toWrite j delta with
    | none => [files]
    | some snap =>
      files :: (j.toWriterPretty snap).inits.map (fun bytes => { files with snapshot := some bytes }) ++
        [{ snapshot := some (j.toWriterPretty snap), manifest := [] }]

end ManifestFiles

end LG.Impl.Tsdb
