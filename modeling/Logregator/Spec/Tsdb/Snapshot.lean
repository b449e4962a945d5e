import Logregator.Impl.Tsdb.Snapshot
import Mathlib.Data.Set.Basic
import Mathlib.Logic.Function.Iterate

/-!
# What a manifest says

Of each table and each stream the last entry counts that speaks of it
(`lastSaid`). What snapshots and manifests are for is the set of live tables
and the label maps of the streams: their `Content`, which the entries of a
manifest `replay` over that of a snapshot.
-/

namespace LG.Spec.Tsdb

open LG.Impl.Tsdb

/-- What an entry says of a table. -/
def sstSaid (id : UInt64) : ManifestEntry → Option SstState
  | .memtableFlush i => if i = id then some .live else none
  | .compaction ids => if id ∈ ids then some .removed else none
  | .streamUpdate _ _ => none

/-- What an entry says of a stream. -/
def streamSaid (streamId : UInt64) : ManifestEntry → Option LabelMap
  | .streamUpdate i labelmap => if i = streamId then some labelmap else none
  | _ => none

/-- What the last of the entries says that says something. -/
def lastSaid {ν : Type} (said : ManifestEntry → Option ν) (es : List ManifestEntry) : Option ν :=
  es.reverse.findSome? said

/-- The live tables, and the label maps of the streams. -/
@[ext]
structure Content where
  live : Set UInt64
  labelmaps : UInt64 → Option LabelMap

namespace Content

/-- Nothing. -/
def empty : Content := { live := ∅, labelmaps := fun _ => none }

/-- Entries after what was there: the last write wins. -/
def replay (c : Content) (es : List ManifestEntry) : Content :=
  { live := {id | (lastSaid (sstSaid id) es).elim (id ∈ c.live) (· = .live)}
    labelmaps := fun streamId => (lastSaid (streamSaid streamId) es).or (c.labelmaps streamId) }

/-- What a snapshot holds. -/
def ofSnapshot (s : Snapshot) : Content :=
  { live := {id | s.sstableState.lookup id = some .live}, labelmaps := s.labelmaps.lookup }

/-- What there may be of a snapshot. -/
def ofOption : Option Snapshot → Content
  | some s => ofSnapshot s
  | none => empty

end Content

/-- The delta that `Snapshot::from_manifest` builds of entries. -/
def delta (es : List ManifestEntry) : Snapshot := es.foldl Snapshot.tally .empty

/-- The snapshot after segments of entries: the delta of each is merged once and
then so many times again. -/
def snapshotOf (segments : List (List ManifestEntry × Nat)) : Option Snapshot :=
  segments.foldl (fun old p => (fun old => some ((delta p.1).mergeInto old))^[p.2 + 1] old) none

/-! ## The files -/

/-- What is known of `serde_json`: it reads what it wrote, as far as the maps
go, and no snapshot from a part of it or from an empty file. -/
structure Readable (j : SnapshotJson) : Prop where
  whole : ∀ s, ∃ s', j.fromReader (j.toWriterPretty s) = some s' ∧
    Content.ofSnapshot s' = Content.ofSnapshot s
  torn : ∀ s bytes, bytes <+: j.toWriterPretty s → bytes ≠ j.toWriterPretty s →
    j.fromReader bytes = none
  empty : j.fromReader [] = none

/-- The entries that a manifest yields. -/
def decodedOf (es : List (Except CodecError ManifestEntry)) : List ManifestEntry :=
  es.filterMap Except.toOption

/-- What the two files determine; a snapshot file that cannot be read says
nothing. -/
def determined (j : SnapshotJson) (files : ManifestFiles) : Content :=
  (Content.ofOption (files.snapshot.bind j.fromReader)).replay (decodedOf files.manifest)

/-- A crash at any point of `snapshot_truncate` leaves files that determine what
they did before. -/
def CrashSafe (j : SnapshotJson) (files : ManifestFiles) : Prop :=
  ∀ f ∈ files.snapshotTruncate j, determined j f = determined j files

/-- Entries speak of all live tables and of all streams of a snapshot. -/
def SpeaksOfAll (es : List ManifestEntry) (s : Snapshot) : Prop :=
  (∀ id, s.sstableState.lookup id = some .live → (lastSaid (sstSaid id) es).isSome) ∧
    ∀ streamId, streamId ∈ s.labelmaps → (lastSaid (streamSaid streamId) es).isSome

end LG.Spec.Tsdb
