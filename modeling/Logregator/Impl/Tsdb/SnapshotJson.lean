import Logregator.Framework.Json
import Logregator.Impl.Tsdb.Snapshot

/-!
# Snapshots as JSON (`manifest.rs`, `label.rs`)

The text that `serde_json::to_writer_pretty` writes for a snapshot, by the
derived `Serialize` of `Snapshot`, `SstState` and `LabelMap`, and what
`serde_json::from_reader` makes of such a text. It also reads texts with other
white space or with the members in another order, which are not written here.
-/

namespace LG.Impl.Tsdb

/-- The name of a variant of `SstState`. -/
def SstState.name : SstState → Str
  | .live => .ofAscii "Live"
  | .removed => .ofAscii "Removed"

/-- The variant with a name. -/
def SstState.ofName (s : Str) : Option SstState :=
  if s = name .live then some .live else if s = name .removed then some .removed else none

theorem SstState.ofName_name (state : SstState) : ofName state.name = some state := by
  cases state with
  | live => exact if_pos rfl
  | removed => decide

/-- `SstState`. -/
def sstStateText : TextCodec SstState :=
  Json.str.partialMap SstState.ofName SstState.name SstState.ofName_name

/-- The label map of labels that are read. -/
def labelMapOf (p : List Label × UInt64) : LabelMap :=
  { inner := p.1.foldl (fun m l => m.upsert l.1 l.2) (.empty _), fingerprint := p.2 }

theorem labelMapOf_elems (m : LabelMap) :
    some (labelMapOf (m.inner.elems, m.fingerprint)) = some m := by
  rw [labelMapOf, OrdMap.foldl_upsert_elems]

/-- `LabelMap`, as a value of the map of label maps. -/
def labelMapText : TextCodec LabelMap :=
  ((((Json.object 3 (Json.member Json.str Json.str)).before (123 :: Json.field 3 "inner")).pair
    ((TextCodec.u64 10 Json.newline_lt).before (44 :: Json.field 3 "fingerprint"))).after
      (List.replicate 4 32 ++ [125])).partialMap
    (fun p => some (labelMapOf p)) (fun m => (m.inner.elems, m.fingerprint)) labelMapOf_elems

/-- `Snapshot`, as the entries of its maps. -/
def snapshotText : TextCodec (List (UInt64 × SstState) × List (UInt64 × LabelMap)) :=
  (((Json.object 1 (Json.member Json.u64Key sstStateText)).before
    (123 :: Json.field 1 "sstable_state")).pair
      ((Json.object 1 (Json.member Json.u64Key labelMapText)).before
        (44 :: Json.field 1 "labelmaps"))).after (Json.newline 0 ++ [125])

/-- The entries of a map, in any order. -/
def mapEntries {ν : Type} (m : AList fun _ : UInt64 => ν) : List (UInt64 × ν) :=
  m.entries.map fun e => (e.1, e.2)

/-- The map of entries: the last one of a key counts. -/
def mapOf {ν : Type} (entries : List (UInt64 × ν)) : AList fun _ : UInt64 => ν :=
  entries.foldl (fun m p => m.insert p.1 p.2) ∅

/-- `serde_json` on snapshots: behind the text nothing may follow. -/
def snapshotJson : SnapshotJson where
  toWriterPretty s := snapshotText.write (mapEntries s.sstableState, mapEntries s.labelmaps)
  fromReader bytes :=
    match snapshotText.read bytes with
    | some ((ssts, labelmaps), []) => some { sstableState := mapOf ssts, labelmaps := mapOf labelmaps }
    | _ => none

end LG.Impl.Tsdb
