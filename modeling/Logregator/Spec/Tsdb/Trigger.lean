import Logregator.Impl.Tsdb.ManifestFile

/-!
# Runs of appends to the manifest

Appends one after the other, whether or not they succeed (`runAppends`), and
when a snapshot of the log can be made (`CanSnapshot`).
-/

namespace LG.Spec.Tsdb

open LG.Impl.Tsdb

/-- An append of an entry, and what the reads of the log do if it comes to a
snapshot. -/
structure Append where
  entry : ManifestEntry
  gives : List (Option Nat)

variable (fp : List Label → UInt64) (j : SnapshotJson)

/-- The manifest after some appends. -/
def runAppends (m : Manifest) (calls : List Append) : Manifest :=
  calls.foldl (fun m c => (Manifest.append fp j c.gives c.entry m).2) m

/-- The log can be read to its end, and so can the snapshot file, if there is
one. -/
def CanSnapshot (gives : List (Option Nat)) (log : List UInt8) (snapshot : Option (List UInt8)) :
    Prop :=
  ∃ es delta snap, Manifest.readLog fp gives log = some es ∧
    Snapshot.fromManifest es = .ok delta ∧
    ManifestFiles.toWrite j { snapshot := snapshot, manifest := es } delta = some snap

end LG.Spec.Tsdb
