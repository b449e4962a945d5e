import Logregator.Impl.Tsdb.Codec
import Logregator.Impl.Tsdb.Snapshot

/-!
# The manifest (`manifest.rs`)

The manifest is a framed log with a snapshot file beside it. An append writes
an entry; when the writer has counted more bytes than the manifest may have, a
snapshot of the log is written and the log emptied. The file may be read in
any pieces, and its reads may fail (`gives`); its writes succeed.
-/

namespace LG.Impl.Tsdb

/-- `MAINFEST_DEFAULT_MAX_FILE_SIZE`. -/
def manifestDefaultMaxFileSize : Nat := 20 * 1028

/-- `manifest::Manifest`: the bytes of the log are those of `framed`, in the
file or in the writer's buffer. -/
structure Manifest where
  framed : FramedWriter
  snapshot : Option (List UInt8)
  maxFileSize : Nat
  deriving DecidableEq

namespace Manifest

/-- `Manifest::open`, on the files that are there. The writer counts from
zero. -/
def openAt (log : List UInt8) (snapshot : Option (List UInt8)) (maxFileSize : Option Nat) :
    Manifest :=
  { framed := { FramedWriter.new with inner := log }
    snapshot := snapshot
    maxFileSize := maxFileSize.getD manifestDefaultMaxFileSize }

variable (fp : List Label → UInt64) (j : SnapshotJson) (gives : List (Option Nat))

/-- What the loop of `Snapshot::from_manifest` gets from the manifest's reader:
it ends at the first error. `none` is a panic of the reader. -/
def readEntries : Nat → FramedReader → Option (List (Except CodecError ManifestEntry))
  | 0, _ => none
  | n + 1, r => do
    match ← r.next (manifestCodec fp) with
    | (none, _) => return []
    | (some (.error e), _) => return [.error e]
    | (some (.ok entry), r) => return .ok entry :: (← readEntries n r)

/-- `Manifest::as_reader`, and the entries that are read; each takes a byte at
least. -/
def readLog (log : List UInt8) : Option (List (Except CodecError ManifestEntry)) :=
  readEntries fp (log.length + 1) (.new { rest := log, gives := gives })

/-- `Manifest::snapshot_truncate`. The counter of the writer stays. -/
def snapshotTruncate : Action Manifest CodecError Unit := do
  let m ← Action.get
  let es ← Action.lift (.expect (readLog fp gives m.framed.inner))
  let delta ← Action.lift (.ofExcept (Snapshot.fromManifest es))
  match ManifestFiles.toWrite j { snapshot := m.snapshot, manifest := es } delta with
  | none => Action.fail (.io "serde_json")
  | some snap =>
    Action.modify fun m =>
      { m with
        framed := { m.framed with inner := [] }
        snapshot := some (j.toWriterPretty snap) }

/-- A method of the manifest's writer. -/
def onFramed {α : Type} (x : Action FramedWriter CodecError α) : Action Manifest CodecError α :=
  fun m =>
    let (out, framed) := x m.framed
    (out, { m with framed := framed })

/-- `Manifest::append`: whether a snapshot was made. -/
def append (e : ManifestEntry) : Action Manifest CodecError Bool := do
  onFramed (FramedWriter.write (manifestCodec fp) e)
  let m ← Action.get
  if m.maxFileSize < m.framed.bytesWritten then
    snapshotTruncate fp j gives
    return true
  else return false

end Manifest

end LG.Impl.Tsdb
