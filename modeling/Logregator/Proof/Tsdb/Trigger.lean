import Logregator.Impl.Tsdb.SnapshotJson
import Logregator.Proof.Tsdb.Manifest
import Logregator.Spec.Tsdb.Trigger

/-!
# When the manifest is snapshotted

The writer counts the bytes of all entries since the manifest was opened
(`bytesWritten_runAppends`), not those in the log: it does not see what the log
had at first, and is not told when the log is emptied. So the log is
snapshotted in time only up to the first snapshot, and at every append after it
(`log_runAppends`).
-/

namespace LG.Proof.Tsdb

open LG.Impl.Tsdb LG.Spec.Tsdb

variable {fp : List Label → UInt64} {j : SnapshotJson} {m : Manifest}

/-! ## One append -/

theorem write_accepted {me : ManifestEntry} (h : Accepted me) (w : FramedWriter) :
    FramedWriter.write (manifestCodec fp) me w = (.ok (),
      { inner := w.inner ++ entryBytes me, bytesWritten := w.bytesWritten + me.wireLen }) := by
  have henc : (manifestCodec fp).encode me (List.replicate ((manifestCodec fp).wireLen me) 0) =
      (.ok me.wireLen, entryBytes me) := encode_replicate h
  rw [FramedWriter.write, henc]
  rfl

theorem write_refused (fp : List Label → UInt64) {me : ManifestEntry} (h : ¬ Accepted me)
    (w : FramedWriter) : ∃ e, FramedWriter.write (manifestCodec fp) me w = (.err e, w) := by
  have hlen : me.wireLen ≤ (List.replicate me.wireLen (0 : UInt8)).length := by simp
  obtain ⟨e, bs, henc⟩ := encodeManifestEntry_refused h hlen
  refine ⟨e, ?_⟩
  have henc : (manifestCodec fp).encode me (List.replicate ((manifestCodec fp).wireLen me) 0) =
      (.error e, bs) := henc
  rw [FramedWriter.write, henc]
  rfl

/-- The log is emptied when a snapshot can be made. -/
theorem snapshotTruncate_ok {gives : List (Option Nat)}
    {es : List (Except CodecError ManifestEntry)} {delta snap : Snapshot}
    (hread : Manifest.readLog fp gives m.framed.inner = some es)
    (hdelta : Snapshot.fromManifest es = .ok delta)
    (hwrite : ManifestFiles.toWrite j { snapshot := m.snapshot, manifest := es } delta =
      some snap) :
    Manifest.snapshotTruncate fp j gives m = (.ok (),
      { m with
        framed := { m.framed with inner := [] }, snapshot := some (j.toWriterPretty snap) }) := by
  rw [Manifest.snapshotTruncate, Action.get_bind, hread, Outcome.expect_some, Action.lift_ok_bind,
    hdelta, Outcome.ofExcept_ok, Action.lift_ok_bind]
  simp only [hwrite]
  rfl

/-- Nothing changes when it cannot. -/
theorem snapshotTruncate_failed {gives : List (Option Nat)}
    (h : ¬ CanSnapshot fp j gives m.framed.inner m.snapshot) :
    (Manifest.snapshotTruncate fp j gives m).1 ≠ .ok () ∧
      (Manifest.snapshotTruncate fp j gives m).2 = m := by
  rw [Manifest.snapshotTruncate, Action.get_bind]
  cases hread : Manifest.readLog fp gives m.framed.inner with
  | none => exact ⟨by simp [Outcome.expect, Action.lift, Action.bind_apply], rfl⟩
  | some es =>
    rw [Outcome.expect_some, Action.lift_ok_bind]
    cases hdelta : Snapshot.fromManifest es with
    | error e => exact ⟨by simp [Outcome.ofExcept, Action.lift, Action.bind_apply], rfl⟩
    | ok delta =>
      rw [Outcome.ofExcept_ok, Action.lift_ok_bind]
      cases hwrite : ManifestFiles.toWrite j { snapshot := m.snapshot, manifest := es } delta with
      | none => exact ⟨by simp [Action.fail, Action.lift], rfl⟩
      | some snap => exact absurd ⟨es, delta, snap, hread, hdelta, hwrite⟩ h

/-- The files are then as the last of the steps on them leaves them. -/
theorem snapshotTruncate_files {gives : List (Option Nat)}
    {es : List (Except CodecError ManifestEntry)} {m' : Manifest}
    (hread : Manifest.readLog fp gives m.framed.inner = some es)
    (h : Manifest.snapshotTruncate fp j gives m = (.ok (), m')) :
    (ManifestFiles.snapshotTruncate j { snapshot := m.snapshot, manifest := es }).getLast? =
        some { snapshot := m'.snapshot, manifest := [] } ∧
      m'.framed.inner = [] := by
  by_cases hs : CanSnapshot fp j gives m.framed.inner m.snapshot
  · obtain ⟨es', delta, snap, hread', hdelta, hwrite⟩ := hs
    obtain rfl : es = es' := Option.some.inj (hread.symm.trans hread')
    rw [snapshotTruncate_ok hread hdelta hwrite] at h
    obtain rfl := (Prod.ext_iff.mp h).2
    refine ⟨?_, rfl⟩
    simp only [ManifestFiles.snapshotTruncate, hdelta, hwrite]
    exact List.getLast?_concat
  · exact absurd (congrArg Prod.fst h) (snapshotTruncate_failed hs).1

/-- The manifest after an entry is written. -/
def written (m : Manifest) (me : ManifestEntry) : Manifest :=
  { m with framed :=
      { inner := m.framed.inner ++ entryBytes me
        bytesWritten := m.framed.bytesWritten + me.wireLen } }

/-- What an append does. -/
inductive Appended (fp : List Label → UInt64) (j : SnapshotJson) (m : Manifest) (c : Append) :
    Outcome CodecError Bool × Manifest → Prop
  | refused {e : CodecError} (h : ¬ Accepted c.entry) : Appended fp j m c (.err e, m)
  | kept (h : Accepted c.entry)
      (hle : m.framed.bytesWritten + c.entry.wireLen ≤ m.maxFileSize) :
      Appended fp j m c (.ok false, written m c.entry)
  | snapshotted {snap : List UInt8} (h : Accepted c.entry)
      (hlt : m.maxFileSize < m.framed.bytesWritten + c.entry.wireLen)
      (hs : CanSnapshot fp j c.gives (m.framed.inner ++ entryBytes c.entry) m.snapshot) :
      Appended fp j m c (.ok true,
        { written m c.entry with
          framed := { (written m c.entry).framed with inner := [] }, snapshot := some snap })
  | failed {out : Outcome CodecError Bool} (h : Accepted c.entry)
      (hlt : m.maxFileSize < m.framed.bytesWritten + c.entry.wireLen)
      (hs : ¬ CanSnapshot fp j c.gives (m.framed.inner ++ entryBytes c.entry) m.snapshot)
      (hout : ∀ b, out ≠ .ok b) : Appended fp j m c (out, written m c.entry)

theorem append_appended (fp : List Label → UInt64) (j : SnapshotJson) (m : Manifest) (c : Append) :
    Appended fp j m c (Manifest.append fp j c.gives c.entry m) := by
  by_cases h : Accepted c.entry
  · have hwrite : Manifest.onFramed (FramedWriter.write (manifestCodec fp) c.entry) m =
        (.ok (), written m c.entry) := by
      rw [Manifest.onFramed, write_accepted h]
      rfl
    rw [Manifest.append, Action.bind_of_ok hwrite, Action.get_bind]
    by_cases hlt : m.maxFileSize < m.framed.bytesWritten + c.entry.wireLen
    · have hpast : (written m c.entry).maxFileSize < (written m c.entry).framed.bytesWritten := hlt
      rw [if_pos hpast]
      by_cases hs : CanSnapshot fp j c.gives (m.framed.inner ++ entryBytes c.entry) m.snapshot
      · obtain ⟨es, delta, snap, hread, hdelta, hwrite⟩ := id hs
        have hsnap := snapshotTruncate_ok (m := written m c.entry) hread hdelta hwrite
        rw [Action.bind_of_ok hsnap]
        exact .snapshotted h hlt hs
      · obtain ⟨hout, hstate⟩ := snapshotTruncate_failed (m := written m c.entry) hs
        rw [Action.bind_apply]
        rcases htrunc : Manifest.snapshotTruncate fp j c.gives (written m c.entry) with ⟨out, m'⟩
        rw [htrunc] at hout hstate
        subst hstate
        cases out with
        | ok u => exact absurd rfl hout
        | err e => exact .failed h hlt hs (by simp)
        | panic => exact .failed h hlt hs (by simp)
    · have hpast :
          ¬ (written m c.entry).maxFileSize < (written m c.entry).framed.bytesWritten := hlt
      rw [if_neg hpast]
      exact .kept h (not_lt.mp hlt)
  · obtain ⟨e, hwrite⟩ := write_refused fp h m.framed
    have hwrite : Manifest.onFramed (FramedWriter.write (manifestCodec fp) c.entry) m =
        (.err e, m) := by
      rw [Manifest.onFramed, hwrite]
    rw [Manifest.append, Action.bind_apply, hwrite]
    exact .refused h

/-! ## Runs -/

/-- The bytes of the entries that the codec accepts, in a run of appends. -/
def acceptedLen (calls : List Append) : Nat :=
  ((calls.filter fun c => Accepted c.entry).map fun c => c.entry.wireLen).sum

theorem acceptedLen_concat (calls : List Append) (c : Append) : acceptedLen (calls ++ [c]) =
    acceptedLen calls + if Accepted c.entry then c.entry.wireLen else 0 := by
  by_cases h : Accepted c.entry <;> simp [acceptedLen, List.filter_append, h]

theorem runAppends_concat (calls : List Append) (c : Append) :
    runAppends fp j m (calls ++ [c]) =
      (Manifest.append fp j c.gives c.entry (runAppends fp j m calls)).2 := by
  rw [runAppends, List.foldl_concat]
  rfl

/-- The counter has the bytes of all entries since the manifest was opened. -/
theorem bytesWritten_runAppends (calls : List Append) :
    (runAppends fp j m calls).framed.bytesWritten = m.framed.bytesWritten + acceptedLen calls ∧
      (runAppends fp j m calls).maxFileSize = m.maxFileSize := by
  induction calls using List.reverseRecOn with
  | nil => exact ⟨rfl, rfl⟩
  | append_singleton calls c ih =>
    obtain ⟨hbytes, hmax⟩ := ih
    have happ := append_appended fp j (runAppends fp j m calls) c
    rw [runAppends_concat, acceptedLen_concat]
    generalize Manifest.append fp j c.gives c.entry (runAppends fp j m calls) = out at happ
    cases happ with
    | refused h => simp [h, hbytes, hmax]
    | kept h => simp [h, written, hbytes, hmax, Nat.add_assoc]
    | snapshotted h => simp [h, written, hbytes, hmax, Nat.add_assoc]
    | failed h => simp [h, written, hbytes, hmax, Nat.add_assoc]

theorem bytesWritten_openAt (fp : List Label → UInt64) (j : SnapshotJson) (log : List UInt8)
    (snapshot : Option (List UInt8)) (size : Option Nat) (calls : List Append) :
    (runAppends fp j (.openAt log snapshot size) calls).framed.bytesWritten =
      acceptedLen calls := by
  rw [(bytesWritten_runAppends calls).1]
  exact Nat.zero_add _

theorem maxFileSize_openAt (fp : List Label → UInt64) (j : SnapshotJson) (log : List UInt8)
    (snapshot : Option (List UInt8)) (size : Option Nat) (calls : List Append) :
    (runAppends fp j (.openAt log snapshot size) calls).maxFileSize =
      size.getD manifestDefaultMaxFileSize :=
  (bytesWritten_runAppends calls).2

/-- If the append comes to a snapshot, it can be made. -/
def CanAppend (fp : List Label → UInt64) (j : SnapshotJson) (m : Manifest) (c : Append) : Prop :=
  Accepted c.entry → m.maxFileSize < m.framed.bytesWritten + c.entry.wireLen →
    CanSnapshot fp j c.gives (m.framed.inner ++ entryBytes c.entry) m.snapshot

/-- And so for each append of a run. -/
def Smooth (fp : List Label → UInt64) (j : SnapshotJson) (m : Manifest) (calls : List Append) :
    Prop :=
  ∀ before c after, calls = before ++ c :: after → CanAppend fp j (runAppends fp j m before) c

theorem Smooth.concat {calls : List Append} {c : Append} (h : Smooth fp j m (calls ++ [c])) :
    Smooth fp j m calls ∧ CanAppend fp j (runAppends fp j m calls) c := by
  refine ⟨fun before c' after hsplit => h before c' (after ++ [c]) ?_, h calls c [] rfl⟩
  rw [hsplit]
  simp

/-- Without failures, the log has what it had at first and all entries since,
until the first snapshot, and nothing after it. -/
theorem log_runAppends {log : List UInt8} {snapshot : Option (List UInt8)} {size : Option Nat}
    {calls : List Append} (h : Smooth fp j (.openAt log snapshot size) calls) :
    (runAppends fp j (.openAt log snapshot size) calls).framed.inner.length =
      if acceptedLen calls ≤ size.getD manifestDefaultMaxFileSize then
        log.length + acceptedLen calls
      else 0 := by
  induction calls using List.reverseRecOn with
  | nil => simp [acceptedLen, runAppends, Manifest.openAt]
  | append_singleton calls c ih =>
    obtain ⟨hcalls, hc⟩ := h.concat
    have ih := ih hcalls
    have hbytes := bytesWritten_openAt fp j log snapshot size calls
    have hmax := maxFileSize_openAt fp j log snapshot size calls
    have happ := append_appended fp j (runAppends fp j (.openAt log snapshot size) calls) c
    rw [runAppends_concat, acceptedLen_concat]
    generalize Manifest.append fp j c.gives c.entry
      (runAppends fp j (.openAt log snapshot size) calls) = out at happ
    cases happ with
    | refused h => simpa [h] using ih
    | kept h hle =>
      rw [hbytes, hmax] at hle
      have ht : acceptedLen calls ≤ size.getD manifestDefaultMaxFileSize := by omega
      rw [if_pos ht] at ih
      rw [if_pos h, if_pos hle, written, List.length_append, ih, length_entryBytes, Nat.add_assoc]
    | snapshotted h hlt =>
      rw [hbytes, hmax] at hlt
      rw [if_pos h, if_neg (by omega)]
      rfl
    | failed h hlt hs => exact absurd (hc h hlt) hs

/-! ## The trigger -/

/-- The append returns `Ok(true)` just when the entry is written and the log is
then longer than it may be. -/
def TriggersRight (fp : List Label → UInt64) (j : SnapshotJson) (m : Manifest) (c : Append) :
    Prop :=
  (Manifest.append fp j c.gives c.entry m).1 = .ok true ↔
    Accepted c.entry ∧ m.maxFileSize < m.framed.inner.length + c.entry.wireLen

/-- The append goes by the writer's counter. -/
theorem append_eq_true_iff (m : Manifest) (c : Append) :
    (Manifest.append fp j c.gives c.entry m).1 = .ok true ↔
      Accepted c.entry ∧ m.maxFileSize < m.framed.bytesWritten + c.entry.wireLen ∧
        CanSnapshot fp j c.gives (m.framed.inner ++ entryBytes c.entry) m.snapshot := by
  have happ := append_appended fp j m c
  generalize Manifest.append fp j c.gives c.entry m = out at happ
  cases happ with
  | refused h => simp [h]
  | kept h hle => simp [Nat.not_lt.mpr hle]
  | snapshotted h hlt hs => simp [h, hlt, hs]
  | failed h hlt hs hout => simp [hs, hout]

theorem triggersRight_iff (fp : List Label → UInt64) (j : SnapshotJson) (m : Manifest)
    (c : Append) :
    TriggersRight fp j m c ↔ (Accepted c.entry →
      (m.maxFileSize < m.framed.bytesWritten + c.entry.wireLen ∧
          CanSnapshot fp j c.gives (m.framed.inner ++ entryBytes c.entry) m.snapshot ↔
        m.maxFileSize < m.framed.inner.length + c.entry.wireLen)) := by
  rw [TriggersRight, append_eq_true_iff]
  tauto

/-- After any appends, one more is right just when the bytes of all entries since
the manifest was opened are too many, and a snapshot can be made, just when
those of the log are too many. If snapshots can always be made, that is: up to
the first one, what the log had at first does not matter, and after it every
entry is too long by itself. -/
theorem snapshot_trigger_iff (fp : List Label → UInt64) (j : SnapshotJson) (log : List UInt8)
    (snapshot : Option (List UInt8)) (size : Option Nat) (calls : List Append) (c : Append) :
    (TriggersRight fp j (runAppends fp j (.openAt log snapshot size) calls) c ↔
      (Accepted c.entry →
        (size.getD manifestDefaultMaxFileSize < acceptedLen calls + c.entry.wireLen ∧
            CanSnapshot fp j c.gives
              ((runAppends fp j (.openAt log snapshot size) calls).framed.inner ++
                entryBytes c.entry)
              (runAppends fp j (.openAt log snapshot size) calls).snapshot ↔
          size.getD manifestDefaultMaxFileSize <
            (runAppends fp j (.openAt log snapshot size) calls).framed.inner.length +
              c.entry.wireLen))) ∧
    (Smooth fp j (.openAt log snapshot size) (calls ++ [c]) →
      (TriggersRight fp j (runAppends fp j (.openAt log snapshot size) calls) c ↔
        (Accepted c.entry →
          (acceptedLen calls + c.entry.wireLen ≤ size.getD manifestDefaultMaxFileSize →
            log.length + acceptedLen calls + c.entry.wireLen ≤
              size.getD manifestDefaultMaxFileSize) ∧
          (size.getD manifestDefaultMaxFileSize < acceptedLen calls →
            size.getD manifestDefaultMaxFileSize < c.entry.wireLen)))) := by
  have hbytes := bytesWritten_openAt fp j log snapshot size calls
  have hmax := maxFileSize_openAt fp j log snapshot size calls
  have hiff := triggersRight_iff fp j (runAppends fp j (.openAt log snapshot size) calls) c
  rw [hbytes, hmax] at hiff
  refine ⟨hiff, fun hsmooth => hiff.trans (forall_congr' fun h => ?_)⟩
  obtain ⟨hcalls, hc⟩ := hsmooth.concat
  have hcan := hc h
  rw [hbytes, hmax] at hcan
  rw [and_iff_left_of_imp hcan, log_runAppends hcalls]
  split <;> omega

/-- With at most 10 bytes, the second append makes a snapshot, and should. -/
theorem snapshot_trigger_first :
    let m := runAppends (fun _ => 0) snapshotJson (.openAt [] none (some 10))
      [{ entry := .memtableFlush 1, gives := [] }]
    (Manifest.append (fun _ => 0) snapshotJson [] (.memtableFlush 2) m).1 = .ok true ∧
      TriggersRight (fun _ => 0) snapshotJson m { entry := .memtableFlush 2, gives := [] } := by
  have h := (snapshot_trigger_iff (fun _ => 0) snapshotJson [] none (some 10)
    [{ entry := .memtableFlush 1, gives := [] }] { entry := .memtableFlush 2, gives := [] }).2
  refine ⟨by decide +kernel, (h ?_).mpr fun _ => by decide⟩
  intro before c after hsplit
  rcases before with _ | ⟨c₁, _ | ⟨c₂, before⟩⟩
  · cases hsplit
    exact fun _ hlt => absurd hlt (by decide)
  · cases hsplit
    exact fun _ _ => ⟨[.ok (.memtableFlush 1), .ok (.memtableFlush 2)], _, _, by decide +kernel, rfl, rfl⟩
  · simp at hsplit

/-- The third append makes one too, to a log of 9 bytes; and a log that has 20
bytes at first is left as it is. -/
theorem snapshot_trigger_wrong :
    (Manifest.append (fun _ => 0) snapshotJson [] (.memtableFlush 3)
        (runAppends (fun _ => 0) snapshotJson (.openAt [] none (some 10))
          [{ entry := .memtableFlush 1, gives := [] },
            { entry := .memtableFlush 2, gives := [] }])).1 = .ok true ∧
      (runAppends (fun _ => 0) snapshotJson (.openAt [] none (some 10))
          [{ entry := .memtableFlush 1, gives := [] },
            { entry := .memtableFlush 2, gives := [] }]).framed.inner.length +
        (ManifestEntry.memtableFlush 3).wireLen ≤ 10 ∧
    (Manifest.append (fun _ => 0) snapshotJson [] (.memtableFlush 1)
        (.openAt (List.replicate 20 0) none (some 10))).1 = .ok false ∧
      10 < (List.replicate 20 (0 : UInt8)).length + (ManifestEntry.memtableFlush 1).wireLen := by
  decide +kernel

end LG.Proof.Tsdb
