import Logregator.Impl.Tsdb.SnapshotJson
import Logregator.Spec.Tsdb.Snapshot

/-!
# Snapshots and the manifest

A delta says of tables and streams what the last entry said (`lookup_delta`),
and merging it replays its entries (`content_mergeInto`). Replays compose, and
a second replay of the same entries changes nothing: so segments may be merged
one after the other, and again (`snapshots_compose`). While the snapshot file is
written, its old contents are gone (`determined_torn`); that does no harm just
when the manifest still speaks of all of them (`crash_safe_iff`). The JSON of
`serde_json` is such a format (`readable_snapshotJson`).
-/

namespace LG.Proof.Tsdb

open LG.Impl.Tsdb LG.Spec.Tsdb

variable {ν : Type} {said : ManifestEntry → Option ν} {c : Content}

/-! ## Replays -/

theorem lastSaid_append (as bs : List ManifestEntry) :
    lastSaid said (as ++ bs) = (lastSaid said bs).or (lastSaid said as) := by
  rw [lastSaid, List.reverse_append, List.findSome?_append]
  rfl

theorem lastSaid_singleton (e : ManifestEntry) : lastSaid said [e] = said e := by
  simp [lastSaid]

theorem mem_live_replay {es : List ManifestEntry} {id : UInt64} :
    id ∈ (c.replay es).live ↔ (lastSaid (sstSaid id) es).elim (id ∈ c.live) (· = .live) := Iff.rfl

theorem replay_append (c : Content) (as bs : List ManifestEntry) :
    c.replay (as ++ bs) = (c.replay as).replay bs := by
  apply Content.ext
  · ext id
    rw [mem_live_replay, mem_live_replay, mem_live_replay, lastSaid_append]
    cases lastSaid (sstSaid id) bs <;> rfl
  · funext streamId
    show (lastSaid _ (as ++ bs)).or _ = _
    rw [lastSaid_append, Option.or_assoc]
    rfl

/-- The entries again say nothing new. -/
theorem replay_again (c : Content) (es : List ManifestEntry) : (c.replay es).replay es = c.replay es := by
  apply Content.ext
  · ext id
    rw [mem_live_replay, mem_live_replay]
    cases lastSaid (sstSaid id) es <;> rfl
  · funext streamId
    show (lastSaid _ es).or ((lastSaid _ es).or _) = _
    rw [← Option.or_assoc, Option.or_self]
    rfl

/-- What an entry does not say is what was there before. -/
theorem elim_agree_iff {o : Option ν} {P : Prop} {q : ν → Prop} :
    (o.elim False q ↔ o.elim P q) ↔ (P → o.isSome = true) := by
  cases o with
  | none => simp
  | some a => simp

theorem or_agree_iff {o old : Option ν} :
    o.or none = o.or old ↔ (old.isSome = true → o.isSome = true) := by
  cases o with
  | none => cases old <;> simp
  | some a => simp

/-- What was there before does not matter just when the entries speak of all of
it. -/
theorem replay_empty_eq_iff {es : List ManifestEntry} {s : Snapshot} :
    Content.empty.replay es = (Content.ofSnapshot s).replay es ↔ SpeaksOfAll es s := by
  rw [Content.ext_iff, Set.ext_iff, funext_iff]
  refine and_congr (forall_congr' fun id => elim_agree_iff) (forall_congr' fun streamId => ?_)
  rw [← AList.lookup_isSome]
  exact or_agree_iff

/-! ## Deltas -/

/-- A part of a snapshot that each entry replaces by what it says. -/
theorem foldl_tally {f : Snapshot → Option ν} (hf : ∀ s e, f (s.tally e) = (said e).or (f s)) :
    ∀ (es : List ManifestEntry) (s : Snapshot),
      f (es.foldl Snapshot.tally s) = (lastSaid said es).or (f s)
  | [], _ => rfl
  | e :: es, s => by
    rw [List.foldl_cons, foldl_tally hf es, hf, ← Option.or_assoc, ← List.singleton_append,
      lastSaid_append, lastSaid_singleton]

theorem lookup_foldl_removed (id : UInt64) :
    ∀ (ids : List UInt64) (ssts : AList fun _ : UInt64 => SstState),
      (ids.foldl (fun ssts id => ssts.insert id .removed) ssts).lookup id =
        if id ∈ ids then some .removed else ssts.lookup id
  | [], _ => rfl
  | i :: ids, ssts => by
    rw [List.foldl_cons, lookup_foldl_removed id ids]
    by_cases hid : id = i
    · subst hid
      simp
    · rw [AList.lookup_insert_ne hid]
      simp [hid]

theorem lookup_tally_sst (s : Snapshot) (e : ManifestEntry) (id : UInt64) :
    (s.tally e).sstableState.lookup id = (sstSaid id e).or (s.sstableState.lookup id) := by
  cases e with
  | memtableFlush i =>
    by_cases hid : id = i
    · subst hid
      simp [Snapshot.tally, sstSaid]
    · simp [Snapshot.tally, sstSaid, AList.lookup_insert_ne hid, Ne.symm hid]
  | compaction ids =>
    refine (lookup_foldl_removed id ids _).trans ?_
    rw [sstSaid]
    split <;> rfl
  | streamUpdate i labelmap => rfl

theorem lookup_tally_stream (s : Snapshot) (e : ManifestEntry) (streamId : UInt64) :
    (s.tally e).labelmaps.lookup streamId =
      (streamSaid streamId e).or (s.labelmaps.lookup streamId) := by
  cases e with
  | memtableFlush i => rfl
  | compaction ids => rfl
  | streamUpdate i labelmap =>
    by_cases hid : streamId = i
    · subst hid
      simp [Snapshot.tally, streamSaid]
    · simp [Snapshot.tally, streamSaid, AList.lookup_insert_ne hid, Ne.symm hid]

theorem lookup_delta (es : List ManifestEntry) (id : UInt64) :
    (delta es).sstableState.lookup id = lastSaid (sstSaid id) es ∧
      (delta es).labelmaps.lookup id = lastSaid (streamSaid id) es :=
  ⟨(foldl_tally (f := fun s => s.sstableState.lookup id) (lookup_tally_sst · · id) es .empty).trans
      Option.or_none,
    (foldl_tally (f := fun s => s.labelmaps.lookup id) (lookup_tally_stream · · id) es .empty).trans
      Option.or_none⟩

theorem tallyAll_ok : ∀ (es : List ManifestEntry) (s : Snapshot),
    s.tallyAll (es.map .ok) = .ok (es.foldl Snapshot.tally s)
  | [], _ => rfl
  | e :: es, s => tallyAll_ok es (s.tally e)

/-- A manifest of decodable entries. -/
theorem fromManifest_ok (es : List ManifestEntry) :
    Snapshot.fromManifest (es.map .ok) = .ok (delta es) := tallyAll_ok es .empty

/-! ## Merges -/

theorem lookup_merge_sst (older d : Snapshot) (id : UInt64) :
    (older.merge d).sstableState.lookup id =
      (d.sstableState.lookup id).elim ((older.sstableState.lookup id).filter (· == .live))
        fun state => if state = .live then some .live else none := by
  rw [← lookup_retain]
  refine lookup_foldl_entries (g := fun state _ => if state = SstState.live then some .live else none)
    (fun m e => ?_) (fun m e k hk => ?_) _ _ id
  · obtain ⟨i, state⟩ := e
    cases state with
    | live => exact AList.lookup_insert m
    | removed => exact AList.lookup_erase i m
  · obtain ⟨i, state⟩ := e
    cases state with
    | live => exact AList.lookup_insert_ne hk
    | removed => exact AList.lookup_erase_ne hk

theorem lookup_merge_stream (older d : Snapshot) (streamId : UInt64) :
    (older.merge d).labelmaps.lookup streamId =
      (d.labelmaps.lookup streamId).or (older.labelmaps.lookup streamId) := by
  refine (lookup_foldl_entries (g := fun labelmap _ => some labelmap)
    (fun m e => AList.lookup_insert m) (fun m e k hk => AList.lookup_insert_ne hk) _ _ _).trans ?_
  cases d.labelmaps.lookup streamId <;> rfl

/-- Merging the delta of entries replays them. -/
theorem content_merge (older : Snapshot) (es : List ManifestEntry) :
    Content.ofSnapshot (older.merge (delta es)) = (Content.ofSnapshot older).replay es := by
  apply Content.ext
  · ext id
    show (older.merge (delta es)).sstableState.lookup id = some .live ↔ _
    rw [lookup_merge_sst, (lookup_delta es id).1, mem_live_replay]
    cases lastSaid (sstSaid id) es with
    | none => simp [Option.filter_eq_some_iff, Content.ofSnapshot]
    | some state => cases state <;> simp
  · funext streamId
    show (older.merge (delta es)).labelmaps.lookup streamId = _
    rw [lookup_merge_stream, (lookup_delta es streamId).2]
    rfl

theorem content_mergeInto (es : List ManifestEntry) (old : Option Snapshot) :
    Content.ofSnapshot ((delta es).mergeInto old) = (Content.ofOption old).replay es := by
  cases old with
  | some old => exact content_merge old es
  | none =>
    apply Content.ext
    · ext id
      show (delta es).sstableState.lookup id = some .live ↔ _
      rw [(lookup_delta es id).1, mem_live_replay]
      cases lastSaid (sstSaid id) es with
      | none => simp [Content.ofOption, Content.empty]
      | some state => simp
    · funext streamId
      show (delta es).labelmaps.lookup streamId = _
      rw [(lookup_delta es streamId).2]
      exact (Option.or_none).symm

theorem content_repeated (es : List ManifestEntry) (old : Option Snapshot) : ∀ n,
    Content.ofOption ((fun old => some ((delta es).mergeInto old))^[n + 1] old) =
      (Content.ofOption old).replay es
  | 0 => content_mergeInto es old
  | n + 1 => by
    rw [Function.iterate_succ_apply']
    refine (content_mergeInto es _).trans ?_
    rw [content_repeated es old n, replay_again]

theorem content_foldl : ∀ (segments : List (List ManifestEntry × Nat)) (old : Option Snapshot),
    Content.ofOption (segments.foldl
        (fun old p => (fun old => some ((delta p.1).mergeInto old))^[p.2 + 1] old) old) =
      (Content.ofOption old).replay (segments.flatMap Prod.fst)
  | [], _ => rfl
  | p :: segments, old => by
    rw [List.foldl_cons, content_foldl segments, content_repeated, List.flatMap_cons, replay_append]

/-- Snapshots compose: however the entries of a manifest are cut into segments,
and however often each segment's delta is merged again, the snapshot has the
live tables and label maps that the last entries say. -/
theorem snapshots_compose (segments : List (List ManifestEntry × Nat)) :
    Content.ofOption (snapshotOf segments) = Content.empty.replay (segments.flatMap Prod.fst) :=
  content_foldl segments none

/-! ## Crashes -/

section

variable {j : SnapshotJson} {snapshot : Option (List UInt8)} {es : List ManifestEntry} {snap : Snapshot}

theorem decodedOf_ok (es : List ManifestEntry) : decodedOf (es.map .ok) = es := by
  rw [decodedOf, List.filterMap_map]
  exact List.filterMap_some

theorem determined_ok (snapshot : Option (List UInt8)) (es : List ManifestEntry) :
    determined j ⟨snapshot, es.map .ok⟩ =
      (Content.ofOption (snapshot.bind j.fromReader)).replay es := by
  rw [determined, decodedOf_ok]

/-- The snapshot that is written holds what the files determine. -/
theorem content_toWrite (h : ManifestFiles.toWrite j ⟨snapshot, es.map .ok⟩ (delta es) = some snap) :
    Content.ofSnapshot snap = determined j ⟨snapshot, es.map .ok⟩ := by
  rw [determined_ok]
  cases snapshot with
  | none =>
    cases h
    exact content_mergeInto es none
  | some bytes =>
    obtain ⟨old, hold, rfl⟩ := Option.map_eq_some_iff.mp h
    rw [content_mergeInto]
    exact congrArg (fun old => (Content.ofOption old).replay es) hold.symm

/-- While the snapshot file is written, the manifest alone says what there
is. -/
theorem determined_torn (hj : Readable j) {bytes : List UInt8} (hpre : bytes <+: j.toWriterPretty snap)
    (hne : bytes ≠ j.toWriterPretty snap) (es : List ManifestEntry) :
    determined j ⟨some bytes, es.map .ok⟩ = Content.empty.replay es := by
  rw [determined_ok, Option.bind_some, hj.torn snap bytes hpre hne]
  rfl

/-- When it is written, it says all, with or without the entries. -/
theorem determined_whole (hj : Readable j)
    (h : ManifestFiles.toWrite j ⟨snapshot, es.map .ok⟩ (delta es) = some snap) :
    determined j ⟨some (j.toWriterPretty snap), es.map .ok⟩ = determined j ⟨snapshot, es.map .ok⟩ ∧
      determined j ⟨some (j.toWriterPretty snap), []⟩ = determined j ⟨snapshot, es.map .ok⟩ := by
  obtain ⟨snap', hread, hsame⟩ := hj.whole snap
  have hcontent : Content.ofOption ((some (j.toWriterPretty snap)).bind j.fromReader) =
      determined j ⟨snapshot, es.map .ok⟩ := by
    rw [Option.bind_some, hread, ← content_toWrite h]
    exact hsame
  constructor
  · rw [determined_ok, hcontent, determined_ok, replay_again]
  · exact hcontent

theorem mem_snapshotTruncate {f : ManifestFiles}
    (h : ManifestFiles.toWrite j ⟨snapshot, es.map .ok⟩ (delta es) = some snap) :
    f ∈ ManifestFiles.snapshotTruncate j ⟨snapshot, es.map .ok⟩ ↔
      f = ⟨snapshot, es.map .ok⟩ ∨
      (∃ bytes, bytes <+: j.toWriterPretty snap ∧ f = ⟨some bytes, es.map .ok⟩) ∨
      f = ⟨some (j.toWriterPretty snap), []⟩ := by
  rw [ManifestFiles.snapshotTruncate, fromManifest_ok]
  simp only [h, List.cons_append, List.mem_cons, List.mem_append, List.mem_map, List.mem_inits,
    List.not_mem_nil, or_false, eq_comm (a := f)]

/-- A crash is harmless everywhere just when it is while the file is
written. -/
theorem crashSafe_iff_replay (hj : Readable j)
    (h : ManifestFiles.toWrite j ⟨snapshot, es.map .ok⟩ (delta es) = some snap) :
    CrashSafe j ⟨snapshot, es.map .ok⟩ ↔
      Content.empty.replay es = determined j ⟨snapshot, es.map .ok⟩ := by
  constructor
  · intro hsafe
    have hne : [] ≠ j.toWriterPretty snap := by
      intro hnil
      obtain ⟨snap', hread, -⟩ := hj.whole snap
      rw [← hnil, hj.empty] at hread
      cases hread
    rw [← determined_torn hj (List.nil_prefix) hne es]
    apply hsafe
    exact (mem_snapshotTruncate h).mpr (.inr (.inl ⟨[], List.nil_prefix, rfl⟩))
  · intro heq f hf
    rcases (mem_snapshotTruncate h).mp hf with rfl | ⟨bytes, hpre, rfl⟩ | rfl
    · rfl
    · by_cases hne : bytes = j.toWriterPretty snap
      · rw [hne]
        exact (determined_whole hj h).1
      · rw [determined_torn hj hpre hne, heq]
    · exact (determined_whole hj h).2

/-- `snapshot_truncate` may crash at any point just when the entries of the
manifest speak of all that the snapshot file holds. -/
theorem crash_safe_iff (hj : Readable j) (snapshot : Option (List UInt8)) (es : List ManifestEntry) :
    CrashSafe j ⟨snapshot, es.map .ok⟩ ↔
      ∀ old, snapshot.bind j.fromReader = some old → SpeaksOfAll es old := by
  cases hwrite : ManifestFiles.toWrite j ⟨snapshot, es.map .ok⟩ (delta es) with
  | none =>
    -- The old file cannot be read: nothing is written.
    cases snapshot with
    | none => cases hwrite
    | some bytes =>
      have hnone : j.fromReader bytes = none := Option.map_eq_none_iff.mp hwrite
      refine iff_of_true (fun f hf => ?_) fun old hold => ?_
      · rw [ManifestFiles.snapshotTruncate, fromManifest_ok] at hf
        simp only [hwrite, List.mem_singleton] at hf
        rw [hf]
      · rw [Option.bind_some, hnone] at hold
        cases hold
  | some snap =>
    rw [crashSafe_iff_replay hj hwrite, determined_ok]
    cases hold : snapshot.bind j.fromReader with
    | none => exact iff_of_true rfl fun _ h => by cases h
    | some old =>
      rw [Content.ofOption, replay_empty_eq_iff]
      exact ⟨fun h _ heq => Option.some.inj heq ▸ h, fun h => h old rfl⟩

end

/-! ## The format -/

theorem lookup_mapOf {ν : Type} (m : AList fun _ : UInt64 => ν) (k : UInt64) :
    (mapOf (mapEntries m)).lookup k = m.lookup k := by
  rw [mapOf, mapEntries, List.foldl_map]
  refine (lookup_foldl_entries (g := fun v _ => some v) (fun m e => AList.lookup_insert m)
    (fun m e k hk => AList.lookup_insert_ne hk) m ∅ k).trans ?_
  cases m.lookup k with
  | none => rfl
  | some v => rfl

/-- Snapshots can be read from the JSON that is written of them, and from no part
of it. -/
theorem readable_snapshotJson : Readable snapshotJson where
  whole s := by
    have hread := snapshotText.read_write (mapEntries s.sstableState, mapEntries s.labelmaps) []
    rw [List.append_nil] at hread
    refine ⟨{ sstableState := mapOf (mapEntries s.sstableState)
              labelmaps := mapOf (mapEntries s.labelmaps) }, ?_, ?_⟩
    · simp only [snapshotJson, hread]
    · apply Content.ext
      · ext id
        show (mapOf (mapEntries s.sstableState)).lookup id = some .live ↔ _
        rw [lookup_mapOf]
        rfl
      · exact funext (lookup_mapOf s.labelmaps)
  torn s bytes hpre hne := by
    simp only [snapshotJson, snapshotText.read_of_prefix hpre hne]
  empty := by simp only [snapshotJson, snapshotText.read_nil]

example : snapshotJson.toWriterPretty (delta [.memtableFlush 7, .compaction [7], .memtableFlush 8]) =
    Str.asciiBytes ("\x7b\n  \"sstable_state\": \x7b\n    \"8\": \"Live\",\n" ++
      "    \"7\": \"Removed\"\n  \x7d,\n  \"labelmaps\": \x7b\x7d\n\x7d") := by decide +kernel

/-- A snapshot file with a table, and a manifest that still speaks of it: a crash
is harmless at any point. -/
theorem crash_safe_spoken :
    (∃ old, snapshotJson.fromReader (snapshotJson.toWriterPretty (delta [.memtableFlush 7])) =
        some old ∧ old.sstableState.lookup 7 = some .live) ∧
      CrashSafe snapshotJson ⟨some (snapshotJson.toWriterPretty (delta [.memtableFlush 7])),
        [.ok (.memtableFlush 7), .ok (.memtableFlush 8)]⟩ := by
  obtain ⟨old, hread, hsame⟩ := readable_snapshotJson.whole (delta [.memtableFlush 7])
  have hlive (id : UInt64) : old.sstableState.lookup id = some .live ↔
      (delta [.memtableFlush 7]).sstableState.lookup id = some .live :=
    iff_of_eq (congrArg (id ∈ Content.live ·) hsame)
  have hstreams (id : UInt64) : old.labelmaps.lookup id = none :=
    congrFun (congrArg Content.labelmaps hsame) id
  refine ⟨⟨old, hread, (hlive 7).mpr (AList.lookup_insert _)⟩, ?_⟩
  refine (crash_safe_iff readable_snapshotJson _ [.memtableFlush 7, .memtableFlush 8]).mpr ?_
  intro old' hold'
  obtain rfl := Option.some.inj (hread.symm.trans hold')
  constructor
  · intro id hid
    rw [hlive, (lookup_delta _ id).1] at hid
    have hsome : (lastSaid (sstSaid id) [.memtableFlush 7]).isSome = true := by rw [hid]; rfl
    rw [show [ManifestEntry.memtableFlush 7, .memtableFlush 8] = [.memtableFlush 7] ++ [.memtableFlush 8]
      from rfl, lastSaid_append, Option.isSome_or, hsome, Bool.or_true]
  · intro id hid
    rw [← AList.lookup_isSome, hstreams] at hid
    cases hid

/-- A table that only the snapshot file speaks of is lost in a crash right after
the file is opened. -/
theorem lost_snapshot :
    ⟨some [], [.ok (.memtableFlush 8)]⟩ ∈ ManifestFiles.snapshotTruncate snapshotJson
        ⟨some (snapshotJson.toWriterPretty (delta [.memtableFlush 7])), [.ok (.memtableFlush 8)]⟩ ∧
      7 ∈ (determined snapshotJson ⟨some (snapshotJson.toWriterPretty (delta [.memtableFlush 7])),
        [.ok (.memtableFlush 8)]⟩).live ∧
      7 ∉ (determined snapshotJson ⟨some [], [.ok (.memtableFlush 8)]⟩).live := by
  obtain ⟨old, hread, hsame⟩ := readable_snapshotJson.whole (delta [.memtableFlush 7])
  have hwrite : ManifestFiles.toWrite snapshotJson
      ⟨some (snapshotJson.toWriterPretty (delta [.memtableFlush 7])),
        [ManifestEntry.memtableFlush 8].map .ok⟩ (delta [.memtableFlush 8]) =
      some (old.merge (delta [.memtableFlush 8])) := by
    simp only [ManifestFiles.toWrite, hread, Option.map_some]
    rfl
  refine ⟨(mem_snapshotTruncate hwrite).mpr (.inr (.inl ⟨[], List.nil_prefix, rfl⟩)), ?_, ?_⟩
  · have hlive : 7 ∈ (Content.ofSnapshot old).live := by
      rw [hsame]
      exact AList.lookup_insert _
    refine (congrArg (7 ∈ Content.live ·) (determined_ok _ [.memtableFlush 8])).mpr ?_
    rw [Option.bind_some, hread]
    exact hlive
  · refine (congrArg (7 ∉ Content.live ·) (determined_ok _ [.memtableFlush 8])).mpr ?_
    rw [Option.bind_some, readable_snapshotJson.empty]
    exact Set.notMem_empty 7

end LG.Proof.Tsdb
