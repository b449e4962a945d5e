import Logregator.Proof.Tsdb.Log

/-!
# What `append_batch` admits

The decoder of label maps takes strings of 0 to 255 bytes, the manifest
strings of 1 to 254 (`streamUpdate_isSome_iff`); `append_batch` panics on a
new stream between the two (`appendBatch_panic_free_iff`). The size of a
payload is checked with its label map, the codec looks at what is left
without it (`accepted_encodable_iff`).
-/

namespace LG.Proof.Tsdb

open LG.Impl.Tsdb LG.Impl.Tsdb.LsmTree LG.Spec.Tsdb

/-! ## Decoded label maps -/

theorem takeLpStr_eq_ok {bs rest : List UInt8} {s : Str} (h : takeLpStr bs = .ok (rest, s)) :
    bs.length = 1 + s.len + rest.length := by
  cases bs with
  | nil => cases h
  | cons len input =>
    rw [takeLpStr] at h
    split at h
    · cases h
    · split at h
      · cases h
        simp only [Str.len, List.length_cons, List.length_take, List.length_drop]
        omega
      · cases h

/-- `n` pairs of strings take at least `2 * n` bytes, and make at most `n`
labels. -/
theorem parseLabels_eq_ok : ∀ {n : Nat} {bs rest : List UInt8} {map map' : OrdMap Str Str},
    parseLabels n bs map = .ok (rest, map') →
    rest.length + 2 * n ≤ bs.length ∧ map'.elems.length ≤ map.elems.length + n
  | 0, bs, rest, map, map', h => by
    cases h
    exact ⟨le_refl _, le_refl _⟩
  | n + 1, bs, rest, map, map', h => by
    unfold parseLabels at h
    match hk : takeLpStr bs with
    | .error e =>
      rw [hk] at h
      cases h
    | .ok (rest₁, k) =>
      match hv : takeLpStr rest₁ with
      | .error e =>
        simp only [hk, hv, bind, Except.bind] at h
        cases h
      | .ok (rest₂, v) =>
        simp only [hk, hv, bind, Except.bind] at h
        have hrec := parseLabels_eq_ok h
        have hk := takeLpStr_eq_ok hk
        have hv := takeLpStr_eq_ok hv
        have hlen := map.length_upsert_le k v
        omega

/-- A decoded label map has at most 255 labels, and read at least its count
and no more than there is. -/
theorem decodeLabelMap_eq_ok {fp : List Label → UInt64} {src : List UInt8} {lm : LabelMap} {n : Nat}
    (h : decodeLabelMap fp src = .ok (some (lm, n))) :
    lm.len ≤ maxLabelCount ∧ 1 ≤ n ∧ n ≤ src.length := by
  unfold decodeLabelMap at h
  match hp : parseLabelMap fp src with
  | .error e =>
    rw [hp] at h
    cases h
  | .ok (rest, map) =>
    rw [hp] at h
    cases h
    cases src with
    | nil => cases hp
    | cons count input =>
      rw [parseLabelMap] at hp
      match hl : parseLabels count.toNat input (.empty _) with
      | .error e =>
        rw [hl] at hp
        cases hp
      | .ok (rest, map) =>
        rw [hl] at hp
        cases hp
        obtain ⟨hrest, hmap⟩ := parseLabels_eq_ok hl
        have hcount := count.toNat_lt
        simp only [OrdSet.elems_empty, List.length_nil] at hmap
        simp only [LabelMap.len, LabelMap.new, maxLabelCount, List.length_cons]
        omega

theorem strSizeOk_iff {s : Str} : strSizeOk s = true ↔ 1 ≤ s.len ∧ s.len ≤ 254 := by
  simp only [strSizeOk, Bool.and_eq_true, decide_eq_true_eq]
  simp only [minStrSize, maxStrSize]
  omega

/-- Labels that the manifest takes: keys and values of 1 to 254 bytes. -/
def LabelsFit (lm : LabelMap) : Prop :=
  ∀ l ∈ lm.iter, (1 ≤ l.1.len ∧ l.1.len ≤ 254) ∧ 1 ≤ l.2.len ∧ l.2.len ≤ 254

theorem streamUpdate_isSome_iff {lm : LabelMap} (h : lm.len ≤ maxLabelCount) (id : UInt64) :
    (ManifestEntry.streamUpdate? id lm).isSome ↔ LabelsFit lm := by
  have hfit : (lm.iter.all fun p => strSizeOk p.1 && strSizeOk p.2) = true ↔ LabelsFit lm := by
    rw [List.all_eq_true, LabelsFit]
    refine forall₂_congr ?_
    rintro ⟨k, v⟩ -
    simp only [Bool.and_eq_true, strSizeOk_iff]
  rw [ManifestEntry.streamUpdate?, if_neg (not_lt.mpr h), ← hfit]
  split
  · rename_i h
    exact iff_of_true rfl h
  · rename_i h
    exact iff_of_false (by simp) h

/-! ## Panics -/

theorem timestampOf_eq_none_iff {now : Int} : timestampOf now = none ↔ now < 0 := by
  simp [timestampOf]

/-- The payload and clock reading that `append_batch` does not panic on: if
the payload is admitted, a new stream's labels fit, and the clock is not
before the epoch. A stream that the registry has for other labels is an error
before the clock is read. -/
def NoPanic (fp : List Label → UInt64) (reg : StreamRegistry) (payload : List UInt8) (now : Int) :
    Prop :=
  checkPayloadSize payload.length = .ok () → ∀ lm n,
    decodeLabelMap fp payload = .ok (some (lm, n)) →
      match reg.getStreamIdByLabelmap lm with
      | none => LabelsFit lm ∧ 0 ≤ now
      | some id => reg.getLabelmapByStreamRef id = some lm → 0 ≤ now

variable {fp : List Label → UInt64} {t : LsmTree}

theorem numberRecord_panic_iff (sourceId streamId : UInt64) (body : List UInt8) (now : Int) :
    (numberRecord sourceId streamId body now t).1 = .panic ↔ now < 0 := by
  cases h : timestampOf now with
  | none => simp [numberRecord_panic h, timestampOf_eq_none_iff.mp h]
  | some ts =>
    have hnow : ¬ now < 0 := fun hn => by simp [timestampOf_eq_none_iff.mpr hn] at h
    simp [numberRecord_eq h, hnow]

theorem makeRecord_panic_iff (sourceId : UInt64) (payload : List UInt8) (now : Int) :
    (makeRecord fp sourceId payload now t).1 ≠ .panic ↔ NoPanic fp t.streamReg payload now := by
  cases hs : checkPayloadSize payload.length with
  | error e =>
    refine iff_of_true ?_ fun h => by rw [hs] at h; cases h
    rw [makeRecord, hs]
    exact fun h => by cases h
  | ok =>
    by_cases hd : ∃ lm n, decodeLabelMap fp payload = .ok (some (lm, n))
    · obtain ⟨lm, n, hd⟩ := hd
      have hno : NoPanic fp t.streamReg payload now ↔
          match t.streamReg.getStreamIdByLabelmap lm with
          | none => LabelsFit lm ∧ 0 ≤ now
          | some id => t.streamReg.getLabelmapByStreamRef id = some lm → 0 ≤ now := by
        refine ⟨fun h => h hs lm n hd, fun h _ lm' n' hd' => ?_⟩
        rw [hd] at hd'
        cases hd'
        exact h
      rw [makeRecord_decoded hs hd, Ne, Action.bind_panic_iff, hno]
      -- The branches of `streamIdFor`.
      cases hget : t.streamReg.getStreamIdByLabelmap lm with
      | some id =>
        by_cases href : t.streamReg.getLabelmapByStreamRef id = some lm
        · simp [streamIdFor_registered hget href, href, numberRecord_panic_iff]
        · obtain ⟨e, he⟩ := streamIdFor_conflict hget href
          simp [he, href]
      | none =>
        have hfit := streamUpdate_isSome_iff (decodeLabelMap_eq_ok hd).1 t.nextStreamId
        cases hu : ManifestEntry.streamUpdate? t.nextStreamId lm with
        | some update =>
          have hfit : LabelsFit lm := hfit.mp (by rw [hu]; rfl)
          simp [streamIdFor_new hget hu, hfit, numberRecord_panic_iff]
        | none =>
          have hfit : ¬ LabelsFit lm := fun h => by simp [hu] at hfit; exact hfit h
          simp [streamIdFor_refused hget hu, hfit]
    · -- Too few bytes, or labels that are no text.
      refine iff_of_true ?_ fun _ lm n h => absurd ⟨lm, n, h⟩ hd
      rw [makeRecord, hs]
      cases hdec : decodeLabelMap fp payload with
      | error e => exact fun h => by cases h
      | ok d =>
        cases d with
        | none => exact fun h => by cases h
        | some p => exact absurd ⟨p.1, p.2, hdec⟩ hd

/-- `append_batch` of a payload, on a live channel, panics exactly where
making its record does. -/
theorem appendBatch_one_panic_iff (hl : t.ioTx.closesAfter = none) (sourceId : UInt64)
    (payload : List UInt8) (now : Int) :
    (appendBatch fp sourceId [(payload, now)] t).1 = .panic ↔
      (makeRecord fp sourceId payload now t).1 = .panic := by
  rw [appendBatch, Action.bind_panic_iff, appendEach, Action.bind_panic_iff]
  -- Storing the record and the sync at the end do not panic.
  have hrest {r : Record} {t₁ : LsmTree} (hm : makeRecord fp sourceId payload now t = (.ok r, t₁)) :
      ∃ t₂, (storeRecord r >>= fun _ => appendEach fp sourceId []) t₁ = (.ok (), t₂) ∧
        t₂.ioTx.closesAfter = none := by
    obtain ⟨t₂, hstore, hs⟩ := storeRecord_live ((makeRecord_eq_ok hm).io ▸ hl) r
    exact ⟨t₂, Action.bind_of_ok hstore, hs.live⟩
  refine ⟨?_, fun h => .inl (.inl h)⟩
  rintro ((h | ⟨r, t₁, hm, h⟩) | ⟨_, t₂, h, hsend⟩)
  · exact h
  · obtain ⟨t₂, heq, -⟩ := hrest hm
    rw [heq] at h
    cases h
  · obtain ⟨r, t₁, hm, h⟩ := Action.bind_eq_ok.mp h
    obtain ⟨t₃, heq, hlive⟩ := hrest hm
    obtain ⟨-, rfl⟩ := Prod.mk.inj (heq.symm.trans h)
    rw [send_live hlive] at hsend
    cases hsend

/-- Where `append_batch` returns, in any state with a live channel, and which
of the label maps that the decoder takes the manifest takes. -/
theorem appendBatch_panic_free_iff (hl : t.ioTx.closesAfter = none) (sourceId : UInt64)
    (payload : List UInt8) (now : Int) :
    ((appendBatch fp sourceId [(payload, now)] t).1 ≠ .panic ↔
        NoPanic fp t.streamReg payload now) ∧
      ∀ lm n id, decodeLabelMap fp payload = .ok (some (lm, n)) →
        ((ManifestEntry.streamUpdate? id lm).isSome ↔ LabelsFit lm) := by
  refine ⟨?_, fun lm n id hd => streamUpdate_isSome_iff (decodeLabelMap_eq_ok hd).1 id⟩
  rw [← makeRecord_panic_iff sourceId]
  exact not_congr (appendBatch_one_panic_iff hl sourceId payload now)

/-- A payload without labels on a new tree. -/
theorem appendBatch_panic_free_iff_unlabelled :
    ∃ t₀, LsmTree.new (emptyOptions 60) = some t₀ ∧
      ((appendBatch (fun _ => 0) 7 [([0, 1, 2], 0)] t₀).1 ≠ .panic ↔
        NoPanic (fun _ => 0) t₀.streamReg [0, 1, 2] 0) :=
  ⟨_, rfl, (appendBatch_panic_free_iff rfl 7 [0, 1, 2] 0).1⟩

/-- One label of two empty strings: the decoder takes it, the manifest does
not, and a new tree panics on it. -/
theorem appendBatch_panics_on_empty_label :
    ∃ t₀, LsmTree.new (emptyOptions 60) = some t₀ ∧
      (∃ lm, decodeLabelMap (fun _ => 0) [1, 0, 0] = .ok (some (lm, 3)) ∧
        ManifestEntry.streamUpdate? 1 lm = none) ∧
      (appendBatch (fun _ => 0) 7 [([1, 0, 0], 0)] t₀).1 = .panic :=
  ⟨_, rfl, ⟨_, rfl, by decide⟩, by decide +kernel⟩

/-! ## Encodable records -/

/-- The codec's bounds for what is left of an admitted payload: only the
lower one can fail. -/
theorem encodable_iff {payload : List UInt8} {n : Nat} {r : Record}
    (hs : checkPayloadSize payload.length = .ok ()) (hp : r.payload = payload.drop n) :
    Encodable r ↔ n + minPayloadLength ≤ payload.length := by
  unfold checkPayloadSize at hs
  split at hs
  · rename_i h
    rw [Encodable, hp, List.length_drop]
    simp only [minPayloadLength, labelCountWireLen, maxPayloadLength] at h ⊢
    omega
  · cases hs

/-- A batch that `append_batch` accepts, in any state with a live channel:
which of its records the codec takes. Every record is sent to the WAL, and
nothing else comes into the memtables. -/
theorem accepted_encodable_iff {t' : LsmTree} (hl : t.ioTx.closesAfter = none) (sourceId : UInt64)
    (payloads : List (List UInt8 × Int))
    (h : appendBatch fp sourceId payloads t = (.ok (), t')) :
    ∃ recs, log t' = log t ++ recs ∧ (∀ q ∈ contents t', q ∈ recs ∨ q ∈ contents t) ∧
      List.Forall₂ (fun p r => ∃ lm n, decodeLabelMap fp p.1 = .ok (some (lm, n)) ∧
        ∀ dst, dst.length = r.wireLen →
          ((encodeRecord r dst).1 = .ok r.wireLen ↔ n + 2 ≤ p.1.length)) payloads recs := by
  obtain ⟨recs, ha⟩ := appendBatch_appends hl h
  refine ⟨recs, ha.log, ha.mem, ?_⟩
  refine (List.forall₂_map_left_iff.mp ha.made).imp fun p r hm => ?_
  obtain ⟨lm, n, hd, hp, -⟩ := hm.body
  refine ⟨lm, n, hd, fun dst hdst => ?_⟩
  rw [encodeRecord_isOk_iff r hdst.ge]
  exact encodable_iff hm.size hp

/-- A payload without labels and with a body of two bytes. -/
theorem accepted_encodable_iff_two_bytes :
    ∃ t₀ t recs, LsmTree.new (emptyOptions 60) = some t₀ ∧
      appendBatch (fun _ => 0) 7 [([0, 65, 66], 0)] t₀ = (.ok (), t) ∧
      log t = log t₀ ++ recs ∧
      List.Forall₂ (fun p r => ∃ lm n,
        decodeLabelMap (fun _ => 0) p.1 = .ok (some (lm, n)) ∧
        ∀ dst, dst.length = r.wireLen →
          ((encodeRecord r dst).1 = .ok r.wireLen ↔ n + 2 ≤ p.1.length))
        [([0, 65, 66], (0 : Int))] recs := by
  obtain ⟨t₀, hnew, t, hrun⟩ : ∃ t₀, LsmTree.new (emptyOptions 60) = some t₀ ∧ ∃ t,
      appendBatch (fun _ => 0) 7 [([0, 65, 66], 0)] t₀ = (.ok (), t) :=
    ⟨_, rfl, Action.returned (by decide +kernel)⟩
  obtain ⟨recs, hlog, -, hrecs⟩ := accepted_encodable_iff
    (by rw [(new_eq_some hnew).io]; rfl) 7 _ hrun
  exact ⟨t₀, t, recs, hnew, hrun, hlog, hrecs⟩

/-- A payload of two bytes is admitted; without its label count one byte is
left, which the codec refuses. The record is in the WAL and the memtable. -/
theorem accepts_unencodable_body :
    ∃ t₀, LsmTree.new (emptyOptions 60) = some t₀ ∧
      (appendBatch (fun _ => 0) 7 [([0, 65], 0)] t₀).1 = .ok () ∧
      log (appendBatch (fun _ => 0) 7 [([0, 65], 0)] t₀).2 = [⟨⟨1, 0, 0, 7⟩, [65]⟩] ∧
      (appendBatch (fun _ => 0) 7 [([0, 65], 0)] t₀).2.memtable.set.elems =
        [⟨⟨1, 0, 0, 7⟩, [65]⟩] ∧
      (encodeRecord ⟨⟨1, 0, 0, 7⟩, [65]⟩ (List.replicate 37 0)).1 =
        .error (invalidPayloadSz 1 maxRecordWireLength minRecordWireLength) :=
  ⟨_, rfl, by decide +kernel, by decide +kernel, by decide +kernel, by decide +kernel⟩

end LG.Proof.Tsdb
