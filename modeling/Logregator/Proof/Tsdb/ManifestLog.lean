import Logregator.Proof.Tsdb.Manifest

/-!
# The manifest log, piece by piece

A codec that refuses an item whose bytes are not all there (`Refuses`) cannot
be read in any pieces: the reader gives the items of the window and then an
error, unless the window ends where an item ends (`drains_iff_endsOnItems`). The
manifest codec is such a codec, so that reading a manifest back depends on how
the source gives its bytes (`manifest_log_iff`).
-/

namespace LG.Proof.Tsdb

open LG.Impl.Tsdb LG.Impl.Tsdb.FramedReader LG.Spec.Tsdb

/-- A codec that decodes an item from its bytes, whatever follows, and has an
error for a part of them. -/
structure Refuses {I : Type} (codec : SpecCodec I) (enc : I → List UInt8) (P : I → Prop) :
    Prop where
  whole : ∀ {i}, P i → ∀ rest, codec.decode (enc i ++ rest) = .ok (some (i, (enc i).length))
  part : ∀ {i}, P i → ∀ {bs}, bs <+: enc i → bs ≠ enc i → bs ≠ [] → ∃ e, codec.decode bs = .error e
  empty : codec.decode [] = .ok none

variable {I : Type} {codec : SpecCodec I} {enc : I → List UInt8} {P : I → Prop}

/-! ## Reading from the window -/

/-- A window that is decoded, or refused, in the first round. -/
theorem nextLoop_rounds {r : FramedReader} (h : Windowed r)
    (hd : codec.decode (window r) ≠ .ok none) (m n : Nat) :
    nextLoop codec (m + 1) r = nextLoop codec (n + 1) r := by
  rcases hdec : codec.decode (window r) with e | _ | ⟨i, len⟩
  · rw [nextLoop_failed h hdec, nextLoop_failed h hdec]
  · exact absurd hdec hd
  · rw [nextLoop_decoded h hdec, nextLoop_decoded h hdec]

/-- The items of the window, before more is read. -/
theorem drains_window (hc : Refuses codec enc P) {items : List I} (hi : ∀ i ∈ items, P i)
    {tail : List UInt8} {r : FramedReader} (h : Ready r) (hw : window r = items.flatMap enc ++ tail) :
    ∃ start, Ready { r with start := start } ∧ window { r with start := start } = tail ∧
      ∀ as, Drains (next codec) r (items.map .ok ++ as) ↔
        Drains (next codec) { r with start := start } as := by
  induction items generalizing r with
  | nil => exact ⟨r.start, h, hw, fun as => Iff.rfl⟩
  | cons i items ih =>
    obtain ⟨hi, hrest⟩ := List.forall_mem_cons.mp hi
    rw [List.flatMap_cons, List.append_assoc] at hw
    obtain ⟨hwin, hready⟩ := window_taken h.windowed hw
    obtain ⟨start, hstart, htail, hiff⟩ := ih hrest (hready.ready h.reliable) hwin
    refine ⟨start, hstart, htail, fun as => ?_⟩
    have hdec := hc.whole hi (items.flatMap enc ++ tail)
    rw [← hw] at hdec
    have hnext : next codec r = some (some (.ok i), _) := nextLoop_decoded h.windowed hdec _
    rw [List.map_cons, List.cons_append, Drains.step_iff hnext]
    simp only [List.cons.injEq, true_and, exists_eq_left']
    exact hiff as

/-! ## Empty windows -/

/-- A reader that has decoded all it read, with its buffer at its first
size. -/
structure Idle (r : FramedReader) : Prop where
  ready : Ready r
  empty : r.start = r.stop
  size : r.buf.length = bufsize

theorem Idle.window {r : FramedReader} (h : Idle r) : Tsdb.window r = [] := by
  rw [Tsdb.window, h.empty, Nat.sub_self, List.take_zero]

/-- Where the next bytes are read to. -/
def readPos (pos : Nat) : Nat := if pos = bufsize then 0 else pos

theorem Idle.makeRoom {r : FramedReader} (h : Idle r) :
    r.makeRoom = { r with start := readPos r.stop, stop := readPos r.stop } := by
  have hsize := h.size
  have hempty := h.empty
  have hpos : bufsize = 4096 := rfl
  by_cases hfull : r.stop = bufsize
  · have hstart : 0 < r.start := by omega
    have hmoved : splice r.buf 0 ((r.buf.drop r.start).take (r.stop - r.start)) = r.buf := by
      rw [hempty, Nat.sub_self, List.take_zero]
      simp [splice]
    rw [FramedReader.makeRoom, if_pos (hfull.trans hsize.symm), if_pos hstart, readPos, if_pos hfull,
      hmoved, hempty, Nat.sub_self, if_neg (show ¬ 0 = r.buf.length by omega)]
  · have hroom : r.stop ≠ r.buf.length := by rwa [hsize]
    rw [FramedReader.makeRoom, if_neg hroom, readPos, if_neg hfull]
    exact congrArg (fun n => { r with start := n }) hempty

theorem readPos_lt {r : FramedReader} (h : Idle r) : readPos r.stop < bufsize := by
  have hle := h.ready.stop_le
  have hsize := h.size
  have hpos : bufsize = 4096 := rfl
  rw [readPos]
  split <;> omega

/-- A reader that has decoded all it read, and reads on. -/
theorem Idle.fill {r : FramedReader} (h : Idle r) {b : UInt8} {bs : List UInt8} {inner : BufReader}
    (hread : r.inner.read (bufsize - readPos r.stop) = (some (b :: bs), inner)) :
    r.fill = (some false,
      { inner := inner, buf := splice r.buf (readPos r.stop) (b :: bs), start := readPos r.stop
        stop := readPos r.stop + (b :: bs).length }) := by
  rw [FramedReader.fill, h.makeRoom]
  simp only
  rw [h.size, hread]

theorem Idle.fill_end {r : FramedReader} (h : Idle r) {inner : BufReader}
    (hread : r.inner.read (bufsize - readPos r.stop) = (some [], inner)) :
    ∃ r', r.fill = (some true, r') := by
  rw [FramedReader.fill, h.makeRoom]
  simp only
  rw [h.size, hread]
  exact ⟨_, rfl⟩

/-- Bytes in an empty window. -/
theorem Idle.filled {r : FramedReader} (h : Idle r) {bs : List UInt8} {inner : BufReader}
    (hlen : bs.length ≤ bufsize - readPos r.stop) (hrel : inner.Reliable) :
    Ready ⟨inner, splice r.buf (readPos r.stop) bs, readPos r.stop, readPos r.stop + bs.length⟩ ∧
      Tsdb.window ⟨inner, splice r.buf (readPos r.stop) bs, readPos r.stop,
        readPos r.stop + bs.length⟩ = bs ∧
      (splice r.buf (readPos r.stop) bs).length = bufsize := by
  have hlt := readPos_lt h
  have hsize := h.size
  have hbuf : (splice r.buf (readPos r.stop) bs).length = bufsize := by
    simp only [splice, List.length_append, List.length_take, List.length_drop]
    omega
  refine ⟨⟨Nat.le_add_right _ _, ?_, ?_, hrel⟩, ?_, hbuf⟩
  · show _ ≤ (splice r.buf (readPos r.stop) bs).length
    simp only
    omega
  · show 0 < (splice r.buf (readPos r.stop) bs).length
    omega
  · rw [Tsdb.window]
    simp only [splice]
    rw [List.append_assoc, List.drop_left' (by rw [List.length_take]; omega), Nat.add_sub_cancel_left,
      List.take_left]

/-! ## Pieces -/

theorem wholeItems_append_drop (len : I → Nat) (n : Nat) (items : List I) :
    wholeItems len n items ++ items.drop (wholeItems len n items).length = items := by
  induction items generalizing n with
  | nil => rfl
  | cons i items ih =>
    rw [wholeItems]
    split
    · rw [List.length_cons, List.drop_succ_cons, List.cons_append, ih]
    · rfl

theorem Refuses.ne_nil (hc : Refuses codec enc P) {i : I} (hi : P i) : enc i ≠ [] := by
  intro he
  have hd := hc.whole hi []
  rw [he, List.append_nil, hc.empty] at hd
  cases hd

theorem Refuses.torn (hc : Refuses codec enc P) {bs : List UInt8} (h : Torn enc P bs)
    (hne : bs ≠ []) : ∃ e, codec.decode bs = .error e := by
  obtain ⟨i, hi, hpre, hpart⟩ := h.resolve_left hne
  exact hc.part hi hpre hpart hne

/-- Bytes of a log are decoded or refused. -/
theorem Refuses.decode_ne_none (hc : Refuses codec enc P) {items : List I} (hi : ∀ i ∈ items, P i)
    {tail : List UInt8} (htail : Torn enc P tail) (hne : items.flatMap enc ++ tail ≠ []) :
    codec.decode (items.flatMap enc ++ tail) ≠ .ok none := by
  cases items with
  | nil =>
    obtain ⟨e, he⟩ := hc.torn htail hne
    rw [List.flatMap_nil, List.nil_append, he]
    simp
  | cons i items =>
    rw [List.flatMap_cons, List.append_assoc, hc.whole (hi i List.mem_cons_self)]
    simp

/-- The end of the log, with nothing left. -/
theorem Refuses.drains_nil (hc : Refuses codec enc P) {items : List I} (hi : ∀ i ∈ items, P i)
    {r : FramedReader} (h : Idle r) (hleft : r.inner.unread = items.flatMap enc)
    (hnil : r.inner.unread = []) : items = [] ∧ Drains (next codec) r [] := by
  constructor
  · cases items with
    | nil => rfl
    | cons i items =>
      rw [hnil, List.flatMap_cons] at hleft
      exact absurd (List.append_eq_nil_iff.mp hleft.symm).1 (hc.ne_nil (hi i List.mem_cons_self))
  · obtain ⟨bs, inner, hread, hunread, -, -, -⟩ :=
      BufReader.read_spec h.ready.reliable (bufsize - readPos r.stop)
    rw [hnil] at hunread
    rw [(List.append_eq_nil_iff.mp hunread.symm).1] at hread
    obtain ⟨r', hfill⟩ := h.fill_end hread
    exact .done (nextLoop_ended h.ready.windowed (by rw [h.window]; exact hc.empty) hfill _)

/-- A piece of the log: its whole items are yielded, and the rest stays in the
window. -/
theorem Refuses.drains_piece (hc : Refuses codec enc P) {items : List I} (hi : ∀ i ∈ items, P i)
    {tail : List UInt8} (htail : Torn enc P tail) {r : FramedReader} (h : Idle r) {b : UInt8}
    {bs : List UInt8} {inner : BufReader}
    (hread : r.inner.read (bufsize - readPos r.stop) = (some (b :: bs), inner))
    (hlen : (b :: bs).length ≤ bufsize - readPos r.stop) (hrel : inner.Reliable)
    (hunread : r.inner.unread = b :: bs ++ inner.unread) (hpiece : b :: bs = items.flatMap enc ++ tail) :
    ∃ r', Ready r' ∧ window r' = tail ∧ r'.buf.length = bufsize ∧ r'.inner = inner ∧
      r'.stop = readPos r.stop + (b :: bs).length ∧
      ∀ as, Drains (next codec) r (items.map .ok ++ as) ↔ Drains (next codec) r' as := by
  obtain ⟨hready, hwin, hsize⟩ := h.filled hlen hrel
  obtain ⟨start, hstart, hrest, hiff⟩ := drains_window hc hi hready (hwin.trans hpiece)
  refine ⟨_, hstart, hrest, hsize, rfl, rfl, fun as => Iff.trans ?_ (hiff as)⟩
  have hnext : next codec r = next codec ⟨inner, splice r.buf (readPos r.stop) (b :: bs),
      readPos r.stop, readPos r.stop + (b :: bs).length⟩ := by
    have hlength := congrArg List.length hunread
    rw [List.length_append, List.length_cons, Nat.succ_add] at hlength
    rw [next, nextLoop_filled h.ready.windowed (by rw [h.window]; exact hc.empty) (h.fill hread),
      hlength]
    apply nextLoop_rounds hready.windowed
    rw [hwin, hpiece]
    exact hc.decode_ne_none hi htail (by rw [← hpiece]; simp)
  exact ⟨fun hd => hd.of_next_eq hnext.symm, fun hd => hd.of_next_eq hnext⟩

/-- All of the window is decoded. -/
theorem Idle.of_window {r : FramedReader} (h : Ready r) (hwin : Tsdb.window r = [])
    (hsize : r.buf.length = bufsize) : Idle r := by
  have hlength := h.windowed.length_window
  have hle := h.start_le
  rw [hwin, List.length_nil] at hlength
  exact ⟨h, by omega, hsize⟩

/-- A part of an item in the window is refused, and no item comes after it. -/
theorem Refuses.not_drains (hc : Refuses codec enc P) {r : FramedReader} (h : Ready r)
    (htorn : Torn enc P (window r)) (hne : window r ≠ []) (items : List I) :
    ¬ Drains (next codec) r (items.map .ok) := by
  obtain ⟨e, he⟩ := hc.torn htorn hne
  have hnext : next codec r = some (some (.error e), r) := nextLoop_failed h.windowed he _
  rw [Drains.step_iff hnext]
  rintro ⟨as, has, -⟩
  cases items with
  | nil => cases has
  | cons i items => cases has

/-- A reader with nothing to decode yields the items of the log exactly if each
piece that it reads ends where an item ends. -/
theorem drains_iff_endsOnItems (hc : Refuses codec enc P) {items : List I} (hi : ∀ i ∈ items, P i)
    {n : Nat} {r : FramedReader} (h : Idle r) (hleft : r.inner.unread = items.flatMap enc)
    (hn : r.inner.unread.length ≤ n) :
    Drains (next codec) r (items.map .ok) ↔
      EndsOnItems (fun i => (enc i).length) items (pieces n r.stop r.inner) := by
  induction n generalizing items r with
  | zero =>
    obtain ⟨rfl, hd⟩ := hc.drains_nil hi h hleft (List.length_eq_zero_iff.mp (by omega))
    exact iff_of_true hd trivial
  | succ n ih =>
    obtain ⟨bs, inner, hread, hunread, hlen, hne, hrel⟩ :=
      BufReader.read_spec h.ready.reliable (bufsize - readPos r.stop)
    have hlt := readPos_lt h
    rw [pieces, ← readPos, hread]
    cases bs with
    | nil =>
      have hnil : r.inner.unread = [] := by
        by_contra hsome
        exact hne (by omega) hsome rfl
      obtain ⟨rfl, hd⟩ := hc.drains_nil hi h hleft hnil
      exact iff_of_true hd trivial
    | cons b bs =>
      -- The piece is some whole items, and a part of the next.
      obtain ⟨tail, htorn, hpiece⟩ := take_flatMap_enc enc hi (b :: bs).length
      rw [← hleft, hunread, List.take_left] at hpiece
      have hitems := wholeItems_append_drop (fun i => (enc i).length) (b :: bs).length items
      simp only [EndsOnItems]
      generalize wholeItems (fun i => (enc i).length) (b :: bs).length items = whole at hpiece hitems ⊢
      generalize items.drop whole.length = rest at hitems ⊢
      subst hitems
      obtain ⟨hwhole, hrest⟩ := List.forall_mem_append.mp hi
      obtain ⟨r', hready, hwin, hsize, rfl, hstop, hiff⟩ :=
        hc.drains_piece hwhole htorn h hread hlen hrel hunread hpiece
      rw [List.map_append, hiff, ← hstop]
      have hplen := congrArg List.length hpiece
      rw [List.length_append, List.length_flatMap] at hplen
      by_cases hnil : tail = []
      · -- Nothing is left in the window.
        have hidle : Idle r' := .of_window hready (hwin.trans hnil) hsize
        rw [hnil, List.append_nil] at hpiece
        rw [hunread, List.flatMap_append, ← hpiece] at hleft
        have hrestlen := congrArg List.length hunread
        rw [List.length_append, List.length_cons] at hrestlen
        rw [ih hrest hidle (List.append_cancel_left hleft) (by omega)]
        rw [hnil, List.length_nil, Nat.add_zero] at hplen
        exact (and_iff_right hplen.symm).symm
      · -- The part of an item that is left is refused.
        have hpos := List.length_pos_iff.mpr hnil
        subst hwin
        refine iff_of_false (hc.not_drains hready htorn hnil rest) fun h => ?_
        have := h.1
        omega

/-! ## The manifest -/

theorem idle_new {s : ByteSource} (hs : s.Reliable) : Idle (.new s) where
  ready := ready_new hs
  empty := rfl
  size := List.length_replicate

theorem manifestCodec_refuses (fp : List Label → UInt64) :
    Refuses (manifestCodec fp) entryBytes fun me => Built fp me ∧ OneId me where
  whole := by
    rintro me ⟨hme, hid⟩ rest
    show decodeManifestEntry fp (entryBytes me ++ rest) = _
    rw [decodeManifestEntry_entryBytes hme.fits, (readBack_eq_iff me).mpr hid, length_entryBytes]
  part := fun hme _ hpre hne hpos => decodeManifestEntry_part hme.1.fits hpre hne hpos
  empty := rfl

theorem manifest_write {fp : List Label → UInt64} {entries : List ManifestEntry}
    (h : ∀ me ∈ entries, Built fp me ∧ OneId me) :
    ∃ n, FramedWriter.writeAll (manifestCodec fp) entries .new =
      (.ok (), { inner := entries.flatMap entryBytes, bytesWritten := n }) :=
  writeAll_eq (manifestCodec fp) (fun _ hme => encode_replicate hme.1.fits.accepted) h .new

/-- How reading a manifest depends on its pieces. -/
theorem manifest_read {fp : List Label → UInt64} {entries : List ManifestEntry}
    (h : ∀ me ∈ entries, Built fp me ∧ OneId me) (gives : List Nat) :
    Drains (next (manifestCodec fp)) (.new ⟨entries.flatMap entryBytes, gives.map some⟩)
        (entries.map .ok) ↔
      EndsOnItems ManifestEntry.wireLen entries
        (piecesOf ⟨entries.flatMap entryBytes, gives.map some⟩) := by
  have hiff := drains_iff_endsOnItems (manifestCodec_refuses fp) h
    (idle_new (ByteSource.reliable_map_some (entries.flatMap entryBytes) gives)) rfl (le_refl _)
  simp only [length_entryBytes] at hiff
  exact hiff

/-- Where a manifest can be cut and read in pieces. A proper part of an entry's
bytes makes the codec ask for more only if it is empty. A log of entries that
the codec gives back is read back exactly if each piece that the reader gets
ends where an entry ends. -/
theorem manifest_log_iff (fp : List Label → UInt64) :
    (∀ me bs, Built fp me → bs <+: (encodeManifestEntry me (List.replicate me.wireLen 0)).2 →
      bs ≠ (encodeManifestEntry me (List.replicate me.wireLen 0)).2 →
      (decodeManifestEntry fp bs = .ok none ↔ bs = [])) ∧
    ∀ entries, (∀ me ∈ entries, Built fp me ∧ OneId me) →
      ∃ w, FramedWriter.writeAll (manifestCodec fp) entries .new = (.ok (), w) ∧
        ∀ gives : List Nat,
          Drains (next (manifestCodec fp)) (.new ⟨w.inner, gives.map some⟩) (entries.map .ok) ↔
            EndsOnItems ManifestEntry.wireLen entries (piecesOf ⟨w.inner, gives.map some⟩) := by
  constructor
  · intro me bs hme hpre hne
    rw [encode_replicate hme.fits.accepted] at hpre hne
    constructor
    · intro hd
      by_contra hpos
      obtain ⟨e, he⟩ := decodeManifestEntry_part hme.fits hpre hne hpos
      rw [he] at hd
      cases hd
    · rintro rfl
      rfl
  · intro entries h
    obtain ⟨n, hw⟩ := manifest_write h
    exact ⟨_, hw, manifest_read h⟩

/-- The first piece of a log that is longer than the buffer, from a source that
gives all that it is asked for. -/
theorem piecesOf_long {bs : List UInt8} (h : bufsize ≤ bs.length) :
    ∃ ps, piecesOf ⟨bs, []⟩ = bs.take bufsize :: ps := by
  have hread : (BufReader.new ⟨bs, []⟩).read (bufsize - 0) =
      (some ((bs.take BufReader.capacity).take bufsize),
        ⟨⟨bs.drop BufReader.capacity, []⟩, (bs.take BufReader.capacity).drop bufsize⟩) := rfl
  rw [List.take_take, min_eq_left (by decide)] at hread
  cases bs with
  | nil => cases h
  | cons b bs =>
    rw [piecesOf, List.length_cons, pieces, show (if 0 = bufsize then 0 else 0) = 0 from rfl, hread]
    exact ⟨_, rfl⟩

theorem built_flushes (k : Nat) (id : UInt64) : ∀ me ∈ List.replicate k (.memtableFlush id),
    Built (fun _ => 0) me ∧ OneId me := by
  intro me hme
  rw [(List.mem_replicate.mp hme).2]
  exact ⟨.sstFlush id, trivial⟩

/-- A log of flushes that is longer than the buffer is not read back, although
the source gives all that it is asked for: an entry straddles the end of the
buffer. -/
theorem manifest_straddles {k : Nat} (hk : bufsize ≤ k * 9) (id : UInt64) :
    ¬ Drains (next (manifestCodec fun _ => 0))
      (.new ⟨(List.replicate k (.memtableFlush id)).flatMap entryBytes, []⟩)
      ((List.replicate k (.memtableFlush id)).map .ok) := by
  have hlog : ((List.replicate k (ManifestEntry.memtableFlush id)).flatMap entryBytes).length =
      k * 9 := by
    rw [List.length_flatMap, List.map_replicate, length_entryBytes, List.sum_replicate_nat]
    rfl
  obtain ⟨ps, hps⟩ := piecesOf_long (hlog.symm ▸ hk)
  intro hd
  have hends := (manifest_read (built_flushes k id) []).mp hd
  rw [List.map_nil, hps] at hends
  -- The first 4096 bytes would be flushes of 9 bytes each.
  have hsum := hends.1
  rw [List.length_take, hlog, min_eq_left hk] at hsum
  have hflushes : ∀ me ∈ wholeItems ManifestEntry.wireLen bufsize
      (List.replicate k (ManifestEntry.memtableFlush id)), me = .memtableFlush id :=
    fun me hme => (List.mem_replicate.mp ((wholeItems_sublist _ _ _).subset hme)).2
  rw [List.eq_replicate_of_mem hflushes, List.map_replicate, List.sum_replicate_nat] at hsum
  simp only [ManifestEntry.wireLen, szU64, bufsize] at hsum
  omega

/-- The first byte of an entry is refused; and a log of 456 flushes, 4104
bytes, is not read back. -/
theorem manifest_refuses_straddling :
    decodeManifestEntry (fun _ => 0) [1] = .error (.notEnoughBytes 1 9) ∧
      ∃ w, FramedWriter.writeAll (manifestCodec fun _ => 0)
          (List.replicate 456 (.memtableFlush 7)) .new = (.ok (), w) ∧
        ¬ Drains (next (manifestCodec fun _ => 0)) (.new ⟨w.inner, []⟩)
          ((List.replicate 456 (.memtableFlush 7)).map .ok) := by
  obtain ⟨n, hw⟩ := manifest_write (built_flushes 456 7)
  exact ⟨rfl, _, hw, manifest_straddles (by decide) 7⟩

end LG.Proof.Tsdb
