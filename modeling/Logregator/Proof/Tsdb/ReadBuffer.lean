import Logregator.Framework.Decoder
import Logregator.Proof.Tsdb.Framed

/-!
# The buffer of a framed reader, on any bytes

The record codec refuses a length that is too large before the payload is
there, so what it asks more bytes for is never longer than two buffers
(`Frames`): a reader's buffer doubles once at most (`Bounded`), whatever the
source gives and however its reads fail. A call of `next` then answers for the
bytes that can be had (`Answered`): an item, or a refusal that leaves the reader
where it is, or the end, which it also reports when a read failed.
-/

namespace LG.Proof.Tsdb

open LG.Impl.Tsdb LG.Impl.Tsdb.FramedReader LG.Spec.Tsdb

/-! ## The bound -/

/-- A codec that decides the same however much has arrived, and that does not
ask for more than two buffers. -/
structure Frames {I : Type} (codec : SpecCodec I) : Prop extends Stable codec.decode where
  short : ∀ {src}, codec.decode src = .ok none → src.length < 2 * bufsize

theorem recordCodec_frames : Frames recordCodec where
  takes := fun {src i n} h => by
    obtain ⟨hr, rfl, rest, rfl⟩ := decodeRecord_eq_some_iff.mp h
    have hmin := hr.wireLen_mem.1
    rw [List.length_append, length_wire]
    exact ⟨lt_of_lt_of_le (by decide) hmin, Nat.le_add_right _ _⟩
  item_append := fun h more => decodeRecord_item_append h more
  error_append := fun h more => decodeRecord_error_append h more
  short := fun {src} h => by
    have hdec := decodeRecord_decoded src
    rw [show decodeRecord src = .ok none from h] at hdec
    cases hdec with
    | part _ hlt => exact lt_of_lt_of_le hlt (by decide)

/-- A reader whose buffer has doubled once at most. -/
structure Bounded (r : FramedReader) : Prop extends Windowed r where
  size : r.buf.length = bufsize ∨ r.buf.length = 2 * bufsize

theorem bounded_new (s : ByteSource) : Bounded (.new s) where
  toWindowed := windowed_new s
  size := .inl List.length_replicate

theorem Bounded.makeRoom {r : FramedReader} (h : Bounded r)
    (hshort : (window r).length < 2 * bufsize) : Bounded r.makeRoom := by
  obtain ⟨hroom, -, -, -, hlen⟩ := makeRoom_spec h.toWindowed
  refine ⟨hroom, ?_⟩
  have hsize := h.size
  omega

/-! ## Filling -/

/-- The bytes that a reader can have, and whether its source fails after them. -/
def readable (r : FramedReader) : List UInt8 × Bool := r.inner.ahead.map (window r ++ ·) id

theorem readable_eq (r : FramedReader) :
    readable r = (window r ++ r.inner.ahead.1, r.inner.ahead.2) := rfl

/-- What filling leaves of a reader that has too little: the source failed, or
ended, or the window is longer. -/
inductive Filled (r : FramedReader) : Option Bool × FramedReader → Prop
  | failed {r' : FramedReader} (h : Bounded r') (hahead : readable r = (window r, true))
      (hans : fillAnswers r = [none]) : Filled r (none, r')
  | ended {r' : FramedReader} (h : Bounded r') (hahead : readable r = (window r, false))
      (hans : fillAnswers r = [some []]) : Filled r (some true, r')
  | grown {r' : FramedReader} (h : Bounded r') (hahead : readable r' = readable r)
      (hless : r'.inner.unread.length < r.inner.unread.length) (hok : none ∉ fillAnswers r) :
      Filled r (some false, r')

theorem fill_filled {r : FramedReader} (h : Bounded r) (hshort : (window r).length < 2 * bufsize) :
    Filled r r.fill := by
  have hroom := h.makeRoom hshort
  obtain ⟨-, hwin, hinner, hfree, -⟩ := makeRoom_spec h.toWindowed
  have hcap : r.makeRoom.buf.length - r.makeRoom.stop ≤ BufReader.capacity := by
    have hsize := hroom.size
    rw [show bufsize = 4096 from rfl] at hsize
    rw [show BufReader.capacity = 8192 from rfl]
    omega
  rcases r.makeRoom.inner.read_ahead (Nat.sub_pos_of_lt hfree) hcap with ⟨b, hread, hahead, hans⟩ |
    ⟨b, hread, hahead, hans⟩ | ⟨bs, b, hread, hne, hlen, hunread, hahead, hok⟩
  · rw [fill, hread]
    rw [hinner] at hahead
    refine .failed ⟨⟨hroom.start_le, hroom.stop_le, hroom.buf_pos⟩, hroom.size⟩ ?_ hans
    rw [readable_eq, hahead, List.append_nil]
  · rw [fill, hread]
    rw [hinner] at hahead
    refine .ended ⟨⟨hroom.start_le, hroom.stop_le, hroom.buf_pos⟩, hroom.size⟩ ?_ hans
    rw [readable_eq, hahead, List.append_nil]
  · obtain ⟨x, xs, rfl⟩ := List.exists_cons_of_ne_nil hne
    rw [fill, hread]
    rw [hinner] at hahead hunread
    have hbuf : (splice r.makeRoom.buf r.makeRoom.stop (x :: xs)).length =
        r.makeRoom.buf.length := by
      simp only [splice, List.length_append, List.length_take, List.length_drop]
      omega
    have hstart := hroom.start_le
    refine .grown ⟨⟨?_, ?_, ?_⟩, ?_⟩ ?_ ?_ hok
    · show r.makeRoom.start ≤ r.makeRoom.stop + (x :: xs).length
      omega
    · show r.makeRoom.stop + (x :: xs).length ≤ (splice _ _ _).length
      omega
    · show 0 < (splice _ _ _).length
      omega
    · show (splice _ _ _).length = _ ∨ (splice _ _ _).length = _
      rw [hbuf]
      exact hroom.size
    · rw [readable_eq, window_splice hroom.toWindowed, hwin, readable_eq, hahead, List.append_assoc]
    · have := congrArg List.length hunread
      rw [List.length_append] at this
      show b.unread.length < _
      have hpos : 0 < (x :: xs).length := Nat.succ_pos _
      omega

/-! ## Calls of `next` -/

/-- What a call returns for the bytes that can be had, and what the source
answered meanwhile. -/
inductive Answered {I : Type} (codec : SpecCodec I) (r : FramedReader)
    (ans : List (Option (List UInt8))) : Option (Except CodecError I) → FramedReader → Prop
  | item {r' : FramedReader} {i : I} {n : Nat}
      (hd : codec.decode (readable r).1 = .ok (some (i, n))) (h : Bounded r')
      (hahead : readable r' = ((readable r).1.drop n, (readable r).2))
      (hok : none ∉ ans) : Answered codec r ans (some (.ok i)) r'
  | refused {r' : FramedReader} {e : CodecError} (hd : codec.decode (readable r).1 = .error e)
      (h : Bounded r') (hahead : readable r' = readable r) (hok : none ∉ ans) :
      Answered codec r ans (some (.error e)) r'
  | failed {r' : FramedReader} (hd : codec.decode (readable r).1 = .ok none) (h : Bounded r')
      (hahead : (readable r).2 = true) (hans : none ∈ ans) : Answered codec r ans none r'
  | ended {r' : FramedReader} (hd : codec.decode (readable r).1 = .ok none) (h : Bounded r')
      (hahead : (readable r).2 = false) (hans : some [] ∈ ans) (hok : none ∉ ans) :
      Answered codec r ans none r'

variable {I : Type} {codec : SpecCodec I}

/-- A call that goes on after a read of some bytes. -/
theorem Answered.of_grown {r r' r'' : FramedReader} {ans : List (Option (List UInt8))}
    {out : Option (Except CodecError I)} (hahead : readable r' = readable r)
    (hok : none ∉ fillAnswers r) (h : Answered codec r' ans out r'') :
    Answered codec r (fillAnswers r ++ ans) out r'' := by
  cases h with
  | item hd hr' hrest hans =>
    rw [hahead] at hd hrest
    exact .item hd hr' hrest fun hmem => (List.mem_append.mp hmem).elim hok hans
  | refused hd hr' hrest hans =>
    rw [hahead] at hd hrest
    exact .refused hd hr' hrest fun hmem => (List.mem_append.mp hmem).elim hok hans
  | failed hd hr' hrest hans =>
    rw [hahead] at hd hrest
    exact .failed hd hr' hrest (List.mem_append_right _ hans)
  | ended hd hr' hrest hend hans =>
    rw [hahead] at hd hrest
    exact .ended hd hr' hrest (List.mem_append_right _ hend)
      fun hmem => (List.mem_append.mp hmem).elim hok hans

theorem answersLoop_decided {r : FramedReader} (hd : codec.decode (window r) ≠ .ok none)
    (rounds : Nat) : answersLoop codec (rounds + 1) r = [] := by
  rw [answersLoop, ← window]
  split
  · rename_i hnone
    exact absurd hnone hd
  · rfl

theorem answersLoop_asks {r r' : FramedReader} {out : Option Bool}
    (hd : codec.decode (window r) = .ok none) (hf : r.fill = (out, r')) (rounds : Nat) :
    answersLoop codec (rounds + 1) r =
      fillAnswers r ++ if out = some false then answersLoop codec rounds r' else [] := by
  rw [answersLoop, ← window, hd, hf]

theorem nextLoop_stopped {r r' : FramedReader} (h : Windowed r)
    (hd : codec.decode (window r) = .ok none) (hf : r.fill = (none, r')) (rounds : Nat) :
    nextLoop codec (rounds + 1) r = some (none, r') := by
  rw [nextLoop, h.slice]
  simp only [Option.bind_eq_bind, Option.bind_some, hd, hf]
  rfl

/-- The item at the front of the window is the next of the bytes that can be
had. -/
theorem readable_taken (hc : Frames codec) {r : FramedReader} (h : Bounded r) {i : I} {n : Nat}
    (hd : codec.decode (window r) = .ok (some (i, n))) :
    Bounded { r with start := r.start + n } ∧
      readable { r with start := r.start + n } = ((readable r).1.drop n, (readable r).2) := by
  have hn := (hc.takes hd).2
  have hlen : ((window r).take n).length = n := by
    rw [List.length_take]
    omega
  obtain ⟨hwin, hw⟩ := window_taken h.toWindowed (List.take_append_drop n (window r)).symm
  rw [hlen] at hwin hw
  refine ⟨⟨hw, h.size⟩, ?_⟩
  rw [readable_eq, readable_eq, hwin, List.drop_append_of_le_length hn]

/-- A call comes to an end, and returns what the bytes that can be had decode
to. -/
theorem nextLoop_answered (hc : Frames codec) {rounds : Nat} {r : FramedReader} (h : Bounded r)
    (hrounds : r.inner.unread.length < rounds) :
    ∃ out r', nextLoop codec rounds r = some (out, r') ∧
      Answered codec r (answersLoop codec rounds r) out r' := by
  induction rounds generalizing r with
  | zero => omega
  | succ rounds ih =>
    rcases hd : codec.decode (window r) with e | _ | ⟨i, n⟩
    · refine ⟨_, _, nextLoop_failed h.toWindowed hd rounds, ?_⟩
      rw [answersLoop_decided (by rw [hd]; simp)]
      exact .refused (hc.error_append hd _) h rfl List.not_mem_nil
    · have hfilled := fill_filled h (hc.short hd)
      obtain ⟨out, r', hf⟩ : ∃ out r', r.fill = (out, r') := ⟨_, _, rfl⟩
      rw [hf] at hfilled
      rw [answersLoop_asks hd hf]
      cases hfilled with
      | failed hr' hahead hans =>
        refine ⟨_, _, nextLoop_stopped h.toWindowed hd hf rounds, .failed ?_ hr' ?_ ?_⟩
        · rw [hahead]
          exact hd
        · rw [hahead]
        · rw [hans]
          exact List.mem_append_left _ (List.mem_singleton_self none)
      | ended hr' hahead hans =>
        refine ⟨_, _, nextLoop_ended h.toWindowed hd hf rounds, .ended ?_ hr' ?_ ?_ ?_⟩
        · rw [hahead]
          exact hd
        · rw [hahead]
        · rw [hans]
          exact List.mem_append_left _ (List.mem_singleton_self (some []))
        · rw [hans]
          simp
      | grown hr' hahead hless hok =>
        obtain ⟨out, r'', hnext, hans⟩ := ih hr' (by omega)
        refine ⟨out, r'', ?_, ?_⟩
        · rw [nextLoop_filled h.toWindowed hd hf, hnext]
        · rw [if_pos rfl]
          exact hans.of_grown hahead hok
    · obtain ⟨hr', hahead⟩ := readable_taken hc h hd
      refine ⟨_, _, nextLoop_decoded h.toWindowed hd rounds, ?_⟩
      rw [answersLoop_decided (by rw [hd]; simp)]
      exact .item (hc.item_append hd _) hr' hahead List.not_mem_nil

theorem next_answered (hc : Frames codec) {r : FramedReader} (h : Bounded r) :
    ∃ out r', next codec r = some (out, r') ∧ Answered codec r (answers codec r) out r' :=
  nextLoop_answered hc h (Nat.lt_succ_self _)

/-! ## Every state of a reader -/

theorem Passes.bounded (hc : Frames codec) {s : ByteSource} {r : FramedReader}
    (h : Passes codec s r) : Bounded r := by
  induction h with
  | new => exact bounded_new s
  | taken _ hs hd ih =>
    rw [ih.slice] at hs
    cases hs
    exact (readable_taken hc ih hd).1
  | @filled r _ _ hs hd ih =>
    rw [ih.slice] at hs
    cases hs
    have hfilled := fill_filled ih (hc.short hd)
    generalize r.fill = out at hfilled
    cases hfilled with
    | failed hr' => exact hr'
    | ended hr' => exact hr'
    | grown hr' => exact hr'

/-- The reader that a call leaves is a state of the run. -/
theorem Passes.nextLoop (hc : Frames codec) {s : ByteSource} {rounds : Nat} {r r' : FramedReader}
    {out : Option (Except CodecError I)} (h : Passes codec s r)
    (hnext : FramedReader.nextLoop codec rounds r = some (out, r')) : Passes codec s r' := by
  induction rounds generalizing r with
  | zero => simp [FramedReader.nextLoop] at hnext
  | succ rounds ih =>
    have hw := (Passes.bounded hc h).toWindowed
    rcases hd : codec.decode (window r) with e | _ | ⟨i, n⟩
    · rw [nextLoop_failed hw hd] at hnext
      cases hnext
      exact h
    · have hfill := Passes.filled h hw.slice hd
      rcases hf : r.fill with ⟨_ | _ | _, r₁⟩
      · rw [nextLoop_stopped hw hd hf] at hnext
        cases hnext
        rwa [hf] at hfill
      · rw [nextLoop_filled hw hd hf] at hnext
        rw [hf] at hfill
        exact ih hfill hnext
      · rw [nextLoop_ended hw hd hf] at hnext
        cases hnext
        rwa [hf] at hfill
    · rw [nextLoop_decoded hw hd] at hnext
      cases hnext
      exact .taken h hw.slice hd

/-- The window lies in the buffer, which has no more than two times its first
size. -/
def InBuffer (r : FramedReader) : Prop :=
  r.start ≤ r.stop ∧ r.stop ≤ r.buf.length ∧ r.buf.length ≤ 2 * bufsize

theorem Bounded.inBuffer {r : FramedReader} (h : Bounded r) : InBuffer r := by
  refine ⟨h.start_le, h.stop_le, ?_⟩
  have := h.size
  omega

/-- On any bytes and any reads, failing ones among them: the indices of a
record reader stay in its buffer and the buffer within twice its size, also
while room is made in it, the read after that has room for a byte, and every
call of `next` returns. -/
theorem read_buffer_bounded {s : ByteSource} {r : FramedReader} (h : Passes recordCodec s r) :
    InBuffer r ∧
    (∀ src, slice r.buf r.start r.stop = some src → decodeRecord src = .ok none →
      InBuffer (compact r) ∧ InBuffer r.makeRoom ∧ r.makeRoom.stop < r.makeRoom.buf.length) ∧
    ∃ out r', next recordCodec r = some (out, r') ∧ Passes recordCodec s r' := by
  have hb := Passes.bounded recordCodec_frames h
  refine ⟨hb.inBuffer, fun src hs hd => ?_, ?_⟩
  · rw [hb.slice] at hs
    cases hs
    obtain ⟨hcompact, -, -, hlen, -⟩ := compact_spec hb.toWindowed
    obtain ⟨-, -, -, hfree, -⟩ := makeRoom_spec hb.toWindowed
    refine ⟨Bounded.inBuffer ⟨hcompact, ?_⟩, ?_, hfree⟩
    · rw [hlen]
      exact hb.size
    · exact (hb.makeRoom (recordCodec_frames.short hd)).inBuffer
  · obtain ⟨out, r', hnext, -⟩ := next_answered recordCodec_frames hb
    exact ⟨out, r', hnext, Passes.nextLoop recordCodec_frames h hnext⟩

/-- A source with a record and three more bytes, which come in two reads; the
third read fails. -/
def brokenSource : ByteSource :=
  { rest := (encodeRecord ⟨⟨1, 1, 0, 0⟩, [5, 6]⟩ (List.replicate 38 0)).2 ++ [1, 2, 3]
    gives := [some 19, some 99, none] }

/-- The reader after two fills and the record: the three bytes are left. -/
theorem read_buffer_bounded_broken : ∃ out r,
    next recordCodec (.new brokenSource) = some (out, r) ∧ (r.start, r.stop) = (38, 41) ∧
    InBuffer r ∧ InBuffer r.makeRoom ∧
    ∃ out r', next recordCodec r = some (out, r') ∧ Passes recordCodec brokenSource r' := by
  obtain ⟨out, r, hnext, hr⟩ := (read_buffer_bounded (s := brokenSource) .new).2.2
  have hleft : (next recordCodec (.new brokenSource)).map
      (fun p => ((p.2.start, p.2.stop), slice p.2.buf p.2.start p.2.stop)) =
      some ((38, 41), some [1, 2, 3]) := by decide +kernel
  rw [hnext, Option.map_some, Option.some_inj, Prod.mk.injEq] at hleft
  obtain ⟨hin, hroom, hcall⟩ := read_buffer_bounded hr
  exact ⟨out, r, hnext, hleft.1, hin, (hroom _ hleft.2 rfl).2.1, hcall⟩

/-! ## Draining -/

/-- An item takes bytes, and leaves the frames after it. -/
theorem readable_after_item (hc : Frames codec) {r r' : FramedReader} {i : I} {n : Nat}
    (hdec : codec.decode (readable r).1 = .ok (some (i, n)))
    (hahead : readable r' = ((readable r).1.drop n, (readable r).2)) :
    (readable r').1.length < (readable r).1.length ∧
      (MeetsError codec.decode (readable r').1 ↔ MeetsError codec.decode (readable r).1) := by
  obtain ⟨hpos, hle⟩ := hc.takes hdec
  rw [hahead, meetsError_item hdec, List.length_drop]
  exact ⟨by omega, Iff.rfl⟩

/-- A drained reader has met no frame that its codec refuses. -/
theorem Drains.not_meetsError (hc : Frames codec) {r : FramedReader}
    {out : List (Except CodecError I)} (hd : Drains (next codec) r out) (h : Bounded r) :
    ¬ MeetsError codec.decode (readable r).1 := by
  induction hd with
  | @done r r' hnext =>
    obtain ⟨_, _, hnext', hans⟩ := next_answered hc h
    rw [hnext] at hnext'
    cases hnext'
    cases hans with
    | failed hdec => exact not_meetsError_none hdec
    | ended hdec => exact not_meetsError_none hdec
  | @step r r' _ _ hnext _ ih =>
    obtain ⟨_, _, hnext', hans⟩ := next_answered hc h
    rw [hnext] at hnext'
    cases hnext'
    cases hans with
    | item hdec hr' hahead =>
      rw [← (readable_after_item hc hdec hahead).2]
      exact ih hr'
    | refused hdec hr' hahead =>
      rw [← hahead]
      exact ih hr'

/-- Without such a frame each call takes bytes or is the last. -/
theorem exists_drains (hc : Frames codec) {r : FramedReader} (h : Bounded r)
    (hok : ¬ MeetsError codec.decode (readable r).1) : ∃ out, Drains (next codec) r out := by
  induction hlen : (readable r).1.length using Nat.strong_induction_on generalizing r with
  | _ m ih =>
    obtain ⟨out, r', hnext, hans⟩ := next_answered hc h
    cases hans with
    | item hdec hr' hahead =>
      obtain ⟨hless, hmeets⟩ := readable_after_item hc hdec hahead
      obtain ⟨rest, hrest⟩ := ih _ (hlen ▸ hless) hr' (mt hmeets.mp hok) rfl
      exact ⟨_, .step hnext hrest⟩
    | refused hdec => exact absurd (.here hdec) hok
    | failed => exact ⟨[], .done hnext⟩
    | ended => exact ⟨[], .done hnext⟩

theorem readable_new (s : ByteSource) : readable (.new s) = s.ahead BufReader.capacity := rfl

theorem exists_drains_iff (hc : Frames codec) (s : ByteSource) :
    (∃ out, Drains (next codec) (.new s) out) ↔
      ¬ MeetsError codec.decode (s.ahead BufReader.capacity).1 := by
  rw [← readable_new]
  refine ⟨?_, exists_drains hc (bounded_new s)⟩
  rintro ⟨out, hd⟩
  exact Drains.not_meetsError hc hd (bounded_new s)

/-- After some records comes a length that no record has. -/
def HasBadFrame (bs : List UInt8) : Prop :=
  ∃ (recs : List Record) (rest : List UInt8), (∀ r ∈ recs, Encodable r) ∧
    bs = recs.flatMap wire ++ rest ∧ 36 ≤ rest.length ∧ ¬ AdmissibleLength (lengthField rest)

theorem meetsError_decodeRecord_iff (bs : List UInt8) :
    MeetsError decodeRecord bs ↔ HasBadFrame bs := by
  constructor
  · intro h
    induction h with
    | here he =>
      obtain ⟨hlen, hbad⟩ := decodeRecord_eq_error_iff.mp ⟨_, he⟩
      exact ⟨[], _, by simp, rfl, hlen, hbad⟩
    | later hi _ ih =>
      obtain ⟨hr, rfl, rest, rfl⟩ := decodeRecord_eq_some_iff.mp hi
      obtain ⟨recs, bad, hrecs, hsplit, hbad⟩ := ih
      rw [List.drop_left' (length_wire _)] at hsplit
      refine ⟨_ :: recs, bad, List.forall_mem_cons.mpr ⟨hr, hrecs⟩, ?_, hbad⟩
      rw [hsplit, List.flatMap_cons, List.append_assoc]
  · rintro ⟨recs, rest, hrecs, rfl, hlen, hbad⟩
    induction recs with
    | nil => exact .here (decodeRecord_refused hlen hbad)
    | cons r recs ih =>
      obtain ⟨hr, hrecs⟩ := List.forall_mem_cons.mp hrecs
      rw [List.flatMap_cons, List.append_assoc]
      refine .later (decodeRecord_wire hr _) ?_
      rw [List.drop_left' (length_wire _)]
      exact ih hrecs

/-- Draining a record reader ends exactly when no length in the stream is
refused: the refused frame is not taken off the buffer, and each further call
refuses it again. -/
theorem drain_ends_iff (bs : List UInt8) (gives : List Nat) :
    (∃ out, Drains (next recordCodec) (.new { rest := bs, gives := gives.map some }) out) ↔
      ¬ HasBadFrame bs := by
  rw [exists_drains_iff recordCodec_frames, ByteSource.ahead_map_some]
  exact not_congr (meetsError_decodeRecord_iff bs)

/-- A log of 36 zero bytes: a key and the length 0. -/
theorem drain_not_ends_zeros : ¬ ∃ out, Drains (next recordCodec)
    (.new { rest := List.replicate 36 0, gives := [] }) out := by
  rw [exists_drains_iff recordCodec_frames, not_not]
  exact .here (e := invalidPayloadSz 0 maxRecordWireLength minRecordWireLength) (by decide)

/-! ## Reads that fail -/

/-- A call keeps the frames to come, and whether a failure comes after them. -/
theorem Called.inv (hc : Frames codec) {s : ByteSource} {before : List (Option (List UInt8))}
    {r : FramedReader} (h : Called codec s before r) :
    Bounded r ∧ (readable r).2 = (s.ahead BufReader.capacity).2 ∧
      (MeetsError codec.decode (readable r).1 ↔
        MeetsError codec.decode (s.ahead BufReader.capacity).1) := by
  induction h with
  | first => exact ⟨bounded_new s, rfl, Iff.rfl⟩
  | later _ hnext ih =>
    obtain ⟨hb, hfails, hmeets⟩ := ih
    obtain ⟨_, _, hnext', hans⟩ := next_answered hc hb
    rw [hnext] at hnext'
    cases hnext'
    cases hans with
    | item hdec hr' hahead =>
      refine ⟨hr', ?_, (readable_after_item hc hdec hahead).2.trans hmeets⟩
      rw [hahead]
      exact hfails
    | refused hdec hr' hahead =>
      rw [hahead]
      exact ⟨hr', hfails, hmeets⟩

/-- Without a refused frame the reader gets to the read that fails, and its
call returns `None`. -/
theorem exists_failed_call (hc : Frames codec) {s : ByteSource}
    {before : List (Option (List UInt8))} {r : FramedReader} (h : Called codec s before r)
    (hfails : (readable r).2 = true) (hok : ¬ MeetsError codec.decode (readable r).1) :
    ∃ before r r', Called codec s before r ∧ next codec r = some (none, r') ∧
      none ∈ answers codec r := by
  induction hlen : (readable r).1.length using Nat.strong_induction_on generalizing before r with
  | _ m ih =>
    obtain ⟨out, r', hnext, hans⟩ := next_answered hc (Called.inv hc h).1
    cases hans with
    | item hdec hr' hahead =>
      obtain ⟨hless, hmeets⟩ := readable_after_item hc hdec hahead
      refine ih _ (hlen ▸ hless) (.later h hnext) ?_ (mt hmeets.mp hok) rfl
      rw [hahead]
      exact hfails
    | refused hdec => exact absurd (.here hdec) hok
    | failed _ _ _ hans => exact ⟨before, r, r', h, hnext, hans⟩
    | ended _ _ hends =>
      rw [hfails] at hends
      cases hends

/-- `None` means that the source has said it is at its end, and an error of the
source is returned, in each call up to the first `None`, exactly when no read
fails before that end or a refused frame comes before the read that does. -/
theorem read_failures_reported_iff (s : ByteSource) :
    (∀ before r out r', Called recordCodec s before r → next recordCodec r = some (out, r') →
      (out = none → some [] ∈ before ++ answers recordCodec r) ∧
      (none ∈ answers recordCodec r → ∃ e, out = some (.error e))) ↔
    ((s.ahead BufReader.capacity).2 = true → HasBadFrame (s.ahead BufReader.capacity).1) := by
  rw [← meetsError_decodeRecord_iff]
  constructor
  · intro h hfails
    by_contra hok
    obtain ⟨before, r, r', hcalled, hnext, hans⟩ :=
      exists_failed_call recordCodec_frames (.first (s := s)) hfails hok
    obtain ⟨e, he⟩ := (h before r none r' hcalled hnext).2 hans
    cases he
  · intro h before r out r' hcalled hnext
    obtain ⟨hb, hfails, hmeets⟩ := Called.inv recordCodec_frames hcalled
    obtain ⟨_, _, hnext', hans⟩ := next_answered recordCodec_frames hb
    rw [hnext] at hnext'
    cases hnext'
    cases hans with
    | item _ _ _ hok => exact ⟨by simp, fun hmem => absurd hmem hok⟩
    | refused _ _ _ hok => exact ⟨by simp, fun hmem => absurd hmem hok⟩
    | failed hdec _ hahead =>
      exact absurd (hmeets.mpr (h (hfails ▸ hahead))) (not_meetsError_none hdec)
    | ended _ _ _ hend hok =>
      exact ⟨fun _ => List.mem_append_right _ hend, fun hmem => absurd hmem hok⟩

/-- A log of one record, of which the first read gives ten bytes and the second
fails. -/
def tornSource : ByteSource :=
  { rest := wire ⟨⟨1, 2, 3, 4⟩, [65, 66]⟩, gives := [some 9, none] }

/-- The reader says that this log has come to its end. -/
theorem read_failure_silent :
    (next recordCodec (.new tornSource)).map Prod.fst = some none ∧
      answers recordCodec (.new tornSource) = [some [0, 0, 0, 0, 0, 0, 0, 4, 0, 0], none] := by
  decide +kernel

end LG.Proof.Tsdb
