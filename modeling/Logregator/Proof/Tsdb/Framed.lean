import Logregator.Framework.Iter
import Logregator.Proof.Tsdb.Record
import Logregator.Spec.Tsdb.Framed

/-!
# Framed logs, however they are read

The bytes that a `FramedReader` has still to decode (`window`) and those that
it has still to read are what is left of the log. Filling the buffer moves
bytes from the second to the first, wherever the buffer has to make room
(`fill_spec`). A codec that asks for more bytes until it has an item
(`Delimits`) then gives the items of the log one by one, whatever the reads
were (`next_item`, `next_end`).
-/

namespace LG.Proof.Tsdb

open LG.Impl.Tsdb LG.Impl.Tsdb.FramedReader LG.Spec.Tsdb

/-! ## The buffer -/

/-- The bytes to be decoded. -/
def window (r : FramedReader) : List UInt8 := (r.buf.drop r.start).take (r.stop - r.start)

/-- What is left of the log. -/
def left (r : FramedReader) : List UInt8 := window r ++ r.inner.unread

/-- A reader whose window lies in its buffer. -/
structure Windowed (r : FramedReader) : Prop where
  start_le : r.start ≤ r.stop
  stop_le : r.stop ≤ r.buf.length
  buf_pos : 0 < r.buf.length

theorem Windowed.length_window {r : FramedReader} (h : Windowed r) :
    (window r).length = r.stop - r.start := by
  have := h.start_le
  have := h.stop_le
  rw [window, List.length_take, List.length_drop]
  omega

theorem Windowed.slice {r : FramedReader} (h : Windowed r) :
    LG.slice r.buf r.start r.stop = some (window r) := if_pos ⟨h.start_le, h.stop_le⟩

theorem windowed_new (s : ByteSource) : Windowed (.new s) where
  start_le := le_refl 0
  stop_le := Nat.zero_le _
  buf_pos := by
    rw [show (FramedReader.new s).buf = List.replicate bufsize 0 from rfl, List.length_replicate]
    decide

/-- A reader whose window lies in its buffer, on a source that does not
fail. -/
structure Ready (r : FramedReader) : Prop where
  start_le : r.start ≤ r.stop
  stop_le : r.stop ≤ r.buf.length
  buf_pos : 0 < r.buf.length
  reliable : r.inner.Reliable

theorem Ready.windowed {r : FramedReader} (h : Ready r) : Windowed r :=
  ⟨h.start_le, h.stop_le, h.buf_pos⟩

theorem Windowed.ready {r : FramedReader} (h : Windowed r) (hr : r.inner.Reliable) : Ready r :=
  ⟨h.start_le, h.stop_le, h.buf_pos, hr⟩

theorem ready_new {s : ByteSource} (hs : s.Reliable) : Ready (.new s) := (windowed_new s).ready hs

/-- The window moved to the front of a full buffer, the first half of making
room. -/
def compact (r : FramedReader) : FramedReader :=
  if r.stop = r.buf.length ∧ 0 < r.start then
    { r with buf := splice r.buf 0 (window r), stop := r.stop - r.start, start := 0 }
  else r

/-- Room is made in two steps: the buffer doubles when it is full with the
window at its front. -/
theorem makeRoom_eq (r : FramedReader) : r.makeRoom =
    if (compact r).stop = (compact r).buf.length then
      { compact r with buf := (compact r).buf ++ List.replicate (compact r).buf.length 0 }
    else compact r := by
  by_cases hfull : r.stop = r.buf.length
  · by_cases hstart : 0 < r.start
    · have hc : compact r = _ := if_pos ⟨hfull, hstart⟩
      rw [hc, makeRoom, if_pos hfull, if_pos hstart]
      rfl
    · have hc : compact r = r := if_neg fun h => hstart h.2
      rw [hc, makeRoom, if_pos hfull, if_neg hstart]
  · have hc : compact r = r := if_neg fun h => hfull h.1
    rw [hc, makeRoom, if_neg hfull, if_neg hfull]

theorem compact_spec {r : FramedReader} (h : Windowed r) :
    Windowed (compact r) ∧ window (compact r) = window r ∧ (compact r).inner = r.inner ∧
      (compact r).buf.length = r.buf.length ∧
      ((compact r).stop = (compact r).buf.length → (compact r).start = 0) := by
  have hs := h.start_le
  have hb := h.stop_le
  have hp := h.buf_pos
  have hwin := h.length_window
  rw [compact]
  split
  · rename_i hfull
    have hbuf : splice r.buf 0 (window r) = window r ++ r.buf.drop (r.stop - r.start) := by
      rw [splice, hwin]
      simp
    have hlen : (splice r.buf 0 (window r)).length = r.buf.length := by
      rw [hbuf, List.length_append, hwin, List.length_drop]
      omega
    refine ⟨⟨Nat.zero_le _, ?_, ?_⟩, ?_, rfl, hlen, fun _ => rfl⟩
    · show r.stop - r.start ≤ (splice r.buf 0 (window r)).length
      omega
    · show _ < (splice r.buf 0 (window r)).length
      omega
    · show (List.drop 0 (splice r.buf 0 (window r))).take (r.stop - r.start - 0) = window r
      rw [hbuf, List.drop_zero, Nat.sub_zero, ← hwin, List.take_left]
  · rename_i hfull
    refine ⟨h, rfl, rfl, rfl, fun he => ?_⟩
    by_contra hne
    exact hfull ⟨he, Nat.pos_of_ne_zero hne⟩

/-- Making room leaves the window, and at least one free byte after it; the
buffer doubles only around a window that fills it. -/
theorem makeRoom_spec {r : FramedReader} (h : Windowed r) :
    Windowed r.makeRoom ∧ window r.makeRoom = window r ∧ r.makeRoom.inner = r.inner ∧
      r.makeRoom.stop < r.makeRoom.buf.length ∧
      (r.makeRoom.buf.length = r.buf.length ∨
        r.makeRoom.buf.length = 2 * r.buf.length ∧ (window r).length = r.buf.length) := by
  obtain ⟨hc, hwin, hinner, hlen, hstart⟩ := compact_spec h
  have hs := hc.start_le
  have hb := hc.stop_le
  have hp := hc.buf_pos
  rw [makeRoom_eq]
  split
  · rename_i hfull
    refine ⟨⟨hs, ?_, ?_⟩, ?_, hinner, ?_, .inr ⟨?_, ?_⟩⟩
    · simp only [List.length_append]
      omega
    · simp only [List.length_append]
      omega
    · rw [← hwin, window, window]
      simp only
      rw [List.drop_append_of_le_length (by omega),
        List.take_append_of_le_length (by rw [List.length_drop]; omega)]
    · simp only [List.length_append, List.length_replicate]
      omega
    · simp only [List.length_append, List.length_replicate]
      omega
    · rw [← hwin, hc.length_window, hstart hfull]
      omega
  · rename_i hfull
    refine ⟨hc, hwin, hinner, ?_, .inl hlen⟩
    omega

/-- Bytes copied behind the window. -/
theorem window_splice {r : FramedReader} (h : Windowed r) (bs : List UInt8) (inner : BufReader) :
    window { r with inner := inner, buf := splice r.buf r.stop bs, stop := r.stop + bs.length } =
      window r ++ bs := by
  have hs := h.start_le
  have hb := h.stop_le
  simp only [window, splice]
  rw [List.append_assoc, List.drop_append_of_le_length (by rw [List.length_take]; omega),
    List.drop_take, ← List.append_assoc]
  rw [List.take_append_of_le_length
    (by simp only [List.length_append, List.length_take, List.length_drop]; omega)]
  exact List.take_of_length_le
    (by simp only [List.length_append, List.length_take, List.length_drop]; omega)

/-- Filling moves bytes into the window, unless there are none left. -/
theorem fill_spec {r : FramedReader} (h : Ready r) :
    (r.inner.unread = [] ∧ ∃ r', r.fill = (some true, r')) ∨
      ∃ bs r', r.fill = (some false, r') ∧ bs ≠ [] ∧ r.inner.unread = bs ++ r'.inner.unread ∧
        window r' = window r ++ bs ∧ Ready r' := by
  obtain ⟨hroom, hwin, hinner, hfree, -⟩ := makeRoom_spec h.windowed
  obtain ⟨bs, inner, hread, hunread, hlen, hne, hrel⟩ :=
    BufReader.read_spec (hinner ▸ h.reliable) (r.makeRoom.buf.length - r.makeRoom.stop)
  rw [hinner] at hunread hne
  cases bs with
  | nil =>
    left
    refine ⟨?_, _, by rw [fill, hread]⟩
    by_contra hleft
    exact hne (by omega) hleft rfl
  | cons b bs =>
    right
    refine ⟨b :: bs, _, by rw [fill, hread], by simp, hunread, ?_, ?_⟩
    · rw [window_splice hroom, hwin]
    · have := hroom.start_le
      refine ⟨?_, ?_, ?_, hrel⟩
      · show r.makeRoom.start ≤ r.makeRoom.stop + (b :: bs).length
        omega
      · simp only [splice, List.length_append, List.length_take, List.length_drop]
        omega
      · simp only [splice, List.length_append, List.length_take, List.length_drop]
        omega

/-! ## Items -/

/-- A codec whose items' bytes delimit themselves: an item is decoded from its
bytes, whatever follows, and more bytes are asked for as long as they are not
all there. -/
structure Delimits {I : Type} (codec : SpecCodec I) (enc : I → List UInt8) (P : I → Prop) :
    Prop where
  whole : ∀ {i}, P i → ∀ rest, codec.decode (enc i ++ rest) = .ok (some (i, (enc i).length))
  short : ∀ {i}, P i → ∀ {bs}, bs <+: enc i → bs ≠ enc i → codec.decode bs = .ok none
  empty : codec.decode [] = .ok none

variable {I : Type} {codec : SpecCodec I} {enc : I → List UInt8} {P : I → Prop}

theorem nextLoop_decoded {r : FramedReader} (h : Windowed r) {i : I} {n : Nat}
    (hd : codec.decode (window r) = .ok (some (i, n))) (rounds : Nat) :
    nextLoop codec (rounds + 1) r = some (some (.ok i), { r with start := r.start + n }) := by
  rw [nextLoop, h.slice]
  simp only [Option.bind_eq_bind, Option.bind_some, hd]
  rfl

theorem nextLoop_failed {r : FramedReader} (h : Windowed r) {e : CodecError}
    (hd : codec.decode (window r) = .error e) (rounds : Nat) :
    nextLoop codec (rounds + 1) r = some (some (.error e), r) := by
  rw [nextLoop, h.slice]
  simp only [Option.bind_eq_bind, Option.bind_some, hd]
  rfl

theorem nextLoop_filled {r r' : FramedReader} (h : Windowed r)
    (hd : codec.decode (window r) = .ok none) (hf : r.fill = (some false, r')) (rounds : Nat) :
    nextLoop codec (rounds + 1) r = nextLoop codec rounds r' := by
  rw [nextLoop, h.slice]
  simp only [Option.bind_eq_bind, Option.bind_some, hd, hf]

theorem nextLoop_ended {r r' : FramedReader} (h : Windowed r)
    (hd : codec.decode (window r) = .ok none) (hf : r.fill = (some true, r')) (rounds : Nat) :
    nextLoop codec (rounds + 1) r = some (none, r') := by
  rw [nextLoop, h.slice]
  simp only [Option.bind_eq_bind, Option.bind_some, hd, hf]
  rfl

/-- An item at the front of the window is taken off. -/
theorem window_taken {r : FramedReader} (h : Windowed r) {bs rest : List UInt8}
    (hw : window r = bs ++ rest) :
    window { r with start := r.start + bs.length } = rest ∧
      Windowed { r with start := r.start + bs.length } := by
  have hlen := h.length_window
  rw [hw, List.length_append] at hlen
  have hs := h.start_le
  refine ⟨?_, ?_, h.stop_le, h.buf_pos⟩
  · have hdrop := congrArg (List.drop bs.length) hw
    rw [List.drop_left, window, List.drop_take, List.drop_drop] at hdrop
    rw [← hdrop, window]
    simp only
    congr 1
    omega
  · show r.start + bs.length ≤ r.stop
    omega

/-- The next item of the log, after as many reads as it takes. -/
theorem next_item (hc : Delimits codec enc P) {i : I} (hi : P i) {rest : List UInt8} {rounds : Nat}
    {r : FramedReader} (h : Ready r) (hleft : left r = enc i ++ rest)
    (hrounds : r.inner.unread.length < rounds) :
    ∃ r', nextLoop codec rounds r = some (some (.ok i), r') ∧ Ready r' ∧ left r' = rest := by
  induction rounds generalizing r with
  | zero => omega
  | succ rounds ih =>
    by_cases hwhole : enc i <+: window r
    · obtain ⟨more, hmore⟩ := hwhole
      have hdec := hc.whole hi more
      rw [hmore] at hdec
      obtain ⟨hwin, hrest⟩ := window_taken h.windowed hmore.symm
      refine ⟨_, nextLoop_decoded h.windowed hdec rounds, hrest.ready h.reliable, ?_⟩
      rw [left, hwin]
      rw [left, ← hmore, List.append_assoc] at hleft
      exact List.append_cancel_left hleft
    · -- The window is a part of the item, so there is more to read.
      have hpart : window r <+: enc i := (List.prefix_or_prefix_of_prefix ⟨_, hleft⟩
        (List.prefix_append (enc i) rest)).resolve_right hwhole
      have hne : window r ≠ enc i := fun he => hwhole (he ▸ List.prefix_refl _)
      have hdec := hc.short hi hpart hne
      rcases fill_spec h with ⟨hnil, -⟩ | ⟨bs, r', hfill, hbs, hunread, hwin, hready⟩
      · rw [left, hnil, List.append_nil] at hleft
        exact absurd ⟨rest, hleft.symm⟩ hwhole
      · rw [nextLoop_filled h.windowed hdec hfill]
        have hlen := congrArg List.length hunread
        have hpos := List.length_pos_iff.mpr hbs
        rw [List.length_append] at hlen
        refine ih hready ?_ (by omega)
        rw [left, hwin, List.append_assoc, ← hunread]
        exact hleft

/-- The bytes that a cut leaves of an item: none, or not all of them. -/
def Torn (enc : I → List UInt8) (P : I → Prop) (bs : List UInt8) : Prop :=
  bs = [] ∨ ∃ i, P i ∧ bs <+: enc i ∧ bs ≠ enc i

theorem Delimits.torn (hc : Delimits codec enc P) {bs pre : List UInt8} (h : Torn enc P bs)
    (hpre : pre <+: bs) : codec.decode pre = .ok none := by
  rcases h with rfl | ⟨i, hi, hbs, hne⟩
  · rw [List.prefix_nil.mp hpre]
    exact hc.empty
  · refine hc.short hi (hpre.trans hbs) ?_
    rintro rfl
    exact hne (hbs.eq_of_length_le hpre.length_le)

/-- The end of the log, where it may be cut inside an item. -/
theorem next_end (hc : Delimits codec enc P) {rounds : Nat} {r : FramedReader} (h : Ready r)
    (htorn : Torn enc P (left r)) (hrounds : r.inner.unread.length < rounds) :
    ∃ r', nextLoop codec rounds r = some (none, r') := by
  induction rounds generalizing r with
  | zero => omega
  | succ rounds ih =>
    have hdec := hc.torn htorn (List.prefix_append (window r) _)
    rcases fill_spec h with ⟨-, r', hfill⟩ | ⟨bs, r', hfill, hbs, hunread, hwin, hready⟩
    · exact ⟨r', nextLoop_ended h.windowed hdec hfill rounds⟩
    · rw [nextLoop_filled h.windowed hdec hfill]
      have hlen := congrArg List.length hunread
      have hpos := List.length_pos_iff.mpr hbs
      rw [List.length_append] at hlen
      have hsame : left r' = left r := by rw [left, left, hwin, hunread, List.append_assoc]
      exact ih hready (hsame ▸ htorn) (by omega)

/-- The items of a log, then its end, however the log is read. -/
theorem drains_items (hc : Delimits codec enc P) {items : List I} (hi : ∀ i ∈ items, P i)
    {tail : List UInt8} (htail : Torn enc P tail) {r : FramedReader} (h : Ready r)
    (hleft : left r = items.flatMap enc ++ tail) : Drains (next codec) r (items.map .ok) := by
  induction items generalizing r with
  | nil =>
    obtain ⟨r', hr⟩ := next_end hc h (by rw [hleft]; exact htail) (Nat.lt_succ_self _)
    exact .done hr
  | cons i items ih =>
    obtain ⟨hi, hrest⟩ := List.forall_mem_cons.mp hi
    rw [List.flatMap_cons, List.append_assoc] at hleft
    obtain ⟨r', hr, hready, hleft⟩ := next_item hc hi h hleft (Nat.lt_succ_self _)
    exact .step hr (ih hrest hready hleft)

theorem wholeItems_sublist (len : I → Nat) (n : Nat) (items : List I) :
    (wholeItems len n items).Sublist items := by
  induction items generalizing n with
  | nil => exact .slnil
  | cons i items ih =>
    rw [wholeItems]
    split
    · exact (ih _).cons_cons i
    · exact List.nil_sublist _

/-- A log that is cut after `n` bytes: its whole items, and a part of one. -/
theorem take_flatMap_enc (enc : I → List UInt8) {items : List I} (hi : ∀ i ∈ items, P i) (n : Nat) :
    ∃ tail, Torn enc P tail ∧ (items.flatMap enc).take n =
      (wholeItems (fun i => (enc i).length) n items).flatMap enc ++ tail := by
  induction items generalizing n with
  | nil => exact ⟨[], .inl rfl, by simp [wholeItems]⟩
  | cons i items ih =>
    obtain ⟨hi, hrest⟩ := List.forall_mem_cons.mp hi
    rw [wholeItems, List.flatMap_cons]
    split
    · rename_i hle
      obtain ⟨tail, htorn, htail⟩ := ih hrest (n - (enc i).length)
      refine ⟨tail, htorn, ?_⟩
      rw [List.take_append, List.take_of_length_le hle, htail, List.flatMap_cons, List.append_assoc]
    · rename_i hlt
      have hlt := not_le.mp hlt
      refine ⟨(enc i).take n, .inr ⟨i, hi, List.take_prefix _ _, ?_⟩, ?_⟩
      · intro he
        have := congrArg List.length he
        rw [List.length_take] at this
        omega
      · rw [List.take_append_of_le_length hlt.le]
        rfl

/-! ## Writing -/

/-- What an encoder leaves of a buffer of the item's length. -/
theorem writeAll_eq (codec : SpecCodec I) (hwrite : ∀ i, P i →
      codec.encode i (List.replicate (codec.wireLen i) 0) = (.ok (codec.wireLen i), enc i))
    {items : List I} (hi : ∀ i ∈ items, P i) (w : FramedWriter) :
    ∃ n, FramedWriter.writeAll codec items w =
      (.ok (), { inner := w.inner ++ items.flatMap enc, bytesWritten := n }) := by
  induction items generalizing w with
  | nil => exact ⟨w.bytesWritten, by simp [FramedWriter.writeAll]; rfl⟩
  | cons i items ih =>
    obtain ⟨hi, hrest⟩ := List.forall_mem_cons.mp hi
    have hone : FramedWriter.write codec i w = (.ok (),
        { inner := w.inner ++ enc i, bytesWritten := w.bytesWritten + codec.wireLen i }) := by
      rw [FramedWriter.write, hwrite i hi]
      rfl
    obtain ⟨n, hn⟩ := ih hrest { inner := w.inner ++ enc i, bytesWritten := w.bytesWritten + codec.wireLen i }
    refine ⟨n, ?_⟩
    rw [FramedWriter.writeAll, Action.bind_of_ok hone, hn, List.flatMap_cons, List.append_assoc]

/-! ## Records -/

theorem recordCodec_delimits : Delimits recordCodec wire Encodable where
  whole := fun hr rest => by
    rw [length_wire]
    exact decodeRecord_wire hr rest
  short := fun hr _ hpre hne => decodeRecord_short hr hpre hne
  empty := rfl

/-- A framed log of records, cut anywhere and read in any pieces: writing
succeeds, and reading yields the records that lie wholly inside the cut, then
its end. -/
theorem framed_records_any_chunking {recs : List Record}
    (hr : ∀ r ∈ recs, 2 ≤ r.payload.length ∧ r.payload.length ≤ 4096) :
    ∃ w, FramedWriter.writeAll recordCodec recs .new = (.ok (), w) ∧
      ∀ (n : Nat) (gives : List Nat),
        Drains (next recordCodec) (.new { rest := w.inner.take n, gives := gives.map some })
          ((wholeItems Record.wireLen n recs).map .ok) := by
  have hwrite : ∀ r, Encodable r → recordCodec.encode r (List.replicate (recordCodec.wireLen r) 0) =
      (.ok (recordCodec.wireLen r), wire r) := fun _ hr => encodeRecord_exact hr
  obtain ⟨n, hw⟩ := writeAll_eq recordCodec hwrite hr .new
  refine ⟨_, hw, fun n gives => ?_⟩
  obtain ⟨tail, htorn, htail⟩ := take_flatMap_enc wire hr n
  simp only [length_wire] at htail
  exact drains_items recordCodec_delimits (fun r hmem => hr r ((wholeItems_sublist _ _ _).subset hmem))
    htorn (ready_new (ByteSource.reliable_map_some _ _)) htail

/-- Two records, cut inside the second and read in pieces of one, seven and
more bytes. -/
theorem framed_records_any_chunking_two :
    ∃ w, FramedWriter.writeAll recordCodec
        [⟨⟨1, 2, 3, 4⟩, [65, 66]⟩, ⟨⟨1, 2, 4, 4⟩, [67, 68, 69]⟩] .new = (.ok (), w) ∧
      Drains (next recordCodec) (.new { rest := w.inner.take 50, gives := [some 0, some 6] })
        [.ok ⟨⟨1, 2, 3, 4⟩, [65, 66]⟩] := by
  have hr : ∀ r ∈ [(⟨⟨1, 2, 3, 4⟩, [65, 66]⟩ : Record), ⟨⟨1, 2, 4, 4⟩, [67, 68, 69]⟩],
      2 ≤ r.payload.length ∧ r.payload.length ≤ 4096 := by decide
  obtain ⟨w, hw, h⟩ := framed_records_any_chunking hr
  exact ⟨w, hw, h 50 [0, 6]⟩

end LG.Proof.Tsdb
