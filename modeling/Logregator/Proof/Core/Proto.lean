import Logregator.Proof.Core.Record
import Logregator.Spec.Core.Proto

/-!
# The wire protocol

Every message is decoded from its frame, whatever follows it, so that a stream
of messages arrives as it was sent (`streams_round_trip`). On bytes from
anywhere, decoding panics just where a frame is `Overlong` (`decode_total_iff`).
-/

namespace LG.Proof.Core.Proto

open LG.Impl.Core (u32At u64At i64Bytes u64Bytes)
open LG.Impl.Core.Proto LG.Spec.Core.Proto

variable {α β : Type} {buf post : List UInt8} {off : Nat} {context lenContext : String}

/-! ## Reading what was written -/

theorem le_length {bs : List UInt8} (h : buf.drop off = bs ++ post) (hpos : 0 < bs.length) :
    off + bs.length ≤ buf.length := by
  have hlen := congrArg List.length h
  rw [List.length_drop, List.length_append] at hlen
  omega

theorem drop_eq {bs : List UInt8} (h : buf.drop off = bs ++ post) {next : Nat}
    (hnext : next = off + bs.length) : buf.drop next = post := by
  rw [hnext, ← List.drop_drop, h, List.drop_left' rfl]

/-- A number that is there is read. -/
theorem array8_bind {x : UInt64} (h : buf.drop off = u64Bytes x ++ post)
    (f : UInt64 → Outcome DecodeError α) : (array8 buf off context >>= f) = f x := by
  have hlen := le_length h (by simp [u64Bytes])
  rw [Core.length_u64Bytes] at hlen
  have hx : u64At buf off = x := by
    rw [u64At, h, List.take_left' (Core.length_u64Bytes x), u64Bytes, ofBe_beBytes_of_lt x.toNat_lt,
      UInt64.ofNat_toNat]
  rw [array8, if_pos hlen, hx, Outcome.bind_ok]

theorem array4_eq {n : Nat} (hn : n < 2 ^ 32) (h : buf.drop off = beBytes 4 n ++ post) :
    array4 buf off context = .ok n := by
  have hlen := le_length h (by simp)
  rw [length_beBytes] at hlen
  rw [array4, if_pos hlen, u32At, h, List.take_left' (length_beBytes 4 n), ofBe_beBytes_of_lt hn]

theorem fromUtf8_eq {s : Str} (hle : off ≤ buf.length) (h : buf.drop off = s.bytes ++ post) :
    fromUtf8 buf off (off + s.len) context = .ok s := by
  have hlen := congrArg List.length h
  rw [List.length_drop, List.length_append] at hlen
  have hslice : slice buf off (off + s.len) = some s.bytes := by
    rw [Str.len, slice, if_pos (by omega), h, Nat.add_sub_cancel_left, List.take_left' rfl]
  rw [fromUtf8, hslice]
  exact dif_pos s.valid

/-- A string that is there is read. -/
theorem str_bind {s : Str} (hs : s.len < 2 ^ 32) (h : buf.drop off = strBytes s ++ post) {lo : Nat}
    (hlo : lo = off + 4) (f : Nat → Str → Outcome DecodeError α) :
    (array4 buf off lenContext >>= fun len => fromUtf8 buf lo (lo + len) context >>= f len) =
      f s.len s := by
  rw [strBytes, List.append_assoc] at h
  have hlen := le_length h (by simp)
  rw [length_beBytes] at hlen
  have hstr : buf.drop lo = s.bytes ++ post := drop_eq h (by simp [hlo])
  rw [array4_eq hs h, Outcome.bind_ok, fromUtf8_eq (by omega) hstr, Outcome.bind_ok]

/-! ## Payloads -/

@[simp] theorem length_strBytes (s : Str) : (strBytes s).length = 4 + s.len := by
  simp [strBytes, Str.len]

theorem decodeInsert_bytes (i : Insert) (hkey : i.key.len < 2 ^ 32) (hvalue : i.value.len < 2 ^ 32) :
    decodeInsert (insertBytes i) = .ok i := by
  have h₀ : (insertBytes i).drop 0 = u64Bytes i.sourceId.toUInt64 ++ (u64Bytes i.ts.toUInt64 ++
      (strBytes i.key ++ (strBytes i.value ++ []))) := by
    simp [insertBytes, i64Bytes, u64Bytes]
  have h₁ : (insertBytes i).drop 8 = _ := drop_eq h₀ (by simp)
  have h₂ : (insertBytes i).drop 16 = _ := drop_eq h₁ (by simp)
  have h₃ : (insertBytes i).drop (20 + i.key.len) = _ := drop_eq h₂ (by simp; omega)
  rw [decodeInsert, array8_bind h₀, array8_bind h₁, str_bind hkey h₂ rfl, str_bind hvalue h₃ (by omega)]
  simp

theorem decodeRange_bytes (r : Range) (hkey : r.key.len < 2 ^ 32) (hfilter : r.filter.len < 2 ^ 32) :
    decodeRange (i64Bytes r.sourceId ++ strBytes r.key ++ i64Bytes r.startTs ++ i64Bytes r.endTs ++
      strBytes r.filter) = .ok r := by
  generalize hbuf : i64Bytes r.sourceId ++ strBytes r.key ++ i64Bytes r.startTs ++ i64Bytes r.endTs ++
    strBytes r.filter = buf
  have h₀ : buf.drop 0 = u64Bytes r.sourceId.toUInt64 ++ (strBytes r.key ++
      (u64Bytes r.startTs.toUInt64 ++ (u64Bytes r.endTs.toUInt64 ++ (strBytes r.filter ++ [])))) := by
    simp [← hbuf, i64Bytes, u64Bytes]
  have h₁ : buf.drop 8 = _ := drop_eq h₀ (by simp)
  have h₂ : buf.drop (12 + r.key.len) = _ := drop_eq h₁ (by simp; omega)
  have h₃ : buf.drop (20 + r.key.len) = _ := drop_eq h₂ (by simp; omega)
  have h₄ : buf.drop (28 + r.key.len) = _ := drop_eq h₃ (by simp; omega)
  rw [decodeRange, array8_bind h₀, str_bind hkey h₁ rfl, array8_bind h₂, array8_bind h₃,
    str_bind hfilter h₄ (by omega)]
  simp

theorem decodeRecords_bytes : ∀ {records : List Insert} {buf : List UInt8} {off : Nat},
    (∀ i ∈ records, i.key.len < 2 ^ 32 ∧ i.value.len < 2 ^ 32) →
    buf.drop off = records.flatMap insertBytes → decodeRecords buf records.length off = .ok records
  | [], _, _, _, _ => rfl
  | i :: records, buf, off, hs, h => by
    obtain ⟨⟨hkey, hvalue⟩, hs⟩ := List.forall_mem_cons.mp hs
    have h₀ : buf.drop off = u64Bytes i.sourceId.toUInt64 ++ (u64Bytes i.ts.toUInt64 ++
        (strBytes i.key ++ (strBytes i.value ++ records.flatMap insertBytes))) := by
      rw [h, List.flatMap_cons]
      simp [insertBytes, i64Bytes, u64Bytes]
    have h₁ : buf.drop (off + 8) = _ := drop_eq h₀ (by simp)
    have h₂ : buf.drop (off + 8 + 8) = _ := drop_eq h₁ (by simp)
    have h₃ : buf.drop (off + 8 + 8 + 4 + i.key.len) = _ := drop_eq h₂ (by simp; omega)
    have h₄ : buf.drop (off + 8 + 8 + 4 + i.key.len + 4 + i.value.len) = _ :=
      drop_eq h₃ (by simp; omega)
    rw [List.length_cons, decodeRecords, array8_bind h₀]
    simp only
    rw [array8_bind h₁, str_bind hkey h₂ rfl, str_bind hvalue h₃ rfl, decodeRecords_bytes hs h₄]
    simp

theorem decodeServerRangeRecord_bytes (rec : Record) (hkey : rec.key.len < 2 ^ 32)
    (hvalue : rec.value.len < 2 ^ 32) : decodeServerRangeRecord (encodeRecord rec) = .ok rec := by
  have h₀ : (encodeRecord rec).drop 0 = u64Bytes rec.sourceId.toUInt64 ++
      (u64Bytes rec.ts.toUInt64 ++ (u64Bytes rec.seq ++ (strBytes rec.key ++
        (strBytes rec.value ++ [])))) := by
    simp [encodeRecord, i64Bytes, u64Bytes]
  have h₁ : (encodeRecord rec).drop 8 = _ := drop_eq h₀ (by simp)
  have h₂ : (encodeRecord rec).drop 16 = _ := drop_eq h₁ (by simp)
  have h₃ : (encodeRecord rec).drop 24 = _ := drop_eq h₂ (by simp)
  have h₄ : (encodeRecord rec).drop (28 + rec.key.len) = _ := drop_eq h₃ (by simp; omega)
  rw [decodeServerRangeRecord, array8_bind h₀, array8_bind h₁, array8_bind h₂, str_bind hkey h₃ rfl,
    str_bind hvalue h₄ (by omega)]
  simp

theorem decodeStr_bytes {s : Str} (hs : s.len < 2 ^ 32) :
    decodeStr (strBytes s) lenContext context = .ok s := by
  have h : (strBytes s).drop 0 = beBytes 4 s.len ++ s.bytes := rfl
  have hstr : (strBytes s).drop 4 = s.bytes := drop_eq h (by simp)
  rw [decodeStr, array4_eq hs h, Outcome.bind_ok]
  exact fromUtf8_eq (by simp) (hstr.trans (List.append_nil _).symm)

/-! ## Frames -/

theorem encodeFrame_eq (dst body : List UInt8) :
    encodeFrame dst body = dst ++ (beBytes 4 body.length ++ body) := by
  have hlen : (dst ++ beBytes 4 0 ++ body).length - dst.length - 4 = body.length := by
    simp only [List.length_append, length_beBytes]
    omega
  rw [encodeFrame, hlen, List.append_assoc, splice_append _ _ _ rfl, length_beBytes,
    List.drop_left' (length_beBytes 4 0)]

theorem writeRecordFrame_eq (buf : List UInt8) (rec : Record) :
    writeRecordFrame buf rec = ServerCodec.encode buf (.rangeRecord rec) := by
  simp [writeRecordFrame, ServerCodec.encode, ServerCodec.body, encodeFrame, encodeRecord, strBytes]

section

variable {decodeMessage : UInt8 → List UInt8 → Outcome DecodeError α} {src : List UInt8}

theorem decodeFrame_incomplete (h : ¬ Complete src) :
    decodeFrame decodeMessage src = (.ok none, src) := by
  rw [Complete, Decidable.not_and_iff_or_not, not_le, not_le] at h
  rw [decodeFrame]
  split
  · rfl
  · exact if_pos (h.resolve_left ‹_›)

theorem decodeFrame_nil (h : Complete src) (hbody : frameBody src = []) :
    decodeFrame decodeMessage src = (.panic, src.drop (4 + u32At src 0)) := by
  rw [frameBody] at hbody
  rw [decodeFrame, if_neg (not_lt.mpr h.1)]
  simp only
  rw [if_neg (not_lt.mpr h.2), hbody]

theorem decodeFrame_cons (h : Complete src) {t : UInt8} {payload : List UInt8}
    (hbody : frameBody src = t :: payload) : decodeFrame decodeMessage src =
      (some <$> decodeMessage t payload, src.drop (4 + u32At src 0)) := by
  rw [frameBody] at hbody
  rw [decodeFrame, if_neg (not_lt.mpr h.1)]
  simp only
  rw [if_neg (not_lt.mpr h.2), hbody]

/-- Frames of bodies that are decoded can be told apart in a stream. -/
theorem delimits_frames {body : α → List UInt8} (h : ∀ a, (body a).length < 2 ^ 32 →
      ∃ t payload, body a = t :: payload ∧ decodeMessage t payload = .ok a) :
    Delimits (decodeFrame decodeMessage) (fun a => beBytes 4 (body a).length ++ body a)
      fun a => (body a).length < 2 ^ 32 where
  empty := rfl
  whole a ha rest := by
    obtain ⟨t, payload, hbody, hdecode⟩ := h a ha
    generalize hsrc : beBytes 4 (body a).length ++ body a ++ rest = src
    have hlen : src.length = 4 + (body a).length + rest.length := by
      simp only [← hsrc, List.length_append, length_beBytes]
    have hframeLen : u32At src 0 = (body a).length := by
      rw [← hsrc, u32At, List.drop_zero, List.append_assoc, List.take_left' (length_beBytes 4 _),
        ofBe_beBytes_of_lt ha]
    have hframe : frameBody src = t :: payload := by
      rw [frameBody, hframeLen, ← hsrc, List.take_left' (by simp),
        List.drop_left' (length_beBytes 4 _), hbody]
    rw [decodeFrame_cons ⟨by omega, by omega⟩ hframe, hdecode, hframeLen, ← hsrc,
      List.drop_left' (by simp)]
    rfl
  part a ha buf more heq hmore := by
    have hlen := congrArg List.length heq
    have hpos := List.length_pos_iff.mpr hmore
    simp only [List.length_append, length_beBytes] at hlen
    refine decodeFrame_incomplete fun hc => ?_
    have htake : (buf ++ more).take 4 = buf.take 4 := List.take_append_of_le_length hc.1
    have hframeLen : u32At buf 0 = (body a).length := by
      rw [u32At, List.drop_zero, ← htake, ← heq, List.take_left' (length_beBytes 4 _),
        ofBe_beBytes_of_lt ha]
    have hle := hc.2
    omega

end

/-! ## Streams -/

theorem length_insertBytes (i : Insert) :
    (insertBytes i).length = 24 + i.key.len + i.value.len := by
  simp only [insertBytes, List.length_append, Core.length_i64Bytes, length_strBytes]
  omega

/-- A batch is longer than the number of its records and the strings in it. -/
theorem length_records : ∀ records : List Insert,
    records.length ≤ (records.flatMap insertBytes).length ∧
      ∀ i ∈ records, i.key.len + i.value.len ≤ (records.flatMap insertBytes).length
  | [] => by simp
  | i :: records => by
    obtain ⟨hcount, hstrs⟩ := length_records records
    rw [List.flatMap_cons, List.length_append, length_insertBytes, List.length_cons]
    refine ⟨by omega, List.forall_mem_cons.mpr ⟨by omega, fun i' hi' => ?_⟩⟩
    have := hstrs i' hi'
    omega

theorem decode_clientBody (m : ClientMessage) (h : (ClientCodec.body m).length < 2 ^ 32) :
    ∃ t payload, ClientCodec.body m = t :: payload ∧ ServerCodec.decodeMessage t payload = .ok m := by
  cases m with
  | insert i =>
    rw [ClientCodec.body, List.length_cons, length_insertBytes] at h
    refine ⟨_, _, rfl, ?_⟩
    show ClientMessage.insert <$> decodeInsert (insertBytes i) = _
    rw [decodeInsert_bytes i (by omega) (by omega)]
    rfl
  | range r =>
    simp only [ClientCodec.body, List.length_cons, List.length_append, length_strBytes] at h
    refine ⟨_, _, rfl, ?_⟩
    show ClientMessage.range <$> decodeRange _ = _
    rw [decodeRange_bytes r (by omega) (by omega)]
    rfl
  | batchInsert records =>
    simp only [ClientCodec.body, List.length_cons, List.length_append] at h
    obtain ⟨hcount, hstrs⟩ := length_records records
    refine ⟨_, _, rfl, ?_⟩
    show ClientMessage.batchInsert <$> decodeBatchInsert _ = _
    have h₀ : (beBytes 4 records.length ++ records.flatMap insertBytes).drop 0 =
        beBytes 4 records.length ++ records.flatMap insertBytes := List.drop_zero
    rw [decodeBatchInsert, array4_eq (by omega) h₀, Outcome.bind_ok, decodeRecords_bytes]
    · rfl
    · intro i hi
      have := hstrs i hi
      omega
    · exact drop_eq h₀ (by simp)
  | metrics => exact ⟨_, _, rfl, rfl⟩
  | ping => exact ⟨_, _, rfl, rfl⟩

theorem decode_serverBody (m : ServerMessage) (h : (ServerCodec.body m).length < 2 ^ 32) :
    ∃ t payload, ServerCodec.body m = t :: payload ∧ ClientCodec.decodeMessage t payload = .ok m := by
  cases m with
  | insertOk => exact ⟨_, _, rfl, rfl⟩
  | rangeRecord rec =>
    simp only [ServerCodec.body, encodeRecord, List.length_cons, List.length_append,
      length_strBytes] at h
    refine ⟨_, _, rfl, ?_⟩
    show ServerMessage.rangeRecord <$> decodeServerRangeRecord (encodeRecord rec) = _
    rw [decodeServerRangeRecord_bytes rec (by omega) (by omega)]
    rfl
  | rangeEnd => exact ⟨_, _, rfl, rfl⟩
  | metrics json =>
    rw [ServerCodec.body, List.length_cons, length_strBytes] at h
    refine ⟨_, _, rfl, ?_⟩
    show ServerMessage.metrics <$> decodeStr (strBytes json) _ _ = _
    rw [decodeStr_bytes (by omega)]
    rfl
  | pong => exact ⟨_, _, rfl, rfl⟩
  | error err =>
    rw [ServerCodec.body, List.length_cons, length_strBytes] at h
    refine ⟨_, _, rfl, ?_⟩
    show ServerMessage.error <$> decodeStr (strBytes err) _ _ = _
    rw [decodeStr_bytes (by omega)]
    rfl

/-- Frames written one after the other. -/
theorem foldl_frames {run : List UInt8 → β → List UInt8} {body : β → List UInt8}
    (h : ∀ dst b, run dst b = encodeFrame dst (body b)) : ∀ (bs : List β) (dst : List UInt8),
    bs.foldl run dst = dst ++ bs.flatMap fun b => beBytes 4 (body b).length ++ body b
  | [], dst => (List.append_nil dst).symm
  | b :: bs, dst => by
    rw [List.foldl_cons, foldl_frames h bs, h, encodeFrame_eq, List.append_assoc, List.flatMap_cons]

theorem ServerWrite.run_eq (dst : List UInt8) (w : ServerWrite) :
    ServerWrite.run dst w = encodeFrame dst (ServerCodec.body w.message) := by
  cases w with
  | encode msg => rfl
  | recordFrame rec => exact writeRecordFrame_eq dst rec

/-- A stream of frames shorter than `2 ^ 32` bytes arrives as it was sent, in
both directions and however it is cut into chunks: all messages are decoded,
and no bytes are left. -/
theorem streams_round_trip :
    (∀ (msgs : List ClientMessage) (chunks : List (List UInt8)),
      (∀ m ∈ msgs, (ClientCodec.body m).length < 2 ^ 32) →
      chunks.flatten = msgs.foldl ClientCodec.encode [] →
      Receives ServerCodec.decode [] chunks msgs []) ∧
    ∀ (writes : List ServerWrite) (chunks : List (List UInt8)),
      (∀ w ∈ writes, (ServerCodec.body w.message).length < 2 ^ 32) →
      chunks.flatten = writes.foldl ServerWrite.run [] →
      Receives ClientCodec.decode [] chunks (writes.map ServerWrite.message) [] := by
  refine ⟨fun msgs chunks hfits heq => ?_, fun writes chunks hfits heq => ?_⟩
  · have hencode (dst : List UInt8) (m : ClientMessage) :
        ClientCodec.encode dst m = encodeFrame dst (ClientCodec.body m) := rfl
    rw [foldl_frames hencode, List.nil_append] at heq
    exact (delimits_frames decode_clientBody).receives hfits heq
  · rw [foldl_frames ServerWrite.run_eq, List.nil_append] at heq
    refine (delimits_frames decode_serverBody).receives (List.forall_mem_map.mpr hfits) ?_
    rw [heq, List.flatMap_map]

/-- A ping and an insert, cut in the middle of the ping's frame. -/
theorem streams_round_trip_ping :
    ∃ chunks, chunks.flatten = [ClientMessage.ping, .insert ⟨1, 2, ⟨[97], by decide⟩, ⟨[], by decide⟩⟩].foldl
        ClientCodec.encode [] ∧ chunks.length = 2 ∧
      Receives ServerCodec.decode [] chunks
        [.ping, .insert ⟨1, 2, ⟨[97], by decide⟩, ⟨[], by decide⟩⟩] [] := by
  refine ⟨[[0, 0, 0], [1, 5, 0, 0, 0, 26, 1, 0, 0, 0, 0, 0, 0, 0, 1, 0, 0, 0, 0, 0, 0, 0, 2, 0, 0, 0, 1,
    97, 0, 0, 0, 0]], by decide, rfl, streams_round_trip.1 _ _ (by decide) (by decide)⟩

/-! ## Bytes from anywhere -/

theorem map_eq_panic {f : α → β} {x : Outcome DecodeError α} :
    (f <$> x) = .panic ↔ x = .panic := by
  cases x with
  | ok a =>
    show Outcome.ok (f a) = .panic ↔ _
    simp
  | err e =>
    show Outcome.err e = .panic ↔ _
    simp
  | panic => exact iff_of_true rfl rfl

section

variable {fields : List Field}

/-- Reading a number does not panic; what comes after it may. -/
theorem num_panic (next : Nat) (hnext : next = off + 8) {f : UInt64 → Outcome DecodeError α}
    (hf : ∀ x, f x = .panic ↔ Overruns fields (buf.drop next)) :
    (array8 buf off context >>= f) = .panic ↔ Overruns (.num 8 :: fields) (buf.drop off) := by
  rw [array8, Overruns, List.drop_drop, ← hnext, List.length_drop]
  split
  · rw [Outcome.bind_ok, hf, iff_and_self]
    intro _
    omega
  · rw [Outcome.bind_err]
    exact iff_of_false (by simp) fun h => absurd h.1 (by omega)

theorem fromUtf8_panic {len : Nat} (hle : off ≤ buf.length) {f : Str → Outcome DecodeError α}
    (hf : ∀ s, f s = .panic ↔ Overruns fields (buf.drop (off + len))) :
    (fromUtf8 buf off (off + len) context >>= f) = .panic ↔ (buf.drop off).length < len ∨
      utf8 ((buf.drop off).take len) = true ∧ Overruns fields (buf.drop (off + len)) := by
  rw [fromUtf8, slice, List.length_drop]
  by_cases hfits : off + len ≤ buf.length
  · rw [if_pos ⟨Nat.le_add_right _ _, hfits⟩, Nat.add_sub_cancel_left, or_iff_right (by omega)]
    simp only
    split
    · rename_i hutf8
      rw [Outcome.bind_ok, hf, and_iff_right hutf8]
    · rename_i hutf8
      rw [Outcome.bind_err]
      exact iff_of_false (by simp) fun h => hutf8 h.1
  · rw [if_neg (by omega)]
    exact iff_of_true rfl (.inl (by omega))

/-- Reading a string panics where it is longer than what is left. -/
theorem str_panic {lo : Nat} (hlo : lo = off + 4) {f : Nat → Str → Outcome DecodeError α}
    (hf : ∀ len s, f len s = .panic ↔ Overruns fields (buf.drop (lo + len))) :
    (array4 buf off lenContext >>= fun len => fromUtf8 buf lo (lo + len) context >>= f len) = .panic ↔
      Overruns (.str :: fields) (buf.drop off) := by
  have hlen : u32At (buf.drop off) 0 = u32At buf off := by rw [u32At, u32At, List.drop_zero]
  rw [array4, Overruns, List.drop_drop, List.drop_drop, ← hlo, hlen, List.length_drop]
  split
  · rw [Outcome.bind_ok, fromUtf8_panic (by omega) (hf _), List.length_drop]
    refine (and_iff_right ?_).symm
    omega
  · rw [Outcome.bind_err]
    exact iff_of_false (by simp) fun h => absurd h.1 (by omega)

/-- At the end of the fields, nothing panics. -/
theorem pure_panic (a : α) (bs : List UInt8) :
    (pure a : Outcome DecodeError α) = .panic ↔ Overruns [] bs :=
  iff_of_false (by simp) id

end

theorem decodeInsert_panic (buf : List UInt8) :
    decodeInsert buf = .panic ↔ Overruns insertFields buf := by
  refine num_panic 8 rfl fun _ => num_panic 16 rfl fun _ => str_panic rfl fun keyLen _ => ?_
  exact str_panic (by omega) fun _ _ => pure_panic _ _

theorem decodeRange_panic (buf : List UInt8) :
    decodeRange buf = .panic ↔ Overruns [.num 8, .str, .num 8, .num 8, .str] buf := by
  refine num_panic 8 rfl fun _ => str_panic rfl fun keyLen _ => ?_
  refine num_panic (20 + keyLen) (by omega) fun _ => num_panic (28 + keyLen) (by omega) fun _ => ?_
  exact str_panic (by omega) fun _ _ => pure_panic _ _

theorem decodeRecords_panic (buf : List UInt8) : ∀ n off : Nat,
    decodeRecords buf n off = .panic ↔
      Overruns (List.replicate n insertFields).flatten (buf.drop off)
  | 0, off => pure_panic _ _
  | n + 1, off => by
    refine num_panic _ rfl fun _ => num_panic _ rfl fun _ => str_panic rfl fun _ _ => ?_
    exact str_panic rfl fun _ _ => map_eq_panic.trans (decodeRecords_panic buf n _)

theorem decodeBatchInsert_panic (buf : List UInt8) : decodeBatchInsert buf = .panic ↔
    Overruns (.num 4 :: (List.replicate (u32At buf 0) insertFields).flatten) buf := by
  rw [decodeBatchInsert, array4, Overruns]
  split
  · rw [Outcome.bind_ok, decodeRecords_panic, iff_and_self]
    intro _
    omega
  · rw [Outcome.bind_err]
    exact iff_of_false (by simp) fun h => absurd h.1 (by omega)

theorem decodeServerRangeRecord_panic (buf : List UInt8) : decodeServerRangeRecord buf = .panic ↔
    Overruns [.num 8, .num 8, .num 8, .str, .str] buf := by
  refine num_panic 8 rfl fun _ => num_panic 16 rfl fun _ => num_panic 24 rfl fun _ => ?_
  refine str_panic rfl fun keyLen _ => ?_
  exact str_panic (by omega) fun _ _ => pure_panic _ _

theorem decodeStr_panic (buf : List UInt8) :
    decodeStr buf lenContext context = .panic ↔ Overruns [.str] buf := by
  have h : decodeStr buf lenContext context =
      array4 buf 0 lenContext >>= fun len => fromUtf8 buf 4 (4 + len) context >>= pure := by
    simp only [decodeStr, Outcome.bind_pure]
  rw [h]
  exact str_panic rfl fun _ s => pure_panic s _

theorem clientMessage_panic (t : UInt8) (payload : List UInt8) :
    ServerCodec.decodeMessage t payload = .panic ↔ Overruns (clientFields t payload) payload := by
  unfold ServerCodec.decodeMessage clientFields
  split
  · exact map_eq_panic.trans (decodeInsert_panic payload)
  · exact map_eq_panic.trans (decodeRange_panic payload)
  · exact map_eq_panic.trans (decodeBatchInsert_panic payload)
  · exact iff_of_false (by simp) id
  · exact iff_of_false (by simp) id
  · refine iff_of_false (by simp) ?_
    split
    · contradiction
    · contradiction
    · contradiction
    · exact id

theorem serverMessage_panic (t : UInt8) (payload : List UInt8) :
    ClientCodec.decodeMessage t payload = .panic ↔ Overruns (serverFields t payload) payload := by
  unfold ClientCodec.decodeMessage serverFields
  split
  · exact iff_of_false (by simp) id
  · exact map_eq_panic.trans (decodeServerRangeRecord_panic payload)
  · exact iff_of_false (by simp) id
  · exact map_eq_panic.trans (decodeStr_panic payload)
  · exact iff_of_false (by simp) id
  · exact map_eq_panic.trans (decodeStr_panic payload)
  · refine iff_of_false (by simp) ?_
    split
    · contradiction
    · contradiction
    · contradiction
    · exact id

/-- Decoding a frame is total unless the frame is overlong. -/
theorem total_decodeFrame {decodeMessage : UInt8 → List UInt8 → Outcome DecodeError α}
    {fields : UInt8 → List UInt8 → List Field}
    (h : ∀ t payload, decodeMessage t payload = .panic ↔ Overruns (fields t payload) payload)
    (src : List UInt8) : Total (decodeFrame decodeMessage) src ↔ ¬ Overlong fields src := by
  by_cases hc : Complete src
  · cases hbody : frameBody src with
    | nil =>
      refine iff_of_false (fun ht => ht.returns ?_) (not_not_intro ⟨hc, .inl hbody⟩)
      rw [decodeFrame_nil hc hbody]
    | cons t payload =>
      have hdecode : decodeFrame decodeMessage src = _ := decodeFrame_cons hc hbody
      have hlong : Overlong fields src ↔ decodeMessage t payload = .panic := by
        rw [h, Overlong, hbody]
        simp [hc]
      rw [hlong]
      constructor
      · intro ht hpanic
        refine ht.returns ?_
        rw [hdecode]
        exact map_eq_panic.mpr hpanic
      · refine fun hpanic => ⟨?_, fun _ => ?_⟩
        · rw [hdecode]
          exact fun hmap => hpanic (map_eq_panic.mp hmap)
        · rw [hdecode]
  · have hdecode : decodeFrame decodeMessage src = _ := decodeFrame_incomplete hc
    refine iff_of_true ⟨?_, fun hc' => absurd hc' hc⟩ fun hlong => hc hlong.1
    rw [hdecode]
    simp

/-- On every buffer, decoding does not panic, and takes a complete frame off,
if and only if the frame has a type and no string of it is longer than what is
left of the frame. -/
theorem decode_total_iff (src : List UInt8) :
    (Total ServerCodec.decode src ↔ ¬ Overlong clientFields src) ∧
      (Total ClientCodec.decode src ↔ ¬ Overlong serverFields src) :=
  ⟨total_decodeFrame clientMessage_panic src, total_decodeFrame serverMessage_panic src⟩

/-- A frame without a type, and one with a key that is longer than the frame. -/
theorem decode_panics :
    (ServerCodec.decode [0, 0, 0, 0]).1 = .panic ∧ (ClientCodec.decode [0, 0, 0, 0]).1 = .panic ∧
      (ServerCodec.decode [0, 0, 0, 13, 2, 0, 0, 0, 0, 0, 0, 0, 1, 0, 0, 0, 9]).1 = .panic := by
  decide

end LG.Proof.Core.Proto
