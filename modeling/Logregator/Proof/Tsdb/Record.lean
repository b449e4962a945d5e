import Logregator.Impl.Tsdb.Record

/-!
# The record codec: what it writes, what it reads back

The bytes of a record (`wire`) are its key, its payload's length and its
payload. Encoding a record with an admissible payload into a buffer that is
long enough writes them and leaves the rest of the buffer (`encodeRecord_ok`);
any other payload is refused, with the key already in the buffer
(`encodeRecord_refused`). Decoding reads the record back from its bytes,
whatever follows them (`decodeRecord_wire`). Of any bytes it reads a record, if
they start with the bytes of one, refuses them, if they start with a length
that no record has, or asks for more (`Decoded`).
-/

namespace LG.Proof.Tsdb

open LG.Impl.Tsdb

/-! ## Keys -/

@[simp] theorem length_toBeBytes (k : Key) : k.toBeBytes.length = keySize := by
  simp [Key.toBeBytes, keySize]

theorem u64_pow : (256 : Nat) ^ 8 = 2 ^ 64 := by decide

theorem u64_ofBe_beBytes (x : UInt64) : UInt64.ofNat (ofBe (beBytes 8 x.toNat)) = x := by
  rw [ofBe_beBytes_of_lt (by rw [u64_pow]; exact x.toNat_lt), UInt64.ofNat_toNat]

/-- A `u64` read where its bytes stand. -/
theorem u64At_append (as bs : List UInt8) (x : UInt64) {i : Nat} (hi : as.length = i) :
    u64At (as ++ (beBytes 8 x.toNat ++ bs)) i = x := by
  subst hi
  rw [u64At, List.drop_left, List.take_left' (length_beBytes 8 _), u64_ofBe_beBytes]

theorem fromBeBytes_toBeBytes (k : Key) (bs : List UInt8) :
    Key.fromBeBytes (k.toBeBytes ++ bs) = .ok k := by
  rw [Key.fromBeBytes, if_neg (by simp)]
  have h0 := u64At_append [] (beBytes 8 k.timestamp.toNat ++ (beBytes 8 k.sequenceNum.toNat ++
    (beBytes 8 k.streamId.toNat ++ bs))) k.sourceId (i := 0) rfl
  have h8 := u64At_append (beBytes 8 k.sourceId.toNat) (beBytes 8 k.sequenceNum.toNat ++
    (beBytes 8 k.streamId.toNat ++ bs)) k.timestamp (length_beBytes 8 _)
  have h16 := u64At_append (beBytes 8 k.sourceId.toNat ++ beBytes 8 k.timestamp.toNat)
    (beBytes 8 k.streamId.toNat ++ bs) k.sequenceNum (i := 16) (by simp)
  have h24 := u64At_append (beBytes 8 k.sourceId.toNat ++ beBytes 8 k.timestamp.toNat ++
    beBytes 8 k.sequenceNum.toNat) bs k.streamId (i := 24) (by simp)
  simp only [List.append_assoc, List.nil_append] at h0 h8 h16 h24
  simp only [Key.toBeBytes, List.append_assoc, h0, h8, h16, h24]

theorem decodeKey_toBeBytes (k : Key) (bs : List UInt8) :
    decodeKey (k.toBeBytes ++ bs) = .ok (some (k, keySize)) := by
  have h := fromBeBytes_toBeBytes k []
  rw [List.append_nil] at h
  rw [decodeKey, if_neg (by simp), List.take_left' (length_toBeBytes k), h]
  rfl

theorem encodeKey_eq (k : Key) {dst : List UInt8} (h : dst.length = keySize) :
    encodeKey k dst = (.ok keySize, k.toBeBytes) := by
  rw [encodeKey, if_neg (by rw [h]; exact Nat.lt_irrefl _), if_neg (not_not.mpr h)]

/-! ## Records -/

/-- The bytes of a record. -/
def wire (r : Record) : List UInt8 :=
  r.key.toBeBytes ++ (beBytes 4 r.payload.length ++ r.payload)

/-- The payload lengths that `RecordCodec` accepts. -/
def Encodable (r : Record) : Prop :=
  minPayloadLength ≤ r.payload.length ∧ r.payload.length ≤ maxPayloadLength

instance (r : Record) : Decidable (Encodable r) := inferInstanceAs (Decidable (_ ∧ _))

theorem wireLen_eq (r : Record) : r.wireLen = 36 + r.payload.length := rfl

@[simp] theorem length_wire (r : Record) : (wire r).length = r.wireLen := by
  simp only [wire, List.length_append, length_toBeBytes, length_beBytes, wireLen_eq, keySize]
  omega

theorem Encodable.wireLen_mem {r : Record} (h : Encodable r) :
    minRecordWireLength ≤ r.wireLen ∧ r.wireLen ≤ maxRecordWireLength := by
  simp only [Encodable, minRecordWireLength, maxRecordWireLength, wireLen_eq, keySize, szU32] at h ⊢
  omega

/-- The key is written first, whatever the payload. -/
theorem splice_key (r : Record) {dst : List UInt8} (h : r.wireLen ≤ dst.length) :
    encodeKey r.key (dst.take keySize) = (.ok keySize, r.key.toBeBytes) ∧
      splice dst 0 r.key.toBeBytes = r.key.toBeBytes ++ dst.drop keySize := by
  rw [wireLen_eq] at h
  refine ⟨encodeKey_eq _ ?_, by simp [splice]⟩
  rw [List.length_take, keySize]
  omega

/-- An admissible record, encoded into a buffer that is long enough. -/
theorem encodeRecord_ok {r : Record} (hr : Encodable r) {dst : List UInt8}
    (h : r.wireLen ≤ dst.length) :
    encodeRecord r dst = (.ok r.wireLen, wire r ++ dst.drop r.wireLen) := by
  obtain ⟨hk, hs⟩ := splice_key r h
  rw [encodeRecord, if_neg (by omega), hk]
  simp only
  unfold Encodable at hr
  rw [if_neg (not_not.mpr hr), hs, splice_append _ _ _ (length_toBeBytes _), ← List.append_assoc,
    splice_append _ _ _ (by simp [payloadLenSize])]
  simp only [wire, List.append_assoc, List.drop_drop, length_beBytes, wireLen_eq, keySize]

/-- A payload of another length is refused; the key is in the buffer then. -/
theorem encodeRecord_refused {r : Record} (hr : ¬ Encodable r) {dst : List UInt8}
    (h : r.wireLen ≤ dst.length) :
    encodeRecord r dst =
      (.error (invalidPayloadSz r.payload.length maxRecordWireLength minRecordWireLength),
        r.key.toBeBytes ++ dst.drop keySize) := by
  obtain ⟨hk, hs⟩ := splice_key r h
  rw [encodeRecord, if_neg (by omega), hk]
  simp only
  unfold Encodable at hr
  rw [if_pos hr, hs]

/-- A record is encoded into a buffer that is long enough exactly when its
payload is admissible. -/
theorem encodeRecord_isOk_iff (r : Record) {dst : List UInt8} (h : r.wireLen ≤ dst.length) :
    (encodeRecord r dst).1 = .ok r.wireLen ↔ Encodable r := by
  by_cases hr : Encodable r
  · simp [encodeRecord_ok hr h, hr]
  · simp [encodeRecord_refused hr h, hr]

theorem payloadLen_wire {r : Record} (hr : Encodable r) (bs : List UInt8) :
    ofBe (((wire r ++ bs).drop keySize).take payloadLenSize) = r.payload.length := by
  rw [wire, List.append_assoc, List.drop_left' (length_toBeBytes _), List.append_assoc,
    payloadLenSize, List.take_left' (length_beBytes 4 _)]
  exact ofBe_beBytes_of_lt (lt_of_le_of_lt hr.2 (by decide))

/-- Decoding reads a record back from its bytes. -/
theorem decodeRecord_wire {r : Record} (hr : Encodable r) (bs : List UInt8) :
    decodeRecord (wire r ++ bs) = .ok (some (r, r.wireLen)) := by
  have hlen : (wire r ++ bs).length = 36 + r.payload.length + bs.length := by
    rw [List.length_append, length_wire, wireLen_eq]
  have hk : decodeKey (wire r ++ bs) = .ok (some (r.key, keySize)) := by
    rw [wire, List.append_assoc]; exact decodeKey_toBeBytes _ _
  have hp : ((wire r ++ bs).drop (keySize + payloadLenSize)).take r.payload.length = r.payload := by
    rw [wire, ← List.append_assoc, List.append_assoc _ r.payload, List.drop_left' (by simp [payloadLenSize]),
      List.take_left' rfl]
  rw [decodeRecord, if_neg (by rw [hlen, keySize, payloadLenSize]; omega), hk]
  simp only [bind, Except.bind, payloadLen_wire hr, checkPayloadSize]
  unfold Encodable at hr
  rw [if_pos hr]
  simp only
  rw [if_neg (by rw [hlen, keySize, payloadLenSize]; omega), hp]
  rfl

theorem Encodable.checkPayloadSize {r : Record} (h : Encodable r) :
    Impl.Tsdb.checkPayloadSize r.payload.length = .ok () := if_pos h

/-- A record's bytes that are not all there: the codec asks for more, in the
key and length as in the payload. -/
theorem decodeRecord_short {r : Record} (hr : Encodable r) {bs : List UInt8} (hpre : bs <+: wire r)
    (hne : bs ≠ wire r) : decodeRecord bs = .ok none := by
  have hlt : bs.length < 36 + r.payload.length := by
    have hle := hpre.length_le
    rw [length_wire, wireLen_eq] at hle
    refine lt_of_le_of_ne hle fun he => hne (hpre.eq_of_length ?_)
    rw [length_wire, wireLen_eq, he]
  rw [decodeRecord]
  split
  · rfl
  · rename_i hlen
    have hlen : 36 ≤ bs.length := not_lt.mp hlen
    obtain ⟨more, hmore⟩ := hpre
    have hkey : decodeKey bs = .ok (some (r.key, keySize)) := by
      obtain ⟨rest, hrest⟩ : r.key.toBeBytes <+: bs :=
        List.prefix_of_prefix_length_le (List.prefix_append _ _) ⟨more, hmore⟩
          (by rw [length_toBeBytes, keySize]; omega)
      rw [← hrest]
      exact decodeKey_toBeBytes r.key rest
    have hsize : ofBe ((bs.drop keySize).take payloadLenSize) = r.payload.length := by
      have hp := payloadLen_wire hr []
      rw [List.append_nil, ← hmore, keySize, payloadLenSize,
        List.drop_append_of_le_length (by omega),
        List.take_append_of_le_length (by rw [List.length_drop]; omega)] at hp
      exact hp
    rw [hkey]
    simp only [bind, Except.bind, hsize, hr.checkPayloadSize]
    rw [if_pos (by rw [keySize, payloadLenSize]; omega)]
    rfl

/-! ## Any bytes -/

/-- The lengths of a payload that `check_payload_size` accepts. -/
def AdmissibleLength (n : Nat) : Prop := minPayloadLength ≤ n ∧ n ≤ maxPayloadLength

/-- The length of the payload, as the bytes say it. -/
def lengthField (src : List UInt8) : Nat := ofBe ((src.drop keySize).take payloadLenSize)

theorem beBytes_u64At {src : List UInt8} {i : Nat} (h : i + 8 ≤ src.length) :
    beBytes 8 (u64At src i).toNat = (src.drop i).take 8 := by
  have hlen : ((src.drop i).take 8).length = 8 := by
    rw [List.length_take, List.length_drop]
    omega
  have hlt : ofBe ((src.drop i).take 8) < 2 ^ 64 := by
    have := ofBe_lt ((src.drop i).take 8)
    rwa [hlen] at this
  rw [u64At, UInt64.toNat_ofNat_of_lt' hlt, beBytes_ofBe hlen]

/-- Any 32 bytes are those of a key. -/
theorem exists_key {bs : List UInt8} (h : bs.length = keySize) : ∃ k : Key, k.toBeBytes = bs := by
  rw [keySize] at h
  refine ⟨⟨u64At bs 24, u64At bs 8, u64At bs 16, u64At bs 0⟩, ?_⟩
  have h24 : (bs.drop 24).take 8 = bs.drop 24 :=
    List.take_of_length_le (by rw [List.length_drop]; omega)
  rw [Key.toBeBytes, beBytes_u64At (by omega), beBytes_u64At (by omega), beBytes_u64At (by omega),
    beBytes_u64At (by omega), h24, List.drop_zero, ← List.take_add, ← List.take_add,
    List.take_append_drop]

/-- Bytes with an admissible length and a payload of this length are those of
a record. -/
theorem exists_wire {src : List UInt8} (hadm : AdmissibleLength (lengthField src))
    (hlen : src.length = 36 + lengthField src) : ∃ r, Encodable r ∧ wire r = src := by
  have hkeylen : (src.take keySize).length = keySize := by
    rw [List.length_take, keySize]
    omega
  obtain ⟨k, hk⟩ := exists_key hkeylen
  have hpayload : (src.drop 36).length = lengthField src := by rw [List.length_drop]; omega
  have hfield : beBytes 4 (lengthField src) = (src.drop keySize).take payloadLenSize :=
    beBytes_ofBe (by rw [List.length_take, List.length_drop, keySize, payloadLenSize]; omega)
  refine ⟨⟨k, src.drop 36⟩, ?_, ?_⟩
  · rw [Encodable, hpayload]
    exact hadm
  · rw [wire, hk, hpayload, hfield, ← List.append_assoc, ← List.take_add]
    exact List.take_append_drop 36 src

theorem lengthField_append {src : List UInt8} (h : 36 ≤ src.length) (more : List UInt8) :
    lengthField (src ++ more) = lengthField src := by
  rw [lengthField, lengthField, keySize, payloadLenSize,
    List.drop_append_of_le_length (by omega),
    List.take_append_of_le_length (by rw [List.length_drop]; omega)]

/-- The outcomes of decoding: a length that is refused as soon as it is there,
a whole record, or less than that. -/
inductive Decoded (src : List UInt8) : Except CodecError (Option (Record × Nat)) → Prop
  | refused (hlen : 36 ≤ src.length) (hbad : ¬ AdmissibleLength (lengthField src)) : Decoded src
      (.error (invalidPayloadSz (lengthField src) maxRecordWireLength minRecordWireLength))
  | whole {r : Record} {rest : List UInt8} (hr : Encodable r) (h : src = wire r ++ rest) :
      Decoded src (.ok (some (r, r.wireLen)))
  | part (h : 36 ≤ src.length → AdmissibleLength (lengthField src))
      (hlt : src.length < maxRecordWireLength) : Decoded src (.ok none)

theorem decodeRecord_refused {src : List UInt8} (hlen : 36 ≤ src.length)
    (hbad : ¬ AdmissibleLength (lengthField src)) : decodeRecord src =
      .error (invalidPayloadSz (lengthField src) maxRecordWireLength minRecordWireLength) := by
  have hkeylen : (src.take keySize).length = keySize := by
    rw [List.length_take, keySize]
    omega
  obtain ⟨k, hk⟩ := exists_key hkeylen
  have hkey := decodeKey_toBeBytes k (src.drop keySize)
  rw [hk, List.take_append_drop] at hkey
  have hcheck : checkPayloadSize (lengthField src) = .error _ := if_neg hbad
  rw [decodeRecord, if_neg (by rw [keySize, payloadLenSize]; omega), hkey]
  simp only [bind, Except.bind]
  rw [← lengthField, hcheck]

/-- The bytes of a whole record, and no more. -/
theorem exists_wire_append {src : List UInt8} (hadm : AdmissibleLength (lengthField src))
    (hlen : 36 + lengthField src ≤ src.length) : ∃ r rest, Encodable r ∧ src = wire r ++ rest := by
  have htake : (src.take (36 + lengthField src)).length = 36 + lengthField src := by
    rw [List.length_take]
    omega
  have hfield :=
    lengthField_append (htake ▸ Nat.le_add_right 36 _) (src.drop (36 + lengthField src))
  rw [List.take_append_drop] at hfield
  obtain ⟨r, hr, hwire⟩ := exists_wire (hfield ▸ hadm) (htake.trans (congrArg _ hfield))
  refine ⟨r, src.drop (36 + lengthField src), hr, ?_⟩
  rw [hwire, List.take_append_drop]

theorem decodeRecord_part {src : List UInt8} (hadm : AdmissibleLength (lengthField src))
    (hlen : 36 ≤ src.length) (hlt : src.length < 36 + lengthField src) :
    decodeRecord src = .ok none := by
  -- Any bytes make the record whole.
  have hfield := lengthField_append hlen
    (List.replicate (36 + lengthField src - src.length) 0)
  obtain ⟨r, hr, hwire⟩ := exists_wire (hfield ▸ hadm)
    (by rw [hfield, List.length_append, List.length_replicate]; omega)
  refine decodeRecord_short hr ⟨_, hwire.symm⟩ fun he => ?_
  have := congrArg List.length (he.trans hwire)
  rw [List.length_append, List.length_replicate] at this
  omega

theorem decodeRecord_decoded (src : List UInt8) : Decoded src (decodeRecord src) := by
  by_cases hlen : 36 ≤ src.length
  · by_cases hadm : AdmissibleLength (lengthField src)
    · by_cases hwhole : 36 + lengthField src ≤ src.length
      · obtain ⟨r, rest, hr, rfl⟩ := exists_wire_append hadm hwhole
        rw [decodeRecord_wire hr]
        exact .whole hr rfl
      · rw [decodeRecord_part hadm hlen (not_le.mp hwhole)]
        have hmax : lengthField src ≤ 4096 := hadm.2
        refine .part (fun _ => hadm) ?_
        rw [show maxRecordWireLength = 4132 from rfl]
        omega
    · rw [decodeRecord_refused hlen hadm]
      exact .refused hlen hadm
  · have hnone : decodeRecord src = .ok none := if_pos (not_le.mp hlen)
    rw [hnone]
    refine .part (fun h => absurd h hlen) ?_
    rw [show maxRecordWireLength = 4132 from rfl]
    omega

/-- The records that are decoded are those whose bytes are at the front. -/
theorem decodeRecord_eq_some_iff {src : List UInt8} {r : Record} {n : Nat} :
    decodeRecord src = .ok (some (r, n)) ↔
      Encodable r ∧ n = r.wireLen ∧ ∃ rest, src = wire r ++ rest := by
  refine ⟨fun h => ?_, ?_⟩
  · have hdec := decodeRecord_decoded src
    rw [h] at hdec
    cases hdec with
    | whole hr hsrc => exact ⟨hr, rfl, _, hsrc⟩
  · rintro ⟨hr, rfl, rest, rfl⟩
    exact decodeRecord_wire hr rest

theorem decodeRecord_eq_error_iff {src : List UInt8} :
    (∃ e, decodeRecord src = .error e) ↔
      36 ≤ src.length ∧ ¬ AdmissibleLength (lengthField src) := by
  refine ⟨fun ⟨e, h⟩ => ?_, fun ⟨hlen, hbad⟩ => ⟨_, decodeRecord_refused hlen hbad⟩⟩
  have hdec := decodeRecord_decoded src
  rw [h] at hdec
  cases hdec with
  | refused hlen hbad => exact ⟨hlen, hbad⟩

theorem decodeRecord_error_append {src : List UInt8} {e : CodecError}
    (h : decodeRecord src = .error e) (more : List UInt8) :
    decodeRecord (src ++ more) = .error e := by
  obtain ⟨hlen, hbad⟩ := decodeRecord_eq_error_iff.mp ⟨e, h⟩
  have hfield := lengthField_append hlen more
  rw [← h, decodeRecord_refused hlen hbad, ← hfield]
  refine decodeRecord_refused ?_ (hfield ▸ hbad)
  rw [List.length_append]
  omega

theorem decodeRecord_item_append {src : List UInt8} {p : Record × Nat}
    (h : decodeRecord src = .ok (some p)) (more : List UInt8) :
    decodeRecord (src ++ more) = .ok (some p) := by
  obtain ⟨r, n⟩ := p
  obtain ⟨hr, hn, rest, hsrc⟩ := decodeRecord_eq_some_iff.mp h
  refine decodeRecord_eq_some_iff.mpr ⟨hr, hn, rest ++ more, ?_⟩
  rw [hsrc, List.append_assoc]

theorem encodeRecord_exact {r : Record} (hr : Encodable r) :
    encodeRecord r (List.replicate r.wireLen 0) = (.ok r.wireLen, wire r) := by
  rw [encodeRecord_ok hr (by simp), List.drop_replicate]
  simp

/-- Decoding any bytes: a record exactly when the bytes start with what
encoding writes of it, an error exactly when the length is there and not
admissible, both whatever follows, and a request for more on a part of any
record. -/
theorem record_decode_exact (src : List UInt8) :
    (∀ r n, decodeRecord src = .ok (some (r, n)) ↔
      (2 ≤ r.payload.length ∧ r.payload.length ≤ 4096) ∧ n = r.wireLen ∧ n ≤ src.length ∧
        encodeRecord r (List.replicate r.wireLen 0) = (.ok n, src.take n)) ∧
    (∀ p more, decodeRecord src = .ok (some p) → decodeRecord (src ++ more) = .ok (some p)) ∧
    (∀ e more, decodeRecord src = .error e → decodeRecord (src ++ more) = .error e) ∧
    ((∃ e, decodeRecord src = .error e) ↔
      36 ≤ src.length ∧ ¬ (2 ≤ lengthField src ∧ lengthField src ≤ 4096)) ∧
    ∀ r bytes, encodeRecord r (List.replicate r.wireLen 0) = (.ok r.wireLen, bytes) →
      src <+: bytes → src ≠ bytes → decodeRecord src = .ok none := by
  refine ⟨fun r n => ?_, fun p more h => decodeRecord_item_append h more,
    fun e more h => decodeRecord_error_append h more, decodeRecord_eq_error_iff,
    fun r bytes henc hpre hne => ?_⟩
  · rw [decodeRecord_eq_some_iff]
    constructor
    · rintro ⟨hr, rfl, rest, rfl⟩
      refine ⟨hr, rfl, by rw [List.length_append, length_wire]; omega, ?_⟩
      rw [encodeRecord_exact hr, List.take_left' (length_wire r)]
    · rintro ⟨hr, rfl, -, henc⟩
      rw [encodeRecord_exact hr] at henc
      have hwire : wire r = src.take r.wireLen := (Prod.ext_iff.mp henc).2
      refine ⟨hr, rfl, src.drop r.wireLen, ?_⟩
      rw [hwire, List.take_append_drop]
  · have hr : Encodable r := by
      refine (encodeRecord_isOk_iff r ?_).mp (congrArg Prod.fst henc)
      rw [List.length_replicate]
    rw [encodeRecord_exact hr] at henc
    obtain rfl : wire r = bytes := (Prod.ext_iff.mp henc).2
    exact decodeRecord_short hr hpre hne

end LG.Proof.Tsdb
