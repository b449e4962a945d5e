import Logregator.Proof.Tsdb.Manifest
import Logregator.Spec.Tsdb.Framed

/-!
# Encoding into buffers that are longer than the item

An encoder that always writes the same bytes at the start of its buffer keeps
the contract of `SpecCodec` on every buffer that is long enough
(`encodesInto_of`). Those of records, label maps and manifest entries do. The
one of keys converts the whole buffer to an array, so it takes buffers of its
own length alone.
-/

namespace LG.Proof.Tsdb

open LG.Impl.Tsdb LG.Spec.Tsdb

/-- An encoder that writes `bytes` and leaves the rest. -/
theorem encodesInto_of {I : Type} {codec : SpecCodec I} {item : I} {bytes : List UInt8}
    (hlen : bytes.length = codec.wireLen item)
    (h : ∀ dst : List UInt8, codec.wireLen item ≤ dst.length →
      codec.encode item dst = (.ok (codec.wireLen item), bytes ++ dst.drop (codec.wireLen item)))
    {dst : List UInt8} (hdst : codec.wireLen item ≤ dst.length) : EncodesInto codec item dst where
  returns := by rw [h dst hdst]
  writes exact hexact := by
    rw [h dst hdst, h exact hexact.ge, List.take_left' hlen, ← hexact, List.drop_length,
      List.append_nil]
  leaves := by rw [h dst hdst, List.drop_left' hlen]

theorem record_encodesInto {r : Record} (hr : CanEncode recordCodec r) {dst : List UInt8}
    (hdst : r.wireLen ≤ dst.length) : EncodesInto recordCodec r dst := by
  obtain ⟨exact, n, hlen, hok⟩ := hr
  have henc : Encodable r := by
    by_contra hr
    have href := encodeRecord_refused hr hlen.ge
    rw [show recordCodec.encode r exact = _ from href] at hok
    cases hok
  exact encodesInto_of (length_wire r) (fun dst h => encodeRecord_ok henc h) hdst

theorem labelMap_encodesInto {fp : List Label → UInt64} {lm : LabelMap}
    (hlm : CanEncode (labelMapCodec fp) lm) {dst : List UInt8} (hdst : lm.wireLen ≤ dst.length) :
    EncodesInto (labelMapCodec fp) lm dst := by
  obtain ⟨exact, n, -, hok⟩ := hlm
  obtain ⟨hcount, hfit⟩ := encodeLabelMap_eq_ok hok
  exact encodesInto_of (length_labelBytes lm) (fun dst h => encodeLabelMap_ok hcount hfit h) hdst

theorem manifestEntry_encodesInto {fp : List Label → UInt64} {me : ManifestEntry}
    (hme : CanEncode (manifestCodec fp) me) {dst : List UInt8} (hdst : me.wireLen ≤ dst.length) :
    EncodesInto (manifestCodec fp) me dst := by
  obtain ⟨exact, n, hlen, hok⟩ := hme
  have hacc : Accepted me := by
    by_contra hme
    obtain ⟨e, buf, href⟩ := encodeManifestEntry_refused hme hlen.ge
    rw [show (manifestCodec fp).encode me exact = _ from href] at hok
    cases hok
  exact encodesInto_of (length_entryBytes me) (fun dst h => encodeManifestEntry_ok hacc h) hdst

theorem encodeKey_refused (key : Key) {dst : List UInt8} (h : dst.length ≠ keySize) :
    ∃ e, encodeKey key dst = (.error e, dst) := by
  by_cases hlt : dst.length < key.wireLen
  · exact ⟨_, if_pos hlt⟩
  · rw [encodeKey, if_neg hlt, if_pos h]
    exact ⟨_, rfl⟩

theorem key_encodesInto_iff (key : Key) {dst : List UInt8} :
    EncodesInto keyCodec key dst ↔ dst.length = keySize := by
  constructor
  · intro h
    by_contra hne
    obtain ⟨e, href⟩ := encodeKey_refused key hne
    have hret := h.returns
    rw [show keyCodec.encode key dst = _ from href] at hret
    cases hret
  · intro hlen
    have heq : ∀ buf : List UInt8, buf.length = keySize →
        keyCodec.encode key buf = (.ok keySize, key.toBeBytes) := fun buf h => encodeKey_eq key h
    refine ⟨congrArg Prod.fst (heq dst hlen), fun buf hbuf => ?_, ?_⟩
    · rw [heq dst hlen, heq buf hbuf]
      exact List.take_of_length_le (length_toBeBytes key).le
    · rw [heq dst hlen]
      exact (List.drop_of_length_le (length_toBeBytes key).le).trans
        (List.drop_of_length_le hlen.le).symm

/-- On buffers that are long enough, records, label maps and manifest entries
that can be encoded are encoded as into buffers of their length, and a key is
just where the buffer has its length. -/
theorem codec_contract_iff (fp : List Label → UInt64) :
    (∀ (key : Key) (dst : List UInt8), key.wireLen ≤ dst.length →
      (EncodesInto keyCodec key dst ↔ dst.length = keySize)) ∧
    (∀ (r : Record) (dst : List UInt8), CanEncode recordCodec r → r.wireLen ≤ dst.length →
      EncodesInto recordCodec r dst) ∧
    (∀ (lm : LabelMap) (dst : List UInt8), CanEncode (labelMapCodec fp) lm →
      lm.wireLen ≤ dst.length → EncodesInto (labelMapCodec fp) lm dst) ∧
    ∀ (me : ManifestEntry) (dst : List UInt8), CanEncode (manifestCodec fp) me →
      me.wireLen ≤ dst.length → EncodesInto (manifestCodec fp) me dst := by
  refine ⟨?_, ?_, ?_, ?_⟩
  · exact fun key _ _ => key_encodesInto_iff key
  · exact fun _ _ h hdst => record_encodesInto h hdst
  · exact fun _ _ h hdst => labelMap_encodesInto h hdst
  · exact fun _ _ h hdst => manifestEntry_encodesInto h hdst

/-- A key, into one byte more than it needs. -/
theorem key_into_longer_buffer :
    (encodeKey ⟨0, 0, 0, 0⟩ (List.replicate 32 0)).1 = .ok 32 ∧
      (encodeKey ⟨0, 0, 0, 0⟩ (List.replicate 33 0)).1 =
        .error (.io "could not convert slice to array") := by
  decide

theorem codec_contract_iff_flush :
    CanEncode (manifestCodec fun _ => 0) (.memtableFlush 3) ∧
      EncodesInto (manifestCodec fun _ => 0) (.memtableFlush 3) (List.replicate 12 7) := by
  have henc : CanEncode (manifestCodec fun _ => 0) (.memtableFlush 3) :=
    ⟨List.replicate 9 0, 9, rfl, rfl⟩
  exact ⟨henc, (codec_contract_iff fun _ => 0).2.2.2 _ _ henc (by decide)⟩

end LG.Proof.Tsdb
