import Logregator.Proof.Tsdb.BlockRead
import Logregator.Proof.Tsdb.SstFile

/-!
# The metadata and the filter of a table

Metadata is read back from its bytes, and no bytes make its decoder read out of
range: when the size has passed, the loop over so many entries ends before the
checksum (`decodeMetasLoop_safe`).

The filter has every stream id that was written, whichever writes failed in
between (`mayContain_writeCalls`): a write that returns has inserted its id in
the end, also when it wrote a full block out first (`write_bloom`). Its bytes are
read back (`decodeBloom_bloomBytes`), but the encoder never makes them: it panics
on every buffer that is long enough (`encodeBloom_panic`), so `finalize` does not
return (`finalizeSst_ne_ok`).
-/

namespace LG.Proof.Tsdb

open LG.Impl.Tsdb LG.Impl.Tsdb.HashedWriterState

/-! ## Metadata -/

theorem isSome_slice {src : List UInt8} {lo hi : Nat} (h : lo ≤ hi) (hle : hi ≤ src.length) :
    (slice src lo hi).isSome = true := by
  rw [slice_of_le h hle]
  rfl

theorem isSome_beU32 {src : List UInt8} {i : Nat} (h : i + szU32 ≤ src.length) :
    (beU32 src i).isSome = true := by
  rw [beU32, Option.isSome_map]
  exact isSome_slice (Nat.le_add_right i szU32) h

/-- Where there are bytes for the entries, the loop reads them all and ends
after them, or ends in an error of a key. -/
theorem decodeMetasLoop_safe (src : List UInt8) (n : Nat) {i : Nat}
    (h : i + n * blockMetaSize ≤ src.length) :
    (decodeMetasLoop src n i).Safe fun r => r.2 = i + n * blockMetaSize := by
  induction n generalizing i with
  | zero => exact (congrArg (i + ·) (Nat.zero_mul blockMetaSize)).symm
  | succ n ih =>
    have hsize : blockMetaSize = szU32 + keySize + keySize := rfl
    have hnext : i + (n + 1) * blockMetaSize =
        i + szU32 + keySize + keySize + n * blockMetaSize := by
      rw [Nat.succ_mul, hsize]
      omega
    rw [hnext] at h ⊢
    rw [decodeMetasLoop]
    refine .bind (Outcome.safe_expect (isSome_beU32 (by omega))) fun offset _ => ?_
    refine .bind (Outcome.safe_expect (isSome_slice (by omega) (by omega))) fun first _ => ?_
    refine .bind (Outcome.safe_ofExcept _) fun firstKey _ => ?_
    refine .bind (Outcome.safe_expect (isSome_slice (by omega) (by omega))) fun last _ => ?_
    refine .bind (Outcome.safe_ofExcept _) fun lastKey _ => ?_
    exact .bind (ih h) fun r hr => hr

theorem decodeMetas_safe (crc : List UInt8 → UInt32) (src : List UInt8) :
    (decodeMetas crc src).Safe fun _ => True := by
  rw [decodeMetas]
  split
  · trivial
  rename_i hlen
  refine .bind (Outcome.safe_expect (isSome_beU32 (by omega))) fun metasLen _ => ?_
  dsimp only
  split
  · trivial
  rename_i htotal
  refine .bind (decodeMetasLoop_safe src metasLen (by omega)) fun r hr => ?_
  obtain ⟨metas, consumed⟩ := r
  rw [show consumed = szU32 + metasLen * blockMetaSize from hr]
  refine .bind (Outcome.safe_expect (isSome_slice (Nat.zero_le _) (by omega))) fun body _ => ?_
  refine .bind (Outcome.safe_expect (isSome_beU32 (by omega))) fun stored _ => ?_
  dsimp only
  split
  · trivial
  · trivial

/-- Metadata comes back from its bytes, whatever follows them, and decoding any
bytes stays in range, in the keys too. -/
theorem metas_round_trip (crc : List UInt8 → UInt32) :
    (∀ metas : List BlockMetadata, metas.length ≤ 2 ^ 32 - 1 →
      ∃ bytes, encodeMetas crc metas = .ok bytes ∧
        ∀ trailing, decodeMetas crc (bytes ++ trailing) = .ok metas) ∧
    ∀ src, decodeMetas crc src ≠ .panic ∧ decodeKeyChecked src = .ofExcept (decodeKey src) := by
  refine ⟨fun metas h => ⟨_, encodeMetas_eq crc metas, fun trailing => ?_⟩, fun src => ?_⟩
  · exact decodeMetas_segment crc (by omega) trailing
  · exact ⟨(decodeMetas_safe crc src).ne_panic, decodeKeyChecked_eq src⟩

/-! ## The filter of a writer -/

variable {x : Externals} {st : HashedWriterState}

/-- What a call of `write` does to the filter: if it returns, it has inserted
the stream id, and if not, the filter is as before. -/
def Inserts (x : Externals) (s : UInt64) (f : BloomFilter)
    (r : Outcome SstError Unit × HashedWriterState) : Prop :=
  r.1 = .ok () ∧ f.insert x s = some r.2.bloom ∨ r.1 ≠ .ok () ∧ r.2.bloom = f

theorem writeNested_bloom (rec : Record) (depth : Nat) (st : HashedWriterState) :
    Inserts x rec.key.streamId st.bloom (writeNested x depth rec st) := by
  induction depth generalizing st with
  | zero => exact .inr ⟨Outcome.panic_ne_ok _, rfl⟩
  | succ depth ih =>
    rw [writeNested, Action.get_bind]
    split
    · exact .inr ⟨Outcome.err_ne_ok _ _, rfl⟩
    rcases st.blockWriter.write rec with ⟨out, w⟩
    dsimp only
    rw [Action.modify_bind]
    rcases out with e | ⟨⟨⟩⟩
    · exact .inr ⟨Outcome.err_ne_ok _ _, rfl⟩
    · cases hinsert : st.bloom.insert x rec.key.streamId with
      | none => exact .inr ⟨Outcome.panic_ne_ok _, rfl⟩
      | some bloom => exact .inl ⟨rfl, hinsert⟩
    · -- The block is written out, and the nested call inserts the id.
      have hkept := flushBlocks_bloom x { st with blockWriter := w }
      dsimp only
      rw [Action.bind_apply]
      rcases hflush : flushBlocks x { st with blockWriter := w } with ⟨a | e | _, t⟩
      · rw [hflush] at hkept
        have := ih t
        rwa [show t.bloom = st.bloom from hkept] at this
      · rw [hflush] at hkept
        exact .inr ⟨Outcome.err_ne_ok _ _, hkept⟩
      · rw [hflush] at hkept
        exact .inr ⟨Outcome.panic_ne_ok _, hkept⟩

theorem write_bloom (rec : Record) (st : HashedWriterState) :
    Inserts x rec.key.streamId st.bloom (write x rec st) := writeNested_bloom rec 2 st

/-- Calls of `write`, whether they return or fail: the records that were
written, and the state in the end. -/
def writeCalls (x : Externals) : List Record → HashedWriterState → List Record × HashedWriterState
  | [], st => ([], st)
  | rec :: recs, st =>
    match write x rec st with
    | (.ok (), st) => (rec :: (writeCalls x recs st).1, (writeCalls x recs st).2)
    | (_, st) => writeCalls x recs st

/-- The first call inserts its stream id and its record counts, or the filter
stays and the record does not. -/
theorem writeCalls_cons (x : Externals) (rec : Record) (recs : List Record)
    (st : HashedWriterState) :
    ∃ t, st.bloom.insert x rec.key.streamId = some t.bloom ∧
        writeCalls x (rec :: recs) st = (rec :: (writeCalls x recs t).1, (writeCalls x recs t).2) ∨
      t.bloom = st.bloom ∧ writeCalls x (rec :: recs) st = writeCalls x recs t := by
  have hwrite := write_bloom (x := x) rec st
  refine ⟨(write x rec st).2, ?_⟩
  rw [writeCalls]
  generalize write x rec st = called at hwrite ⊢
  rcases called with ⟨a | e | _, t⟩
  · rcases hwrite with ⟨-, hinsert⟩ | ⟨hne, -⟩
    · exact .inl ⟨hinsert, rfl⟩
    · exact absurd rfl hne
  · rcases hwrite with ⟨hok, -⟩ | ⟨-, hkept⟩
    · cases hok
    · exact .inr ⟨hkept, rfl⟩
  · rcases hwrite with ⟨hok, -⟩ | ⟨-, hkept⟩
    · cases hok
    · exact .inr ⟨hkept, rfl⟩

/-- What insertions keep of a filter, calls of `write` keep. -/
theorem writeCalls_keeps {P : BloomFilter → Prop}
    (hP : ∀ {f f' s}, P f → f.insert x s = some f' → P f') (recs : List Record)
    (h : P st.bloom) : P (writeCalls x recs st).2.bloom := by
  induction recs generalizing st with
  | nil => exact h
  | cons rec recs ih =>
    obtain ⟨t, ⟨hinsert, heq⟩ | ⟨hkept, heq⟩⟩ := writeCalls_cons x rec recs st
    · rw [heq]
      exact ih (hP h hinsert)
    · rw [heq]
      exact ih (hkept ▸ h)

/-- The filter has the stream ids of the records that were written. -/
theorem mayContain_writeCalls (recs : List Record) (st : HashedWriterState) :
    ∀ rec ∈ (writeCalls x recs st).1,
      (writeCalls x recs st).2.bloom.mayContain x rec.key.streamId = some true := by
  induction recs generalizing st with
  | nil => exact fun rec h => absurd h List.not_mem_nil
  | cons rec recs ih =>
    obtain ⟨t, ⟨hinsert, heq⟩ | ⟨-, heq⟩⟩ := writeCalls_cons x rec recs st
    · rw [heq]
      refine List.forall_mem_cons.mpr ⟨?_, ih t⟩
      exact writeCalls_keeps (fun hf h => mayContain_insert h _ (.inr hf)) recs
        (mayContain_insert hinsert _ (.inl rfl))
    · rw [heq]
      exact ih t

/-- Any insertions in a filter of any number of bits stay in its bitmap, and so
do the lookups after them, which find what was inserted. The filter of a writer
stays of that size and has the stream ids of all records written. -/
theorem bloom_no_false_negatives (x : Externals) :
    (∀ f, Sized f → ∀ ids : List UInt64,
      ∃ f', ids.foldlM (BloomFilter.insert x) f = some f' ∧
        ∀ s, (∃ ps, f'.positions x s = some ps ∧ ∀ p ∈ ps, p / 8 < f'.bitmap.length) ∧
          (∃ b, f'.mayContain x s = some b) ∧
          (s ∈ ids → f'.mayContain x s = some true)) ∧
    ∀ blockLimit count st, (x.bloomSize count).1 ≠ 0 →
      HashedWriterState.new x blockLimit count = .ok st → ∀ recs,
        Sized (writeCalls x recs st).2.bloom ∧
          ∀ rec ∈ (writeCalls x recs st).1,
            (writeCalls x recs st).2.bloom.mayContain x rec.key.streamId = some true := by
  constructor
  · intro f hf ids
    obtain ⟨f', hrun, hf', hfound⟩ := foldlM_insert (x := x) hf ids
    refine ⟨f', hrun, fun s => ⟨?_, mayContain_roomy x hf'.roomy s, fun hs => hfound s (.inl hs)⟩⟩
    obtain ⟨ps, hps, hroom⟩ := positions_roomy x hf'.roomy s
    refine ⟨ps, hps, fun p hp => ?_⟩
    have := hroom p hp
    omega
  · intro blockLimit count st hbits hnew recs
    refine ⟨?_, mayContain_writeCalls recs st⟩
    obtain ⟨w, -, rfl⟩ := writerNew_eq_ok hnew
    exact writeCalls_keeps Sized.insert recs (sized_new hbits)

/-- Two insertions in a filter of nine bits. -/
theorem bloom_no_false_negatives_nine_bits :
    ∃ f', [7, 8].foldlM (BloomFilter.insert zeroHashes) ⟨[0, 0], 9, 3⟩ = some f' ∧
      f'.mayContain zeroHashes 7 = some true := by
  obtain ⟨f', hrun, hfound⟩ :=
    (bloom_no_false_negatives zeroHashes).1 ⟨[0, 0], 9, 3⟩ ⟨by decide, rfl⟩ [7, 8]
  exact ⟨f', hrun, (hfound 7).2.2 List.mem_cons_self⟩

/-! ## The bytes of a filter -/

/-- The bytes that `BloomFilterCodec` decodes. -/
def bloomBytes (f : BloomFilter) : List UInt8 :=
  beBytes 8 f.nBits.toNat ++ (beBytes 8 f.nHashes.toNat ++
    (beBytes 4 f.bitmap.length ++ f.bitmap))

theorem nomUint_beBytes {k n : Nat} (h : n < 256 ^ k) (rest : List UInt8) :
    nomUint k (beBytes k n ++ rest) = .ok (rest, n) := by
  have hlen := length_beBytes k n
  rw [nomUint, if_neg (by rw [List.length_append]; omega), List.drop_left' hlen,
    List.take_left' hlen, ofBe_beBytes_of_lt h]

theorem nomTake_append (bs rest : List UInt8) :
    nomTake bs.length (bs ++ rest) = .ok (rest, bs) := by
  rw [nomTake, if_neg (by rw [List.length_append]; omega), List.drop_left, List.take_left]

theorem length_bloomBytes (f : BloomFilter) : (bloomBytes f).length = f.wireLen := by
  simp only [bloomBytes, List.length_append, length_beBytes, BloomFilter.wireLen]
  omega

/-- A filter is read back from its bytes, whatever follows them. -/
theorem decodeBloom_bloomBytes {f : BloomFilter} (h : f.bitmap.length ≤ maxBitmapSize)
    (trailing : List UInt8) :
    decodeBloom (bloomBytes f ++ trailing) = .ok (some (f, f.wireLen)) := by
  have hbits : f.nBits.toNat < 256 ^ 8 := f.nBits.toNat_lt
  have hhashes : f.nHashes.toNat < 256 ^ 8 := f.nHashes.toNat_lt
  have hbitmap : f.bitmap.length < 256 ^ 4 := lt_of_le_of_lt h (by decide)
  have hdecode : nomDecodeBloom (bloomBytes f ++ trailing) = .ok (trailing, f) := by
    simp only [bloomBytes, List.append_assoc]
    simp only [nomDecodeBloom, nomUint_beBytes hbits, nomUint_beBytes hhashes,
      nomUint_beBytes hbitmap, nomTake_append, bind, Except.bind, UInt64.ofNat_toNat]
    rfl
  have hread : (bloomBytes f ++ trailing).length - trailing.length = f.wireLen := by
    rw [List.length_append, length_bloomBytes]
    omega
  rw [decodeBloom, hdecode]
  simp only [hread]

/-- The first copy is of eight bytes over a buffer that is longer. -/
theorem encodeBloom_panic {f : BloomFilter} {dst : List UInt8} (h : f.wireLen ≤ dst.length) :
    encodeBloom f dst = (.panic, dst) := by
  have hne : dst.length ≠ (beBytes 8 f.nBits.toNat).length := by
    rw [length_beBytes]
    rw [BloomFilter.wireLen] at h
    omega
  rw [encodeBloom, Action.get_bind, if_neg (not_lt.mpr h), Action.bind_apply, copyFromSlice,
    if_pos hne]

/-- A filter is never encoded, though its bytes would be read back. -/
theorem bloom_round_trip_never {f : BloomFilter} (hf : f.bitmap.length ≤ maxBitmapSize)
    {dst : List UInt8} (hdst : dst.length = f.wireLen) (trailing : List UInt8) :
    ¬ ((encodeBloom f dst).1 = .ok f.wireLen ∧
        decodeBloom ((encodeBloom f dst).2 ++ trailing) = .ok (some (f, f.wireLen))) ∧
      (encodeBloom f dst).1 = .panic ∧
      decodeBloom (bloomBytes f ++ trailing) = .ok (some (f, f.wireLen)) := by
  have hpanic := encodeBloom_panic hdst.ge
  refine ⟨fun h => ?_, by rw [hpanic], decodeBloom_bloomBytes hf trailing⟩
  rw [hpanic] at h
  cases h.1

/-- A filter of eight bits. -/
theorem encodeBloom_eight_bits :
    (⟨[1], 8, 1⟩ : BloomFilter).wireLen = 21 ∧
      (encodeBloom ⟨[1], 8, 1⟩ (List.replicate 21 0)).1 = .panic := by
  decide

theorem bloom_round_trip_never_eight_bits :
    ¬ ((encodeBloom ⟨[1], 8, 1⟩ (List.replicate 21 0)).1 = .ok 21 ∧
      decodeBloom ((encodeBloom ⟨[1], 8, 1⟩ (List.replicate 21 0)).2 ++ [5]) =
        .ok (some (⟨[1], 8, 1⟩, 21))) :=
  (bloom_round_trip_never (f := ⟨[1], 8, 1⟩) (by decide) rfl [5]).1

/-- `finalize` does not return: it panics on the filter at the latest. -/
theorem finalizeSst_ne_ok (x : Externals) (st : HashedWriterState) (p : Nat × Nat) :
    (finalizeSst x st).1 ≠ .ok p := by
  intro h
  obtain ⟨st', h⟩ := Action.returned h
  obtain ⟨⟨⟩, t, -, h⟩ := Action.bind_eq_ok.mp h
  rw [Action.get_bind] at h
  obtain ⟨metas, -, h⟩ := Action.lift_bind_eq_ok.mp h
  dsimp only at h
  split at h
  · cases h
  rw [put, Action.modify_bind, encodeBloom_panic (List.length_replicate ..).ge] at h
  cases h

end LG.Proof.Tsdb
