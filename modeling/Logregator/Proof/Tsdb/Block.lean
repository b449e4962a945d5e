import Logregator.Impl.Tsdb.Sst
import Logregator.Proof.Tsdb.Record
import Logregator.Spec.Tsdb.Layout
import Mathlib.Data.List.TakeWhile

/-!
# Blocks of records

`blockOf rs` is the block that holds the records `rs`. A block writer that
took them is `writerOf limit rs` (`write_writerOf`), its bytes decode to the
same block (`decodeBlock_blockOf`), and a cursor over it stands on record `j`
after `j` steps (`cursorAt`, `next_cursorAt`) or on the first record past a
bound (`seekStart_blockOf`).
-/

namespace LG.Proof.Tsdb

open LG.Impl.Tsdb LG.Spec.Tsdb

/-- The offsets of records laid out from `o` on. -/
def offsetsFrom : Nat → List Record → List UInt16
  | _, [] => []
  | o, r :: rs => UInt16.ofNat o :: offsetsFrom (o + r.wireLen) rs

/-- The block of the records. -/
def blockOf (rs : List Record) : Block := { data := rs.flatMap wire, offsets := offsetsFrom 0 rs }

/-- The block writer that took the records. -/
def writerOf (limit : Nat) (rs : List Record) : BlockWriter :=
  { buffer := rs.flatMap wire
    offsets := offsetsFrom 0 rs
    size := size rs
    limit := limit
    recordCount := rs.length
    firstKey := rs.head?.map Record.key
    lastKey := rs.getLast?.map Record.key }

/-- Records that a block can hold and give back. -/
structure Storable (rs : List Record) : Prop where
  encodable : ∀ r ∈ rs, Encodable r
  fits : size rs ≤ u16Max

/-! ## Offsets -/

@[simp] theorem length_offsetsFrom : ∀ (o : Nat) (rs : List Record),
    (offsetsFrom o rs).length = rs.length
  | _, [] => rfl
  | o, r :: rs => by simp [offsetsFrom, length_offsetsFrom _ rs]

theorem offsetsFrom_append : ∀ (o : Nat) (rs rs' : List Record),
    offsetsFrom o (rs ++ rs') = offsetsFrom o rs ++ offsetsFrom (o + size rs) rs'
  | _, [], _ => by simp [offsetsFrom]
  | o, r :: rs, rs' => by
    simp [offsetsFrom, offsetsFrom_append _ rs, Nat.add_assoc]

theorem getElem?_offsetsFrom : ∀ (o : Nat) (rs : List Record) (i : Nat),
    (offsetsFrom o rs)[i]? = rs[i]?.map fun _ => UInt16.ofNat (o + size (rs.take i))
  | _, [], _ => by simp [offsetsFrom]
  | o, r :: rs, 0 => by simp [offsetsFrom]
  | o, r :: rs, i + 1 => by
    simp only [offsetsFrom, List.getElem?_cons_succ, getElem?_offsetsFrom _ rs i, List.take_succ_cons,
      size_cons, Nat.add_assoc]

theorem length_flatMap_wire : ∀ rs : List Record, (rs.flatMap wire).length = size rs
  | [] => rfl
  | r :: rs => by simp [length_flatMap_wire rs]

theorem toNat_offset {n : Nat} (h : n ≤ u16Max) : (UInt16.ofNat n).toNat = n := by
  rw [u16Max] at h
  rw [UInt16.toNat_ofNat', Nat.mod_eq_of_lt (by omega)]

/-- A check that accepts every record's range accepts the offsets. -/
theorem checkOffsets_offsetsFrom {check : Nat → Nat → Except BlockCodecError Unit} :
    ∀ {rs : List Record} {o : Nat}, (∀ r ∈ rs, ∀ s, check s (s + r.wireLen) = .ok ()) →
      o + size rs ≤ u16Max → checkOffsets check (o + size rs) (offsetsFrom o rs) = .ok ()
  | [], _, _, _ => rfl
  | [r], o, hc, ho => by
    simp only [size_cons, size_nil, Nat.add_zero] at ho ⊢
    rw [offsetsFrom, offsetsFrom, checkOffsets, toNat_offset (by omega)]
    exact hc r (by simp) o
  | r :: r' :: rs, o, hc, ho => by
    simp only [size_cons] at ho
    have ih := checkOffsets_offsetsFrom (o := o + r.wireLen)
      (fun q hq => hc q (List.mem_cons_of_mem _ hq)) (by simp only [size_cons]; omega)
    simp only [offsetsFrom, size_cons] at ih ⊢
    rw [checkOffsets, toNat_offset (by omega), toNat_offset (by omega), hc r (by simp) o,
      ← Nat.add_assoc]
    exact ih

/-! ## Writing -/

/-- The writer that `new` builds has taken no record. -/
theorem new_writerOf {blockLimit : Option Nat} {w : BlockWriter}
    (h : BlockWriter.new blockLimit = .ok w) :
    w = writerOf (blockLimit.getD defaultBlockSize) [] ∧ w.limit ≤ maxBlockSize := by
  cases blockLimit with
  | none =>
    cases h
    exact ⟨rfl, by decide⟩
  | some l =>
    rw [BlockWriter.new] at h
    by_cases hl : maxBlockSize < l
    · rw [if_pos hl] at h
      cases h
    · rw [if_neg hl] at h
      cases h
      exact ⟨rfl, not_lt.mp hl⟩

/-- What a write to a block of `rs` does. -/
theorem write_writerOf (limit : Nat) (rs : List Record) (r : Record) :
    (writerOf limit rs).write r =
      if Full limit rs r then (.ok .full, writerOf limit rs)
      else if Encodable r then (.ok .written, writerOf limit (rs ++ [r]))
      else (.error (invalidPayloadSz r.payload.length maxRecordWireLength minRecordWireLength),
        { writerOf limit rs with
          buffer := rs.flatMap wire ++
            (r.key.toBeBytes ++ (List.replicate r.wireLen 0).drop keySize) }) := by
  have hl : r.wireLen ≤ (List.replicate r.wireLen (0 : UInt8)).length := by simp
  have hempty : (offsetsFrom 0 rs).isEmpty = true ↔ rs = [] := by
    rw [List.isEmpty_iff_length_eq_zero, length_offsetsFrom, List.length_eq_zero_iff]
  have hfull (p : Except CodecError WriteOutput × BlockWriter) :
      (if ¬ rs = [] ∧ limit < sizeWith rs r then (.ok .full, writerOf limit rs)
        else if maxBlockSize < sizeWith rs r then (.ok .full, writerOf limit rs) else p) =
      if Full limit rs r then (.ok .full, writerOf limit rs) else p := by
    by_cases h1 : ¬ rs = [] ∧ limit < sizeWith rs r
    · rw [if_pos h1, if_pos (show Full limit rs r from .inl h1)]
    by_cases h2 : maxBlockSize < sizeWith rs r
    · rw [if_neg h1, if_pos h2, if_pos (show Full limit rs r from .inr h2)]
    · rw [if_neg h1, if_neg h2, if_neg (show ¬ Full limit rs r from not_or.mpr ⟨h1, h2⟩)]
  unfold BlockWriter.write
  simp only [writerOf, length_offsetsFrom, hempty] at hfull ⊢
  refine (hfull _).trans ?_
  congr 1
  by_cases hr : Encodable r
  · have hor : (rs.head?.map Record.key).or (some r.key) = (rs ++ [r]).head?.map Record.key := by
      cases rs <;> rfl
    rw [encodeRecord_ok hr hl, if_pos hr]
    simp [offsetsFrom_append, offsetsFrom, hor]
  · rw [encodeRecord_refused hr hl, if_neg hr]

/-! ## Wire format -/

theorem readOffsets_flatMap : ∀ os : List UInt16,
    readOffsets (os.flatMap fun o => beBytes 2 o.toNat) = os
  | [] => rfl
  | o :: os => by
    have hlen : (beBytes 2 o.toNat).length = 2 := length_beBytes 2 _
    obtain ⟨a, b, hab⟩ := List.length_eq_two.mp hlen
    have ho : ofBe [a, b] = o.toNat := by
      rw [← hab]
      exact ofBe_beBytes_of_lt o.toNat_lt
    rw [List.flatMap_cons, hab, List.cons_append, List.cons_append, List.nil_append, readOffsets,
      ho, UInt16.ofNat_toNat, readOffsets_flatMap os]

theorem length_offsetBytes : ∀ os : List UInt16,
    (os.flatMap fun o => beBytes 2 o.toNat).length = os.length * szU16
  | [] => rfl
  | o :: os => by
    rw [List.flatMap_cons, List.length_append, length_beBytes, length_offsetBytes os,
      List.length_cons, szU16]
    omega

theorem length_body (b : Block) : b.body.length = b.data.length + b.offsets.length * szU16 + szU16 := by
  rw [Block.body, List.length_append, List.length_append, length_beBytes, length_offsetBytes, szU16]

/-- Decoding the bytes of a block checks its offsets and gives it back. -/
theorem decodeBlock_body (crc : List UInt8 → UInt32) {b : Block} (hb : b.offsets.length ≤ u16Max) :
    decodeBlock crc (b.body ++ beBytes 4 (crc b.body).toNat) =
      (checkOffsets checkRecordRange b.data.length b.offsets).map fun _ => b := by
  have hcrc : UInt32.ofNat (ofBe (beBytes 4 (crc b.body).toNat)) = crc b.body := by
    rw [ofBe_beBytes_of_lt (crc b.body).toNat_lt, UInt32.ofNat_toNat]
  have hl : (b.body ++ beBytes 4 (crc b.body).toNat).length - szU32 = b.body.length := by
    rw [List.length_append, length_beBytes, szU32, Nat.add_sub_cancel]
  have hlen := length_body b
  have hseg : b.body.length - szU16 = b.data.length + b.offsets.length * szU16 := by omega
  have hcount : ofBe (b.body.drop (b.body.length - szU16)) = b.offsets.length := by
    rw [hseg, Block.body, List.drop_left' (by rw [List.length_append, length_offsetBytes])]
    exact ofBe_beBytes_of_lt (lt_of_le_of_lt hb (by decide))
  have hdata : b.body.take b.data.length = b.data := by
    rw [Block.body, List.append_assoc, List.take_left]
  have hoffs : readOffsets ((b.body.drop b.data.length).take (b.offsets.length * szU16)) =
      b.offsets := by
    rw [Block.body, List.append_assoc, List.drop_left, List.take_left' (length_offsetBytes _),
      readOffsets_flatMap]
  rw [decodeBlock, if_neg (by rw [List.length_append, length_beBytes, szU32]; omega)]
  simp only [hl, List.take_left, List.drop_left, hcrc, ne_eq, not_true_eq_false, if_false]
  rw [if_neg (by omega)]
  simp only [hcount]
  rw [if_neg (by omega)]
  simp only [hseg, Nat.add_sub_cancel, hoffs, hdata]
  cases checkOffsets checkRecordRange b.data.length b.offsets <;> rfl

/-- What a successful `encode_block` returns. -/
theorem encodeBlock_eq_ok {crc : List UInt8 → UInt32} {b : Block} {bs : List UInt8}
    (h : encodeBlock crc b = .ok bs) :
    bs = b.body ++ beBytes 4 (crc b.body).toNat ∧ b.offsets ≠ [] ∧ b.offsets.length ≤ u16Max ∧
      b.data.length ≤ u16Max := by
  unfold encodeBlock at h
  by_cases h1 : u16Max < b.offsets.length
  · rw [if_pos h1] at h
    cases h
  rw [if_neg h1] at h
  by_cases h2 : b.offsetSegmentLen = 0
  · rw [if_pos h2] at h
    cases h
  rw [if_neg h2] at h
  simp only at h
  by_cases h3 : maxBlockSize < b.data.length + b.offsetSegmentLen + szU16
  · rw [if_pos h3] at h
    cases h
  rw [if_neg h3] at h
  by_cases h4 : u16Max - minRecordWireLength < b.data.length
  · rw [if_pos h4] at h
    cases h
  rw [if_neg h4] at h
  obtain ⟨_, _, h⟩ := Outcome.bind_eq_ok.mp h
  cases h
  refine ⟨rfl, ?_, by omega, by omega⟩
  intro hn
  exact h2 (by rw [Block.offsetSegmentLen, hn]; rfl)

/-- The bytes of a block of records. -/
def encoded (crc : List UInt8 → UInt32) (rs : List Record) : List UInt8 :=
  (blockOf rs).body ++ beBytes 4 (crc (blockOf rs).body).toNat

theorem checkMonotonic_wireLen (r : Record) (s : Nat) : checkMonotonic s (s + r.wireLen) = .ok () := by
  rw [checkMonotonic, wireLen_eq, if_neg (by omega)]

/-- Encoding a block of records that is no larger than a block may be: where
the last offset might not fit two bytes, it is a `todo!`. -/
theorem encodeBlock_blockOf (crc : List UInt8 → UInt32) {rs : List Record} (hne : rs ≠ [])
    (hfit : blockSize rs ≤ maxBlockSize) :
    encodeBlock crc (blockOf rs) =
      if u16Max - minRecordWireLength < size rs then .panic else .ok (encoded crc rs) := by
  have hpos := List.length_pos_iff.mpr hne
  have hsize := length_flatMap_wire rs
  have hc : checkOffsets checkMonotonic (0 + size rs) (offsetsFrom 0 rs) = .ok () :=
    checkOffsets_offsetsFrom (fun r _ => checkMonotonic_wireLen r)
      (by rw [blockSize, maxBlockSize] at hfit; omega)
  rw [Nat.zero_add] at hc
  rw [blockSize, maxBlockSize] at hfit
  unfold encodeBlock
  simp only [blockOf, Block.offsetSegmentLen, Block.offsetSegmentStart, length_offsetsFrom, hsize,
    szU16] at hfit ⊢
  rw [if_neg (by omega), if_neg (by omega), if_neg (by rw [maxBlockSize]; omega), hc]
  rfl

theorem length_encoded (crc : List UInt8 → UInt32) (rs : List Record) :
    (encoded crc rs).length = blockSize rs + szU32 := by
  rw [encoded, List.length_append, length_beBytes, length_body, blockOf, length_flatMap_wire,
    length_offsetsFrom, blockSize, szU32]

theorem encoded_length_pos (crc : List UInt8 → UInt32) (rs : List Record) :
    0 < (encoded crc rs).length := by
  rw [length_encoded, szU32]
  omega

theorem checkRecordRange_wireLen {r : Record} (hr : Encodable r) (s : Nat) :
    checkRecordRange s (s + r.wireLen) = .ok () := by
  have hmem := hr.wireLen_mem
  have hpos : 0 < minRecordWireLength := by decide
  have hsub : s + r.wireLen - s = r.wireLen := by omega
  rw [checkRecordRange, if_neg (by omega), hsub, if_neg (not_not.mpr hmem)]

/-- A block of records decodes to itself. -/
theorem decodeBlock_blockOf (crc : List UInt8 → UInt32) {rs : List Record} (hs : Storable rs)
    (hn : rs.length ≤ u16Max) : decodeBlock crc (encoded crc rs) = .ok (blockOf rs) := by
  have hc := checkOffsets_offsetsFrom (o := 0)
    (fun r hr => checkRecordRange_wireLen (hs.encodable r hr)) (by simpa using hs.fits)
  rw [Nat.zero_add, ← length_flatMap_wire] at hc
  rw [encoded, decodeBlock_body crc (by simpa [blockOf] using hn)]
  exact congrArg (Except.map fun _ => blockOf rs) hc

/-! ## Cursors -/

/-- The cursor over the block of `rs` that stands on record `j`, if there is
one. -/
def cursorAt (rs : List Record) (j : Nat) : BlockCursor :=
  { block := blockOf rs, offsetIdx := j, record := .ok rs[j]? }

theorem size_take_succ {rs : List Record} {i : Nat} {r : Record} (hi : rs[i]? = some r) :
    size (rs.take (i + 1)) = size (rs.take i) + r.wireLen := by
  rw [← length_flatMap_wire, length_flatMap_take_succ hi, length_flatMap_wire, length_wire]

section Cursor

variable {rs : List Record} (hs : Storable rs)
include hs

theorem toNat_offsetAt (i : Nat) : (UInt16.ofNat (0 + size (rs.take i))).toNat = size (rs.take i) := by
  rw [Nat.zero_add, toNat_offset ((size_take_le rs i).trans hs.fits)]

theorem recordEnd_blockOf (i : Nat) : (blockOf rs).recordEnd i = size (rs.take (i + 1)) := by
  unfold Block.recordEnd
  simp only [blockOf, getElem?_offsetsFrom]
  cases hn : rs[i + 1]? with
  | some r' => exact toNat_offsetAt hs (i + 1)
  | none =>
    rw [List.take_of_length_le (List.getElem?_eq_none_iff.mp hn)]
    exact length_flatMap_wire rs

theorem updateCurrent_blockOf {c : BlockCursor} (hc : c.block = blockOf rs) :
    c.updateCurrent = some (cursorAt rs c.offsetIdx) := by
  obtain ⟨block, j, record⟩ := c
  simp only at hc
  subst hc
  have hoff : (blockOf rs).offsets[j]? = rs[j]?.map fun _ => UInt16.ofNat (0 + size (rs.take j)) :=
    getElem?_offsetsFrom 0 rs j
  unfold BlockCursor.updateCurrent
  simp only [hoff]
  cases hj : rs[j]? with
  | none => simp [cursorAt, hj]
  | some r =>
    have hslice : slice (blockOf rs).data (size (rs.take j)) (size (rs.take (j + 1))) =
        some (wire r) := by
      rw [blockOf, flatMap_around hj]
      exact slice_append (length_flatMap_wire _).symm
        (by rw [size_take_succ hj, length_flatMap_wire, length_wire])
    have hdec := decodeRecord_wire (hs.encodable r (List.mem_of_getElem? hj)) []
    rw [List.append_nil] at hdec
    simp only [Option.map_some, toNat_offsetAt hs j, recordEnd_blockOf hs, hslice]
    simp [hdec, cursorAt, hj, Except.map]

theorem seekToFirst_blockOf : (BlockCursor.new (blockOf rs)).seekToFirst = some (cursorAt rs 0) :=
  updateCurrent_blockOf hs rfl

theorem next_cursorAt (j : Nat) : (cursorAt rs j).next = some (cursorAt rs (j + 1)) :=
  updateCurrent_blockOf hs rfl

/-- The search of `seek` compares the records' keys. -/
theorem compareAt_blockOf (k : Key) {i : Nat} {r : Record} (hi : rs[i]? = some r) :
    BlockCursor.compareAt (blockOf rs) k i = .ok (compare r.key k) := by
  have hslice : slice (blockOf rs).data (size (rs.take i)) (size (rs.take i) + keySize) =
      some r.key.toBeBytes := by
    rw [blockOf, flatMap_around hi, wire, List.append_assoc]
    exact slice_append (length_flatMap_wire _).symm
      (by rw [length_flatMap_wire, length_toBeBytes])
  have hoff : (blockOf rs).offsets[i]? = some (UInt16.ofNat (0 + size (rs.take i))) := by
    rw [blockOf, getElem?_offsetsFrom, hi, Option.map_some]
  have hdec := decodeKey_toBeBytes r.key []
  rw [List.append_nil] at hdec
  unfold BlockCursor.compareAt
  simp only [hoff, Outcome.expect, Outcome.bind_ok, toNat_offsetAt hs i, hslice, hdec,
    Outcome.ofExcept_ok, Outcome.pure_eq]

/-- Seeking in ascending records stands on the first one not below the key. -/
theorem seek_blockOf (hasc : rs.Pairwise fun a b => a.key < b.key) {c : BlockCursor}
    (hc : c.block = blockOf rs) (k : Key) :
    ∃ j, c.seek k = some (cursorAt rs j) ∧ (∀ r ∈ rs.take j, r.key < k) ∧
      ∀ r ∈ rs.drop j, k ≤ r.key := by
  have hM : binarySearchM (BlockCursor.compareAt c.block k) c.block.offsets.length =
      .ok (searchList rs fun r => compare r.key k) := by
    rw [hc, show (blockOf rs).offsets.length = rs.length from length_offsetsFrom 0 rs]
    refine binarySearchM_eq fun i hi => ?_
    have hi := List.getElem?_eq_getElem hi
    rw [compareAt_blockOf hs k hi]
    simp only [hi]
  have hspec := searchList_spec (hasc.imp le_of_lt) k
  rw [BlockCursor.seek, hM]
  cases hsr : searchList rs fun r => compare r.key k with
  | ok i =>
    rw [hsr] at hspec
    obtain ⟨⟨a, hi, rfl⟩, hafter⟩ := hspec
    obtain ⟨hlt, rfl⟩ := List.getElem?_eq_some_iff.mp hi
    refine ⟨i, updateCurrent_blockOf hs hc, fun r hr => ?_, fun r hr => ?_⟩
    · rw [← List.take_append_drop i rs, ← List.getElem_cons_drop hlt] at hasc
      exact (List.pairwise_append.mp hasc).2.2 r hr _ List.mem_cons_self
    · rw [← List.getElem_cons_drop hlt, List.mem_cons] at hr
      rcases hr with rfl | hr
      · exact le_rfl
      · exact (hafter r hr).le
  | error i =>
    rw [hsr] at hspec
    exact ⟨i, updateCurrent_blockOf hs hc, hspec.2.1, fun r hr => (hspec.2.2 r hr).le⟩

/-- Placing a cursor at a start bound stands on the first record inside it. -/
theorem seekStart_blockOf (hasc : rs.Pairwise fun a b => a.key < b.key) (lo : Bound Key) :
    ∃ j, SstCursor.seekStart (BlockCursor.new (blockOf rs)) lo = some (cursorAt rs j) ∧
      (∀ r ∈ rs.take j, ¬ lo.startOk r.key) ∧ ∀ r ∈ rs.drop j, lo.startOk r.key := by
  cases lo with
  | unbounded => exact ⟨0, seekToFirst_blockOf hs, by simp, fun _ _ => trivial⟩
  | included k =>
    obtain ⟨j, hj, hb, ha⟩ := seek_blockOf hs hasc (c := BlockCursor.new (blockOf rs)) rfl k
    exact ⟨j, hj, fun r hr => not_le.mpr (hb r hr), ha⟩
  | excluded k =>
    obtain ⟨j, hj, hb, ha⟩ := seek_blockOf hs hasc (c := BlockCursor.new (blockOf rs)) rfl k
    have hcur : (cursorAt rs j).currentRecord = rs[j]? := rfl
    simp only [SstCursor.seekStart, hj, Option.bind_eq_bind, Option.bind_some, hcur]
    by_cases hk : some k = rs[j]?.map Record.key
    · -- The cursor stands on the excluded key itself and steps over it.
      obtain ⟨a, haj, hak⟩ := Option.map_eq_some_iff.mp hk.symm
      obtain ⟨hlt, rfl⟩ := List.getElem?_eq_some_iff.mp haj
      rw [if_pos hk, next_cursorAt hs]
      rw [← List.take_append_drop j rs, ← List.getElem_cons_drop hlt] at hasc
      refine ⟨j + 1, rfl, fun r hr => ?_, fun r hr => ?_⟩
      · rw [List.take_succ_eq_append_getElem hlt, List.mem_append, List.mem_singleton] at hr
        rcases hr with hr | rfl
        · exact not_lt.mpr (hb r hr).le
        · exact not_lt.mpr hak.le
      · exact hak ▸ List.rel_of_pairwise_cons (List.pairwise_append.mp hasc).2.1 hr
    · rw [if_neg hk]
      refine ⟨j, rfl, fun r hr => not_lt.mpr (hb r hr).le, fun r hr => ?_⟩
      -- Only the first record from `j` on could have the key itself.
      refine lt_of_le_of_ne (ha r hr) fun hkr => hk ?_
      have hlt : j < rs.length := by
        rw [← not_le]
        exact fun hle => by simp [List.drop_eq_nil_of_le hle] at hr
      rw [List.getElem?_eq_getElem hlt]
      rw [← List.take_append_drop j rs, ← List.getElem_cons_drop hlt] at hasc
      rw [← List.getElem_cons_drop hlt] at hr ha
      rcases List.mem_cons.mp hr with rfl | hr
      · rw [hkr, Option.map_some]
      · have := List.rel_of_pairwise_cons (List.pairwise_append.mp hasc).2.1 hr
        exact absurd (hkr ▸ this) (not_lt.mpr (ha _ List.mem_cons_self))

end Cursor

end LG.Proof.Tsdb
