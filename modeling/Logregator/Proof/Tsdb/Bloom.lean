import Logregator.Impl.Tsdb.Bloom
import Mathlib.Data.Nat.Bitwise

/-!
# The bloom filter has no false negatives

Setting a bit keeps the bits that are set (`has_setBit`), so a stream id
answers `true` from its insertion on (`mayContain_insert`). A filter with a
bitmap for all its bits takes every stream id (`insert_roomy`), so any number
of them can be inserted, and all are found (`foldlM_insert`).
-/

namespace LG.Proof.Tsdb

open LG.Impl.Tsdb LG.Impl.Tsdb.BloomFilter

/-- The bit is set. -/
def Has (bitmap : List UInt8) (pos : Nat) : Prop := getBit bitmap pos = some true

theorem bit_eq_testBit (b : UInt8) {i : Nat} (hi : i < 8) :
    ((b >>> UInt8.ofNat i) &&& 1 == 1) = b.toNat.testBit i := by
  have hmod : (UInt8.ofNat i).toNat % 8 = i := by
    rw [UInt8.toNat_ofNat']
    omega
  have hnat : ((b >>> UInt8.ofNat i) &&& 1).toNat = b.toNat >>> i % 2 := by
    rw [UInt8.toNat_and, UInt8.toNat_shiftRight, hmod]
    exact Nat.and_one_is_mod _
  rw [Nat.testBit_eq_decide_div_mod_eq, ← Nat.shiftRight_eq_div_pow, ← hnat, Bool.eq_iff_iff,
    beq_iff_eq, decide_eq_true_iff]
  constructor
  · intro h
    rw [h]
    rfl
  · intro h
    exact UInt8.toNat_inj.mp h

theorem testBit_one_shiftLeft {i j : Nat} (hi : i < 8) :
    ((1 : UInt8) <<< UInt8.ofNat i).toNat.testBit j = decide (i = j) := by
  have hmod : (UInt8.ofNat i).toNat % 8 = i := by
    rw [UInt8.toNat_ofNat']
    omega
  rw [UInt8.toNat_shiftLeft, hmod, show (1 : UInt8).toNat = 1 from rfl, Nat.one_shiftLeft,
    Nat.mod_eq_of_lt (Nat.pow_lt_pow_right (by decide) hi), Nat.testBit_two_pow]

theorem getBit_eq {bitmap : List UInt8} {b : UInt8} {pos : Nat} (hb : bitmap[pos / 8]? = some b) :
    getBit bitmap pos = some (b.toNat.testBit (pos % 8)) := by
  rw [getBit, hb, ← bit_eq_testBit b (Nat.mod_lt _ (by decide))]
  rfl

/-- Setting a bit sets it and keeps the others. -/
theorem has_setBit {bitmap bitmap' : List UInt8} {p : Nat} (h : setBit bitmap p = some bitmap') (q : Nat)
    (hq : q = p ∨ Has bitmap q) : Has bitmap' q := by
  unfold setBit at h
  obtain ⟨b, hb, h⟩ := Option.bind_eq_some_iff.mp h
  cases h
  obtain ⟨hlt, -⟩ := List.getElem?_eq_some_iff.mp hb
  by_cases hpq : q / 8 = p / 8
  · -- The same byte: its new bit, or one it had.
    have hset : (bitmap.set (p / 8) (b ||| 1 <<< UInt8.ofNat (p % 8)))[q / 8]? =
        some (b ||| 1 <<< UInt8.ofNat (p % 8)) := by
      rw [hpq, List.getElem?_set_self hlt]
    rw [Has, getBit_eq hset, UInt8.toNat_or, Nat.testBit_or,
      testBit_one_shiftLeft (Nat.mod_lt _ (by decide)), Option.some_inj, Bool.or_eq_true,
      decide_eq_true_iff]
    rcases hq with rfl | hq
    · exact .inr rfl
    · rw [Has, getBit_eq (hpq ▸ hb), Option.some_inj] at hq
      exact .inl hq
  · have hq : Has bitmap q := hq.resolve_left fun h => hpq (h ▸ rfl)
    rwa [Has, getBit, List.getElem?_set_ne (Ne.symm hpq)]

theorem has_foldlM_setBit : ∀ {ps : List Nat} {bitmap bitmap' : List UInt8},
    ps.foldlM setBit bitmap = some bitmap' → ∀ q, q ∈ ps ∨ Has bitmap q → Has bitmap' q
  | [], bitmap, bitmap', h, q, hq => by
    cases h
    simpa using hq
  | p :: ps, bitmap, bitmap', h, q, hq => by
    rw [List.foldlM_cons] at h
    obtain ⟨b, hb, h⟩ := Option.bind_eq_some_iff.mp h
    apply has_foldlM_setBit h q
    rw [List.mem_cons, or_assoc] at hq
    rcases hq with rfl | hq | hq
    · exact .inr (has_setBit hb q (.inl rfl))
    · exact .inl hq
    · exact .inr (has_setBit hb q (.inr hq))

theorem allSet_iff {bitmap : List UInt8} : ∀ {ps : List Nat},
    allSet bitmap ps = some true ↔ ∀ p ∈ ps, Has bitmap p
  | [] => by simp [allSet]
  | p :: ps => by
    rw [allSet, List.forall_mem_cons, ← allSet_iff, Has]
    rcases getBit bitmap p with _ | _ | _ <;> simp

variable {x : Externals} {f f' : BloomFilter} {s : UInt64}

theorem positions_insert (h : f.insert x s = some f') (t : UInt64) :
    f'.positions x t = f.positions x t := by
  obtain ⟨ps, -, h⟩ := Option.bind_eq_some_iff.mp h
  obtain ⟨bitmap, -, h⟩ := Option.bind_eq_some_iff.mp h
  cases h
  rfl

/-- An inserted stream id is found, and so are those found before. -/
theorem mayContain_insert (h : f.insert x s = some f') (t : UInt64)
    (ht : t = s ∨ f.mayContain x t = some true) : f'.mayContain x t = some true := by
  have hpos := positions_insert h t
  obtain ⟨ps, hps, h⟩ := Option.bind_eq_some_iff.mp h
  obtain ⟨bitmap, hset, h⟩ := Option.bind_eq_some_iff.mp h
  cases h
  have hset := has_foldlM_setBit hset
  rcases ht with rfl | ht
  · rw [mayContain, hpos, hps]
    exact allSet_iff.mpr fun p hp => hset p (.inl hp)
  · obtain ⟨qs, hqs, ht⟩ := Option.bind_eq_some_iff.mp ht
    rw [mayContain, hpos, hqs]
    exact allSet_iff.mpr fun p hp => hset p (.inr (allSet_iff.mp ht p hp))

/-! ## Room in the bitmap -/

theorem length_setBit {bitmap bitmap' : List UInt8} {p : Nat} (h : setBit bitmap p = some bitmap') :
    bitmap'.length = bitmap.length := by
  obtain ⟨b, -, h⟩ := Option.bind_eq_some_iff.mp h
  cases h
  exact List.length_set

theorem length_foldlM_setBit : ∀ {ps : List Nat} {bitmap bitmap' : List UInt8},
    ps.foldlM setBit bitmap = some bitmap' → bitmap'.length = bitmap.length
  | [], _, _, h => by
    cases h
    rfl
  | p :: ps, _, _, h => by
    rw [List.foldlM_cons] at h
    obtain ⟨_, hp, h⟩ := Option.bind_eq_some_iff.mp h
    exact (length_foldlM_setBit h).trans (length_setBit hp)

/-- An insertion keeps the size of the filter. -/
theorem size_insert (h : f.insert x s = some f') :
    f'.nBits = f.nBits ∧ f'.bitmap.length = f.bitmap.length := by
  obtain ⟨ps, -, h⟩ := Option.bind_eq_some_iff.mp h
  obtain ⟨bitmap, hset, h⟩ := Option.bind_eq_some_iff.mp h
  cases h
  exact ⟨rfl, length_foldlM_setBit hset⟩

/-- The bitmap holds the bits of the filter. -/
structure Roomy (f : BloomFilter) : Prop where
  bits : f.nBits ≠ 0
  room : f.nBits.toNat ≤ 8 * f.bitmap.length

theorem length_bitmap_new (x : Externals) (n : Nat) :
    (BloomFilter.new x n).bitmap.length = ((x.bloomSize n).1.toNat + 7) / 8 :=
  List.length_replicate ..

theorem exists_setBit {bitmap : List UInt8} {p : Nat} (hp : p < 8 * bitmap.length) :
    ∃ bitmap', setBit bitmap p = some bitmap' := by
  rw [setBit, List.getElem?_eq_getElem (show p / 8 < bitmap.length by omega)]
  exact ⟨_, rfl⟩

theorem exists_foldlM_setBit : ∀ {ps : List Nat} {bitmap : List UInt8},
    (∀ p ∈ ps, p < 8 * bitmap.length) → ∃ bitmap', ps.foldlM setBit bitmap = some bitmap'
  | [], bitmap, _ => ⟨bitmap, rfl⟩
  | p :: ps, bitmap, h => by
    obtain ⟨hp, hps⟩ := List.forall_mem_cons.mp h
    obtain ⟨bitmap', hset⟩ := exists_setBit hp
    rw [List.foldlM_cons, hset]
    exact exists_foldlM_setBit (length_setBit hset ▸ hps)

/-- The positions of a stream id are in the bitmap. -/
theorem positions_roomy (x : Externals) (hf : Roomy f) (s : UInt64) :
    ∃ ps, f.positions x s = some ps ∧ ∀ p ∈ ps, p < 8 * f.bitmap.length := by
  have hbits : 0 < f.nBits.toNat := Nat.pos_of_ne_zero fun h => hf.bits (UInt64.toNat_inj.mp h)
  refine ⟨_, if_neg fun h => hf.bits h.1, fun p hp => ?_⟩
  obtain ⟨i, -, rfl⟩ := List.mem_map.mp hp
  rw [UInt64.toNat_mod]
  exact (Nat.mod_lt _ hbits).trans_le hf.room

/-- Every stream id can be inserted in a filter with room for its bits. -/
theorem insert_roomy (x : Externals) (hf : Roomy f) (s : UInt64) :
    ∃ f', f.insert x s = some f' ∧ Roomy f' := by
  obtain ⟨ps, hps, hroom⟩ := positions_roomy x hf s
  obtain ⟨bitmap, hset⟩ := exists_foldlM_setBit hroom
  have hinsert : f.insert x s = some { f with bitmap := bitmap } := by
    rw [BloomFilter.insert, hps]
    simp [hset]
  obtain ⟨hn, hlen⟩ := size_insert hinsert
  exact ⟨_, hinsert, hn ▸ hf.bits, by rw [hn, hlen]; exact hf.room⟩

theorem exists_allSet {bitmap : List UInt8} : ∀ {ps : List Nat},
    (∀ p ∈ ps, p < 8 * bitmap.length) → ∃ b, allSet bitmap ps = some b
  | [], _ => ⟨true, rfl⟩
  | p :: ps, h => by
    obtain ⟨hp, hps⟩ := List.forall_mem_cons.mp h
    have hb := List.getElem?_eq_getElem (show p / 8 < bitmap.length by omega)
    rw [allSet, getBit_eq hb]
    cases bitmap[p / 8].toNat.testBit (p % 8) with
    | false => exact ⟨false, rfl⟩
    | true => exact exists_allSet hps

/-- Every stream id can be looked up in a filter with room for its bits. -/
theorem mayContain_roomy (x : Externals) (hf : Roomy f) (s : UInt64) :
    ∃ b, f.mayContain x s = some b := by
  obtain ⟨ps, hps, hroom⟩ := positions_roomy x hf s
  rw [mayContain, hps]
  exact exists_allSet hroom

/-! ## Runs -/

/-- The bitmap has a byte for every eight bits, as `BloomFilter::new` makes
it. -/
structure Sized (f : BloomFilter) : Prop where
  bits : f.nBits ≠ 0
  length : f.bitmap.length = (f.nBits.toNat + 7) / 8

theorem Sized.roomy (h : Sized f) : Roomy f := by
  refine ⟨h.bits, ?_⟩
  rw [h.length]
  omega

theorem sized_new {n : Nat} (h : (x.bloomSize n).1 ≠ 0) : Sized (BloomFilter.new x n) :=
  ⟨h, length_bitmap_new x n⟩

theorem roomy_new {n : Nat} (h : (x.bloomSize n).1 ≠ 0) : Roomy (BloomFilter.new x n) :=
  (sized_new h).roomy

theorem Sized.insert (hf : Sized f) (h : f.insert x s = some f') : Sized f' := by
  obtain ⟨hn, hlen⟩ := size_insert h
  exact ⟨hn ▸ hf.bits, by rw [hn, hlen]; exact hf.length⟩

/-- Any stream ids can be inserted one after the other; those found before and
those inserted are found in the end. -/
theorem foldlM_insert (hf : Sized f) (ids : List UInt64) :
    ∃ f', ids.foldlM (BloomFilter.insert x) f = some f' ∧ Sized f' ∧
      ∀ t, t ∈ ids ∨ f.mayContain x t = some true → f'.mayContain x t = some true := by
  induction ids generalizing f with
  | nil => exact ⟨f, rfl, hf, by simp⟩
  | cons s ids ih =>
    obtain ⟨g, hinsert, -⟩ := insert_roomy x hf.roomy s
    obtain ⟨f', hrun, hf', hfound⟩ := ih (hf.insert hinsert)
    refine ⟨f', ?_, hf', fun t ht => hfound t ?_⟩
    · rw [List.foldlM_cons, hinsert]
      exact hrun
    · rw [List.mem_cons, or_assoc] at ht
      rcases ht with ht | ht | ht
      · exact .inr (mayContain_insert hinsert t (.inl ht))
      · exact .inl ht
      · exact .inr (mayContain_insert hinsert t (.inr ht))

end LG.Proof.Tsdb
