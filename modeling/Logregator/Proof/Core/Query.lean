import Logregator.Proof.Core.MergeIter
import Logregator.Spec.Core.Log
import Mathlib.Tactic.SplitIfs

/-!
# Queries on records

Records made from their parts compare by the numbers their bytes encode
(`i64Bytes_lt_iff`), which for times from zero on is their order. So a query's
range of the memtable has the records of all inserts that the query asks for
(`between_of_wanted`), and a filtered iterator's checks are passed by the same
records (`inside_wants_iff`).
-/

namespace LG.Proof.Core

open LG.Impl.Core LG.Spec.Core

/-! ## The order of the bytes -/

/-- The number that the bytes of an `i64` encode. -/
def rank (x : Int64) : Nat := x.toUInt64.toNat

theorem toInt_eq_rank (x : Int64) :
    x.toInt = if 2 * rank x < 2 ^ 64 then (rank x : Int) else rank x - 2 ^ 64 :=
  BitVec.toInt_eq_toNat_cond x.toBitVec

theorem rank_lt (x : Int64) : rank x < 2 ^ 64 := x.toUInt64.toNat_lt

theorem ofBe_i64Bytes (x : Int64) : ofBe (i64Bytes x) = rank x :=
  ofBe_beBytes_of_lt (rank_lt x)

theorem ofBe_u64Bytes (x : UInt64) : ofBe (u64Bytes x) = x.toNat :=
  ofBe_beBytes_of_lt x.toNat_lt

theorem i64Bytes_lt_iff {x y : Int64} : i64Bytes x < i64Bytes y ↔ rank x < rank y := by
  rw [ofBe_lt_iff (by simp), ofBe_i64Bytes, ofBe_i64Bytes]

theorem rank_inj {x y : Int64} (h : rank x = rank y) : x = y := by
  rw [← Int64.toInt_inj, toInt_eq_rank, toInt_eq_rank, h]

theorem i64Bytes_inj {x y : Int64} : i64Bytes x = i64Bytes y ↔ x = y := by
  refine ⟨fun h => rank_inj ?_, fun h => h ▸ rfl⟩
  rw [← ofBe_i64Bytes, ← ofBe_i64Bytes, h]

theorem u64Bytes_inj {x y : UInt64} : u64Bytes x = u64Bytes y ↔ x = y := by
  refine ⟨fun h => UInt64.toNat_inj.mp ?_, fun h => h ▸ rfl⟩
  rw [← ofBe_u64Bytes, ← ofBe_u64Bytes, h]

theorem u64Bytes_lt_iff {x y : UInt64} : u64Bytes x < u64Bytes y ↔ x < y := by
  rw [ofBe_lt_iff (by simp), ofBe_u64Bytes, ofBe_u64Bytes, UInt64.lt_iff_toNat_lt]

theorem rank_le {st et : Int64} (h₀ : 0 ≤ st) (h : st ≤ et) : rank st ≤ rank et := by
  have hst := rank_lt st
  have het := rank_lt et
  rw [Int64.le_iff_toInt_le] at h₀ h
  rw [show (0 : Int64).toInt = 0 by decide] at h₀
  simp only [toInt_eq_rank] at h₀ h
  split_ifs at h₀ h <;> omega

/-- Between two times from zero on, times are ordered as their bytes are. -/
theorem time_iff {st ts et : Int64} (h₀ : 0 ≤ st) (h : st ≤ et) :
    (st ≤ ts ∧ ts < et) ↔ rank st ≤ rank ts ∧ rank ts < rank et := by
  have hts := rank_lt ts
  have hst := rank_lt st
  have het := rank_lt et
  rw [Int64.le_iff_toInt_le] at h₀ h ⊢
  rw [Int64.lt_iff_toInt_lt]
  rw [show (0 : Int64).toInt = 0 by decide] at h₀
  simp only [toInt_eq_rank] at h₀ h ⊢
  split_ifs at h₀ h ⊢ <;> omega

/-! ## What a query keeps -/

variable {q : Query} {i : Insert} {seq : Nat}

theorem fields_recordOf (seq : Nat) (i : Insert) : (Engine.recordOf seq i).extractAllFieldsRef =
    .ok { sourceId := i.sourceId, timestamp := i.ts, seqNum := UInt64.ofNat seq, key := i.key
          value := i.value } :=
  fields_parts _ _ _ i.key_lt i.value_lt

theorem comparable_recordOf (seq : Nat) (i : Insert) : (Engine.recordOf seq i).Comparable :=
  comparable_parts _ _ _ _ _

theorem orderKey_recordOf (seq : Nat) (i : Insert) : (Engine.recordOf seq i).orderKey =
    toLex (i64Bytes i.sourceId, toLex (i64Bytes i.ts, toLex (u64Bytes (UInt64.ofNat seq), i.key))) := by
  rw [Engine.recordOf, orderKey_parts, take_mod i.key_lt]

/-- An empty filter is in every value. -/
theorem passes_iff {value : List UInt8} : q.passes value = true ↔ q.filter <:+: value := by
  rw [Query.passes, Bool.or_eq_true, decide_eq_true_iff, List.isEmpty_iff]
  refine ⟨?_, .inr⟩
  rintro (h | h)
  · rw [h]
    exact List.nil_infix
  · exact h

theorem keeps_iff_wanted :
    IntoIterFiltered.keeps q (Engine.recordOf seq i) = true ↔ Wanted q i := by
  simp only [IntoIterFiltered.keeps, fields_recordOf, Wanted, Bool.and_eq_true, beq_iff_eq,
    decide_eq_true_iff, passes_iff]
  tauto

theorem wants_iff :
    wants q (Engine.recordOf seq i) = true ↔ i.key = q.key ∧ q.filter <:+: i.value := by
  simp only [wants, fields_recordOf, Bool.and_eq_true, beq_iff_eq, passes_iff]

/-- A record from a source and time on: the bound has the least sequence
number, so that the key matters at its own time and number only. -/
theorem bound_le_iff {s st : Int64} {k : List UInt8} :
    (Record.fromRawParts s st 0 k []).orderKey ≤ (Engine.recordOf seq i).orderKey ↔
      rank s < rank i.sourceId ∨ s = i.sourceId ∧ (rank st < rank i.ts ∨ st = i.ts ∧
        (0 < UInt64.ofNat seq ∨ 0 = UInt64.ofNat seq ∧ k.take (k.length % 2 ^ 32) ≤ i.key)) := by
  rw [orderKey_recordOf, orderKey_parts]
  simp only [Prod.Lex.toLex_le_toLex, i64Bytes_lt_iff, i64Bytes_inj, u64Bytes_lt_iff, u64Bytes_inj]

theorem lt_bound_iff {s et : Int64} {k : List UInt8} :
    (Engine.recordOf seq i).orderKey < (Record.fromRawParts s et 0 k []).orderKey ↔
      rank i.sourceId < rank s ∨ i.sourceId = s ∧ (rank i.ts < rank et ∨ i.ts = et ∧
        (UInt64.ofNat seq < 0 ∨ UInt64.ofNat seq = 0 ∧ i.key < k.take (k.length % 2 ^ 32))) := by
  rw [orderKey_recordOf, orderKey_parts]
  simp only [Prod.Lex.toLex_lt_toLex, i64Bytes_lt_iff, i64Bytes_inj, u64Bytes_lt_iff, u64Bytes_inj]

/-- The records of a query lie between the bounds that `clone_range` makes. -/
theorem between_of_wanted (seq : Nat) (h₀ : 0 ≤ q.startTs) (h : q.startTs ≤ q.endTs) (hw : Wanted q i) :
    (Record.fromRawParts q.sourceId q.startTs 0 [] []).orderKey ≤
        (Engine.recordOf seq i).orderKey ∧
      (Engine.recordOf seq i).orderKey <
        (Record.fromRawParts q.sourceId q.endTs 0 [] []).orderKey := by
  obtain ⟨hs, -, hst, het, -⟩ := hw
  obtain ⟨hlo, hhi⟩ := (time_iff h₀ h).mp ⟨hst, het⟩
  rw [bound_le_iff, lt_bound_iff]
  refine ⟨.inr ⟨hs.symm, ?_⟩, .inr ⟨hs, .inl hhi⟩⟩
  rcases Nat.lt_or_eq_of_le hlo with hlt | heq
  · exact .inl hlt
  · refine .inr ⟨rank_inj heq, ?_⟩
    rcases (UInt64.zero_le : 0 ≤ UInt64.ofNat seq).lt_or_eq with hpos | hzero
    · exact .inl hpos
    · exact .inr ⟨hzero, not_lt.mp (List.not_lt_nil _)⟩

/-- Between the bounds of a filtered iterator, a record with the query's key
has the query's source, and a time in its range. -/
theorem inside_iff (seq : Nat) (h₀ : 0 ≤ q.startTs) (h : q.startTs ≤ q.endTs) (hk : i.key = q.key) :
    ((Record.fromRawParts q.sourceId q.startTs 0 q.key []).orderKey ≤
        (Engine.recordOf seq i).orderKey ∧
      (Engine.recordOf seq i).orderKey <
        (Record.fromRawParts q.sourceId q.endTs 0 q.key []).orderKey) ↔
      i.sourceId = q.sourceId ∧ q.startTs ≤ i.ts ∧ i.ts < q.endTs := by
  have htake : q.key.take (q.key.length % 2 ^ 32) = i.key := by
    rw [← hk]
    exact take_mod i.key_lt
  rw [bound_le_iff, lt_bound_iff, htake, time_iff h₀ h]
  have hneg : ¬ UInt64.ofNat seq < 0 := UInt64.not_lt_zero
  have hor : 0 < UInt64.ofNat seq ∨ 0 = UInt64.ofNat seq :=
    (UInt64.zero_le : 0 ≤ UInt64.ofNat seq).lt_or_eq
  have hrank {x y : Int64} : x = y ↔ rank x = rank y := ⟨fun h => h ▸ rfl, rank_inj⟩
  simp only [hrank, le_refl, lt_irrefl, and_false, and_true, hneg, hor, or_false]
  omega

/-- The checks of a filtered iterator are those of the query. -/
theorem inside_wants_iff (seq : Nat) (h₀ : 0 ≤ q.startTs) (h : q.startTs ≤ q.endTs) :
    ((Record.fromRawParts q.sourceId q.startTs 0 q.key []).orderKey ≤
        (Engine.recordOf seq i).orderKey ∧
      (Engine.recordOf seq i).orderKey <
        (Record.fromRawParts q.sourceId q.endTs 0 q.key []).orderKey ∧
      wants q (Engine.recordOf seq i) = true) ↔ Wanted q i := by
  rw [wants_iff]
  constructor
  · intro ⟨hlo, hhi, hk, hf⟩
    obtain ⟨hs, ht⟩ := (inside_iff seq h₀ h hk).mp ⟨hlo, hhi⟩
    exact ⟨hs, hk, ht.1, ht.2, hf⟩
  · intro ⟨hs, hk, hst, het, hf⟩
    obtain ⟨hlo, hhi⟩ := (inside_iff seq h₀ h hk).mpr ⟨hs, hst, het⟩
    exact ⟨hlo, hhi, hk, hf⟩

end LG.Proof.Core
