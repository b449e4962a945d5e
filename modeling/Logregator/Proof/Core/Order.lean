import Logregator.Proof.Core.Query

/-!
# The order of records and the documented one

Bytes of two's complement numbers compare as the numbers do when both have the
same sign, and the other way round when they do not (`then_i64Bytes_iff`). So
records compare as documented exactly when the fields up to the first that
differs have the same signs (`record_cmp_iff`).
-/

namespace LG.Proof.Core

open LG.Impl.Core LG.Impl.Core.Record LG.Spec.Core

theorem ordCmp_congr {α β : Type} [LinearOrder α] [LinearOrder β] {a b : α} {c d : β}
    (hlt : a < b ↔ c < d) (heq : a = b ↔ c = d) : ordCmp a b = ordCmp c d := by
  simp only [ordCmp, compareOfLessAndEq, hlt, heq]

theorem ordCmp_u64Bytes (x y : UInt64) : ordCmp (u64Bytes x) (u64Bytes y) = ordCmp x y :=
  ordCmp_congr u64Bytes_lt_iff u64Bytes_inj

theorem neg_iff_rank (x : Int64) : x < 0 ↔ 2 ^ 63 ≤ rank x := by
  have hx := rank_lt x
  rw [Int64.lt_iff_toInt_lt, show (0 : Int64).toInt = 0 by decide, toInt_eq_rank]
  split_ifs <;> omega

/-- Numbers of one sign are ordered as their bytes are. -/
theorem toInt_lt_iff_rank {x y : Int64} (h : x < 0 ↔ y < 0) :
    x.toInt < y.toInt ↔ rank x < rank y := by
  have hx := rank_lt x
  have hy := rank_lt y
  rw [neg_iff_rank, neg_iff_rank] at h
  rw [toInt_eq_rank, toInt_eq_rank]
  split_ifs <;> omega

/-- Numbers of two signs are ordered the other way round. -/
theorem toInt_lt_iff_rank_gt {x y : Int64} (h : ¬ (x < 0 ↔ y < 0)) :
    x.toInt < y.toInt ↔ rank y < rank x := by
  have hx := rank_lt x
  have hy := rank_lt y
  rw [neg_iff_rank, neg_iff_rank] at h
  rw [toInt_eq_rank, toInt_eq_rank]
  split_ifs <;> omega

/-- Comparing by bytes first, and by numbers first. -/
theorem then_i64Bytes_iff {x y : Int64} {o o' : Ordering} :
    (ordCmp (i64Bytes x) (i64Bytes y)).then o = (ordCmp x.toInt y.toInt).then o' ↔
      (x < 0 ↔ y < 0) ∧ (x = y → o = o') := by
  by_cases h : x < 0 ↔ y < 0
  · have hcmp : ordCmp (i64Bytes x) (i64Bytes y) = ordCmp x.toInt y.toInt :=
      ordCmp_congr (i64Bytes_lt_iff.trans (toInt_lt_iff_rank h).symm)
        (i64Bytes_inj.trans Int64.toInt_inj.symm)
    rw [hcmp, and_iff_right h, ← Int64.toInt_inj]
    cases hord : ordCmp x.toInt y.toInt with
    | eq => simp [ordCmp_eq_eq.mp hord]
    | lt => simp [(ordCmp_eq_lt.mp hord).ne]
    | gt => simp [(ordCmp_eq_gt.mp hord).ne']
  · -- One is negative: it comes first as a number, and last as bytes.
    have hgt : y.toInt < x.toInt ↔ rank x < rank y := toInt_lt_iff_rank_gt fun hs => h hs.symm
    refine iff_of_false (fun heq => ?_) fun hs => h hs.1
    rcases lt_trichotomy (rank x) (rank y) with hlt | hrank | hlt
    · rw [ordCmp_eq_lt.mpr (i64Bytes_lt_iff.mpr hlt), ordCmp_eq_gt.mpr (hgt.mpr hlt)] at heq
      cases heq
    · exact h (rank_inj hrank ▸ Iff.rfl)
    · rw [ordCmp_eq_gt.mpr (i64Bytes_lt_iff.mpr hlt),
        ordCmp_eq_lt.mpr ((toInt_lt_iff_rank_gt h).mpr hlt)] at heq
      cases heq

/-- Records made from their parts compare as documented exactly when their
sources have the same sign, and their times too if the sources are equal. -/
theorem record_cmp_iff {s s' ts ts' : Int64} {seq seq' : UInt64} {k k' v v' : List UInt8}
    (hk : k.length < 2 ^ 32) (hk' : k'.length < 2 ^ 32) :
    (fromRawParts s ts seq k v).cmp (fromRawParts s' ts' seq' k' v') =
        some (ordCmp (logicalKey s ts seq k) (logicalKey s' ts' seq' k')) ↔
      (s < 0 ↔ s' < 0) ∧ (s = s' → (ts < 0 ↔ ts' < 0)) := by
  rw [cmp_eq (comparable_parts _ _ _ _ _) (comparable_parts _ _ _ _ _), orderKey_parts,
    orderKey_parts, take_mod hk, take_mod hk', logicalKey, logicalKey, Option.some_inj]
  simp only [ordCmp_toLex, then_i64Bytes_iff, ordCmp_u64Bytes, implies_true, and_true]

/-- The source -1 comes after the source 0. -/
theorem record_cmp_negative :
    (fromRawParts (-1) 0 0 [107] [118]).cmp (fromRawParts 0 0 0 [107] [118]) = some .gt ∧
      ordCmp (logicalKey (-1) 0 0 [107]) (logicalKey 0 0 0 [107]) = .lt := by
  decide +kernel

theorem record_cmp_iff_equal :
    (fromRawParts 1 (-2) 0 [107] []).cmp (fromRawParts 1 (-1) 0 [107] []) =
      some (ordCmp (logicalKey 1 (-2) 0 [107]) (logicalKey 1 (-1) 0 [107])) :=
  (record_cmp_iff (by decide) (by decide)).mpr (by decide)

end LG.Proof.Core
