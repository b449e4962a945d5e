import Logregator.Impl.Core.Record

/-!
# Facts about core records

The fields of a record made from its parts are the parts (`fields_parts`), its
order is that of their bytes (`orderKey_parts`), and it is one that can be
compared (`comparable_parts`). On records that can be compared, `cmp` is the
order of `orderKey` (`cmp_eq`), and sets of records do not panic
(`insert_comparable`, `extend_comparable`).
-/

namespace LG.Proof.Core

open LG.Impl.Core LG.Impl.Core.Record

/-! ## Parts -/

@[simp] theorem length_i64Bytes (x : Int64) : (i64Bytes x).length = 8 := length_beBytes _ _

@[simp] theorem length_u64Bytes (x : UInt64) : (u64Bytes x).length = 8 := length_beBytes _ _

theorem u64At_append (as bs : List UInt8) (x : UInt64) {i : Nat} (hi : as.length = i) :
    u64At (as ++ (u64Bytes x ++ bs)) i = x := by
  rw [u64At, List.drop_left' hi, List.take_left' (length_u64Bytes x), u64Bytes,
    ofBe_beBytes_of_lt (show x.toNat < 256 ^ 8 from x.toNat_lt), UInt64.ofNat_toNat]

theorem i64At_append (as bs : List UInt8) (x : Int64) {i : Nat} (hi : as.length = i) :
    i64At (as ++ (i64Bytes x ++ bs)) i = x := by
  rw [i64At, show i64Bytes x = u64Bytes x.toUInt64 from rfl, u64At_append as bs _ hi]
  exact Int64.toInt64_toUInt64 x

theorem u32At_append (as bs : List UInt8) (n : Nat) {i : Nat} (hi : as.length = i) :
    u32At (as ++ (beBytes 4 n ++ bs)) i = n % 2 ^ 32 := by
  rw [u32At, List.drop_left' hi, List.take_left' (length_beBytes 4 n), ofBe_beBytes,
    show (256 : Nat) ^ 4 = 2 ^ 32 by decide]

variable (s ts : Int64) (seq : UInt64) (k v : List UInt8)

theorem bytes_parts : (fromRawParts s ts seq k v).bytes =
    i64Bytes s ++ (i64Bytes ts ++ (u64Bytes seq ++ (beBytes 4 k.length ++ (k ++
      (beBytes 4 v.length ++ v))))) := by
  simp only [fromRawParts, List.append_assoc]

theorem length_parts : (fromRawParts s ts seq k v).bytes.length = 32 + k.length + v.length := by
  simp only [fromRawParts, List.length_append, length_i64Bytes, length_u64Bytes, length_beBytes]
  omega

theorem keyLen_parts : u32At (fromRawParts s ts seq k v).bytes 24 = k.length % 2 ^ 32 := by
  rw [bytes_parts, ← List.append_assoc, ← List.append_assoc]
  exact u32At_append _ _ _ (by simp)

/-- Records made from their parts can be compared, whatever the key. -/
theorem comparable_parts : (fromRawParts s ts seq k v).Comparable := by
  have hmod := Nat.mod_le k.length (2 ^ 32)
  rw [Comparable, extractKey, keyLen_parts, length_parts, if_neg (by omega), if_neg (by omega)]
  rfl

theorem seqNum_parts : (fromRawParts s ts seq k v).extractSeqNum = .ok seq := by
  rw [extractSeqNum, length_parts, if_neg (by omega), bytes_parts, ← List.append_assoc,
    u64At_append _ _ _ (by simp)]

/-- The key of a record is as much of its key as the length says. -/
theorem key_parts : (fromRawParts s ts seq k v).extractKey = .ok (k.take (k.length % 2 ^ 32)) := by
  have hmod := Nat.mod_le k.length (2 ^ 32)
  rw [extractKey, keyLen_parts, length_parts, if_neg (by omega), if_neg (by omega), bytes_parts,
    ← List.append_assoc, ← List.append_assoc, ← List.append_assoc, List.drop_left' (by simp),
    List.take_append_of_le_length hmod]

theorem orderKey_parts : (fromRawParts s ts seq k v).orderKey =
    toLex (i64Bytes s, toLex (i64Bytes ts, toLex (u64Bytes seq, k.take (k.length % 2 ^ 32)))) := by
  rw [orderKey, key_parts, bytes_parts, List.take_left' (length_i64Bytes s),
    List.drop_left' (length_i64Bytes s), List.take_left' (length_i64Bytes ts),
    ← List.append_assoc (i64Bytes s), List.drop_left' (by simp),
    List.take_left' (length_u64Bytes seq)]
  rfl

variable {k v}

theorem take_mod {k : List UInt8} (hk : k.length < 2 ^ 32) : k.take (k.length % 2 ^ 32) = k := by
  rw [Nat.mod_eq_of_lt hk, List.take_length]

/-- The fields of a record are its parts. -/
theorem fields_parts (hk : k.length < 2 ^ 32) (hv : v.length < 2 ^ 32) :
    (fromRawParts s ts seq k v).extractAllFieldsRef =
      .ok { sourceId := s, timestamp := ts, seqNum := seq, key := k, value := v } := by
  have hs : i64At (fromRawParts s ts seq k v).bytes 0 = s := by
    rw [bytes_parts]
    exact i64At_append [] _ _ rfl
  have hts : i64At (fromRawParts s ts seq k v).bytes 8 = ts := by
    rw [bytes_parts]
    exact i64At_append _ _ _ (by simp)
  have hseq : u64At (fromRawParts s ts seq k v).bytes 16 = seq := by
    rw [bytes_parts, ← List.append_assoc]
    exact u64At_append _ _ _ (by simp)
  have hkey : ((fromRawParts s ts seq k v).bytes.drop 28).take k.length = k := by
    rw [bytes_parts, ← List.append_assoc, ← List.append_assoc, ← List.append_assoc,
      List.drop_left' (by simp), List.take_left' rfl]
  have hlen : u32At (fromRawParts s ts seq k v).bytes (28 + k.length) = v.length := by
    rw [bytes_parts, ← List.append_assoc, ← List.append_assoc, ← List.append_assoc,
      ← List.append_assoc, u32At_append _ _ _ (by simp; omega), Nat.mod_eq_of_lt hv]
  have hval : ((fromRawParts s ts seq k v).bytes.drop (32 + k.length)).take v.length = v := by
    rw [bytes_parts, ← List.append_assoc, ← List.append_assoc, ← List.append_assoc,
      ← List.append_assoc, ← List.append_assoc, List.drop_left' (by simp; omega),
      List.take_of_length_le (le_refl _)]
  rw [extractAllFieldsRef, keyLen_parts, length_parts, Nat.mod_eq_of_lt hk, if_neg (by omega),
    if_neg (by omega)]
  simp only
  rw [hlen, if_neg (by omega), if_neg (by omega), if_neg (by omega), hs, hts, hseq, hkey, hval]

/-! ## Order -/

theorem slice_eq {bs : List UInt8} {i j : Nat} (hij : i ≤ j) (h : j ≤ bs.length) :
    slice bs i j = some ((bs.drop i).take (j - i)) := by
  rw [slice, if_pos ⟨hij, h⟩]

theorem Comparable.length {r : Record} (h : r.Comparable) : 28 ≤ r.bytes.length := by
  rw [Comparable, extractKey] at h
  split at h
  · cases h
  · omega

/-- Comparing pairs is comparing their components in turn. -/
theorem ordCmp_toLex {α β : Type} [LinearOrder α] [LinearOrder β] (a c : α) (b d : β) :
    ordCmp (toLex (a, b)) (toLex (c, d)) = (ordCmp a c).then (ordCmp b d) := by
  simp only [ordCmp, compareOfLessAndEq, Prod.Lex.toLex_lt_toLex, EmbeddingLike.apply_eq_iff_eq,
    Prod.mk.injEq]
  rcases lt_trichotomy a c with h | rfl | h
  · simp [h, h.ne]
  · simp only [lt_irrefl, false_or, true_and, if_true, if_false]
    rfl
  · simp [h.not_gt, h.ne']

/-- Comparing records that can be compared. -/
theorem cmp_eq {a b : Record} (ha : a.Comparable) (hb : b.Comparable) :
    a.cmp b = some (ordCmp a.orderKey b.orderKey) := by
  have hla := Comparable.length ha
  have hlb := Comparable.length hb
  obtain ⟨ka, hka⟩ := Option.isSome_iff_exists.mp ha
  obtain ⟨kb, hkb⟩ := Option.isSome_iff_exists.mp hb
  rw [orderKey, orderKey, ordCmp_toLex, ordCmp_toLex,
    ordCmp_toLex, Record.cmp, slice_eq (by omega) (by omega),
    slice_eq (by omega) (by omega), slice_eq (by omega) (by omega), slice_eq (by omega) (by omega),
    slice_eq (by omega) (by omega), slice_eq (by omega) (by omega), hka, hkb]
  rfl

theorem ordCmp_eq_lt {κ : Type} [LinearOrder κ] {a b : κ} : ordCmp a b = .lt ↔ a < b := by
  rw [ordCmp, compareOfLessAndEq]
  split
  · simp [*]
  · split <;> simp [*]

theorem ordCmp_eq_eq {κ : Type} [LinearOrder κ] {a b : κ} : ordCmp a b = .eq ↔ a = b := by
  rw [ordCmp, compareOfLessAndEq]
  split
  · rename_i h
    simp [h.ne]
  · split <;> simp [*]

theorem ordCmp_eq_gt {κ : Type} [LinearOrder κ] {a b : κ} : ordCmp a b = .gt ↔ b < a := by
  rw [ordCmp, compareOfLessAndEq]
  split
  · rename_i h
    simp [h.le]
  · rename_i h
    split
    · simp [*]
    · rename_i hne
      exact iff_of_true rfl (lt_of_le_of_ne (not_lt.mp h) (Ne.symm hne))

/-! ## Sets of records -/

theorem insert_comparable {set : RecordSet} (hset : ∀ q ∈ set.elems, q.Comparable) {r : Record}
    (hr : r.Comparable) : RecordSet.insert set r = some (OrdSet.insert set r) := by
  rw [RecordSet.insert, if_pos (.inr ⟨hr, hset⟩)]

theorem extend_comparable : ∀ {rs : List Record} {set : RecordSet},
    (∀ q ∈ set.elems, q.Comparable) → (∀ r ∈ rs, r.Comparable) →
    RecordSet.extend set rs = some (OrdSet.extend set rs)
  | [], _, _, _ => rfl
  | r :: rs, set, hset, hrs => by
    obtain ⟨hr, hrs⟩ := List.forall_mem_cons.mp hrs
    rw [RecordSet.extend, insert_comparable hset hr]
    refine extend_comparable (fun q hq => ?_) hrs
    rcases OrdSet.mem_insert hq with rfl | hq
    · exact hr
    · exact hset q hq

end LG.Proof.Core
