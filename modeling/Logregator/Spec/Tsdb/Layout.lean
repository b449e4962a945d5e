import Logregator.Framework.OrdSet
import Logregator.Impl.Tsdb.Block

/-!
# How records lie in a table

What an SSTable is for: a list of records, cut into blocks. `pack limit`
says where the cuts are: a record joins the current block unless the block
would outgrow the limit. A cursor of the table stands on a record of a block;
what it shows from there is the rest of that block and then the blocks that
start inside its end bound (`reach`).
-/

namespace LG.Spec.Tsdb

open LG.Impl.Tsdb

/-- The bytes of the records on the wire. -/
def size (rs : List Record) : Nat := (rs.map Record.wireLen).sum

/-- The size of a block of `rs` and `r`, without its checksum. -/
def sizeWith (rs : List Record) (r : Record) : Nat :=
  size rs + r.wireLen + (rs.length + 1) * szU16 + szU16

/-- `r` does not join the block `rs`: it is over the limit and not alone, or
over what any block may hold. -/
def Full (limit : Nat) (rs : List Record) (r : Record) : Prop :=
  rs ≠ [] ∧ limit < sizeWith rs r ∨ maxBlockSize < sizeWith rs r

instance (limit : Nat) (rs : List Record) (r : Record) : Decidable (Full limit rs r) :=
  inferInstanceAs (Decidable (_ ∨ _))

/-- Adds a record to finished blocks and the current one. -/
def place (limit : Nat) : List (List Record) × List Record → Record → List (List Record) × List Record
  | (done, cur), r => if Full limit cur r then (done ++ [cur], [r]) else (done, cur ++ [r])

/-- The blocks of a list of records. -/
def pack (limit : Nat) (rs : List Record) : List (List Record) :=
  let p := rs.foldl (place limit) ([], [])
  p.1 ++ [p.2]

/-- The size of a block of the records, without its checksum. -/
def blockSize (rs : List Record) : Nat := size rs + rs.length * szU16 + szU16

/-- The block `cur` after the records are offered to it in turn: it takes
those it is not full for. -/
def joined (limit : Nat) : List Record → List Record → List Record
  | cur, [] => cur
  | cur, r :: rs => joined limit (if Full limit cur r then cur else cur ++ [r]) rs

/-- A block starts inside the end bound. -/
def StartsIn (hi : Bound Key) (b : List Record) : Prop := ∀ r ∈ b.head?, hi.endOk r.key

instance (hi : Bound Key) (b : List Record) : Decidable (StartsIn hi b) :=
  inferInstanceAs (Decidable (∀ r ∈ b.head?, hi.endOk r.key))

/-- The records of the blocks up to the first that does not start inside the
end bound. -/
def reach (hi : Bound Key) (blocks : List (List Record)) : List Record :=
  (blocks.takeWhile fun b => StartsIn hi b).flatten

/-- The block where a search for a stream ends: the last block that ends in
the stream or, if none does, the first that ends in a later one. -/
def startBlock (s : UInt64) (blocks : List (List Record)) : Nat :=
  let upTo := blocks.takeWhile fun b => ∀ r ∈ b.getLast?, r.key.streamId ≤ s
  if (upTo.getLast?.bind List.getLast?).map (fun r => r.key.streamId) = some s then upTo.length - 1
  else upTo.length

/-- The block where a cursor with the start bound starts. -/
def entry (lo : Bound Key) (blocks : List (List Record)) : Nat :=
  match lo with
  | .included k | .excluded k => startBlock k.streamId blocks
  | .unbounded => 0

/-- A record lies within both bounds. -/
def InBounds (lo hi : Bound Key) (r : Record) : Prop := lo.startOk r.key ∧ hi.endOk r.key

/-- No record within the bounds lies before the block where a cursor
starts. -/
def NothingBefore (lo hi : Bound Key) (blocks : List (List Record)) : Prop :=
  ∀ b ∈ blocks.take (entry lo blocks), ∀ r ∈ b, ¬ InBounds lo hi r

/-- The block where a cursor starts has a record inside the start bound. -/
def EntryHolds (lo : Bound Key) (blocks : List (List Record)) : Prop :=
  ∃ b ∈ blocks[entry lo blocks]?, ∃ r ∈ b, lo.startOk r.key

/-- No record within the bounds lies after the block where a cursor
starts. -/
def NothingAfter (lo hi : Bound Key) (blocks : List (List Record)) : Prop :=
  ∀ b ∈ blocks.drop (entry lo blocks + 1), ∀ r ∈ b, ¬ InBounds lo hi r

/-- From the start bound on, the block where a cursor starts stays inside the
end bound. -/
def EntryEndsInside (lo hi : Bound Key) (blocks : List (List Record)) : Prop :=
  ∀ b ∈ blocks[entry lo blocks]?, ∀ r ∈ b, lo.startOk r.key → hi.endOk r.key

/-- The later blocks that start inside the end bound hold only records that
satisfy `p`. -/
def LaterBlocks (lo hi : Bound Key) (blocks : List (List Record)) (p : Record → Prop) : Prop :=
  ∀ b ∈ blocks.drop (entry lo blocks + 1), StartsIn hi b → ∀ r ∈ b, p r

/-- The keys ascend over all blocks. -/
def Ascending (blocks : List (List Record)) : Prop :=
  blocks.flatten.Pairwise fun a b => a.key < b.key

/-- Where a search for a key ends: on the record with the least key that is
not below it, or on none if there is no such record. -/
def Least (k : Key) (rs : List Record) : Option Record → Prop
  | some r => r ∈ rs ∧ k ≤ r.key ∧ ∀ q ∈ rs, k ≤ q.key → r.key ≤ q.key
  | none => ∀ q ∈ rs, q.key < k

/-! ## Sizes -/

@[simp] theorem size_nil : size [] = 0 := rfl

@[simp] theorem size_cons (r : Record) (rs : List Record) :
    size (r :: rs) = r.wireLen + size rs := by simp [size]

@[simp] theorem size_append (rs rs' : List Record) : size (rs ++ rs') = size rs + size rs' := by
  simp [size]

theorem size_take_le (rs : List Record) (i : Nat) : size (rs.take i) ≤ size rs := by
  have := size_append (rs.take i) (rs.drop i)
  rw [List.take_append_drop] at this
  omega

theorem sizeWith_eq (rs : List Record) (r : Record) : sizeWith rs r = blockSize (rs ++ [r]) := by
  simp [sizeWith, blockSize]

theorem blockSize_le_append (rs rs' : List Record) : blockSize rs ≤ blockSize (rs ++ rs') := by
  simp only [blockSize, size_append, List.length_append, szU16]
  omega

/-- A record joins a block exactly when the two fit the limit, or the record
is alone, and fit a block. -/
theorem not_full_iff {limit : Nat} {rs : List Record} {r : Record} :
    ¬ Full limit rs r ↔
      (rs = [] ∨ blockSize (rs ++ [r]) ≤ limit) ∧ blockSize (rs ++ [r]) ≤ maxBlockSize := by
  rw [Full, sizeWith_eq, not_or, not_and_or, not_not, not_lt, not_lt]

/-- What holds of a block that records joined: it is no larger than a block
may be, and with more than one record no larger than the limit. -/
structure Limited (limit : Nat) (rs : List Record) : Prop where
  max : rs ≠ [] → blockSize rs ≤ maxBlockSize
  limit : 1 < rs.length → blockSize rs ≤ limit

theorem limited_nil (limit : Nat) : Limited limit [] := ⟨fun h => absurd rfl h, by simp⟩

theorem joined_limited {limit : Nat} : ∀ {rs cur : List Record}, Limited limit cur →
    Limited limit (joined limit cur rs)
  | [], _, h => h
  | r :: rs, cur, h => by
    rw [joined]
    split
    · exact joined_limited h
    · rename_i hf
      obtain ⟨hlimit, hmax⟩ := not_full_iff.mp hf
      refine joined_limited ⟨fun _ => hmax, fun hlen => hlimit.resolve_left ?_⟩
      rintro rfl
      simp at hlen

/-- Records that fit the limit and a block all join it. -/
theorem joined_of_fits {limit : Nat} : ∀ {rs cur : List Record},
    blockSize (cur ++ rs) ≤ limit → blockSize (cur ++ rs) ≤ maxBlockSize →
    joined limit cur rs = cur ++ rs
  | [], cur, _, _ => by simp [joined]
  | r :: rs, cur, hlimit, hmax => by
    have hle := blockSize_le_append (cur ++ [r]) rs
    rw [List.append_cons] at hlimit hmax ⊢
    rw [joined, if_neg (not_full_iff.mpr ⟨.inr (hle.trans hlimit), hle.trans hmax⟩)]
    exact joined_of_fits hlimit hmax

/-! ## Packing -/

theorem place_flatten (limit : Nat) (p : List (List Record) × List Record) (r : Record) :
    (place limit p r).1.flatten ++ (place limit p r).2 = p.1.flatten ++ p.2 ++ [r] := by
  obtain ⟨done, cur⟩ := p
  rw [place]
  split <;> simp

theorem foldl_place_flatten (limit : Nat) : ∀ (rs : List Record)
    (p : List (List Record) × List Record),
    (rs.foldl (place limit) p).1.flatten ++ (rs.foldl (place limit) p).2 =
      p.1.flatten ++ p.2 ++ rs
  | [], p => by simp
  | r :: rs, p => by
    rw [List.foldl_cons, foldl_place_flatten limit rs, place_flatten]
    simp

/-- Packing keeps every record, in order. -/
theorem flatten_pack (limit : Nat) (rs : List Record) : (pack limit rs).flatten = rs := by
  simpa [pack] using foldl_place_flatten limit rs ([], [])

theorem place_ne_nil (limit : Nat) (p : List (List Record) × List Record) (r : Record) :
    (place limit p r).2 ≠ [] := by
  obtain ⟨done, cur⟩ := p
  rw [place]
  split <;> simp

/-- After a record the current block is not empty. -/
theorem foldl_place_ne_nil (limit : Nat) {rs : List Record} (h : rs ≠ [])
    (p : List (List Record) × List Record) : (rs.foldl (place limit) p).2 ≠ [] := by
  obtain ⟨init, r, rfl⟩ := (List.eq_nil_or_concat' rs).resolve_left h
  rw [List.foldl_append]
  exact place_ne_nil limit _ r

/-! ## Ascending blocks -/

section Ascending

variable {blocks : List (List Record)}

theorem Ascending.block (h : Ascending blocks) {b : List Record} (hb : b ∈ blocks) :
    b.Pairwise fun a b => a.key < b.key :=
  (List.pairwise_flatten.mp h).1 b hb

theorem Ascending.across (h : Ascending blocks) :
    blocks.Pairwise fun b b' => ∀ r ∈ b, ∀ r' ∈ b', r.key < r'.key :=
  (List.pairwise_flatten.mp h).2

theorem Ascending.drop (h : Ascending blocks) (n : Nat) : Ascending (blocks.drop n) := by
  rw [Ascending, ← List.take_append_drop n blocks, List.flatten_append] at h
  exact (List.pairwise_append.mp h).2.1

/-- The first record of an ascending block has the least key. -/
theorem head_le {b : List Record} (h : b.Pairwise fun a b => a.key < b.key) {f r : Record}
    (hf : f ∈ b.head?) (hr : r ∈ b) : f.key ≤ r.key := by
  obtain ⟨t, rfl⟩ := List.head?_eq_some_iff.mp hf
  rcases List.mem_cons.mp hr with rfl | hr
  · exact le_rfl
  · exact (List.rel_of_pairwise_cons h hr).le

/-- The last record of an ascending block has the greatest key. -/
theorem le_last {b : List Record} (h : b.Pairwise fun a b => a.key < b.key) {l r : Record}
    (hl : l ∈ b.getLast?) (hr : r ∈ b) : r.key ≤ l.key := by
  obtain ⟨t, rfl⟩ := List.getLast?_eq_some_iff.mp hl
  rcases List.mem_append.mp hr with hr | hr
  · exact ((List.pairwise_append.mp h).2.2 r hr l (by simp)).le
  · rw [List.mem_singleton.mp hr]

/-- A block with a record inside the end bound starts inside it. -/
theorem startsIn_of_mem {hi : Bound Key} {b : List Record}
    (h : b.Pairwise fun a b => a.key < b.key) {r : Record} (hr : r ∈ b) (hend : hi.endOk r.key) :
    StartsIn hi b :=
  fun _ hf => Bound.endOk_mono hend (head_le h hf hr)

/-- Ascending blocks reach every block that starts inside the end bound. -/
theorem mem_reach (hi : Bound Key) {r : Record} : ∀ {blocks : List (List Record)},
    Ascending blocks → (∀ b ∈ blocks, b ≠ []) →
    (r ∈ reach hi blocks ↔ ∃ b ∈ blocks, StartsIn hi b ∧ r ∈ b)
  | [], _, _ => by simp [reach]
  | b :: bs, h, hne => by
    have ih := mem_reach hi (r := r) (h.drop 1) fun b hb => hne b (List.mem_cons_of_mem _ hb)
    rw [reach, List.takeWhile_cons]
    by_cases hin : StartsIn hi b
    · rw [List.drop_succ_cons, List.drop_zero, reach] at ih
      rw [if_pos (decide_eq_true hin), List.flatten_cons, List.mem_append, ih]
      simp only [List.mem_cons, exists_eq_or_imp, hin, true_and]
    · -- No later block starts inside the bound either.
      have hlater (b' : List Record) (hb' : b' ∈ bs) : ¬ StartsIn hi b' := by
        intro hin'
        obtain ⟨f, t, rfl⟩ := List.exists_cons_of_ne_nil (hne b' (List.mem_cons_of_mem _ hb'))
        refine hin fun r hr => Bound.endOk_mono (hin' f rfl) ?_
        exact (List.rel_of_pairwise_cons h.across hb' r (List.mem_of_mem_head? hr) f
          List.mem_cons_self).le
      rw [if_neg (by simp [hin])]
      constructor
      · simp
      · rintro ⟨b', hb', hin', -⟩
        rcases List.mem_cons.mp hb' with rfl | hb'
        · exact absurd hin' hin
        · exact absurd hin' (hlater b' hb')

end Ascending

/-! ## Searching -/

section Searching

variable {k : Key} {rs : List Record} {j : Nat} (hbefore : ∀ r ∈ rs.take j, r.key < k)
  (hafter : ∀ r ∈ rs.drop j, k ≤ r.key)
include hbefore hafter

/-- The record after those below the key is the least one not below it. -/
theorem least_getElem? (hasc : rs.Pairwise fun a b => a.key < b.key) : Least k rs rs[j]? := by
  cases hj : rs[j]? with
  | none =>
    intro q hq
    rw [List.take_of_length_le (List.getElem?_eq_none_iff.mp hj)] at hbefore
    exact hbefore q hq
  | some r =>
    obtain ⟨hlt, rfl⟩ := List.getElem?_eq_some_iff.mp hj
    rw [← List.getElem_cons_drop hlt] at hafter
    refine ⟨List.getElem_mem hlt, hafter _ List.mem_cons_self, fun q hq hk => ?_⟩
    rw [← List.take_append_drop j rs, List.mem_append] at hq
    rcases hq with hq | hq
    · exact absurd hk (not_le.mpr (hbefore q hq))
    · rw [← List.getElem_cons_drop hlt, List.mem_cons] at hq
      rw [← List.take_append_drop j rs, ← List.getElem_cons_drop hlt] at hasc
      rcases hq with rfl | hq
      · exact le_rfl
      · exact (List.rel_of_pairwise_cons (List.pairwise_append.mp hasc).2.1 hq).le

theorem filter_ge_eq_drop : (rs.filter fun r => k ≤ r.key) = rs.drop j := by
  have htake : (rs.take j).filter (fun r => k ≤ r.key) = [] := by
    rw [List.filter_eq_nil_iff]
    exact fun r hr => by simpa using hbefore r hr
  have hdrop : (rs.drop j).filter (fun r => k ≤ r.key) = rs.drop j := by
    rw [List.filter_eq_self]
    exact fun r hr => by simpa using hafter r hr
  conv_lhs => rw [← List.take_append_drop j rs]
  rw [List.filter_append, htake, hdrop, List.nil_append]

end Searching

end LG.Spec.Tsdb
