import Logregator.Impl.Tsdb.Memtable

/-!
# What a memtable holds, and what a flush reads of it

A memtable built by `append` calls holds the records it accepted
(`admitted`): its first and last keys are those of the first and the last
record accepted, not the least and the greatest ones (`Holds`, kept by
`append_holds`). A flush reads between these two keys, so it hands over the
whole set exactly when they bracket it (`flush_iff_bracketed`).
-/

namespace LG.Proof.Tsdb

open LG.Impl.Tsdb LG.Impl.Tsdb.MemtableInner

/-- The records that a memtable of `size` bytes accepts of a sequence of
`append` calls: a memtable with records in it refuses one that would take it
past its limit. -/
def admitted (limit : Nat) : Nat → List Record → List Record
  | _, [] => []
  | size, r :: rs =>
    if size + r.sizeOf > limit ∧ size ≠ 0 then admitted limit size rs
    else r :: admitted limit (size + r.sizeOf) rs

/-- `m` was built by accepting the records `acc`, in this order. -/
structure Holds (m : MemtableInner) (acc : List Record) : Prop where
  first : m.firstKey = acc.head?.map Record.key
  last : m.lastKey = acc.getLast?.map Record.key
  keys : ∀ k, (∃ r ∈ m.set.elems, r.key = k) ↔ ∃ r ∈ acc, r.key = k
  size : m.sizeBytes = (acc.map Record.sizeOf).sum

theorem holds_empty (id : UInt64) (limit : Nat) : Holds (withSizeLimit id limit) [] :=
  ⟨rfl, rfl, by simp [withSizeLimit], rfl⟩

theorem append_full {m : MemtableInner} {r : Record}
    (h : m.sizeBytes + r.sizeOf > m.limit ∧ m.sizeBytes ≠ 0) :
    m.append r = (.full (some r), m) := by
  rw [append, if_pos h]

/-- A record that is accepted is the last one from then on. -/
theorem append_holds {m : MemtableInner} {acc : List Record} {r : Record} (hm : Holds m acc)
    (h : ¬ (m.sizeBytes + r.sizeOf > m.limit ∧ m.sizeBytes ≠ 0)) :
    Holds (m.append r).2 (acc ++ [r]) := by
  rw [append, if_neg h]
  refine ⟨?_, by simp, fun k => ?_, by simp [hm.size]⟩
  · simp only [hm.first]
    cases acc <;> simp
  · simp only [OrdSet.key_mem_insert, hm.keys k, List.mem_append, List.mem_singleton]
    constructor
    · rintro (rfl | ⟨x, hx, rfl⟩)
      · exact ⟨r, .inr rfl, rfl⟩
      · exact ⟨x, .inl hx, rfl⟩
    · rintro ⟨x, hx | rfl, rfl⟩
      · exact .inr ⟨x, hx, rfl⟩
      · exact .inl rfl

@[simp] theorem append_id (m : MemtableInner) (r : Record) : (m.append r).2.id = m.id := by
  unfold append
  split <;> rfl

@[simp] theorem append_limit (m : MemtableInner) (r : Record) : (m.append r).2.limit = m.limit := by
  unfold append
  split <;> rfl

/-- A sequence of `append` calls, by induction on it. -/
theorem appendAll_holds : ∀ (rs : List Record) {m : MemtableInner} {acc : List Record},
    Holds m acc → Holds (m.appendAll rs) (acc ++ admitted m.limit m.sizeBytes rs)
  | [], m, acc, hm => by simpa [appendAll, admitted] using hm
  | r :: rs, m, acc, hm => by
    rw [appendAll, List.foldl_cons, ← appendAll, admitted]
    by_cases h : m.sizeBytes + r.sizeOf > m.limit ∧ m.sizeBytes ≠ 0
    · rw [if_pos h, append_full h]
      exact appendAll_holds rs hm
    · have hs : (m.append r).2.sizeBytes = m.sizeBytes + r.sizeOf := by rw [append, if_neg h]
      have := appendAll_holds rs (append_holds hm h)
      rw [append_limit, hs, List.append_assoc] at this
      rw [if_neg h]
      exact this

/-! ## Flushing -/

/-- A flush of `m` loses nothing: computing the range does not panic, and the
records handed to the writer are all those of the set, in ascending key
order. -/
def FlushLosesNothing (m : MemtableInner) : Prop :=
  ∃ l, m.flushRecords = some l ∧ l.Perm m.set.elems ∧ l.Pairwise (·.key < ·.key)

theorem flushLosesNothing_iff {m : MemtableInner} :
    FlushLosesNothing m ↔ m.flushRecords = some m.set.elems := by
  constructor
  · intro ⟨l, h, hp, hs⟩
    have : (⟨l, hs⟩ : OrdSet Record.key) = m.set := OrdSet.ext_perm hp
    rw [h, ← this]
  · intro h
    exact ⟨_, h, .refl _, m.set.ascending⟩

/-- The first and the last record have the least and the greatest key. -/
def Bracketed (acc : List Record) : Prop :=
  ∀ first ∈ acc.head?, ∀ last ∈ acc.getLast?, ∀ r ∈ acc, first.key ≤ r.key ∧ r.key ≤ last.key

theorem flushRecords_of_holds {m : MemtableInner} {acc : List Record} (hm : Holds m acc)
    {first last : Record} (hf : acc.head? = some first) (hl : acc.getLast? = some last) :
    m.flushRecords = m.set.range (.included first.key) (.included last.key) := by
  simp [flushRecords, keyBoundsFull, hm.first, hm.last, hf, hl, MemtableInner.range]

/-- A flush hands over the whole set exactly when the first record accepted
has the least and the last one the greatest key. -/
theorem flush_of_holds {m : MemtableInner} {acc : List Record} (hm : Holds m acc) :
    m.flushRecords = some m.set.elems ↔ Bracketed acc := by
  rcases List.eq_nil_or_concat' acc with rfl | ⟨init, last, rfl⟩
  · have he : m.set.elems = [] := by
      by_contra hne
      obtain ⟨r, hr⟩ := List.exists_mem_of_ne_nil _ hne
      simpa using (hm.keys r.key).mp ⟨r, hr, rfl⟩
    simp [flushRecords, keyBoundsFull, hm.first, he, Bracketed]
  · obtain ⟨first, hf⟩ : ∃ first, (init ++ [last]).head? = some first :=
      Option.isSome_iff_exists.mp (by simp)
    have hl : (init ++ [last]).getLast? = some last := by simp
    have hset : (∀ r ∈ m.set.elems, first.key ≤ r.key ∧ r.key ≤ last.key) ↔
        ∀ r ∈ init ++ [last], first.key ≤ r.key ∧ r.key ≤ last.key := by
      constructor
      · intro h r hr
        obtain ⟨x, hx, hk⟩ := (hm.keys r.key).mpr ⟨r, hr, rfl⟩
        exact hk ▸ h x hx
      · intro h r hr
        obtain ⟨x, hx, hk⟩ := (hm.keys r.key).mp ⟨r, hr, rfl⟩
        exact hk ▸ h x hx
    rw [flushRecords_of_holds hm hf hl, OrdSet.range, Bracketed]
    simp only [hf, hl, Option.mem_def, Option.some.injEq, forall_eq']
    rw [← hset]
    constructor
    · intro h
      split at h
      · cases h
      · exact OrdSet.between_eq_elems.mp (Option.some.inj h)
    · intro h
      have hfl : first.key ≤ last.key :=
        ((hset.mp h) first (List.mem_of_mem_head? hf)).2
      rw [if_neg (by simpa [Bound.inverted] using hfl)]
      exact congrArg some (OrdSet.between_eq_elems.mpr h)

/-- For every sequence of `append` calls on an empty memtable, a flush of the
memtable reached loses nothing exactly when, of the records accepted, the
first has the least and the last the greatest key. -/
theorem flush_iff_bracketed (id : UInt64) (limit : Nat) (rs : List Record) :
    FlushLosesNothing ((withSizeLimit id limit).appendAll rs) ↔
      Bracketed (admitted limit 0 rs) := by
  have := appendAll_holds rs (holds_empty id limit)
  rw [List.nil_append] at this
  exact flushLosesNothing_iff.trans (flush_of_holds this)

/-- Three records whose streams arrive in the order 2, 1, 3. -/
def interleaved : List Record :=
  [⟨⟨2, 10, 0, 0⟩, [0, 0]⟩, ⟨⟨1, 11, 1, 0⟩, [0, 0]⟩, ⟨⟨3, 12, 2, 0⟩, [0, 0]⟩]

/-- Their keys are distinct, the memtable holds all three, and a flush drops
the record of stream 1. -/
theorem flush_drops_interleaved :
    (interleaved.map Record.key).Nodup ∧
      ((withSizeLimit 0 1000).appendAll interleaved).set.elems.length = 3 ∧
      ¬ FlushLosesNothing ((withSizeLimit 0 1000).appendAll interleaved) := by
  refine ⟨by decide, by decide, fun h => ?_⟩
  rw [flushLosesNothing_iff] at h
  revert h
  decide

end LG.Proof.Tsdb
